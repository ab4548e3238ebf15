import IllumioOps.Alerts.Lateral
import Mathlib.Data.List.Dedup
import Mathlib.Data.List.Induction

/-!
# What a stored detection is made of

Every stored detection is the merge of those that were submitted for it: the highest severity, the hull of
their times, the evidence of the latest and every end, unless there are too many (`MergeOf`). Times are
those the store writes, to the millisecond; the times submitted may be finer (`hull_to_the_millisecond`).
The invariant goes along with the list of what was merged into each row (`consolidated_passes`).
-/

set_option autoImplicit false

namespace IllumioOps.Alerts

/-! ## What is merged -/

/-- What a detection adds to a row: as it is stored, or a row that was there before. -/
structure Contribution where
  severity : Severity
  firstSeen : Int
  lastSeen : Int
  evidence : Evidence
  ends : Option (List StoredEnd)

def DetectionRow.contribution (r : DetectionRow) : Contribution :=
  ⟨r.severity, r.firstSeen, r.lastSeen, r.evidence, r.ends⟩

def DetectionWrite.contribution (d : DetectionWrite) : Contribution :=
  ⟨d.severity, dbTime d.firstSeen, dbTime d.lastSeen, d.evidence, some d.ends⟩

/-- Every end that was seen, each once. -/
def allEnds (cs : List Contribution) : List StoredEnd := (cs.flatMap fun c => c.ends.getD []).dedup

/-- A row is the merge of these: the highest severity, the hull of the times, the evidence of the latest
(of the later one on a tie), and all the ends, unknown when one was or when there are too many. -/
structure MergeOf (r : DetectionRow) (cs : List Contribution) : Prop where
  severity_mem : ∃ c ∈ cs, c.severity = r.severity
  severity_le : ∀ c ∈ cs, c.severity.index ≤ r.severity.index
  first_mem : ∃ c ∈ cs, c.firstSeen = r.firstSeen
  first_le : ∀ c ∈ cs, r.firstSeen ≤ c.firstSeen
  last_mem : ∃ c ∈ cs, c.lastSeen = r.lastSeen
  last_le : ∀ c ∈ cs, c.lastSeen ≤ r.lastSeen
  evidence : ∃ before c after, cs = before ++ c :: after ∧ c.evidence = r.evidence ∧
    (∀ b ∈ before, b.lastSeen ≤ c.lastSeen) ∧ ∀ a ∈ after, a.lastSeen < c.lastSeen
  unknown : r.ends = none ↔ (∃ c ∈ cs, c.ends = none) ∨ maxEnds < (allEnds cs).length
  known : ∀ ends, r.ends = some ends → ∀ e, e ∈ ends ↔ e ∈ allEnds cs

/-! ## One detection after the other -/

/-- A detection as a pass submits it. -/
abbrev Submitted := DetectionPass × DetectionWrite

/-- The detections of the passes, in the order they are written. -/
def submitted (passes : List DetectionPass) : List Submitted :=
  passes.flatMap fun p => p.found.map fun d => (p, d)

/-- The rows a detection can extend. -/
def DetectionTable.near (t : DetectionTable) (s : Submitted) : List DetectionRow :=
  t.rows.filter fun r => decide (r.detector = s.2.detector) &&
    decide (r.fingerprint = s.2.fingerprint) &&
    decide (dbTime (s.2.firstSeen - s.1.dedup s.2.detector) ≤ r.lastSeen) &&
    decide (r.firstSeen ≤ dbTime (s.2.lastSeen + s.1.dedup s.2.detector))

/-- The table after a detection. -/
def DetectionTable.write (t : DetectionTable) (s : Submitted) : DetectionTable :=
  t.upsert s.1.dedup s.1.late (dbTime s.1.at_) s.2

def DetectionTable.writeAll (t : DetectionTable) (ss : List Submitted) : DetectionTable :=
  ss.foldl DetectionTable.write t

/-- The id of the row a detection goes to. -/
def DetectionTable.target (t : DetectionTable) (s : Submitted) : Nat :=
  match nearest s.2 (t.near s) with
  | some old => old.id
  | none => t.sequence + 1

/-- The detections, each with the id of the row it went to. -/
def joined : DetectionTable → List Submitted → List (Nat × DetectionWrite)
  | _, [] => []
  | t, s :: ss => (t.target s, s.2) :: joined (t.write s) ss

/-- What a row was made of: the row that was there at first, and what was merged into it. -/
def contributions (t : DetectionTable) (ss : List Submitted) (id : Nat) : List Contribution :=
  (t.rows.filter fun r => decide (r.id = id)).map DetectionRow.contribution ++
    ((joined t ss).filter fun p => decide (p.1 = id)).map fun p => p.2.contribution

/-- A detection as a pass makes it: every end once, the first sighting not after the last one, and a window
to look for a row in. -/
structure WellFormed (s : Submitted) : Prop where
  ends : s.2.ends.Nodup
  times : s.2.firstSeen ≤ s.2.lastSeen
  window : 0 ≤ s.1.dedup s.2.detector

/-- A row as the store writes it. -/
structure Stored (r : DetectionRow) : Prop where
  first : dbTime r.firstSeen = r.firstSeen
  last : dbTime r.lastSeen = r.lastSeen
  ends : ∀ ends ∈ r.ends, ends.Nodup ∧ ends.length ≤ maxEnds

/-- What is owed over detections submitted to a table. -/
structure Consolidated (t : DetectionTable) (ss : List Submitted) : Prop where
  merges : ∀ r ∈ (t.writeAll ss).rows, MergeOf r (contributions t ss r.id)
  rises : ∀ before after, ss = before ++ after → ∀ r ∈ (t.writeAll before).rows,
    ∃ r' ∈ (t.writeAll ss).rows, r'.id = r.id ∧ r.severity.index ≤ r'.severity.index
  joins : ∀ before s after, ss = before ++ s :: after → ∀ r ∈ (t.writeAll before).rows,
    r.id = (t.writeAll before).target s → r.detector = s.2.detector ∧
      r.fingerprint = s.2.fingerprint ∧
      dbTime (s.2.firstSeen - s.1.dedup s.2.detector) ≤ r.lastSeen ∧
      r.firstSeen ≤ dbTime (s.2.lastSeen + s.1.dedup s.2.detector)
  again : ∀ before s between s' after, ss = before ++ s :: between ++ s' :: after → s'.2 = s.2 →
    (t.writeAll (before ++ s :: between ++ [s'])).rows.length =
      (t.writeAll (before ++ s :: between)).rows.length

/-! ## The nearest row -/

theorem nearest_spec (d : DetectionWrite) (rows : List DetectionRow) :
    (rows = [] ∧ nearest d rows = none) ∨ ∃ r ∈ rows, nearest d rows = some r := by
  induction rows using List.reverseRecOn with
  | nil => exact Or.inl ⟨rfl, rfl⟩
  | append_singleton rows r ih =>
      right
      rw [nearest, List.foldl_append]
      rcases ih with ⟨rfl, hnone⟩ | ⟨b, hb, hsome⟩
      · exact ⟨r, by simp, rfl⟩
      · rw [← nearest, hsome, List.foldl_cons, List.foldl_nil]
        by_cases hcloser : distance r d < distance b d ∨ distance r d = distance b d ∧ b.id < r.id
        · exact ⟨r, by simp, if_pos hcloser⟩
        · exact ⟨b, List.mem_append_left _ hb, if_neg hcloser⟩

/-- A detection extends a row that it is near to, or makes a new one. -/
theorem write_cases (t : DetectionTable) (s : Submitted) :
    (t.near s = [] ∧ t.target s = t.sequence + 1 ∧
        t.write s = t.insert s.2 s.1.late (dbTime s.1.at_)) ∨
      ∃ old ∈ t.near s, t.target s = old.id ∧ t.write s = t.extend s.2 old.id (dbTime s.1.at_) := by
  have hwrite : t.write s = match nearest s.2 (t.near s) with
      | some old => t.extend s.2 old.id (dbTime s.1.at_)
      | none => t.insert s.2 s.1.late (dbTime s.1.at_) := rfl
  rcases nearest_spec s.2 (t.near s) with ⟨hnil, hnone⟩ | ⟨old, hold, hsome⟩
  · left
    rw [hwrite, DetectionTable.target, hnone]
    exact ⟨hnil, rfl, rfl⟩
  · right
    rw [hwrite, DetectionTable.target, hsome]
    exact ⟨old, hold, rfl, rfl⟩

theorem mem_near {t : DetectionTable} {s : Submitted} {r : DetectionRow} :
    r ∈ t.near s ↔ r ∈ t.rows ∧ r.detector = s.2.detector ∧ r.fingerprint = s.2.fingerprint ∧
      dbTime (s.2.firstSeen - s.1.dedup s.2.detector) ≤ r.lastSeen ∧
      r.firstSeen ≤ dbTime (s.2.lastSeen + s.1.dedup s.2.detector) := by
  simp [DetectionTable.near, and_assoc]

/-! ## One merge -/

section Merge

variable {r : DetectionRow} {cs : List Contribution} {d : DetectionWrite}

theorem index_higher (a b : Severity) :
    (higher a b).index = max a.index b.index := by
  unfold higher
  split
  · rename_i hle
    exact (Nat.max_eq_left hle).symm
  · rename_i hlt
    exact (Nat.max_eq_right (Nat.le_of_lt (Nat.lt_of_not_le hlt))).symm

theorem mem_allEnds {e : StoredEnd} :
    e ∈ allEnds cs ↔ ∃ c ∈ cs, e ∈ c.ends.getD [] := by
  rw [allEnds, List.mem_dedup, List.mem_flatMap]

/-- The ends that are added, each once. -/
theorem foldl_ends_spec (old new : List StoredEnd) (hold : old.Nodup) :
    (new.foldl (fun ends e => if e ∈ ends then ends else ends ++ [e]) old).Nodup ∧
      ∀ e, e ∈ new.foldl (fun ends e => if e ∈ ends then ends else ends ++ [e]) old ↔
        e ∈ old ∨ e ∈ new := by
  induction new generalizing old with
  | nil => exact ⟨hold, fun e => (or_iff_left List.not_mem_nil).symm⟩
  | cons x new ih =>
      rw [List.foldl_cons]
      by_cases hx : x ∈ old
      · rw [if_pos hx]
        obtain ⟨hnodup, hmem⟩ := ih old hold
        refine ⟨hnodup, fun e => (hmem e).trans ⟨?_, ?_⟩⟩
        · exact fun h => h.imp_right (List.mem_cons_of_mem x)
        · rintro (h | h)
          · exact Or.inl h
          · rcases List.mem_cons.mp h with rfl | h
            · exact Or.inl hx
            · exact Or.inr h
      · rw [if_neg hx]
        obtain ⟨hnodup, hmem⟩ := ih (old ++ [x])
          (List.nodup_append.mpr ⟨hold, List.nodup_singleton x, by
            rintro a ha b hb rfl
            exact hx (List.mem_singleton.mp hb ▸ ha)⟩)
        refine ⟨hnodup, fun e => (hmem e).trans ?_⟩
        rw [List.mem_append, List.mem_singleton, List.mem_cons, or_assoc]

theorem length_eq_allEnds {ends : List StoredEnd} (hnodup : ends.Nodup)
    (hmem : ∀ e, e ∈ ends ↔ e ∈ allEnds cs) : ends.length = (allEnds cs).length :=
  ((List.perm_ext_iff_of_nodup hnodup (List.nodup_dedup _)).mpr hmem).length_eq

/-- The row of a new detection is the merge of that one. -/
theorem mergeOf_row (hends : d.ends.Nodup) (id : Nat) (late : Bool) (stamp : Int) :
    MergeOf (d.row id late stamp) [d.contribution] := by
  have hall : allEnds [d.contribution] = d.ends := by
    simp [allEnds, DetectionWrite.contribution, hends.dedup]
  have hone : ∀ {p : Contribution → Prop}, p d.contribution → ∀ c ∈ [d.contribution], p c :=
    fun h c hc => List.mem_singleton.mp hc ▸ h
  refine ⟨⟨_, List.mem_singleton.mpr rfl, rfl⟩, hone (le_refl _), ⟨_, List.mem_singleton.mpr rfl, rfl⟩,
    hone (le_refl _), ⟨_, List.mem_singleton.mpr rfl, rfl⟩, hone (le_refl _), ?_, ?_, ?_⟩
  · exact ⟨[], d.contribution, [], rfl, rfl, fun _ h => absurd h List.not_mem_nil,
      fun _ h => absurd h List.not_mem_nil⟩
  · rw [hall]
    simp [DetectionWrite.row, boundedEnds, DetectionWrite.contribution]
  · intro ends hsome e
    rw [hall]
    simp only [DetectionWrite.row, boundedEnds] at hsome
    split at hsome
    · cases hsome
    · rw [Option.some.inj hsome]

/-- A row that was there before is the merge of itself. -/
theorem mergeOf_self (h : Stored r) : MergeOf r [r.contribution] := by
  have hone : ∀ {p : Contribution → Prop}, p r.contribution → ∀ c ∈ [r.contribution], p c :=
    fun h c hc => List.mem_singleton.mp hc ▸ h
  refine ⟨⟨_, List.mem_singleton.mpr rfl, rfl⟩, hone (le_refl _), ⟨_, List.mem_singleton.mpr rfl, rfl⟩,
    hone (le_refl _), ⟨_, List.mem_singleton.mpr rfl, rfl⟩, hone (le_refl _), ?_, ?_, ?_⟩
  · exact ⟨[], r.contribution, [], rfl, rfl, fun _ h => absurd h List.not_mem_nil,
      fun _ h => absurd h List.not_mem_nil⟩
  · cases hends : r.ends with
    | none => simp [DetectionRow.contribution, hends]
    | some ends =>
        obtain ⟨hnodup, hle⟩ := h.ends ends hends
        have hall : allEnds [r.contribution] = ends := by
          simp [allEnds, DetectionRow.contribution, hends, hnodup.dedup]
        rw [hall]
        simpa [DetectionRow.contribution, hends] using hle
  · intro ends hsome e
    simp [mem_allEnds, DetectionRow.contribution, hsome]

theorem mem_allEnds_append {e : StoredEnd} :
    e ∈ allEnds (cs ++ [d.contribution]) ↔ e ∈ allEnds cs ∨ e ∈ d.ends := by
  simp only [mem_allEnds, List.mem_append, List.mem_singleton, or_and_right, exists_or, exists_eq_left]
  rfl

/-- The ends of an extended row: unknown stays unknown, and too many become unknown. -/
theorem MergeOf.ends_extended (h : MergeOf r cs) (hstored : Stored r) (d : DetectionWrite)
    (stamp : Int) :
    ((r.extended d stamp).ends = none ↔ (∃ c ∈ cs, c.ends = none) ∨
        maxEnds < (allEnds (cs ++ [d.contribution])).length) ∧
      ∀ ends, (r.extended d stamp).ends = some ends →
        ∀ e, e ∈ ends ↔ e ∈ allEnds (cs ++ [d.contribution]) := by
  have hmerged : (r.extended d stamp).ends = mergedEnds r.ends d.ends := rfl
  rw [hmerged]
  cases hends : r.ends with
  | none =>
      refine ⟨iff_of_true rfl ?_, fun ends hsome => absurd hsome (by simp [mergedEnds])⟩
      refine (h.unknown.mp hends).imp_right fun hmany => lt_of_lt_of_le hmany ?_
      refine List.Subperm.length_le (List.Nodup.subperm (List.nodup_dedup _) fun e he => ?_)
      exact mem_allEnds_append.mpr (Or.inl he)
  | some old =>
      obtain ⟨hnodup, hmem⟩ := foldl_ends_spec old d.ends (hstored.ends old hends).1
      have hall : ∀ e, e ∈ d.ends.foldl (fun ends e => if e ∈ ends then ends else ends ++ [e]) old ↔
          e ∈ allEnds (cs ++ [d.contribution]) := by
        intro e
        rw [hmem, mem_allEnds_append, h.known old hends e]
      have hlength := length_eq_allEnds hnodup hall
      have hknown : ¬ ∃ c ∈ cs, c.ends = none := by
        intro hnone
        rw [h.unknown.mpr (Or.inl hnone)] at hends
        cases hends
      rw [mergedEnds, boundedEnds, hlength, or_iff_right hknown]
      refine ⟨by simp, fun ends hsome => ?_⟩
      split at hsome
      · cases hsome
      · obtain rfl := Option.some.inj hsome
        exact hall

/-- One more detection is merged into a row. -/
theorem MergeOf.extended (h : MergeOf r cs) (hstored : Stored r) (stamp : Int) :
    MergeOf (r.extended d stamp) (cs ++ [d.contribution]) := by
  have hlast : d.contribution ∈ cs ++ [d.contribution] := by simp
  have hevery : ∀ {p : Contribution → Prop}, (∀ c ∈ cs, p c) → p d.contribution →
      ∀ c ∈ cs ++ [d.contribution], p c := by
    intro p hcs hd c hc
    rcases List.mem_append.mp hc with hc | hc
    · exact hcs c hc
    · exact List.mem_singleton.mp hc ▸ hd
  constructor
  · -- the higher of the two is one of them
    simp only [DetectionRow.extended, higher]
    split
    · obtain ⟨c, hc, heq⟩ := h.severity_mem
      exact ⟨c, List.mem_append_left _ hc, heq⟩
    · exact ⟨d.contribution, hlast, rfl⟩
  · have hindex : (r.extended d stamp).severity.index = max r.severity.index d.severity.index :=
      index_higher r.severity d.severity
    rw [hindex]
    exact hevery (fun c hc => (h.severity_le c hc).trans (le_max_left _ _)) (le_max_right _ _)
  · rcases min_choice r.firstSeen (dbTime d.firstSeen) with hmin | hmin
    · obtain ⟨c, hc, heq⟩ := h.first_mem
      exact ⟨c, List.mem_append_left _ hc, heq.trans hmin.symm⟩
    · exact ⟨d.contribution, hlast, hmin.symm⟩
  · exact hevery (fun c hc => (min_le_left _ _).trans (h.first_le c hc)) (min_le_right _ _)
  · rcases max_choice r.lastSeen (dbTime d.lastSeen) with hmax | hmax
    · obtain ⟨c, hc, heq⟩ := h.last_mem
      exact ⟨c, List.mem_append_left _ hc, heq.trans hmax.symm⟩
    · exact ⟨d.contribution, hlast, hmax.symm⟩
  · exact hevery (fun c hc => (h.last_le c hc).trans (le_max_left _ _)) (le_max_right _ _)
  · -- what is stored is whole milliseconds, so the comparison is that of the stored times
    have hnewer : r.lastSeen ≤ d.lastSeen ↔ r.lastSeen ≤ dbTime d.lastSeen := by
      constructor
      · intro hle
        rw [← hstored.last]
        exact dbTime_mono hle
      · exact fun hle => hle.trans (dbTime_le _)
    simp only [DetectionRow.extended]
    by_cases hle : r.lastSeen ≤ d.lastSeen
    · rw [if_pos hle]
      exact ⟨cs, d.contribution, [], rfl, rfl, fun b hb => (h.last_le b hb).trans (hnewer.mp hle),
        fun _ h => absurd h List.not_mem_nil⟩
    · rw [if_neg hle]
      obtain ⟨before, c, after, hsplit, heq, hbefore, hafter⟩ := h.evidence
      refine ⟨before, c, after ++ [d.contribution], by rw [hsplit]; simp, heq, hbefore, ?_⟩
      have hnewest : r.lastSeen ≤ c.lastSeen := by
        obtain ⟨b, hb, hlastSeen⟩ := h.last_mem
        rw [hsplit] at hb
        rw [← hlastSeen]
        rcases List.mem_append.mp hb with hb | hb
        · exact hbefore b hb
        · rcases List.mem_cons.mp hb with rfl | hb
          · exact le_refl _
          · exact le_of_lt (hafter b hb)
      intro a ha
      rcases List.mem_append.mp ha with ha | ha
      · exact hafter a ha
      · rw [List.mem_singleton.mp ha]
        exact lt_of_lt_of_le (not_le.mp fun hstill => hle (hnewer.mpr hstill)) hnewest
  · have hends : (∃ c ∈ cs ++ [d.contribution], c.ends = none) ↔ ∃ c ∈ cs, c.ends = none := by
      simp [DetectionWrite.contribution, or_and_right, exists_or]
    rw [hends]
    exact (h.ends_extended hstored d stamp).1
  · exact (h.ends_extended hstored d stamp).2

/-- Extending keeps what a row is stored as. -/
theorem Stored.extended (h : Stored r) (stamp : Int) : Stored (r.extended d stamp) := by
  constructor
  · rcases min_choice r.firstSeen (dbTime d.firstSeen) with hmin | hmin
    · simp only [DetectionRow.extended, hmin, h.first]
    · simp only [DetectionRow.extended, hmin, dbTime_dbTime]
  · rcases max_choice r.lastSeen (dbTime d.lastSeen) with hmax | hmax
    · simp only [DetectionRow.extended, hmax, h.last]
    · simp only [DetectionRow.extended, hmax, dbTime_dbTime]
  · intro ends hends
    simp only [DetectionRow.extended, Option.mem_def] at hends
    cases hold : r.ends with
    | none =>
        rw [hold] at hends
        cases hends
    | some old =>
        rw [hold, mergedEnds, boundedEnds] at hends
        split at hends
        · cases hends
        · rename_i hle
          obtain rfl := Option.some.inj hends
          exact ⟨(foldl_ends_spec old d.ends (h.ends old hold).1).1, not_lt.mp hle⟩

theorem stored_row (hends : d.ends.Nodup) (id : Nat) (late : Bool) (stamp : Int) :
    Stored (d.row id late stamp) := by
  refine ⟨dbTime_dbTime _, dbTime_dbTime _, fun ends hsome => ?_⟩
  simp only [DetectionWrite.row, boundedEnds, Option.mem_def] at hsome
  split at hsome
  · cases hsome
  · rename_i hle
    obtain rfl := Option.some.inj hsome
    exact ⟨hends, not_lt.mp hle⟩

end Merge

/-! ## One write -/

section Run

variable {t : DetectionTable} {s : Submitted} {ss : List Submitted}

theorem writeAll_append (t : DetectionTable) (ss more : List Submitted) :
    t.writeAll (ss ++ more) = (t.writeAll ss).writeAll more := List.foldl_append

theorem joined_append (t : DetectionTable) (ss more : List Submitted) :
    joined t (ss ++ more) = joined t ss ++ joined (t.writeAll ss) more := by
  induction ss generalizing t with
  | nil => rfl
  | cons s ss ih => exact congrArg ((t.target s, s.2) :: ·) (ih (t.write s))

theorem contributions_snoc (t : DetectionTable) (ss : List Submitted) (s : Submitted) (id : Nat) :
    contributions t (ss ++ [s]) id = contributions t ss id ++
      if (t.writeAll ss).target s = id then [s.2.contribution] else [] := by
  rw [contributions, contributions, joined_append, List.filter_append, List.map_append,
    ← List.append_assoc]
  by_cases hid : (t.writeAll ss).target s = id
  · simp [joined, hid]
  · simp [joined, hid]

/-- Rows stay, and what they cover grows. -/
theorem write_keeps (t : DetectionTable) (s : Submitted) : ∀ r ∈ t.rows, ∃ r' ∈ (t.write s).rows,
    r'.id = r.id ∧ r.severity.index ≤ r'.severity.index ∧ r'.detector = r.detector ∧
      r'.fingerprint = r.fingerprint ∧ r'.firstSeen ≤ r.firstSeen ∧ r.lastSeen ≤ r'.lastSeen := by
  intro r hr
  rcases write_cases t s with ⟨-, -, hwrite⟩ | ⟨old, -, -, hwrite⟩
  · rw [hwrite]
    exact ⟨r, List.mem_append_left _ hr, rfl, le_refl _, rfl, rfl, le_refl _, le_refl _⟩
  · rw [hwrite]
    by_cases hid : r.id = old.id
    · refine ⟨r.extended s.2 (dbTime s.1.at_), List.mem_map.mpr ⟨r, hr, if_pos hid⟩, rfl, ?_, rfl,
        rfl, min_le_left _ _, le_max_left _ _⟩
      simp only [DetectionRow.extended, index_higher]
      exact le_max_left _ _
    · exact ⟨r, List.mem_map.mpr ⟨r, hr, if_neg hid⟩, rfl, le_refl _, rfl, rfl, le_refl _, le_refl _⟩

/-- By induction on the detections. -/
theorem writeAll_keeps (t : DetectionTable) (ss : List Submitted) : ∀ r ∈ t.rows,
    ∃ r' ∈ (t.writeAll ss).rows, r'.id = r.id ∧ r.severity.index ≤ r'.severity.index ∧
      r'.detector = r.detector ∧ r'.fingerprint = r.fingerprint ∧ r'.firstSeen ≤ r.firstSeen ∧
      r.lastSeen ≤ r'.lastSeen := by
  induction ss generalizing t with
  | nil => exact fun r hr => ⟨r, hr, rfl, le_refl _, rfl, rfl, le_refl _, le_refl _⟩
  | cons s ss ih =>
      intro r hr
      obtain ⟨q, hq, hid, hsev, hdet, hfp, hfirst, hlast⟩ := write_keeps t s r hr
      obtain ⟨p, hp, hid', hsev', hdet', hfp', hfirst', hlast'⟩ := ih (t.write s) q hq
      exact ⟨p, hp, hid'.trans hid, hsev.trans hsev', hdet'.trans hdet, hfp'.trans hfp,
        hfirst'.trans hfirst, hlast.trans hlast'⟩

/-- A detection that was written lies in a row of its own kind. -/
theorem write_covers (t : DetectionTable) (s : Submitted) : ∃ r ∈ (t.write s).rows,
    r.detector = s.2.detector ∧ r.fingerprint = s.2.fingerprint ∧
      r.firstSeen ≤ dbTime s.2.firstSeen ∧ dbTime s.2.lastSeen ≤ r.lastSeen := by
  rcases write_cases t s with ⟨-, -, hwrite⟩ | ⟨old, hold, -, hwrite⟩
  · rw [hwrite]
    exact ⟨_, List.mem_append_right _ (List.mem_singleton.mpr rfl), rfl, rfl, le_refl _, le_refl _⟩
  · rw [hwrite]
    obtain ⟨hmem, hdet, hfp, -⟩ := mem_near.mp hold
    exact ⟨old.extended s.2 (dbTime s.1.at_), List.mem_map.mpr ⟨old, hmem, if_pos rfl⟩, hdet, hfp,
      min_le_right _ _, le_max_right _ _⟩

/-- A detection that lies in a row of its kind adds none. -/
theorem length_write (hs : WellFormed s) {r : DetectionRow} (hr : r ∈ t.rows)
    (hdet : r.detector = s.2.detector) (hfp : r.fingerprint = s.2.fingerprint)
    (hfirst : r.firstSeen ≤ dbTime s.2.firstSeen) (hlast : dbTime s.2.lastSeen ≤ r.lastSeen) :
    (t.write s).rows.length = t.rows.length := by
  have hnear : r ∈ t.near s := by
    refine mem_near.mpr ⟨hr, hdet, hfp, ?_, ?_⟩
    · refine le_trans (dbTime_mono ?_) hlast
      have htimes := hs.times
      have hwindow := hs.window
      omega
    · refine le_trans hfirst (dbTime_mono ?_)
      have htimes := hs.times
      have hwindow := hs.window
      omega
  rcases write_cases t s with ⟨hnil, -, -⟩ | ⟨old, -, -, hwrite⟩
  · rw [hnil] at hnear
    exact absurd hnear List.not_mem_nil
  · rw [hwrite]
    exact List.length_map _

/-! ## Every write -/

theorem filter_id_eq {r : DetectionRow} (hr : r ∈ t.rows) :
    (t.rows.filter fun q => decide (q.id = r.id)) = [r] := by
  have hnodup : t.rows.Nodup := t.ordered.imp fun hab heq => absurd (heq ▸ hab) (lt_irrefl _)
  refine List.perm_singleton.mp ((List.perm_ext_iff_of_nodup (hnodup.filter _)
    (List.nodup_singleton r)).mpr fun q => ?_)
  rw [List.mem_filter, decide_eq_true_eq, List.mem_singleton]
  constructor
  · exact fun h => DetectionTable.eq_of_id h.1 hr h.2
  · rintro rfl
    exact ⟨hr, rfl⟩

/-- The invariant: every row is the merge of what went to it, and nothing went to an id not given yet. -/
structure MergedRows (t : DetectionTable) (ss : List Submitted) : Prop where
  merges : ∀ r ∈ (t.writeAll ss).rows, MergeOf r (contributions t ss r.id) ∧ Stored r
  given : ∀ p ∈ joined t ss, p.1 ≤ (t.writeAll ss).sequence
  grows : t.sequence ≤ (t.writeAll ss).sequence

theorem mergedRows_start (ht : ∀ r ∈ t.rows, Stored r) : MergedRows t [] := by
  refine ⟨fun r hr => ⟨?_, ht r hr⟩, fun _ h => absurd h List.not_mem_nil, le_refl _⟩
  have hrow : r ∈ t.rows := hr
  rw [contributions, filter_id_eq hrow]
  exact mergeOf_self (ht r hr)

theorem contributions_fresh (h : MergedRows t ss) {id : Nat} (hid : (t.writeAll ss).sequence < id) :
    contributions t ss id = [] := by
  have hrows : (t.rows.filter fun r => decide (r.id = id)) = [] := by
    refine List.filter_eq_nil_iff.mpr fun r hr => ?_
    have hle := (t.bounded r hr).trans h.grows
    simp only [decide_eq_true_eq]
    omega
  have hjoined : ((joined t ss).filter fun p => decide (p.1 = id)) = [] := by
    refine List.filter_eq_nil_iff.mpr fun p hp => ?_
    have hle := h.given p hp
    simp only [decide_eq_true_eq]
    omega
  rw [contributions, hrows, hjoined]
  rfl

theorem MergedRows.step (h : MergedRows t ss) (hs : WellFormed s) : MergedRows t (ss ++ [s]) := by
  have hafter : t.writeAll (ss ++ [s]) = (t.writeAll ss).write s := writeAll_append t ss [s]
  have hjoined : joined t (ss ++ [s]) = joined t ss ++ [((t.writeAll ss).target s, s.2)] :=
    joined_append t ss [s]
  rcases write_cases (t.writeAll ss) s with ⟨-, htarget, hwrite⟩ | ⟨old, hold, htarget, hwrite⟩
  · -- a new row, made of the detection alone
    refine ⟨fun r hr => ?_, ?_, ?_⟩
    · rw [hafter, hwrite] at hr
      rw [contributions_snoc, htarget]
      rcases List.mem_append.mp hr with hr | hr
      · have hle := (t.writeAll ss).bounded r hr
        rw [if_neg (by omega), List.append_nil]
        exact h.merges r hr
      · have hid : (s.2.row ((t.writeAll ss).sequence + 1) s.1.late (dbTime s.1.at_)).id =
            (t.writeAll ss).sequence + 1 := rfl
        rw [List.mem_singleton.mp hr, hid, if_pos rfl, contributions_fresh h (Nat.lt_succ_self _),
          List.nil_append]
        exact ⟨mergeOf_row hs.ends _ _ _, stored_row hs.ends _ _ _⟩
    · intro p hp
      rw [hjoined] at hp
      rw [hafter, hwrite]
      rcases List.mem_append.mp hp with hp | hp
      · exact (h.given p hp).trans (Nat.le_succ _)
      · rw [List.mem_singleton.mp hp, htarget]
        exact le_refl _
    · rw [hafter, hwrite]
      exact h.grows.trans (Nat.le_succ _)
  · -- the nearest row is extended
    have hmem := (mem_near.mp hold).1
    refine ⟨fun r hr => ?_, ?_, ?_⟩
    · rw [hafter, hwrite] at hr
      obtain ⟨q, hq, rfl⟩ := List.mem_map.mp hr
      obtain ⟨hmerge, hstored⟩ := h.merges q hq
      rw [contributions_snoc, htarget]
      by_cases hid : q.id = old.id
      · rw [if_pos hid]
        have hsame : (q.extended s.2 (dbTime s.1.at_)).id = q.id := rfl
        rw [hsame, if_pos hid.symm]
        exact ⟨hmerge.extended hstored _, hstored.extended _⟩
      · rw [if_neg hid, if_neg (Ne.symm hid), List.append_nil]
        exact ⟨hmerge, hstored⟩
    · intro p hp
      rw [hjoined] at hp
      rw [hafter, hwrite]
      rcases List.mem_append.mp hp with hp | hp
      · exact h.given p hp
      · rw [List.mem_singleton.mp hp, htarget]
        exact (t.writeAll ss).bounded old hmem
    · rw [hafter, hwrite]
      exact h.grows

theorem mergedRows (ht : ∀ r ∈ t.rows, Stored r) (hss : ∀ s ∈ ss, WellFormed s) : MergedRows t ss := by
  induction ss using List.reverseRecOn with
  | nil => exact mergedRows_start ht
  | append_singleton ss s ih =>
      exact (ih fun q hq => hss q (List.mem_append_left _ hq)).step (hss s (by simp))

/-- The detections of the passes are written one after the other. -/
theorem runPasses_eq (t : DetectionTable) (passes : List DetectionPass) :
    passes.foldl (fun t p => t.upsertDetections p.found p.dedup p.late p.at_) t =
      t.writeAll (submitted passes) := by
  induction passes generalizing t with
  | nil => rfl
  | cons p passes ih =>
      have hsplit : submitted (p :: passes) = p.found.map (fun d => (p, d)) ++ submitted passes := rfl
      rw [List.foldl_cons, ih, hsplit, writeAll_append]
      congr 1
      rw [DetectionTable.writeAll, List.foldl_map]
      rfl

end Run

/-- **Every stored detection is the merge of what was submitted for it**, over every sequence of passes
on a table of the store. -/
theorem consolidated_passes {t : DetectionTable} (ht : ∀ r ∈ t.rows, Stored r)
    {passes : List DetectionPass} (hpasses : ∀ s ∈ submitted passes, WellFormed s) :
    passes.foldl (fun t p => t.upsertDetections p.found p.dedup p.late p.at_) t =
        t.writeAll (submitted passes) ∧
      Consolidated t (submitted passes) := by
  refine ⟨runPasses_eq t passes, fun r hr => ((mergedRows ht hpasses).merges r hr).1, ?_, ?_, ?_⟩
  · intro before after hsplit r hr
    obtain ⟨r', hr', hid, hseverity, -⟩ := writeAll_keeps (t.writeAll before) after r hr
    rw [hsplit, writeAll_append]
    exact ⟨r', hr', hid, hseverity⟩
  · intro before s after hsplit r hr hid
    rcases write_cases (t.writeAll before) s with ⟨-, htarget, -⟩ | ⟨old, hold, htarget, -⟩
    · have hle := (t.writeAll before).bounded r hr
      omega
    · obtain ⟨hmem, hnear⟩ := mem_near.mp hold
      rw [DetectionTable.eq_of_id hr hmem (hid.trans htarget)]
      exact hnear
  · intro before s between s' after hsplit hsame
    have hs' : WellFormed s' := hpasses s' (by rw [hsplit]; simp)
    -- the row that covers the detection since it was written first still does
    obtain ⟨q, hq, hdet, hfp, hfirst, hlast⟩ := write_covers (t.writeAll before) s
    obtain ⟨r, hr, -, -, hdet', hfp', hfirst', hlast'⟩ := writeAll_keeps _ between q hq
    have htable : t.writeAll (before ++ s :: between) =
        ((t.writeAll before).write s).writeAll between := by
      rw [writeAll_append]
      rfl
    rw [← htable] at hr
    rw [writeAll_append]
    refine length_write hs' hr ?_ ?_ ?_ ?_
    · rw [hdet', hdet, hsame]
    · rw [hfp', hfp, hsame]
    · rw [hsame]
      exact hfirst'.trans hfirst
    · rw [hsame]
      exact hlast.trans hlast'

/-- A table without rows. -/
def noDetections : DetectionTable := ⟨[], 0, DetectionTable.nil_ordered, DetectionTable.nil_bounded⟩

/-- A surge of a host, seen once. -/
def surgeOf (severity : Severity) (seen : Int) : DetectionWrite where
  detector := .blockedSurge
  fingerprint := "a"
  subjectKey := "a"
  severity := severity
  firstSeen := seen
  lastSeen := seen
  criticalAsset := false
  evidence := ⟨"\x7b\x7d", "\x7b\x7d", "\x7b\x7d"⟩
  ends := [⟨"s", "a", "10.0.0.1"⟩]

/-- A pass with a window of a second. -/
def surgePass (found : List DetectionWrite) : DetectionPass := ⟨0, false, found, fun _ => seconds 1⟩

/-- Two surges within a second, the later one submitted first. -/
theorem consolidated_passes_two :
    Consolidated noDetections
      (submitted [surgePass [surgeOf .high (milliseconds 900)], surgePass [surgeOf .low 0]]) := by
  refine (consolidated_passes (t := noDetections) (fun _ h => absurd h List.not_mem_nil) ?_).2
  intro s hs
  simp only [submitted, surgePass, List.flatMap_cons, List.flatMap_nil, List.map_cons, List.map_nil,
    List.append_nil, List.cons_append, List.nil_append, List.mem_cons, List.not_mem_nil, or_false] at hs
  rcases hs with rfl | rfl
  · exact ⟨by decide, by decide, by decide⟩
  · exact ⟨by decide, by decide, by decide⟩

/-- A surge seen a microsecond after a whole millisecond is stored as seen on it: no detection that was
submitted was first seen then. -/
theorem hull_to_the_millisecond :
    ¬ ∀ passes : List DetectionPass, (∀ s ∈ submitted passes, WellFormed s) →
      ∀ r ∈ (passes.foldl (fun t p => t.upsertDetections p.found p.dedup p.late p.at_)
        noDetections).rows, ∃ s ∈ submitted passes, s.2.firstSeen = r.firstSeen := by
  intro h
  have hfound : submitted [surgePass [surgeOf .high 1]] =
      [(surgePass [surgeOf .high 1], surgeOf .high 1)] := rfl
  obtain ⟨s, hs, hfirst⟩ := h [surgePass [surgeOf .high 1]]
    (by
      intro s hs
      rw [hfound, List.mem_singleton] at hs
      rw [hs]
      exact ⟨by decide, by decide, by decide⟩)
    ((surgeOf .high 1).row 1 false 0) (List.mem_singleton.mpr rfl)
  rw [hfound, List.mem_singleton] at hs
  rw [hs] at hfirst
  exact absurd hfirst (by decide)

end IllumioOps.Alerts
