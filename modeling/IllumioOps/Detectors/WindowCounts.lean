import IllumioOps.Domain.Values
import IllumioOps.Tables.Sliding
import Mathlib.Data.Finset.Max
import Mathlib.Order.Bounds.Basic

/-!
# Counts of a window

The windows of `domain.detectors`: the most distinct keys among the observations of a window that ends at
one of them. The observations are taken in the order of their time; those of one millisecond stand in the
order they were read in, and the count at an observation is made before the ones after it are read
(`window_count_right_iff`).
-/

set_option autoImplicit false

namespace IllumioOps.Detectors

open Tables

/-- `Obs`, an observed connection: what is read of it here. -/
structure Obs where
  srcKey : String
  dstKey : String
  first : Int
  last : Int
  decision : String
  origin : String
  deriving DecidableEq, Repr

def evaluable (window : Int × Int) (o : Obs) : Bool :=
  decide (o.origin = "ingest") && decide (window.1 < o.last ∧ o.last ≤ window.2)

/-- A count, and the indexes of the first and the last row of its window. -/
abbrev Best : Type := Nat × Nat × Nat

/-- A window is taken if its last row may close one and it holds at least the least and more than the
best so far. -/
def better (least : Nat) (closes : Obs → Bool) (best : Option Best) (o : Obs) (n j i : Nat) :
    Option Best :=
  if closes o = true ∧ least ≤ n ∧ ∀ b ∈ best, b.1 < n then some (n, j, i) else best

/-- `_max_window` -/
def maxWindow (rows : List Obs) (window : Nat) (key : Obs → String) (closes : Obs → Bool) :
    Option Best :=
  sweep Obs.last key window rows (better 0 closes) none

/-- The loop of `detect_fanout` over the rows of a source. -/
def fanoutWindow (rows : List Obs) (fanoutWindow fanoutTargets : Nat) (closes : Obs → Bool) :
    Option Best :=
  sweep Obs.last Obs.dstKey fanoutWindow rows (better fanoutTargets closes) none

/-- `sorted(rows, key=lambda o: o.last)` -/
def byLast (rows : List Obs) : List Obs := rows.insertionSort fun a b => a.last ≤ b.last

def maxWindowTargets (rows : List Obs) (window : Nat) : Nat :=
  match maxWindow (byLast rows) window Obs.dstKey fun _ => true with
  | some best => best.1
  | none => 0

def windowTargetsByHour (rows : List Obs) (window : Nat) : List (Int × Nat) :=
  sweep Obs.last Obs.dstKey window (byLast rows)
    (fun out o n _ _ => alter (hourStart o.last) (fun old => max (old.getD 0) n) out) []

theorem sorted_byLast (rows : List Obs) :
    (byLast rows).Pairwise fun a b => a.last ≤ b.last :=
  List.pairwise_insertionSort _ rows

theorem perm_byLast (rows : List Obs) : List.Perm (byLast rows) rows :=
  List.perm_insertionSort _ rows

theorem mem_byLast {rows : List Obs} {o : Obs} : o ∈ byLast rows ↔ o ∈ rows :=
  (perm_byLast rows).mem_iff

/-! ## What a window holds -/

section Counting

variable (rows : List Obs) (window : Nat) (key : Obs → String) (closes : Obs → Bool)

/-- The number of distinct keys among all rows of the window that ends at a time. -/
def countAt (t : Int) : Nat := ((rowsAt Obs.last window rows t).map key).toFinset.card

/-- The counts of the windows that end at a row that may close one. -/
def closingCounts : Set Nat := {n | ∃ o ∈ rows, closes o = true ∧ n = countAt rows window key o.last}

/-- The greatest count that a window has, if one has the least. -/
def RightCount (least : Nat) : Option Best → Prop
  | some best => IsGreatest (closingCounts rows window key closes) best.1
  | none => ∀ n ∈ closingCounts rows window key closes, n < least

/-- The rows that stand after a row and have its time bring no key that the rows up to it do not have in
the window. -/
def CountedInFull (i : Nat) (o : Obs) : Prop :=
  ∀ k r, i < k → rows[k]? = some r → r.last = o.last →
    ∃ q ∈ rowsIn Obs.last window rows i o, key q = key r

/-- No window has the least, or the greatest count is that of a window counted in full. -/
def GreatestInFull (least : Nat) : Prop :=
  (∀ n ∈ closingCounts rows window key closes, n < least) ∨
    ∃ i o, rows[i]? = some o ∧ closes o = true ∧
      IsGreatest (closingCounts rows window key closes) (countAt rows window key o.last) ∧
      CountedInFull rows window key i o

variable {rows window key closes}

variable (window key) in
/-- Up to a row there are at most the keys of its window, and all of them exactly when it is counted in
full. -/
theorem card_rowsIn (hsorted : rows.Pairwise fun a b => a.last ≤ b.last) {i : Nat} {o : Obs}
    (hi : rows[i]? = some o) :
    ((rowsIn Obs.last window rows i o).map key).toFinset.card ≤ countAt rows window key o.last ∧
      (((rowsIn Obs.last window rows i o).map key).toFinset.card = countAt rows window key o.last ↔
        CountedInFull rows window key i o) := by
  have hsub : ((rowsIn Obs.last window rows i o).map key).toFinset ⊆
      ((rowsAt Obs.last window rows o.last).map key).toFinset := by
    intro k hk
    rw [List.mem_toFinset, List.mem_map] at hk ⊢
    obtain ⟨r, hr, rfl⟩ := hk
    exact ⟨r, (mem_rowsAt_iff_of_sorted hsorted hi).2 (Or.inl hr), rfl⟩
  refine ⟨Finset.card_le_card hsub, ?_, ?_⟩
  · intro heq k r hik hr hlast
    have hkey : key r ∈ ((rowsAt Obs.last window rows o.last).map key).toFinset := by
      rw [List.mem_toFinset]
      exact List.mem_map_of_mem ((mem_rowsAt_iff_of_sorted hsorted hi).2 (Or.inr ⟨k, hik, hr, hlast⟩))
    rw [← Finset.eq_of_subset_of_card_le hsub (Nat.le_of_eq heq.symm), List.mem_toFinset,
      List.mem_map] at hkey
    exact hkey
  · intro hfull
    refine congrArg Finset.card (Finset.Subset.antisymm hsub fun k hk => ?_)
    rw [List.mem_toFinset, List.mem_map] at hk ⊢
    obtain ⟨r, hr, rfl⟩ := hk
    rcases (mem_rowsAt_iff_of_sorted hsorted hi).1 hr with hin | ⟨k, hik, hk, hlast⟩
    · exact ⟨r, hin, rfl⟩
    · exact hfull k r hik hk hlast

/-! ## The best window -/

/-- A window that may close and has the least raises the best to its count; any other leaves it. -/
theorem better_count (least : Nat) (best : Option Best) (o : Obs) (n j i : Nat) :
    (closes o = true ∧ least ≤ n →
      (better least closes best o n j i).map Prod.fst = some (max ((best.map Prod.fst).getD 0) n)) ∧
    (¬ (closes o = true ∧ least ≤ n) → better least closes best o n j i = best) := by
  rw [better]
  constructor
  · rintro ⟨hcloses, hleast⟩
    cases best with
    | none => simp [hcloses, hleast]
    | some b =>
      by_cases hgt : b.1 < n
      · simp [hcloses, hleast, hgt, hgt.le]
      · simp [hgt, Nat.not_lt.1 hgt]
  · intro hnot
    rw [if_neg fun h => hnot ⟨h.1, h.2.1⟩]

variable (window key closes) in
/-- The best of the windows as they are counted, over sorted rows. -/
theorem sweep_better (hsorted : rows.Pairwise fun a b => a.last ≤ b.last) (least : Nat) :
    let r := sweep Obs.last key window rows (better least closes) none
    (∀ i o, rows[i]? = some o → closes o = true →
      least ≤ ((rowsIn Obs.last window rows i o).map key).toFinset.card →
        ∃ b ∈ r, ((rowsIn Obs.last window rows i o).map key).toFinset.card ≤ b.1) ∧
      ∀ b ∈ r, ∃ i o, rows[i]? = some o ∧ closes o = true ∧ least ≤ b.1 ∧
        b.1 = ((rowsIn Obs.last window rows i o).map key).toFinset.card := by
  obtain ⟨hall, -, hfrom⟩ := foldl_max (Option.map Prod.fst)
    (fun p : Obs × Nat => closes p.1 = true ∧
      least ≤ ((rowsIn Obs.last window rows p.2 p.1).map key).toFinset.card)
    _ (fun best p => better least closes best p.1
      ((rowsIn Obs.last window rows p.2 p.1).map key).toFinset.card
      (firstIn Obs.last window rows p.2 p.1) p.2)
    (fun best p h => (better_count least best p.1 _ _ _).1 h)
    (fun best p h => congrArg _ ((better_count least best p.1 _ _ _).2 h)) rows.zipIdx none
  rw [sweep_eq hsorted]
  constructor
  · intro i o hi hcloses hleast
    obtain ⟨n, hn, hle⟩ :=
      hall (o, i) (List.mk_mem_zipIdx_iff_getElem?.2 hi) ⟨hcloses, hleast⟩
    obtain ⟨b, hb, rfl⟩ := Option.map_eq_some_iff.1 hn
    exact ⟨b, hb, hle⟩
  · intro b hb
    rcases hfrom b.1 (congrArg _ hb) with hnone | ⟨⟨o, i⟩, hp, ⟨hcloses, hleast⟩, heq⟩
    · cases hnone
    · exact ⟨i, o, List.mk_mem_zipIdx_iff_getElem?.1 hp, hcloses, heq ▸ hleast, heq⟩

theorem countAt_mem {i : Nat} {o : Obs} (hi : rows[i]? = some o) (hcloses : closes o = true) :
    countAt rows window key o.last ∈ closingCounts rows window key closes :=
  ⟨o, List.mem_of_getElem? hi, hcloses, rfl⟩

/-- The count is right exactly when the greatest count is that of a window counted in full. -/
theorem rightCount_iff (hsorted : rows.Pairwise fun a b => a.last ≤ b.last) (least : Nat) :
    RightCount rows window key closes least (sweep Obs.last key window rows (better least closes) none) ↔
      GreatestInFull rows window key closes least := by
  obtain ⟨hall, hfrom⟩ := sweep_better window key closes hsorted least
  cases hbest : sweep Obs.last key window rows (better least closes) none with
  | none =>
    rw [hbest] at hall
    constructor
    · exact Or.inl
    · rintro (hless | ⟨i, o, hi, hcloses, hgreatest, hfull⟩)
      · exact hless
      · -- the window counted in full would have been taken if it had the least
        intro n hn
        have hle := hgreatest.2 hn
        have hcard := (card_rowsIn window key hsorted hi).2.2 hfull
        by_contra hge
        obtain ⟨b, hb, -⟩ := hall i o hi hcloses (by omega)
        cases hb
  | some best =>
    rw [hbest] at hall hfrom
    obtain ⟨i, o, hi, hcloses, hleast, hcount⟩ := hfrom best rfl
    obtain ⟨hle, hiff⟩ := card_rowsIn window key hsorted hi
    constructor
    · intro hgreatest
      have hmax := hgreatest.2 (countAt_mem hi hcloses)
      have heq : countAt rows window key o.last = best.1 := by omega
      refine Or.inr ⟨i, o, hi, hcloses, heq ▸ hgreatest, hiff.1 (by omega)⟩
    · rintro (hless | ⟨i', o', hi', hcloses', hgreatest, hfull⟩)
      · have := hless _ (countAt_mem hi hcloses)
        omega
      · have hmax := hgreatest.2 (countAt_mem hi hcloses)
        have hcard := (card_rowsIn window key hsorted hi').2.2 hfull
        obtain ⟨b, hb, hge⟩ := hall i' o' hi' hcloses' (by omega)
        obtain rfl := Option.some.inj hb
        have heq : countAt rows window key o'.last = best.1 := by omega
        rw [RightCount, ← heq]
        exact hgreatest

variable (window key) in
/-- The last of the rows of one time is counted in full. -/
theorem exists_countedInFull {o : Obs} (ho : o ∈ rows) :
    ∃ i q, rows[i]? = some q ∧ q.last = o.last ∧ CountedInFull rows window key i q := by
  obtain ⟨k, hk⟩ := List.mem_iff_getElem?.1 ho
  obtain ⟨i, hi, hlater⟩ := ((Finset.range rows.length).filter fun i =>
      rows[i]?.any fun q => decide (q.last = o.last)).exists_max_image id ⟨k, by
    obtain ⟨hlt, heq⟩ := List.getElem?_eq_some_iff.1 hk
    simp [hlt, heq]⟩
  simp only [Finset.mem_filter, Finset.mem_range, id] at hi hlater
  obtain ⟨q, hq⟩ : ∃ q, rows[i]? = some q := ⟨_, List.getElem?_eq_getElem hi.1⟩
  have hlast : q.last = o.last := by simpa [hq] using hi.2
  refine ⟨i, q, hq, hlast, fun k r hik hr hrlast => ?_⟩
  have hle := hlater k ⟨(List.getElem?_eq_some_iff.1 hr).1, by simp [hr, hrlast, hlast]⟩
  omega

/-- Where rows of one time may close a window alike, the greatest count is that of a window counted in
full. -/
theorem greatestInFull_of_time
    (htime : ∀ a ∈ rows, ∀ b ∈ rows, a.last = b.last → closes a = closes b) (least : Nat) :
    GreatestInFull rows window key closes least := by
  by_cases hsome : ∃ o ∈ rows, closes o = true
  · right
    obtain ⟨o, ho, hcloses⟩ := hsome
    obtain ⟨p, hp, hmax⟩ := (rows.filter closes).toFinset.exists_max_image
      (fun q => countAt rows window key q.last) ⟨o, by simp [ho, hcloses]⟩
    simp only [List.mem_toFinset, List.mem_filter] at hp hmax
    obtain ⟨i, q, hq, hlast, hfull⟩ := exists_countedInFull window key hp.1
    have hclosesq : closes q = true := by
      rw [htime q (List.mem_of_getElem? hq) p hp.1 hlast]
      exact hp.2
    refine ⟨i, q, hq, hclosesq, ⟨countAt_mem hq hclosesq, ?_⟩, hfull⟩
    rintro n ⟨r, hr, hclosesr, rfl⟩
    rw [hlast]
    exact hmax r ⟨hr, hclosesr⟩
  · exact Or.inl fun n ⟨o, ho, hcloses, _⟩ => absurd ⟨o, ho, hcloses⟩ hsome

/-! ## The order of the rows -/

theorem countAt_perm {rows' : List Obs} (h : List.Perm rows rows') (t : Int) :
    countAt rows window key t = countAt rows' window key t :=
  congrArg Finset.card (List.toFinset_eq_of_perm _ _ ((h.filter _).map key))

theorem closingCounts_perm {rows' : List Obs} (h : List.Perm rows rows') :
    closingCounts rows window key closes = closingCounts rows' window key closes := by
  ext n
  constructor
  · rintro ⟨o, ho, hcloses, rfl⟩
    exact ⟨o, h.mem_iff.1 ho, hcloses, countAt_perm h _⟩
  · rintro ⟨o, ho, hcloses, rfl⟩
    exact ⟨o, h.mem_iff.2 ho, hcloses, (countAt_perm h _).symm⟩

end Counting

/-! ## The windows of a source -/

section Sources

variable (rows : List Obs) (window : Nat)

/-- `max_window_targets` is the greatest count of a window, and nothing without a row. -/
theorem maxWindowTargets_spec :
    (rows = [] → maxWindowTargets rows window = 0) ∧
      (rows ≠ [] → IsGreatest (closingCounts rows window Obs.dstKey fun _ => true)
        (maxWindowTargets rows window)) := by
  refine ⟨by rintro rfl; rfl, fun hne => ?_⟩
  have hright : RightCount (byLast rows) window Obs.dstKey (fun _ => true) 0
      (sweep Obs.last Obs.dstKey window (byLast rows) (better 0 fun _ => true) none) :=
    (rightCount_iff (sorted_byLast rows) 0).2 (greatestInFull_of_time (fun _ _ _ _ _ => rfl) 0)
  rw [maxWindowTargets, maxWindow, closingCounts_perm (perm_byLast rows).symm]
  cases hbest : sweep Obs.last Obs.dstKey window (byLast rows) (better 0 fun _ => true) none with
  | none =>
    rw [hbest] at hright
    obtain ⟨o, ho⟩ := List.exists_mem_of_ne_nil rows hne
    exact absurd (hright _ ⟨o, mem_byLast.2 ho, rfl, rfl⟩) (Nat.not_lt_zero _)
  | some best =>
    rw [hbest] at hright
    exact hright

/-- `window_targets_by_hour` has for an hour the greatest count of a window that ends in it. -/
theorem windowTargetsByHour_spec (hour : Int) (n : Nat) :
    (windowTargetsByHour rows window).lookup hour = some n ↔
      IsGreatest (closingCounts rows window Obs.dstKey fun o => decide (hourStart o.last = hour)) n := by
  have hsorted := sorted_byLast rows
  rw [closingCounts_perm (perm_byLast rows).symm, windowTargetsByHour, sweep_eq hsorted]
  obtain ⟨hall, -, hfrom⟩ := foldl_max (fun out => out.lookup hour)
    (fun p : Obs × Nat => hourStart p.1.last = hour)
    (fun p => ((rowsIn Obs.last window (byLast rows) p.2 p.1).map Obs.dstKey).toFinset.card)
    (fun (out : List (Int × Nat)) p => alter (hourStart p.1.last)
      (fun old => max (old.getD 0)
        ((rowsIn Obs.last window (byLast rows) p.2 p.1).map Obs.dstKey).toFinset.card) out)
    (fun out p hp => by rw [hp, lookup_alter_self])
    (fun out p hp => lookup_alter_of_ne fun h => hp h.symm) (byLast rows).zipIdx []
  -- what is put for the hour is no less than any count of it, and is one of them
  have hgreatest : ∀ m, (((byLast rows).zipIdx.foldl (fun (out : List (Int × Nat)) p =>
      alter (hourStart p.1.last) (fun old => max (old.getD 0)
        ((rowsIn Obs.last window (byLast rows) p.2 p.1).map Obs.dstKey).toFinset.card) out) []).lookup
          hour) = some m →
      IsGreatest (closingCounts (byLast rows) window Obs.dstKey
        fun o => decide (hourStart o.last = hour)) m := by
    intro m hm
    have hupper : ∀ o ∈ byLast rows, hourStart o.last = hour →
        countAt (byLast rows) window Obs.dstKey o.last ≤ m := by
      intro o ho hhour
      obtain ⟨i, q, hq, hlast, hfull⟩ :=
        exists_countedInFull window Obs.dstKey ho
      obtain ⟨k, hk, hle⟩ :=
        hall (q, i) (List.mk_mem_zipIdx_iff_getElem?.2 hq) (by rw [hlast]; exact hhour)
      have hcard := (card_rowsIn window Obs.dstKey hsorted hq).2.2 hfull
      rw [hm] at hk
      obtain rfl := Option.some.inj hk
      rw [← hlast, ← hcard]
      exact hle
    rcases hfrom m hm with hnone | ⟨⟨o, i⟩, hp, hhour, heq⟩
    · cases hnone
    · have hi := List.mk_mem_zipIdx_iff_getElem?.1 hp
      have ho := List.mem_of_getElem? hi
      have hle := (card_rowsIn window Obs.dstKey hsorted hi).1
      have hge := hupper o ho hhour
      refine ⟨⟨o, ho, decide_eq_true hhour, by simp only at heq; omega⟩, ?_⟩
      rintro k ⟨r, hr, hrhour, rfl⟩
      exact hupper r hr (of_decide_eq_true hrhour)
  constructor
  · exact hgreatest n
  · intro hn
    obtain ⟨o, ho, hhour, -⟩ := hn.1
    obtain ⟨i, hi⟩ := List.mem_iff_getElem?.1 ho
    obtain ⟨m, hm, -⟩ := hall (o, i) (List.mk_mem_zipIdx_iff_getElem?.2 hi) (of_decide_eq_true hhour)
    rw [hm, (hgreatest m hm).unique hn]

/-- The count of a window, of `_max_window` and of the loop of `detect_fanout`, is right exactly when the
greatest count, over all rows of the window, is that of a window counted in full; so it is when rows of
one time may close a window alike. By hour the count is always right. -/
theorem window_count_right_iff (rows : List Obs) (window : Nat) (key : Obs → String)
    (closes : Obs → Bool) (targets : Nat) :
    (RightCount rows window key closes 0 (maxWindow (byLast rows) window key closes) ↔
      GreatestInFull (byLast rows) window key closes 0) ∧
    (RightCount rows window Obs.dstKey closes targets
        (fanoutWindow (byLast rows) window targets closes) ↔
      GreatestInFull (byLast rows) window Obs.dstKey closes targets) ∧
    ((∀ a ∈ rows, ∀ b ∈ rows, a.last = b.last → closes a = closes b) →
      ∀ key least, GreatestInFull (byLast rows) window key closes least) ∧
    ∀ hour n, (windowTargetsByHour rows window).lookup hour = some n ↔
      IsGreatest (closingCounts rows window Obs.dstKey fun o => decide (hourStart o.last = hour)) n := by
  have hperm : List.Perm rows (byLast rows) := (perm_byLast rows).symm
  have hcount : ∀ key least best, RightCount rows window key closes least best ↔
      RightCount (byLast rows) window key closes least best := by
    intro key least best
    cases best <;> simp only [RightCount, closingCounts_perm hperm]
  refine ⟨?_, ?_, fun htime key least => ?_, windowTargetsByHour_spec rows window⟩
  · rw [hcount]
    exact rightCount_iff (sorted_byLast rows) 0
  · rw [hcount]
    exact rightCount_iff (sorted_byLast rows) targets
  · exact greatestInFull_of_time
      (fun a ha b hb => htime a (mem_byLast.1 ha) b (mem_byLast.1 hb)) least

/-- Two hosts are reached in one millisecond; the second connection came with a backfill. -/
def oneMillisecond : List Obs :=
  [⟨"a", "b", 0, 5, "allowed", "ingest"⟩, ⟨"a", "c", 0, 5, "allowed", "backfill"⟩]

/-- The window has two targets, and one is counted. -/
theorem not_right_oneMillisecond :
    maxWindow (byLast oneMillisecond) 10 Obs.dstKey (evaluable (0, 10)) = some (1, 0, 0) ∧
      ¬ RightCount oneMillisecond 10 Obs.dstKey (evaluable (0, 10)) 0
        (maxWindow (byLast oneMillisecond) 10 Obs.dstKey (evaluable (0, 10))) := by
  have hone : maxWindow (byLast oneMillisecond) 10 Obs.dstKey (evaluable (0, 10)) = some (1, 0, 0) := by
    decide +kernel
  refine ⟨hone, fun h => ?_⟩
  rw [hone] at h
  have htwo : countAt oneMillisecond 10 Obs.dstKey 5 = 2 := by decide +kernel
  have hle := h.2 ⟨⟨"a", "b", 0, 5, "allowed", "ingest"⟩, by decide, by decide, rfl⟩
  simp only [htwo] at hle
  omega

end Sources

end IllumioOps.Detectors
