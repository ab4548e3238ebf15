import IllumioOps.Collect.Answers
import IllumioOps.Collect.Coverage
import IllumioOps.Collect.Windows
import IllumioOps.Store.Rollups

/-!
# A period read from the PCE on demand

`services.ondemand`: a period that the install keeps no traffic of is read into a throwaway store, a day at a time and
in the pieces that fitted the day before. A piece whose answer is capped is halved; the reading stops at a number of
rows. Whatever the answers are, what is covered was read, and what a reading leaves out is in a recorded gap
(`openPeriod_truthful`); how the period was cut is not seen in what comes of it (`openPeriod_as_one`), and the pieces
stay halves of a day, so a day costs a bounded number of queries (`openPeriod_bounded`).
-/

set_option autoImplicit false

namespace IllumioOps.OnDemand

open Answers (normalizeAll)
open Collect (OpenGap)
open CollectWindows (minWindow maxDepth middle middle_between half)
open Ranges (Tiles joinRange)

variable {ε : Type}

/-! ## The reading -/

def perQuery : Nat := 50000
def ondemandMaxRows : Nat := 1000000
/-- `WINDOW` -/
def dayWindow : Int := days 1

theorem dayWindow_pos : 0 < dayWindow := by decide

/-- A window of a query: it is not empty. -/
structure Window where
  start : Int
  stop : Int
  lt : start < stop

namespace Window

def length (w : Window) : Int := w.stop - w.start

def pair (w : Window) : Int × Int := (w.start, w.stop)

/-- A window of more than a minute, up to its middle. -/
def left (w : Window) (h : minWindow < w.length) : Window :=
  ⟨w.start, middle w.start w.stop, (middle_between (not_le.2 h)).1⟩

/-- A window of more than a minute, from its middle on. -/
def right (w : Window) (h : minWindow < w.length) : Window :=
  ⟨middle w.start w.stop, w.stop, (middle_between (not_le.2 h)).2⟩

end Window

/-- A length that windows are read in. -/
abbrev Piece : Type := {d : Int // 0 < d}

def Window.piece (w : Window) : Piece := ⟨w.length, Int.sub_pos.2 w.lt⟩

/-- The rows of an answer, `none` for one that is no record, and whether the answer was capped. The first argument
counts the queries. -/
abbrev Answer (ε : Type) : Type := Nat → Window → Except ε (List (Option FlowRecord) × Bool)

/-- `_Pull`, and what is in the throwaway store. -/
structure Pull where
  db : FlowDb
  coverage : List (Int × Int)
  gaps : List OpenGap
  rows : Nat
  windows : Nat
  truncated : List (Int × Int × Nat)
  earliest : Option Int
  unreadFrom : Option Int
  fit : Option Piece

/-- The earlier of two times, where there are any. -/
def earlier : Option Int → Option Int → Option Int
  | none, b => b
  | a, none => a
  | some a, some b => some (min a b)

/-- The smaller piece. -/
def smallest : Option Piece → Piece → Piece
  | none, d => d
  | some f, d => if f.1 ≤ d.1 then f else d

/-- What a pull writes with. -/
def pulled (now : Int) : UpsertOptions :=
  { origin := .ingest, now := now, increments := .none, logNewConnections := false }

section Reads

variable (p : Primitives) (now : Int)

/-- An answer that is kept. -/
def land (w : Window) (rows : List (Option FlowRecord)) (capped : Bool) (st : Pull) : Pull :=
  let records := (normalizeAll p.digest rows).1
  { db := (upsertFlows p (pulled now) st.db records).1
    coverage := st.coverage
    gaps := if capped then st.gaps ++ [⟨dbTime w.start, dbTime w.stop, .truncated⟩] else st.gaps
    rows := st.rows + records.length
    windows := st.windows
    truncated := if capped then st.truncated ++ [(w.start, w.stop, records.length)] else st.truncated
    earliest := earlier st.earliest (records.map FlowRecord.firstDetected).min?
    unreadFrom := st.unreadFrom
    fit := if capped then st.fit else some (smallest st.fit w.piece) }

variable (answer : Answer ε)

/-- `_walk`. An error carries the window that was being read. -/
def walk (w : Window) (depth : Nat) (st : Pull) : Except (Window × ε) Pull :=
  if st.unreadFrom.isSome then .ok st
  else if ondemandMaxRows ≤ st.rows then .ok { st with unreadFrom := some w.start }
  else
    match answer st.windows w with
    | .error e => .error (w, e)
    | .ok (rows, capped) =>
        if h : capped = true ∧ depth < maxDepth ∧ minWindow < w.length then
          match walk (w.left h.2.2) (depth + 1) { st with windows := st.windows + 1 } with
          | .error e => .error e
          | .ok st => walk (w.right h.2.2) (depth + 1) st
        else .ok (land p now w rows capped { st with windows := st.windows + 1 })
termination_by maxDepth - depth

/-- `_next_piece` -/
def nextPiece (piece : Piece) (fit : Option Piece) (rows : Nat) : Piece :=
  let kept : Piece :=
    if rows * 2 ≤ perQuery then ⟨min (piece.1 * 2) dayWindow, lt_min (Int.mul_pos piece.2 (by decide)) dayWindow_pos⟩
    else piece
  match fit with
  | some f => if f.1 < piece.1 then f else kept
  | none => kept

/-- The pieces of a day, in `open_period`. -/
def readPieces (piece : Piece) (nxt cur : Int) (st : Pull) : Except (Window × ε) Pull :=
  if h : cur < nxt ∧ st.unreadFrom = none then
    match walk p now answer
      ⟨cur, min (cur + piece.1) nxt, lt_min (by have := piece.2; omega) h.1⟩ 0 st with
    | .error e => .error e
    | .ok st => readPieces piece nxt (min (cur + piece.1) nxt) st
  else .ok st
termination_by (nxt - cur).toNat
decreasing_by have := piece.2; omega

/-- The days of the period, in `open_period`. -/
def readDays (stop cur : Int) (piece : Piece) (st : Pull) : Except (Window × ε) Pull :=
  if _h : cur < stop ∧ st.unreadFrom = none then
    match readPieces p now answer piece (min (cur + dayWindow) stop) cur { st with fit := none } with
    | .error e => .error e
    | .ok st' =>
        readDays stop (min (cur + dayWindow) stop) (nextPiece piece st'.fit (st'.rows - st.rows)) st'
  else .ok st
termination_by (stop - cur).toNat
decreasing_by simp only [dayWindow, days, hours, minutes, seconds, milliseconds]; omega

/-- The throwaway store before anything is read: the label sets of the install, and no traffic. -/
def seeded (labelSets : LabelSets) : Pull :=
  { db := { FlowDb.empty with labelSets := labelSets }
    coverage := []
    gaps := []
    rows := 0
    windows := 0
    truncated := []
    earliest := none
    unreadFrom := none
    fit := none }

/-- The end of `open_period`: what was read is covered, and the rest is a gap. -/
def finish (period : Window) (st : Pull) : Pull :=
  let readTo := st.unreadFrom.getD period.stop
  { st with
    db := (refreshRollups st.db now 0 none).1
    coverage := joinRange st.coverage (dbTime period.start) (dbTime readTo)
    gaps := st.gaps ++ (st.unreadFrom.map fun u => OpenGap.mk (dbTime u) (dbTime period.stop) .truncated).toList }

/-- `open_period`. An error is `OnDemandFailed`, and the throwaway store is deleted. -/
def openPeriod (labelSets : LabelSets) (period : Window) : Except (Window × ε) Pull :=
  (readDays p now answer period.stop period.start ⟨dayWindow, dayWindow_pos⟩ (seeded labelSets)).map (finish now period)

end Reads

/-! ## What is kept -/

/-- The windows tile the range, which may be empty. -/
def Tiled (a b : Int) (ws : List (Int × Int)) : Prop := (a = b ∧ ws = []) ∨ Tiles a b ws

theorem Tiled.append {a m b : Int} {ws vs : List (Int × Int)} (h : Tiled a m ws) (h' : Tiled m b vs) :
    Tiled a b (ws ++ vs) := by
  rcases h with ⟨rfl, rfl⟩ | h
  · exact h'
  · rcases h' with ⟨rfl, rfl⟩ | h'
    · rw [List.append_nil]
      exact Or.inr h
    · exact Or.inr (h.append h')

/-- A query and the window it was about. -/
abbrev Query : Type := Nat × Window

section

variable (answer : Answer ε)

/-- The records of the query's answer. -/
def recordsOf (k : Query) : List FlowRecord :=
  match answer k.1 k.2 with
  | .ok (rows, _) => rows.filterMap id
  | .error _ => []

/-- The gap of a query that was capped. -/
def gapOf (k : Query) : Option OpenGap :=
  match answer k.1 k.2 with
  | .ok (_, true) => some ⟨dbTime k.2.start, dbTime k.2.stop, .truncated⟩
  | _ => none

end

/-- From `a` on the answers of these queries were kept: their windows tile what was read, and a capped one is at most
a minute long. -/
structure Kept (p : Primitives) (answer : Answer ε) (a b : Int) (st st' : Pull) (kept : List Query) : Prop where
  tiled : Tiled a (st'.unreadFrom.getD b) (kept.map fun k => k.2.pair)
  answered : ∀ k ∈ kept, ∃ rows capped, answer k.1 k.2 = .ok (rows, capped)
  short : ∀ k ∈ kept, (gapOf answer k).isSome → k.2.length ≤ minWindow
  gaps : st'.gaps = st.gaps ++ kept.filterMap (gapOf answer)
  coverage : st'.coverage = st.coverage
  stopped : ∀ u, st'.unreadFrom = some u → ondemandMaxRows ≤ st'.rows ∧ a ≤ u ∧ u < b
  store : (∀ n w rows capped, answer n w = .ok (rows, capped) → ∀ r, some r ∈ rows → r.WholeMilliseconds) →
    ∀ seen, PairedStore p seen st.db.flows → PairedStore p (seen ++ kept.flatMap (recordsOf answer)) st'.db.flows

variable {answer : Answer ε} {p : Primitives} {now : Int} {a b m : Int} {st st' st'' : Pull} {ks ls : List Query}

theorem Kept.trans (h : Kept p answer a m st st' ks) (hnone : st'.unreadFrom = none) (ham : a ≤ m)
    (h' : Kept p answer m b st' st'' ls) : Kept p answer a b st st'' (ks ++ ls) where
  tiled := by
    have hfirst := h.tiled
    rw [hnone] at hfirst
    rw [List.map_append]
    exact hfirst.append h'.tiled
  answered k hk := (List.mem_append.1 hk).elim (h.answered k) (h'.answered k)
  short k hk := (List.mem_append.1 hk).elim (h.short k) (h'.short k)
  gaps := by rw [h'.gaps, h.gaps, List.filterMap_append, List.append_assoc]
  coverage := h'.coverage.trans h.coverage
  stopped u hu := by
    obtain ⟨hrows, hmu, hub⟩ := h'.stopped u hu
    exact ⟨hrows, ham.trans hmu, hub⟩
  store hms seen hseen := by
    rw [List.flatMap_append, ← List.append_assoc]
    exact h'.store hms _ (h.store hms _ hseen)

/-- A reading that was stopped stays where it is. -/
theorem Kept.of_stopped (h : Kept p answer a m st st' ks) (hsome : st'.unreadFrom.isSome) (hmb : m ≤ b) :
    Kept p answer a b st st' ks := by
  obtain ⟨u, hu⟩ := Option.isSome_iff_exists.1 hsome
  refine { h with tiled := ?_, stopped := fun u hu => ?_ }
  · have htiled := h.tiled
    rw [hu] at htiled ⊢
    exact htiled
  · obtain ⟨hrows, hau, hum⟩ := h.stopped u hu
    exact ⟨hrows, hau, hum.trans_le hmb⟩

/-- Nothing is kept of an empty range. -/
theorem kept_nil (hnone : st.unreadFrom = none) : Kept p answer a a st st [] where
  tiled := by
    rw [hnone]
    exact Or.inl ⟨rfl, rfl⟩
  answered _ hk := absurd hk List.not_mem_nil
  short _ hk := absurd hk List.not_mem_nil
  gaps := (List.append_nil _).symm
  coverage := rfl
  stopped u hu := by
    rw [hnone] at hu
    cases hu
  store _ seen hseen := by simpa using hseen

/-- The limit was reached before the window. -/
theorem kept_stop (w : Window) (hrows : ondemandMaxRows ≤ st.rows) :
    Kept p answer w.start w.stop st { st with unreadFrom := some w.start } [] where
  tiled := Or.inl ⟨rfl, rfl⟩
  answered _ hk := absurd hk List.not_mem_nil
  short _ hk := absurd hk List.not_mem_nil
  gaps := (List.append_nil _).symm
  coverage := rfl
  stopped u hu := by
    obtain rfl := Option.some.inj hu
    exact ⟨hrows, le_rfl, w.lt⟩
  store _ seen hseen := by simpa using hseen

/-- An answer is kept. -/
theorem kept_land (w : Window) {rows : List (Option FlowRecord)} {capped : Bool} (hnone : st.unreadFrom = none)
    (hanswer : answer st.windows w = .ok (rows, capped)) (hshort : capped = true → w.length ≤ minWindow) :
    Kept p answer w.start w.stop st (land p now w rows capped { st with windows := st.windows + 1 })
      [(st.windows, w)] where
  tiled := by
    change Tiled w.start (st.unreadFrom.getD w.stop) [w.pair]
    rw [hnone]
    exact Or.inr (.last w.lt)
  answered k hk := by
    obtain rfl := List.mem_singleton.1 hk
    exact ⟨rows, capped, hanswer⟩
  short k hk hgap := by
    obtain rfl := List.mem_singleton.1 hk
    cases capped with
    | true => exact hshort rfl
    | false => simp [gapOf, hanswer] at hgap
  gaps := by cases capped <;> simp [gapOf, hanswer, land]
  coverage := rfl
  stopped u hu := by
    change st.unreadFrom = some u at hu
    rw [hnone] at hu
    cases hu
  store hms seen hseen := by
    have hrecords : [(st.windows, w)].flatMap (recordsOf answer) = rows.filterMap id := by
      simp [recordsOf, hanswer]
    rw [hrecords]
    exact hseen.answer (pulled now) (hms _ _ _ _ hanswer)

/-! ## The lengths of the windows -/

/-- The smallest window that halving a day comes to: less than a minute, and twice as much is more. -/
def grain : Int := 42187500

theorem dayWindow_eq : dayWindow = grain * 2 ^ 11 := by decide

/-- Half of a window that is at most so many grains long. -/
theorem half_le {d : Int} {k : Nat} (h : d ≤ grain * 2 ^ (k + 1)) :
    half d ≤ grain * 2 ^ k ∧ d - half d ≤ grain * 2 ^ k := by
  rw [pow_succ, ← mul_assoc] at h
  generalize grain * 2 ^ k = g at h ⊢
  simp only [half]
  split <;> omega

theorem half_eq (k : Nat) : half (grain * 2 ^ (k + 1)) = grain * 2 ^ k := by
  rw [pow_succ, ← mul_assoc]
  generalize grain * 2 ^ k = g
  simp only [half]
  split <;> omega

variable {w : Window}

theorem length_left (h : minWindow < w.length) : (w.left h).length = half w.length := by
  simp only [Window.left, Window.length, middle]
  omega

theorem length_right (h : minWindow < w.length) : (w.right h).length = w.length - half w.length := by
  simp only [Window.right, Window.length, middle]
  omega

/-- A window that may be halved is longer than a grain. -/
theorem exists_succ_of_length {k : Nat} (h : w.length ≤ grain * 2 ^ k) (hmin : minWindow < w.length) :
    ∃ n, k = n + 1 := by
  cases k with
  | zero =>
    simp only [minWindow, grain, seconds, milliseconds] at h hmin
    omega
  | succ n => exact ⟨n, rfl⟩

/-! ## What a walk does -/

/-- What a walk keeps of a window of at most so many grains. -/
theorem walk_kept {depth k : Nat} (hdepth : depth + k ≤ 11) (hlength : w.length ≤ grain * 2 ^ k)
    (hnone : st.unreadFrom = none) (h : walk p now answer w depth st = .ok st') :
    ∃ kept, Kept p answer w.start w.stop st st' kept := by
  fun_induction walk p now answer w depth st generalizing k st' with
  | case1 w depth st hsome =>
    rw [hnone] at hsome
    cases hsome
  | case2 w depth st _ hrows =>
    obtain rfl := Except.ok.inj h
    exact ⟨[], kept_stop w hrows⟩
  | case3 => cases h
  | case4 => cases h
  | case5 w depth st _ _ rows capped hanswer hhalve st₁ hleft ihleft ihright =>
    have hmin := hhalve.2.2
    obtain ⟨n, rfl⟩ := exists_succ_of_length hlength hmin
    obtain ⟨hl, hr⟩ := half_le hlength
    have hdepth' : depth + 1 + n ≤ 11 := by omega
    obtain ⟨ks, hks⟩ := ihleft hdepth' ((length_left hmin).trans_le hl) hnone hleft
    have hkept : Kept p answer w.start (middle w.start w.stop) st st₁ ks :=
      { hks with }
    have hstart := (w.left hmin).lt
    have hstop := (w.right hmin).lt
    cases hunread : st₁.unreadFrom with
    | none =>
      obtain ⟨ls, hls⟩ := ihright hdepth' ((length_right hmin).trans_le hr) hunread h
      exact ⟨ks ++ ls, hkept.trans hunread hstart.le hls⟩
    | some u =>
      -- the reading was stopped in the left half: the right half is not read
      rw [walk, if_pos (by rw [hunread]; rfl)] at h
      obtain rfl := Except.ok.inj h
      exact ⟨ks, hkept.of_stopped (by rw [hunread]; rfl) hstop.le⟩
  | case6 w depth st _ _ rows capped hanswer hhalve =>
    obtain rfl := Except.ok.inj h
    refine ⟨_, kept_land w hnone hanswer fun hcapped => not_lt.1 fun hmin => hhalve ⟨hcapped, ?_, hmin⟩⟩
    obtain ⟨n, rfl⟩ := exists_succ_of_length hlength hmin
    simp only [maxDepth]
    omega

/-- A window that a query failed for lies in the range that was being read. -/
structure Failed (answer : Answer ε) (a b : Int) (failure : Window × ε) : Prop where
  raised : ∃ n, answer n failure.1 = .error failure.2
  start : a ≤ failure.1.start
  stop : failure.1.stop ≤ b

theorem Failed.mono {c d : Int} {failure : Window × ε} (h : Failed answer a b failure) (hca : c ≤ a) (hbd : b ≤ d) :
    Failed answer c d failure :=
  ⟨h.raised, hca.trans h.start, h.stop.trans hbd⟩

theorem walk_failed {depth : Nat} {failure : Window × ε} (h : walk p now answer w depth st = .error failure) :
    Failed answer w.start w.stop failure := by
  fun_induction walk p now answer w depth st with
  | case1 => cases h
  | case2 => cases h
  | case3 w depth st _ _ e hanswer =>
    obtain rfl := Except.error.inj h
    exact ⟨⟨_, hanswer⟩, le_rfl, le_rfl⟩
  | case4 w depth st _ _ rows capped hanswer hhalve e hleft ih =>
    obtain rfl := Except.error.inj h
    exact (ih hleft).mono le_rfl (w.right hhalve.2.2).lt.le
  | case5 w depth st _ _ rows capped hanswer hhalve st₁ hleft _ ih =>
    exact (ih h).mono (w.left hhalve.2.2).lt.le le_rfl
  | case6 => cases h

/-! ## The pieces and the days -/

theorem readPieces_kept {piece : Piece} {nxt cur : Int} (hle : cur ≤ nxt) (hday : nxt - cur ≤ dayWindow)
    (hnone : st.unreadFrom = none) (h : readPieces p now answer piece nxt cur st = .ok st') :
    ∃ kept, Kept p answer cur nxt st st' kept := by
  fun_induction readPieces p now answer piece nxt cur st generalizing st' with
  | case1 => cases h
  | case2 cur st hmore st₁ hwalk ih =>
    have hpos := piece.2
    have hmin : min (cur + piece.1) nxt ≤ nxt := min_le_right _ _
    have hcur : cur < min (cur + piece.1) nxt := lt_min (by omega) hmore.1
    obtain ⟨ks, hks⟩ := walk_kept (k := 11) le_rfl (dayWindow_eq ▸ by simp only [Window.length]; omega) hnone hwalk
    cases hunread : st₁.unreadFrom with
    | none =>
      obtain ⟨ls, hls⟩ := ih hmin (by omega) hunread h
      exact ⟨ks ++ ls, hks.trans hunread hcur.le hls⟩
    | some u =>
      rw [readPieces, dif_neg (by rw [hunread]; exact fun h => nomatch h.2)] at h
      obtain rfl := Except.ok.inj h
      exact ⟨ks, hks.of_stopped (by rw [hunread]; rfl) hmin⟩
  | case3 cur st hmore =>
    obtain rfl := Except.ok.inj h
    have hend : cur = nxt := le_antisymm hle (not_lt.1 fun hlt => hmore ⟨hlt, hnone⟩)
    exact ⟨[], hend ▸ kept_nil hnone⟩

theorem readPieces_failed {piece : Piece} {nxt cur : Int} {failure : Window × ε}
    (h : readPieces p now answer piece nxt cur st = .error failure) : Failed answer cur nxt failure := by
  fun_induction readPieces p now answer piece nxt cur st with
  | case1 cur st hmore e hwalk =>
    obtain rfl := Except.error.inj h
    exact (walk_failed hwalk).mono le_rfl (min_le_right _ _)
  | case2 cur st hmore st₁ hwalk ih =>
    have hpos := piece.2
    exact (ih h).mono (lt_min (by omega) hmore.1).le le_rfl
  | case3 => cases h

theorem readDays_kept {stop cur : Int} {piece : Piece} (hle : cur ≤ stop) (hnone : st.unreadFrom = none)
    (h : readDays p now answer stop cur piece st = .ok st') : ∃ kept, Kept p answer cur stop st st' kept := by
  fun_induction readDays p now answer stop cur piece st generalizing st' with
  | case1 => cases h
  | case2 cur piece st hmore st₁ hday ih =>
    have hmin : min (cur + dayWindow) stop ≤ stop := min_le_right _ _
    have hcur : cur ≤ min (cur + dayWindow) stop := le_min (le_add_of_nonneg_right dayWindow_pos.le) hmore.1.le
    have hunread : ({ st with fit := none } : Pull).unreadFrom = none := hnone
    obtain ⟨ks, hks⟩ := readPieces_kept hcur (by omega) hunread hday
    have hkept : Kept p answer cur (min (cur + dayWindow) stop) st st₁ ks := { hks with }
    cases hunread : st₁.unreadFrom with
    | none =>
      obtain ⟨ls, hls⟩ := ih hmin hunread h
      exact ⟨ks ++ ls, hkept.trans hunread hcur hls⟩
    | some u =>
      rw [readDays, dif_neg (by rw [hunread]; exact fun h => nomatch h.2)] at h
      obtain rfl := Except.ok.inj h
      exact ⟨ks, hkept.of_stopped (by rw [hunread]; rfl) hmin⟩
  | case3 cur piece st hmore =>
    obtain rfl := Except.ok.inj h
    have hend : cur = stop := le_antisymm hle (not_lt.1 fun hlt => hmore ⟨hlt, hnone⟩)
    exact ⟨[], hend ▸ kept_nil hnone⟩

theorem readDays_failed {stop cur : Int} {piece : Piece} {failure : Window × ε}
    (h : readDays p now answer stop cur piece st = .error failure) : Failed answer cur stop failure := by
  fun_induction readDays p now answer stop cur piece st with
  | case1 cur piece st hmore e hday =>
    obtain rfl := Except.error.inj h
    exact (readPieces_failed hday).mono le_rfl (min_le_right _ _)
  | case2 cur piece st hmore st₁ hday ih =>
    have hcur : cur ≤ min (cur + dayWindow) stop := le_min (le_add_of_nonneg_right dayWindow_pos.le) hmore.1.le
    exact (ih h).mono hcur le_rfl
  | case3 => cases h

/-! ## What is told -/

/-- The record was seen at some time of the range. -/
def Touches (a b : Int) (r : FlowRecord) : Prop := max r.firstDetected a ≤ min r.lastDetected b

instance (a b : Int) : DecidablePred (Touches a b) := fun _ => inferInstanceAs (Decidable (_ ≤ _))

theorem touches_iff {r : FlowRecord} :
    Touches a b r ↔ ∃ t, r.firstDetected ≤ t ∧ t ≤ r.lastDetected ∧ a ≤ t ∧ t ≤ b := by
  constructor
  · intro h
    exact ⟨_, le_max_left _ _, h.trans (min_le_left _ _), le_max_right _ _, h.trans (min_le_right _ _)⟩
  · rintro ⟨t, hfirst, hlast, ha, hb⟩
    exact (max_le hfirst ha).trans (le_min hlast hb)

/-- The PCE while a period is read: records that it holds all the while, and its answers. An answer that is not capped
has the records that were seen in its window. -/
structure Pce (ε : Type) where
  held : List FlowRecord
  answer : Answer ε
  atMost : ∀ n w rows capped, answer n w = .ok (rows, capped) → rows.length ≤ perQuery
  whole : ∀ n w rows, answer n w = .ok (rows, false) → ∀ r ∈ held, Touches w.start w.stop r → some r ∈ rows
  heldMilliseconds : ∀ r ∈ held, r.WholeMilliseconds
  rowMilliseconds : ∀ n w rows capped, answer n w = .ok (rows, capped) → ∀ r, some r ∈ rows → r.WholeMilliseconds

/-- What a reading says of a period: a record that the PCE holds is in the throwaway store or was seen in a gap, the
store has nothing else, the period is covered or in a gap, and a gap has its reason. -/
structure Truthful (p : Primitives) (pce : Pce ε) (period : Window) (st : Pull) : Prop where
  told : ∀ r ∈ pce.held, Touches period.start period.stop r →
    (∃ q ∈ st.db.flows.rows, q.recordKey = recordKey p.digest r ∧ r.counts ≤ q.counts) ∨
      ∃ g ∈ st.gaps, Touches g.windowStart g.windowEnd r
  answered : ∀ q ∈ st.db.flows.rows, ∃ n w rows capped r,
    pce.answer n w = .ok (rows, capped) ∧ some r ∈ rows ∧ q.recordKey = recordKey p.digest r
  covered : ∀ t, Ranges.Inside (dbTime period.start, dbTime period.stop) t →
    (∃ c ∈ st.coverage, Ranges.Inside c t) ∨ ∃ g ∈ st.gaps, Ranges.Inside g.window t
  reasons : ∀ g ∈ st.gaps,
    (∃ n w rows, pce.answer n w = .ok (rows, true) ∧ w.length ≤ minWindow ∧
      g = ⟨dbTime w.start, dbTime w.stop, .truncated⟩) ∨
    ∃ u, st.unreadFrom = some u ∧ ondemandMaxRows ≤ st.rows ∧ g = ⟨dbTime u, dbTime period.stop, .truncated⟩

section Told

variable {pce : Pce ε} {period : Window} {labelSets : LabelSets} {kept : List Query}

/-- A record seen in a range was seen in it as the store's texts have it. -/
theorem touches_stored {r : FlowRecord} (hr : r.WholeMilliseconds) (h : Touches a b r) :
    Touches (dbTime a) (dbTime b) r := by
  obtain ⟨t, hfirst, hlast, ha, hb⟩ := touches_iff.1 h
  refine touches_iff.2 ⟨dbTime t, ?_, (dbTime_le t).trans hlast, dbTime_mono ha, dbTime_mono hb⟩
  exact (dbTime_of_dvd hr.first).symm.trans_le (dbTime_mono hfirst)

theorem mem_recordsOf {k : Query} {r : FlowRecord} (h : r ∈ recordsOf pce.answer k) :
    ∃ rows capped, pce.answer k.1 k.2 = .ok (rows, capped) ∧ some r ∈ rows := by
  unfold recordsOf at h
  split at h
  · rename_i rows capped hanswer
    exact ⟨rows, capped, hanswer, by simpa using h⟩
  · exact absurd h List.not_mem_nil

/-- A record seen in a kept window is in its answer, or the window was capped. -/
theorem Kept.mem_of_touches (h : Kept p pce.answer a b st st' kept) {k : Query} (hk : k ∈ kept) {r : FlowRecord}
    (hr : r ∈ pce.held) (htouches : Touches k.2.start k.2.stop r) :
    r ∈ kept.flatMap (recordsOf pce.answer) ∨
      OpenGap.mk (dbTime k.2.start) (dbTime k.2.stop) .truncated ∈ kept.filterMap (gapOf pce.answer) := by
  obtain ⟨rows, capped, hanswer⟩ := h.answered k hk
  cases capped with
  | false =>
    refine Or.inl (List.mem_flatMap.2 ⟨k, hk, ?_⟩)
    simpa [recordsOf, hanswer] using pce.whole _ _ _ hanswer r hr htouches
  | true =>
    refine Or.inr (List.mem_filterMap.2 ⟨k, hk, ?_⟩)
    simp [gapOf, hanswer]

/-- A record seen in what was read is in an answer, or was seen in a capped window. -/
theorem Kept.told (h : Kept p pce.answer a b st st' kept) {r : FlowRecord} (hr : r ∈ pce.held)
    (hab : a < st'.unreadFrom.getD b) (htouches : Touches a (st'.unreadFrom.getD b) r) :
    r ∈ kept.flatMap (recordsOf pce.answer) ∨
      ∃ g ∈ kept.filterMap (gapOf pce.answer), Touches g.windowStart g.windowEnd r := by
  obtain ⟨t, hfirst, hlast, ha, hb⟩ := touches_iff.1 htouches
  rcases h.tiled with ⟨heq, -⟩ | htiles
  · exact absurd heq hab.ne
  · obtain ⟨w, hw, hlo, hhi⟩ := htiles.exists_mem ha hb
    obtain ⟨k, hk, rfl⟩ := List.mem_map.1 hw
    have hseen : Touches k.2.start k.2.stop r := touches_iff.2 ⟨t, hfirst, hlast, hlo, hhi⟩
    rcases h.mem_of_touches hk hr hseen with hmem | hgap
    · exact Or.inl hmem
    · exact Or.inr ⟨_, hgap, touches_stored (pce.heldMilliseconds r hr) hseen⟩

theorem refreshRollups_flows (db : FlowDb) (at_ todayEvery : Int) (frozenThrough : Option Int) :
    (refreshRollups db at_ todayEvery frozenThrough).1.flows = db.flows := by
  unfold refreshRollups
  dsimp only
  rw [rebuilds_flows, clears_flows]

/-- What a pull was made of. -/
theorem openPeriod_kept (h : openPeriod p now pce.answer labelSets period = .ok st) :
    ∃ st₀ kept, Kept p pce.answer period.start period.stop (seeded labelSets) st₀ kept ∧
      st = finish now period st₀ ∧ PairedStore p (kept.flatMap (recordsOf pce.answer)) st.db.flows := by
  unfold openPeriod at h
  cases hread : readDays p now pce.answer period.stop period.start ⟨dayWindow, dayWindow_pos⟩ (seeded labelSets) with
  | error failure =>
    rw [hread] at h
    cases h
  | ok st₀ =>
    rw [hread] at h
    obtain rfl := Except.ok.inj h
    obtain ⟨kept, hkept⟩ := readDays_kept period.lt.le rfl hread
    refine ⟨st₀, kept, hkept, rfl, ?_⟩
    have hstore := hkept.store pce.rowMilliseconds [] (pairedStore_empty p)
    rw [List.nil_append] at hstore
    change PairedStore p _ (refreshRollups st₀.db now 0 none).1.flows
    rwa [refreshRollups_flows]

/-- The gaps of a pull: the capped windows, and what was not read. -/
theorem gaps_finish (hkept : Kept p pce.answer period.start period.stop (seeded labelSets) st kept) :
    (finish now period st).gaps = kept.filterMap (gapOf pce.answer) ++
      (st.unreadFrom.map fun u => OpenGap.mk (dbTime u) (dbTime period.stop) .truncated).toList := by
  change st.gaps ++ _ = _
  rw [hkept.gaps]
  rfl

theorem coverage_finish (hkept : Kept p pce.answer period.start period.stop (seeded labelSets) st kept) :
    (finish now period st).coverage = [(dbTime period.start, dbTime (st.unreadFrom.getD period.stop))] := by
  change joinRange st.coverage _ _ = _
  rw [hkept.coverage]
  rfl

theorem truthful_of_kept (hkept : Kept p pce.answer period.start period.stop (seeded labelSets) st kept)
    (hstore : PairedStore p (kept.flatMap (recordsOf pce.answer)) (finish now period st).db.flows) :
    Truthful p pce period (finish now period st) where
  told r hr htouches := by
    rw [gaps_finish hkept]
    have hread (hlt : period.start < st.unreadFrom.getD period.stop)
        (hseen : Touches period.start (st.unreadFrom.getD period.stop) r) :
        (∃ q ∈ (finish now period st).db.flows.rows,
          q.recordKey = recordKey p.digest r ∧ r.counts ≤ q.counts) ∨
        ∃ g ∈ kept.filterMap (gapOf pce.answer) ++ (st.unreadFrom.map fun u =>
          OpenGap.mk (dbTime u) (dbTime period.stop) .truncated).toList, Touches g.windowStart g.windowEnd r := by
      rcases hkept.told hr hlt hseen with hmem | ⟨g, hg, hgap⟩
      · exact Or.inl (hstore.row_of_mem hmem)
      · exact Or.inr ⟨g, List.mem_append_left _ hg, hgap⟩
    cases hunread : st.unreadFrom with
    | none =>
      rw [hunread] at hread
      exact hread period.lt htouches
    | some u =>
      rw [hunread] at hread
      obtain ⟨t, hfirst, hlast, ha, hb⟩ := touches_iff.1 htouches
      rcases lt_or_ge t u with htu | hut
      · exact hread (ha.trans_lt htu) (touches_iff.2 ⟨t, hfirst, hlast, ha, htu.le⟩)
      · -- it was seen after the place where the reading stopped
        refine Or.inr ⟨_, List.mem_append_right _ (List.mem_singleton_self _), ?_⟩
        exact touches_stored (pce.heldMilliseconds r hr) (touches_iff.2 ⟨t, hfirst, hlast, hut, hb⟩)
  answered q hq := by
    obtain ⟨r, hr, hkey⟩ := hstore.mem_of_row hq
    obtain ⟨k, -, hk⟩ := List.mem_flatMap.1 hr
    obtain ⟨rows, capped, hanswer, hrow⟩ := mem_recordsOf hk
    exact ⟨k.1, k.2, rows, capped, r, hanswer, hrow, hkey⟩
  covered t ht := by
    rw [coverage_finish hkept, gaps_finish hkept]
    rcases lt_or_ge t (dbTime (st.unreadFrom.getD period.stop)) with hlt | hge
    · exact Or.inl ⟨_, List.mem_singleton_self _, ht.1, hlt⟩
    · cases hunread : st.unreadFrom with
      | none =>
        rw [hunread] at hge
        exact absurd ht.2 (not_lt.2 hge)
      | some u =>
        rw [hunread] at hge
        exact Or.inr ⟨_, List.mem_append_right _ (List.mem_singleton_self _), hge, ht.2⟩
  reasons g hg := by
    rw [gaps_finish hkept] at hg
    rcases List.mem_append.1 hg with hg | hg
    · obtain ⟨k, hk, hgap⟩ := List.mem_filterMap.1 hg
      have hshort := hkept.short k hk (by rw [hgap]; rfl)
      unfold gapOf at hgap
      split at hgap
      · rename_i rows hanswer
        exact Or.inl ⟨k.1, k.2, rows, hanswer, hshort, (Option.some.inj hgap).symm⟩
      · cases hgap
    · obtain ⟨u, hu, rfl⟩ := Option.map_eq_some_iff.1 (Option.mem_toList.1 hg)
      exact Or.inr ⟨u, hu, (hkept.stopped u hu).1, rfl⟩

/-- Whatever the PCE answers: a pull says the truth of the period, or one of its queries failed and the window that is
named is the one. -/
theorem openPeriod_truthful (p : Primitives) (now : Int) (pce : Pce ε) (labelSets : LabelSets) (period : Window) :
    match openPeriod p now pce.answer labelSets period with
    | .ok st => Truthful p pce period st
    | .error (w, e) => (∃ n, pce.answer n w = .error e) ∧ period.start ≤ w.start ∧ w.stop ≤ period.stop := by
  cases hopen : openPeriod p now pce.answer labelSets period with
  | ok st =>
    obtain ⟨st₀, kept, hkept, rfl, hstore⟩ := openPeriod_kept hopen
    exact truthful_of_kept hkept hstore
  | error failure =>
    unfold openPeriod at hopen
    cases hread : readDays p now pce.answer period.stop period.start ⟨dayWindow, dayWindow_pos⟩ (seeded labelSets) with
    | ok st₀ =>
      rw [hread] at hopen
      cases hopen
    | error failure' =>
      rw [hread] at hopen
      obtain rfl := Except.error.inj hopen
      obtain ⟨hraised, hstart, hstop⟩ := readDays_failed hread
      exact ⟨hraised, hstart, hstop⟩

/-- Where the answers are the records that the PCE holds, each in the windows it was seen in, a pull without gaps has
the connections that one answer of the whole period would have given, however it was cut. -/
theorem openPeriod_as_one (p : Primitives) (now : Int) (pce : Pce ε) (labelSets : LabelSets) (period : Window)
    (hheld : ∀ n w rows capped, pce.answer n w = .ok (rows, capped) →
      ∀ r, some r ∈ rows → r ∈ pce.held ∧ Touches w.start w.stop r)
    {st : Pull} (hopen : openPeriod p now pce.answer labelSets period = .ok st) (hgaps : st.gaps = []) :
    (st.db.flows.rows.map FlowRow.placed).Perm
      (placedOnce p.digest (pce.held.filter fun r => Touches period.start period.stop r)) := by
  obtain ⟨st₀, kept, hkept, rfl, hstore⟩ := openPeriod_kept hopen
  rw [gaps_finish hkept, List.append_eq_nil_iff] at hgaps
  have hunread : st₀.unreadFrom = none := by
    cases hu : st₀.unreadFrom with
    | none => rfl
    | some u =>
      rw [hu] at hgaps
      cases hgaps.2
  have hsame : ∀ r, r ∈ kept.flatMap (recordsOf pce.answer) ↔
      r ∈ pce.held.filter fun r => Touches period.start period.stop r := by
    intro r
    rw [List.mem_filter, decide_eq_true_eq]
    constructor
    · intro hr
      obtain ⟨k, hk, hrow⟩ := List.mem_flatMap.1 hr
      obtain ⟨rows, capped, hanswer, hrow⟩ := mem_recordsOf hrow
      obtain ⟨hmem, htouches⟩ := hheld _ _ _ _ hanswer r hrow
      refine ⟨hmem, ?_⟩
      -- the kept windows lie in the period
      have htiled := hkept.tiled
      rw [hunread] at htiled
      have hw : k.2.pair ∈ kept.map fun k => k.2.pair := List.mem_map_of_mem hk
      rcases htiled with ⟨-, hnil⟩ | htiles
      · rw [hnil] at hw
        cases hw
      · obtain ⟨hlo, -, hhi⟩ := htiles.bounds hw
        obtain ⟨t, hfirst, hlast, ha, hb⟩ := touches_iff.1 htouches
        exact touches_iff.2 ⟨t, hfirst, hlast, hlo.trans ha, hb.trans hhi⟩
    · rintro ⟨hr, htouches⟩
      have hlt : period.start < st₀.unreadFrom.getD period.stop := by
        rw [hunread]
        exact period.lt
      rcases hkept.told hr hlt (by rwa [hunread]) with hmem | ⟨g, hg, -⟩
      · exact hmem
      · rw [hgaps.1] at hg
        cases hg
  have hcongr : PairedStore p (pce.held.filter fun r => Touches period.start period.stop r)
      (finish now period st₀).db.flows :=
    ⟨hstore.sound, hstore.paired, hstore.collected.congr hsame⟩
  exact hcongr.placed

end Told

/-! ## What a pull costs -/

/-- A day, halved some times. -/
def Dyadic (d : Int) : Prop := ∃ j ≤ 11, d = grain * 2 ^ j

section Costs

variable {pce : Pce ε} {piece : Piece} {nxt cur stop : Int} {k : Nat}

/-- A window of at most `2 ^ k` grains is asked about in less than `2 ^ (k + 1)` queries. -/
theorem walk_windows {depth : Nat} (hlength : w.length ≤ grain * 2 ^ k)
    (h : walk p now answer w depth st = .ok st') : st'.windows + 1 ≤ st.windows + 2 ^ (k + 1) := by
  have hone := Nat.one_le_two_pow (n := k + 1)
  fun_induction walk p now answer w depth st generalizing k st' with
  | case1 =>
    obtain rfl := Except.ok.inj h
    omega
  | case2 =>
    obtain rfl := Except.ok.inj h
    exact Nat.add_le_add_left hone _
  | case3 => cases h
  | case4 => cases h
  | case5 w depth st _ _ rows capped hanswer hhalve st₁ hleft ihleft ihright =>
    have hmin := hhalve.2.2
    obtain ⟨n, rfl⟩ := exists_succ_of_length hlength hmin
    obtain ⟨hl, hr⟩ := half_le hlength
    have hone' := Nat.one_le_two_pow (n := n + 1)
    have h₁ := ihleft ((length_left hmin).trans_le hl) hleft hone'
    have h₂ := ihright ((length_right hmin).trans_le hr) h hone'
    dsimp only at h₁
    rw [pow_succ 2 (n + 1)]
    omega
  | case6 w depth st =>
    obtain rfl := Except.ok.inj h
    change st.windows + 1 + 1 ≤ _
    rw [pow_succ]
    have := Nat.one_le_two_pow (n := k)
    omega

/-- An answer is kept below the limit only. -/
theorem walk_rows {depth : Nat} (hrows : st.rows < ondemandMaxRows + perQuery)
    (h : walk p now pce.answer w depth st = .ok st') : st'.rows < ondemandMaxRows + perQuery := by
  fun_induction walk p now pce.answer w depth st generalizing st' with
  | case1 =>
    obtain rfl := Except.ok.inj h
    exact hrows
  | case2 =>
    obtain rfl := Except.ok.inj h
    exact hrows
  | case3 => cases h
  | case4 => cases h
  | case5 w depth st _ _ rows capped hanswer hhalve st₁ hleft ihleft ihright => exact ihright (ihleft hrows hleft) h
  | case6 w depth st _ hlimit rows capped hanswer =>
    obtain rfl := Except.ok.inj h
    change st.rows + (normalizeAll p.digest rows).1.length < _
    have hlength := (Answers.length_normalizeAll p.digest rows).trans (pce.atMost _ _ _ _ hanswer)
    omega

/-- Halves of a day fit. -/
theorem walk_fit {depth : Nat} (hk : k ≤ 11) (hlength : w.length = grain * 2 ^ k)
    (hfit : ∀ f ∈ st.fit, Dyadic f.1) (h : walk p now answer w depth st = .ok st') : ∀ f ∈ st'.fit, Dyadic f.1 := by
  fun_induction walk p now answer w depth st generalizing k st' with
  | case1 =>
    obtain rfl := Except.ok.inj h
    exact hfit
  | case2 =>
    obtain rfl := Except.ok.inj h
    exact hfit
  | case3 => cases h
  | case4 => cases h
  | case5 w depth st _ _ rows capped hanswer hhalve st₁ hleft ihleft ihright =>
    have hmin := hhalve.2.2
    obtain ⟨n, rfl⟩ := exists_succ_of_length hlength.le hmin
    have hhalf : half w.length = grain * 2 ^ n := by rw [hlength, half_eq]
    have hrest : w.length - half w.length = grain * 2 ^ n := by
      rw [hhalf, hlength, pow_succ]
      ring
    refine ihright (by omega) ((length_right hmin).trans hrest) ?_ h
    exact ihleft (by omega) ((length_left hmin).trans hhalf) hfit hleft
  | case6 w depth st _ _ rows capped =>
    obtain rfl := Except.ok.inj h
    have hpiece : Dyadic w.piece.1 := ⟨k, hk, hlength⟩
    cases capped with
    | true => exact hfit
    | false =>
      intro f hf
      obtain rfl := Option.some.inj hf
      change Dyadic (smallest st.fit w.piece).1
      cases hold : st.fit with
      | none => exact hpiece
      | some q =>
        rw [smallest]
        split
        · exact hfit q hold
        · exact hpiece

theorem grains_nonneg (j m : Nat) : 0 ≤ grain * 2 ^ j * (m : Int) :=
  mul_nonneg (mul_nonneg (by decide) (pow_nonneg (by decide) j)) (Int.natCast_nonneg m)

theorem readPieces_windows {j m : Nat} (hpiece : piece.1 = grain * 2 ^ j) (hday : nxt - cur ≤ grain * 2 ^ j * m)
    (h : readPieces p now answer piece nxt cur st = .ok st') :
    st'.windows + m ≤ st.windows + m * 2 ^ (j + 1) := by
  fun_induction readPieces p now answer piece nxt cur st generalizing m st' with
  | case1 => cases h
  | case2 cur st hmore st₁ hwalk ih =>
    cases m with
    | zero =>
      rw [Nat.cast_zero, mul_zero] at hday
      omega
    | succ m =>
      have hasked := walk_windows (k := j) (by simp only [Window.length]; omega) hwalk
      have hleft := grains_nonneg j m
      push_cast at hday
      rw [mul_add, mul_one] at hday
      have hrest := ih (m := m) (by omega) h
      rw [Nat.succ_mul]
      omega
  | case3 =>
    obtain rfl := Except.ok.inj h
    have := Nat.le_mul_of_pos_right m (Nat.two_pow_pos (j + 1))
    omega

theorem readPieces_rows (hrows : st.rows < ondemandMaxRows + perQuery)
    (h : readPieces p now pce.answer piece nxt cur st = .ok st') : st'.rows < ondemandMaxRows + perQuery := by
  fun_induction readPieces p now pce.answer piece nxt cur st generalizing st' with
  | case1 => cases h
  | case2 cur st hmore st₁ hwalk ih => exact ih (walk_rows hrows hwalk) h
  | case3 =>
    obtain rfl := Except.ok.inj h
    exact hrows

/-- The pieces fill a day: the last of them is no shorter than the others. -/
theorem readPieces_fit {j m : Nat} (hj : j ≤ 11) (hpiece : piece.1 = grain * 2 ^ j)
    (hday : nxt - cur = grain * 2 ^ j * m) (hfit : ∀ f ∈ st.fit, Dyadic f.1)
    (h : readPieces p now answer piece nxt cur st = .ok st') : ∀ f ∈ st'.fit, Dyadic f.1 := by
  fun_induction readPieces p now answer piece nxt cur st generalizing m st' with
  | case1 => cases h
  | case2 cur st hmore st₁ hwalk ih =>
    cases m with
    | zero =>
      rw [Nat.cast_zero, mul_zero] at hday
      omega
    | succ m =>
      push_cast at hday
      rw [mul_add, mul_one] at hday
      have hleft := grains_nonneg j m
      have hcut : min (cur + piece.1) nxt = cur + piece.1 := min_eq_left (by omega)
      refine ih (m := m) (by omega) (walk_fit (k := j) hj ?_ hfit hwalk) h
      simp only [Window.length]
      omega
  | case3 =>
    obtain rfl := Except.ok.inj h
    exact hfit

theorem dyadic_nextPiece {fit : Option Piece} {rows : Nat} (hpiece : Dyadic piece.1) (hfit : ∀ f ∈ fit, Dyadic f.1) :
    Dyadic (nextPiece piece fit rows).1 := by
  have hgrown : Dyadic (min (piece.1 * 2) dayWindow) := by
    obtain ⟨j, hj, heq⟩ := hpiece
    rw [heq, mul_assoc, ← pow_succ, dayWindow_eq]
    rcases hj.lt_or_eq with hlt | rfl
    · refine ⟨j + 1, hlt, min_eq_left ?_⟩
      exact mul_le_mul_of_nonneg_left (pow_le_pow_right₀ (by decide) hlt) (by decide)
    · exact ⟨11, le_rfl, min_eq_right (by decide)⟩
  have hkept (q : Piece) (hq : q.1 = min (piece.1 * 2) dayWindow) :
      Dyadic (if rows * 2 ≤ perQuery then q else piece).1 := by
    split
    · exact hq ▸ hgrown
    · exact hpiece
  unfold nextPiece
  dsimp only
  cases fit with
  | none => exact hkept _ rfl
  | some f =>
    dsimp only
    split
    · exact hfit f rfl
    · exact hkept _ rfl

/-- A day costs at most so many queries, however it is cut. -/
theorem readDays_windows {n : Nat} (hpiece : Dyadic piece.1) (hdays : stop - cur ≤ dayWindow * n)
    (h : readDays p now answer stop cur piece st = .ok st') : st'.windows ≤ st.windows + 4095 * n := by
  fun_induction readDays p now answer stop cur piece st generalizing n st' with
  | case1 => cases h
  | case2 cur piece st hmore st₁ hday ih =>
    cases n with
    | zero =>
      rw [Nat.cast_zero, mul_zero] at hdays
      omega
    | succ n =>
      obtain ⟨j, hj, heq⟩ := hpiece
      -- a day is so many of the pieces, and one query less than twice that in each
      have hcount : grain * 2 ^ j * ((2 ^ (11 - j) : Nat) : Int) = dayWindow := by
        push_cast
        rw [dayWindow_eq, mul_assoc, ← pow_add, Nat.add_sub_cancel' hj]
      have hasked := readPieces_windows (m := 2 ^ (11 - j)) heq (by rw [hcount]; omega) hday
      have htotal : 2 ^ (11 - j) * 2 ^ (j + 1) = 4096 := by
        rw [← pow_add]
        have hsum : 11 - j + (j + 1) = 12 := by omega
        rw [hsum]
        rfl
      have hone := Nat.one_le_two_pow (n := 11 - j)
      dsimp only at hasked
      by_cases hfull : cur + dayWindow ≤ stop
      · have hcut : min (cur + dayWindow) stop = cur + dayWindow := min_eq_left hfull
        have hfit := readPieces_fit (m := 2 ^ (11 - j)) hj heq (by rw [hcut, hcount]; omega)
          (fun f hf => absurd hf (by simp)) hday
        have hrest := ih (n := n) (dyadic_nextPiece ⟨j, hj, heq⟩ hfit)
          (by rw [hcut]; push_cast at hdays; rw [mul_add, mul_one] at hdays; omega) h
        omega
      · -- the last day
        rw [min_eq_right (by omega), readDays, dif_neg (fun h => lt_irrefl _ h.1)] at h
        obtain rfl := Except.ok.inj h
        omega
  | case3 =>
    obtain rfl := Except.ok.inj h
    omega

theorem readDays_rows (hrows : st.rows < ondemandMaxRows + perQuery)
    (h : readDays p now pce.answer stop cur piece st = .ok st') : st'.rows < ondemandMaxRows + perQuery := by
  fun_induction readDays p now pce.answer stop cur piece st generalizing st' with
  | case1 => cases h
  | case2 cur piece st hmore st₁ hday ih =>
    have hsame : ({ st with fit := none } : Pull).rows < ondemandMaxRows + perQuery := hrows
    exact ih (readPieces_rows hsame hday) h
  | case3 =>
    obtain rfl := Except.ok.inj h
    exact hrows

end Costs

/-- A PCE that holds one record, and answers with it where it was seen. -/
def webPce : Pce Unit where
  held := [webOut]
  answer _ w := .ok (if Touches w.start w.stop webOut then [some webOut] else [], false)
  atMost n w rows capped h := by
    obtain ⟨rfl, -⟩ := Prod.mk.inj (Except.ok.inj h)
    split <;> decide
  whole n w rows h r hr htouches := by
    obtain ⟨rfl, -⟩ := Prod.mk.inj (Except.ok.inj h)
    obtain rfl := List.mem_singleton.1 hr
    rw [if_pos htouches]
    exact List.mem_singleton_self _
  heldMilliseconds r hr := by
    obtain rfl := List.mem_singleton.1 hr
    exact ⟨by decide, by decide⟩
  rowMilliseconds n w rows capped h r hr := by
    obtain ⟨rfl, -⟩ := Prod.mk.inj (Except.ok.inj h)
    split at hr
    · obtain rfl := Option.some.inj (List.mem_singleton.1 hr)
      exact ⟨by decide, by decide⟩
    · cases hr

def webHour : Window := ⟨0, hours 1, by decide⟩

/-- The hour is one window, and it is read whole. -/
def webRead : Pull :=
  land .plain 0 webHour [some webOut] false { seeded .empty with windows := 1 }

theorem openPeriod_web : openPeriod .plain 0 webPce.answer .empty webHour = .ok (finish 0 webHour webRead) := by
  have hwalk : walk .plain 0 webPce.answer webHour 0 (seeded .empty) = .ok webRead := by
    rw [walk]
    rfl
  have hpieces : readPieces .plain 0 webPce.answer ⟨dayWindow, dayWindow_pos⟩ (hours 1) 0 (seeded .empty) =
      .ok webRead := by
    rw [readPieces, dif_pos ⟨by decide, rfl⟩]
    split
    · rename_i hraised
      cases hwalk.symm.trans hraised
    · rename_i hread
      obtain rfl := Except.ok.inj (hwalk.symm.trans hread)
      rw [readPieces, dif_neg (fun h => lt_irrefl _ h.1)]
  have hdays : readDays .plain 0 webPce.answer (hours 1) 0 ⟨dayWindow, dayWindow_pos⟩ (seeded .empty) =
      .ok webRead := by
    rw [readDays, dif_pos ⟨by decide, rfl⟩]
    split
    · rename_i hraised
      cases hpieces.symm.trans hraised
    · rename_i hread
      obtain rfl := Except.ok.inj (hpieces.symm.trans hread)
      rw [readDays, dif_neg (fun h => lt_irrefl _ h.1)]
  change (readDays .plain 0 webPce.answer (hours 1) 0 ⟨dayWindow, dayWindow_pos⟩ (seeded .empty)).map _ = _
  rw [hdays]
  rfl

theorem openPeriod_as_one_web : ((finish 0 webHour webRead).db.flows.rows.map FlowRow.placed).Perm
    (placedOnce Primitives.plain.digest (webPce.held.filter fun r => Touches webHour.start webHour.stop r)) := by
  refine openPeriod_as_one .plain 0 webPce .empty webHour (fun n w rows capped h r hr => ?_) openPeriod_web rfl
  obtain ⟨rfl, -⟩ := Prod.mk.inj (Except.ok.inj h)
  split at hr
  · rename_i htouches
    obtain rfl := Option.some.inj (List.mem_singleton.1 hr)
    exact ⟨List.mem_singleton_self _, htouches⟩
  · cases hr

end IllumioOps.OnDemand
