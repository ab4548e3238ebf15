import IllumioOps.Collect.Archive
import IllumioOps.Collect.Coverage
import IllumioOps.Tables.Loaded
import Mathlib.Data.List.Induction

/-!
# A period read back from the archive

`services.archive_read`: a period that reaches before the floor of the store is built in a throwaway store, from
what the store still has and, day by day, from the files of the archive. A day without a finished file is taken for
one without rows when it lies after the first file and was collected, and is reported missing otherwise. The
throwaway store holds the newest version of every record of what it presents as covered exactly when the files and
the log of the archive allow it to (`presented_iff`): a day that is stale or half written is taken for an empty one.

Times are those of the store's texts, the floor included.
-/

set_option autoImplicit false

namespace IllumioOps.ArchiveRead

open Archive (Store Row Action)
open Collect (OpenGap)
open Ranges (Inside joinRange inside_joinRange)
open Tables

variable {κ γ β : Type}

/-! ## The install -/

inductive Kind where
  | flows
  | events
  deriving DecidableEq, Repr

/-- What happened to the file of a day after it was written: it is gone, lines of it are damaged, it ends early. -/
structure Damage where
  gone : Bool
  bad : Nat → Bool
  cut : Option Nat

/-- The lines of a file as they are read, `none` for what cannot be: a damaged line, or the end of a file that
ends early. -/
def Damage.read (d : Damage) (lines : List (Row κ γ β)) : List (Option (Row κ γ β)) :=
  let marked := lines.mapIdx fun n r => if d.bad n then none else some r
  match d.cut with
  | some n => marked.take n ++ [none]
  | none => marked

/-- One kind of rows of the install: its store and archive, the days of `archive_log`, what happened to the files,
what was collected, the gaps that were recorded, and where the store's own rows start. -/
structure Install (κ γ β : Type) where
  store : Store κ γ β
  days : List Int
  logged : ∀ day, (store.log day).isSome → day ∈ days
  damage : Int → Damage
  coverage : List (Int × Int)
  gaps : List OpenGap
  floor : Int

/-- The file of a finished day, as it is read, if it is there. -/
def Install.fileOf (i : Install κ γ β) (day : Int) : Option (List (Option (Row κ γ β))) :=
  if Archive.archived i.store.log day && !(i.damage day).gone then
    (i.store.files day).map (i.damage day).read
  else none

/-- `archive_files` -/
def archiveFiles (i : Install κ γ β) : List Int := i.days.filter fun day => (i.fileOf day).isSome

/-! ## Reading the period -/

/-- `ARCHIVE_MAX_ROWS` -/
def archiveMaxRows : Nat := 1000000

/-- `_days` -/
def daysOf (start stop : Int) : List Int :=
  (List.range (dbDay (stop - 1) + 1 - dbDay start).toNat).map fun (n : Nat) => dbDay start + n

/-- `_day_window` -/
def dayWindow (day : Int) : Int × Int := (dayStart day, dayStart (day + 1))

/-- The part of a day that is read. -/
def Install.window (i : Install κ γ β) (start stop day : Int) : Int × Int :=
  (max (dayWindow day).1 start, min (min (dayWindow day).2 stop) i.floor)

/-- A window as the store's texts have it. -/
def stored (w : Int × Int) : Int × Int := (dbTime w.1, dbTime w.2)

/-- A day without a file that is taken for one without rows. -/
def Install.takenEmpty (i : Install κ γ β) (start stop day : Int) : Bool :=
  (match (archiveFiles i).min? with
    | some first => first < day
    | none => false) &&
  i.coverage.any fun r =>
    r.1 ≤ (i.window start stop day).1 && (i.window start stop day).2 ≤ r.2

/-- One kind of rows of the throwaway store. -/
structure Scratch (κ γ β : Type) where
  rows : List (Row κ γ β)
  coverage : List (Int × Int)
  gaps : List OpenGap

/-- The throwaway store and the result, while it is built. -/
structure Reading (κ γ β : Type) where
  scratch : Kind → Scratch κ γ β
  archivedDays : Kind → List Int
  missingDays : Kind → List Int
  rows : Nat
  unreadable : Nat
  unreadFrom : Option Int

/-- `copy_flows_from` and `copy_events_from` -/
def Install.copied (i : Install κ γ β) (start stop : Int) : List (Row κ γ β) :=
  i.store.rows.filter fun r => dbTime (max start i.floor) ≤ r.time && r.time < dbTime stop

/-- `add_coverage` -/
def addCoverage (ranges : List (Int × Int)) (w : Int × Int) : List (Int × Int) :=
  joinRange ranges (stored w).1 (stored w).2

/-- `_copy_coverage` -/
def Install.copyCoverage (i : Install κ γ β) (start stop : Int) : List (Int × Int) × List OpenGap :=
  let lo := max start i.floor
  if stop ≤ lo then ([], [])
  else
    (i.coverage.foldl (fun ranges r =>
      if max r.1 lo < min r.2 stop then addCoverage ranges (max r.1 lo, min r.2 stop) else ranges) [],
    (i.gaps.filter fun g => g.windowStart < dbTime stop && dbTime lo < g.windowEnd).map fun g =>
      ⟨dbTime (max g.windowStart lo), dbTime (min g.windowEnd stop), g.kind⟩)

def Install.seeded (i : Install κ γ β) (start stop : Int) : Scratch κ γ β :=
  { rows := i.copied start stop
    coverage := (i.copyCoverage start stop).1
    gaps := (i.copyCoverage start stop).2 }

/-- The row of a line that is loaded: it can be read, and lies in the window. -/
def loadable (w : Int × Int) (line : Option (Row κ γ β)) : Option (Row κ γ β) :=
  line.filter fun r => (stored w).1 ≤ r.time && r.time < (stored w).2

/-- What came of a file so far. -/
structure Load (κ γ β : Type) where
  rows : List (Row κ γ β)
  loaded : Nat
  unreadable : Nat
  stopped : Bool

section Reads

variable [DecidableEq κ]

/-- `_load_file`. The batches keep the order of the lines, and all of a file is one transaction. -/
def loadFile (w : Int × Int) (budget : Nat) : List (Option (Row κ γ β)) → Load κ γ β → Load κ γ β
  | [], load => load
  | none :: lines, load => loadFile w budget lines { load with unreadable := load.unreadable + 1 }
  | some r :: lines, load =>
      if (loadable w (some r)).isNone then loadFile w budget lines load
      else
        let load := { load with rows := insertNew Row.key load.rows r, loaded := load.loaded + 1 }
        if budget ≤ load.loaded then { load with stopped := true } else loadFile w budget lines load

variable (install : Kind → Install κ γ β) (start stop : Int)

/-- A day of a kind, in the loop of `archive_period`. -/
def readDay (kind : Kind) (st : Reading κ γ β) (day : Int) : Reading κ γ β :=
  let i := install kind
  let w := i.window start stop day
  let scratch := st.scratch kind
  let covered := { scratch with coverage := addCoverage scratch.coverage w }
  if w.2 ≤ w.1 then st
  else if st.unreadFrom.isSome then st
  else
    match i.fileOf day with
    | none =>
        if i.takenEmpty start stop day then
          { st with scratch := Function.update st.scratch kind covered }
        else
          { st with missingDays := Function.update st.missingDays kind (st.missingDays kind ++ [day]) }
    | some lines =>
        let load := loadFile w (archiveMaxRows - st.rows) lines ⟨scratch.rows, 0, 0, false⟩
        let gaps := if load.stopped then [⟨dbTime w.1, dbTime stop, .truncated⟩] else []
        let filled := { covered with rows := load.rows, gaps := scratch.gaps ++ gaps }
        { scratch := Function.update st.scratch kind filled
          archivedDays := Function.update st.archivedDays kind (st.archivedDays kind ++ [day])
          missingDays := st.missingDays
          rows := st.rows + load.loaded
          unreadable := st.unreadable + load.unreadable
          unreadFrom := if load.stopped then some w.1 else none }

/-- The days of a kind that are read from the archive. -/
def archiveDays (kind : Kind) : List Int := daysOf start (min stop (install kind).floor)

/-- A kind, in the loop of `archive_period`. -/
def readKind (st : Reading κ γ β) (kind : Kind) : Reading κ γ β :=
  (archiveDays install start stop kind).foldl (readDay install start stop kind)
    { st with
      archivedDays := Function.update st.archivedDays kind []
      missingDays := Function.update st.missingDays kind [] }

/-- The throwaway store before the archive is read. -/
def seeded (kinds : List Kind) : Reading κ γ β :=
  { scratch := fun kind => if kind ∈ kinds then (install kind).seeded start stop else ⟨[], [], []⟩
    archivedDays := fun _ => []
    missingDays := fun _ => []
    rows := 0
    unreadable := 0
    unreadFrom := none }

/-- `archive_period` -/
def archivePeriod (kinds : List Kind) : Reading κ γ β :=
  kinds.foldl (readKind install start stop) (seeded install start stop kinds)

end Reads

/-! ## What is read -/

/-- A line of the file of a day. -/
abbrev Line (κ γ β : Type) : Type := (Kind × Int) × Option (Row κ γ β)

section Lines

variable (install : Kind → Install κ γ β) (start stop : Int)

def windowOf (p : Kind × Int) : Int × Int := (install p.1).window start stop p.2

/-- The lines of a day's file, where some of the day is in the period. -/
def linesOf (p : Kind × Int) : List (Line κ γ β) :=
  if (windowOf install start stop p).2 ≤ (windowOf install start stop p).1 then []
  else (((install p.1).fileOf p.2).getD []).map fun line => (p, line)

/-- The lines that count are the rows that are loaded. -/
def counts (line : Line κ γ β) : Bool := (loadable (windowOf install start stop line.1) line.2).isSome

/-- The rows that the files of these days have for the period. -/
def rowsOf (ps : List (Kind × Int)) : Nat :=
  (ps.flatMap (linesOf install start stop)).countP (counts install start stop)

/-- The lines of these days up to the limit. -/
def linesRead (ps : List (Kind × Int)) : List (Line κ γ β) :=
  upTo (counts install start stop) archiveMaxRows (ps.flatMap (linesOf install start stop))

def rowsRead (kind : Kind) (ps : List (Kind × Int)) : List (Row κ γ β) :=
  (linesRead install start stop ps).filterMap fun line =>
    if line.1.1 = kind then loadable (windowOf install start stop line.1) line.2 else none

/-- Where the limit is reached: the start of what is read of that day. -/
def stopsAt (ps : List (Kind × Int)) : Option Int :=
  if archiveMaxRows ≤ rowsOf install start stop ps then
    (linesRead install start stop ps).getLast?.map fun line => (windowOf install start stop line.1).1
  else none

/-- The day has a part in the period, and is come to before the limit. -/
def Begun (ps : List (Kind × Int)) (p : Kind × Int) : Prop :=
  (windowOf install start stop p).1 < (windowOf install start stop p).2 ∧
    ∃ before rest, ps = before ++ p :: rest ∧ rowsOf install start stop before < archiveMaxRows

/-- The day is presented: it was read, or taken for one without rows. -/
def Presented (p : Kind × Int) : Prop :=
  ((install p.1).fileOf p.2).isSome ∨ (install p.1).takenEmpty start stop p.2

/-- The days of the kinds, one after the other. -/
def turns (kinds : List Kind) : List (Kind × Int) :=
  kinds.flatMap fun kind => (archiveDays install start stop kind).map fun day => (kind, day)

variable {install : Kind → Install κ γ β} {start stop : Int} {ps : List (Kind × Int)} {p : Kind × Int}

theorem rowsOf_append (ps qs : List (Kind × Int)) :
    rowsOf install start stop (ps ++ qs) = rowsOf install start stop ps + rowsOf install start stop qs := by
  simp only [rowsOf, List.flatMap_append, List.countP_append]

/-- Before the limit every line is read. -/
theorem linesRead_eq (h : rowsOf install start stop ps < archiveMaxRows) :
    linesRead install start stop ps = ps.flatMap (linesOf install start stop) := upTo_eq_self h

theorem linesRead_append_of_lt (h : rowsOf install start stop ps < archiveMaxRows) :
    linesRead install start stop (ps ++ [p]) = linesRead install start stop ps ++
      upTo (counts install start stop) (archiveMaxRows - rowsOf install start stop ps)
        (linesOf install start stop p) := by
  rw [linesRead_eq h, linesRead, List.flatMap_append, upTo_append_of_lt h, List.flatMap_singleton]
  rfl

theorem archiveMaxRows_pos : 0 < archiveMaxRows := by decide

/-- From the limit on nothing more is read. -/
theorem linesRead_append_of_le (h : archiveMaxRows ≤ rowsOf install start stop ps) :
    linesRead install start stop (ps ++ [p]) = linesRead install start stop ps := by
  rw [linesRead, List.flatMap_append, upTo_append_of_le h archiveMaxRows_pos]
  rfl

theorem linesRead_append_of_nil (h : linesOf install start stop p = []) :
    linesRead install start stop (ps ++ [p]) = linesRead install start stop ps := by
  rw [linesRead, List.flatMap_append, List.flatMap_singleton, h, List.append_nil]
  rfl

theorem rowsOf_singleton_of_nil (h : linesOf install start stop p = []) : rowsOf install start stop [p] = 0 := by
  rw [rowsOf, List.flatMap_singleton, h, List.countP_nil]

theorem stopsAt_of_lt (h : rowsOf install start stop ps < archiveMaxRows) : stopsAt install start stop ps = none :=
  if_neg (not_le.2 h)

theorem stopsAt_isSome (h : archiveMaxRows ≤ rowsOf install start stop ps) :
    (stopsAt install start stop ps).isSome := by
  have hne : ps.flatMap (linesOf install start stop) ≠ [] := by
    intro hnil
    rw [rowsOf, hnil, List.countP_nil] at h
    exact absurd h (by decide)
  rw [stopsAt, if_pos h, Option.isSome_map, List.getLast?_isSome]
  exact upTo_ne_nil hne

theorem stopsAt_append_of_le (h : archiveMaxRows ≤ rowsOf install start stop ps) :
    stopsAt install start stop (ps ++ [p]) = stopsAt install start stop ps := by
  rw [stopsAt, stopsAt, if_pos h, if_pos (by rw [rowsOf_append]; omega), linesRead_append_of_le h]

/-- The day in which the limit is reached. -/
theorem stopsAt_append_of_lt (h : rowsOf install start stop ps < archiveMaxRows)
    (hle : archiveMaxRows ≤ rowsOf install start stop ps + rowsOf install start stop [p]) :
    stopsAt install start stop (ps ++ [p]) = some (windowOf install start stop p).1 := by
  have hne : linesOf install start stop p ≠ [] := by
    intro hnil
    rw [rowsOf_singleton_of_nil hnil] at hle
    omega
  rw [stopsAt, if_pos (by rwa [rowsOf_append]), linesRead_append_of_lt h]
  obtain ⟨line, hlast⟩ := Option.isSome_iff_exists.1 (List.getLast?_isSome.2 (upTo_ne_nil
    (p := counts install start stop) (n := archiveMaxRows - rowsOf install start stop ps) hne))
  rw [List.getLast?_append, hlast, Option.some_or, Option.map_some]
  have hmem := upTo_subset (List.mem_of_getLast? hlast)
  unfold linesOf at hmem
  split at hmem
  · cases hmem
  · obtain ⟨_, -, rfl⟩ := List.mem_map.1 hmem
    rfl

theorem begun_append_iff {q : Kind × Int} : Begun install start stop (ps ++ [p]) q ↔
    Begun install start stop ps q ∨ q = p ∧ rowsOf install start stop ps < archiveMaxRows ∧
      (windowOf install start stop p).1 < (windowOf install start stop p).2 := by
  constructor
  · rintro ⟨hwindow, before, rest, heq, hlt⟩
    rcases List.eq_nil_or_concat' rest with rfl | ⟨rest', last, rfl⟩
    · obtain ⟨rfl, hq⟩ := List.append_inj' heq rfl
      obtain rfl := List.singleton_inj.1 hq
      exact Or.inr ⟨rfl, hlt, hwindow⟩
    · rw [← List.cons_append, ← List.append_assoc] at heq
      obtain ⟨rfl, -⟩ := List.append_inj' heq rfl
      exact Or.inl ⟨hwindow, before, rest', rfl, hlt⟩
  · rintro (⟨hwindow, before, rest, rfl, hlt⟩ | ⟨rfl, hlt, hwindow⟩)
    · exact ⟨hwindow, before, rest ++ [p], by simp, hlt⟩
    · exact ⟨hwindow, ps, [], rfl, hlt⟩

end Lines

/-! ## What the throwaway store holds -/

theorem loadable_none (w : Int × Int) : loadable w (none : Option (Row κ γ β)) = none := rfl

theorem loadable_some (w : Int × Int) (r : Row κ γ β) : loadable w (some r) = none ∨ loadable w (some r) = some r := by
  unfold loadable
  by_cases h : ((stored w).1 ≤ r.time && r.time < (stored w).2) = true
  · exact Or.inr (by simp [Option.filter, h])
  · exact Or.inl (by simp [Option.filter, h])

section Holds

variable [DecidableEq κ]

/-- A file is read up to the rows that are left of the limit. -/
theorem loadFile_eq (w : Int × Int) {budget : Nat} (lines : List (Option (Row κ γ β))) {load : Load κ γ β}
    (hloaded : load.loaded < budget) (hstopped : load.stopped = false) :
    loadFile w budget lines load =
      { rows := ((upTo (fun l => (loadable w l).isSome) (budget - load.loaded) lines).filterMap
          (loadable w)).foldl (insertNew Row.key) load.rows
        loaded := load.loaded + (upTo (fun l => (loadable w l).isSome) (budget - load.loaded) lines).countP
          fun l => (loadable w l).isSome
        unreadable := load.unreadable +
          (upTo (fun l => (loadable w l).isSome) (budget - load.loaded) lines).countP Option.isNone
        stopped := decide (budget ≤ load.loaded + lines.countP fun l => (loadable w l).isSome) } := by
  induction lines generalizing load with
  | nil =>
    have hlt : ¬ budget ≤ load.loaded := not_le.2 hloaded
    simp only [loadFile, upTo, List.filterMap_nil, List.foldl_nil, List.countP_nil, Nat.add_zero, hlt, decide_false,
      ← hstopped]
  | cons line lines ih =>
    rw [upTo]
    cases line with
    | none =>
      rw [loadFile]
      refine (ih ?_ ?_).trans ?_
      · exact hloaded
      · exact hstopped
      · rw [if_neg (by simp [loadable_none]), List.filterMap_cons_none (loadable_none w)]
        simp [loadable_none]
        omega
    | some r =>
      rw [loadFile]
      rcases loadable_some w r with hr | hr
      · have hnone : (loadable w (some r)).isNone := by rw [hr]; rfl
        rw [if_pos hnone, ih hloaded hstopped, if_neg (by simp [hr]), List.filterMap_cons_none hr]
        simp [hr]
      · have hcounts : (loadable w (some r)).isSome = true := by rw [hr]; rfl
        rw [if_neg (by simp [hr]), if_pos hcounts]
        by_cases hlast : budget ≤ load.loaded + 1
        · have hle : budget ≤ load.loaded + (lines.countP (fun l => (loadable w l).isSome) + 1) := by omega
          rw [if_pos (by omega : budget - load.loaded ≤ 1)]
          simp [hr, hle, hlast]
        · rw [if_neg (by omega : ¬ budget - load.loaded ≤ 1)]
          simp only [if_neg hlast]
          refine (ih ?_ ?_).trans ?_
          · exact not_le.1 hlast
          · exact hstopped
          · have hcount : ∀ ls, (some r :: ls).countP (fun l => (loadable w l).isSome) =
                ls.countP (fun l => (loadable w l).isSome) + 1 := fun _ => List.countP_cons_of_pos hcounts
            rw [Nat.sub_sub, List.filterMap_cons_some hr, hcount, hcount]
            simp
            omega

variable (install : Kind → Install κ γ β) (start stop : Int) (kinds : List Kind)

/-- What the store and the result hold when these days are done. -/
structure Filled (ps : List (Kind × Int)) (st : Reading κ γ β) : Prop where
  rows : ∀ kind, (st.scratch kind).rows = (rowsRead install start stop kind ps).foldl (insertNew Row.key)
    ((seeded install start stop kinds).scratch kind).rows
  total : rowsOf install start stop ps < archiveMaxRows → st.rows = rowsOf install start stop ps
  unreadable : st.unreadable = (linesRead install start stop ps).countP fun line => line.2.isNone
  unreadFrom : st.unreadFrom = stopsAt install start stop ps
  covered : ∀ kind t, t < dbTime (install kind).floor → ((∃ r ∈ (st.scratch kind).coverage, Inside r t) ↔
    ∃ day, Begun install start stop ps (kind, day) ∧ Presented install start stop (kind, day) ∧
      Inside (stored (windowOf install start stop (kind, day))) t)
  missing : ∀ kind, ∀ day ∈ st.missingDays kind, ¬ Presented install start stop (kind, day)

variable {install start stop kinds} {ps : List (Kind × Int)} {st : Reading κ γ β} {kind : Kind} {day : Int}

omit [DecidableEq κ] in
theorem inside_addCoverage {ranges : List (Int × Int)} {w : Int × Int} {t : Int} :
    (∃ r ∈ addCoverage ranges w, Inside r t) ↔ (∃ r ∈ ranges, Inside r t) ∨ Inside (stored w) t :=
  inside_joinRange

omit [DecidableEq κ] in
/-- What is copied of the store's coverage starts at its floor. -/
theorem floor_le_of_copyCoverage (i : Install κ γ β) (start stop : Int) {t : Int}
    (h : ∃ r ∈ (i.copyCoverage start stop).1, Inside r t) : dbTime i.floor ≤ t := by
  have hfold : ∀ (rs ranges : List (Int × Int)), (∀ r ∈ ranges, Inside r t → dbTime i.floor ≤ t) →
      (∃ r ∈ rs.foldl (fun ranges r => if max r.1 (max start i.floor) < min r.2 stop
        then addCoverage ranges (max r.1 (max start i.floor), min r.2 stop) else ranges) ranges, Inside r t) →
      dbTime i.floor ≤ t := by
    intro rs
    induction rs with
    | nil => exact fun ranges hranges ⟨r, hr, hin⟩ => hranges r hr hin
    | cons c rs ih =>
      intro ranges hranges hin
      refine ih _ ?_ hin
      dsimp only
      split
      · intro r hr hrt
        rcases inside_addCoverage.1 ⟨r, hr, hrt⟩ with ⟨q, hq, hqt⟩ | hw
        · exact hranges q hq hqt
        · exact (dbTime_mono ((le_max_right _ _).trans (le_max_right _ _))).trans hw.1
      · exact hranges
  unfold Install.copyCoverage at h
  dsimp only at h
  split at h
  · obtain ⟨r, hr, -⟩ := h
    cases hr
  · exact hfold i.coverage [] (fun r hr => absurd hr List.not_mem_nil) h

theorem filled_seeded : Filled install start stop kinds [] (seeded install start stop kinds) where
  rows _ := rfl
  total _ := rfl
  unreadable := rfl
  unreadFrom := rfl
  covered kind t ht := by
    constructor
    · intro h
      refine absurd (floor_le_of_copyCoverage (install kind) start stop ?_) (not_le.2 ht)
      by_cases hkind : kind ∈ kinds
      · simpa [seeded, hkind, Install.seeded] using h
      · simp [seeded, hkind] at h
    · rintro ⟨day, ⟨-, before, rest, heq, -⟩, -⟩
      cases before <;> cases heq
  missing _ _ h := absurd h List.not_mem_nil

omit [DecidableEq κ] in
/-- Nothing more is presented where the day is not begun, or is not presented. -/
theorem covered_append_of_not {t : Int} {c : Prop} {p : Kind × Int}
    (h : c ↔ ∃ day, Begun install start stop ps (kind, day) ∧ Presented install start stop (kind, day) ∧
      Inside (stored (windowOf install start stop (kind, day))) t)
    (hnot : archiveMaxRows ≤ rowsOf install start stop ps ∨
      (windowOf install start stop p).2 ≤ (windowOf install start stop p).1 ∨ ¬ Presented install start stop p ∨
      p.1 ≠ kind) :
    c ↔ ∃ day, Begun install start stop (ps ++ [p]) (kind, day) ∧ Presented install start stop (kind, day) ∧
      Inside (stored (windowOf install start stop (kind, day))) t := by
  rw [h]
  constructor
  · rintro ⟨day, hbegun, hrest⟩
    exact ⟨day, begun_append_iff.2 (Or.inl hbegun), hrest⟩
  · rintro ⟨day, hbegun, hpresented, hin⟩
    rcases begun_append_iff.1 hbegun with hbegun | ⟨rfl, hlt, hwindow⟩
    · exact ⟨day, hbegun, hpresented, hin⟩
    · rcases hnot with hle | hempty | hmissing | hkind
      · omega
      · omega
      · exact absurd hpresented hmissing
      · exact absurd rfl hkind

omit [DecidableEq κ] in
/-- A day that is presented covers its window. -/
theorem covered_append_of_presented {t : Int} {c : Prop}
    (h : c ↔ ∃ day, Begun install start stop ps (kind, day) ∧ Presented install start stop (kind, day) ∧
      Inside (stored (windowOf install start stop (kind, day))) t)
    (hlt : rowsOf install start stop ps < archiveMaxRows)
    (hwindow : (windowOf install start stop (kind, day)).1 < (windowOf install start stop (kind, day)).2)
    (hpresented : Presented install start stop (kind, day)) :
    (c ∨ Inside (stored (windowOf install start stop (kind, day))) t) ↔
      ∃ day', Begun install start stop (ps ++ [(kind, day)]) (kind, day') ∧
        Presented install start stop (kind, day') ∧
        Inside (stored (windowOf install start stop (kind, day'))) t := by
  rw [h]
  constructor
  · rintro (⟨day', hbegun, hrest⟩ | hin)
    · exact ⟨day', begun_append_iff.2 (Or.inl hbegun), hrest⟩
    · exact ⟨day, begun_append_iff.2 (Or.inr ⟨rfl, hlt, hwindow⟩), hpresented, hin⟩
  · rintro ⟨day', hbegun, hpresented', hin⟩
    rcases begun_append_iff.1 hbegun with hbegun | ⟨heq, -⟩
    · exact Or.inl ⟨day', hbegun, hpresented', hin⟩
    · obtain rfl : day' = day := (Prod.mk.inj heq).2
      exact Or.inr hin

/-- A day that has no lines to read changes what is covered, or what is missing. -/
theorem Filled.of_noLines (h : Filled install start stop kinds ps st) {p : Kind × Int} {st' : Reading κ γ β}
    (hnil : linesOf install start stop p = []) (hrows : ∀ kind, (st'.scratch kind).rows = (st.scratch kind).rows)
    (htotal : st'.rows = st.rows) (hunreadable : st'.unreadable = st.unreadable)
    (hfrom : st'.unreadFrom = st.unreadFrom)
    (hcovered : ∀ kind t, t < dbTime (install kind).floor → ((∃ r ∈ (st'.scratch kind).coverage, Inside r t) ↔
      ∃ day, Begun install start stop (ps ++ [p]) (kind, day) ∧ Presented install start stop (kind, day) ∧
        Inside (stored (windowOf install start stop (kind, day))) t))
    (hmissing : ∀ kind, ∀ day ∈ st'.missingDays kind, ¬ Presented install start stop (kind, day)) :
    Filled install start stop kinds (ps ++ [p]) st' := by
  have hcount : rowsOf install start stop (ps ++ [p]) = rowsOf install start stop ps := by
    rw [rowsOf_append, rowsOf_singleton_of_nil hnil, Nat.add_zero]
  refine ⟨fun kind => ?_, fun hlt => ?_, ?_, ?_, hcovered, hmissing⟩
  · rw [hrows, h.rows, rowsRead, rowsRead, linesRead_append_of_nil hnil]
  · rw [htotal, hcount]
    exact h.total (hcount ▸ hlt)
  · rw [hunreadable, h.unreadable, linesRead_append_of_nil hnil]
  · rw [hfrom, h.unreadFrom, stopsAt, stopsAt, hcount, linesRead_append_of_nil hnil]

/-- Once the limit was reached the days are passed over. -/
theorem Filled.passed (h : Filled install start stop kinds ps st) (p : Kind × Int)
    (hle : archiveMaxRows ≤ rowsOf install start stop ps) : Filled install start stop kinds (ps ++ [p]) st where
  rows kind := by rw [h.rows, rowsRead, rowsRead, linesRead_append_of_le hle]
  total hlt := by
    rw [rowsOf_append] at hlt
    omega
  unreadable := by rw [h.unreadable, linesRead_append_of_le hle]
  unreadFrom := by rw [h.unreadFrom, stopsAt_append_of_le hle]
  covered kind t ht := covered_append_of_not (h.covered kind t ht) (Or.inl hle)
  missing := h.missing

/-- A file that is read. -/
theorem Filled.file (h : Filled install start stop kinds ps st) {lines : List (Option (Row κ γ β))}
    (hlt : rowsOf install start stop ps < archiveMaxRows)
    (hwindow : (windowOf install start stop (kind, day)).1 < (windowOf install start stop (kind, day)).2)
    (hfile : (install kind).fileOf day = some lines) {load : Load κ γ β}
    {archivedDays : Kind → List Int}
    (hload : load = loadFile (windowOf install start stop (kind, day)) (archiveMaxRows - st.rows) lines
      ⟨(st.scratch kind).rows, 0, 0, false⟩) {filled : Scratch κ γ β} (hrows : filled.rows = load.rows)
    (hcovers : filled.coverage = addCoverage (st.scratch kind).coverage (windowOf install start stop (kind, day))) :
    Filled install start stop kinds (ps ++ [(kind, day)])
      { scratch := Function.update st.scratch kind filled
        archivedDays := archivedDays
        missingDays := st.missingDays
        rows := st.rows + load.loaded
        unreadable := st.unreadable + load.unreadable
        unreadFrom := if load.stopped then some (windowOf install start stop (kind, day)).1 else none } := by
  set w := windowOf install start stop (kind, day) with hw
  have hlines : linesOf install start stop (kind, day) = lines.map fun line => ((kind, day), line) := by
    rw [linesOf, if_neg (not_le.2 hwindow), hfile]
    rfl
  have hread : upTo (counts install start stop) (archiveMaxRows - rowsOf install start stop ps)
      (linesOf install start stop (kind, day)) =
      (upTo (fun l => (loadable w l).isSome) (archiveMaxRows - rowsOf install start stop ps) lines).map
        fun line => ((kind, day), line) := by
    rw [hlines, upTo_map]
    rfl
  have hcount : rowsOf install start stop [(kind, day)] = lines.countP fun l => (loadable w l).isSome := by
    rw [rowsOf, List.flatMap_singleton, hlines, List.countP_map]
    rfl
  have hrest : 0 < archiveMaxRows - rowsOf install start stop ps := Nat.sub_pos_of_lt hlt
  rw [h.total hlt, loadFile_eq w lines hrest rfl] at hload
  simp only [Nat.sub_zero, Nat.zero_add] at hload
  have hstopped : load.stopped = true ↔ archiveMaxRows ≤ rowsOf install start stop (ps ++ [(kind, day)]) := by
    rw [hload, decide_eq_true_eq, rowsOf_append, hcount]
    omega
  refine ⟨fun k => ?_, fun hlt' => ?_, ?_, ?_, fun k t ht => ?_, h.missing⟩
  · rw [rowsRead, linesRead_append_of_lt hlt, List.filterMap_append, List.foldl_append, hread, List.filterMap_map]
    dsimp only
    by_cases hk : k = kind
    · subst hk
      rw [Function.update_self, hrows, hload, h.rows, rowsRead]
      simp [← hw]
    · have hnone : ∀ ls : List (Option (Row κ γ β)), ls.filterMap ((fun line : Line κ γ β =>
          if line.1.1 = k then loadable (windowOf install start stop line.1) line.2 else none) ∘
            fun line => ((kind, day), line)) = [] := by
        intro ls
        rw [List.filterMap_eq_nil_iff]
        exact fun line _ => if_neg fun heq => hk heq.symm
      rw [Function.update_of_ne hk, h.rows, hnone]
      rfl
  · have hnot : ¬ archiveMaxRows ≤ rowsOf install start stop ps + lines.countP fun l => (loadable w l).isSome := by
      rw [← hcount, ← rowsOf_append]
      exact not_le.2 hlt'
    rw [h.total hlt, hload, rowsOf_append, hcount, upTo_eq_self (by omega)]
  · rw [h.unreadable, hload, linesRead_append_of_lt hlt, List.countP_append, hread, List.countP_map]
    rfl
  · by_cases hle : archiveMaxRows ≤ rowsOf install start stop (ps ++ [(kind, day)])
    · rw [if_pos (hstopped.2 hle), stopsAt_append_of_lt hlt (by rwa [rowsOf_append] at hle)]
    · rw [if_neg fun hs => hle (hstopped.1 hs), stopsAt_of_lt (not_le.1 hle)]
  · dsimp only
    by_cases hk : k = kind
    · subst hk
      rw [Function.update_self, hcovers, inside_addCoverage]
      exact covered_append_of_presented (h.covered k t ht) hlt hwindow (Or.inl (by rw [hfile]; rfl))
    · rw [Function.update_of_ne hk]
      exact covered_append_of_not (h.covered k t ht) (Or.inr (Or.inr (Or.inr fun heq => hk heq.symm)))

/-- A day of the loop. -/
theorem Filled.readDay (h : Filled install start stop kinds ps st) (kind : Kind) (day : Int) :
    Filled install start stop kinds (ps ++ [(kind, day)]) (readDay install start stop kind st day) := by
  have hempty : (windowOf install start stop (kind, day)).2 ≤ (windowOf install start stop (kind, day)).1 ∨
      (install kind).fileOf day = none → linesOf install start stop (kind, day) = [] := by
    intro hor
    unfold linesOf
    split
    · rfl
    · rcases hor with hle | hnone
      · contradiction
      · rw [hnone]
        rfl
  unfold ArchiveRead.readDay
  dsimp only
  split
  · rename_i hle
    exact h.of_noLines (hempty (Or.inl hle)) (fun _ => rfl) rfl rfl rfl
      (fun k t ht => covered_append_of_not (h.covered k t ht) (Or.inr (Or.inl hle))) h.missing
  · rename_i hwindow
    split
    · rename_i hsome
      refine h.passed _ (not_lt.1 fun hlt => ?_)
      rw [h.unreadFrom, stopsAt_of_lt hlt] at hsome
      cases hsome
    · rename_i hnone
      have hlt : rowsOf install start stop ps < archiveMaxRows := by
        refine not_le.1 fun hle => hnone ?_
        rw [h.unreadFrom]
        exact stopsAt_isSome hle
      split
      · rename_i hfile
        have hnil := hempty (Or.inr hfile)
        split
        · -- taken for a day without rows
          rename_i htaken
          refine h.of_noLines hnil (fun k => ?_) rfl rfl rfl (fun k t ht => ?_) h.missing <;> dsimp only
          · by_cases hk : k = kind
            · subst hk
              rw [Function.update_self]
            · rw [Function.update_of_ne hk]
          · by_cases hk : k = kind
            · subst hk
              rw [Function.update_self, inside_addCoverage]
              exact covered_append_of_presented (h.covered k t ht) hlt (not_le.1 hwindow) (Or.inr htaken)
            · rw [Function.update_of_ne hk]
              exact covered_append_of_not (h.covered k t ht) (Or.inr (Or.inr (Or.inr fun heq => hk heq.symm)))
        · -- missing
          rename_i htaken
          have hnot : ¬ Presented install start stop (kind, day) := by
            rintro (hsome | htaken')
            · rw [hfile] at hsome
              cases hsome
            · exact htaken htaken'
          refine h.of_noLines hnil (fun _ => rfl) rfl rfl rfl
            (fun k t ht => covered_append_of_not (h.covered k t ht) (Or.inr (Or.inr (Or.inl hnot)))) ?_
          intro k day' hday'
          dsimp only at hday'
          by_cases hk : k = kind
          · subst hk
            rw [Function.update_self, List.mem_append, List.mem_singleton] at hday'
            rcases hday' with hday' | rfl
            · exact h.missing k day' hday'
            · exact hnot
          · rw [Function.update_of_ne hk] at hday'
            exact h.missing k day' hday'
      · rename_i lines hfile
        exact h.file hlt (not_le.1 hwindow) hfile rfl rfl rfl

/-- The days of a kind. -/
theorem Filled.readDays (h : Filled install start stop kinds ps st) (kind : Kind) (ds : List Int) :
    Filled install start stop kinds (ps ++ ds.map fun day => (kind, day))
      (ds.foldl (ArchiveRead.readDay install start stop kind) st) := by
  induction ds generalizing ps st with
  | nil => simpa using h
  | cons day ds ih =>
    have hstep := ih (h.readDay kind day)
    rwa [List.append_assoc] at hstep

theorem Filled.readKind (h : Filled install start stop kinds ps st) (kind : Kind) :
    Filled install start stop kinds (ps ++ turns install start stop [kind])
      (readKind install start stop st kind) := by
  have hreset : Filled install start stop kinds ps { st with
      archivedDays := Function.update st.archivedDays kind []
      missingDays := Function.update st.missingDays kind [] } := by
    refine ⟨h.rows, h.total, h.unreadable, h.unreadFrom, h.covered, fun k day hday => ?_⟩
    dsimp only at hday
    by_cases hk : k = kind
    · subst hk
      rw [Function.update_self] at hday
      cases hday
    · rw [Function.update_of_ne hk] at hday
      exact h.missing k day hday
  rw [turns, List.flatMap_singleton]
  exact hreset.readDays kind (archiveDays install start stop kind)

theorem Filled.readKinds (h : Filled install start stop kinds ps st) (ks : List Kind) :
    Filled install start stop kinds (ps ++ turns install start stop ks)
      (ks.foldl (ArchiveRead.readKind install start stop) st) := by
  induction ks generalizing ps st with
  | nil => simpa [turns] using h
  | cons kind ks ih =>
    have hstep := ih (h.readKind kind)
    rwa [List.append_assoc, turns, turns, ← List.flatMap_append] at hstep

theorem filled_archivePeriod (install : Kind → Install κ γ β) (start stop : Int) (kinds : List Kind) :
    Filled install start stop kinds (turns install start stop kinds)
      (archivePeriod install start stop kinds) :=
  filled_seeded.readKinds kinds

end Holds

/-! ## Histories -/

/-- A step of an install: of its store and its archive, or a retention run while the archive is off. -/
inductive Step (κ γ β : Type) where
  | archive (a : Action κ γ β)
  | drops (cutoff : Int) (chosen : γ → Bool)

variable [DecidableEq κ] [DecidableEq γ]

def Step.apply (s : Store κ γ β) : Step κ γ β → Store κ γ β
  | .archive a => a.apply s
  | .drops cutoff chosen =>
      { s with
        rows := s.rows.filter fun r =>
          !(chosen r.conn && s.rows.all fun q => q.conn ≠ r.conn || q.time < dbTime cutoff) }

def history (steps : List (Step κ γ β)) : Store κ γ β := steps.foldl Step.apply Archive.empty

omit [DecidableEq γ] in
/-- The newest versions of the records, when a step has written some. -/
def Step.collects (newest : List (Row κ γ β)) : Step κ γ β → List (Row κ γ β)
  | .archive (.upserts written) => (newest.filter fun r => r.key ∉ written.map Row.key) ++ written
  | _ => newest

omit [DecidableEq γ] in
/-- The newest version of every record that was ever collected. -/
def collected (steps : List (Step κ γ β)) : List (Row κ γ β) := steps.foldl Step.collects []

omit [DecidableEq κ] [DecidableEq γ] in
def Step.days : Step κ γ β → List Int
  | .archive (.upserts written) => written.map Row.day
  | _ => []

/-- Rows, entries and the days that are left to write lie on these days. -/
structure OnDays (ds : List Int) (s : Store κ γ β) : Prop where
  rows : ∀ r ∈ s.rows, r.day ∈ ds
  log : ∀ day, (s.log day).isSome → day ∈ ds
  todo : ∀ job, s.job = some job → ∀ day ∈ job.todo, day ∈ ds

section OnDays

variable {ds : List Int} {s : Store κ γ β}

omit [DecidableEq κ] [DecidableEq γ] in
theorem markStale_isSome {log : Int → Option Archive.Entry} {marked : List Int} {day : Int} :
    (Archive.markStale log marked day).isSome = (log day).isSome := by
  unfold Archive.markStale
  split
  · exact Option.isSome_map
  · rfl

omit [DecidableEq κ] [DecidableEq γ] in
theorem finish_isSome {log : Int → Option Archive.Entry} {day day' : Int} {count : Nat}
    (h : (Archive.finish log day count day').isSome) : (log day').isSome := by
  unfold Archive.finish at h
  split at h
  · rename_i hlog
    by_cases hday : day' = day
    · subst hday
      rw [hlog]
      rfl
    · rwa [Function.update_of_ne hday] at h
  · exact h

omit [DecidableEq κ] [DecidableEq γ] in
theorem OnDays.dropRows (h : OnDays ds s) (keep : Row κ γ β → Bool) (deleted : List (Row κ γ β)) :
    OnDays ds { s with rows := s.rows.filter keep, deleted := deleted } :=
  ⟨fun r hr => h.rows r (List.mem_filter.1 hr).1, h.log, h.todo⟩

omit [DecidableEq γ] in
theorem OnDays.upsert (h : OnDays ds s) (written : List (Row κ γ β)) :
    OnDays (ds ++ written.map Row.day) (Archive.upsert s written) where
  rows r hr := by
    rcases List.mem_append.1 hr with hr | hr
    · exact List.mem_append_left _ (h.rows r (List.mem_filter.1 hr).1)
    · exact List.mem_append_right _ (List.mem_map_of_mem hr)
  log day hday := List.mem_append_left _ (h.log day (by rwa [← markStale_isSome]))
  todo job hjob day hday := List.mem_append_left _ (h.todo job hjob day hday)

omit [DecidableEq γ] in
theorem OnDays.jobStep (h : OnDays ds s) {job : Archive.Job κ γ β} (hjob : s.job = some job) :
    OnDays ds (Archive.jobStep s job) := by
  have htodo := h.todo job hjob
  unfold Archive.jobStep
  split
  · split
    · rename_i day rest hrest
      rw [hrest] at htodo
      refine ⟨h.rows, fun day' hday' => ?_, fun job' hjob' day' hday' => ?_⟩
      · by_cases hne : day' = day
        · exact hne ▸ htodo day List.mem_cons_self
        · exact h.log day' (by simpa [Function.update_of_ne hne] using hday')
      · obtain rfl := Option.some.inj hjob'
        exact htodo day' (List.mem_cons_of_mem _ hday')
    · split
      · refine ⟨h.rows, fun day hday => h.log day ?_, fun _ hjob' => absurd hjob' (Option.some_ne_none _).symm⟩
        simp only [Archive.expireFiles] at hday
        split at hday
        · cases hday
        · exact hday
      · exact ⟨h.rows, h.log, fun _ hjob' => absurd hjob' (Option.some_ne_none _).symm⟩
  · refine ⟨h.rows, h.log, fun job' hjob' => ?_⟩
    obtain rfl := Option.some.inj hjob'
    exact htodo
  · refine ⟨h.rows, h.log, fun job' hjob' => ?_⟩
    obtain rfl := Option.some.inj hjob'
    exact htodo
  · refine ⟨h.rows, fun day hday => h.log day (finish_isSome hday), fun job' hjob' => ?_⟩
    obtain rfl := Option.some.inj hjob'
    exact htodo

omit [DecidableEq κ] [DecidableEq γ] in
/-- A run of the archive starts with days that have rows. -/
theorem OnDays.startArchive (h : OnDays ds s) (now : Int) (flowDays archiveRetention : Nat) :
    OnDays ds { s with job := some (Archive.startArchive s now flowDays archiveRetention) } := by
  refine ⟨h.rows, h.log, fun job hjob day hday => ?_⟩
  obtain rfl := Option.some.inj hjob
  have hmem := (List.mem_filter.1 hday).1
  rw [List.mem_mergeSort, List.mem_dedup] at hmem
  obtain ⟨r, hr, rfl⟩ := List.mem_map.1 hmem
  exact h.rows r hr

theorem OnDays.step (h : OnDays ds s) (step : Step κ γ β) : OnDays (ds ++ step.days) (step.apply s) := by
  have hsame : ∀ {s' : Store κ γ β}, OnDays ds s' → OnDays (ds ++ []) s' := fun hs => by rwa [List.append_nil]
  cases step with
  | drops cutoff chosen => exact hsame (h.dropRows _ _)
  | archive a =>
    cases a with
    | upserts written => exact h.upsert written
    | retains cutoff chosen => exact hsame (h.dropRows _ _)
    | archiveStarts now flowDays archiveRetention =>
      refine hsame ?_
      simp only [Step.apply, Action.apply]
      split
      · exact h.startArchive now flowDays archiveRetention
      · exact h
    | archiveSteps =>
      refine hsame ?_
      simp only [Step.apply, Action.apply]
      split
      · exact h.jobStep ‹_›
      · exact h
    | archiveDies => exact hsame ⟨h.rows, h.log, fun _ hjob => absurd hjob (Option.some_ne_none _).symm⟩

theorem onDays_history (steps : List (Step κ γ β)) : OnDays (steps.flatMap Step.days) (history steps) := by
  induction steps using List.reverseRecOn with
  | nil => exact ⟨fun _ hr => absurd hr List.not_mem_nil, fun _ h => (nomatch h), fun _ hjob => (nomatch hjob)⟩
  | append_singleton steps step ih =>
    rw [List.flatMap_append, List.flatMap_singleton, history, List.foldl_append]
    exact ih.step step

end OnDays

/-- The install after a history, with what happened to its files since. -/
def installAfter (steps : List (Step κ γ β)) (damage : Int → Damage) (coverage : List (Int × Int))
    (gaps : List OpenGap) (floor : Int) : Install κ γ β :=
  { store := history steps
    days := (steps.flatMap Step.days).dedup
    logged := fun day hday => List.mem_dedup.2 ((onDays_history steps).log day hday)
    damage := damage
    coverage := coverage
    gaps := gaps
    floor := floor }

/-! ## What is presented -/

section Presents

variable (install : Kind → Install κ γ β) (start stop : Int) (kinds : List Kind)
  (newest : Kind → List (Row κ γ β))

omit [DecidableEq κ] [DecidableEq γ] in
/-- What is covered before the floor, and not reported as missing, truncated or unreadable, is complete: the newest
version of every record that lies there is in the throwaway store. -/
def Truthful (st : Reading κ γ β) : Prop :=
  ∀ kind, ∀ r ∈ newest kind, start ≤ r.time → r.time < dbTime (install kind).floor →
    (∃ c ∈ (st.scratch kind).coverage, Inside c r.time) → r.day ∉ st.missingDays kind →
    (∀ t, st.unreadFrom = some t → r.time < t) → st.unreadable = 0 → r ∈ (st.scratch kind).rows

omit [DecidableEq γ] in
/-- The row is the first that is read of its record, and the store has copied no other version of it. -/
def Held (kind : Kind) (r : Row κ γ β) : Prop :=
  (∀ q ∈ (install kind).copied start stop, q.key ≠ r.key) ∧
    (rowsRead install start stop kind (turns install start stop kinds)).find? (fun q => q.key = r.key) = some r

omit [DecidableEq γ] in
/-- Of every day that is come to before the limit: its file holds the newest versions that lie in it, and it is not
taken for an empty one when there are some. -/
def Answerable : Prop :=
  (∀ line ∈ linesRead install start stop (turns install start stop kinds), line.2.isSome) →
    ∀ kind day, Begun install start stop (turns install start stop kinds) (kind, day) →
      ∀ r ∈ newest kind, start ≤ r.time → Inside (stored (windowOf install start stop (kind, day))) r.time →
        (∀ t, stopsAt install start stop (turns install start stop kinds) = some t → r.time < t) →
        if ((install kind).fileOf day).isSome then Held install start stop kinds kind r
        else (install kind).takenEmpty start stop day = false

end Presents

section Truth

variable {install : Kind → Install κ γ β} {start stop : Int} {kinds : List Kind}
  {newest : Kind → List (Row κ γ β)} {kind : Kind} {day : Int} {r : Row κ γ β}

omit [DecidableEq κ] [DecidableEq γ] in
theorem day_of_inside (h : Inside (stored (windowOf install start stop (kind, day))) r.time) : r.day = day := by
  obtain ⟨hfrom, hto⟩ := h
  simp only [windowOf, Install.window, stored, dayWindow] at hfrom hto
  have hlo : dbTime (dayStart day) ≤ r.time := (dbTime_mono (le_max_left _ _)).trans hfrom
  have hhi : r.time < dayStart (day + 1) :=
    hto.trans_le ((dbTime_le _).trans ((min_le_left _ _).trans (min_le_left _ _)))
  rw [dbTime_of_dvd (by simp only [dayStart, days, hours, minutes, seconds, milliseconds]; omega)] at hlo
  exact (dbDay_eq_iff r.time day).2 ⟨hlo, hhi⟩

omit [DecidableEq κ] [DecidableEq γ] in
theorem lt_floor_of_inside (h : Inside (stored (windowOf install start stop (kind, day))) r.time) :
    r.time < dbTime (install kind).floor :=
  h.2.trans_le (dbTime_mono (min_le_right _ _))

omit [DecidableEq κ] [DecidableEq γ] in
theorem mem_kinds_of_begun (h : Begun install start stop (turns install start stop kinds) (kind, day)) :
    kind ∈ kinds := by
  obtain ⟨-, before, rest, heq, -⟩ := h
  have hmem : (kind, day) ∈ turns install start stop kinds := heq ▸ List.mem_append_right _ List.mem_cons_self
  obtain ⟨k, hk, hp⟩ := List.mem_flatMap.1 hmem
  obtain ⟨d, -, heq'⟩ := List.mem_map.1 hp
  obtain ⟨rfl, -⟩ := Prod.mk.inj heq'
  exact hk

omit [DecidableEq κ] [DecidableEq γ] in
/-- A row that is read is on a line of the file of its day. -/
theorem fileOf_of_rowsRead {ps : List (Kind × Int)} (h : r ∈ rowsRead install start stop kind ps) :
    ((install kind).fileOf r.day).isSome := by
  obtain ⟨line, hline, hrow⟩ := List.mem_filterMap.1 h
  split at hrow
  · rename_i hkind
    obtain ⟨p, hp, hmem⟩ := List.mem_flatMap.1 (upTo_subset hline)
    unfold linesOf at hmem
    split at hmem
    · cases hmem
    · obtain ⟨l, hl, rfl⟩ := List.mem_map.1 hmem
      obtain ⟨k, d⟩ := p
      obtain rfl : k = kind := hkind
      have hin : Inside (stored (windowOf install start stop (k, d))) r.time := by
        have hfilter := (Option.filter_eq_some_iff.1 hrow).2
        rw [Bool.and_eq_true, decide_eq_true_eq, decide_eq_true_eq] at hfilter
        exact hfilter
      rw [day_of_inside hin]
      refine Option.isSome_iff_ne_none.2 fun hnone => ?_
      rw [hnone] at hl
      cases hl
  · cases hrow

omit [DecidableEq γ] in
/-- Before the floor nothing is copied of the store: the row is in the throwaway store when it is held. -/
theorem mem_scratch_iff (hkind : kind ∈ kinds) (hfloor : r.time < dbTime (install kind).floor) :
    r ∈ ((archivePeriod install start stop kinds).scratch kind).rows ↔ Held install start stop kinds kind r := by
  have hcopied : r ∉ (install kind).copied start stop := by
    intro hr
    have hfrom := (List.mem_filter.1 hr).2
    rw [Bool.and_eq_true, decide_eq_true_eq, decide_eq_true_eq] at hfrom
    exact absurd (dbTime_mono (le_max_right start (install kind).floor)) (not_le.2 (hfrom.1.trans_lt hfloor))
  have hseeded : ((seeded install start stop kinds).scratch kind).rows = (install kind).copied start stop := by
    simp only [seeded, if_pos hkind]
    rfl
  rw [(filled_archivePeriod install start stop kinds).rows kind, hseeded, mem_foldl_insertNew, or_iff_right hcopied,
    Held]

omit [DecidableEq γ] in
/-- What the throwaway store presents is true exactly when the files and the log of the archive can answer. -/
theorem truthful_iff : Truthful install start newest (archivePeriod install start stop kinds) ↔
    Answerable install start stop kinds newest := by
  have hfilled := filled_archivePeriod install start stop kinds
  have hreadable : (archivePeriod install start stop kinds).unreadable = 0 ↔
      ∀ line ∈ linesRead install start stop (turns install start stop kinds), line.2.isSome := by
    rw [hfilled.unreadable, List.countP_eq_zero]
    exact forall₂_congr fun line _ => by cases line.2 <;> simp
  constructor
  · intro h hlines kind day hbegun r hr hstart hin hstop
    have hfloor := lt_floor_of_inside hin
    have hheld : Presented install start stop (kind, day) → Held install start stop kinds kind r := by
      intro hpresented
      refine (mem_scratch_iff (mem_kinds_of_begun hbegun) hfloor).1
        (h kind r hr hstart hfloor ?_ ?_ ?_ (hreadable.2 hlines))
      · exact (hfilled.covered kind r.time hfloor).2 ⟨day, hbegun, hpresented, hin⟩
      · rw [day_of_inside hin]
        exact fun hmissing => hfilled.missing kind day hmissing hpresented
      · rw [hfilled.unreadFrom]
        exact hstop
    split
    · exact hheld (Or.inl ‹_›)
    · -- a record that lies in the day would have to be in its file
      rename_i hnone
      refine Bool.eq_false_iff.2 fun htaken => hnone ?_
      have hfile := fileOf_of_rowsRead (List.mem_of_find?_eq_some (hheld (Or.inr htaken)).2)
      rwa [day_of_inside hin] at hfile
  · intro h kind r hr hstart hfloor hcovered _ hstop hunreadable
    obtain ⟨day, hbegun, hpresented, hin⟩ := (hfilled.covered kind r.time hfloor).1 hcovered
    rw [hfilled.unreadFrom] at hstop
    have hday := h (hreadable.1 hunreadable) kind day hbegun r hr hstart hin hstop
    refine (mem_scratch_iff (mem_kinds_of_begun hbegun) hfloor).2 ?_
    rcases hpresented with hfile | htaken
    · rwa [if_pos hfile] at hday
    · split at hday
      · exact hday
      · rw [htaken] at hday
        cases hday

end Truth

/-- A row is collected, its day archived, and the row deleted. -/
def archivedRow (r : Row Nat Nat Unit) : List (Action Nat Nat Unit) :=
  [.upserts [r], .archiveStarts (days 9) 7 0] ++ List.replicate 5 .archiveSteps ++ [.retains (days 9) fun _ => true]

/-- Two days were archived; then a late row makes the second one stale. -/
def staleDay : List (Action Nat Nat Unit) :=
  archivedRow ⟨1, 1, 0, ()⟩ ++ archivedRow ⟨2, 2, days 1, ()⟩ ++ [.upserts [⟨3, 3, days 1, ()⟩]]

def staleInstall : Install Nat Nat Unit :=
  installAfter (staleDay.map .archive) (fun _ => ⟨false, fun _ => false, none⟩) [(0, days 9)] [] (days 9)

/-- The second day is presented as one without traffic, while two rows of it were collected. -/
theorem stale_day_presented :
    ¬ Truthful (fun _ => staleInstall) 0 (fun _ => collected (staleDay.map .archive))
      (archivePeriod (fun _ => staleInstall) 0 (days 2) [.flows]) := by
  intro h
  have hcovered : (0, days 2) ∈ ((archivePeriod (fun _ => staleInstall) 0 (days 2) [.flows]).scratch .flows).coverage := by
    decide +kernel
  have hread : (archivePeriod (fun _ => staleInstall) 0 (days 2) [.flows]).unreadFrom = none := by decide +kernel
  have hrow := h .flows ⟨2, 2, days 1, ()⟩ (by decide +kernel) (by decide) (by decide)
    ⟨_, hcovered, by decide, by decide⟩ (by decide +kernel)
    (fun t ht => absurd (hread.symm.trans ht) (by simp)) (by decide +kernel)
  exact absurd hrow (by decide +kernel)

end IllumioOps.ArchiveRead
