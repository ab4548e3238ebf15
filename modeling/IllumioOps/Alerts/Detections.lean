import IllumioOps.Alerts.Recorder
import IllumioOps.Tables.Pages
import Mathlib

/-!
# The table of detections

A pass of the detectors extends the stored detection nearest in time or inserts a new one; it
stamps every row it writes with the time it started at. Readers follow the table by the stamp of
the last change and the id, in that order (`changedSince_mem`, `changedSince_upTo`).
-/

set_option autoImplicit false

namespace IllumioOps.Alerts

/-- The detectors. -/
inductive DetectorKind where
  | fanout
  | newAdminConnection
  | pivotChain
  | blockedSurge
  | nonAdminGroup
  | crossEnv
  | accountFanout
  | unexpectedInitiator
  | peerDeviation
  | volumeSurge
  | accountNewSource
  | suspiciousTool
  | newProcess
  | authToNonDc
  | newDcClient
  | directorySurge
  | directionReversal
  | newPairPort
  | quietHostWakes
  | dataStaging
  | offHours
  deriving DecidableEq, Repr

/-- The JSON texts of a detection's summary, segment and confidence. -/
structure Evidence where
  summaryJson : String
  segmentJson : String
  confidenceJson : String
  deriving DecidableEq, Repr

/-- One host a detection is about, as it is stored: its role, key and address. -/
structure StoredEnd where
  role : String
  key : String
  ip : String
  deriving DecidableEq, Repr

/-- `DetectionWrite` -/
structure DetectionWrite where
  detector : DetectorKind
  fingerprint : String
  subjectKey : String
  severity : Severity
  firstSeen : Int
  lastSeen : Int
  criticalAsset : Bool
  evidence : Evidence
  ends : List StoredEnd
  deriving DecidableEq, Repr

/-- A row of `detections`. -/
structure DetectionRow where
  id : Nat
  detector : DetectorKind
  fingerprint : String
  subjectKey : String
  severity : Severity
  firstSeen : Int
  lastSeen : Int
  occurrences : Nat
  late : Bool
  criticalAsset : Bool
  evidence : Evidence
  ends : Option (List StoredEnd)
  createdAt : Int
  updatedAt : Int
  deriving DecidableEq, Repr

/-- `_higher` -/
def higher (a b : Severity) : Severity := if b.index ≤ a.index then a else b

def maxEnds : Nat := 5000

/-- `_bounded` -/
def boundedEnds (ends : List StoredEnd) : Option (List StoredEnd) :=
  if maxEnds < ends.length then none else some ends

/-- `_ends`: every end either pass saw, the earlier ones first; unknown stays unknown. -/
def mergedEnds (old : Option (List StoredEnd)) (new : List StoredEnd) : Option (List StoredEnd) :=
  match old with
  | none => none
  | some old => boundedEnds (new.foldl (fun ends e => if e ∈ ends then ends else ends ++ [e]) old)

/-- `_distance` -/
def distance (r : DetectionRow) (d : DetectionWrite) : Int :=
  max 0 (max (d.firstSeen - r.lastSeen) (r.firstSeen - d.lastSeen))

/-- The row nearest in time, of equally near ones the newest. -/
def nearest (d : DetectionWrite) (rows : List DetectionRow) : Option DetectionRow :=
  rows.foldl (fun best r => match best with
    | none => some r
    | some b =>
        if distance r d < distance b d ∨ distance r d = distance b d ∧ b.id < r.id then some r
        else some b) none

/-- The row of a new detection. -/
def DetectionWrite.row (d : DetectionWrite) (id : Nat) (late : Bool) (stamp : Int) :
    DetectionRow where
  id := id
  detector := d.detector
  fingerprint := d.fingerprint
  subjectKey := d.subjectKey
  severity := d.severity
  firstSeen := dbTime d.firstSeen
  lastSeen := dbTime d.lastSeen
  occurrences := 1
  late := late
  criticalAsset := d.criticalAsset
  evidence := d.evidence
  ends := boundedEnds d.ends
  createdAt := stamp
  updatedAt := stamp

/-- A stored detection is extended: its severity never goes down, its evidence stays the newer of
the two. -/
def DetectionRow.extended (r : DetectionRow) (d : DetectionWrite) (stamp : Int) : DetectionRow :=
  { r with
    firstSeen := min r.firstSeen (dbTime d.firstSeen)
    lastSeen := max r.lastSeen (dbTime d.lastSeen)
    occurrences := r.occurrences + 1
    severity := higher r.severity d.severity
    criticalAsset := r.criticalAsset || d.criticalAsset
    evidence := if r.lastSeen ≤ d.lastSeen then d.evidence else r.evidence
    ends := mergedEnds r.ends d.ends
    updatedAt := stamp }

/-- The table `detections`: the ids increase from row to row, and none is above the last one
given. -/
structure DetectionTable where
  rows : List DetectionRow
  sequence : Nat
  ordered : rows.Pairwise fun a b => a.id < b.id
  bounded : ∀ r ∈ rows, r.id ≤ sequence

namespace DetectionTable

theorem nil_ordered : ([] : List DetectionRow).Pairwise fun a b => a.id < b.id := List.Pairwise.nil

theorem nil_bounded : ∀ r ∈ ([] : List DetectionRow), r.id ≤ 0 :=
  fun _ hr => absurd hr List.not_mem_nil

/-- The stored detection is replaced by its extension. -/
def extend (t : DetectionTable) (d : DetectionWrite) (id : Nat) (stamp : Int) : DetectionTable where
  rows := t.rows.map fun r => if r.id = id then r.extended d stamp else r
  sequence := t.sequence
  ordered := by
    refine List.pairwise_map.2 (t.ordered.imp fun {a b} hab => ?_)
    have hid : ∀ r : DetectionRow, (if r.id = id then r.extended d stamp else r).id = r.id := by
      intro r
      split <;> rfl
    rw [hid a, hid b]
    exact hab
  bounded := by
    intro r hr
    obtain ⟨q, hq, rfl⟩ := List.mem_map.1 hr
    split
    · exact t.bounded q hq
    · exact t.bounded q hq

/-- A new detection gets the next id. -/
def insert (t : DetectionTable) (d : DetectionWrite) (late : Bool) (stamp : Int) :
    DetectionTable where
  rows := t.rows ++ [d.row (t.sequence + 1) late stamp]
  sequence := t.sequence + 1
  ordered := by
    refine List.pairwise_append.2 ⟨t.ordered, List.pairwise_singleton _ _, fun a ha b hb => ?_⟩
    rw [List.mem_singleton.1 hb]
    exact Nat.lt_succ_of_le (t.bounded a ha)
  bounded := by
    intro r hr
    rcases List.mem_append.1 hr with hr | hr
    · exact Nat.le_succ_of_le (t.bounded r hr)
    · rw [List.mem_singleton.1 hr]
      exact Nat.le_refl _

/-- One detection of `upsert_detections`. -/
def upsert (t : DetectionTable) (dedup : DetectorKind → Int) (late : Bool) (stamp : Int)
    (d : DetectionWrite) : DetectionTable :=
  let gap := dedup d.detector
  let near := t.rows.filter fun r => decide (r.detector = d.detector) &&
    decide (r.fingerprint = d.fingerprint) && decide (dbTime (d.firstSeen - gap) ≤ r.lastSeen) &&
    decide (r.firstSeen ≤ dbTime (d.lastSeen + gap))
  match nearest d near with
  | some old => t.extend d old.id stamp
  | none => t.insert d late stamp

/-- `upsert_detections` -/
def upsertDetections (t : DetectionTable) (rows : List DetectionWrite) (dedup : DetectorKind → Int)
    (late : Bool) (at_ : Int) : DetectionTable :=
  rows.foldl (fun t d => t.upsert dedup late (dbTime at_) d) t

/-- Changed after a stamp and an id; no stamp is before every stamp. -/
def changedAfter (since : Option Int × Nat) (r : DetectionRow) : Bool :=
  since.1.all (fun s => decide (s < r.updatedAt)) ||
    (decide (since.1 = some r.updatedAt) && decide (since.2 < r.id))

/-- `ORDER BY updated_at, id` -/
def changeOrder (a b : DetectionRow) : Bool :=
  decide (a.updatedAt < b.updatedAt) || (decide (a.updatedAt = b.updatedAt) && decide (a.id ≤ b.id))

/-- `detections_changed_since` -/
def changedSince (t : DetectionTable) (since : Option Int × Nat) (limit : Nat) :
    List DetectionRow :=
  ((t.rows.filter (changedAfter since)).mergeSort changeOrder).take limit

/-- `max_detection_update` -/
def maxDetectionUpdate (t : DetectionTable) : Option Int × Nat :=
  match (t.rows.mergeSort changeOrder).getLast? with
  | none => (none, 0)
  | some r => (some r.updatedAt, r.id)

end DetectionTable

/-! ## The order of the changes -/

/-- Stamps with ids, in their order. -/
abbrev ChangeKey : Type := WithBot Int ×ₗ Nat

/-- No stamp is before every stamp. -/
def stampKey : Option Int → WithBot Int
  | none => ⊥
  | some s => (s : WithBot Int)

/-- Where a reader is. -/
def placeKey (since : Option Int × Nat) : ChangeKey := toLex (stampKey since.1, since.2)

/-- The key of a detection's last change. -/
def DetectionRow.key (r : DetectionRow) : ChangeKey := toLex ((r.updatedAt : WithBot Int), r.id)

/-- The key of its creation. -/
def DetectionRow.createdKey (r : DetectionRow) : ChangeKey :=
  toLex ((r.createdAt : WithBot Int), r.id)

/-- Where a reader of the row goes on. -/
def DetectionRow.place (r : DetectionRow) : Option Int × Nat := (some r.updatedAt, r.id)

theorem placeKey_place (r : DetectionRow) : placeKey r.place = r.key := rfl

namespace DetectionTable

variable {t : DetectionTable} {since : Option Int × Nat} {limit : Nat} {r q last : DetectionRow}

theorem changedAfter_iff : changedAfter since r = true ↔ placeKey since < r.key := by
  obtain ⟨stamp, id⟩ := since
  rw [placeKey, DetectionRow.key, Prod.Lex.toLex_lt_toLex]
  cases stamp with
  | none => exact iff_of_true (by simp [changedAfter]) (Or.inl (WithBot.bot_lt_coe r.updatedAt))
  | some s => simp [changedAfter, stampKey]

theorem changeOrder_iff : changeOrder r q = true ↔ r.key ≤ q.key := by
  rw [DetectionRow.key, DetectionRow.key, Prod.Lex.toLex_le_toLex]
  simp [changeOrder]

/-- Two rows of the table never have the same id, and so never the same key. -/
theorem eq_of_id (hr : r ∈ t.rows) (hq : q ∈ t.rows) (h : r.id = q.id) : r = q := by
  have hinjective : ∀ rows : List DetectionRow, (rows.Pairwise fun a b => a.id < b.id) →
      r ∈ rows → q ∈ rows → r = q := by
    intro rows
    induction rows with
    | nil => exact fun _ hr => absurd hr List.not_mem_nil
    | cons p rows ih =>
        intro hordered hr hq
        obtain ⟨hfirst, hrest⟩ := List.pairwise_cons.1 hordered
        rcases List.mem_cons.1 hr with rfl | hr'
        · rcases List.mem_cons.1 hq with rfl | hq'
          · rfl
          · exact absurd h (Nat.ne_of_lt (hfirst q hq'))
        · rcases List.mem_cons.1 hq with rfl | hq'
          · exact absurd h.symm (Nat.ne_of_lt (hfirst r hr'))
          · exact ih hrest hr' hq'
  exact hinjective t.rows t.ordered hr hq

/-- The rows after a place, in the order of their changes. -/
def sortedAfter (t : DetectionTable) (since : Option Int × Nat) : List DetectionRow :=
  (t.rows.filter (changedAfter since)).mergeSort changeOrder

theorem mem_sortedAfter : r ∈ t.sortedAfter since ↔ r ∈ t.rows ∧ placeKey since < r.key := by
  rw [sortedAfter, (List.mergeSort_perm _ _).mem_iff, List.mem_filter, changedAfter_iff]

theorem ordered_sortedAfter : Pages.Ordered DetectionRow.key (t.sortedAfter since) := by
  have hsorted : (t.sortedAfter since).Pairwise fun a b => changeOrder a b = true := by
    refine List.pairwise_mergeSort ?_ ?_ _
    · intro a b c hab hbc
      exact changeOrder_iff.2 (le_trans (changeOrder_iff.1 hab) (changeOrder_iff.1 hbc))
    · intro a b
      rw [Bool.or_eq_true, changeOrder_iff, changeOrder_iff]
      exact le_total a.key b.key
  have hnodup : (t.sortedAfter since).Pairwise fun a b => a.id ≠ b.id := by
    rw [sortedAfter, (List.mergeSort_perm _ _).pairwise_iff fun h => Ne.symm h]
    exact (t.ordered.sublist List.filter_sublist).imp fun h => Nat.ne_of_lt h
  refine (hsorted.and hnodup).imp fun {a b} h => lt_of_le_of_ne (changeOrder_iff.1 h.1) ?_
  intro hkey
  exact h.2 (Prod.mk.inj (toLex.injective hkey)).2

theorem changedSince_mem (h : r ∈ t.changedSince since limit) :
    r ∈ t.rows ∧ placeKey since < r.key :=
  mem_sortedAfter.1 (List.mem_of_mem_take h)

/-- A page is everything after the place and up to its last row. -/
theorem changedSince_upTo (hlast : (t.changedSince since limit).getLast? = some last)
    (hr : r ∈ t.rows) (hafter : placeKey since < r.key) (hle : r.key ≤ last.key) :
    r ∈ t.changedSince since limit := by
  have hpage : t.changedSince since limit =
      (t.sortedAfter since).filter fun q => decide (q.key ≤ last.key) :=
    Pages.take_eq_filter ordered_sortedAfter hlast
  rw [hpage]
  exact List.mem_filter.2 ⟨mem_sortedAfter.2 ⟨hr, hafter⟩, decide_eq_true hle⟩

end DetectionTable

end IllumioOps.Alerts
