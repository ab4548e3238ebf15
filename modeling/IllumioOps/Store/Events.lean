import IllumioOps.Store.Upsert

/-!
# Audit events of the PCE

An event never changes, so a batch inserts the events that are not stored yet and leaves the
others as they are. Rows expire by whole days, with an archive only the archived ones.
-/

set_option autoImplicit false

namespace IllumioOps

structure EventRecord where
  href : String
  eventType : String
  severity : Option String
  status : Option String
  timestamp : Int
  createdByKind : Option String
  createdByName : Option String
  createdByHref : Option String
  workloadHref : Option String
  tamperClassification : Option String
  rawJson : String
  deriving DecidableEq

/-- A row of `events`. -/
structure EventRow where
  id : Nat
  href : String
  eventType : String
  severity : Option String
  status : Option String
  timestamp : Int
  createdByKind : Option String
  createdByName : Option String
  createdByHref : Option String
  workloadHref : Option String
  tamperClassification : Option String
  rawJson : String
  origin : DataOrigin
  ingestedAt : Int
  deriving DecidableEq

/-- `substr(timestamp, 1, 10)`. -/
def EventRow.day (r : EventRow) : Int := dbDay r.timestamp

/-- The row of an event that is not stored yet. -/
def EventRecord.row (r : EventRecord) (id : Nat) (origin : DataOrigin) (stamp : Int) : EventRow where
  id := id
  href := r.href
  eventType := r.eventType
  severity := r.severity
  status := r.status
  timestamp := dbTime r.timestamp
  createdByKind := r.createdByKind
  createdByName := r.createdByName
  createdByHref := r.createdByHref
  workloadHref := r.workloadHref
  tamperClassification := r.tamperClassification
  rawJson := r.rawJson
  origin := origin
  ingestedAt := stamp

/-- The table `events`; an id is never given twice. -/
structure EventTable where
  rows : List EventRow
  sequence : Nat
  hrefs_unique : (rows.map EventRow.href).Nodup

namespace EventTable

def empty : EventTable := { rows := [], sequence := 0, hrefs_unique := List.nodup_nil }

def hrefs (t : EventTable) : List String := t.rows.map EventRow.href

/-- `INSERT OR IGNORE` of one event. -/
def insertOrIgnore (t : EventTable) (r : EventRecord) (origin : DataOrigin) (stamp : Int) :
    EventTable :=
  if hmem : r.href ∈ t.hrefs then t
  else
    { rows := t.rows ++ [r.row (t.sequence + 1) origin stamp]
      sequence := t.sequence + 1
      hrefs_unique := by
        rw [List.map_append, List.nodup_append]
        refine ⟨t.hrefs_unique, by simp, ?_⟩
        rintro a ha b hb rfl
        rw [List.map_singleton, List.mem_singleton] at hb
        have hhref : a = r.href := hb
        exact hmem (hhref ▸ ha) }

def delete (t : EventTable) (p : EventRow → Bool) : EventTable :=
  { rows := t.rows.filter fun r => !p r
    sequence := t.sequence
    hrefs_unique := t.hrefs_unique.sublist (List.filter_sublist.map _) }

variable {t : EventTable} {r : EventRecord} {origin : DataOrigin} {stamp : Int}

theorem mem_insertOrIgnore {row : EventRow} :
    row ∈ (t.insertOrIgnore r origin stamp).rows ↔
      row ∈ t.rows ∨ r.href ∉ t.hrefs ∧ row = r.row (t.sequence + 1) origin stamp := by
  unfold insertOrIgnore
  split
  next h => simp [h]
  next h => simp [h]

end EventTable

/-! ## Writing a batch -/

/-- `upsert_events`, the store's tables first: the day of every event that is not stored yet is
left stale in the archive; how many events were new. -/
def upsertEvents (db : FlowDb) (events : EventTable) (records : List EventRecord)
    (origin : DataOrigin) (now : Int) : FlowDb × EventTable × Nat :=
  let stamp := dbTime now
  let touched := ((records.filter fun r => r.href ∉ events.hrefs).map fun r =>
    dbDay (dbTime r.timestamp)).dedup
  let written := records.foldl (fun t r => t.insertOrIgnore r origin stamp) events
  (db.markStale .events touched, written, written.rows.length - events.rows.length)

/-! ## Expiry -/

/-- The days that hold events older than the cutoff, with an archive the archived ones. -/
def expiringDays (events : EventTable) (cutoff : Int) (archivedDays : Option (Int → Bool)) :
    List Int :=
  let days := ((events.rows.filter fun r => r.timestamp < dbTime cutoff).map EventRow.day).dedup
  match archivedDays with
  | none => days
  | some archived => days.filter archived

/-- `delete_events_before`; how many were deleted. -/
def deleteEventsBefore (events : EventTable) (cutoff : Int) (archivedDays : Option (Int → Bool)) :
    EventTable × Nat :=
  let days := expiringDays events cutoff archivedDays
  let kept := events.delete fun r => r.timestamp < dbTime cutoff && r.day ∈ days
  (kept, events.rows.length - kept.rows.length)

end IllumioOps
