import IllumioOps.Store.Tables
import IllumioOps.Tables.Changes

/-!
# The table of flow rows

`FlowTable` is the table `flows` in the order of its row ids, with the two uniqueness
constraints of the schema: the id and the record key. An `UPDATE` is a `RowEdit`, which
touches none of the columns that identify a row, so the constraints survive every
statement by construction.
-/

set_option autoImplicit false

namespace IllumioOps

open Tables

/-! ## Rows -/

/-- The columns that no `UPDATE` writes. -/
structure RowIdentity where
  id : Nat
  recordKey : String
  direction : FlowDirection
  tuple : FlowTuple
  firstDetected : Int
  deriving DecidableEq

namespace FlowRow

def tuple (r : FlowRow) : FlowTuple :=
  { srcIp := r.srcIp, dstIp := r.dstIp, port := r.port, proto := r.proto }

def identity (r : FlowRow) : RowIdentity :=
  { id := r.id, recordKey := r.recordKey, direction := r.direction, tuple := r.tuple,
    firstDetected := r.firstDetected }

/-- The row in another connection. -/
def withConnKey (r : FlowRow) (connKey : String) : FlowRow := { r with connKey := connKey }

@[simp] theorem connKey_withConnKey (r : FlowRow) (connKey : String) :
    (r.withConnKey connKey).connKey = connKey := rfl

/-- The row with other counts marked as recorded. -/
def withCounted (r : FlowRow) (connections : Option Nat) (bytes : Option Int) : FlowRow :=
  { r with countedConnections := connections, countedBytes := bytes }

/-- The row apart from the counts marked as recorded. -/
def uncounted (r : FlowRow) : FlowRow := r.withCounted none none

/-- `substr(last_detected, 1, 10)`. -/
def day (r : FlowRow) : Int := dbDay r.lastDetected

@[simp] theorem uncounted_withCounted (r : FlowRow) (connections : Option Nat)
    (bytes : Option Int) : (r.withCounted connections bytes).uncounted = r.uncounted := rfl

theorem id_of_identity {r s : FlowRow} (h : r.identity = s.identity) : r.id = s.id :=
  congrArg RowIdentity.id h

theorem recordKey_of_identity {r s : FlowRow} (h : r.identity = s.identity) :
    r.recordKey = s.recordKey :=
  congrArg RowIdentity.recordKey h

theorem direction_of_identity {r s : FlowRow} (h : r.identity = s.identity) :
    r.direction = s.direction :=
  congrArg RowIdentity.direction h

theorem tuple_of_identity {r s : FlowRow} (h : r.identity = s.identity) : r.tuple = s.tuple :=
  congrArg RowIdentity.tuple h

theorem firstDetected_of_identity {r s : FlowRow} (h : r.identity = s.identity) :
    r.firstDetected = s.firstDetected :=
  congrArg RowIdentity.firstDetected h

theorem identity_of_uncounted {r s : FlowRow} (h : r.uncounted = s.uncounted) :
    r.identity = s.identity := by
  have heq := congrArg identity h
  exact heq

theorem connKey_of_uncounted {r s : FlowRow} (h : r.uncounted = s.uncounted) :
    r.connKey = s.connKey := by
  have heq := congrArg connKey h
  exact heq

theorem day_of_uncounted {r s : FlowRow} (h : r.uncounted = s.uncounted) : r.day = s.day := by
  have heq := congrArg day h
  exact heq

end FlowRow

/-- What an `UPDATE` does to a row that it touches. -/
structure RowEdit where
  apply : FlowRow → FlowRow
  identity_apply : ∀ r, (apply r).identity = r.identity

/-- The edit of the rows that a condition selects. -/
def RowEdit.on (e : RowEdit) (p : FlowRow → Bool) : RowEdit where
  apply r := if p r then e.apply r else r
  identity_apply r := by
    by_cases h : p r
    · rw [if_pos h, e.identity_apply]
    · rw [if_neg h]

/-! ## The table -/

structure FlowTable where
  rows : List FlowRow
  ids_increase : (rows.map FlowRow.id).Pairwise (· < ·)
  keys_unique : (rows.map FlowRow.recordKey).Nodup

namespace FlowTable

def empty : FlowTable := { rows := [], ids_increase := List.Pairwise.nil, keys_unique := by simp }

/-- `WHERE record_key = ?`. -/
def byKey (t : FlowTable) (key : String) : Option FlowRow :=
  t.rows.find? fun r => r.recordKey = key

/-- `WHERE conn_key = ? ORDER BY id`. -/
def connRows (t : FlowTable) (connKey : String) : List FlowRow :=
  t.rows.filter fun r => r.connKey = connKey

/-- `.. ORDER BY first_detected, record_key` of one tuple. -/
def tupleRows (t : FlowTable) (tup : FlowTuple) : List FlowRow :=
  (t.rows.filter fun r => r.tuple = tup).insertionSort fun a b =>
    firstThenKey (a.firstDetected, a.recordKey) (b.firstDetected, b.recordKey)

/-- The id that the next insert gets: one more than the largest. -/
def nextId (t : FlowTable) : Nat := (t.rows.map FlowRow.id).foldr max 0 + 1

def update (t : FlowTable) (e : RowEdit) : FlowTable where
  rows := t.rows.map e.apply
  ids_increase := by
    have h : (t.rows.map e.apply).map FlowRow.id = t.rows.map FlowRow.id := by
      rw [List.map_map]
      exact List.map_congr_left fun r _ => congrArg RowIdentity.id (e.identity_apply r)
    rw [h]
    exact t.ids_increase
  keys_unique := by
    have h : (t.rows.map e.apply).map FlowRow.recordKey = t.rows.map FlowRow.recordKey := by
      rw [List.map_map]
      exact List.map_congr_left fun r _ => congrArg RowIdentity.recordKey (e.identity_apply r)
    rw [h]
    exact t.keys_unique

/-- An insert of a row with a key that the table does not hold. -/
def insert (t : FlowTable) (row : FlowRow) (hkey : t.byKey row.recordKey = none) : FlowTable where
  rows := t.rows ++ [{ row with id := t.nextId }]
  ids_increase := by
    rw [List.map_append, List.pairwise_append]
    refine ⟨t.ids_increase, List.pairwise_singleton _ _, ?_⟩
    intro a ha b hb
    rw [List.map_singleton, List.mem_singleton] at hb
    subst hb
    exact Nat.lt_succ_of_le (LabelSets.le_foldr_max ha)
  keys_unique := by
    rw [List.map_append, List.nodup_append]
    refine ⟨t.keys_unique, by simp, ?_⟩
    rintro a ha b hb rfl
    obtain ⟨r, hr, rfl⟩ := List.mem_map.1 ha
    rw [List.map_singleton, List.mem_singleton] at hb
    have hnone := List.find?_eq_none.1 hkey r hr
    simp [hb] at hnone

/-- `DELETE FROM flows WHERE ..`. -/
def delete (t : FlowTable) (p : FlowRow → Bool) : FlowTable where
  rows := t.rows.filter fun r => !p r
  ids_increase := t.ids_increase.sublist (List.filter_sublist.map _)
  keys_unique := t.keys_unique.sublist (List.filter_sublist.map _)

/-! ## Look-ups -/

variable {t : FlowTable}

theorem byKey_eq_some {key : String} {r : FlowRow} :
    t.byKey key = some r ↔ r ∈ t.rows ∧ r.recordKey = key := by
  constructor
  · intro h
    exact ⟨List.mem_of_find?_eq_some h, by simpa using List.find?_some h⟩
  · rintro ⟨hr, rfl⟩
    cases hfind : t.byKey r.recordKey with
    | none =>
        have hnone := List.find?_eq_none.1 hfind r hr
        simp at hnone
    | some r' =>
        have hkey : r'.recordKey = r.recordKey := by simpa using List.find?_some hfind
        rw [List.inj_on_of_nodup_map t.keys_unique (List.mem_of_find?_eq_some hfind) hr hkey]

theorem byKey_eq_none {key : String} : t.byKey key = none ↔ ∀ r ∈ t.rows, r.recordKey ≠ key := by
  simp [byKey, List.find?_eq_none]

theorem eq_of_recordKey {r s : FlowRow} (hr : r ∈ t.rows) (hs : s ∈ t.rows)
    (h : r.recordKey = s.recordKey) : r = s :=
  List.inj_on_of_nodup_map t.keys_unique hr hs h

theorem ids_unique (t : FlowTable) : (t.rows.map FlowRow.id).Nodup :=
  t.ids_increase.imp fun h => Nat.ne_of_lt h

theorem eq_of_id {r s : FlowRow} (hr : r ∈ t.rows) (hs : s ∈ t.rows) (h : r.id = s.id) : r = s :=
  List.inj_on_of_nodup_map t.ids_unique hr hs h

@[simp] theorem mem_connRows {key : String} {r : FlowRow} :
    r ∈ t.connRows key ↔ r ∈ t.rows ∧ r.connKey = key := by
  simp [connRows]

@[simp] theorem mem_tupleRows {tup : FlowTuple} {r : FlowRow} :
    r ∈ t.tupleRows tup ↔ r ∈ t.rows ∧ r.tuple = tup := by
  simp [tupleRows]

@[simp] theorem update_rows (t : FlowTable) (e : RowEdit) :
    (t.update e).rows = t.rows.map e.apply := rfl

@[simp] theorem delete_rows (t : FlowTable) (p : FlowRow → Bool) :
    (t.delete p).rows = t.rows.filter fun r => !p r := rfl

@[simp] theorem mem_update {e : RowEdit} {r : FlowRow} :
    r ∈ (t.update e).rows ↔ ∃ s ∈ t.rows, e.apply s = r := by
  simp

@[simp] theorem mem_delete {p : FlowRow → Bool} {r : FlowRow} :
    r ∈ (t.delete p).rows ↔ r ∈ t.rows ∧ p r = false := by
  simp

theorem apply_on (e : RowEdit) (p : FlowRow → Bool) (r : FlowRow) :
    (e.on p).apply r = if p r then e.apply r else r := rfl

end FlowTable

end IllumioOps
