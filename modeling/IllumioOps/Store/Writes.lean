import IllumioOps.Store.Upsert

/-!
# What a batch does to the rows

The writes of a batch keep every row's identity and connection and change only rows of
records that they write. The repairs then give every row of a touched tuple the connection
that pairing wants, and settling edits every row of a changed connection by what the
connection holds. `upsertFlows_rows` puts the three together, and `upsertFlows_evolves`
says what they leave alone: a row either keeps everything but the counts recorded of it, or
its old day and its new day are among the days touched.
-/

set_option autoImplicit false

namespace IllumioOps

open Matching Tables

variable {p : Primitives} {o : UpsertOptions}

/-! ## Stored rows -/

def RecordId.tuple (i : RecordId) : FlowTuple :=
  { srcIp := i.srcIp, dstIp := i.dstIp, port := i.port, proto := i.proto }

/-- The row stands for the record with this identity. -/
structure FlowRow.StandsFor (p : Primitives) (r : FlowRow) (i : RecordId) : Prop where
  recordKey : r.recordKey = p.digest i
  direction : r.direction = i.direction
  tuple : r.tuple = i.tuple
  firstDetected : r.firstDetected = dbTime i.firstDetected

/-- Every row stands for a record. -/
def FlowTable.Stored (p : Primitives) (t : FlowTable) : Prop :=
  ∀ r ∈ t.rows, ∃ i, r.StandsFor p i

theorem FlowRow.StandsFor.of_identity {r s : FlowRow} {i : RecordId} (h : r.StandsFor p i)
    (hid : s.identity = r.identity) : s.StandsFor p i where
  recordKey := (FlowRow.recordKey_of_identity hid).trans h.recordKey
  direction := (FlowRow.direction_of_identity hid).trans h.direction
  tuple := (FlowRow.tuple_of_identity hid).trans h.tuple
  firstDetected := (FlowRow.firstDetected_of_identity hid).trans h.firstDetected

/-- A row with a record's key stands for that record: the digest collides on no two. -/
theorem FlowTable.Stored.standsFor {t : FlowTable} (ht : t.Stored p) {row : FlowRow}
    {r : FlowRecord} (hrow : row ∈ t.rows) (hkey : row.recordKey = recordKey p.digest r) :
    row.StandsFor p r.recordId := by
  obtain ⟨i, hi⟩ := ht row hrow
  have heq : i = r.recordId := p.digest_injective (hi.recordKey.symm.trans hkey)
  exact heq ▸ hi

theorem FlowTable.Stored.of_evolves {t t' : FlowTable} {R : FlowRow → FlowRow → Prop}
    {N : FlowRow → Prop} (ht : t.Stored p) (h : Evolves R N t.rows t'.rows)
    (hR : ∀ x y, R x y → y.identity = x.identity) (hN : ∀ y, N y → ∃ i, y.StandsFor p i) :
    t'.Stored p := by
  intro y hy
  rcases h.mem_right hy with ⟨x, hx, hxy⟩ | hnew
  · obtain ⟨i, hi⟩ := ht x hx
    exact ⟨i, hi.of_identity (hR x y hxy)⟩
  · exact hN y hnew

/-! ## The records of the batch -/

/-- What one record of a batch does. -/
theorem writeRecord_cases (p : Primitives) (origin : DataOrigin) (stamp : Int) (w : Writing)
    (r : FlowRecord) :
    (∃ old, w.flows.byKey (recordKey p.digest r) = some old ∧ addsNothing old r origin = true ∧
      writeRecord p origin stamp w r = { w with unchanged := w.unchanged + 1 }) ∨
    (∃ old, w.flows.byKey (recordKey p.digest r) = some old ∧ addsNothing old r origin = false ∧
      writeRecord p origin stamp w r =
        refreshRow origin stamp w r (recordKey p.digest r) old) ∨
    ∃ hkey : w.flows.byKey (recordKey p.digest r) = none,
      writeRecord p origin stamp w r =
        insertRow origin stamp w r (recordKey p.digest r) hkey := by
  unfold writeRecord
  split
  next old hold =>
    cases hadds : addsNothing old r origin with
    | true => exact Or.inl ⟨old, hold, hadds, rfl⟩
    | false => exact Or.inr (Or.inl ⟨old, hold, hadds, rfl⟩)
  next hnone => exact Or.inr (Or.inr ⟨hnone, rfl⟩)

/-- Settling changes no more than the counts recorded. -/
theorem settleUntracked_evolves (t : FlowTable) (connKey : String) (N : FlowRow → Prop) :
    Evolves (fun x y => y.uncounted = x.uncounted) N t.rows (settleUntracked t connKey).rows := by
  unfold settleUntracked
  split
  · exact Evolves.refl fun _ _ => rfl
  · apply Evolves.map
    intro x _
    rw [FlowTable.apply_on]
    split <;> rfl

/-- A refresh touches one row, and settling no more than the counts recorded. -/
theorem refreshRow_evolves (origin : DataOrigin) (stamp : Int) (w : Writing) (r : FlowRecord)
    (key : String) {old : FlowRow} (hold : old ∈ w.flows.rows) :
    Evolves (fun x y => y.identity = x.identity ∧ y.connKey = x.connKey ∧
        (y.uncounted = x.uncounted ∨ x = old)) (fun _ => False)
      w.flows.rows (refreshRow origin stamp w r key old).flows.rows := by
  have hsettled : Evolves (fun x y => y.uncounted = x.uncounted) (fun _ => False) w.flows.rows
      (if old.countedConnections.isNone then settleUntracked w.flows old.connKey
        else w.flows).rows := by
    split
    · exact settleUntracked_evolves _ _ _
    · exact Evolves.refl fun _ _ => rfl
  have hedit : ∀ t : FlowTable, Evolves (fun x y => y.identity = x.identity ∧
      y.connKey = x.connKey ∧ (y = x ∨ x.id = old.id)) (fun _ => False) t.rows
      (t.update ((refreshEdit r origin stamp).on fun row => row.id = old.id)).rows := by
    intro t
    apply Evolves.map
    intro x _
    rw [FlowTable.apply_on]
    by_cases hid : x.id = old.id
    · rw [if_pos (by simpa using hid)]
      exact ⟨rfl, rfl, Or.inr hid⟩
    · rw [if_neg (by simpa using hid)]
      exact ⟨rfl, rfl, Or.inl rfl⟩
  apply (hsettled.trans (hedit _)).mono
  · rintro x hx z _ ⟨y, hxy, hidentity, hconn, hsame⟩
    have hid := FlowRow.identity_of_uncounted hxy
    refine ⟨hidentity.trans hid, hconn.trans (FlowRow.connKey_of_uncounted hxy), ?_⟩
    rcases hsame with rfl | hrow
    · exact Or.inl hxy
    · exact Or.inr (FlowTable.eq_of_id hx hold ((FlowRow.id_of_identity hid).symm.trans hrow))
  · rintro y _ (⟨_, hnone, _⟩ | hnone) <;> exact hnone

/-- What the writes of a batch may do to a row: refresh it, its record among those written. -/
structure Rewritten (written : List String) (tuples : List FlowTuple) (touched : List Int)
    (x y : FlowRow) : Prop where
  identity : y.identity = x.identity
  connKey : y.connKey = x.connKey
  known : y.uncounted = x.uncounted ∨
    y.recordKey ∈ written ∧ y.tuple ∈ tuples ∧ x.day ∈ touched

/-- A row that the writes of a batch add. -/
structure Added (p : Primitives) (written : List String) (tuples : List FlowTuple)
    (y : FlowRow) : Prop where
  connKey : y.connKey = y.recordKey
  written : y.recordKey ∈ written
  tuple : y.tuple ∈ tuples
  stands : ∃ i, y.StandsFor p i

/-- What holds in the loop over the records, seen from the table before it. -/
structure WriteInv (p : Primitives) (before : List FlowRow) (w : Writing) : Prop where
  evolves : Evolves (Rewritten w.written w.tuples w.daysTouched) (Added p w.written w.tuples)
    before w.flows.rows
  stored : w.flows.Stored p

/-- One record keeps the invariant of the loop. -/
theorem WriteInv.writeRecord {before : List FlowRow} {w : Writing} (h : WriteInv p before w)
    (origin : DataOrigin) (stamp : Int) (r : FlowRecord) :
    WriteInv p before (writeRecord p origin stamp w r) := by
  rcases writeRecord_cases p origin stamp w r with
    ⟨old, hold, hadds, heq⟩ | ⟨old, hold, hadds, heq⟩ | ⟨hnone, heq⟩
  · rw [heq]
    exact ⟨h.evolves, h.stored⟩
  · rw [heq]
    obtain ⟨hmem, hkey⟩ := FlowTable.byKey_eq_some.1 hold
    have hstands := h.stored.standsFor hmem hkey
    have hrefresh := refreshRow_evolves origin stamp w r (recordKey p.digest r) hmem
    refine ⟨(h.evolves.trans hrefresh).mono ?_ ?_, ?_⟩
    · rintro x _ z _ ⟨y, hxy, hidentity, hconn, hsame⟩
      refine ⟨hidentity.trans hxy.identity, hconn.trans hxy.connKey, ?_⟩
      rcases hsame with hsame | rfl
      · -- The record left this row alone.
        rcases hxy.known with hknown | ⟨hwritten, htuple, hday⟩
        · exact Or.inl (hsame.trans hknown)
        · refine Or.inr ⟨List.mem_cons_of_mem _ ?_, List.mem_cons_of_mem _ ?_,
            List.mem_cons_of_mem _ hday⟩
          · rwa [FlowRow.recordKey_of_identity hidentity]
          · rwa [FlowRow.tuple_of_identity hidentity]
      · -- It is the record's row: its tuple is the record's, its old day is noted.
        refine Or.inr ⟨?_, ?_, ?_⟩
        · rw [FlowRow.recordKey_of_identity hidentity, hkey]
          exact List.mem_cons_self
        · rw [FlowRow.tuple_of_identity hidentity, hstands.tuple]
          exact List.mem_cons_self
        · rcases hxy.known with hknown | ⟨_, _, hday⟩
          · rw [← FlowRow.day_of_uncounted hknown]
            exact List.mem_cons_self
          · exact List.mem_cons_of_mem _ hday
    · rintro z _ (⟨y, hnew, hidentity, hconn, _⟩ | hfalse)
      · have hrecordKey := FlowRow.recordKey_of_identity hidentity
        obtain ⟨i, hi⟩ := hnew.stands
        refine ⟨?_, ?_, ?_, i, hi.of_identity hidentity⟩
        · rw [hconn, hnew.connKey]
          exact hrecordKey.symm
        · rw [hrecordKey]
          exact List.mem_cons_of_mem _ hnew.written
        · rw [FlowRow.tuple_of_identity hidentity]
          exact List.mem_cons_of_mem _ hnew.tuple
      · exact hfalse.elim
    · apply h.stored.of_evolves hrefresh
      · exact fun x y hxy => hxy.1
      · exact fun y hfalse => hfalse.elim
  · rw [heq]
    have hstands : FlowRow.StandsFor p
        { newRow r (recordKey p.digest r) (w.labelSets.labelSetId r.srcLabels).1
            ((w.labelSets.labelSetId r.srcLabels).2.labelSetId r.dstLabels).1 origin stamp with
          id := w.flows.nextId } r.recordId := ⟨rfl, rfl, rfl, rfl⟩
    have hinsert : Evolves Eq (fun y => FlowRow.StandsFor p y r.recordId ∧
        y.connKey = y.recordKey ∧ y.recordKey = recordKey p.digest r) w.flows.rows
        (insertRow origin stamp w r (recordKey p.digest r) hnone).flows.rows := by
      apply Evolves.append (fun _ _ => rfl)
      intro y hy
      rw [List.mem_singleton] at hy
      subst hy
      exact ⟨hstands, rfl, rfl⟩
    refine ⟨(h.evolves.trans hinsert).mono ?_ ?_, ?_⟩
    · rintro x _ z _ ⟨y, hxy, rfl⟩
      refine ⟨hxy.identity, hxy.connKey, ?_⟩
      rcases hxy.known with hknown | ⟨hwritten, htuple, hday⟩
      · exact Or.inl hknown
      · exact Or.inr ⟨List.mem_cons_of_mem _ hwritten, List.mem_cons_of_mem _ htuple, hday⟩
    · rintro z _ (⟨y, hnew, rfl⟩ | ⟨hz, hconn, hkey⟩)
      · exact ⟨hnew.connKey, List.mem_cons_of_mem _ hnew.written,
          List.mem_cons_of_mem _ hnew.tuple, hnew.stands⟩
      · refine ⟨hconn, ?_, ?_, _, hz⟩
        · rw [hkey]
          exact List.mem_cons_self
        · rw [hz.tuple]
          exact List.mem_cons_self
    · apply h.stored.of_evolves hinsert
      · rintro x y rfl
        rfl
      · exact fun y hy => ⟨_, hy.1⟩

/-- The loop over the records keeps its invariant. -/
theorem writeInv_writeRecords {db : FlowDb} (h : db.flows.Stored p) (origin : DataOrigin)
    (stamp : Int) (records : List FlowRecord) :
    WriteInv p db.flows.rows (writeRecords p origin stamp db records) := by
  have hrun : ∀ (records : List FlowRecord) (w : Writing), WriteInv p db.flows.rows w →
      WriteInv p db.flows.rows (records.foldl (writeRecord p origin stamp) w) := by
    intro records
    induction records with
    | nil => exact fun w hw => hw
    | cons r records ih => exact fun w hw => ih _ (hw.writeRecord origin stamp r)
  apply hrun
  refine ⟨Evolves.refl ?_, h⟩
  intro x _
  exact ⟨rfl, rfl, Or.inl rfl⟩

/-! ## The repairs -/

/-- What pairing wants of a row, in the table it is read in. -/
def FlowTable.wanted (t : FlowTable) (r : FlowRow) : String := wantedKey (t.tupleRows r.tuple) r

/-- The rows of a tuple in the order they are paired in. -/
def sortRows (rows : List FlowRow) : List FlowRow :=
  rows.insertionSort fun a b =>
    firstThenKey (a.firstDetected, a.recordKey) (b.firstDetected, b.recordKey)

theorem tupleRows_eq (t : FlowTable) (tup : FlowTuple) :
    t.tupleRows tup = sortRows (groupRows FlowRow.tuple t.rows tup) := rfl

/-- The repair of one row by the rows of its tuple. -/
def repairRow (rows : List FlowRow) (r : FlowRow) : FlowRow :=
  r.withConnKey (wantedKey (sortRows rows) r)

theorem tuple_repairRow (rows : List FlowRow) (r : FlowRow) : (repairRow rows r).tuple = r.tuple :=
  rfl

theorem repairTuple_rows (written : List String) (s : Repairing) (tup : FlowTuple) :
    (repairTuple written s tup).flows.rows =
      groupUpdate FlowRow.tuple repairRow s.flows.rows tup := by
  apply List.map_congr_left
  intro r _
  rw [FlowTable.apply_on]
  simp only [decide_eq_true_eq]
  rfl

theorem foldl_repairTuple_rows (written : List String) (tuples : List FlowTuple)
    (s : Repairing) : (tuples.foldl (repairTuple written) s).flows.rows =
      tuples.foldl (groupUpdate FlowRow.tuple repairRow) s.flows.rows := by
  induction tuples generalizing s with
  | nil => rfl
  | cons tup tuples ih => rw [List.foldl_cons, List.foldl_cons, ih, repairTuple_rows]

/-- The changed keys of the tuples, each read from the table before all repairs. -/
theorem foldl_repairTuple_keys (written : List String) {tuples : List FlowTuple}
    (hnodup : tuples.Nodup) (s : Repairing) :
    (tuples.foldl (repairTuple written) s).keys =
      s.keys ++ tuples.flatMap fun tup => changedKeys (s.flows.tupleRows tup) written := by
  induction tuples generalizing s with
  | nil => simp
  | cons tup tuples ih =>
      obtain ⟨htup, hnodup⟩ := List.nodup_cons.1 hnodup
      rw [List.foldl_cons, ih hnodup, List.flatMap_cons, ← List.append_assoc]
      congr 1
      apply List.flatMap_congr
      intro tup' htup'
      have hne : tup' ≠ tup := fun h => htup (h ▸ htup')
      rw [tupleRows_eq, tupleRows_eq, repairTuple_rows,
        groupRows_groupUpdate_of_ne tuple_repairRow hne]

theorem sortedTuples_nodup (tuples : List FlowTuple) : (sortedTuples tuples).Nodup :=
  (List.perm_insertionSort _ _).nodup_iff.2 (List.nodup_dedup _)

theorem mem_sortedTuples {tuples : List FlowTuple} {tup : FlowTuple} :
    tup ∈ sortedTuples tuples ↔ tup ∈ tuples := by
  simp [sortedTuples]

/-- A row after the repairs. -/
def repaired (t : FlowTable) (tuples : List FlowTuple) (r : FlowRow) : FlowRow :=
  if r.tuple ∈ tuples then r.withConnKey (t.wanted r) else r

theorem repairTuples_rows (written : List String) (t : FlowTable) (tuples : List FlowTuple) :
    (repairTuples written t tuples).flows.rows = t.rows.map (repaired t tuples) := by
  rw [repairTuples, foldl_repairTuple_rows,
    foldl_groupUpdate tuple_repairRow (sortedTuples_nodup tuples)]
  apply List.map_congr_left
  intro r _
  simp only [mem_sortedTuples]
  rfl

/-- A connection changes when a row moves into it or out of it, or a row of it was written. -/
theorem mem_repairTuples_keys {written : List String} {t : FlowTable} {tuples : List FlowTuple}
    {k : String} : k ∈ (repairTuples written t tuples).keys ↔
      ∃ r ∈ t.rows, r.tuple ∈ tuples ∧
        ((r.connKey ≠ t.wanted r ∧ (k = r.connKey ∨ k = t.wanted r)) ∨
          (r.connKey = t.wanted r ∧ r.recordKey ∈ written ∧ k = t.wanted r)) := by
  rw [repairTuples, foldl_repairTuple_keys written (sortedTuples_nodup tuples), List.nil_append,
    List.mem_flatMap]
  simp only [mem_sortedTuples, changedKeys, List.mem_flatMap, FlowTable.mem_tupleRows]
  constructor
  · rintro ⟨tup, htup, r, ⟨hr, rfl⟩, hk⟩
    refine ⟨r, hr, htup, ?_⟩
    change k ∈ (if r.connKey ≠ t.wanted r then _ else _) at hk
    by_cases hmoved : r.connKey = t.wanted r
    · rw [if_neg (not_not.2 hmoved)] at hk
      by_cases hwritten : r.recordKey ∈ written
      · rw [if_pos hwritten, List.mem_singleton] at hk
        exact Or.inr ⟨hmoved, hwritten, hk⟩
      · rw [if_neg hwritten] at hk
        exact absurd hk List.not_mem_nil
    · rw [if_pos hmoved, List.mem_cons, List.mem_singleton] at hk
      exact Or.inl ⟨hmoved, hk⟩
  · rintro ⟨r, hr, htup, hk⟩
    refine ⟨r.tuple, htup, r, ⟨hr, rfl⟩, ?_⟩
    change k ∈ (if r.connKey ≠ t.wanted r then _ else _)
    rcases hk with ⟨hmoved, hk⟩ | ⟨hmoved, hwritten, hk⟩
    · rw [if_pos hmoved, List.mem_cons, List.mem_singleton]
      exact hk
    · rw [if_neg (not_not.2 hmoved), if_pos hwritten, List.mem_singleton]
      exact hk

/-! ## Settling the changed connections -/

/-- `_merge_connection` of one row by the rows of its connection. -/
def mergeRow (rows : List FlowRow) (r : FlowRow) : FlowRow :=
  match choosePrimary rows with
  | none => r
  | some primary => (mergeEdit rows primary).apply r

/-- `_record_growth` of one row by the rows of its connection. -/
def growthRow (rows : List FlowRow) (r : FlowRow) : FlowRow :=
  match primaryRow rows with
  | none => r
  | some primary => (growthEdit rows primary).apply r

/-- What settling makes of a row. -/
def settleRow (rows : List FlowRow) (r : FlowRow) : FlowRow :=
  growthRow (rows.map (mergeRow rows)) (mergeRow rows r)

@[simp] theorem connKey_mergeRow (rows : List FlowRow) (r : FlowRow) :
    (mergeRow rows r).connKey = r.connKey := by
  unfold mergeRow
  split <;> rfl

@[simp] theorem uncounted_growthRow (rows : List FlowRow) (r : FlowRow) :
    (growthRow rows r).uncounted = r.uncounted := by
  unfold growthRow
  split <;> rfl

@[simp] theorem uncounted_settleRow (rows : List FlowRow) (r : FlowRow) :
    (settleRow rows r).uncounted = (mergeRow rows r).uncounted :=
  uncounted_growthRow _ _

@[simp] theorem connKey_settleRow (rows : List FlowRow) (r : FlowRow) :
    (settleRow rows r).connKey = r.connKey :=
  (FlowRow.connKey_of_uncounted (uncounted_settleRow rows r)).trans (connKey_mergeRow rows r)

@[simp] theorem identity_settleRow (rows : List FlowRow) (r : FlowRow) :
    (settleRow rows r).identity = r.identity := by
  rw [FlowRow.identity_of_uncounted (uncounted_settleRow rows r)]
  unfold mergeRow
  split <;> rfl

@[simp] theorem day_settleRow (rows : List FlowRow) (r : FlowRow) :
    (settleRow rows r).day = r.day := by
  rw [FlowRow.day_of_uncounted (uncounted_settleRow rows r)]
  unfold mergeRow
  split <;> rfl

theorem mergeConnection_rows (t : FlowTable) (connKey : String) :
    (mergeConnection t connKey).rows = groupUpdate FlowRow.connKey mergeRow t.rows connKey := by
  have hgroup : t.connRows connKey = groupRows FlowRow.connKey t.rows connKey := rfl
  unfold mergeConnection groupUpdate mergeRow
  rw [hgroup]
  cases choosePrimary (groupRows FlowRow.connKey t.rows connKey) with
  | none => simp
  | some primary =>
      apply List.map_congr_left
      intro r _
      rw [FlowTable.apply_on]
      simp only [decide_eq_true_eq]

@[simp] theorem updateBaselines_flows (logNew : Bool) (stamp : Int) (db : FlowDb)
    (connKey : String) : (updateBaselines p logNew stamp db connKey).flows = db.flows := by
  unfold updateBaselines
  split
  · rfl
  next row _ => cases row.initiatorUser <;> cases row.initiatorProcess <;> rfl

theorem recordGrowth_rows (beforeLast : List (String × Option Int)) (increments : Increments)
    (stamp : Int) (db : FlowDb) (connKey : String) :
    (recordGrowth beforeLast increments stamp db connKey).1.flows.rows =
      groupUpdate FlowRow.connKey growthRow db.flows.rows connKey := by
  have hgroup : db.flows.connRows connKey =
    groupRows FlowRow.connKey db.flows.rows connKey := rfl
  unfold recordGrowth groupUpdate growthRow
  simp only [hgroup]
  cases primaryRow (groupRows FlowRow.connKey db.flows.rows connKey) with
  | none => simp
  | some primary =>
      apply List.map_congr_left
      intro r _
      rw [FlowTable.apply_on]
      simp only [decide_eq_true_eq]

@[simp] theorem addActivity_flows (addr : Addresses) (hour : Int) (row : FlowRow)
    (grew : Nat × Option Int) (db : FlowDb) :
    (addActivity addr hour row grew db).flows = db.flows := by
  unfold addActivity
  split
  · rfl
  · split <;> rfl

/-- Settling a connection edits its rows by what the connection holds. -/
theorem settleConnection_rows (beforeLast : List (String × Option Int)) (db : FlowDb)
    (connKey : String) : (settleConnection p o beforeLast db connKey).flows.rows =
      groupUpdate FlowRow.connKey settleRow db.flows.rows connKey := by
  have hflows : (settleConnection p o beforeLast db connKey).flows =
      (recordGrowth beforeLast o.increments (dbTime o.now)
        (updateBaselines p o.logNewConnections (dbTime o.now)
          { db with flows := mergeConnection db.flows connKey } connKey) connKey).1.flows := by
    unfold settleConnection
    dsimp only
    split
    · exact addActivity_flows _ _ _ _ _
    · rfl
  rw [hflows, recordGrowth_rows, updateBaselines_flows, mergeConnection_rows,
    groupUpdate_groupUpdate connKey_mergeRow]
  rfl

theorem foldl_settleConnection_rows (beforeLast : List (String × Option Int))
    {keys : List String} (hkeys : keys.Nodup) (db : FlowDb) :
    (keys.foldl (settleConnection p o beforeLast) db).flows.rows =
      db.flows.rows.map fun r =>
        if r.connKey ∈ keys then settleRow (db.flows.connRows r.connKey) r else r := by
  have hrows : ∀ (keys : List String) (db : FlowDb),
      (keys.foldl (settleConnection p o beforeLast) db).flows.rows =
        keys.foldl (groupUpdate FlowRow.connKey settleRow) db.flows.rows := by
    intro keys
    induction keys with
    | nil => exact fun _ => rfl
    | cons key keys ih =>
        intro db
        rw [List.foldl_cons, List.foldl_cons, ih, settleConnection_rows]
  rw [hrows, foldl_groupUpdate connKey_settleRow hkeys]
  rfl

/-! ## The whole batch -/

/-- The table after the repairs of a batch. -/
def repairedTable (p : Primitives) (o : UpsertOptions) (db : FlowDb)
    (records : List FlowRecord) : Repairing :=
  let w := writeRecords p o.origin (dbTime o.now) db records
  repairTuples w.written w.flows w.tuples

@[simp] theorem foldl_markDirty_flows (touched : List Int) (db : FlowDb) :
    (touched.foldl FlowDb.markDirty db).flows = db.flows := by
  induction touched generalizing db with
  | nil => rfl
  | cons d touched ih =>
      rw [List.foldl_cons, ih]
      rfl

@[simp] theorem dropOldActivity_flows (db : FlowDb) : (dropOldActivity o db).flows = db.flows := by
  unfold dropOldActivity
  split <;> split <;> rfl

/-- Every row of a changed connection is settled by what its connection holds after the
repairs; every other row is as the writes and the repairs left it. -/
theorem upsertFlows_rows (db : FlowDb) (records : List FlowRecord) :
    (upsertFlows p o db records).1.flows.rows =
      (repairedTable p o db records).flows.rows.map fun r =>
        if r.connKey ∈ (repairedTable p o db records).keys
        then settleRow ((repairedTable p o db records).flows.connRows r.connKey) r else r := by
  have hsorted : ∀ keys : List String, (keys.dedup.insertionSort (· ≤ ·)).Nodup :=
    fun keys => (List.perm_insertionSort _ _).nodup_iff.2 (List.nodup_dedup _)
  unfold upsertFlows
  simp only [foldl_markDirty_flows]
  change (dropOldActivity o _).flows.rows = _
  rw [dropOldActivity_flows, foldl_settleConnection_rows _ (hsorted _)]
  simp only [List.mem_insertionSort, List.mem_dedup]
  rfl

/-- The days that a batch leaves stale and dirty: those of the rows it refreshed, as they were,
and those of every row of a changed connection, as they are now. -/
theorem mem_daysTouched {db : FlowDb} {records : List FlowRecord} {d : Int} :
    d ∈ (upsertFlows p o db records).2.daysTouched ↔
      d ∈ (writeRecords p o.origin (dbTime o.now) db records).daysTouched ∨
      ∃ r ∈ (upsertFlows p o db records).1.flows.rows,
        r.connKey ∈ (repairedTable p o db records).keys ∧ r.day = d := by
  unfold upsertFlows
  simp only [foldl_markDirty_flows, List.mem_dedup, List.mem_append, List.mem_map,
    List.mem_filter, decide_eq_true_eq, List.mem_insertionSort]
  apply or_congr_right
  constructor
  · rintro ⟨r, ⟨hr, hkey⟩, hday⟩
    refine ⟨r, ?_, hkey, hday⟩
    change r ∈ (dropOldActivity o _).flows.rows
    rw [dropOldActivity_flows]
    exact hr
  · rintro ⟨r, hr, hkey, hday⟩
    refine ⟨r, ⟨?_, hkey⟩, hday⟩
    change r ∈ (dropOldActivity o _).flows.rows at hr
    rw [dropOldActivity_flows] at hr
    exact hr

/-- A row whose connection the repairs leave alone neither moved nor was written. -/
theorem repaired_of_unchanged {written : List String} {t : FlowTable} {tuples : List FlowTuple}
    {r : FlowRow} (hr : r ∈ t.rows)
    (hkey : (repaired t tuples r).connKey ∉ (repairTuples written t tuples).keys) :
    repaired t tuples r = r ∧ ¬ (r.recordKey ∈ written ∧ r.tuple ∈ tuples) := by
  by_cases htuple : r.tuple ∈ tuples
  · have hrepaired : repaired t tuples r = r.withConnKey (t.wanted r) := if_pos htuple
    rw [hrepaired] at hkey ⊢
    have hstays : r.connKey = t.wanted r := by
      by_contra hmoved
      exact hkey (mem_repairTuples_keys.2 ⟨r, hr, htuple, Or.inl ⟨hmoved, Or.inr rfl⟩⟩)
    refine ⟨?_, ?_⟩
    · rw [← hstays]
      rfl
    · rintro ⟨hwritten, _⟩
      exact hkey (mem_repairTuples_keys.2 ⟨r, hr, htuple, Or.inr ⟨hstays, hwritten, rfl⟩⟩)
  · exact ⟨if_neg htuple, fun h => htuple h.2⟩

/-- A row that the repairs move leaves a changed connection. -/
theorem connKey_mem_keys_of_repaired {written : List String} {t : FlowTable}
    {tuples : List FlowTuple} {r : FlowRow} (hr : r ∈ t.rows)
    (hkey : (repaired t tuples r).connKey ∈ (repairTuples written t tuples).keys) :
    r.connKey ∈ (repairTuples written t tuples).keys := by
  by_cases htuple : r.tuple ∈ tuples
  · have hrepaired : repaired t tuples r = r.withConnKey (t.wanted r) := if_pos htuple
    rw [hrepaired] at hkey
    by_cases hstays : r.connKey = t.wanted r
    · rw [hstays]
      exact hkey
    · exact mem_repairTuples_keys.2 ⟨r, hr, htuple, Or.inl ⟨hstays, Or.inl rfl⟩⟩
  · have hrepaired : repaired t tuples r = r := if_neg htuple
    rwa [hrepaired] at hkey

@[simp] theorem identity_repaired (t : FlowTable) (tuples : List FlowTuple) (r : FlowRow) :
    (repaired t tuples r).identity = r.identity := by
  unfold repaired
  split <;> rfl

@[simp] theorem day_repaired (t : FlowTable) (tuples : List FlowTuple) (r : FlowRow) :
    (repaired t tuples r).day = r.day := by
  unfold repaired
  split <;> rfl

/-- What a batch does to the rows: a row keeps everything but the counts recorded of it, or it
is in a changed connection and its old and its new day are touched. -/
structure Kept (keys : List String) (touched : List Int) (x y : FlowRow) : Prop where
  identity : y.identity = x.identity
  known : y.uncounted = x.uncounted ∨
    (x.connKey ∈ keys ∧ y.connKey ∈ keys) ∧ x.day ∈ touched ∧ y.day ∈ touched

/-- Every row that was not written, not moved and not joined is left alone. -/
theorem upsertFlows_evolves {db : FlowDb} (hdb : db.flows.Stored p) (records : List FlowRecord) :
    Evolves
      (Kept (repairedTable p o db records).keys (upsertFlows p o db records).2.daysTouched)
      (fun y => (∃ i, y.StandsFor p i) ∧ y.connKey ∈ (repairedTable p o db records).keys ∧
        y.day ∈ (upsertFlows p o db records).2.daysTouched)
      db.flows.rows (upsertFlows p o db records).1.flows.rows := by
  obtain ⟨w, hw⟩ : ∃ w, w = writeRecords p o.origin (dbTime o.now) db records := ⟨_, rfl⟩
  have hwrites : WriteInv p db.flows.rows w :=
    hw ▸ writeInv_writeRecords hdb o.origin (dbTime o.now) records
  have hrepairs : repairedTable p o db records = repairTuples w.written w.flows w.tuples := by
    rw [repairedTable, hw]
  -- One function takes the rows from after the writes to the end of the batch.
  have hrest : Evolves (fun y z => z.identity = y.identity ∧ z.day = y.day ∧
      z.connKey = (repaired w.flows w.tuples y).connKey ∧ y ∈ w.flows.rows ∧
      (z.connKey ∉ (repairedTable p o db records).keys → z = y)) (fun _ => False)
      w.flows.rows (upsertFlows p o db records).1.flows.rows := by
    rw [upsertFlows_rows, hrepairs, repairTuples_rows, List.map_map]
    apply Evolves.map
    intro y hy
    simp only [Function.comp]
    by_cases hkey : (repaired w.flows w.tuples y).connKey ∈
        (repairTuples w.written w.flows w.tuples).keys
    · rw [if_pos hkey]
      refine ⟨by simp, by simp, by simp, hy, fun h => absurd (by simpa using hkey) h⟩
    · rw [if_neg hkey]
      exact ⟨by simp, by simp, rfl, hy, fun _ => (repaired_of_unchanged hy hkey).1⟩
  apply (hwrites.evolves.trans hrest).mono
  · rintro x _ z hz ⟨y, hxy, hidentity, hday, hconn, hy, hsame⟩
    refine ⟨hidentity.trans hxy.identity, ?_⟩
    by_cases hkey : z.connKey ∈ (repairedTable p o db records).keys
    · have hzday : z.day ∈ (upsertFlows p o db records).2.daysTouched :=
        mem_daysTouched.2 (Or.inr ⟨z, hz, hkey, rfl⟩)
      have hxkey : x.connKey ∈ (repairedTable p o db records).keys := by
        have hykey := hkey
        rw [hconn, hrepairs] at hykey
        rw [← hxy.connKey, hrepairs]
        exact connKey_mem_keys_of_repaired hy hykey
      refine Or.inr ⟨⟨hxkey, hkey⟩, ?_, hzday⟩
      rcases hxy.known with hknown | ⟨_, _, htouched⟩
      · rwa [← FlowRow.day_of_uncounted hknown, ← hday]
      · exact mem_daysTouched.2 (Or.inl (hw ▸ htouched))
    · -- Its connection is not a changed one: the record was not written.
      have hrow := hsame hkey
      rw [hconn, hrepairs] at hkey
      have hunwritten := (repaired_of_unchanged hy hkey).2
      rcases hxy.known with hknown | ⟨hwritten, htuple, _⟩
      · exact Or.inl (hrow ▸ hknown)
      · exact absurd ⟨hwritten, htuple⟩ hunwritten
  · rintro z hz (⟨y, hadded, hidentity, hday, hconn, hy, hsame⟩ | hfalse)
    · have hkey : z.connKey ∈ (repairedTable p o db records).keys := by
        by_contra hkey
        rw [hconn, hrepairs] at hkey
        exact (repaired_of_unchanged hy hkey).2 ⟨hadded.written, hadded.tuple⟩
      obtain ⟨i, hi⟩ := hadded.stands
      exact ⟨⟨i, hi.of_identity hidentity⟩, hkey,
        mem_daysTouched.2 (Or.inr ⟨z, hz, hkey, rfl⟩)⟩
    · exact hfalse.elim

/-- Every row still stands for a record. -/
theorem stored_upsertFlows {db : FlowDb} (hdb : db.flows.Stored p) (records : List FlowRecord) :
    (upsertFlows p o db records).1.flows.Stored p :=
  hdb.of_evolves (upsertFlows_evolves hdb records) (fun _ _ h => h.identity) fun _ h => h.1

/-! ## The tables by day -/

/-- The tables that a batch touches by day only. -/
def FlowDb.byDay (db : FlowDb) :
    (AList fun _ : Int => RollupState) × List RollupRow ×
      (ArchiveKind → Int → Option ArchiveEntry) :=
  (db.rollupState, db.rollups, db.archiveLog)

theorem byDay_settleConnection (beforeLast : List (String × Option Int)) (db : FlowDb)
    (connKey : String) :
    (settleConnection p o beforeLast db connKey).byDay = db.byDay := by
  have hbaselines : ∀ (logNew : Bool) (stamp : Int) (db : FlowDb),
      (updateBaselines p logNew stamp db connKey).byDay = db.byDay := by
    intro logNew stamp db
    unfold updateBaselines
    split
    · rfl
    next row _ => cases row.initiatorUser <;> cases row.initiatorProcess <;> rfl
  have hgrowth : ∀ (stamp : Int) (db : FlowDb),
      (recordGrowth beforeLast o.increments stamp db connKey).1.byDay = db.byDay := by
    intro stamp db
    unfold recordGrowth
    dsimp only
    split <;> rfl
  have hactivity : ∀ (hour : Int) (row : FlowRow) (grew : Nat × Option Int) (db : FlowDb),
      (addActivity p.addresses hour row grew db).byDay = db.byDay := by
    intro hour row grew db
    unfold addActivity
    split
    · rfl
    · split <;> rfl
  unfold settleConnection
  dsimp only
  split
  · rw [hactivity, hgrowth, hbaselines]
    rfl
  · rw [hgrowth, hbaselines]
    rfl

theorem byDay_foldl_settleConnection (beforeLast : List (String × Option Int))
    (keys : List String) (db : FlowDb) :
    (keys.foldl (settleConnection p o beforeLast) db).byDay = db.byDay := by
  induction keys generalizing db with
  | nil => rfl
  | cons key keys ih => rw [List.foldl_cons, ih, byDay_settleConnection]

theorem byDay_dropOldActivity (db : FlowDb) : (dropOldActivity o db).byDay = db.byDay := by
  unfold dropOldActivity
  split <;> split <;> rfl

theorem foldl_markDirty (touched : List Int) (db : FlowDb) :
    (touched.foldl FlowDb.markDirty db).rollups = db.rollups ∧
    (touched.foldl FlowDb.markDirty db).archiveLog = db.archiveLog ∧
    ∀ d, (touched.foldl FlowDb.markDirty db).rollupState.lookup d =
      if d ∈ touched then
        some { dirty := true, builtAt := (db.rollupState.lookup d).bind RollupState.builtAt }
      else db.rollupState.lookup d := by
  induction touched generalizing db with
  | nil => exact ⟨rfl, rfl, fun _ => rfl⟩
  | cons e touched ih =>
      obtain ⟨hrollups, harchive, hstate⟩ := ih (db.markDirty e)
      refine ⟨hrollups, harchive, fun d => ?_⟩
      rw [List.foldl_cons, hstate d]
      have hmark : (db.markDirty e).rollupState.lookup d = if d = e then
          some { dirty := true, builtAt := (db.rollupState.lookup d).bind RollupState.builtAt }
          else db.rollupState.lookup d := by
        by_cases hde : d = e
        · subst hde
          rw [if_pos rfl]
          exact AList.lookup_insert _
        · rw [if_neg hde]
          exact AList.lookup_insert_ne hde
      rw [hmark]
      by_cases hd : d ∈ touched <;> by_cases hde : d = e <;> simp [hd, hde]

/-- What a batch does to the tables by day: the touched days are left dirty in the rollups and
stale in the archive, and nothing else changes. -/
structure DaysMarked (touched : List Int) (db db' : FlowDb) : Prop where
  rollups : db'.rollups = db.rollups
  rollupState : ∀ d, db'.rollupState.lookup d = if d ∈ touched then
    some { dirty := true, builtAt := (db.rollupState.lookup d).bind RollupState.builtAt }
    else db.rollupState.lookup d
  archiveLog : ∀ k d, db'.archiveLog k d = if k = .flows ∧ d ∈ touched then
    (db.archiveLog k d).map fun e => { e with stale := true } else db.archiveLog k d

theorem upsertFlows_daysMarked (db : FlowDb) (records : List FlowRecord) :
    DaysMarked (upsertFlows p o db records).2.daysTouched db
      (upsertFlows p o db records).1 := by
  have hdb : ∀ (w : Writing) (flows : FlowTable) (keys : List String),
      (dropOldActivity o (keys.foldl (settleConnection p o w.beforeLast)
        { db with labelSets := w.labelSets, flows := flows })).byDay = db.byDay := by
    intro w flows keys
    rw [byDay_dropOldActivity, byDay_foldl_settleConnection]
    rfl
  -- The marks are set on the tables as they were before the batch.
  have hmarked : ∀ (db' : FlowDb) (touched sorted : List Int), db'.byDay = db.byDay →
      (∀ d, d ∈ sorted ↔ d ∈ touched) →
      DaysMarked touched db (sorted.foldl FlowDb.markDirty (db'.markStale .flows touched)) := by
    intro db' touched sorted heq hsorted
    have hstate : db'.rollupState = db.rollupState := congrArg Prod.fst heq
    have hrollups : db'.rollups = db.rollups := congrArg (fun x => x.2.1) heq
    have harchive : db'.archiveLog = db.archiveLog := congrArg (fun x => x.2.2) heq
    obtain ⟨h₁, h₂, h₃⟩ := foldl_markDirty sorted (db'.markStale .flows touched)
    refine ⟨h₁.trans hrollups, fun d => ?_, fun k d => ?_⟩
    · rw [h₃ d, ← hstate]
      simp only [hsorted]
      rfl
    · rw [h₂, ← harchive]
      rfl
  unfold upsertFlows
  apply hmarked
  · exact hdb _ _ _
  · intro d
    exact List.mem_insertionSort _

end IllumioOps
