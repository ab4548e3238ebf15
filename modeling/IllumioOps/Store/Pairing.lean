import IllumioOps.Domain.Sightings
import IllumioOps.Store.Connections

/-!
# Pairing record by record and all at once

A batch pairs again only the tuples that it touches, while the ranges of the stored records
grow. Still the store ends up as if all records had come at once: its sightings are collected
record by record (`sightings_upsertFlows`), and after every batch each row is in the
connection that pairing wants among all sightings so far (`Paired`). Both depend on the set
of the records only.
-/

set_option autoImplicit false

namespace IllumioOps

open Matching Tables

variable {p : Primitives} {o : UpsertOptions} {t : FlowTable}

/-! ## Rows as sightings -/

namespace FlowRow

def counts (r : FlowRow) : Counts :=
  { lastDetected := r.lastDetected, numConnections := r.numConnections, bytesIn := r.ownBytesIn,
    bytesOut := r.ownBytesOut }

def sighting (r : FlowRow) : Sighting :=
  { recordKey := r.recordKey, direction := r.direction, tuple := r.tuple,
    firstDetected := r.firstDetected, counts := r.counts }

def placed (r : FlowRow) : PlacedRow :=
  { recordKey := r.recordKey, connKey := r.connKey, isPrimary := r.isPrimary,
    counts := r.counts }

end FlowRow

/-- A record's times are whole milliseconds, as the store keeps them. -/
structure FlowRecord.WholeMilliseconds (r : FlowRecord) : Prop where
  first : r.firstDetected % milliseconds 1 = 0
  last : r.lastDetected % milliseconds 1 = 0

/-- A record as the store keeps it, its times to the millisecond. -/
def FlowRecord.stored (digest : RecordId → String) (r : FlowRecord) : Sighting :=
  { r.sighting digest with
    firstDetected := dbTime r.firstDetected
    counts := { r.counts with lastDetected := dbTime r.lastDetected } }

theorem FlowRecord.WholeMilliseconds.stored_eq {r : FlowRecord} (h : r.WholeMilliseconds)
    (digest : RecordId → String) : r.stored digest = r.sighting digest := by
  simp only [FlowRecord.stored, dbTime_of_dvd h.first, dbTime_of_dvd h.last]
  rfl

namespace FlowTable

def sightings (t : FlowTable) : List Sighting := t.rows.map FlowRow.sighting

theorem sightings_keys_nodup (t : FlowTable) : (t.sightings.map Sighting.recordKey).Nodup := by
  unfold sightings
  rw [List.map_map]
  exact t.keys_unique

theorem sighting_mem {r : FlowRow} (hr : r ∈ t.rows) : r.sighting ∈ t.sightings :=
  List.mem_map_of_mem hr

theorem sightings_insert (t : FlowTable) (row : FlowRow) (hkey : t.byKey row.recordKey = none) :
    (t.insert row hkey).sightings = t.sightings ++ [row.sighting] := by
  unfold sightings insert
  rw [List.map_append]
  rfl

end FlowTable

theorem sighting_of_uncounted {r s : FlowRow} (h : r.uncounted = s.uncounted) :
    r.sighting = s.sighting := by
  have heq := congrArg FlowRow.sighting h
  exact heq

/-! ## One record -/

/-- A count that is not more adds nothing. -/
theorem larger_of_not_moreBytes {new old : Option Int} (h : moreBytes new old = false) :
    larger old new = old := by
  cases new with
  | none => exact larger_none_right old
  | some n =>
      cases old with
      | none => simp [moreBytes] at h
      | some m =>
          have hle : n ≤ m := by simpa [moreBytes] using h
          rw [larger, max_eq_left hle]

/-- A record that adds nothing has no larger count. -/
theorem counts_of_addsNothing {old : FlowRow} {r : FlowRecord} {origin : DataOrigin}
    (digest : RecordId → String) (h : addsNothing old r origin = true) :
    old.counts ⊔ (r.stored digest).counts = old.counts := by
  unfold addsNothing at h
  simp only [Bool.and_eq_true, decide_eq_true_eq, Bool.not_eq_true'] at h
  obtain ⟨⟨⟨⟨⟨⟨hlast, hnum⟩, hin⟩, hout⟩, _⟩, _⟩, _⟩ := h
  rw [Counts.max_def]
  simp only [FlowRow.counts, FlowRecord.stored, FlowRecord.counts, max_eq_left hlast,
    max_eq_left hnum, larger_of_not_moreBytes hin, larger_of_not_moreBytes hout]

/-- A refreshed row counts what the record does too. -/
theorem sighting_refreshEdit (digest : RecordId → String) (r : FlowRecord) (origin : DataOrigin)
    (stamp : Int) (row : FlowRow) :
    ((refreshEdit r origin stamp).apply row).sighting =
      { row.sighting with counts := row.counts ⊔ (r.stored digest).counts } := rfl

theorem mem_sightings_keys {key : String} :
    key ∈ t.sightings.map Sighting.recordKey ↔ t.byKey key ≠ none := by
  unfold FlowTable.sightings
  rw [List.map_map, Ne, FlowTable.byKey_eq_none]
  simp [FlowRow.sighting]

/-- One record of a batch adds its sighting. -/
theorem sightings_writeRecord (origin : DataOrigin) (stamp : Int) (w : Writing) (r : FlowRecord) :
    (writeRecord p origin stamp w r).flows.sightings =
      addSighting w.flows.sightings (r.stored p.digest) := by
  have hkeyOf : (r.stored p.digest).recordKey = recordKey p.digest r := rfl
  have hjoin : ∀ {old : FlowRow}, w.flows.byKey (recordKey p.digest r) = some old →
      addSighting w.flows.sightings (r.stored p.digest) = w.flows.rows.map fun row =>
        if row.id = old.id
        then { row.sighting with counts := row.counts ⊔ (r.stored p.digest).counts }
        else row.sighting := by
    intro old hold
    obtain ⟨hmem, hkey⟩ := FlowTable.byKey_eq_some.1 hold
    unfold addSighting
    rw [if_pos (mem_sightings_keys.2 (by rw [hkeyOf, hold]; simp)),
      FlowTable.sightings, List.map_map]
    apply List.map_congr_left
    intro row hrow
    have hiff : row.recordKey = recordKey p.digest r ↔ row.id = old.id := by
      constructor
      · intro h
        rw [FlowTable.eq_of_recordKey hrow hmem (h.trans hkey.symm)]
      · intro h
        rw [FlowTable.eq_of_id hrow hmem h, hkey]
    simp only [Function.comp]
    change (if row.recordKey = recordKey p.digest r then _ else _) = _
    simp only [hiff]
    rfl
  rcases writeRecord_cases p origin stamp w r with
    ⟨old, hold, hadds, heq⟩ | ⟨old, hold, _, heq⟩ | ⟨hnone, heq⟩
  · -- Nothing is written: the stored counts are the larger ones.
    rw [heq, hjoin hold]
    apply List.map_congr_left
    intro row hrow
    by_cases hid : row.id = old.id
    · have hrowOld := FlowTable.eq_of_id hrow (FlowTable.byKey_eq_some.1 hold).1 hid
      rw [if_pos hid, hrowOld, counts_of_addsNothing p.digest hadds]
      rfl
    · rw [if_neg hid]
  · rw [heq, hjoin hold]
    have hupdate : ∀ table : FlowTable,
        (table.update ((refreshEdit r origin stamp).on fun row => row.id = old.id)).sightings =
          table.rows.map fun row =>
            if row.id = old.id
            then { row.sighting with counts := row.counts ⊔ (r.stored p.digest).counts }
            else row.sighting := by
      intro table
      unfold FlowTable.sightings
      rw [FlowTable.update_rows, List.map_map]
      apply List.map_congr_left
      intro row _
      simp only [Function.comp]
      rw [FlowTable.apply_on]
      by_cases hid : row.id = old.id
      · rw [if_pos hid, if_pos (by simpa using hid), sighting_refreshEdit p.digest]
      · rw [if_neg hid, if_neg (by simpa using hid)]
    have hsettled : ∀ connKey : String,
        (settleUntracked w.flows connKey).rows.map (fun row =>
          if row.id = old.id
          then { row.sighting with counts := row.counts ⊔ (r.stored p.digest).counts }
          else row.sighting) =
        w.flows.rows.map fun row =>
          if row.id = old.id
          then { row.sighting with counts := row.counts ⊔ (r.stored p.digest).counts }
          else row.sighting := by
      intro connKey
      unfold settleUntracked
      split
      · rfl
      · rw [FlowTable.update_rows, List.map_map]
        apply List.map_congr_left
        intro row _
        simp only [Function.comp]
        rw [FlowTable.apply_on]
        split <;> rfl
    unfold refreshRow
    rw [hupdate]
    split
    · exact hsettled _
    · rfl
  · have hnew : (r.stored p.digest).recordKey ∉ w.flows.sightings.map Sighting.recordKey := by
      rw [mem_sightings_keys, hkeyOf, hnone]
      simp
    rw [heq, addSighting, if_neg hnew]
    exact FlowTable.sightings_insert w.flows _ hnone

/-- The records of a batch add their sightings, one after another. -/
theorem sightings_writeRecords (origin : DataOrigin) (stamp : Int) (db : FlowDb)
    (records : List FlowRecord) :
    (writeRecords p origin stamp db records).flows.sightings =
      (records.map (FlowRecord.stored p.digest)).foldl addSighting db.flows.sightings := by
  have hrun : ∀ (records : List FlowRecord) (w : Writing),
      (records.foldl (writeRecord p origin stamp) w).flows.sightings =
        (records.map (FlowRecord.stored p.digest)).foldl addSighting w.flows.sightings := by
    intro records
    induction records with
    | nil => exact fun _ => rfl
    | cons r records ih =>
        intro w
        rw [List.foldl_cons, ih, sightings_writeRecord origin stamp w r]
        rfl
  exact hrun records _

/-! ## The whole batch -/

theorem sighting_repaired (t : FlowTable) (tuples : List FlowTuple) (r : FlowRow) :
    (repaired t tuples r).sighting = r.sighting := by
  unfold repaired
  split <;> rfl

theorem sighting_settleRow (rows : List FlowRow) (r : FlowRow) :
    (settleRow rows r).sighting = r.sighting := by
  rw [sighting_of_uncounted (uncounted_settleRow rows r)]
  unfold mergeRow
  split <;> rfl

/-- Repairs and settling keep the sightings. -/
theorem sightings_upsertFlows (db : FlowDb) (records : List FlowRecord) :
    (upsertFlows p o db records).1.flows.sightings =
      (records.map (FlowRecord.stored p.digest)).foldl addSighting db.flows.sightings := by
  rw [← sightings_writeRecords o.origin (dbTime o.now) db records]
  unfold FlowTable.sightings
  rw [upsertFlows_rows, repairedTable, repairTuples_rows, List.map_map, List.map_map]
  apply List.map_congr_left
  intro r _
  simp only [Function.comp]
  split
  · rw [sighting_settleRow, sighting_repaired]
  · rw [sighting_repaired]

/-- A batch collects its records. -/
theorem collected_upsertFlows {db : FlowDb} {seen records : List FlowRecord}
    (hdb : Collected p.digest seen db.flows.sightings)
    (h : ∀ r ∈ records, r.WholeMilliseconds) :
    Collected p.digest (seen ++ records) (upsertFlows p o db records).1.flows.sightings := by
  have hstored : records.map (FlowRecord.stored p.digest) =
      records.map (FlowRecord.sighting p.digest) :=
    List.map_congr_left fun r hr => (h r hr).stored_eq p.digest
  rw [sightings_upsertFlows, hstored]
  clear h hstored
  generalize db.flows.sightings = sightings at hdb
  induction records generalizing seen sightings with
  | nil =>
      rw [List.append_nil]
      exact hdb
  | cons r records ih =>
      have hrest := ih _ (hdb.add r)
      apply hrest.congr
      intro q
      simp only [List.cons_append, List.mem_cons, List.mem_append]
      exact or_left_comm

/-! ## Where a row is wanted -/

/-- Every row is in the connection that pairing wants among all sightings of the store. -/
def Paired (t : FlowTable) : Prop :=
  ∀ r ∈ t.rows, r.connKey = wantedIn t.sightings r.sighting

/-- Pairing rows is pairing their sightings. -/
theorem wanted_eq_wantedIn {r : FlowRow} (hr : r ∈ t.rows) :
    t.wanted r = wantedIn t.sightings r.sighting := by
  have hids := tupleRows_ids_nodup t r.tuple
  have hsorted : tupleSightings t.sightings r.tuple =
      (t.tupleRows r.tuple).map FlowRow.sighting := by
    unfold tupleSightings FlowTable.sightings FlowTable.tupleRows
    rw [List.filter_map]
    refine (List.map_insertionSort
      (fun a b : FlowRow =>
        firstThenKey (a.firstDetected, a.recordKey) (b.firstDetected, b.recordKey))
      (fun a b : Sighting =>
        firstThenKey (a.firstDetected, a.recordKey) (b.firstDetected, b.recordKey)) _ _ ?_).symm
    intro a _ b _
    exact Iff.rfl
  have hpairs : pairSightings (tupleSightings t.sightings r.tuple) =
      (pairRows (t.tupleRows r.tuple)).map fun pair =>
        (pair.1.sighting, pair.2.map FlowRow.sighting) := by
    rw [hsorted, pairRows_eq hids]
    unfold pairSightings
    rw [List.filter_map, List.filter_map]
    exact matchFirst_map _ _ rowsWithin Sighting.within (fun _ _ => rfl) _ _
  have hmem := FlowTable.mem_tupleRows.2 ⟨hr, rfl⟩
  rcases wantedKey_cases hids hmem with ⟨hown, hfree⟩ | ⟨q, hpair, hkey⟩
  · refine hown.trans (Eq.symm ?_)
    apply wantedIn_of_free t.sightings_keys_nodup (FlowTable.sighting_mem hr)
    intro s htaken
    change _ ∈ pairSightings (tupleSightings t.sightings r.tuple) at htaken
    rw [hpairs, List.mem_map] at htaken
    obtain ⟨⟨q, partner⟩, hpair, heq⟩ := htaken
    cases partner with
    | none => simp at heq
    | some i =>
        -- The partner has the row's key, so it is the row.
        have hir : i.sighting = r.sighting := by simpa using (Prod.ext_iff.1 heq).2
        have hi := (FlowTable.mem_tupleRows.1
          (mem_inRows.1 (mem_pairRows hids hpair).2.1).1).1
        have hsame := FlowTable.eq_of_recordKey hi hr (congrArg Sighting.recordKey hir)
        exact hfree q (hsame ▸ hpair)
  · refine hkey.trans (Eq.symm ?_)
    refine wantedIn_of_taken t.sightings_keys_nodup (o := q.sighting) ?_
    change _ ∈ pairSightings (tupleSightings t.sightings r.tuple)
    rw [hpairs]
    exact List.mem_map.2 ⟨_, hpair, rfl⟩

/-- A batch pairs the tuples that it touches, and the others were paired before it. -/
theorem paired_upsertFlows {db : FlowDb} (hdb : db.flows.Stored p) (h : Paired db.flows)
    {records : List FlowRecord} : Paired (upsertFlows p o db records).1.flows := by
  obtain ⟨w, hw⟩ : ∃ w, w = writeRecords p o.origin (dbTime o.now) db records := ⟨_, rfl⟩
  have hwrites : WriteInv p db.flows.rows w :=
    hw ▸ writeInv_writeRecords hdb o.origin (dbTime o.now) records
  have hrows : (upsertFlows p o db records).1.flows.rows =
      (w.flows.rows.map (repaired w.flows w.tuples)).map fun r =>
        if r.connKey ∈ (repairedTable p o db records).keys
        then settleRow ((repairedTable p o db records).flows.connRows r.connKey) r else r := by
    rw [upsertFlows_rows, hw]
    conv_lhs => rw [repairedTable, repairTuples_rows]
    rfl
  have hsightings : (upsertFlows p o db records).1.flows.sightings = w.flows.sightings := by
    unfold FlowTable.sightings
    rw [hrows, List.map_map, List.map_map]
    apply List.map_congr_left
    intro r _
    simp only [Function.comp]
    split
    · rw [sighting_settleRow, sighting_repaired]
    · rw [sighting_repaired]
  -- The sightings of a tuple that was not touched are those before the batch.
  have huntouched : ∀ tup ∉ w.tuples,
      (w.flows.sightings.filter fun s => s.tuple = tup) =
        db.flows.sightings.filter fun s => s.tuple = tup := by
    intro tup htup
    unfold FlowTable.sightings
    rw [List.filter_map, List.filter_map]
    apply hwrites.evolves.filter_map_eq
    · intro x _ y _ hxy
      have htuple : x.tuple = y.tuple := (FlowRow.tuple_of_identity hxy.identity).symm
      refine ⟨?_, ?_⟩
      · change decide (x.tuple = tup) = decide (y.tuple = tup)
        rw [htuple]
      · intro hy
        have hy : y.tuple = tup := of_decide_eq_true hy
        rcases hxy.known with hknown | ⟨_, hmem, _⟩
        · exact (sighting_of_uncounted hknown).symm
        · exact absurd (hy ▸ hmem) htup
    · intro y _ hy
      apply decide_eq_false
      intro htuple
      have htuple : y.tuple = tup := htuple
      exact htup (htuple ▸ hy.tuple)
  intro z hz
  rw [hsightings]
  rw [hrows, List.map_map] at hz
  obtain ⟨y, hy, rfl⟩ := List.mem_map.1 hz
  have hzy : ∀ z, z = (if (repaired w.flows w.tuples y).connKey ∈
      (repairedTable p o db records).keys then settleRow ((repairedTable p o db records).flows.connRows
        (repaired w.flows w.tuples y).connKey) (repaired w.flows w.tuples y)
      else repaired w.flows w.tuples y) →
      z.connKey = (repaired w.flows w.tuples y).connKey ∧ z.sighting = y.sighting := by
    rintro z rfl
    split
    · exact ⟨connKey_settleRow _ _, by rw [sighting_settleRow, sighting_repaired]⟩
    · exact ⟨rfl, sighting_repaired _ _ _⟩
  obtain ⟨hconn, hsighting⟩ := hzy _ rfl
  simp only [Function.comp]
  rw [hconn, hsighting]
  by_cases htuple : y.tuple ∈ w.tuples
  · rw [repaired, if_pos htuple]
    exact wanted_eq_wantedIn hy
  · rw [repaired, if_neg htuple, wantedIn_congr (huntouched _ htuple)]
    rcases hwrites.evolves.mem_right hy with ⟨x, hx, hxy⟩ | hnew
    · rcases hxy.known with hknown | ⟨_, hmem, _⟩
      · rw [hxy.connKey, sighting_of_uncounted hknown]
        exact h x hx
      · exact absurd hmem htuple
    · exact absurd hnew.tuple htuple

/-! ## The primary row -/

/-- The primary row of a connection is the one whose key the connection has. -/
theorem isPrimary_iff (h : SoundStore p t) {r : FlowRow} (hr : r ∈ t.rows) :
    r.isPrimary = true ↔ r.connKey = r.recordKey := by
  have hmem := FlowTable.mem_connRows.2 ⟨hr, rfl⟩
  obtain ⟨primary, hprimary, hflag, hout⟩ :=
    (soundConnection_of_merged h.connected h.merged (List.ne_nil_of_mem hmem)).one_primary
  obtain ⟨hprimaryRow, hkey⟩ := FlowTable.mem_connRows.1 hprimary
  -- The primary row was not taken: its taker would be an outbound row of the connection.
  have hown : primary.connKey = primary.recordKey := by
    rcases h.connected.own_or_taken primary hprimaryRow with hown | ⟨hin, q, hq, hqout, _, hqkey⟩
    · exact hown
    · have hqconn := h.connected.outbound hq hqout
      have hqmem : q ∈ t.connRows r.connKey :=
        FlowTable.mem_connRows.2 ⟨hq, by rw [hqconn, hqkey, hkey]⟩
      rw [hout ⟨q, hqmem, hqout⟩] at hin
      exact absurd hin (by decide)
  rw [hflag r hmem]
  constructor
  · rintro rfl
    exact hown
  · intro hrown
    apply FlowTable.eq_of_recordKey hr hprimaryRow
    rw [← hrown, ← hown, hkey]

theorem placed_eq (h : SoundStore p t) (hpaired : Paired t) {r : FlowRow} (hr : r ∈ t.rows) :
    r.placed = r.sighting.placed (wantedIn t.sightings r.sighting) := by
  have hflag : r.isPrimary = decide (r.connKey = r.recordKey) := by
    rw [Bool.eq_iff_iff, decide_eq_true_eq]
    exact isPrimary_iff h hr
  rw [← hpaired r hr]
  simp only [FlowRow.placed, Sighting.placed, hflag]
  rfl

/-! ## Runs -/

/-- The store after some batches, from an empty one. -/
def upsertBatches (p : Primitives) (batches : List (UpsertOptions × List FlowRecord)) : FlowDb :=
  batches.foldl (fun db batch => (upsertFlows p batch.1 db batch.2).1) .empty

/-- What every batch keeps: the store is sound, its rows are where pairing wants them, and it
holds the sightings of the records so far. -/
structure PairedStore (p : Primitives) (records : List FlowRecord) (t : FlowTable) : Prop where
  sound : SoundStore p t
  paired : Paired t
  collected : Collected p.digest records t.sightings

theorem pairedStore_empty (p : Primitives) : PairedStore p [] FlowTable.empty where
  sound := soundStore_empty p
  paired _ hr := absurd hr List.not_mem_nil
  collected := collected_nil p.digest

theorem PairedStore.upsert {db : FlowDb} {seen records : List FlowRecord}
    (h : PairedStore p seen db.flows) (hms : ∀ r ∈ records, r.WholeMilliseconds) :
    PairedStore p (seen ++ records) (upsertFlows p o db records).1.flows where
  sound := h.sound.run (.upsert o records)
  paired := paired_upsertFlows h.sound.stored h.paired
  collected := collected_upsertFlows h.collected hms

theorem pairedStore_upsertBatches (p : Primitives)
    {batches : List (UpsertOptions × List FlowRecord)}
    (hms : ∀ r ∈ batches.flatMap Prod.snd, r.WholeMilliseconds) :
    PairedStore p (batches.flatMap Prod.snd) (upsertBatches p batches).flows := by
  have hrun : ∀ (batches : List (UpsertOptions × List FlowRecord)) (db : FlowDb)
      (seen : List FlowRecord), (∀ r ∈ batches.flatMap Prod.snd, r.WholeMilliseconds) →
      PairedStore p seen db.flows →
      PairedStore p (seen ++ batches.flatMap Prod.snd)
        (batches.foldl (fun db batch => (upsertFlows p batch.1 db batch.2).1) db).flows := by
    intro batches
    induction batches with
    | nil =>
        intro db seen _ hdb
        rw [List.flatMap_nil, List.append_nil]
        exact hdb
    | cons batch batches ih =>
        intro db seen hms hdb
        rw [List.flatMap_cons] at hms ⊢
        rw [List.foldl_cons, ← List.append_assoc]
        apply ih
        · exact fun r hr => hms r (List.mem_append_right _ hr)
        · exact hdb.upsert fun r hr => hms r (List.mem_append_left _ hr)
  exact hrun batches .empty [] hms (pairedStore_empty p)

/-- However the records are split into batches, ordered and repeated, the store ends up with
the rows of one pairing of all records, each with its copies joined. -/
theorem placed_upsertBatches (p : Primitives) (records : List FlowRecord)
    (hms : ∀ r ∈ records, r.WholeMilliseconds)
    (batches : List (UpsertOptions × List FlowRecord))
    (hbatches : ∀ r, r ∈ batches.flatMap Prod.snd ↔ r ∈ records) :
    ((upsertBatches p batches).flows.rows.map FlowRow.placed).Perm
      (placedOnce p.digest records) := by
  have hall : ∀ r ∈ batches.flatMap Prod.snd, r.WholeMilliseconds :=
    fun r hr => hms r ((hbatches r).1 hr)
  have hstore := pairedStore_upsertBatches p hall
  obtain ⟨t, ht⟩ : ∃ t, t = (upsertBatches p batches).flows := ⟨_, rfl⟩
  rw [← ht] at hstore ⊢
  have hplaced : t.rows.map FlowRow.placed =
      t.sightings.map fun s => s.placed (wantedIn t.sightings s) := by
    conv_rhs => rw [FlowTable.sightings, List.map_map]
    exact List.map_congr_left fun r hr => placed_eq hstore.sound hstore.paired hr
  have hcollected := hstore.collected.congr hbatches
  have hperm := hcollected.perm_mergeAll p.digest_injective
  rw [hplaced]
  -- The sightings are those of the joined records, so pairing wants the same of both.
  have hwanted : (fun s : Sighting => s.placed (wantedIn t.sightings s)) = fun s =>
      s.placed (wantedIn ((mergeAll p.digest records).map (FlowRecord.sighting p.digest)) s) := by
    funext s
    rw [wantedIn_perm hperm t.sightings_keys_nodup]
  rw [hwanted]
  exact (hperm.map _).trans
    (placed_groupPairs (mergeAll_keys_nodup p.digest_injective records)).symm

/-- The client's report of a web connection. -/
def webOut : FlowRecord where
  direction := .outbound
  srcIp := "10.0.0.1"
  dstIp := "10.0.0.2"
  srcHref := none
  dstHref := none
  srcHostname := none
  dstHostname := none
  srcManaged := false
  dstManaged := false
  srcMode := none
  dstMode := none
  srcLabels := []
  dstLabels := []
  port := some 443
  proto := 6
  ownProcess := none
  ownUser := none
  windowsService := none
  policyDecision := "allowed"
  firstDetected := seconds 10
  lastDetected := seconds 20
  numConnections := 1
  bytesIn := some 100
  bytesOut := none
  state := none
  transmission := none
  networkHref := none

/-- The server's report of it. -/
def webIn : FlowRecord :=
  { webOut with direction := .inbound, firstDetected := seconds 11, bytesIn := some 90 }

/-- What a live cycle writes with. -/
def liveUpsert : UpsertOptions :=
  { origin := .ingest, now := seconds 30, increments := .cycle, logNewConnections := true }

/-- The two reports, the server's first and the client's twice. -/
theorem placed_upsertBatches_web :
    ((upsertBatches .plain [(liveUpsert, [webIn]), (liveUpsert, [webOut, webOut])]).flows.rows.map
      FlowRow.placed).Perm (placedOnce Primitives.plain.digest [webOut, webIn]) := by
  apply placed_upsertBatches
  · intro r hr
    simp only [List.mem_cons, List.not_mem_nil, or_false] at hr
    rcases hr with rfl | rfl
    · exact ⟨by decide, by decide⟩
    · exact ⟨by decide, by decide⟩
  · intro r
    simp only [List.flatMap_cons, List.flatMap_nil, List.mem_append, List.mem_cons,
      List.not_mem_nil, or_false]
    constructor
    · rintro (rfl | rfl | rfl)
      · exact Or.inr rfl
      · exact Or.inl rfl
      · exact Or.inl rfl
    · rintro (rfl | rfl)
      · exact Or.inr (Or.inl rfl)
      · exact Or.inl rfl

end IllumioOps
