import IllumioOps.Store.Marks

/-!
# What batches record of a connection's growth

A connection with one record from each end holds one mark at any time, whichever end reports
first: the largest count of connections seen on either side (`Held`). So what all batches
recorded of it, with what the batches that record nothing marked, adds up to that count. With
bytes it adds up to the largest total that the primary row has shown, since growth is never
negative (`growth_recorded`).
-/

set_option autoImplicit false

namespace IllumioOps

open Matching Tables

variable {p : Primitives} {o : UpsertOptions} {t : FlowTable} {tup : FlowTuple}

/-! ## One connection -/

/-- At most one record from each end, within the pairing gap of each other in every version. -/
structure OneConnection (p : Primitives) (tup : FlowTuple) (records : List FlowRecord) :
    Prop where
  one_key : ∀ r ∈ records, ∀ s ∈ records, r.tuple = tup → s.tuple = tup →
    r.direction = s.direction → recordKey p.digest r = recordKey p.digest s
  within : ∀ o ∈ records, ∀ i ∈ records, o.tuple = tup → i.tuple = tup →
    o.direction = .outbound → i.direction = .inbound →
    rangesWithin o.firstDetected o.lastDetected i.firstDetected i.lastDetected = true

theorem OneConnection.mono {records records' : List FlowRecord}
    (h : OneConnection p tup records') (hsub : ∀ r ∈ records, r ∈ records') :
    OneConnection p tup records where
  one_key r hr s hs := h.one_key r (hsub r hr) s (hsub s hs)
  within o ho i hi := h.within o (hsub o ho) i (hsub i hi)

/-- Stored ranges that last at least as long are as near. -/
theorem rangesWithin_stored {aFirst aLast bFirst bLast aStored bStored : Int}
    (h : rangesWithin aFirst aLast bFirst bLast = true) (ha : dbTime aLast ≤ aStored)
    (hb : dbTime bLast ≤ bStored) :
    rangesWithin (dbTime aFirst) aStored (dbTime bFirst) bStored = true := by
  unfold rangesWithin pairingMaxGap seconds milliseconds at *
  unfold dbTime milliseconds at *
  rw [decide_eq_true_eq] at *
  omega

/-- The rows of a tuple at most one from each end, and near enough to pair. -/
structure OneEach (tup : FlowTuple) (t : FlowTable) : Prop where
  one : ∀ r ∈ t.rows, ∀ s ∈ t.rows, r.tuple = tup → s.tuple = tup →
    r.direction = s.direction → r = s
  within : ∀ q ∈ t.rows, ∀ i ∈ t.rows, q.tuple = tup → i.tuple = tup →
    q.direction = .outbound → i.direction = .inbound → rowsWithin q i = true

theorem OneConnection.oneEach {records : List FlowRecord} (h : OneConnection p tup records)
    (hstored : t.Stored p) (hreported : ∀ r ∈ t.rows, ReportedIn p records r) :
    OneEach tup t where
  one r hr s hs hrTuple hsTuple hdir := by
    obtain ⟨q, hq, hqkey, _⟩ := hreported r hr
    obtain ⟨q', hq', hqkey', _⟩ := hreported s hs
    have hrq := hstored.standsFor hr hqkey
    have hsq := hstored.standsFor hs hqkey'
    apply FlowTable.eq_of_recordKey hr hs
    rw [hqkey, hqkey']
    apply h.one_key q hq q' hq' (hrq.tuple.symm.trans hrTuple) (hsq.tuple.symm.trans hsTuple)
    exact hrq.direction.symm.trans (hdir.trans hsq.direction)
  within r hr s hs hrTuple hsTuple hout hin := by
    obtain ⟨q, hq, hqkey, hqlast⟩ := hreported r hr
    obtain ⟨q', hq', hqkey', hqlast'⟩ := hreported s hs
    have hrq := hstored.standsFor hr hqkey
    have hsq := hstored.standsFor hs hqkey'
    have hnear := h.within q hq q' hq' (hrq.tuple.symm.trans hrTuple)
      (hsq.tuple.symm.trans hsTuple) (hrq.direction.symm.trans hout)
      (hsq.direction.symm.trans hin)
    unfold rowsWithin
    rw [hrq.firstDetected, hsq.firstDetected]
    exact rangesWithin_stored hnear hqlast hqlast'

/-- Pairing wants all rows of such a tuple in one connection. -/
theorem OneEach.wanted (h : OneEach tup t) :
    ∃ key, ∀ r ∈ t.rows, r.tuple = tup → t.wanted r = key := by
  by_cases hout : ∃ q ∈ t.rows, q.tuple = tup ∧ q.direction = .outbound
  · obtain ⟨q, hq, hqTuple, hqOut⟩ := hout
    refine ⟨q.recordKey, fun r hr hrTuple => ?_⟩
    have hids := tupleRows_ids_nodup t r.tuple
    have hqr : q ∈ t.tupleRows r.tuple :=
      FlowTable.mem_tupleRows.2 ⟨hq, hqTuple.trans hrTuple.symm⟩
    have hrr : r ∈ t.tupleRows r.tuple := FlowTable.mem_tupleRows.2 ⟨hr, rfl⟩
    have htake : ∀ {s}, s ∈ outRows (t.tupleRows r.tuple) → s = q := by
      intro s hs
      obtain ⟨hs, hsOut⟩ := mem_outRows.1 hs
      obtain ⟨hs, hsTuple⟩ := FlowTable.mem_tupleRows.1 hs
      exact h.one s hs q hq (hsTuple.trans hrTuple) hqTuple (hsOut.trans hqOut.symm)
    cases hdir : r.direction with
    | outbound =>
        obtain rfl := h.one r hr q hq hrTuple hqTuple (hdir.trans hqOut.symm)
        rcases FlowTable.wanted_cases hr with hown | ⟨_, _, _, hin, _⟩
        · exact hown
        · rw [hdir] at hin
          exact absurd hin (by decide)
    | inbound =>
        -- the outbound row comes first, and the inbound row is the only one it can take
        have hpair : (q, some r) ∈ pairRows (t.tupleRows r.tuple) := by
          rw [pairRows_eq hids]
          cases houts : outRows (t.tupleRows r.tuple) with
          | nil =>
              have hmem := mem_outRows.2 ⟨hqr, hqOut⟩
              rw [houts] at hmem
              exact absurd hmem List.not_mem_nil
          | cons s outs =>
              obtain rfl : s = q := htake (houts ▸ List.mem_cons_self)
              have hfits : rowsWithin s r = true := h.within s hq r hr hqTuple hrTuple hqOut hdir
              cases hfind : (inRows (t.tupleRows r.tuple)).find? (rowsWithin s) with
              | none =>
                  have hnone := List.find?_eq_none.1 hfind r (mem_inRows.2 ⟨hrr, hdir⟩)
                  exact absurd hfits hnone
              | some i =>
                  obtain ⟨hi, hiIn⟩ := mem_inRows.1 (List.mem_of_find?_eq_some hfind)
                  obtain ⟨hi, hiTuple⟩ := FlowTable.mem_tupleRows.1 hi
                  have hir : i = r := h.one i hi r hr (hiTuple.trans hrTuple) hrTuple
                    (hiIn.trans hdir.symm)
                  simp only [matchFirst, hfind, hir, List.mem_cons, true_or]
        rcases wantedKey_cases hids hrr with ⟨_, hfree⟩ | ⟨s, hs, hkey⟩
        · exact absurd hpair (hfree q)
        · rw [FlowTable.wanted, hkey, htake (mem_pairRows hids hs).1]
  · -- no outbound row takes any of them, and there is at most one
    have hown : ∀ r ∈ t.rows, r.tuple = tup → t.wanted r = r.recordKey := by
      intro r hr hrTuple
      rcases FlowTable.wanted_cases hr with hown | ⟨q, _, _, _, hq, hqOut, hqTuple⟩
      · exact hown
      · exact absurd ⟨q, hq, hqTuple.trans hrTuple, hqOut⟩ hout
    have hin : ∀ r ∈ t.rows, r.tuple = tup → r.direction = .inbound := by
      intro r hr hrTuple
      cases hdir : r.direction with
      | inbound => rfl
      | outbound => exact absurd ⟨r, hr, hrTuple, hdir⟩ hout
    by_cases hsome : ∃ r ∈ t.rows, r.tuple = tup
    · obtain ⟨r, hr, hrTuple⟩ := hsome
      refine ⟨r.recordKey, fun s hs hsTuple => ?_⟩
      rw [hown s hs hsTuple, h.one s hs r hr hsTuple hrTuple
        ((hin s hs hsTuple).trans (hin r hr hrTuple).symm)]
    · exact ⟨"", fun r hr hrTuple => absurd ⟨r, hr, hrTuple⟩ hsome⟩

/-! ## The repairs of a batch -/

/-- Every connection is named after a row of its rows' tuple. -/
theorem Connected.root (h : Connected t) {r : FlowRow} (hr : r ∈ t.rows) :
    ∃ q ∈ t.rows, q.recordKey = r.connKey ∧ q.tuple = r.tuple := by
  rcases h.own_or_taken r hr with hown | ⟨_, q, hq, _, htuple, hkey⟩
  · exact ⟨r, hr, hown.symm, rfl⟩
  · exact ⟨q, hq, hkey, htuple⟩

section Repaired

variable {written : List String} {tuples : List FlowTuple}

theorem marks_repaired (t : FlowTable) (tuples : List FlowTuple) (r : FlowRow) :
    (repaired t tuples r).marks = r.marks := by
  unfold repaired
  split <;> rfl

theorem size_repaired (t : FlowTable) (tuples : List FlowTuple) (r : FlowRow) :
    (repaired t tuples r).size = r.size := by
  unfold repaired
  split <;> rfl

/-- Only connections of the tuples that are paired again change. -/
theorem tuple_of_changed (h : Connected t) {k : String}
    (hk : k ∈ (repairTuples written t tuples).keys) {q : FlowRow}
    (hq : q ∈ (repairTuples written t tuples).flows.connRows k) : q.tuple ∈ tuples := by
  obtain ⟨r, hr, htuple, hkey⟩ := mem_repairTuples_keys.1 hk
  -- the connection is named after a row of a tuple that is paired again
  obtain ⟨x, hx, hxkey, hxtuple⟩ : ∃ x ∈ t.rows, x.recordKey = k ∧ x.tuple = r.tuple := by
    have hmoved : k = r.connKey ∨ k = t.wanted r := by
      rcases hkey with ⟨_, hk⟩ | ⟨_, _, hk⟩
      · exact hk
      · exact Or.inr hk
    rcases hmoved with rfl | rfl
    · exact h.root hr
    · rcases FlowTable.wanted_cases hr with hown | ⟨x, _, hwanted, _, hx, _, hxtuple⟩
      · exact ⟨r, hr, hown.symm, rfl⟩
      · exact ⟨x, hx, hwanted.symm, hxtuple⟩
  obtain ⟨hq, hqkey⟩ := FlowTable.mem_connRows.1 hq
  obtain ⟨y, hy, hykey, hytuple⟩ := (connected_repairTuples h written tuples).root hq
  rw [repairTuples_rows] at hy
  obtain ⟨y₀, hy₀, rfl⟩ := List.mem_map.1 hy
  have hid := identity_repaired t tuples y₀
  have hyx : y₀ = x := by
    apply FlowTable.eq_of_recordKey hy₀ hx
    rw [← FlowRow.recordKey_of_identity hid, hykey, hqkey, hxkey]
  rw [← hytuple, FlowRow.tuple_of_identity hid, hyx, hxtuple]
  exact htuple

/-- The rows of a tuple that pairing wants together are one connection after the repairs. -/
theorem connRows_together (h : Connected t) (htup : tup ∈ tuples) {key : String}
    (hkey : ∀ r ∈ t.rows, r.tuple = tup → t.wanted r = key)
    (hsome : ∃ r ∈ t.rows, r.tuple = tup) :
    (repairTuples written t tuples).flows.connRows key =
      (t.rows.filter fun r => r.tuple = tup).map (repaired t tuples) := by
  have hconn : ∀ r ∈ t.rows, r.tuple = tup → (repaired t tuples r).connKey = key := by
    intro r hr htuple
    rw [repaired, if_pos (htuple ▸ htup)]
    exact hkey r hr htuple
  have hrows := repairTuples_rows written t tuples
  have hconnected := connected_repairTuples h written tuples
  -- the connection is named after a row of the tuple
  obtain ⟨y, hy, hykey, hytuple⟩ : ∃ y ∈ (repairTuples written t tuples).flows.rows,
      y.recordKey = key ∧ y.tuple = tup := by
    obtain ⟨r, hr, htuple⟩ := hsome
    have hmem : repaired t tuples r ∈ (repairTuples written t tuples).flows.rows := by
      rw [hrows]
      exact List.mem_map_of_mem hr
    obtain ⟨y, hy, hykey, hytuple⟩ := hconnected.root hmem
    refine ⟨y, hy, hykey.trans (hconn r hr htuple), hytuple.trans ?_⟩
    exact (FlowRow.tuple_of_identity (identity_repaired t tuples r)).trans htuple
  unfold FlowTable.connRows
  rw [hrows, List.filter_map]
  apply congrArg
  apply List.filter_congr
  intro r hr
  rw [Function.comp, decide_eq_decide]
  constructor
  · intro hrkey
    have hmem : repaired t tuples r ∈ (repairTuples written t tuples).flows.rows := by
      rw [hrows]
      exact List.mem_map_of_mem hr
    obtain ⟨z, hz, hzkey, hztuple⟩ := hconnected.root hmem
    have hzy := FlowTable.eq_of_recordKey hz hy ((hzkey.trans hrkey).trans hykey.symm)
    rw [← FlowRow.tuple_of_identity (identity_repaired t tuples r), ← hztuple, hzy, hytuple]
  · exact hconn r hr

end Repaired

/-! ## One batch -/

/-- The increments about some records. -/
def incrementsOf (keys : List String) (increments : List FlowIncrement) : List FlowIncrement :=
  increments.filter fun i => i.recordKey ∈ keys

/-- What holds of a tuple between batches: its rows are in one connection, they count what its
records did, and they all carry one mark, the count of connections with the bytes recorded. -/
structure Held (p : Primitives) (tup : FlowTuple) (mark : Nat × Int) (seen : List FlowRecord)
    (t : FlowTable) : Prop where
  store : SoundStore p t
  paired : Paired t
  tracked : ∀ r ∈ t.rows, r.countedConnections ≠ none
  reported : ∀ r ∈ t.rows, ReportedIn p seen r
  size : t.sizeOf tup = sizeSeen tup seen
  marked : ∀ r ∈ t.rows, r.tuple = tup → r.HasMark mark
  kept : mark = (0, 0) ∨ ∃ r ∈ t.rows, r.tuple = tup
  connections : mark.1 = (sizeSeen tup seen).connections
  bytes : (sizeSeen tup seen).bytes.getD 0 ≤ mark.2
  not_negative : 0 ≤ mark.2

theorem Held.writes {mark : Nat × Int} {seen : List FlowRecord} {db : FlowDb}
    (h : Held p tup mark seen db.flows) (origin : DataOrigin) (stamp : Int)
    (records : List FlowRecord) :
    TupleWrites p tup db.flows mark (seen ++ records)
      (writeRecords p origin stamp db records) := by
  apply TupleWrites.records
  refine ⟨h.store.stored, h.tracked, h.reported, h.size, ?_, ?_, fun _ => rfl, ?_⟩
  · exact fun r hr htuple => Or.inl (h.marked r hr htuple)
  · rcases h.kept with hzero | ⟨r, hr, htuple⟩
    · exact Or.inl hzero
    · exact Or.inr ⟨r, hr, htuple, h.marked r hr htuple⟩
  · exact fun htup => absurd htup List.not_mem_nil

/-- A mark that covers what the records count stays. -/
theorem markAfter_of_le {mark : Nat × Int} {size : Size} (hconnections : size.connections ≤ mark.1)
    (hbytes : size.bytes.getD 0 ≤ mark.2) : markAfter mark size = mark := by
  rw [markAfter, max_eq_left hconnections, max_eq_left hbytes]

/-- Of lists one after another, one holds all elements of a kind. -/
theorem filter_flatMap_of_one {α β : Type} [DecidableEq α] {keys : List α} (hkeys : keys.Nodup)
    {f : α → List β} {q : β → Bool} {key : α}
    (hone : ∀ k ∈ keys, k ≠ key → (f k).filter q = []) :
    (keys.flatMap f).filter q = if key ∈ keys then (f key).filter q else [] := by
  induction keys with
  | nil => rfl
  | cons k keys ih =>
      obtain ⟨hk, hkeys⟩ := List.nodup_cons.1 hkeys
      have hrest := ih hkeys fun k' hk' => hone k' (List.mem_cons_of_mem _ hk')
      rw [List.flatMap_cons, List.filter_append, hrest]
      by_cases hkey : k = key
      · rw [if_neg (hkey ▸ hk), if_pos (hkey ▸ List.mem_cons_self), List.append_nil, hkey]
      · rw [hone k List.mem_cons_self hkey, List.nil_append]
        simp only [List.mem_cons, Ne.symm hkey, false_or]

/-- The repairs after the writes of a batch. -/
def Writing.repaired (w : Writing) : Repairing := repairTuples w.written w.flows w.tuples

/-- What a batch makes of a row after its writes. -/
def batchRow (w : Writing) (r : FlowRow) : FlowRow :=
  let row := repaired w.flows w.tuples r
  if row.connKey ∈ w.repaired.keys then settleRow (w.repaired.flows.connRows row.connKey) row
  else row

theorem upsertFlows_rows_map (db : FlowDb) (records : List FlowRecord) :
    (upsertFlows p o db records).1.flows.rows =
      (writeRecords p o.origin (dbTime o.now) db records).flows.rows.map
        (batchRow (writeRecords p o.origin (dbTime o.now) db records)) := by
  rw [upsertFlows_rows]
  conv_lhs => rw [repairedTable, repairTuples_rows]
  rw [List.map_map]
  rfl

section BatchRow

variable (w : Writing) (r : FlowRow)

theorem identity_batchRow : (batchRow w r).identity = r.identity := by
  unfold batchRow
  dsimp only
  split
  · rw [identity_settleRow, identity_repaired]
  · rw [identity_repaired]

theorem size_batchRow : (batchRow w r).size = r.size := by
  unfold batchRow
  dsimp only
  split
  · rw [size_settleRow, size_repaired]
  · rw [size_repaired]

theorem lastDetected_batchRow : (batchRow w r).lastDetected = r.lastDetected := by
  have hrepaired : (repaired w.flows w.tuples r).lastDetected = r.lastDetected := by
    unfold repaired
    split <;> rfl
  have hsettled : ∀ rows row, (settleRow rows row).lastDetected = row.lastDetected := by
    intro rows row
    have hsame := congrArg FlowRow.lastDetected (uncounted_settleRow rows row)
    refine hsame.trans ?_
    unfold mergeRow
    split <;> rfl
  unfold batchRow
  dsimp only
  split
  · rw [hsettled, hrepaired]
  · rw [hrepaired]

theorem tracked_batchRow {r : FlowRow} (h : r.countedConnections ≠ none) :
    (batchRow w r).countedConnections ≠ none := by
  have hrepaired := congrArg Prod.fst (marks_repaired w.flows w.tuples r)
  have hmerged := fun rows row => congrArg Prod.fst (marks_mergeRow rows row)
  unfold batchRow
  dsimp only
  split
  · unfold settleRow growthRow
    split
    · exact fun hnone => h (hrepaired.symm.trans ((hmerged _ _).symm.trans hnone))
    · simp [growthEdit, FlowRow.withCounted]
  · exact fun hnone => h (hrepaired.symm.trans hnone)

end BatchRow

section Batch

variable {before : FlowTable} {mark : Nat × Int} {seen records : List FlowRecord} {w : Writing}
  {db : FlowDb} {keys : List String}

/-- A row is of the tuple when its key is one of the tuple's. -/
theorem mem_keys_iff (hstored : t.Stored p) (hreported : ∀ r ∈ t.rows, ReportedIn p records r)
    (hkeys : ∀ r ∈ records, recordKey p.digest r ∈ keys ↔ r.tuple = tup) {r : FlowRow}
    (hr : r ∈ t.rows) : r.recordKey ∈ keys ↔ r.tuple = tup := by
  obtain ⟨q, hq, hkey, _⟩ := hreported r hr
  rw [hkey, hkeys q hq, (hstored.standsFor hr hkey).tuple]
  rfl

theorem Appends.of_other {increments : Increments} {rows : List FlowRow}
    {added : List FlowIncrement} (h : Appends increments rows added)
    (hother : ∀ r ∈ rows, r.recordKey ∉ keys) : incrementsOf keys added = [] := by
  apply List.filter_eq_nil_iff.2
  intro i hi
  obtain ⟨r, hr, hkey⟩ := h.about i hi
  simpa [← hkey] using hother r hr

theorem Appends.of_own {increments : Increments} {rows : List FlowRow}
    {added : List FlowIncrement} (h : Appends increments rows added)
    (hown : ∀ r ∈ rows, r.recordKey ∈ keys) : incrementsOf keys added = added := by
  apply List.filter_eq_self.2
  intro i hi
  obtain ⟨r, hr, hkey⟩ := h.about i hi
  simpa [← hkey] using hown r hr

/-- What a batch records of a tuple: at most one increment, for what its mark grows by. -/
structure RecordsGrowth (increments : Increments) (mark after : Nat × Int)
    (added : List FlowIncrement) : Prop where
  once : added.length ≤ 1
  grows : increments ≠ .none → mark + grownIn added = after
  silent : increments = .none → added = []

/-- A row that the repairs left stands for the record it did. -/
theorem mem_repaired {r : FlowRow} (hr : r ∈ w.repaired.flows.rows) :
    ∃ x ∈ w.flows.rows, repaired w.flows w.tuples x = r := by
  rw [Writing.repaired, repairTuples_rows] at hr
  exact List.mem_map.1 hr

/-- A tuple that was written to is one changed connection, which settling marks. -/
theorem TupleWrites.settled (h : TupleWrites p tup before mark seen w)
    (hconnected : Connected w.flows) (hone : OneConnection p tup seen) (hbytes : 0 ≤ mark.2)
    (htup : tup ∈ w.tuples) :
    ∃ key ∈ w.repaired.keys,
      (∀ r ∈ w.repaired.flows.rows, r.connKey = key ↔ r.tuple = tup) ∧
      (∀ r ∈ w.repaired.flows.connRows key,
        (settleRow (w.repaired.flows.connRows key) r).HasMark (markAfter mark (sizeSeen tup seen))) ∧
      mark + connectionGrowth ((w.repaired.flows.connRows key).map
        (mergeRow (w.repaired.flows.connRows key))) = markAfter mark (sizeSeen tup seen) := by
  obtain ⟨row, hrow, hrowTuple, hrowWritten⟩ := h.written htup
  obtain ⟨key, hkey⟩ := (hone.oneEach h.stored h.reported).wanted
  have hrows : w.repaired.flows.connRows key =
      (w.flows.rows.filter fun r => r.tuple = tup).map (repaired w.flows w.tuples) :=
    connRows_together hconnected htup hkey ⟨row, hrow, hrowTuple⟩
  have hchanged : key ∈ w.repaired.keys := by
    apply mem_repairTuples_keys.2
    refine ⟨row, hrow, hrowTuple ▸ htup, ?_⟩
    rw [hkey row hrow hrowTuple]
    by_cases hmoved : row.connKey = key
    · exact Or.inr ⟨hmoved, hrowWritten, rfl⟩
    · exact Or.inl ⟨hmoved, Or.inr rfl⟩
  refine ⟨key, hchanged, ?_, ?_⟩
  · intro r hr
    obtain ⟨x, hx, rfl⟩ := mem_repaired hr
    rw [FlowRow.tuple_of_identity (identity_repaired w.flows w.tuples x)]
    constructor
    · intro hxkey
      have hmem := FlowTable.mem_connRows.2 ⟨hr, hxkey⟩
      rw [hrows] at hmem
      obtain ⟨y, hy, hyx⟩ := List.mem_map.1 hmem
      have hid := congrArg FlowRow.tuple hyx
      rw [FlowRow.tuple_of_identity (identity_repaired w.flows w.tuples y),
        FlowRow.tuple_of_identity (identity_repaired w.flows w.tuples x)] at hid
      rw [← hid]
      simpa using (List.mem_filter.1 hy).2
    · intro htuple
      rw [repaired, if_pos (htuple ▸ htup)]
      exact hkey x hx htuple
  · have hsizes : Size.joined ((w.repaired.flows.connRows key).map FlowRow.size) =
        sizeSeen tup seen := by
      rw [hrows, List.map_map, ← h.size]
      apply congrArg
      exact List.map_congr_left fun r _ => size_repaired _ _ r
    rw [← hsizes]
    apply settle_marked
    · intro r hr
      rw [hrows] at hr
      obtain ⟨x, hx, rfl⟩ := List.mem_map.1 hr
      obtain ⟨hx, htuple⟩ := List.mem_filter.1 hx
      unfold FlowRow.HasMark
      rw [marks_repaired]
      exact h.marked x hx (of_decide_eq_true htuple)
    · rcases h.kept with hzero | ⟨x, hx, htuple, hmark⟩
      · exact Or.inl hzero
      · refine Or.inr ⟨repaired w.flows w.tuples x, ?_, ?_⟩
        · rw [hrows]
          exact List.mem_map_of_mem (List.mem_filter.2 ⟨hx, by simpa using htuple⟩)
        · unfold FlowRow.HasMark
          rw [marks_repaired]
          exact hmark
    · exact hbytes
    · rw [hrows]
      exact List.ne_nil_of_mem
        (List.mem_map_of_mem (List.mem_filter.2 ⟨hrow, by simpa using hrowTuple⟩))

/-- The changed connections are of tuples that were written to. -/
theorem other_of_untouched (hconnected : Connected w.flows) (htup : tup ∉ w.tuples) {k : String}
    (hk : k ∈ w.repaired.keys) {r : FlowRow} (hr : r ∈ w.repaired.flows.connRows k) :
    r.tuple ≠ tup :=
  fun heq => htup (heq ▸ tuple_of_changed hconnected hk hr)

/-- A row of a tuple that was not written to stays as it is. -/
theorem batchRow_of_untouched (hconnected : Connected w.flows) (htup : tup ∉ w.tuples)
    {r : FlowRow} (hr : r ∈ w.flows.rows) (htuple : r.tuple = tup) : batchRow w r = r := by
  have hsame : repaired w.flows w.tuples r = r := if_neg (htuple ▸ htup)
  have hmem : r ∈ w.repaired.flows.rows := by
    rw [Writing.repaired, repairTuples_rows]
    exact List.mem_map.2 ⟨r, hr, hsame⟩
  have hkey : r.connKey ∉ w.repaired.keys := fun hk =>
    other_of_untouched hconnected htup hk (FlowTable.mem_connRows.2 ⟨hmem, rfl⟩) htuple
  unfold batchRow
  dsimp only
  rw [hsame, if_neg hkey]

/-- The mark of a tuple that was not written to covers what its records count. -/
theorem Held.markAfter_of_untouched (h : Held p tup mark seen db.flows)
    (hwrites : TupleWrites p tup db.flows mark (seen ++ records) w) (htup : tup ∉ w.tuples) :
    markAfter mark (sizeSeen tup (seen ++ records)) = mark := by
  have hsize : sizeSeen tup (seen ++ records) = sizeSeen tup seen := by
    rw [← hwrites.size, ← h.size]
    exact FlowTable.sizeOf_congr (hwrites.untouched htup)
  rw [hsize]
  exact markAfter_of_le h.connections.ge h.bytes

/-- A batch records of a tuple what its mark grows by, in one increment. -/
theorem Held.recordsGrowth (h : Held p tup mark seen db.flows)
    (hone : OneConnection p tup (seen ++ records))
    (hkeys : ∀ r ∈ seen ++ records, recordKey p.digest r ∈ keys ↔ r.tuple = tup) :
    RecordsGrowth o.increments mark (markAfter mark (sizeSeen tup (seen ++ records)))
      (incrementsOf keys (batchIncrements p o db records)) := by
  obtain ⟨w, hw⟩ : ∃ w, w = writeRecords p o.origin (dbTime o.now) db records := ⟨_, rfl⟩
  have hwrites := h.writes o.origin (dbTime o.now) records
  have hevolves := writeInv_writeRecords h.store.stored o.origin (dbTime o.now) records
  have hconnected := h.store.connected.of_evolves hevolves.evolves
    (fun x y hxy => ⟨hxy.identity, hxy.connKey⟩) fun y hy => hy.connKey
  obtain ⟨added, _, hbatch, happends⟩ := batchIncrements_eq p o db records
  have hrepaired : repairedTable p o db records = w.repaired := by
    rw [hw]
    rfl
  rw [← hw] at hwrites hconnected
  rw [hrepaired] at hbatch happends
  -- a merged row is of the tuple when its key is one of the tuple's
  have hmerged : ∀ k, ∀ q ∈ (w.repaired.flows.connRows k).map
      (mergeRow (w.repaired.flows.connRows k)),
      ∃ r ∈ w.repaired.flows.connRows k, q.recordKey ∈ keys ↔ r.tuple = tup := by
    intro k q hq
    obtain ⟨r, hr, rfl⟩ := List.mem_map.1 hq
    obtain ⟨x, hx, hxr⟩ := mem_repaired (FlowTable.mem_connRows.1 hr).1
    have hid : r.identity = x.identity := hxr ▸ identity_repaired w.flows w.tuples x
    have hkey : (mergeRow (w.repaired.flows.connRows k) r).recordKey = r.recordKey := by
      unfold mergeRow
      split <;> rfl
    refine ⟨r, hr, ?_⟩
    rw [hkey, FlowRow.recordKey_of_identity hid, FlowRow.tuple_of_identity hid]
    exact mem_keys_iff hwrites.stored hwrites.reported hkeys hx
  by_cases htup : tup ∈ w.tuples
  · obtain ⟨key, hkey, hrows, _, hgrows⟩ :=
      hwrites.settled hconnected hone h.not_negative htup
    have hown : incrementsOf keys (batchIncrements p o db records) = added key := by
      have hnodup : (w.repaired.keys.dedup.insertionSort (· ≤ ·)).Nodup :=
        (List.perm_insertionSort _ _).nodup_iff.2 (List.nodup_dedup _)
      -- no other connection changed has an increment of the tuple
      have hother : ∀ k ∈ w.repaired.keys.dedup.insertionSort (· ≤ ·), k ≠ key →
          (added k).filter (fun i => i.recordKey ∈ keys) = [] := by
        intro k hk hne
        rw [List.mem_insertionSort, List.mem_dedup] at hk
        refine (happends k hk).of_other fun q hq hmem => hne ?_
        obtain ⟨r, hr, hiff⟩ := hmerged k q hq
        obtain ⟨hr, hrkey⟩ := FlowTable.mem_connRows.1 hr
        rw [← hrkey]
        exact (hrows r hr).2 (hiff.1 hmem)
      rw [hbatch, incrementsOf, filter_flatMap_of_one hnodup hother,
        if_pos (by rw [List.mem_insertionSort, List.mem_dedup]; exact hkey)]
      refine (happends key hkey).of_own fun q hq => ?_
      obtain ⟨r, hr, hiff⟩ := hmerged key q hq
      obtain ⟨hr, hrkey⟩ := FlowTable.mem_connRows.1 hr
      exact hiff.2 ((hrows r hr).1 hrkey)
    rw [hown]
    refine ⟨(happends key hkey).once, fun hne => ?_, (happends key hkey).silent⟩
    rw [(happends key hkey).adds hne]
    exact hgrows
  · have hnone : incrementsOf keys (batchIncrements p o db records) = [] := by
      rw [hbatch, incrementsOf, List.filter_flatMap, List.flatMap_eq_nil_iff]
      intro k hk
      rw [List.mem_insertionSort, List.mem_dedup] at hk
      refine (happends k hk).of_other fun q hq hmem => ?_
      obtain ⟨r, hr, hiff⟩ := hmerged k q hq
      exact other_of_untouched hconnected htup hk hr (hiff.1 hmem)
    rw [hnone, h.markAfter_of_untouched hwrites htup]
    exact ⟨Nat.zero_le 1, fun _ => by rw [grownIn_nil]; exact add_zero mark, fun _ => rfl⟩

/-- A batch leaves on every row of a tuple the mark of what its records count. -/
theorem Held.upsert (h : Held p tup mark seen db.flows)
    (hone : OneConnection p tup (seen ++ records)) :
    Held p tup (markAfter mark (sizeSeen tup (seen ++ records))) (seen ++ records)
      (upsertFlows p o db records).1.flows := by
  obtain ⟨w, hw⟩ : ∃ w, w = writeRecords p o.origin (dbTime o.now) db records := ⟨_, rfl⟩
  have hwrites := h.writes o.origin (dbTime o.now) records
  have hevolves := writeInv_writeRecords h.store.stored o.origin (dbTime o.now) records
  have hconnected := h.store.connected.of_evolves hevolves.evolves
    (fun x y hxy => ⟨hxy.identity, hxy.connKey⟩) fun y hy => hy.connKey
  have hfinal := upsertFlows_rows_map (p := p) (o := o) db records
  rw [← hw] at hwrites hconnected hfinal
  have hrow : ∀ {r}, r ∈ (upsertFlows p o db records).1.flows.rows →
      ∃ x ∈ w.flows.rows, batchRow w x = r := by
    intro r hr
    rw [hfinal] at hr
    exact List.mem_map.1 hr
  have htuples : ∀ x, (batchRow w x).tuple = x.tuple :=
    fun x => FlowRow.tuple_of_identity (identity_batchRow w x)
  constructor
  case store => exact h.store.run (.upsert o records)
  case paired => exact paired_upsertFlows h.store.stored h.paired
  case tracked =>
    intro r hr
    obtain ⟨x, hx, rfl⟩ := hrow hr
    exact tracked_batchRow w (hwrites.tracked x hx)
  case reported =>
    intro r hr
    obtain ⟨x, hx, rfl⟩ := hrow hr
    obtain ⟨q, hq, hkey, hlast⟩ := hwrites.reported x hx
    refine ⟨q, hq, ?_, ?_⟩
    · rw [FlowRow.recordKey_of_identity (identity_batchRow w x), hkey]
    · rw [lastDetected_batchRow]
      exact hlast
  case size =>
    rw [← hwrites.size]
    unfold FlowTable.sizeOf
    rw [hfinal, List.filter_map, List.map_map]
    have hsame : ((fun r : FlowRow => decide (r.tuple = tup)) ∘ batchRow w) =
        fun r => decide (r.tuple = tup) := by
      funext r
      rw [Function.comp, htuples]
    rw [hsame]
    apply congrArg
    exact List.map_congr_left fun r _ => size_batchRow w r
  case marked =>
    intro r hr htuple
    obtain ⟨x, hx, rfl⟩ := hrow hr
    rw [htuples] at htuple
    by_cases htup : tup ∈ w.tuples
    · obtain ⟨key, hkey, hrows, hsettled, _⟩ :=
        hwrites.settled hconnected hone h.not_negative htup
      have hmem : repaired w.flows w.tuples x ∈ w.repaired.flows.rows := by
        rw [Writing.repaired, repairTuples_rows]
        exact List.mem_map_of_mem hx
      have hxkey : (repaired w.flows w.tuples x).connKey = key := by
        rw [hrows _ hmem, FlowRow.tuple_of_identity (identity_repaired w.flows w.tuples x)]
        exact htuple
      unfold batchRow
      dsimp only
      rw [hxkey, if_pos hkey]
      exact hsettled _ (FlowTable.mem_connRows.2 ⟨hmem, hxkey⟩)
    · rw [batchRow_of_untouched hconnected htup hx htuple,
        h.markAfter_of_untouched hwrites htup]
      have hbefore : x ∈ w.flows.rows.filter fun r => r.tuple = tup :=
        List.mem_filter.2 ⟨hx, decide_eq_true htuple⟩
      rw [hwrites.untouched htup] at hbefore
      exact h.marked x (List.mem_filter.1 hbefore).1 htuple
  case kept =>
    by_cases htup : tup ∈ w.tuples
    · obtain ⟨x, hx, htuple, _⟩ := hwrites.written htup
      refine Or.inr ⟨batchRow w x, ?_, (htuples x).trans htuple⟩
      rw [hfinal]
      exact List.mem_map_of_mem hx
    · rw [h.markAfter_of_untouched hwrites htup]
      refine h.kept.imp_right fun ⟨r, hr, htuple⟩ => ?_
      have hbefore : r ∈ db.flows.rows.filter fun r => r.tuple = tup :=
        List.mem_filter.2 ⟨hr, decide_eq_true htuple⟩
      rw [← hwrites.untouched htup] at hbefore
      refine ⟨batchRow w r, ?_, (htuples r).trans htuple⟩
      rw [hfinal]
      exact List.mem_map_of_mem (List.mem_filter.1 hbefore).1
  case connections =>
    have hle : (sizeSeen tup seen).connections ≤ (sizeSeen tup (seen ++ records)).connections := by
      rw [sizeSeen_append]
      exact Size.connections_mono le_sup_left
    exact max_eq_right (h.connections.trans_le hle)
  case bytes => exact le_max_right _ _
  case not_negative => exact le_max_of_le_left h.not_negative

end Batch

/-! ## The primary row -/

/-- A primary row of the tuple shows the bytes of all its records. -/
theorem Held.primary_bytes {mark : Nat × Int} {seen : List FlowRecord}
    (h : Held p tup mark seen t) (hone : OneConnection p tup seen) {r : FlowRow}
    (hr : r ∈ t.rows) (htuple : r.tuple = tup) (hprimary : r.isPrimary = true) :
    bytesTotal r.bytesIn r.bytesOut = (sizeSeen tup seen).bytes := by
  obtain ⟨key, hkey⟩ := (hone.oneEach h.store.stored h.reported).wanted
  have hconn : ∀ s ∈ t.rows, s.tuple = tup → s.connKey = key := by
    intro s hs hsTuple
    rw [h.paired s hs, ← wanted_eq_wantedIn hs]
    exact hkey s hs hsTuple
  -- the connection of the row is the tuple's rows
  have hrows : t.connRows r.connKey = t.rows.filter fun s => s.tuple = tup := by
    apply List.filter_congr
    intro s hs
    rw [decide_eq_decide]
    constructor
    · intro hskey
      obtain ⟨q, hq, hqkey, hqtuple⟩ := h.store.connected.root hr
      obtain ⟨q', hq', hqkey', hqtuple'⟩ := h.store.connected.root hs
      have hqq : q' = q := FlowTable.eq_of_recordKey hq' hq (by rw [hqkey', hskey, hqkey])
      rw [← hqtuple', hqq, hqtuple, htuple]
    · intro hsTuple
      rw [hconn s hs hsTuple, hconn r hr htuple]
  have hmem := FlowTable.mem_connRows.2 ⟨hr, rfl⟩
  have hmerged := h.store.merged r hr
  have hflag : (mergeRow (t.connRows r.connKey) r).isPrimary = true :=
    (congrArg FlowRow.isPrimary hmerged).trans hprimary
  have hshown : bytesTotal (mergeRow (t.connRows r.connKey) r).bytesIn
      (mergeRow (t.connRows r.connKey) r).bytesOut = bytesTotal r.bytesIn r.bytesOut := by
    have hsame := congrArg (fun s : FlowRow => bytesTotal s.bytesIn s.bytesOut) hmerged
    exact hsame
  rw [← hshown, bytes_mergeRow (List.ne_nil_of_mem hmem) hflag, hrows, ← h.size]
  rfl

/-! ## Runs -/

/-- What some batches insert into `flow_increments`, one after another. -/
def recordedFrom (p : Primitives) (db : FlowDb) :
    List (UpsertOptions × List FlowRecord) → List FlowIncrement
  | [] => []
  | batch :: batches =>
      batchIncrements p batch.1 db batch.2 ++
        recordedFrom p (upsertFlows p batch.1 db batch.2).1 batches

/-- Every increment ever recorded. -/
def everRecorded (p : Primitives) (batches : List (UpsertOptions × List FlowRecord)) :
    List FlowIncrement :=
  recordedFrom p .empty batches

/-- How much the rows of a tuple say was recorded. -/
def FlowTable.markOf (t : FlowTable) (tup : FlowTuple) : Nat × Int :=
  let rows := t.rows.filter fun r => r.tuple = tup
  (largestNat (rows.map fun r => r.countedConnections.getD 0),
    largestInt (rows.map fun r => r.countedBytes.getD 0))

/-- What the batches that record nothing mark as recorded. -/
def absorbedFrom (p : Primitives) (tup : FlowTuple) (db : FlowDb) :
    List (UpsertOptions × List FlowRecord) → Nat × Int
  | [] => (0, 0)
  | batch :: batches =>
      let after := (upsertFlows p batch.1 db batch.2).1
      let marked := after.flows.markOf tup
      let had := db.flows.markOf tup
      (if batch.1.increments = .none then (marked.1 - had.1, marked.2 - had.2) else (0, 0)) +
        absorbedFrom p tup after batches

def absorbed (p : Primitives) (tup : FlowTuple)
    (batches : List (UpsertOptions × List FlowRecord)) : Nat × Int :=
  absorbedFrom p tup .empty batches

/-- The largest total of bytes that the records of a tuple came to after any of the batches. -/
def mostBytes (tup : FlowTuple) (batches : List (UpsertOptions × List FlowRecord)) : Int :=
  largestInt (batches.inits.map fun some_ => (sizeSeen tup (some_.flatMap Prod.snd)).bytes.getD 0)

/-- The largest count of connections seen on either side, with the most bytes. -/
def tupleMark (tup : FlowTuple) (batches : List (UpsertOptions × List FlowRecord)) : Nat × Int :=
  (largestNat (((batches.flatMap Prod.snd).filter fun r => r.tuple = tup).map
    FlowRecord.numConnections), mostBytes tup batches)

/-- The keys of a tuple's records. -/
def tupleKeys (p : Primitives) (tup : FlowTuple) (records : List FlowRecord) : List String :=
  (records.filter fun r => r.tuple = tup).map (recordKey p.digest)

section Runs

variable {batches : List (UpsertOptions × List FlowRecord)}

theorem mem_tupleKeys {records : List FlowRecord} {r : FlowRecord} (hr : r ∈ records) :
    recordKey p.digest r ∈ tupleKeys p tup records ↔ r.tuple = tup := by
  unfold tupleKeys
  rw [List.mem_map]
  constructor
  · rintro ⟨q, hq, hkey⟩
    have hid : q.recordId = r.recordId := p.digest_injective hkey
    have htuple : r.tuple = q.tuple := congrArg RecordId.tuple hid.symm
    rw [htuple]
    exact of_decide_eq_true (List.mem_filter.1 hq).2
  · intro htuple
    exact ⟨r, List.mem_filter.2 ⟨hr, decide_eq_true htuple⟩, rfl⟩

theorem tupleMark_fst (tup : FlowTuple) (batches : List (UpsertOptions × List FlowRecord)) :
    (tupleMark tup batches).1 = (sizeSeen tup (batches.flatMap Prod.snd)).connections := by
  rw [sizeSeen, Size.connections_joined, List.map_map]
  rfl

theorem mostBytes_concat (tup : FlowTuple) (batches : List (UpsertOptions × List FlowRecord))
    (batch : UpsertOptions × List FlowRecord) :
    mostBytes tup (batches ++ [batch]) = max (mostBytes tup batches)
      ((sizeSeen tup (batches.flatMap Prod.snd ++ batch.2)).bytes.getD 0) := by
  have hne : batches.inits.map (fun some_ =>
      (sizeSeen tup (some_.flatMap Prod.snd)).bytes.getD 0) ≠ [] :=
    List.ne_nil_of_mem (List.mem_map_of_mem ((List.mem_inits _ _).2 List.nil_prefix))
  have hlast : batches.flatMap Prod.snd ++ batch.2 = (batches ++ [batch]).flatMap Prod.snd := by
    rw [List.flatMap_append, List.flatMap_singleton]
  unfold mostBytes
  rw [List.inits_append, List.map_append, hlast]
  exact largestInt_concat hne _

theorem upsertBatches_concat (p : Primitives)
    (batches : List (UpsertOptions × List FlowRecord))
    (batch : UpsertOptions × List FlowRecord) :
    upsertBatches p (batches ++ [batch]) =
      (upsertFlows p batch.1 (upsertBatches p batches) batch.2).1 := by
  rw [upsertBatches, List.foldl_append]
  rfl

theorem recordedFrom_append (p : Primitives) (db : FlowDb)
    (batches batches' : List (UpsertOptions × List FlowRecord)) :
    recordedFrom p db (batches ++ batches') = recordedFrom p db batches ++
      recordedFrom p (batches.foldl (fun db batch => (upsertFlows p batch.1 db batch.2).1) db)
        batches' := by
  induction batches generalizing db with
  | nil => rfl
  | cons batch batches ih =>
      rw [List.cons_append, recordedFrom, ih, recordedFrom, List.foldl_cons, List.append_assoc]

theorem absorbedFrom_append (p : Primitives) (tup : FlowTuple) (db : FlowDb)
    (batches batches' : List (UpsertOptions × List FlowRecord)) :
    absorbedFrom p tup db (batches ++ batches') = absorbedFrom p tup db batches +
      absorbedFrom p tup (batches.foldl (fun db batch => (upsertFlows p batch.1 db batch.2).1) db)
        batches' := by
  induction batches generalizing db with
  | nil => exact (zero_add _).symm
  | cons batch batches ih =>
      rw [List.cons_append, absorbedFrom, ih, absorbedFrom, List.foldl_cons, add_assoc]

theorem absorbedFrom_one (p : Primitives) (tup : FlowTuple) (db : FlowDb)
    (batch : UpsertOptions × List FlowRecord) :
    absorbedFrom p tup db [batch] =
      if batch.1.increments = .none then
        ((((upsertFlows p batch.1 db batch.2).1.flows.markOf tup).1 - (db.flows.markOf tup).1),
          (((upsertFlows p batch.1 db batch.2).1.flows.markOf tup).2 - (db.flows.markOf tup).2))
      else (0, 0) := by
  rw [absorbedFrom, absorbedFrom]
  exact add_zero _

/-- A store without rows holds nothing of any tuple. -/
theorem held_empty (p : Primitives) (tup : FlowTuple) :
    Held p tup (0, 0) [] FlowTable.empty where
  store := soundStore_empty p
  paired _ hr := absurd hr List.not_mem_nil
  tracked _ hr := absurd hr List.not_mem_nil
  reported _ hr := absurd hr List.not_mem_nil
  size := rfl
  marked _ hr := absurd hr List.not_mem_nil
  kept := Or.inl rfl
  connections := rfl
  bytes := le_rfl
  not_negative := le_rfl

/-- The mark of a tuple grows by what the records of a batch count. -/
theorem tupleMark_concat (tup : FlowTuple) (batches : List (UpsertOptions × List FlowRecord))
    (batch : UpsertOptions × List FlowRecord) :
    tupleMark tup (batches ++ [batch]) = markAfter (tupleMark tup batches)
      (sizeSeen tup (batches.flatMap Prod.snd ++ batch.2)) := by
  have hle : (tupleMark tup batches).1 ≤
      (sizeSeen tup (batches.flatMap Prod.snd ++ batch.2)).connections := by
    rw [tupleMark_fst, sizeSeen_append]
    exact Size.connections_mono le_sup_left
  apply Prod.ext
  · rw [tupleMark_fst, List.flatMap_append, List.flatMap_singleton]
    exact (max_eq_right hle).symm
  · exact mostBytes_concat tup batches batch

/-- After any batches the rows of a tuple carry the mark of all its records. -/
theorem held_upsertBatches (batches : List (UpsertOptions × List FlowRecord))
    (hone : OneConnection p tup (batches.flatMap Prod.snd)) :
    Held p tup (tupleMark tup batches) (batches.flatMap Prod.snd)
      (upsertBatches p batches).flows := by
  induction batches using List.reverseRecOn with
  | nil => exact held_empty p tup
  | append_singleton batches batch ih =>
      rw [upsertBatches_concat, tupleMark_concat]
      rw [List.flatMap_append, List.flatMap_singleton] at hone ⊢
      exact (ih (hone.mono fun r hr => List.mem_append_left _ hr)).upsert hone

/-- The mark on the rows of a tuple. -/
theorem Held.markOf {mark : Nat × Int} {seen : List FlowRecord} (h : Held p tup mark seen t) :
    t.markOf tup = mark := by
  have hcounted : ∀ r ∈ t.rows.filter (fun r => r.tuple = tup),
      r.countedConnections.getD 0 = mark.1 ∧ r.countedBytes.getD 0 = mark.2 := by
    intro r hr
    obtain ⟨hr, htuple⟩ := List.mem_filter.1 hr
    have hmark := h.marked r hr (of_decide_eq_true htuple)
    have hfst : r.countedConnections = some mark.1 := congrArg Prod.fst hmark
    have hsnd : r.countedBytes = some mark.2 := congrArg Prod.snd hmark
    rw [hfst, hsnd]
    exact ⟨rfl, rfl⟩
  unfold FlowTable.markOf
  dsimp only
  cases hrows : t.rows.filter (fun r => r.tuple = tup) with
  | nil =>
      rcases h.kept with rfl | ⟨r, hr, htuple⟩
      · rfl
      · have hmem : r ∈ t.rows.filter (fun r => r.tuple = tup) :=
          List.mem_filter.2 ⟨hr, decide_eq_true htuple⟩
        rw [hrows] at hmem
        exact absurd hmem List.not_mem_nil
  | cons r rows =>
      rw [hrows] at hcounted
      have hr := hcounted r List.mem_cons_self
      apply Prod.ext
      · apply largestNat_eq
        · exact List.forall_mem_map.2 fun s hs => (hcounted s hs).1.le
        · exact Or.inr (List.mem_map.2 ⟨r, List.mem_cons_self, hr.1⟩)
      · change largestInt ((r :: rows).map fun r => r.countedBytes.getD 0) = mark.2
        apply largestInt_eq
        · exact List.forall_mem_map.2 fun s hs => (hcounted s hs).2.le
        · exact List.mem_map.2 ⟨r, List.mem_cons_self, hr.2⟩

theorem le_markAfter (mark : Nat × Int) (size : Size) : mark ≤ markAfter mark size :=
  ⟨le_max_left _ _, le_max_left _ _⟩

/-- What the batches recorded of a tuple and what they absorbed add up to its mark. -/
theorem recorded_add_absorbed {keys : List String}
    (batches : List (UpsertOptions × List FlowRecord))
    (hone : OneConnection p tup (batches.flatMap Prod.snd))
    (hkeys : ∀ r ∈ batches.flatMap Prod.snd, recordKey p.digest r ∈ keys ↔ r.tuple = tup) :
    grownIn (incrementsOf keys (everRecorded p batches)) + absorbed p tup batches =
      tupleMark tup batches := by
  induction batches using List.reverseRecOn with
  | nil => rfl
  | append_singleton batches batch ih =>
      have hafter := held_upsertBatches _ hone
      rw [List.flatMap_append, List.flatMap_singleton] at hone hkeys
      have honeBefore := hone.mono fun r hr => List.mem_append_left batch.2 hr
      have hbefore := held_upsertBatches batches honeBefore
      have hrecords := hbefore.recordsGrowth (o := batch.1) hone hkeys
      have hsum := ih honeBefore fun r hr => hkeys r (List.mem_append_left _ hr)
      rw [← tupleMark_concat] at hrecords
      have hrecorded : everRecorded p (batches ++ [batch]) = everRecorded p batches ++
          batchIncrements p batch.1 (upsertBatches p batches) batch.2 := by
        rw [everRecorded, recordedFrom_append]
        exact congrArg _ (List.append_nil _)
      have habsorbed : absorbed p tup (batches ++ [batch]) = absorbed p tup batches +
          if batch.1.increments = .none then
            ((tupleMark tup (batches ++ [batch])).1 - (tupleMark tup batches).1,
              (tupleMark tup (batches ++ [batch])).2 - (tupleMark tup batches).2)
          else (0, 0) := by
        rw [absorbed, absorbedFrom_append, absorbedFrom_one, ← hbefore.markOf, ← hafter.markOf,
          upsertBatches_concat]
        rfl
      have hle : tupleMark tup batches ≤ tupleMark tup (batches ++ [batch]) := by
        rw [tupleMark_concat]
        exact le_markAfter _ _
      rw [hrecorded, habsorbed, incrementsOf, List.filter_append, grownIn_append,
        add_add_add_comm]
      change _ + absorbed p tup batches + (grownIn (incrementsOf keys _) + _) = _
      rw [show grownIn (List.filter (fun i => decide (i.recordKey ∈ keys))
        (everRecorded p batches)) + absorbed p tup batches = tupleMark tup batches from hsum]
      by_cases hnone : batch.1.increments = .none
      · -- the batch records nothing, and marks what the tuple grew
        rw [if_pos hnone, hrecords.silent hnone, grownIn_nil, Prod.mk_zero_zero, zero_add]
        apply Prod.ext
        · exact Nat.add_sub_cancel' hle.1
        · exact add_sub_cancel _ _
      · rw [if_neg hnone, Prod.mk_zero_zero, add_zero]
        exact hrecords.grows hnone

/-! ## What is recorded in the end -/

/-- No record of the tuple counts bytes below zero. -/
def BytesNotNegative (tup : FlowTuple) (records : List FlowRecord) : Prop :=
  ∀ r ∈ records, r.tuple = tup → r.size.NotNegative

/-- Then the most bytes are those of all records. -/
theorem mostBytes_of_notNegative {batches : List (UpsertOptions × List FlowRecord)}
    (h : BytesNotNegative tup (batches.flatMap Prod.snd)) :
    mostBytes tup batches = (sizeSeen tup (batches.flatMap Prod.snd)).bytes.getD 0 := by
  have hall : (sizeSeen tup (batches.flatMap Prod.snd)).NotNegative := by
    apply Size.notNegative_joined
    intro s hs
    obtain ⟨r, hr, rfl⟩ := List.mem_map.1 hs
    obtain ⟨hr, htuple⟩ := List.mem_filter.1 hr
    exact h r hr (of_decide_eq_true htuple)
  apply largestInt_eq
  · intro n hn
    obtain ⟨some_, hsome, rfl⟩ := List.mem_map.1 hn
    obtain ⟨rest, rfl⟩ := (List.mem_inits _ _).1 hsome
    apply Size.bytes_mono _ hall
    rw [List.flatMap_append, sizeSeen_append]
    exact le_sup_left
  · exact List.mem_map.2 ⟨batches, (List.mem_inits _ _).2 (List.prefix_refl _), rfl⟩

/-- What the increments ever recorded of a tuple add up to. -/
def recordedOf (p : Primitives) (tup : FlowTuple)
    (batches : List (UpsertOptions × List FlowRecord)) : Nat × Int :=
  grownIn (incrementsOf (tupleKeys p tup (batches.flatMap Prod.snd)) (everRecorded p batches))

/-- What some batches record of a tuple, from an empty store on. -/
structure GrowthRecorded (p : Primitives) (tup : FlowTuple)
    (batches : List (UpsertOptions × List FlowRecord)) : Prop where
  /-- increments and absorbed growth add up to the largest count seen on either side -/
  connections : (recordedOf p tup batches).1 + (absorbed p tup batches).1 =
    largestNat (((batches.flatMap Prod.snd).filter fun r => r.tuple = tup).map
      FlowRecord.numConnections)
  /-- the bytes add up to the most that any batch left -/
  bytes : (recordedOf p tup batches).2 + (absorbed p tup batches).2 = mostBytes tup batches
  /-- which is what the primary row shows when no count is below zero -/
  primary : BytesNotNegative tup (batches.flatMap Prod.snd) →
    ∀ r ∈ (upsertBatches p batches).flows.rows, r.tuple = tup → r.isPrimary = true →
      ∀ b, bytesTotal r.bytesIn r.bytesOut = some b →
        (recordedOf p tup batches).2 + (absorbed p tup batches).2 = b
  not_negative : ∀ i ∈ everRecorded p batches, ∀ b ∈ i.bytes, 0 ≤ b
  /-- and each batch records what it brings, whichever side it is from -/
  each : ∀ earlier batch later, batches = earlier ++ batch :: later →
    RecordsGrowth batch.1.increments (tupleMark tup earlier) (tupleMark tup (earlier ++ [batch]))
      (incrementsOf (tupleKeys p tup (batches.flatMap Prod.snd))
        (batchIncrements p batch.1 (upsertBatches p earlier) batch.2))

/-- No batch records a growth below zero. -/
theorem bytes_recordedFrom (p : Primitives) (db : FlowDb)
    (batches : List (UpsertOptions × List FlowRecord)) :
    ∀ i ∈ recordedFrom p db batches, ∀ b ∈ i.bytes, 0 ≤ b := by
  induction batches generalizing db with
  | nil => exact fun i hi => absurd hi List.not_mem_nil
  | cons batch batches ih =>
      intro i hi
      rcases List.mem_append.1 hi with hi | hi
      · obtain ⟨added, _, hbatch, happends⟩ := batchIncrements_eq p batch.1 db batch.2
        rw [hbatch] at hi
        obtain ⟨k, hk, hi⟩ := List.mem_flatMap.1 hi
        rw [List.mem_insertionSort, List.mem_dedup] at hk
        exact (happends k hk).not_negative i hi
      · exact ih _ i hi

/-- Whatever batches report a connection, in whichever order and however often, what they record
and absorb of it is the largest count seen on either side. -/
theorem growth_recorded (p : Primitives) (tup : FlowTuple)
    (batches : List (UpsertOptions × List FlowRecord))
    (hone : OneConnection p tup (batches.flatMap Prod.snd)) : GrowthRecorded p tup batches := by
  have hsum := recorded_add_absorbed batches hone fun r hr => mem_tupleKeys (p := p) hr
  have hbytes : (recordedOf p tup batches).2 + (absorbed p tup batches).2 =
      mostBytes tup batches := congrArg Prod.snd hsum
  have hheld := held_upsertBatches batches hone
  refine ⟨congrArg Prod.fst hsum, hbytes, ?_, bytes_recordedFrom p _ batches, ?_⟩
  · intro hpositive r hr htuple hprimary b hb
    rw [hbytes, mostBytes_of_notNegative hpositive,
      ← hheld.primary_bytes hone hr htuple hprimary, hb]
    rfl
  · rintro earlier batch later rfl
    have hsplit : (earlier ++ batch :: later).flatMap Prod.snd =
        earlier.flatMap Prod.snd ++ batch.2 ++ later.flatMap Prod.snd := by
      rw [List.flatMap_append, List.flatMap_cons, List.append_assoc]
    have hsub : ∀ r ∈ earlier.flatMap Prod.snd ++ batch.2,
        r ∈ (earlier ++ batch :: later).flatMap Prod.snd := by
      intro r hr
      rw [hsplit]
      exact List.mem_append_left _ hr
    have hnow := hone.mono hsub
    have hbefore := held_upsertBatches earlier
      (hnow.mono fun r hr => List.mem_append_left _ hr)
    rw [tupleMark_concat]
    exact hbefore.recordsGrowth hnow fun r hr => mem_tupleKeys (hsub r hr)

end Runs

/-- The reports of a web connection, the server's first and the client's twice. -/
def webBatches : List (UpsertOptions × List FlowRecord) :=
  [(liveUpsert, [webIn]), ({ liveUpsert with increments := .none }, [webOut]),
    ({ liveUpsert with increments := .late }, [{ webOut with numConnections := 4 }])]

theorem growth_recorded_web : GrowthRecorded .plain webOut.tuple webBatches := by
  apply growth_recorded
  refine ⟨?_, ?_⟩
  · decide
  · decide

/-- A client's report that counts bytes below zero. -/
def webNegative : FlowRecord := { webOut with bytesIn := some (-5) }

/-- The growth recorded of it is no negative number, so it is not what the row shows. -/
theorem negative_bytes_unrecorded :
    ¬ ∀ (p : Primitives) (tup : FlowTuple) (batches : List (UpsertOptions × List FlowRecord)),
      OneConnection p tup (batches.flatMap Prod.snd) →
      ∀ r ∈ (upsertBatches p batches).flows.rows, r.tuple = tup → r.isPrimary = true →
        ∀ b, bytesTotal r.bytesIn r.bytesOut = some b →
          (recordedOf p tup batches).2 + (absorbed p tup batches).2 = b := by
  intro h
  have hone : OneConnection .plain webOut.tuple
      ([(liveUpsert, [webNegative])].flatMap Prod.snd) := by
    refine ⟨?_, ?_⟩
    · decide
    · decide
  have hrows : ((upsertBatches .plain [(liveUpsert, [webNegative])]).flows.rows.map fun r =>
      (r.tuple, r.isPrimary, bytesTotal r.bytesIn r.bytesOut)) =
      [(webOut.tuple, true, some (-5))] := by decide
  obtain ⟨r, hr, heq⟩ := List.mem_map.1 (hrows ▸ List.mem_cons_self)
  have hsum := h .plain webOut.tuple _ hone r hr (congrArg Prod.fst heq)
    (congrArg (fun x => x.2.1) heq) (-5) (congrArg (fun x => x.2.2) heq)
  exact absurd hsum (by decide)

end IllumioOps
