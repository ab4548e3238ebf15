import IllumioOps.Store.Writes

/-!
# The connections of the store

One PCE record is one row, and the two ends of a connection share a connection key. Over
any run of batches and expiries a connection holds at most one row of each direction, one
row of it is primary, the primary row shows the larger byte counts, and each row shows the
other side's process and user. `Connected` and `Merged` are the two invariants behind this:
who belongs together, and that every row is as merging its connection leaves it.
-/

set_option autoImplicit false

namespace IllumioOps

open Matching Tables

variable {p : Primitives} {o : UpsertOptions} {t t' : FlowTable}

/-! ## Expiry -/

/-- Whether a connection is older than the cutoff and, with an archive, archived whole. -/
def expired (t : FlowTable) (cutoff : Int) (archivedDays : Option (Int → Bool))
    (connKey : String) : Bool :=
  let found := t.connRows connKey
  found ≠ [] && largestInt (found.map FlowRow.lastDetected) < dbTime cutoff &&
    match archivedDays with
    | none => true
    | some archived => found.all fun r => archived r.day

/-- `delete_connections_before`: of these connections, the expired ones are deleted whole. -/
def deleteConnectionsBefore (t : FlowTable) (cutoff : Int) (connKeys : List String)
    (archivedDays : Option (Int → Bool)) : FlowTable × Nat :=
  let doomed := connKeys.dedup.filter (expired t cutoff archivedDays)
  (t.delete fun r => r.connKey ∈ doomed, doomed.length)

/-! ## Who belongs together -/

/-- Every row is in a connection of its own, or it is an inbound row in the connection of an
outbound row of its tuple, which no other row takes. -/
structure Connected (t : FlowTable) : Prop where
  own_or_taken : ∀ r ∈ t.rows, r.connKey = r.recordKey ∨
    r.direction = .inbound ∧ ∃ q ∈ t.rows, q.direction = .outbound ∧ q.tuple = r.tuple ∧
      q.recordKey = r.connKey
  taken_once : ∀ r ∈ t.rows, ∀ s ∈ t.rows, r.connKey ≠ r.recordKey → s.connKey ≠ s.recordKey →
    r.connKey = s.connKey → r = s

theorem connected_empty : Connected FlowTable.empty where
  own_or_taken _ hr := absurd hr List.not_mem_nil
  taken_once _ hr := absurd hr List.not_mem_nil

/-- An outbound row is in its own connection. -/
theorem Connected.outbound (h : Connected t) {r : FlowRow} (hr : r ∈ t.rows)
    (hout : r.direction = .outbound) : r.connKey = r.recordKey := by
  rcases h.own_or_taken r hr with hown | ⟨hin, _⟩
  · exact hown
  · rw [hout] at hin
    exact absurd hin (by decide)

/-- A connection holds at most one row of each direction. -/
theorem Connected.eq_of_direction (h : Connected t) {r s : FlowRow} (hr : r ∈ t.rows)
    (hs : s ∈ t.rows) (hkey : r.connKey = s.connKey) (hdir : r.direction = s.direction) :
    r = s := by
  -- A row in its own connection meets no inbound row that an outbound row took.
  have hmixed : ∀ r ∈ t.rows, ∀ s ∈ t.rows, r.connKey = s.connKey → r.direction = s.direction →
      r.connKey = r.recordKey → s.connKey ≠ s.recordKey → False := by
    intro r hr s hs hkey hdir hown htaken
    rcases h.own_or_taken s hs with hsown | ⟨hin, q, hq, hout, _, hqkey⟩
    · exact htaken hsown
    · have hqr : q = r := FlowTable.eq_of_recordKey hq hr (by rw [hqkey, ← hkey, hown])
      rw [hqr, hdir, hin] at hout
      exact absurd hout (by decide)
  by_cases hrown : r.connKey = r.recordKey <;> by_cases hsown : s.connKey = s.recordKey
  · exact FlowTable.eq_of_recordKey hr hs (by rw [← hrown, hkey, hsown])
  · exact (hmixed r hr s hs hkey hdir hrown hsown).elim
  · exact (hmixed s hs r hr hkey.symm hdir.symm hsown hrown).elim
  · exact h.taken_once r hr s hs hrown hsown hkey

/-- Updates that move no row and inserts of rows on their own keep the connections. -/
theorem Connected.of_evolves {N : FlowRow → Prop} {R : FlowRow → FlowRow → Prop}
    (h : Connected t) (hrows : Evolves R N t.rows t'.rows)
    (hR : ∀ x y, R x y → y.identity = x.identity ∧ y.connKey = x.connKey)
    (hN : ∀ y, N y → y.connKey = y.recordKey) : Connected t' where
  own_or_taken y hy := by
    rcases hrows.mem_right hy with ⟨x, hx, hxy⟩ | hnew
    · obtain ⟨hid, hconn⟩ := hR x y hxy
      rw [hconn, FlowRow.recordKey_of_identity hid, FlowRow.direction_of_identity hid,
        FlowRow.tuple_of_identity hid]
      rcases h.own_or_taken x hx with hown | ⟨hin, q, hq, hout, htuple, hkey⟩
      · exact Or.inl hown
      · obtain ⟨q', hq', hqq'⟩ := hrows.mem_left hq
        have hqid := (hR q q' hqq').1
        refine Or.inr ⟨hin, q', hq', ?_, ?_, ?_⟩
        · rw [FlowRow.direction_of_identity hqid, hout]
        · rw [FlowRow.tuple_of_identity hqid, htuple]
        · rw [FlowRow.recordKey_of_identity hqid, hkey]
    · exact Or.inl (hN y hnew)
  taken_once y hy z hz hytaken hztaken hkey := by
    rcases hrows.mem_right hy with ⟨x, hx, hxy⟩ | hnew
    · rcases hrows.mem_right hz with ⟨x', hx', hxz⟩ | hnew
      · obtain ⟨hid, hconn⟩ := hR x y hxy
        obtain ⟨hid', hconn'⟩ := hR x' z hxz
        rw [hconn, FlowRow.recordKey_of_identity hid] at hytaken
        rw [hconn', FlowRow.recordKey_of_identity hid'] at hztaken
        have hxx' : x = x' := h.taken_once x hx x' hx' hytaken hztaken
          (by rw [← hconn, hkey, hconn'])
        apply FlowTable.eq_of_recordKey hy hz
        rw [FlowRow.recordKey_of_identity hid, FlowRow.recordKey_of_identity hid', hxx']
      · exact absurd (hN z hnew) hztaken
    · exact absurd (hN y hnew) hytaken

/-! ## What pairing wants -/

theorem mem_outRows {rows : List FlowRow} {r : FlowRow} :
    r ∈ outRows rows ↔ r ∈ rows ∧ r.direction = .outbound := by
  simp [outRows]

theorem mem_inRows {rows : List FlowRow} {r : FlowRow} :
    r ∈ inRows rows ↔ r ∈ rows ∧ r.direction = .inbound := by
  simp [inRows]

/-- The rows of one tuple have different ids. -/
theorem tupleRows_ids_nodup (t : FlowTable) (tup : FlowTuple) :
    ((t.tupleRows tup).map FlowRow.id).Nodup := by
  have hperm := List.perm_insertionSort (fun a b : FlowRow =>
    firstThenKey (a.firstDetected, a.recordKey) (b.firstDetected, b.recordKey))
    (t.rows.filter fun r => r.tuple = tup)
  exact (hperm.map FlowRow.id).nodup_iff.2 (t.ids_unique.sublist (List.filter_sublist.map _))

theorem inRows_ids_nodup {rows : List FlowRow} (h : (rows.map FlowRow.id).Nodup) :
    ((inRows rows).map FlowRow.id).Nodup :=
  h.sublist (List.filter_sublist.map _)

theorem pairRows_eq {rows : List FlowRow} (h : (rows.map FlowRow.id).Nodup) :
    pairRows rows = matchFirst rowsWithin (outRows rows) (inRows rows) :=
  firstFit_pairs_eq rowsWithin (inRows_ids_nodup h) (outRows rows)

/-- The two rows of a pair. -/
theorem mem_pairRows {rows : List FlowRow} (h : (rows.map FlowRow.id).Nodup) {q i : FlowRow}
    (hpair : (q, some i) ∈ pairRows rows) :
    q ∈ outRows rows ∧ i ∈ inRows rows ∧ rowsWithin q i = true := by
  rw [pairRows_eq h] at hpair
  exact matchFirst_mem hpair

/-- An outbound row has one partner at most. -/
theorem pairRows_partner_unique {rows : List FlowRow} (h : (rows.map FlowRow.id).Nodup)
    {q i j : FlowRow} (hi : (q, some i) ∈ pairRows rows) (hj : (q, some j) ∈ pairRows rows) :
    i = j := by
  have hfst : ((pairRows rows).map Prod.fst).Nodup := by
    rw [pairRows_eq h, matchFirst_fst]
    exact (List.Nodup.of_map _ h).sublist List.filter_sublist
  have heq := List.inj_on_of_nodup_map hfst hi hj rfl
  simpa using heq

/-- Pairing wants an inbound row that was taken with its taker, any other row on its own. -/
theorem wantedKey_cases {rows : List FlowRow} (h : (rows.map FlowRow.id).Nodup) {r : FlowRow}
    (hr : r ∈ rows) :
    (wantedKey rows r = r.recordKey ∧ ∀ q, (q, some r) ∉ pairRows rows) ∨
      ∃ q, (q, some r) ∈ pairRows rows ∧ wantedKey rows r = q.recordKey := by
  unfold wantedKey
  cases hfind : (pairRows rows).find? fun pair => pair.2.any fun i => i.id = r.id with
  | none =>
      refine Or.inl ⟨rfl, fun q hq => ?_⟩
      have hnone := List.find?_eq_none.1 hfind _ hq
      simp at hnone
  | some pair =>
      obtain ⟨q, partner⟩ := pair
      have htaken := List.find?_some hfind
      have hmem := List.mem_of_find?_eq_some hfind
      cases partner with
      | none => simp at htaken
      | some i =>
          have hid : i.id = r.id := by simpa using htaken
          have hi := (mem_inRows.1 (mem_pairRows h hmem).2.1).1
          have hir : i = r := List.inj_on_of_nodup_map h hi hr hid
          exact Or.inr ⟨q, hir ▸ hmem, rfl⟩

/-- A row that pairing wants elsewhere is an inbound row taken by an outbound row. -/
theorem FlowTable.wanted_cases {r : FlowRow} (hr : r ∈ t.rows) :
    t.wanted r = r.recordKey ∨ ∃ q, (q, some r) ∈ pairRows (t.tupleRows r.tuple) ∧
      t.wanted r = q.recordKey ∧ r.direction = .inbound ∧ q ∈ t.rows ∧ q.direction = .outbound ∧
      q.tuple = r.tuple := by
  have hids := tupleRows_ids_nodup t r.tuple
  rcases wantedKey_cases hids (FlowTable.mem_tupleRows.2 ⟨hr, rfl⟩) with
    ⟨hown, _⟩ | ⟨q, hpair, hkey⟩
  · exact Or.inl hown
  · obtain ⟨hq, hi, _⟩ := mem_pairRows hids hpair
    obtain ⟨hqrows, hqout⟩ := mem_outRows.1 hq
    obtain ⟨hqmem, hqtuple⟩ := FlowTable.mem_tupleRows.1 hqrows
    exact Or.inr ⟨q, hpair, hkey, (mem_inRows.1 hi).2, hqmem, hqout, hqtuple⟩

/-! ## A batch keeps the connections -/

/-- A repaired row that is not on its own was taken by an outbound row of its tuple. -/
theorem repaired_taken (h : Connected t) {tuples : List FlowTuple} {r : FlowRow}
    (hr : r ∈ t.rows) (htaken : (repaired t tuples r).connKey ≠ r.recordKey) :
    r.direction = .inbound ∧ ∃ q ∈ t.rows, q.direction = .outbound ∧ q.tuple = r.tuple ∧
      q.recordKey = (repaired t tuples r).connKey := by
  by_cases htuple : r.tuple ∈ tuples
  · have hrepaired : repaired t tuples r = r.withConnKey (t.wanted r) := if_pos htuple
    rw [hrepaired] at htaken ⊢
    rcases FlowTable.wanted_cases hr with hown | ⟨q, _, hkey, hin, hq, hout, hqtuple⟩
    · exact absurd hown htaken
    · exact ⟨hin, q, hq, hout, hqtuple, hkey.symm⟩
  · have hrepaired : repaired t tuples r = r := if_neg htuple
    rw [hrepaired] at htaken ⊢
    rcases h.own_or_taken r hr with hown | hgiven
    · exact absurd hown htaken
    · exact hgiven

/-- Pairing tuples again keeps the connections. -/
theorem connected_repairTuples (h : Connected t) (written : List String)
    (tuples : List FlowTuple) : Connected (repairTuples written t tuples).flows where
  own_or_taken z hz := by
    rw [repairTuples_rows] at hz ⊢
    obtain ⟨r, hr, rfl⟩ := List.mem_map.1 hz
    have hid := identity_repaired t tuples r
    rw [FlowRow.recordKey_of_identity hid, FlowRow.direction_of_identity hid,
      FlowRow.tuple_of_identity hid]
    by_cases hown : (repaired t tuples r).connKey = r.recordKey
    · exact Or.inl hown
    · obtain ⟨hin, q, hq, hout, htuple, hkey⟩ := repaired_taken h hr hown
      have hqid := identity_repaired t tuples q
      refine Or.inr ⟨hin, repaired t tuples q, List.mem_map_of_mem hq, ?_, ?_, ?_⟩
      · rw [FlowRow.direction_of_identity hqid, hout]
      · rw [FlowRow.tuple_of_identity hqid, htuple]
      · rw [FlowRow.recordKey_of_identity hqid, hkey]
  taken_once y hy z hz hytaken hztaken hkey := by
    rw [repairTuples_rows] at hy hz
    obtain ⟨r, hr, rfl⟩ := List.mem_map.1 hy
    obtain ⟨s, hs, rfl⟩ := List.mem_map.1 hz
    rw [FlowRow.recordKey_of_identity (identity_repaired t tuples r)] at hytaken
    rw [FlowRow.recordKey_of_identity (identity_repaired t tuples s)] at hztaken
    obtain ⟨_, q, hq, _, hqtuple, hqkey⟩ := repaired_taken h hr hytaken
    obtain ⟨_, q', hq', _, hqtuple', hqkey'⟩ := repaired_taken h hs hztaken
    -- Both were taken by the same outbound row, so they are of one tuple.
    have hqq' : q = q' := FlowTable.eq_of_recordKey hq hq' (by rw [hqkey, hqkey', hkey])
    have htuple : r.tuple = s.tuple := by rw [← hqtuple, ← hqtuple', hqq']
    have hrs : r = s := by
      by_cases hmem : r.tuple ∈ tuples
      · have hrr : repaired t tuples r = r.withConnKey (t.wanted r) := if_pos hmem
        have hss : repaired t tuples s = s.withConnKey (t.wanted s) :=
          if_pos (htuple ▸ hmem)
        rw [hrr] at hytaken hkey
        rw [hss] at hztaken hkey
        rcases FlowTable.wanted_cases hr with hown | ⟨a, ha, hakey, _, hat, _⟩
        · exact absurd hown hytaken
        · rcases FlowTable.wanted_cases hs with hown | ⟨b, hb, hbkey, _, hbt, _⟩
          · exact absurd hown hztaken
          · have hab : a = b := FlowTable.eq_of_recordKey hat hbt (by rw [← hakey, ← hbkey]; exact hkey)
            rw [← htuple, ← hab] at hb
            exact pairRows_partner_unique (tupleRows_ids_nodup t r.tuple) ha hb
      · have hrr : repaired t tuples r = r := if_neg hmem
        have hss : repaired t tuples s = s := if_neg (htuple ▸ hmem)
        rw [hrr] at hytaken hkey
        rw [hss] at hztaken hkey
        exact h.taken_once r hr s hs hytaken hztaken hkey
    rw [hrs]

/-- A batch keeps the connections. -/
theorem connected_upsertFlows {db : FlowDb} (hdb : db.flows.Stored p) (h : Connected db.flows)
    (records : List FlowRecord) : Connected (upsertFlows p o db records).1.flows := by
  have hwrites := writeInv_writeRecords hdb o.origin (dbTime o.now) records
  have hwritten := h.of_evolves hwrites.evolves (fun x y hxy => ⟨hxy.identity, hxy.connKey⟩)
    fun y hy => hy.connKey
  have hrepaired : Connected (repairedTable p o db records).flows := connected_repairTuples hwritten _ _
  apply hrepaired.of_evolves (N := fun _ => False) (R := fun x y =>
    y.identity = x.identity ∧ y.connKey = x.connKey)
  · rw [upsertFlows_rows]
    apply Evolves.map
    intro x _
    split <;> simp
  · exact fun _ _ hxy => hxy
  · exact fun _ hfalse => hfalse.elim

/-! ## Merging a connection -/

/-- The process that the row's own side reports. -/
def FlowRow.ownProcess (r : FlowRow) : Option Name :=
  if r.direction = .outbound then r.initiatorProcess else r.serviceProcess

/-- The user that the row's own side reports. -/
def FlowRow.ownUser (r : FlowRow) : Option Name :=
  if r.direction = .outbound then r.initiatorUser else r.serviceUser

/-- The process that the row shows of the other side. -/
def FlowRow.otherProcess (r : FlowRow) : Option Name :=
  if r.direction = .outbound then r.serviceProcess else r.initiatorProcess

/-- The user that the row shows of the other side. -/
def FlowRow.otherUser (r : FlowRow) : Option Name :=
  if r.direction = .outbound then r.serviceUser else r.initiatorUser

/-- Two rows give the other rows of their connection the same. -/
structure GivesSame (r s : FlowRow) : Prop where
  id : s.id = r.id
  direction : s.direction = r.direction
  process : s.ownProcess = r.ownProcess
  user : s.ownUser = r.ownUser
  bytesIn : s.ownBytesIn = r.ownBytesIn
  bytesOut : s.ownBytesOut = r.ownBytesOut

theorem givesSame_uncounted (r : FlowRow) : GivesSame r r.uncounted :=
  ⟨rfl, rfl, rfl, rfl, rfl, rfl⟩

theorem GivesSame.trans {r s q : FlowRow} (h : GivesSame r s) (h' : GivesSame s q) :
    GivesSame r q where
  id := h'.id.trans h.id
  direction := h'.direction.trans h.direction
  process := h'.process.trans h.process
  user := h'.user.trans h.user
  bytesIn := h'.bytesIn.trans h.bytesIn
  bytesOut := h'.bytesOut.trans h.bytesOut

theorem GivesSame.of_uncounted {r s : FlowRow} (h : s.uncounted = r.uncounted) :
    GivesSame r s where
  id := FlowRow.id_of_identity (FlowRow.identity_of_uncounted h)
  direction := FlowRow.direction_of_identity (FlowRow.identity_of_uncounted h)
  process := by
    have heq := congrArg FlowRow.ownProcess h
    exact heq
  user := by
    have heq := congrArg FlowRow.ownUser h
    exact heq
  bytesIn := by
    have heq := congrArg FlowRow.ownBytesIn h
    exact heq
  bytesOut := by
    have heq := congrArg FlowRow.ownBytesOut h
    exact heq

/-- Merging changes only what a row shows of its connection. -/
theorem givesSame_mergeRow (rows : List FlowRow) (r : FlowRow) : GivesSame r (mergeRow rows r) := by
  unfold mergeRow
  split
  · exact ⟨rfl, rfl, rfl, rfl, rfl, rfl⟩
  · refine ⟨rfl, rfl, ?_, ?_, rfl, rfl⟩
    · cases hdir : r.direction <;> simp [mergeEdit, FlowRow.ownProcess, hdir]
    · cases hdir : r.direction <;> simp [mergeEdit, FlowRow.ownUser, hdir]

theorem givesSame_settleRow (rows : List FlowRow) (r : FlowRow) : GivesSame r (settleRow rows r) :=
  (givesSame_mergeRow rows r).trans (GivesSame.of_uncounted (uncounted_settleRow rows r))

section MergeMap

variable {f : FlowRow → FlowRow} (hf : ∀ r, GivesSame r (f r))

include hf

theorem outRows_map (rows : List FlowRow) : outRows (rows.map f) = (outRows rows).map f := by
  unfold outRows
  rw [List.filter_map]
  congr 1
  apply List.filter_congr
  intro r _
  simp [(hf r).direction]

theorem inRows_map (rows : List FlowRow) : inRows (rows.map f) = (inRows rows).map f := by
  unfold inRows
  rw [List.filter_map]
  congr 1
  apply List.filter_congr
  intro r _
  simp [(hf r).direction]

/-- Merging reads of the other rows only what they give. -/
theorem mergeRow_map (rows : List FlowRow) (r : FlowRow) :
    mergeRow (rows.map f) r = mergeRow rows r := by
  have hprimary : choosePrimary (rows.map f) = (choosePrimary rows).map f := by
    unfold choosePrimary
    rw [outRows_map hf, inRows_map hf]
    cases outRows rows with
    | nil => simp
    | cons q _ => rfl
  have houts : ∀ {g : FlowRow → Option Name},
      (∀ q, q.direction = .outbound → g (f q) = g q) →
      (outRows (rows.map f)).map g = (outRows rows).map g := by
    intro g hg
    rw [outRows_map hf, List.map_map]
    exact List.map_congr_left fun q hq => hg q (mem_outRows.1 hq).2
  have hins : ∀ {g : FlowRow → Option Name},
      (∀ q, q.direction = .inbound → g (f q) = g q) →
      (inRows (rows.map f)).map g = (inRows rows).map g := by
    intro g hg
    rw [inRows_map hf, List.map_map]
    exact List.map_congr_left fun q hq => hg q (mem_inRows.1 hq).2
  have hip : ∀ q : FlowRow, q.direction = .outbound →
      (f q).initiatorProcess = q.initiatorProcess := by
    intro q hq
    simpa [FlowRow.ownProcess, (hf q).direction, hq] using (hf q).process
  have hiu : ∀ q : FlowRow, q.direction = .outbound → (f q).initiatorUser = q.initiatorUser := by
    intro q hq
    simpa [FlowRow.ownUser, (hf q).direction, hq] using (hf q).user
  have hsp : ∀ q : FlowRow, q.direction = .inbound →
      (f q).serviceProcess = q.serviceProcess := by
    intro q hq
    simpa [FlowRow.ownProcess, (hf q).direction, hq] using (hf q).process
  have hsu : ∀ q : FlowRow, q.direction = .inbound → (f q).serviceUser = q.serviceUser := by
    intro q hq
    simpa [FlowRow.ownUser, (hf q).direction, hq] using (hf q).user
  have hbi : (rows.map f).map FlowRow.ownBytesIn = rows.map FlowRow.ownBytesIn := by
    rw [List.map_map]
    exact List.map_congr_left fun q _ => (hf q).bytesIn
  have hbo : (rows.map f).map FlowRow.ownBytesOut = rows.map FlowRow.ownBytesOut := by
    rw [List.map_map]
    exact List.map_congr_left fun q _ => (hf q).bytesOut
  unfold mergeRow
  rw [hprimary]
  cases choosePrimary rows with
  | none => rfl
  | some primary =>
      simp only [Option.map_some, mergeEdit, houts hip, houts hiu, hins hsp, hins hsu, hbi, hbo,
        (hf primary).id]

end MergeMap

/-- Merging a merged row again changes nothing. -/
theorem mergeRow_mergeRow (rows : List FlowRow) (r : FlowRow) :
    mergeRow rows (mergeRow rows r) = mergeRow rows r := by
  unfold mergeRow
  cases choosePrimary rows with
  | none => rfl
  | some primary => cases hdir : r.direction <;> simp [mergeEdit, hdir]

theorem uncounted_mergeRow_congr (rows : List FlowRow) {r s : FlowRow}
    (h : r.uncounted = s.uncounted) :
    (mergeRow rows r).uncounted = (mergeRow rows s).uncounted := by
  have hcommute : ∀ q : FlowRow, (mergeRow rows q).uncounted = mergeRow rows q.uncounted := by
    intro q
    unfold mergeRow
    split <;> rfl
  rw [hcommute, hcommute, h]

/-- Every row is as merging its connection leaves it. -/
def Merged (t : FlowTable) : Prop :=
  ∀ r ∈ t.rows, (mergeRow (t.connRows r.connKey) r).uncounted = r.uncounted

/-- A changed connection after the batch: its rows after the repairs, settled. -/
theorem connRows_upsertFlows (db : FlowDb) (records : List FlowRecord) {k : String}
    (hk : k ∈ (repairedTable p o db records).keys) :
    (upsertFlows p o db records).1.flows.connRows k =
      ((repairedTable p o db records).flows.connRows k).map
        (settleRow ((repairedTable p o db records).flows.connRows k)) := by
  obtain ⟨s, hs⟩ : ∃ s, s = repairedTable p o db records := ⟨_, rfl⟩
  have hrows := upsertFlows_rows (p := p) (o := o) db records
  rw [← hs] at hk hrows ⊢
  conv_lhs => rw [FlowTable.connRows, hrows, List.filter_map]
  have hsame : ((fun r : FlowRow => decide (r.connKey = k)) ∘ fun r =>
      if r.connKey ∈ s.keys then settleRow (s.flows.connRows r.connKey) r else r) =
      fun r => decide (r.connKey = k) := by
    funext r
    simp only [Function.comp]
    split <;> simp
  rw [hsame]
  apply List.map_congr_left
  intro r hr
  have hrk : r.connKey = k := by simpa using (List.mem_filter.1 hr).2
  rw [hrk, if_pos hk]

/-- A connection that did not change holds what it held, but for the counts recorded. -/
theorem connRows_of_unchanged {db : FlowDb} (hdb : db.flows.Stored p)
    (records : List FlowRecord) {k : String} (hk : k ∉ (repairedTable p o db records).keys) :
    ((upsertFlows p o db records).1.flows.connRows k).map FlowRow.uncounted =
      (db.flows.connRows k).map FlowRow.uncounted := by
  apply (upsertFlows_evolves hdb records).filter_map_eq
  · intro x _ y _ hxy
    rcases hxy.known with hknown | ⟨⟨hxkey, hykey⟩, _⟩
    · exact ⟨by rw [FlowRow.connKey_of_uncounted hknown], fun _ => hknown.symm⟩
    · have hx : x.connKey ≠ k := fun h => hk (h ▸ hxkey)
      have hy : y.connKey ≠ k := fun h => hk (h ▸ hykey)
      simp [hx, hy]
  · intro y _ hy
    have hne : y.connKey ≠ k := fun h => hk (h ▸ hy.2.1)
    simp [hne]

/-- A batch merges the connections that it changes and leaves the others merged. -/
theorem merged_upsertFlows {db : FlowDb} (hdb : db.flows.Stored p) (h : Merged db.flows)
    (records : List FlowRecord) : Merged (upsertFlows p o db records).1.flows := by
  intro z hz
  by_cases hkey : z.connKey ∈ (repairedTable p o db records).keys
  · -- The connection was settled: its rows are what settling made of them.
    have hgroup := connRows_upsertFlows (p := p) (o := o) db records hkey
    have hmem : z ∈ (upsertFlows p o db records).1.flows.connRows z.connKey :=
      FlowTable.mem_connRows.2 ⟨hz, rfl⟩
    rw [hgroup] at hmem ⊢
    obtain ⟨y, _, hy⟩ := List.mem_map.1 hmem
    rw [mergeRow_map (givesSame_settleRow _)]
    have hyu := uncounted_settleRow ((repairedTable p o db records).flows.connRows z.connKey) y
    rw [hy] at hyu
    rw [uncounted_mergeRow_congr _ (s := mergeRow _ y), mergeRow_mergeRow, hyu]
    exact hyu
  · -- The connection did not change, and was merged.
    have hgroup := connRows_of_unchanged hdb records hkey
    rcases (upsertFlows_evolves hdb records).mem_right hz with ⟨x, hx, hxz⟩ | hnew
    · rcases hxz.known with hknown | ⟨⟨_, hzkey⟩, _⟩
      · have hread : ∀ rows : List FlowRow, mergeRow (rows.map FlowRow.uncounted) z =
            mergeRow rows z := fun rows => mergeRow_map givesSame_uncounted rows z
        rw [← hread, hgroup, hread, FlowRow.connKey_of_uncounted hknown,
          uncounted_mergeRow_congr _ hknown, h x hx, hknown]
      · exact absurd hzkey hkey
    · exact absurd hnew.2.1 hkey

/-! ## Deleting whole connections -/

section Delete

variable {cutoff : Int} {connKeys : List String} {archivedDays : Option (Int → Bool)}

/-- A row is deleted with its whole connection or not at all. -/
theorem mem_deleteConnectionsBefore {r : FlowRow} :
    r ∈ (deleteConnectionsBefore t cutoff connKeys archivedDays).1.rows ↔
      r ∈ t.rows ∧ r.connKey ∉ connKeys.dedup.filter (expired t cutoff archivedDays) := by
  unfold deleteConnectionsBefore
  rw [FlowTable.mem_delete, decide_eq_false_iff_not]

/-- A connection that is left is left whole. -/
theorem connRows_deleteConnectionsBefore {k : String}
    (hk : k ∉ connKeys.dedup.filter (expired t cutoff archivedDays)) :
    (deleteConnectionsBefore t cutoff connKeys archivedDays).1.connRows k = t.connRows k := by
  unfold FlowTable.connRows deleteConnectionsBefore
  rw [FlowTable.delete_rows, List.filter_filter]
  apply List.filter_congr
  intro r _
  by_cases hrk : r.connKey = k
  · simp only [hrk, hk, decide_true, decide_false, Bool.not_false, Bool.and_self]
  · simp [hrk]

theorem stored_deleteConnectionsBefore (h : t.Stored p) :
    (deleteConnectionsBefore t cutoff connKeys archivedDays).1.Stored p :=
  fun r hr => h r (mem_deleteConnectionsBefore.1 hr).1

theorem connected_deleteConnectionsBefore (h : Connected t) :
    Connected (deleteConnectionsBefore t cutoff connKeys archivedDays).1 where
  own_or_taken r hr := by
    obtain ⟨hr, hkept⟩ := mem_deleteConnectionsBefore.1 hr
    rcases h.own_or_taken r hr with hown | ⟨hin, q, hq, hout, htuple, hkey⟩
    · exact Or.inl hown
    · -- The outbound row that took it is in the same connection.
      refine Or.inr ⟨hin, q, mem_deleteConnectionsBefore.2 ⟨hq, ?_⟩, hout, htuple, hkey⟩
      rwa [h.outbound hq hout, hkey]
  taken_once r hr s hs :=
    h.taken_once r (mem_deleteConnectionsBefore.1 hr).1 s (mem_deleteConnectionsBefore.1 hs).1

theorem merged_deleteConnectionsBefore (h : Merged t) :
    Merged (deleteConnectionsBefore t cutoff connKeys archivedDays).1 := by
  intro r hr
  obtain ⟨hr, hkept⟩ := mem_deleteConnectionsBefore.1 hr
  rw [connRows_deleteConnectionsBefore hkept]
  exact h r hr

end Delete

/-! ## What a connection shows -/

/-- The maximum of the known counts; unknown when none is known. -/
def IsLargest (counts : List (Option Int)) : Option Int → Prop
  | none => ∀ c ∈ counts, c = none
  | some n => some n ∈ counts ∧ ∀ m, some m ∈ counts → m ≤ n

theorem isLargest_largest (counts : List (Option Int)) : IsLargest counts (largest counts) := by
  induction counts with
  | nil => exact fun c hc => absurd hc List.not_mem_nil
  | cons c counts ih =>
      have hcons : largest (c :: counts) = larger c (largest counts) := rfl
      rw [hcons]
      cases c with
      | none =>
          rw [larger_none_left]
          cases hrest : largest counts with
          | none =>
              rw [hrest] at ih
              intro d hd
              rcases List.mem_cons.1 hd with hd | hd
              · exact hd
              · exact ih d hd
          | some n =>
              rw [hrest] at ih
              exact ⟨List.mem_cons_of_mem _ ih.1, fun m hm => ih.2 m (by simpa using hm)⟩
      | some k =>
          cases hrest : largest counts with
          | none =>
              rw [hrest] at ih
              refine ⟨List.mem_cons_self, fun m hm => ?_⟩
              rcases List.mem_cons.1 hm with hm | hm
              · exact le_of_eq (Option.some.inj hm)
              · exact absurd (ih _ hm) (by simp)
          | some n =>
              rw [hrest] at ih
              refine ⟨?_, fun m hm => ?_⟩
              · rcases max_choice k n with hmax | hmax
                · rw [hmax]
                  exact List.mem_cons_self
                · rw [hmax]
                  exact List.mem_cons_of_mem _ ih.1
              · rcases List.mem_cons.1 hm with hm | hm
                · exact (le_of_eq (Option.some.inj hm)).trans (le_max_left _ _)
                · exact (ih.2 m hm).trans (le_max_right _ _)

/-- A connection as a reader of the store relies on it. -/
structure SoundConnection (rows : List FlowRow) : Prop where
  one_of_each : ∀ r ∈ rows, ∀ s ∈ rows, r.direction = s.direction → r = s
  one_primary : ∃ primary ∈ rows, (∀ r ∈ rows, r.isPrimary = true ↔ r = primary) ∧
    ((∃ r ∈ rows, r.direction = .outbound) → primary.direction = .outbound)
  primary_bytes : ∀ r ∈ rows, r.isPrimary = true →
    IsLargest (rows.map FlowRow.ownBytesIn) r.bytesIn ∧
      IsLargest (rows.map FlowRow.ownBytesOut) r.bytesOut
  other_bytes : ∀ r ∈ rows, r.isPrimary = false →
    r.bytesIn = r.ownBytesIn ∧ r.bytesOut = r.ownBytesOut
  partner_names : ∀ r ∈ rows, ∀ s ∈ rows, s.direction ≠ r.direction →
    r.otherProcess = s.ownProcess ∧ r.otherUser = s.ownUser
  no_partner : ∀ r ∈ rows, (∀ s ∈ rows, s.direction = r.direction) →
    r.otherProcess = none ∧ r.otherUser = none

/-- The chosen primary row is one of the rows, an outbound one when there is one. -/
theorem choosePrimary_spec {rows : List FlowRow} (hne : rows ≠ []) :
    ∃ primary ∈ rows, choosePrimary rows = some primary ∧
      ((∃ r ∈ rows, r.direction = .outbound) → primary.direction = .outbound) := by
  unfold choosePrimary
  cases houts : outRows rows with
  | cons q outs =>
      have hq : q ∈ outRows rows := houts ▸ List.mem_cons_self
      exact ⟨q, (mem_outRows.1 hq).1, rfl, fun _ => (mem_outRows.1 hq).2⟩
  | nil =>
      have hnone : ∀ r ∈ rows, r.direction = .inbound := by
        intro r hr
        cases hdir : r.direction with
        | inbound => rfl
        | outbound =>
            have hmem : r ∈ outRows rows := mem_outRows.2 ⟨hr, hdir⟩
            rw [houts] at hmem
            exact absurd hmem List.not_mem_nil
      have hins : inRows rows = rows := by
        apply List.filter_eq_self.2
        intro r hr
        simp [hnone r hr]
      rw [hins]
      cases rows with
      | nil => exact absurd rfl hne
      | cons r rows =>
          refine ⟨r, List.mem_cons_self, rfl, ?_⟩
          rintro ⟨s, hs, hout⟩
          rw [hnone s hs] at hout
          exact absurd hout (by decide)

/-- The first known name of rows that are all the same row. -/
theorem firstName_of_unique {rows : List FlowRow} {name : FlowRow → Option Name} {s : FlowRow}
    (hs : s ∈ rows) (hunique : ∀ r ∈ rows, r = s) : firstName (rows.map name) = name s := by
  unfold firstName
  rw [List.findSome?_map]
  cases hname : name s with
  | none =>
      apply List.findSome?_eq_none_iff.2
      intro r hr
      rw [hunique r hr, Function.comp, hname, id]
  | some n =>
      cases rows with
      | nil => exact absurd hs List.not_mem_nil
      | cons r rows =>
          have hr := hunique r List.mem_cons_self
          subst hr
          rw [List.findSome?_cons, Function.comp, hname, id]

/-- Connected and merged rows make sound connections. -/
theorem soundConnection_of_merged (hconn : Connected t) (hmerged : Merged t) {k : String}
    (hk : t.connRows k ≠ []) : SoundConnection (t.connRows k) := by
  obtain ⟨rows, hrows⟩ : ∃ rows, rows = t.connRows k := ⟨_, rfl⟩
  have hmem : ∀ {r}, r ∈ rows → r ∈ t.rows ∧ r.connKey = k := by
    intro r hr
    rw [hrows] at hr
    exact FlowTable.mem_connRows.1 hr
  have hone : ∀ r ∈ rows, ∀ s ∈ rows, r.direction = s.direction → r = s := by
    intro r hr s hs hdir
    exact hconn.eq_of_direction (hmem hr).1 (hmem hs).1
      ((hmem hr).2.trans (hmem hs).2.symm) hdir
  rw [← hrows] at hk ⊢
  obtain ⟨primary, hprimary, hchosen, hout⟩ := choosePrimary_spec hk
  -- Every row is what the merge makes of it.
  have hrow : ∀ r ∈ rows, ((mergeEdit rows primary).apply r).uncounted = r.uncounted := by
    intro r hr
    have h := hmerged r (hmem hr).1
    rw [(hmem hr).2, ← hrows, mergeRow, hchosen] at h
    exact h
  have hflag : ∀ r ∈ rows, r.isPrimary = true ↔ r = primary := by
    intro r hr
    have h : decide (r.id = primary.id) = r.isPrimary := congrArg FlowRow.isPrimary (hrow r hr)
    rw [← h, decide_eq_true_eq]
    constructor
    · exact FlowTable.eq_of_id (hmem hr).1 (hmem hprimary).1
    · intro heq
      rw [heq]
  have houtNames : ∀ r ∈ rows, r.direction = .outbound →
      r.serviceProcess = firstName ((inRows rows).map FlowRow.serviceProcess) ∧
        r.serviceUser = firstName ((inRows rows).map FlowRow.serviceUser) := by
    intro r hr hdir
    have hp := congrArg FlowRow.serviceProcess (hrow r hr)
    have hu := congrArg FlowRow.serviceUser (hrow r hr)
    simp only [FlowRow.uncounted, FlowRow.withCounted, mergeEdit, hdir, if_true] at hp hu
    exact ⟨hp.symm, hu.symm⟩
  have hinNames : ∀ r ∈ rows, r.direction = .inbound →
      r.initiatorProcess = firstName ((outRows rows).map FlowRow.initiatorProcess) ∧
        r.initiatorUser = firstName ((outRows rows).map FlowRow.initiatorUser) := by
    intro r hr hdir
    have hp := congrArg FlowRow.initiatorProcess (hrow r hr)
    have hu := congrArg FlowRow.initiatorUser (hrow r hr)
    simp only [FlowRow.uncounted, FlowRow.withCounted, mergeEdit, hdir, if_true] at hp hu
    exact ⟨hp.symm, hu.symm⟩
  refine ⟨hone, ⟨primary, hprimary, hflag, hout⟩, ?_, ?_, ?_, ?_⟩
  · intro r hr hrp
    have hid : r.id = primary.id := congrArg FlowRow.id ((hflag r hr).1 hrp)
    have hin := congrArg FlowRow.bytesIn (hrow r hr)
    have hbo := congrArg FlowRow.bytesOut (hrow r hr)
    simp only [FlowRow.uncounted, FlowRow.withCounted, mergeEdit, hid, decide_true,
      if_true] at hin hbo
    rw [← hin, ← hbo]
    exact ⟨isLargest_largest _, isLargest_largest _⟩
  · intro r hr hrp
    have hid : r.id ≠ primary.id := by
      intro heq
      have hrprimary := FlowTable.eq_of_id (hmem hr).1 (hmem hprimary).1 heq
      rw [(hflag r hr).2 hrprimary] at hrp
      exact absurd hrp (by decide)
    have hin := congrArg FlowRow.bytesIn (hrow r hr)
    have hbo := congrArg FlowRow.bytesOut (hrow r hr)
    simp only [FlowRow.uncounted, FlowRow.withCounted, mergeEdit, hid, decide_false,
      if_false] at hin hbo
    exact ⟨hin.symm, hbo.symm⟩
  · intro r hr s hs hdir
    cases hr' : r.direction with
    | outbound =>
        -- The inbound row is the only one.
        have hsin : s.direction = .inbound := by
          cases hs' : s.direction with
          | inbound => rfl
          | outbound => exact absurd (hs'.trans hr'.symm) hdir
        have hunique : ∀ q ∈ inRows rows, q = s := by
          intro q hq
          obtain ⟨hq, hqin⟩ := mem_inRows.1 hq
          exact hone q hq s hs (hqin.trans hsin.symm)
        obtain ⟨hp, hu⟩ := houtNames r hr hr'
        rw [firstName_of_unique (mem_inRows.2 ⟨hs, hsin⟩) hunique] at hp hu
        simp [FlowRow.otherProcess, FlowRow.otherUser, FlowRow.ownProcess, FlowRow.ownUser, hr',
          hsin, hp, hu]
    | inbound =>
        have hsout : s.direction = .outbound := by
          cases hs' : s.direction with
          | outbound => rfl
          | inbound => exact absurd (hs'.trans hr'.symm) hdir
        have hunique : ∀ q ∈ outRows rows, q = s := by
          intro q hq
          obtain ⟨hq, hqout⟩ := mem_outRows.1 hq
          exact hone q hq s hs (hqout.trans hsout.symm)
        obtain ⟨hp, hu⟩ := hinNames r hr hr'
        rw [firstName_of_unique (mem_outRows.2 ⟨hs, hsout⟩) hunique] at hp hu
        simp [FlowRow.otherProcess, FlowRow.otherUser, FlowRow.ownProcess, FlowRow.ownUser, hr',
          hsout, hp, hu]
  · intro r hr halone
    cases hr' : r.direction with
    | outbound =>
        have hnone : inRows rows = [] := by
          apply List.filter_eq_nil_iff.2
          intro q hq
          simp [halone q hq, hr']
        obtain ⟨hp, hu⟩ := houtNames r hr hr'
        rw [hnone] at hp hu
        simp [FlowRow.otherProcess, FlowRow.otherUser, hr', hp, hu, firstName]
    | inbound =>
        have hnone : outRows rows = [] := by
          apply List.filter_eq_nil_iff.2
          intro q hq
          simp [halone q hq, hr']
        obtain ⟨hp, hu⟩ := hinNames r hr hr'
        rw [hnone] at hp hu
        simp [FlowRow.otherProcess, FlowRow.otherUser, hr', hp, hu, firstName]

/-! ## Runs -/

/-- What changes the rows of the store: a batch, an expiry. -/
inductive ConnectionOp where
  | upsert (o : UpsertOptions) (records : List FlowRecord)
  | deleteBefore (cutoff : Int) (connKeys : List String) (archivedDays : Option (Int → Bool))

def ConnectionOp.run (p : Primitives) (db : FlowDb) : ConnectionOp → FlowDb
  | .upsert o records => (upsertFlows p o db records).1
  | .deleteBefore cutoff connKeys archivedDays =>
      { db with flows := (deleteConnectionsBefore db.flows cutoff connKeys archivedDays).1 }

/-- What every run keeps. -/
structure SoundStore (p : Primitives) (t : FlowTable) : Prop where
  stored : t.Stored p
  connected : Connected t
  merged : Merged t

theorem soundStore_empty (p : Primitives) : SoundStore p FlowTable.empty where
  stored _ hr := absurd hr List.not_mem_nil
  connected := connected_empty
  merged _ hr := absurd hr List.not_mem_nil

/-- Every operation keeps the store sound. -/
theorem SoundStore.run {db : FlowDb} (h : SoundStore p db.flows) (op : ConnectionOp) :
    SoundStore p (op.run p db).flows := by
  cases op with
  | upsert o records =>
      exact ⟨stored_upsertFlows h.stored records, connected_upsertFlows h.stored h.connected records,
        merged_upsertFlows h.stored h.merged records⟩
  | deleteBefore cutoff connKeys archivedDays =>
      exact ⟨stored_deleteConnectionsBefore h.stored,
        connected_deleteConnectionsBefore h.connected, merged_deleteConnectionsBefore h.merged⟩

/-- After any run, every connection of the store is sound. -/
theorem soundConnection_of_run (p : Primitives) (ops : List ConnectionOp) (k : String) :
    (ops.foldl (ConnectionOp.run p) .empty).flows.connRows k = [] ∨
      SoundConnection ((ops.foldl (ConnectionOp.run p) .empty).flows.connRows k) := by
  have hrun : SoundStore p (ops.foldl (ConnectionOp.run p) .empty).flows := by
    apply List.foldlRecOn (motive := fun db : FlowDb => SoundStore p db.flows)
    · exact soundStore_empty p
    · intro db h op _
      exact h.run op
  by_cases hk : (ops.foldl (ConnectionOp.run p) .empty).flows.connRows k = []
  · exact Or.inl hk
  · exact Or.inr (soundConnection_of_merged hrun.connected hrun.merged hk)

end IllumioOps
