import IllumioOps.Store.Connections

/-!
# The increments that a batch records

Settling a changed connection appends at most one increment, about its primary row, with how
much the connection grew past what its rows say was recorded (`Appends`). The connections of a
batch do not see each other, so what the batch appends is what each of them does on the rows that
the repairs left (`foldl_settleConnection_increments`).
-/

set_option autoImplicit false

namespace IllumioOps

open Tables

variable {p : Primitives} {o : UpsertOptions}

/-- Connections and bytes of some increments. -/
def grownIn (increments : List FlowIncrement) : Nat × Int :=
  ((increments.map FlowIncrement.connections).sum,
    (increments.map fun i => i.bytes.getD 0).sum)

@[simp] theorem grownIn_nil : grownIn [] = (0, 0) := rfl

theorem grownIn_append (increments increments' : List FlowIncrement) :
    grownIn (increments ++ increments') = grownIn increments + grownIn increments' := by
  unfold grownIn
  rw [List.map_append, List.map_append, List.sum_append, List.sum_append]
  rfl

/-- How much a connection of these rows grew past what they say was recorded. -/
def connectionGrowth (rows : List FlowRow) : Nat × Int :=
  match primaryRow rows with
  | none => (0, 0)
  | some primary =>
      (largestNat (rows.map FlowRow.numConnections) -
          largestNat (rows.map fun r => r.countedConnections.getD r.numConnections),
        ((bytesTotal primary.bytesIn primary.bytesOut).map fun b =>
          max 0 (b - largestInt (rows.map FlowRow.bytesRecorded))).getD 0)

/-- What settling a connection appends: at most one increment, about one of its rows, and
nothing in a batch that records nothing. -/
structure Appends (increments : Increments) (rows : List FlowRow) (added : List FlowIncrement) :
    Prop where
  once : added.length ≤ 1
  about : ∀ i ∈ added, ∃ r ∈ rows, r.recordKey = i.recordKey
  not_negative : ∀ i ∈ added, ∀ b ∈ i.bytes, 0 ≤ b
  adds : increments ≠ .none → grownIn added = connectionGrowth rows
  silent : increments = .none → added = []

theorem recordGrowth_increments (beforeLast : List (String × Option Int)) (increments : Increments)
    (stamp : Int) (db : FlowDb) (connKey : String) :
    ∃ added, (recordGrowth beforeLast increments stamp db connKey).1.increments =
        db.increments ++ added ∧ Appends increments (db.flows.connRows connKey) added := by
  obtain ⟨rows, hrows⟩ : ∃ rows, rows = db.flows.connRows connKey := ⟨_, rfl⟩
  unfold recordGrowth
  simp only [← hrows]
  cases hprimary : primaryRow rows with
  | none =>
      -- the connection is gone
      refine ⟨[], by simp, by simp, by simp, by simp, fun _ => ?_, fun _ => rfl⟩
      rw [connectionGrowth, hprimary]
      rfl
  | some primary =>
      have hmem : primary ∈ rows := List.mem_of_find?_eq_some hprimary
      have hgrown : connectionGrowth rows = (largestNat (rows.map FlowRow.numConnections) -
            largestNat (rows.map fun r => r.countedConnections.getD r.numConnections),
          ((bytesTotal primary.bytesIn primary.bytesOut).map fun b =>
            max 0 (b - largestInt (rows.map FlowRow.bytesRecorded))).getD 0) := by
        rw [connectionGrowth, hprimary]
      dsimp only
      generalize largestNat (rows.map FlowRow.numConnections) -
        largestNat (rows.map fun r => r.countedConnections.getD r.numConnections) = grew at hgrown ⊢
      generalize hbytes : (bytesTotal primary.bytesIn primary.bytesOut).map (fun b =>
        max 0 (b - largestInt (rows.map FlowRow.bytesRecorded))) = grewBytes at hgrown ⊢
      by_cases hrecorded : (increments ≠ .none && (0 < grew || grewBytes.getD 0 ≠ 0)) = true
      · rw [if_pos hrecorded]
        refine ⟨_, rfl, by simp, ?_, ?_, fun _ => ?_, ?_⟩
        · intro i hi
          obtain rfl := List.mem_singleton.1 hi
          exact ⟨primary, hmem, rfl⟩
        · intro i hi b hb
          obtain rfl := List.mem_singleton.1 hi
          have hb : grewBytes = some b := hb
          rw [← hbytes] at hb
          obtain ⟨total, _, rfl⟩ := Option.map_eq_some_iff.1 hb
          exact le_max_left _ _
        · rw [hgrown]
          simp [grownIn]
        · intro hnone
          simp [hnone] at hrecorded
      · rw [if_neg hrecorded]
        refine ⟨[], by simp, by simp, by simp, by simp, fun hne => ?_, fun _ => rfl⟩
        -- nothing is recorded because there is no growth
        have hzero : grew = 0 ∧ grewBytes.getD 0 = 0 := by simpa [hne] using hrecorded
        rw [hgrown, hzero.1, hzero.2]
        rfl

@[simp] theorem updateBaselines_increments (logNew : Bool) (stamp : Int) (db : FlowDb)
    (connKey : String) :
    (updateBaselines p logNew stamp db connKey).increments = db.increments := by
  unfold updateBaselines
  split
  · rfl
  next row _ => cases row.initiatorUser <;> cases row.initiatorProcess <;> rfl

@[simp] theorem addActivity_increments (addr : Addresses) (hour : Int) (row : FlowRow)
    (grew : Nat × Option Int) (db : FlowDb) :
    (addActivity addr hour row grew db).increments = db.increments := by
  unfold addActivity
  split
  · rfl
  · split <;> rfl

/-- Settling a connection appends what its merged rows have grown. -/
theorem settleConnection_increments (beforeLast : List (String × Option Int)) (db : FlowDb)
    (connKey : String) :
    ∃ added, (settleConnection p o beforeLast db connKey).increments = db.increments ++ added ∧
      Appends o.increments ((db.flows.connRows connKey).map
        (mergeRow (db.flows.connRows connKey))) added := by
  obtain ⟨known, hknown⟩ : ∃ known, known = updateBaselines p o.logNewConnections (dbTime o.now)
      { db with flows := mergeConnection db.flows connKey } connKey := ⟨_, rfl⟩
  have hsettle : (settleConnection p o beforeLast db connKey).increments =
      (recordGrowth beforeLast o.increments (dbTime o.now) known connKey).1.increments := by
    unfold settleConnection
    dsimp only
    rw [← hknown]
    split
    · exact addActivity_increments _ _ _ _ _
    · rfl
  have hrows : known.flows.connRows connKey =
      (db.flows.connRows connKey).map (mergeRow (db.flows.connRows connKey)) := by
    rw [hknown, updateBaselines_flows, FlowTable.connRows, mergeConnection_rows]
    exact groupRows_groupUpdate connKey_mergeRow _ _
  have hincrements : known.increments = db.increments := by
    rw [hknown, updateBaselines_increments]
  obtain ⟨added, hadded, happends⟩ :=
    recordGrowth_increments beforeLast o.increments (dbTime o.now) known connKey
  rw [hrows] at happends
  rw [hincrements] at hadded
  exact ⟨added, hsettle.trans hadded, happends⟩

theorem connRows_settleConnection_of_ne (beforeLast : List (String × Option Int)) (db : FlowDb)
    {k connKey : String} (hne : k ≠ connKey) :
    (settleConnection p o beforeLast db connKey).flows.connRows k = db.flows.connRows k := by
  rw [FlowTable.connRows, settleConnection_rows]
  exact groupRows_groupUpdate_of_ne connKey_settleRow hne _

/-- The connections of a batch append their increments one after another, each as its rows
stood before. -/
theorem foldl_settleConnection_increments (beforeLast : List (String × Option Int))
    {keys : List String} (hkeys : keys.Nodup) (db : FlowDb) :
    ∃ added : String → List FlowIncrement,
      (keys.foldl (settleConnection p o beforeLast) db).increments =
        db.increments ++ keys.flatMap added ∧
      ∀ k ∈ keys, Appends o.increments
        ((db.flows.connRows k).map (mergeRow (db.flows.connRows k))) (added k) := by
  induction keys generalizing db with
  | nil => exact ⟨fun _ => [], by simp, fun k hk => absurd hk List.not_mem_nil⟩
  | cons key keys ih =>
      obtain ⟨hkey, hkeys⟩ := List.nodup_cons.1 hkeys
      obtain ⟨first, hfirst, happends⟩ :=
        settleConnection_increments (p := p) (o := o) beforeLast db key
      obtain ⟨later, hlater, hrest⟩ := ih hkeys (settleConnection p o beforeLast db key)
      have hne : ∀ k ∈ keys, k ≠ key := fun k hk heq => hkey (heq ▸ hk)
      refine ⟨Function.update later key first, ?_, ?_⟩
      · rw [List.foldl_cons, hlater, hfirst, List.flatMap_cons, Function.update_self,
          List.append_assoc]
        congr 2
        apply List.flatMap_congr
        intro k hk
        rw [Function.update_of_ne (hne k hk)]
      · intro k hk
        rcases List.mem_cons.1 hk with rfl | hk
        · rw [Function.update_self]
          exact happends
        · have hk' := hrest k hk
          rw [connRows_settleConnection_of_ne beforeLast db (hne k hk)] at hk'
          rw [Function.update_of_ne (hne k hk)]
          exact hk'

/-! ## The whole batch -/

/-- The store with every changed connection of a batch settled, before old rows go. -/
def settledBatch (p : Primitives) (o : UpsertOptions) (db : FlowDb) (records : List FlowRecord) :
    FlowDb :=
  let w := writeRecords p o.origin (dbTime o.now) db records
  let repaired := repairTuples w.written w.flows w.tuples
  (repaired.keys.dedup.insertionSort (· ≤ ·)).foldl (settleConnection p o w.beforeLast)
    { db with labelSets := w.labelSets, flows := repaired.flows }

/-- What a batch inserts into `flow_increments`. -/
def batchIncrements (p : Primitives) (o : UpsertOptions) (db : FlowDb)
    (records : List FlowRecord) : List FlowIncrement :=
  (settledBatch p o db records).increments.drop db.increments.length

theorem foldl_markDirty_increments (touched : List Int) (db : FlowDb) :
    (touched.foldl FlowDb.markDirty db).increments = db.increments := by
  induction touched generalizing db with
  | nil => rfl
  | cons d touched ih =>
      rw [List.foldl_cons, ih]
      rfl

/-- The batch's increments by the connections it changed. -/
theorem batchIncrements_eq (p : Primitives) (o : UpsertOptions) (db : FlowDb)
    (records : List FlowRecord) :
    ∃ added : String → List FlowIncrement,
      (settledBatch p o db records).increments = db.increments ++ batchIncrements p o db records ∧
      batchIncrements p o db records =
        ((repairedTable p o db records).keys.dedup.insertionSort (· ≤ ·)).flatMap added ∧
      ∀ k ∈ (repairedTable p o db records).keys, Appends o.increments
        (((repairedTable p o db records).flows.connRows k).map
          (mergeRow ((repairedTable p o db records).flows.connRows k))) (added k) := by
  have hnodup : ((repairedTable p o db records).keys.dedup.insertionSort (· ≤ ·)).Nodup :=
    (List.perm_insertionSort _ _).nodup_iff.2 (List.nodup_dedup _)
  obtain ⟨added, hadded, happends⟩ := foldl_settleConnection_increments (p := p) (o := o)
    (writeRecords p o.origin (dbTime o.now) db records).beforeLast hnodup
    { db with
      labelSets := (writeRecords p o.origin (dbTime o.now) db records).labelSets
      flows := (repairedTable p o db records).flows }
  have hsettled : (settledBatch p o db records).increments = db.increments ++
      ((repairedTable p o db records).keys.dedup.insertionSort (· ≤ ·)).flatMap added := hadded
  have hbatch : batchIncrements p o db records =
      ((repairedTable p o db records).keys.dedup.insertionSort (· ≤ ·)).flatMap added := by
    rw [batchIncrements, hsettled, List.drop_left]
  refine ⟨added, by rw [hbatch, hsettled], hbatch, fun k hk => happends k ?_⟩
  rw [List.mem_insertionSort, List.mem_dedup]
  exact hk

/-- What stays of the increments: a batch that records drops those past their keep. -/
theorem increments_upsertFlows (p : Primitives) (o : UpsertOptions) (db : FlowDb)
    (records : List FlowRecord) :
    (upsertFlows p o db records).1.increments =
      if o.increments = .none then db.increments ++ batchIncrements p o db records
      else (db.increments ++ batchIncrements p o db records).filter fun i =>
        !(i.observedAt < dbTime (o.now - incrementKeep)) := by
  obtain ⟨_, hsettled, _⟩ := batchIncrements_eq p o db records
  have hfinal : (upsertFlows p o db records).1.increments =
      (dropOldActivity o (settledBatch p o db records)).increments := by
    unfold upsertFlows
    simp only [foldl_markDirty_increments]
    rfl
  rw [hfinal, ← hsettled]
  unfold dropOldActivity
  dsimp only
  split <;> split <;> rfl

/-! ## When growth is observed -/

theorem observedAt_recordGrowth (beforeLast : List (String × Option Int)) (increments : Increments)
    (stamp : Int) (db : FlowDb) (connKey : String) {i : FlowIncrement}
    (h : i ∈ (recordGrowth beforeLast increments stamp db connKey).1.increments) :
    i ∈ db.increments ∨ i.observedAt = stamp := by
  rw [recordGrowth] at h
  split at h
  · exact Or.inl h
  · dsimp only at h
    split at h
    · rcases List.mem_append.1 h with h | h
      · exact Or.inl h
      · exact Or.inr (List.mem_singleton.1 h ▸ rfl)
    · exact Or.inl h

theorem observedAt_settleConnection (beforeLast : List (String × Option Int)) (db : FlowDb)
    (connKey : String) {i : FlowIncrement}
    (h : i ∈ (settleConnection p o beforeLast db connKey).increments) :
    i ∈ db.increments ∨ i.observedAt = dbTime o.now := by
  rw [settleConnection] at h
  have hgrown : i ∈ (recordGrowth beforeLast o.increments (dbTime o.now)
      (updateBaselines p o.logNewConnections (dbTime o.now)
        { db with flows := mergeConnection db.flows connKey } connKey) connKey).1.increments := by
    dsimp only at h
    split at h
    · rwa [addActivity_increments] at h
    · exact h
  rcases observedAt_recordGrowth _ _ _ _ _ hgrown with h | h
  · rw [updateBaselines_increments] at h
    exact Or.inl h
  · exact Or.inr h

/-- What a batch leaves was there before or is observed at its time. -/
theorem observedAt_upsertFlows (db : FlowDb) (records : List FlowRecord) {i : FlowIncrement}
    (h : i ∈ (upsertFlows p o db records).1.increments) :
    i ∈ db.increments ∨ i.observedAt = dbTime o.now := by
  have hfold : ∀ (beforeLast : List (String × Option Int)) (keys : List String) (db : FlowDb),
      i ∈ (keys.foldl (settleConnection p o beforeLast) db).increments →
        i ∈ db.increments ∨ i.observedAt = dbTime o.now := by
    intro beforeLast keys
    induction keys with
    | nil => exact fun db h => Or.inl h
    | cons key keys ih =>
        intro db h
        rcases ih _ h with h | h
        · exact observedAt_settleConnection beforeLast db key h
        · exact Or.inr h
  obtain ⟨_, hsettled, _⟩ := batchIncrements_eq p o db records
  have hkept : i ∈ (settledBatch p o db records).increments := by
    rw [increments_upsertFlows] at h
    rw [hsettled]
    split at h
    · exact h
    · exact List.mem_of_mem_filter h
  rw [settledBatch] at hkept
  exact (hfold _ _ _ hkept).imp_left id

end IllumioOps
