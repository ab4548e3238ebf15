import IllumioOps.Store.Increments
import IllumioOps.Store.NewConnections
import IllumioOps.Store.Pairing

/-!
# The baseline and the order of delivery

Only the row that represents a connection when a batch settles it goes into the baseline, and an inbound row
represents its connection until the outbound one comes. So the baseline is the same for every order of the
records exactly if what an order can add lies within what every order adds (`baseline_order_iff`).
-/

set_option autoImplicit false

namespace IllumioOps

open Matching Tables

/-! ## Sightings joined in any order -/

/-- What some sightings count for a key together. -/
def totalOf (ss : List Sighting) (key : String) : WithBot Counts :=
  (ss.toFinset.filter fun s => s.recordKey = key).sup fun s => (s.counts : WithBot Counts)

/-- Sightings of one key differ in their counts only. -/
def Alike (ss : List Sighting) : Prop :=
  ∀ s ∈ ss, ∀ q ∈ ss, s.recordKey = q.recordKey → s = { q with counts := s.counts }

section Joining

variable {ss ss' seen : List Sighting}

theorem totalOf_cons (s : Sighting) (ss : List Sighting) (key : String) :
    totalOf (s :: ss) key =
      if s.recordKey = key then (s.counts : WithBot Counts) ⊔ totalOf ss key else totalOf ss key := by
  unfold totalOf
  rw [List.toFinset_cons, Finset.filter_insert]
  split
  · rw [Finset.sup_insert]
  · rfl

theorem countsOf_foldl_addSighting (ss seen : List Sighting) (key : String) :
    countsOf (ss.foldl addSighting seen) key = totalOf ss key ⊔ countsOf seen key := by
  induction ss generalizing seen with
  | nil => exact (bot_sup_eq _).symm
  | cons s ss ih =>
      rw [List.foldl_cons, ih, countsOf_addSighting, totalOf_cons]
      split
      · rw [sup_left_comm, sup_assoc]
      · rfl

theorem keys_foldl_addSighting (ss : List Sighting) (h : (seen.map Sighting.recordKey).Nodup) :
    ((ss.foldl addSighting seen).map Sighting.recordKey).Nodup := by
  induction ss generalizing seen with
  | nil => exact h
  | cons s ss ih => exact ih (keys_addSighting h s)

theorem keys_joined (ss : List Sighting) :
    ((ss.foldl addSighting []).map Sighting.recordKey).Nodup := by
  apply keys_foldl_addSighting
  exact List.nodup_nil

theorem reported_addSighting {s q : Sighting} (h : s ∈ addSighting seen q) :
    ∃ r, (r ∈ seen ∨ r = q) ∧ s = { r with counts := s.counts } := by
  unfold addSighting at h
  split at h
  · obtain ⟨r, hr, rfl⟩ := List.mem_map.1 h
    refine ⟨r, Or.inl hr, ?_⟩
    split <;> rfl
  · rcases List.mem_append.1 h with h | h
    · exact ⟨s, Or.inl h, rfl⟩
    · exact ⟨s, Or.inr (List.mem_singleton.1 h), rfl⟩

theorem reported_foldl_addSighting {s : Sighting} (h : s ∈ ss.foldl addSighting seen) :
    ∃ r, (r ∈ seen ∨ r ∈ ss) ∧ s = { r with counts := s.counts } := by
  induction ss generalizing seen with
  | nil => exact ⟨s, Or.inl h, rfl⟩
  | cons q ss ih =>
      obtain ⟨r, hr, heq⟩ := ih h
      rcases hr with hr | hr
      · obtain ⟨r', hr', heq'⟩ := reported_addSighting hr
        refine ⟨r', ?_, ?_⟩
        · rcases hr' with hr' | rfl
          · exact Or.inl hr'
          · exact Or.inr List.mem_cons_self
        · rw [heq, heq']
      · exact ⟨r, Or.inr (List.mem_cons_of_mem _ hr), heq⟩

theorem mem_foldl_addSighting (hss : Alike ss) {s : Sighting} :
    s ∈ ss.foldl addSighting [] ↔
      (∃ q ∈ ss, s = { q with counts := s.counts }) ∧ totalOf ss s.recordKey = (s.counts : WithBot Counts) := by
  have hkeys := keys_joined ss
  have htotal : ∀ key, countsOf (ss.foldl addSighting []) key = totalOf ss key :=
    fun key => (countsOf_foldl_addSighting ss [] key).trans (sup_bot_eq _)
  have hreported : ∀ {s}, s ∈ ss.foldl addSighting [] → ∃ q ∈ ss, s = { q with counts := s.counts } := by
    intro s hs
    obtain ⟨q, hq, heq⟩ := reported_foldl_addSighting hs
    exact ⟨q, hq.resolve_left List.not_mem_nil, heq⟩
  constructor
  · exact fun hs => ⟨hreported hs, (htotal _).symm.trans (countsOf_of_mem hkeys hs)⟩
  · rintro ⟨⟨q, hq, heq⟩, hcounts⟩
    -- the key has a sighting: of the same record, with the same counts
    have hmem : s.recordKey ∈ (ss.foldl addSighting []).map Sighting.recordKey := by
      by_contra hnot
      have hbot := countsOf_of_not_mem hnot
      rw [htotal, hcounts] at hbot
      exact absurd hbot WithBot.coe_ne_bot
    obtain ⟨s', hs', hkey⟩ := List.mem_map.1 hmem
    obtain ⟨q', hq', heq'⟩ := hreported hs'
    have hcounts' := countsOf_of_mem hkeys hs'
    rw [hkey, htotal, hcounts, WithBot.coe_inj] at hcounts'
    have hq'key : q'.recordKey = q.recordKey := by
      have h : q'.recordKey = s'.recordKey := by rw [heq']
      have h' : s.recordKey = q.recordKey := by rw [heq]
      exact h.trans (hkey.trans h')
    have hsame : s' = s := by
      rw [heq', heq, hss q' hq' q hq hq'key, hcounts']
    exact hsame ▸ hs'

/-- Neither the order nor the repeats matter. -/
theorem foldl_addSighting_perm (hss : Alike ss) (h : ∀ s, s ∈ ss ↔ s ∈ ss') :
    (ss.foldl addSighting []).Perm (ss'.foldl addSighting []) := by
  have hss' : Alike ss' := fun s hs q hq => hss s ((h s).2 hs) q ((h q).2 hq)
  have htotal : ∀ key, totalOf ss key = totalOf ss' key := by
    intro key
    have hset : ss.toFinset = ss'.toFinset := by
      ext s
      rw [List.mem_toFinset, List.mem_toFinset, h s]
    unfold totalOf
    rw [hset]
  refine (List.perm_ext_iff_of_nodup (List.Nodup.of_map _ (keys_joined ss))
    (List.Nodup.of_map _ (keys_joined ss'))).2 fun s => ?_
  rw [mem_foldl_addSighting hss, mem_foldl_addSighting hss', htotal]
  simp only [h]

/-- A sighting stays, and its end only moves on. -/
theorem foldl_addSighting_keeps (ss : List Sighting) {s : Sighting} (hs : s ∈ seen) :
    ∃ s' ∈ ss.foldl addSighting seen, s'.recordKey = s.recordKey ∧
      s'.firstDetected = s.firstDetected ∧ s.counts.lastDetected ≤ s'.counts.lastDetected := by
  induction ss generalizing seen s with
  | nil => exact ⟨s, hs, rfl, rfl, le_refl _⟩
  | cons q ss ih =>
      have hstep : ∃ s' ∈ addSighting seen q, s'.recordKey = s.recordKey ∧
          s'.firstDetected = s.firstDetected ∧ s.counts.lastDetected ≤ s'.counts.lastDetected := by
        unfold addSighting
        split
        · by_cases hkey : s.recordKey = q.recordKey
          · exact ⟨{ s with counts := s.counts ⊔ q.counts }, List.mem_map.2 ⟨s, hs, if_pos hkey⟩, rfl, rfl,
              le_max_left _ _⟩
          · exact ⟨s, List.mem_map.2 ⟨s, hs, if_neg hkey⟩, rfl, rfl, le_refl _⟩
        · exact ⟨s, List.mem_append_left _ hs, rfl, rfl, le_refl _⟩
      obtain ⟨s', hs', hkey, hfirst, hlast⟩ := hstep
      obtain ⟨s'', hs'', hkey', hfirst', hlast'⟩ := ih hs'
      exact ⟨s'', hs'', hkey'.trans hkey, hfirst'.trans hfirst, hlast.trans hlast'⟩

end Joining

/-- The records as the store keeps them, each once: its copies joined. -/
def seenIn (digest : RecordId → String) (records : List FlowRecord) : List Sighting :=
  (records.map (FlowRecord.stored digest)).foldl addSighting []

theorem alike_stored (p : Primitives) (records : List FlowRecord) :
    Alike (records.map (FlowRecord.stored p.digest)) := by
  intro s hs q hq hkey
  obtain ⟨a, -, rfl⟩ := List.mem_map.1 hs
  obtain ⟨b, -, rfl⟩ := List.mem_map.1 hq
  have hid : a.recordId = b.recordId := p.digest_injective hkey
  have hsighting : a.sighting p.digest = { b.sighting p.digest with counts := a.counts } :=
    sighting_of_recordId hid
  have hfirst : a.firstDetected = b.firstDetected := congrArg RecordId.firstDetected hid
  simp only [FlowRecord.stored, hfirst, hsighting]

theorem seenIn_perm (p : Primitives) {records records' : List FlowRecord}
    (h : records.Perm records') : (seenIn p.digest records).Perm (seenIn p.digest records') :=
  foldl_addSighting_perm (alike_stored p records) fun _ => (h.map _).mem_iff

theorem seenIn_append (digest : RecordId → String) (records more : List FlowRecord) :
    seenIn digest (records ++ more) =
      (more.map (FlowRecord.stored digest)).foldl addSighting (seenIn digest records) := by
  rw [seenIn, List.map_append, List.foldl_append]
  rfl

/-! ## What a row is called -/

/-- The key of `connection_baseline` that a record names. -/
def FlowRecord.connectionKey (r : FlowRecord) : ConnectionKey :=
  { srcKey := endpointKey r.srcHref r.srcIp, dstKey := endpointKey r.dstHref r.dstIp,
    port := r.port.getD noPort, proto := r.proto }

def FlowRecord.named (digest : RecordId → String) (r : FlowRecord) : String × ConnectionKey :=
  (recordKey digest r, r.connectionKey)

def FlowRow.named (r : FlowRow) : String × ConnectionKey := (r.recordKey, r.connectionKey)

/-- A record keeps the name it came with first. -/
def addName (names : List (String × ConnectionKey)) (n : String × ConnectionKey) :
    List (String × ConnectionKey) :=
  if n.1 ∈ names.map Prod.fst then names else names ++ [n]

theorem find?_foldl_addName (ns names : List (String × ConnectionKey)) (key : String) :
    (ns.foldl addName names).find? (fun n => n.1 = key) =
      (names ++ ns).find? fun n => n.1 = key := by
  induction ns generalizing names with
  | nil => rw [List.append_nil]; rfl
  | cons n ns ih =>
      rw [List.foldl_cons, ih, List.find?_append, List.find?_append, List.find?_cons]
      by_cases hmem : n.1 ∈ names.map Prod.fst
      · rw [addName, if_pos hmem]
        by_cases hkey : n.1 = key
        · obtain ⟨m, hm, hmn⟩ := List.mem_map.1 hmem
          have hfound : (names.find? fun n => n.1 = key).isSome = true :=
            List.find?_isSome.2 ⟨m, hm, by simpa using hmn.trans hkey⟩
          obtain ⟨found, hfound⟩ := Option.isSome_iff_exists.1 hfound
          rw [hfound]
          rfl
        · simp only [hkey, decide_false]
      · rw [addName, if_neg hmem, List.find?_append]
        by_cases hkey : n.1 = key
        · simp [hkey]
        · simp [hkey]

section Named

variable {p : Primitives} {o : UpsertOptions}

theorem named_of_uncounted {r s : FlowRow} (h : r.uncounted = s.uncounted) : r.named = s.named := by
  have heq := congrArg FlowRow.named h
  exact heq

theorem named_settleRow (rows : List FlowRow) (r : FlowRow) : (settleRow rows r).named = r.named := by
  rw [named_of_uncounted (uncounted_settleRow rows r)]
  unfold mergeRow
  split <;> rfl

theorem named_repaired (t : FlowTable) (tuples : List FlowTuple) (r : FlowRow) :
    (repaired t tuples r).named = r.named := by
  unfold repaired
  split <;> rfl

theorem named_update {t : FlowTable} {e : RowEdit} (h : ∀ r, (e.apply r).named = r.named) :
    (t.update e).rows.map FlowRow.named = t.rows.map FlowRow.named := by
  rw [FlowTable.update_rows, List.map_map]
  exact List.map_congr_left fun r _ => h r

theorem named_settleUntracked (t : FlowTable) (connKey : String) :
    (settleUntracked t connKey).rows.map FlowRow.named = t.rows.map FlowRow.named := by
  unfold settleUntracked
  split
  · rfl
  · refine named_update fun r => ?_
    rw [FlowTable.apply_on]
    split <;> rfl

theorem named_writeRecord (origin : DataOrigin) (stamp : Int) (w : Writing) (r : FlowRecord) :
    (writeRecord p origin stamp w r).flows.rows.map FlowRow.named =
      addName (w.flows.rows.map FlowRow.named) (r.named p.digest) := by
  have hkeys : (w.flows.rows.map FlowRow.named).map Prod.fst = w.flows.rows.map FlowRow.recordKey :=
    List.map_map
  have hstored : ∀ {old}, w.flows.byKey (recordKey p.digest r) = some old →
      addName (w.flows.rows.map FlowRow.named) (r.named p.digest) = w.flows.rows.map FlowRow.named := by
    intro old hold
    obtain ⟨hmem, hkey⟩ := FlowTable.byKey_eq_some.1 hold
    rw [addName, if_pos]
    rw [hkeys]
    exact List.mem_map.2 ⟨old, hmem, hkey⟩
  rcases writeRecord_cases p origin stamp w r with
    ⟨old, hold, -, heq⟩ | ⟨old, hold, -, heq⟩ | ⟨hnone, heq⟩
  · rw [heq, hstored hold]
  · rw [heq, hstored hold]
    refine (named_update fun row => ?_).trans ?_
    · rw [FlowTable.apply_on]
      split <;> rfl
    · split
      · exact named_settleUntracked _ _
      · rfl
  · have hnew : (r.named p.digest).1 ∉ (w.flows.rows.map FlowRow.named).map Prod.fst := by
      rw [hkeys]
      intro hmem
      obtain ⟨row, hrow, hkey⟩ := List.mem_map.1 hmem
      exact FlowTable.byKey_eq_none.1 hnone row hrow hkey
    rw [heq, addName, if_neg hnew]
    simp only [insertRow, FlowTable.insert, List.map_append]
    rfl

theorem named_upsertFlows (db : FlowDb) (records : List FlowRecord) :
    (upsertFlows p o db records).1.flows.rows.map FlowRow.named =
      (records.map (FlowRecord.named p.digest)).foldl addName (db.flows.rows.map FlowRow.named) := by
  have hwritten : ∀ (records : List FlowRecord) (w : Writing),
      (records.foldl (writeRecord p o.origin (dbTime o.now)) w).flows.rows.map FlowRow.named =
        (records.map (FlowRecord.named p.digest)).foldl addName (w.flows.rows.map FlowRow.named) := by
    intro records
    induction records with
    | nil => exact fun _ => rfl
    | cons r records ih =>
        intro w
        rw [List.foldl_cons, ih, named_writeRecord]
        rfl
  have hwrites := hwritten records
    { labelSets := db.labelSets, flows := db.flows, daysTouched := [], tuples := [], written := [],
      beforeLast := [], inserted := 0, refreshed := 0, unchanged := 0 }
  rw [← hwrites, upsertFlows_rows, repairedTable, repairTuples_rows, List.map_map, List.map_map]
  apply List.map_congr_left
  intro r _
  simp only [Function.comp]
  split
  · rw [named_settleRow, named_repaired]
  · rw [named_repaired]

end Named

/-! ## What goes into the baseline -/

/-- A row goes into the baseline. -/
def foldRow (base : ConnectionKey → Option ConnectionBaseline) (row : FlowRow) :
    ConnectionKey → Option ConnectionBaseline :=
  Function.update base row.connectionKey
    (some (.bump (base row.connectionKey) row.firstDetected row.lastDetected row.policyDecision))

/-- The baseline holds a key for at least these times. -/
def Covers (base : ConnectionKey → Option ConnectionBaseline) (k : ConnectionKey) (first last : Int) :
    Prop :=
  ∃ b, base k = some b ∧ b.firstSeen ≤ first ∧ last ≤ b.lastSeen

section Folding

variable {base : ConnectionKey → Option ConnectionBaseline} {rows : List FlowRow} {k : ConnectionKey}
  {first last : Int}

theorem bump_spec (known : Option ConnectionBaseline) (first last : Int) (decision : String) :
    ((ConnectionBaseline.bump known first last decision).firstSeen ≤ first ∧
      last ≤ (ConnectionBaseline.bump known first last decision).lastSeen) ∧
    (∀ b, known = some b →
      (ConnectionBaseline.bump known first last decision).firstSeen ≤ b.firstSeen ∧
        b.lastSeen ≤ (ConnectionBaseline.bump known first last decision).lastSeen) ∧
    ((ConnectionBaseline.bump known first last decision).firstSeen = first ∨
      ∃ b, known = some b ∧ b.firstSeen = (ConnectionBaseline.bump known first last decision).firstSeen) ∧
    ((ConnectionBaseline.bump known first last decision).lastSeen = last ∨
      ∃ b, known = some b ∧ b.lastSeen = (ConnectionBaseline.bump known first last decision).lastSeen) := by
  cases known with
  | none =>
      refine ⟨⟨le_refl _, le_refl _⟩, fun b hb => ?_, Or.inl rfl, Or.inl rfl⟩
      cases hb
  | some b =>
      refine ⟨⟨min_le_right _ _, le_max_right _ _⟩, fun b' hb' => ?_, ?_, ?_⟩
      · cases hb'
        exact ⟨min_le_left _ _, le_max_left _ _⟩
      · rcases min_choice b.firstSeen first with hmin | hmin
        · exact Or.inr ⟨b, rfl, hmin.symm⟩
        · exact Or.inl hmin
      · rcases max_choice b.lastSeen last with hmax | hmax
        · exact Or.inr ⟨b, rfl, hmax.symm⟩
        · exact Or.inl hmax

theorem Covers.foldRow (h : Covers base k first last) (row : FlowRow) :
    Covers (foldRow base row) k first last := by
  obtain ⟨b, hb, hfirst, hlast⟩ := h
  by_cases hk : k = row.connectionKey
  · subst hk
    obtain ⟨-, hkeeps, -⟩ := bump_spec (base row.connectionKey) row.firstDetected row.lastDetected
      row.policyDecision
    exact ⟨_, Function.update_self _ _ _, (hkeeps b hb).1.trans hfirst, hlast.trans (hkeeps b hb).2⟩
  · exact ⟨b, (Function.update_of_ne hk _ _).trans hb, hfirst, hlast⟩

theorem Covers.foldl (h : Covers base k first last) (rows : List FlowRow) :
    Covers (rows.foldl IllumioOps.foldRow base) k first last := by
  induction rows generalizing base with
  | nil => exact h
  | cons row rows ih => exact ih (h.foldRow row)

theorem covers_foldl {row : FlowRow} (hrow : row ∈ rows) :
    Covers (rows.foldl foldRow base) row.connectionKey row.firstDetected row.lastDetected := by
  induction rows generalizing base with
  | nil => exact absurd hrow List.not_mem_nil
  | cons r rows ih =>
      rcases List.mem_cons.1 hrow with rfl | hrow
      · have hself : Covers (foldRow base row) row.connectionKey row.firstDetected row.lastDetected := by
          obtain ⟨⟨hfirst, hlast⟩, -⟩ := bump_spec (base row.connectionKey) row.firstDetected
            row.lastDetected row.policyDecision
          exact ⟨_, Function.update_self _ _ _, hfirst, hlast⟩
        exact hself.foldl rows
      · exact ih hrow

/-- Where the times of a baseline row come from. -/
theorem foldl_foldRow_origin {b : ConnectionBaseline} (hb : rows.foldl foldRow base k = some b) :
    ((∃ b₀, base k = some b₀ ∧ b₀.firstSeen = b.firstSeen) ∨
        ∃ row ∈ rows, row.connectionKey = k ∧ row.firstDetected = b.firstSeen) ∧
      ((∃ b₀, base k = some b₀ ∧ b₀.lastSeen = b.lastSeen) ∨
        ∃ row ∈ rows, row.connectionKey = k ∧ row.lastDetected = b.lastSeen) := by
  induction rows generalizing base with
  | nil => exact ⟨Or.inl ⟨b, hb, rfl⟩, Or.inl ⟨b, hb, rfl⟩⟩
  | cons row rows ih =>
      obtain ⟨hfirst, hlast⟩ := ih hb
      -- what the first row left behind was its own or was there
      have hrow : ∀ b₁, foldRow base row k = some b₁ →
          ((∃ b₀, base k = some b₀ ∧ b₀.firstSeen = b₁.firstSeen) ∨
            (row.connectionKey = k ∧ row.firstDetected = b₁.firstSeen)) ∧
          ((∃ b₀, base k = some b₀ ∧ b₀.lastSeen = b₁.lastSeen) ∨
            (row.connectionKey = k ∧ row.lastDetected = b₁.lastSeen)) := by
        intro b₁ hb₁
        by_cases hk : k = row.connectionKey
        · subst hk
          have hbump := (Function.update_self _ _ _).symm.trans hb₁
          obtain rfl := Option.some.inj hbump
          obtain ⟨-, -, hfirst, hlast⟩ := bump_spec (base row.connectionKey) row.firstDetected
            row.lastDetected row.policyDecision
          exact ⟨hfirst.symm.imp id fun h => ⟨rfl, h.symm⟩, hlast.symm.imp id fun h => ⟨rfl, h.symm⟩⟩
        · have hsame := (Function.update_of_ne hk _ _).symm.trans hb₁
          exact ⟨Or.inl ⟨b₁, hsame, rfl⟩, Or.inl ⟨b₁, hsame, rfl⟩⟩
      refine ⟨?_, ?_⟩
      · rcases hfirst with ⟨b₁, hb₁, heq⟩ | ⟨r, hr, hk, heq⟩
        · rw [← heq]
          rcases (hrow b₁ hb₁).1 with h | h
          · exact Or.inl h
          · exact Or.inr ⟨row, List.mem_cons_self, h⟩
        · exact Or.inr ⟨r, List.mem_cons_of_mem _ hr, hk, heq⟩
      · rcases hlast with ⟨b₁, hb₁, heq⟩ | ⟨r, hr, hk, heq⟩
        · rw [← heq]
          rcases (hrow b₁ hb₁).2 with h | h
          · exact Or.inl h
          · exact Or.inr ⟨row, List.mem_cons_self, h⟩
        · exact Or.inr ⟨r, List.mem_cons_of_mem _ hr, hk, heq⟩

end Folding

/-! ## One batch -/

section Batch

variable {p : Primitives} {o : UpsertOptions}

/-- The row of a connection that goes into the baseline when it is settled. -/
def FlowTable.representative (t : FlowTable) (k : String) : Option FlowRow :=
  primaryRow ((t.connRows k).map (mergeRow (t.connRows k)))

theorem connectionBaseline_settleConnection (beforeLast : List (String × Option Int)) (db : FlowDb)
    (k : String) : (settleConnection p o beforeLast db k).connectionBaseline =
      (db.flows.representative k).toList.foldl foldRow db.connectionBaseline := by
  have hrows : (mergeConnection db.flows k).connRows k =
      (db.flows.connRows k).map (mergeRow (db.flows.connRows k)) := by
    rw [FlowTable.connRows, mergeConnection_rows]
    exact groupRows_groupUpdate connKey_mergeRow _ _
  have hsettled := congrArg Prod.fst (known_settleConnection (p := p) (o := o) beforeLast db k)
  refine hsettled.trans ?_
  cases hrow : db.flows.representative k with
  | none =>
      rw [FlowTable.representative, ← hrows] at hrow
      simp only [updateBaselines, hrow]
      rfl
  | some row =>
      rw [FlowTable.representative, ← hrows] at hrow
      have hknown := known_updateBaselines p o.logNewConnections (dbTime o.now)
        { db with flows := mergeConnection db.flows k } k hrow
      exact congrArg Prod.fst hknown

/-- The connections of a batch go into the baseline one after another, each as its rows stood before. -/
theorem connectionBaseline_foldl_settleConnection (beforeLast : List (String × Option Int))
    {keys : List String} (hkeys : keys.Nodup) (db : FlowDb) :
    (keys.foldl (settleConnection p o beforeLast) db).connectionBaseline =
      (keys.filterMap db.flows.representative).foldl foldRow db.connectionBaseline := by
  induction keys generalizing db with
  | nil => rfl
  | cons key keys ih =>
      obtain ⟨hkey, hkeys⟩ := List.nodup_cons.1 hkeys
      have hrest : keys.filterMap (settleConnection p o beforeLast db key).flows.representative =
          keys.filterMap db.flows.representative := by
        refine List.filterMap_congr fun k hk => ?_
        have hne : k ≠ key := fun heq => hkey (heq ▸ hk)
        rw [FlowTable.representative, connRows_settleConnection_of_ne beforeLast db hne]
        rfl
      rw [List.foldl_cons, ih hkeys, hrest, connectionBaseline_settleConnection, ← List.foldl_append]
      congr 1
      cases hrow : db.flows.representative key with
      | none => rw [List.filterMap_cons_none hrow]; rfl
      | some row => rw [List.filterMap_cons_some hrow]; rfl

/-- The rows that a batch puts into the baseline. -/
def batchRows (p : Primitives) (o : UpsertOptions) (db : FlowDb) (records : List FlowRecord) :
    List FlowRow :=
  ((repairedTable p o db records).keys.dedup.insertionSort (· ≤ ·)).filterMap
    (repairedTable p o db records).flows.representative

theorem connectionBaseline_upsertFlows (db : FlowDb) (records : List FlowRecord) :
    (upsertFlows p o db records).1.connectionBaseline =
      (batchRows p o db records).foldl foldRow db.connectionBaseline := by
  have hnodup : ((repairedTable p o db records).keys.dedup.insertionSort (· ≤ ·)).Nodup :=
    (List.perm_insertionSort _ _).nodup_iff.2 (List.nodup_dedup _)
  have hfinal : (upsertFlows p o db records).1.known = (settledBatch p o db records).known := by
    have hmarked : ∀ (days sorted : List Int) (db' : FlowDb),
        (sorted.foldl FlowDb.markDirty ((dropOldActivity o db').markStale .flows days)).known =
          db'.known := by
      intro days sorted db'
      rw [known_foldl_markDirty]
      exact known_dropOldActivity db'
    exact hmarked _ _ _
  refine (congrArg Prod.fst hfinal).trans ?_
  exact connectionBaseline_foldl_settleConnection
    (writeRecords p o.origin (dbTime o.now) db records).beforeLast hnodup
    { db with
      labelSets := (writeRecords p o.origin (dbTime o.now) db records).labelSets
      flows := (repairedTable p o db records).flows }

/-- A row that goes into the baseline is a primary row of the store after the batch. -/
theorem mem_batchRows {db : FlowDb} {records : List FlowRecord} {row : FlowRow}
    (hrow : row ∈ batchRows p o db records) : ∃ y ∈ (upsertFlows p o db records).1.flows.rows,
      y.isPrimary = true ∧ y.uncounted = row.uncounted := by
  obtain ⟨k, hk, hfound⟩ := List.mem_filterMap.1 hrow
  rw [List.mem_insertionSort, List.mem_dedup] at hk
  have hprimary : row.isPrimary = true := List.find?_some hfound
  obtain ⟨r, hr, rfl⟩ := List.mem_map.1 (List.mem_of_find?_eq_some hfound)
  have hsame := uncounted_settleRow ((repairedTable p o db records).flows.connRows k) r
  have hy : settleRow ((repairedTable p o db records).flows.connRows k) r ∈
      (upsertFlows p o db records).1.flows.connRows k := by
    rw [connRows_upsertFlows db records hk]
    exact List.mem_map_of_mem hr
  refine ⟨_, (FlowTable.mem_connRows.1 hy).1, ?_, hsame⟩
  have hflag := congrArg FlowRow.isPrimary hsame
  exact hflag.trans hprimary

/-- And a primary row of a changed connection goes into it. -/
theorem exists_batchRow {db : FlowDb} {records : List FlowRecord} {y : FlowRow}
    (hy : y ∈ (upsertFlows p o db records).1.flows.rows) (hprimary : y.isPrimary = true)
    (hkey : y.connKey ∈ (repairedTable p o db records).keys) :
    ∃ row ∈ batchRows p o db records, y.uncounted = row.uncounted := by
  have hmem : y ∈ (upsertFlows p o db records).1.flows.connRows y.connKey :=
    FlowTable.mem_connRows.2 ⟨hy, rfl⟩
  rw [connRows_upsertFlows db records hkey] at hmem
  obtain ⟨rows, hrows⟩ : ∃ rows, rows = (repairedTable p o db records).flows.connRows y.connKey :=
    ⟨_, rfl⟩
  rw [← hrows] at hmem
  obtain ⟨r, hr, hry⟩ := List.mem_map.1 hmem
  have hsame : y.uncounted = (mergeRow rows r).uncounted := by
    rw [← hry]
    exact uncounted_settleRow rows r
  have hflag : (mergeRow rows r).isPrimary = true :=
    (congrArg FlowRow.isPrimary hsame).symm.trans hprimary
  -- the rows that merging makes primary all have the chosen row's id
  have hunique : ∀ q ∈ rows, (mergeRow rows q).isPrimary = true → q = r := by
    obtain ⟨chosen, -, hchosen, -⟩ := choosePrimary_spec (List.ne_nil_of_mem hr)
    have hid : ∀ q, (mergeRow rows q).isPrimary = true → q.id = chosen.id := by
      intro q hq
      rw [mergeRow, hchosen] at hq
      simpa [mergeEdit] using hq
    intro q hq hqflag
    rw [hrows] at hq hr
    exact FlowTable.eq_of_id (FlowTable.mem_connRows.1 hq).1 (FlowTable.mem_connRows.1 hr).1
      ((hid q hqflag).trans (hid r hflag).symm)
  have hfound : (repairedTable p o db records).flows.representative y.connKey =
      some (mergeRow rows r) := by
    rw [FlowTable.representative, ← hrows, primaryRow]
    cases hfind : (rows.map (mergeRow rows)).find? FlowRow.isPrimary with
    | none =>
        have hnone := List.find?_eq_none.1 hfind _ (List.mem_map_of_mem hr)
        exact absurd hflag hnone
    | some row =>
        obtain ⟨q, hq, rfl⟩ := List.mem_map.1 (List.mem_of_find?_eq_some hfind)
        rw [hunique q hq (List.find?_some hfind)]
  refine ⟨mergeRow rows r, List.mem_filterMap.2 ⟨y.connKey, ?_, hfound⟩, hsame⟩
  rw [List.mem_insertionSort, List.mem_dedup]
  exact hkey

end Batch

/-! ## Runs -/

/-- What the batches of some records leave: the rows are those of the records and where pairing wants them,
the baseline covers the primary rows, and no more than the records that name its keys. -/
structure BaselineOf (p : Primitives) (records : List FlowRecord) (db : FlowDb) : Prop where
  sound : SoundStore p db.flows
  paired : Paired db.flows
  sightings : db.flows.sightings = seenIn p.digest records
  named : db.flows.rows.map FlowRow.named =
    (records.map (FlowRecord.named p.digest)).foldl addName []
  covers : ∀ r ∈ db.flows.rows, r.isPrimary = true →
    Covers db.connectionBaseline r.connectionKey r.firstDetected r.lastDetected
  first : ∀ k b, db.connectionBaseline k = some b → ∃ s ∈ seenIn p.digest records,
    (∃ r ∈ records, r.named p.digest = (s.recordKey, k)) ∧ s.firstDetected ≤ b.firstSeen
  last : ∀ k b, db.connectionBaseline k = some b → ∃ s ∈ seenIn p.digest records,
    (∃ r ∈ records, r.named p.digest = (s.recordKey, k)) ∧ b.lastSeen ≤ s.counts.lastDetected

section Runs

variable {p : Primitives} {o : UpsertOptions} {records records' more : List FlowRecord} {db db' : FlowDb}

/-- A row is called what the first of its copies was. -/
theorem find?_named {t : FlowTable}
    (h : t.rows.map FlowRow.named = (records.map (FlowRecord.named p.digest)).foldl addName [])
    {r : FlowRow} (hr : r ∈ t.rows) :
    (records.map (FlowRecord.named p.digest)).find? (fun n => n.1 = r.recordKey) = some r.named := by
  have hfind := find?_foldl_addName (records.map (FlowRecord.named p.digest)) [] r.recordKey
  rw [← h, List.nil_append] at hfind
  rw [← hfind]
  cases hrow : (t.rows.map FlowRow.named).find? fun n => n.1 = r.recordKey with
  | none =>
      have hnone := List.find?_eq_none.1 hrow _ (List.mem_map_of_mem hr)
      exact absurd (decide_eq_true rfl) hnone
  | some n =>
      obtain ⟨q, hq, rfl⟩ := List.mem_map.1 (List.mem_of_find?_eq_some hrow)
      have hfound := List.find?_some hrow
      have hkey : q.recordKey = r.recordKey := of_decide_eq_true hfound
      rw [FlowTable.eq_of_recordKey hq hr hkey]

theorem exists_named {t : FlowTable}
    (h : t.rows.map FlowRow.named = (records.map (FlowRecord.named p.digest)).foldl addName [])
    {r : FlowRow} (hr : r ∈ t.rows) : ∃ c ∈ records, c.named p.digest = r.named :=
  List.mem_map.1 (List.mem_of_find?_eq_some (find?_named h hr))

theorem connectionKey_of_uncounted {r s : FlowRow} (h : r.uncounted = s.uncounted) :
    r.connectionKey = s.connectionKey :=
  congrArg Prod.snd (named_of_uncounted h)

theorem lastDetected_of_uncounted {r s : FlowRow} (h : r.uncounted = s.uncounted) :
    r.lastDetected = s.lastDetected := by
  have heq := congrArg FlowRow.lastDetected h
  exact heq

theorem isPrimary_of_uncounted {r s : FlowRow} (h : r.uncounted = s.uncounted) :
    r.isPrimary = s.isPrimary := by
  have heq := congrArg FlowRow.isPrimary h
  exact heq

theorem baselineOf_empty (p : Primitives) : BaselineOf p [] .empty where
  sound := soundStore_empty p
  paired _ hr := absurd hr List.not_mem_nil
  sightings := rfl
  named := rfl
  covers _ hr := absurd hr List.not_mem_nil
  first k b hb := by cases hb
  last k b hb := by cases hb

/-- One batch. -/
theorem BaselineOf.upsert (h : BaselineOf p records db) :
    BaselineOf p (records ++ more) (upsertFlows p o db more).1 := by
  have hsightings : (upsertFlows p o db more).1.flows.sightings = seenIn p.digest (records ++ more) := by
    rw [sightings_upsertFlows, h.sightings, seenIn_append]
  have hnamed : (upsertFlows p o db more).1.flows.rows.map FlowRow.named =
      ((records ++ more).map (FlowRecord.named p.digest)).foldl addName [] := by
    rw [named_upsertFlows, h.named, List.map_append, List.foldl_append]
  -- what is in the baseline from before is still named, and what comes in is a row of the store
  have hkept : ∀ {k : ConnectionKey} {s : Sighting}, s ∈ seenIn p.digest records →
      (∃ r ∈ records, r.named p.digest = (s.recordKey, k)) →
      ∃ s' ∈ seenIn p.digest (records ++ more),
        (∃ r ∈ records ++ more, r.named p.digest = (s'.recordKey, k)) ∧
          s'.firstDetected = s.firstDetected ∧ s.counts.lastDetected ≤ s'.counts.lastDetected := by
    rintro k s hs ⟨r, hr, hrnamed⟩
    rw [seenIn_append]
    obtain ⟨s', hs', hkey, hfirst, hlast⟩ :=
      foldl_addSighting_keeps (more.map (FlowRecord.stored p.digest)) hs
    exact ⟨s', hs', ⟨r, List.mem_append_left _ hr, by rw [hkey, hrnamed]⟩, hfirst, hlast⟩
  have hcomes : ∀ {row}, row ∈ batchRows p o db more → ∃ s ∈ seenIn p.digest (records ++ more),
      (∃ r ∈ records ++ more, r.named p.digest = (s.recordKey, row.connectionKey)) ∧
        s.firstDetected = row.firstDetected ∧ s.counts.lastDetected = row.lastDetected := by
    intro row hrow
    obtain ⟨y, hy, -, hsame⟩ := mem_batchRows hrow
    obtain ⟨r, hr, hrnamed⟩ := exists_named hnamed hy
    refine ⟨y.sighting, hsightings ▸ FlowTable.sighting_mem hy, ⟨r, hr, ?_⟩,
      FlowRow.firstDetected_of_identity (FlowRow.identity_of_uncounted hsame),
      lastDetected_of_uncounted hsame⟩
    rw [hrnamed, ← connectionKey_of_uncounted hsame]
    rfl
  refine ⟨h.sound.run (.upsert o more), paired_upsertFlows h.sound.stored h.paired, hsightings, hnamed,
    ?_, ?_, ?_⟩
  · intro r hr hprimary
    rw [connectionBaseline_upsertFlows]
    by_cases hkey : r.connKey ∈ (repairedTable p o db more).keys
    · obtain ⟨row, hrow, hsame⟩ := exists_batchRow hr hprimary hkey
      rw [connectionKey_of_uncounted hsame, lastDetected_of_uncounted hsame,
        FlowRow.firstDetected_of_identity (FlowRow.identity_of_uncounted hsame)]
      exact covers_foldl hrow
    · -- its connection was left alone, so it was primary before
      rcases (upsertFlows_evolves h.sound.stored more).mem_right hr with ⟨x, hx, hxr⟩ | hnew
      · rcases hxr.known with hsame | ⟨⟨-, hkey'⟩, -⟩
        · have hcovers := h.covers x hx ((isPrimary_of_uncounted hsame).symm.trans hprimary)
          rw [connectionKey_of_uncounted hsame, lastDetected_of_uncounted hsame,
            FlowRow.firstDetected_of_identity hxr.identity]
          exact hcovers.foldl _
        · exact absurd hkey' hkey
      · exact absurd hnew.2.1 hkey
  · intro k b hb
    rw [connectionBaseline_upsertFlows] at hb
    rcases (foldl_foldRow_origin hb).1 with ⟨b₀, hb₀, heq⟩ | ⟨row, hrow, rfl, heq⟩
    · obtain ⟨s, hs, hnames, hle⟩ := h.first k b₀ hb₀
      obtain ⟨s', hs', hnames', hfirst, -⟩ := hkept hs hnames
      exact ⟨s', hs', hnames', by rw [hfirst, ← heq]; exact hle⟩
    · obtain ⟨s, hs, hnames, hfirst, -⟩ := hcomes hrow
      exact ⟨s, hs, hnames, by rw [hfirst, heq]⟩
  · intro k b hb
    rw [connectionBaseline_upsertFlows] at hb
    rcases (foldl_foldRow_origin hb).2 with ⟨b₀, hb₀, heq⟩ | ⟨row, hrow, rfl, heq⟩
    · obtain ⟨s, hs, hnames, hle⟩ := h.last k b₀ hb₀
      obtain ⟨s', hs', hnames', -, hlast⟩ := hkept hs hnames
      exact ⟨s', hs', hnames', by rw [← heq]; exact hle.trans hlast⟩
    · obtain ⟨s, hs, hnames, -, hlast⟩ := hcomes hrow
      exact ⟨s, hs, hnames, by rw [hlast, heq]⟩

theorem upsertBatches_snoc (p : Primitives) (batches : List (UpsertOptions × List FlowRecord))
    (batch : UpsertOptions × List FlowRecord) : upsertBatches p (batches ++ [batch]) =
      (upsertFlows p batch.1 (upsertBatches p batches) batch.2).1 := by
  rw [upsertBatches, List.foldl_append]
  rfl

/-- By induction on the batches. -/
theorem baselineOf_upsertBatches (p : Primitives) (batches : List (UpsertOptions × List FlowRecord)) :
    BaselineOf p (batches.flatMap Prod.snd) (upsertBatches p batches) := by
  induction batches using List.reverseRecOn with
  | nil => exact baselineOf_empty p
  | append_singleton batches batch ih =>
      rw [upsertBatches_snoc, List.flatMap_append, List.flatMap_cons, List.flatMap_nil, List.append_nil]
      exact ih.upsert

/-! ## What every order adds -/

/-- A record that represents its connection in the pairing of all records, all of whose copies name a
key. -/
structure Surely (digest : RecordId → String) (records : List FlowRecord) (q : Sighting)
    (k : ConnectionKey) : Prop where
  represents : wantedIn (seenIn digest records) q = q.recordKey
  names : ∀ r ∈ records, recordKey digest r = q.recordKey → r.connectionKey = k

/-- Whatever key a copy of a record names, the record lies within the times of those that surely
represent a connection with that key. -/
def Enclosed (digest : RecordId → String) (records : List FlowRecord) : Prop :=
  ∀ s ∈ seenIn digest records, ∀ r ∈ records, recordKey digest r = s.recordKey →
    (∃ q ∈ seenIn digest records, Surely digest records q r.connectionKey ∧
      q.firstDetected ≤ s.firstDetected) ∧
    ∃ q ∈ seenIn digest records, Surely digest records q r.connectionKey ∧
      s.counts.lastDetected ≤ q.counts.lastDetected

/-- `first_seen` and `last_seen` of the baseline. -/
def FlowDb.seen (db : FlowDb) (k : ConnectionKey) : Option (Int × Int) :=
  (db.connectionBaseline k).map fun b => (b.firstSeen, b.lastSeen)

/-- Every way of splitting and ordering the records leaves the same baseline. -/
def SameBaseline (p : Primitives) (records : List FlowRecord) : Prop :=
  ∀ batches batches' : List (UpsertOptions × List FlowRecord),
    (batches.flatMap Prod.snd).Perm records → (batches'.flatMap Prod.snd).Perm records →
    ∀ k, (upsertBatches p batches).seen k = (upsertBatches p batches').seen k

/-- Where pairing wants a row does not depend on the order. -/
theorem BaselineOf.wantedIn_eq (h : BaselineOf p records' db) (hperm : records'.Perm records)
    (s : Sighting) : wantedIn (seenIn p.digest records) s = wantedIn db.flows.sightings s := by
  have hkeys := db.flows.sightings_keys_nodup
  rw [h.sightings] at hkeys ⊢
  exact (wantedIn_perm (seenIn_perm p hperm) hkeys s).symm

theorem BaselineOf.isPrimary_iff (h : BaselineOf p records' db) (hperm : records'.Perm records)
    {r : FlowRow} (hr : r ∈ db.flows.rows) :
    r.isPrimary = true ↔ wantedIn (seenIn p.digest records) r.sighting = r.recordKey := by
  rw [h.wantedIn_eq hperm, ← h.paired r hr]
  exact IllumioOps.isPrimary_iff h.sound hr

theorem BaselineOf.exists_row (h : BaselineOf p records' db) (hperm : records'.Perm records)
    {s : Sighting} (hs : s ∈ seenIn p.digest records) : ∃ r ∈ db.flows.rows, r.sighting = s := by
  have hmem := (seenIn_perm p hperm).mem_iff.2 hs
  rw [← h.sightings] at hmem
  exact List.mem_map.1 hmem

/-- What surely represents a connection is covered, in every order. -/
theorem BaselineOf.covers_surely (h : BaselineOf p records' db) (hperm : records'.Perm records)
    {q : Sighting} {k : ConnectionKey} (hq : q ∈ seenIn p.digest records)
    (hsurely : Surely p.digest records q k) :
    Covers db.connectionBaseline k q.firstDetected q.counts.lastDetected := by
  obtain ⟨r, hr, rfl⟩ := h.exists_row hperm hq
  obtain ⟨c, hc, hcnamed⟩ := exists_named h.named hr
  have hk : r.connectionKey = k := by
    rw [← hsurely.names c (hperm.mem_iff.1 hc) (congrArg Prod.fst hcnamed)]
    exact (congrArg Prod.snd hcnamed).symm
  rw [← hk]
  exact h.covers r hr ((h.isPrimary_iff hperm hr).2 hsurely.represents)

/-- When every record is enclosed, one order's baseline covers another's. -/
theorem covers_of_enclosed (henclosed : Enclosed p.digest records) {records'' : List FlowRecord}
    (h : BaselineOf p records' db) (hperm : records'.Perm records)
    (h' : BaselineOf p records'' db') (hperm' : records''.Perm records) {k : ConnectionKey}
    {b : ConnectionBaseline} (hb : db.connectionBaseline k = some b) :
    Covers db'.connectionBaseline k b.firstSeen b.lastSeen := by
  obtain ⟨s, hs, ⟨r, hr, hrnamed⟩, hfirst⟩ := h.first k b hb
  obtain ⟨s', hs', ⟨r', hr', hrnamed'⟩, hlast⟩ := h.last k b hb
  obtain ⟨q, hq, hsurely, hqs⟩ := (henclosed s ((seenIn_perm p hperm).mem_iff.1 hs) r
    (hperm.mem_iff.1 hr) (congrArg Prod.fst hrnamed)).1
  obtain ⟨q', hq', hsurely', hqs'⟩ := (henclosed s' ((seenIn_perm p hperm).mem_iff.1 hs') r'
    (hperm.mem_iff.1 hr') (congrArg Prod.fst hrnamed')).2
  have hk : r.connectionKey = k := congrArg Prod.snd hrnamed
  have hk' : r'.connectionKey = k := congrArg Prod.snd hrnamed'
  rw [hk] at hsurely
  rw [hk'] at hsurely'
  obtain ⟨b', hb', hle, -⟩ := h'.covers_surely hperm' hq hsurely
  obtain ⟨b'', hb'', -, hle'⟩ := h'.covers_surely hperm' hq' hsurely'
  obtain rfl : b' = b'' := Option.some.inj (hb'.symm.trans hb'')
  exact ⟨b', hb', hle.trans (hqs.trans hfirst), hlast.trans (hqs'.trans hle')⟩

theorem sameBaseline_of_enclosed (henclosed : Enclosed p.digest records) : SameBaseline p records := by
  intro batches batches' hperm hperm' k
  have h := baselineOf_upsertBatches p batches
  have h' := baselineOf_upsertBatches p batches'
  unfold FlowDb.seen
  cases hb : (upsertBatches p batches).connectionBaseline k with
  | none =>
      cases hb' : (upsertBatches p batches').connectionBaseline k with
      | none => rfl
      | some b' =>
          obtain ⟨b, hsome, -⟩ := covers_of_enclosed henclosed h' hperm' h hperm hb'
          rw [hb] at hsome
          cases hsome
  | some b =>
      obtain ⟨b', hb', hfirst, hlast⟩ := covers_of_enclosed henclosed h hperm h' hperm' hb
      obtain ⟨b₀, hb₀, hfirst', hlast'⟩ := covers_of_enclosed henclosed h' hperm' h hperm hb'
      obtain rfl : b = b₀ := Option.some.inj (hb.symm.trans hb₀)
      rw [hb', Option.map_some, Option.map_some, le_antisymm hfirst hfirst', le_antisymm hlast hlast']

/-! ## What an order can add -/

theorem mem_seenIn {s : Sighting} : s ∈ seenIn p.digest records ↔
    (∃ q ∈ records.map (FlowRecord.stored p.digest), s = { q with counts := s.counts }) ∧
      totalOf (records.map (FlowRecord.stored p.digest)) s.recordKey = (s.counts : WithBot Counts) :=
  mem_foldl_addSighting (alike_stored p records)

/-- The copies of a record are all that its sighting is made of. -/
theorem mem_seenIn_copies {s : Sighting} (hs : s ∈ seenIn p.digest records)
    {copies : List FlowRecord}
    (hcopies : ∀ r, r ∈ copies ↔ r ∈ records ∧ recordKey p.digest r = s.recordKey) :
    s ∈ seenIn p.digest copies := by
  obtain ⟨⟨q, hq, heq⟩, htotal⟩ := mem_seenIn.1 hs
  have hmem : ∀ s', s'.recordKey = s.recordKey →
      (s' ∈ copies.map (FlowRecord.stored p.digest) ↔ s' ∈ records.map (FlowRecord.stored p.digest)) := by
    intro s' hkey
    simp only [List.mem_map, hcopies]
    constructor
    · rintro ⟨r, ⟨hr, -⟩, rfl⟩
      exact ⟨r, hr, rfl⟩
    · rintro ⟨r, hr, rfl⟩
      exact ⟨r, ⟨hr, hkey⟩, rfl⟩
  refine mem_seenIn.2 ⟨⟨q, (hmem q ?_).2 hq, heq⟩, ?_⟩
  · rw [heq]
  · rw [← htotal, totalOf, totalOf]
    congr 1
    ext s'
    simp only [Finset.mem_filter, List.mem_toFinset]
    constructor
    · exact fun h => ⟨(hmem s' h.2).1 h.1, h.2⟩
    · exact fun h => ⟨(hmem s' h.2).2 h.1, h.2⟩

/-- The copies of one record alone represent their connection. -/
theorem BaselineOf.covers_alone (h : BaselineOf p records db) {s : Sighting}
    (hs : s ∈ seenIn p.digest records)
    (halone : ∀ r ∈ records, recordKey p.digest r = s.recordKey) {k : ConnectionKey}
    (hk : ∀ n, (records.map (FlowRecord.named p.digest)).find? (fun n => n.1 = s.recordKey) = some n →
      n.2 = k) :
    Covers db.connectionBaseline k s.firstDetected s.counts.lastDetected := by
  obtain ⟨r, hr, rfl⟩ := h.exists_row (List.Perm.refl records) hs
  have honly : ∀ q ∈ db.flows.rows, q = r := by
    intro q hq
    obtain ⟨c, hc, hcnamed⟩ := exists_named h.named hq
    exact FlowTable.eq_of_recordKey hq hr ((congrArg Prod.fst hcnamed).symm.trans (halone c hc))
  have hmem : r ∈ db.flows.connRows r.connKey := FlowTable.mem_connRows.2 ⟨hr, rfl⟩
  obtain ⟨primary, hprimary, hflag, -⟩ := (soundConnection_of_merged h.sound.connected h.sound.merged
    (List.ne_nil_of_mem hmem)).one_primary
  have hprimaryRow := honly primary (FlowTable.mem_connRows.1 hprimary).1
  rw [← hk r.named (find?_named h.named hr)]
  exact h.covers r hr ((hflag r hmem).2 hprimaryRow.symm)

/-- A batch on an empty store has nothing but its own primary rows in the baseline. -/
theorem exists_primary_of_batch {k : ConnectionKey} {b : ConnectionBaseline}
    (hb : (upsertFlows p o .empty records).1.connectionBaseline k = some b) :
    (∃ y ∈ (upsertFlows p o .empty records).1.flows.rows, y.isPrimary = true ∧ y.connectionKey = k ∧
      y.firstDetected = b.firstSeen) ∧
    ∃ y ∈ (upsertFlows p o .empty records).1.flows.rows, y.isPrimary = true ∧ y.connectionKey = k ∧
      y.lastDetected = b.lastSeen := by
  rw [connectionBaseline_upsertFlows] at hb
  obtain ⟨hfirst, hlast⟩ := foldl_foldRow_origin hb
  constructor
  · rcases hfirst with ⟨b₀, hb₀, -⟩ | ⟨row, hrow, hk, heq⟩
    · cases hb₀
    · obtain ⟨y, hy, hprimary, hsame⟩ := mem_batchRows hrow
      exact ⟨y, hy, hprimary, (connectionKey_of_uncounted hsame).trans hk,
        (FlowRow.firstDetected_of_identity (FlowRow.identity_of_uncounted hsame)).trans heq⟩
  · rcases hlast with ⟨b₀, hb₀, -⟩ | ⟨row, hrow, hk, heq⟩
    · cases hb₀
    · obtain ⟨y, hy, hprimary, hsame⟩ := mem_batchRows hrow
      exact ⟨y, hy, hprimary, (connectionKey_of_uncounted hsame).trans hk,
        (lastDetected_of_uncounted hsame).trans heq⟩

/-- The first of two lists is asked first. -/
theorem find?_named_append {front rest : List FlowRecord} {key : String} {r : FlowRecord}
    (hr : r ∈ front) (hkey : recordKey p.digest r = key) {n : String × ConnectionKey}
    (hn : ((front ++ rest).map (FlowRecord.named p.digest)).find? (fun n => n.1 = key) = some n) :
    ∃ c ∈ front, c.named p.digest = n := by
  rw [List.map_append, List.find?_append] at hn
  cases hfront : (front.map (FlowRecord.named p.digest)).find? fun n => n.1 = key with
  | none =>
      have hnone := List.find?_eq_none.1 hfront _ (List.mem_map_of_mem hr)
      exact absurd (decide_eq_true hkey) hnone
  | some m =>
      rw [hfront] at hn
      obtain rfl : m = n := Option.some.inj hn
      exact List.mem_map.1 (List.mem_of_find?_eq_some hfront)

theorem enclosed_of_sameBaseline (hsame : SameBaseline p records) : Enclosed p.digest records := by
  intro s hs r hr hkey
  obtain ⟨k, hk⟩ : ∃ k, k = r.connectionKey := ⟨_, rfl⟩
  rw [← hk]
  -- first the copies of the record, those that name the key in front, and then the others
  let isCopy := fun c : FlowRecord => decide (recordKey p.digest c = s.recordKey)
  let namesKey := fun c : FlowRecord => decide (c.connectionKey = k)
  let copies := (records.filter isCopy).filter namesKey ++
    (records.filter isCopy).filter fun c => !namesKey c
  let others := records.filter fun c => !isCopy c
  have hcopies : ∀ c, c ∈ copies ↔ c ∈ records ∧ recordKey p.digest c = s.recordKey := by
    intro c
    rw [(List.filter_append_perm namesKey (records.filter isCopy)).mem_iff, List.mem_filter,
      decide_eq_true_eq]
  have hperm : (copies ++ others).Perm records :=
    ((List.filter_append_perm namesKey (records.filter isCopy)).append_right others).trans
      (List.filter_append_perm isCopy records)
  have halone : Covers (upsertFlows p liveUpsert .empty copies).1.connectionBaseline k s.firstDetected
      s.counts.lastDetected := by
    refine (baselineOf_empty p).upsert.covers_alone (mem_seenIn_copies hs hcopies) ?_ ?_
    · exact fun c hc => ((hcopies c).1 hc).2
    · intro n hn
      obtain ⟨c, hc, rfl⟩ := find?_named_append
        (List.mem_filter.2 ⟨List.mem_filter.2 ⟨hr, decide_eq_true hkey⟩, decide_eq_true hk.symm⟩) hkey hn
      exact of_decide_eq_true (List.mem_filter.1 hc).2
  have hcovers : Covers (upsertBatches p [(liveUpsert, copies), (liveUpsert, others)]).connectionBaseline k
      s.firstDetected s.counts.lastDetected := by
    change Covers (upsertFlows p liveUpsert _ others).1.connectionBaseline _ _ _
    rw [connectionBaseline_upsertFlows]
    exact halone.foldl _
  -- then all in one batch, the records that name another key in front
  let ordered := (records.filter fun c => !namesKey c) ++ records.filter namesKey
  have hordered : ordered.Perm records :=
    List.perm_append_comm.trans (List.filter_append_perm namesKey records)
  have hone : BaselineOf p ordered (upsertFlows p liveUpsert .empty ordered).1 :=
    (baselineOf_empty p).upsert
  obtain ⟨b, hb, hfirst, hlast⟩ := hcovers
  have hseen := hsame [(liveUpsert, copies), (liveUpsert, others)] [(liveUpsert, ordered)]
    (by simpa using hperm) (by simpa using hordered) k
  obtain ⟨b', hb', htimes⟩ : ∃ b', (upsertFlows p liveUpsert .empty ordered).1.connectionBaseline k =
      some b' ∧ b'.firstSeen = b.firstSeen ∧ b'.lastSeen = b.lastSeen := by
    rw [FlowDb.seen, hb] at hseen
    obtain ⟨b', hb', heq⟩ := Option.map_eq_some_iff.1 hseen.symm
    exact ⟨b', hb', congrArg Prod.fst heq, congrArg Prod.snd heq⟩
  -- its rows that have the key surely name it
  have hsurely : ∀ y ∈ (upsertFlows p liveUpsert .empty ordered).1.flows.rows, y.isPrimary = true →
      y.connectionKey = k →
      y.sighting ∈ seenIn p.digest records ∧ Surely p.digest records y.sighting k := by
    intro y hy hprimary hyk
    refine ⟨(seenIn_perm p hordered).mem_iff.1 (hone.sightings ▸ FlowTable.sighting_mem hy),
      (hone.isPrimary_iff hordered hy).1 hprimary, fun c hc hckey => ?_⟩
    by_contra hother
    obtain ⟨c', hc', hnamed⟩ := find?_named_append
      (List.mem_filter.2 ⟨hc, by simpa [namesKey] using hother⟩) hckey (find?_named hone.named hy)
    have hc'k : c'.connectionKey ≠ k := by simpa [namesKey] using (List.mem_filter.1 hc').2
    exact hc'k ((congrArg Prod.snd hnamed).trans hyk)
  obtain ⟨⟨y, hy, hprimary, hyk, hyfirst⟩, ⟨z, hz, hzprimary, hzk, hzlast⟩⟩ := exists_primary_of_batch hb'
  constructor
  · obtain ⟨hmem, hs'⟩ := hsurely y hy hprimary hyk
    refine ⟨_, hmem, hs', ?_⟩
    change y.firstDetected ≤ _
    rw [hyfirst, htimes.1]
    exact hfirst
  · obtain ⟨hmem, hs'⟩ := hsurely z hz hzprimary hzk
    refine ⟨_, hmem, hs', ?_⟩
    change _ ≤ z.lastDetected
    rw [hzlast, htimes.2]
    exact hlast

end Runs

/-- **The baseline does not depend on the order of delivery** exactly if every record is enclosed by those
that surely represent a connection. -/
theorem baseline_order_iff (p : Primitives) (records : List FlowRecord) :
    SameBaseline p records ↔ Enclosed p.digest records :=
  ⟨enclosed_of_sameBaseline, sameBaseline_of_enclosed⟩

/-- The server's report of the web connection, which begins before the client's. -/
def earlyIn : FlowRecord := { webOut with direction := .inbound, firstDetected := seconds 5 }

/-- Delivered alone first, the server's report leaves its own begin in the baseline. -/
theorem not_sameBaseline_web : ¬ SameBaseline .plain [webOut, earlyIn] := by
  intro h
  have hseen : seenIn Primitives.plain.digest [webOut, earlyIn] =
      [webOut.stored Primitives.plain.digest, earlyIn.stored Primitives.plain.digest] := by decide
  obtain ⟨⟨q, hq, hsurely, hfirst⟩, -⟩ := enclosed_of_sameBaseline h
    (earlyIn.stored Primitives.plain.digest) (by rw [hseen]; simp) earlyIn (by simp) rfl
  rw [hseen] at hq
  simp only [List.mem_cons, List.not_mem_nil, or_false] at hq
  rcases hq with rfl | rfl
  · exact absurd hfirst (by decide)
  · -- pairing gives it to the client's report
    have htaken := hsurely.represents
    rw [hseen] at htaken
    exact absurd htaken (by decide)

end IllumioOps
