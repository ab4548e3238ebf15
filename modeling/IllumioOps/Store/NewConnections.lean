import IllumioOps.Store.Connections
import Mathlib.Data.List.Induction

/-!
# The log of new connections

A connection is written to `new_connection_log` when its key enters the baseline, in a batch that logs and on
the port of a service: once, and never for a key that entered otherwise (`logged_once`).
-/

set_option autoImplicit false

namespace IllumioOps

/-! ## What a batch adds -/

/-- The port of a service, not one that a client was given for the connection. -/
def ConnectionKey.isService (k : ConnectionKey) : Bool :=
  decide (0 ≤ k.port) && decide (k.port < dynamicPortsFrom)

namespace FlowDb

def loggedKeys (db : FlowDb) : List ConnectionKey := db.newConnectionLog.map NewConnection.key

/-- What the baseline and the log of new connections hold. -/
def known (db : FlowDb) : (ConnectionKey → Option ConnectionBaseline) × List NewConnection :=
  (db.connectionBaseline, db.newConnectionLog)

end FlowDb

/-- From one state to another every service that entered the baseline was logged, once, if anything
was. -/
structure Logs (logNew : Bool) (db db' : FlowDb) : Prop where
  holds : ∀ k, db.connectionBaseline k ≠ none → db'.connectionBaseline k ≠ none
  logged : ∃ added, db'.loggedKeys = db.loggedKeys ++ added ∧ added.Nodup ∧ ∀ k, k ∈ added ↔
    logNew = true ∧ k.isService = true ∧ db.connectionBaseline k = none ∧ db'.connectionBaseline k ≠ none

section Batch

variable {p : Primitives} {o : UpsertOptions} {logNew : Bool} {db db' db'' : FlowDb}

theorem Logs.of_known_eq (h : db'.known = db.known) : Logs logNew db db' := by
  have hbaseline : db'.connectionBaseline = db.connectionBaseline := congrArg Prod.fst h
  have hlog : db'.newConnectionLog = db.newConnectionLog := congrArg Prod.snd h
  refine ⟨fun k hk => by rwa [hbaseline], [], ?_, List.nodup_nil, fun k => ?_⟩
  · rw [FlowDb.loggedKeys, hlog, List.append_nil, FlowDb.loggedKeys]
  · rw [hbaseline]
    exact iff_of_false List.not_mem_nil fun hk => hk.2.2.2 hk.2.2.1

/-- What was logged first is in the baseline, so it is not logged again. -/
theorem Logs.trans (h : Logs logNew db db') (h' : Logs logNew db' db'') : Logs logNew db db'' := by
  obtain ⟨added, hlog, hnodup, hadded⟩ := h.logged
  obtain ⟨added', hlog', hnodup', hadded'⟩ := h'.logged
  refine ⟨fun k hk => h'.holds k (h.holds k hk), added ++ added', ?_, ?_, fun k => ?_⟩
  · rw [hlog', hlog, List.append_assoc]
  · refine List.nodup_append.mpr ⟨hnodup, hnodup', ?_⟩
    rintro k hk k' hk' rfl
    exact ((hadded k).mp hk).2.2.2 ((hadded' k).mp hk').2.2.1
  · rw [List.mem_append, hadded, hadded']
    constructor
    · rintro (⟨hlogs, hservice, hnone, hsome⟩ | ⟨hlogs, hservice, hnone, hsome⟩)
      · exact ⟨hlogs, hservice, hnone, h'.holds k hsome⟩
      · refine ⟨hlogs, hservice, ?_, hsome⟩
        by_contra hheld
        exact h.holds k hheld hnone
    · rintro ⟨hlogs, hservice, hnone, hsome⟩
      by_cases hbetween : db'.connectionBaseline k = none
      · exact Or.inr ⟨hlogs, hservice, hbetween, hsome⟩
      · exact Or.inl ⟨hlogs, hservice, hnone, hbetween⟩

/-! ## One connection -/

/-- What `_update_baselines` does to the baseline and the log. -/
theorem known_updateBaselines (p : Primitives) (logNew : Bool) (stamp : Int) (db : FlowDb)
    (connKey : String) {row : FlowRow} (hrow : primaryRow (db.flows.connRows connKey) = some row) :
    (updateBaselines p logNew stamp db connKey).known =
      (Function.update db.connectionBaseline row.connectionKey
        (some (.bump (db.connectionBaseline row.connectionKey) row.firstDetected row.lastDetected
          row.policyDecision)),
      if logNew && row.connectionKey.isService && (db.connectionBaseline row.connectionKey).isNone
      then db.newConnectionLog ++ [row.newConnection p.addresses stamp] else db.newConnectionLog) := by
  have hservice : (logNew && decide (0 ≤ row.connectionKey.port) &&
      decide (row.connectionKey.port < dynamicPortsFrom) &&
        (db.connectionBaseline row.connectionKey).isNone) =
      (logNew && row.connectionKey.isService && (db.connectionBaseline row.connectionKey).isNone) := by
    rw [ConnectionKey.isService, Bool.and_assoc logNew]
  rw [← hservice]
  simp only [updateBaselines, hrow]
  -- the other baselines are written after it and do not touch it
  cases row.initiatorUser <;> cases row.initiatorProcess <;> rfl

theorem logs_updateBaselines (p : Primitives) (logNew : Bool) (stamp : Int) (db : FlowDb)
    (connKey : String) : Logs logNew db (updateBaselines p logNew stamp db connKey) := by
  cases hrow : primaryRow (db.flows.connRows connKey) with
  | none =>
      apply Logs.of_known_eq
      simp only [updateBaselines, hrow]
  | some row =>
      have hknown := known_updateBaselines p logNew stamp db connKey hrow
      have hbaseline := congrArg Prod.fst hknown
      have hlog := congrArg Prod.snd hknown
      simp only [FlowDb.known] at hbaseline hlog
      have hheld : ∀ k, (updateBaselines p logNew stamp db connKey).connectionBaseline k ≠ none ↔
          k = row.connectionKey ∨ db.connectionBaseline k ≠ none := by
        intro k
        rw [hbaseline]
        by_cases hk : k = row.connectionKey
        · rw [hk, Function.update_self]
          exact iff_of_true (Option.some_ne_none _) (Or.inl rfl)
        · rw [Function.update_of_ne hk, or_iff_right hk]
      refine ⟨fun k hk => (hheld k).mpr (Or.inr hk), ?_⟩
      by_cases hnew : (logNew && row.connectionKey.isService &&
          (db.connectionBaseline row.connectionKey).isNone) = true
      · -- the key enters, and it is logged
        refine ⟨[row.connectionKey], ?_, List.nodup_singleton _, fun k => ?_⟩
        · rw [FlowDb.loggedKeys, hlog, if_pos hnew, List.map_append]
          rfl
        · simp only [Bool.and_eq_true, Option.isNone_iff_eq_none] at hnew
          rw [List.mem_singleton, hheld k]
          constructor
          · rintro rfl
            exact ⟨hnew.1.1, hnew.1.2, hnew.2, Or.inl rfl⟩
          · rintro ⟨-, -, hnone, hsome⟩
            exact hsome.resolve_right fun hk => hk hnone
      · refine ⟨[], ?_, List.nodup_nil, fun k => ?_⟩
        · rw [FlowDb.loggedKeys, hlog, if_neg hnew, List.append_nil]
          rfl
        · rw [hheld k]
          refine iff_of_false List.not_mem_nil ?_
          rintro ⟨hlogs, hservice, hnone, hsome⟩
          obtain rfl := hsome.resolve_right fun hk => hk hnone
          exact hnew (by simp [hlogs, hservice, hnone])

theorem known_recordGrowth (beforeLast : List (String × Option Int)) (increments : Increments)
    (stamp : Int) (db : FlowDb) (connKey : String) :
    (recordGrowth beforeLast increments stamp db connKey).1.known = db.known := by
  unfold recordGrowth
  dsimp only
  split <;> rfl

theorem known_addActivity (addr : Addresses) (hour : Int) (row : FlowRow) (grew : Nat × Option Int)
    (db : FlowDb) : (addActivity addr hour row grew db).known = db.known := by
  unfold addActivity
  split
  · rfl
  · split <;> rfl

theorem known_settleConnection (beforeLast : List (String × Option Int)) (db : FlowDb)
    (connKey : String) : (settleConnection p o beforeLast db connKey).known =
      (updateBaselines p o.logNewConnections (dbTime o.now)
        { db with flows := mergeConnection db.flows connKey } connKey).known := by
  unfold settleConnection
  dsimp only
  split
  · rw [known_addActivity, known_recordGrowth]
  · rw [known_recordGrowth]

theorem logs_settleConnection (beforeLast : List (String × Option Int)) (db : FlowDb)
    (connKey : String) :
    Logs o.logNewConnections db (settleConnection p o beforeLast db connKey) := by
  have hmerged : Logs o.logNewConnections db
      { db with flows := mergeConnection db.flows connKey } := Logs.of_known_eq rfl
  have hbaselines := hmerged.trans (logs_updateBaselines p o.logNewConnections (dbTime o.now)
    { db with flows := mergeConnection db.flows connKey } connKey)
  exact hbaselines.trans (Logs.of_known_eq (known_settleConnection beforeLast db connKey))

/-- By induction on the connections of the batch: those of one key enter it together. -/
theorem logs_foldl_settleConnection (beforeLast : List (String × Option Int)) (keys : List String)
    (db : FlowDb) :
    Logs o.logNewConnections db (keys.foldl (settleConnection p o beforeLast) db) := by
  induction keys generalizing db with
  | nil => exact Logs.of_known_eq rfl
  | cons key keys ih =>
      exact (logs_settleConnection beforeLast db key).trans (ih (settleConnection p o beforeLast db key))

/-! ## One batch -/

theorem known_dropOldActivity (db : FlowDb) : (dropOldActivity o db).known = db.known := by
  unfold dropOldActivity
  split <;> split <;> rfl

theorem known_foldl_markDirty (touched : List Int) (db : FlowDb) :
    (touched.foldl FlowDb.markDirty db).known = db.known := by
  induction touched generalizing db with
  | nil => rfl
  | cons day touched ih => rw [List.foldl_cons, ih (db.markDirty day)]; rfl

theorem logs_upsertFlows (db : FlowDb) (records : List FlowRecord) :
    Logs o.logNewConnections db (upsertFlows p o db records).1 := by
  have hbatch : ∀ (labelSets : LabelSets) (flows : FlowTable) (beforeLast : List (String × Option Int))
      (keys : List String) (days sorted : List Int),
      Logs o.logNewConnections db (sorted.foldl FlowDb.markDirty
        ((dropOldActivity o (keys.foldl (settleConnection p o beforeLast)
          { db with labelSets := labelSets, flows := flows })).markStale .flows days)) := by
    intro labelSets flows beforeLast keys days sorted
    have hstart : Logs o.logNewConnections db { db with labelSets := labelSets, flows := flows } :=
      Logs.of_known_eq rfl
    have hsettled : Logs o.logNewConnections db (keys.foldl (settleConnection p o beforeLast)
        { db with labelSets := labelSets, flows := flows }) :=
      hstart.trans (logs_foldl_settleConnection beforeLast keys _)
    refine hsettled.trans (Logs.of_known_eq ?_)
    rw [known_foldl_markDirty]
    exact known_dropOldActivity _
  exact hbatch _ _ _ _ _ _

end Batch

/-! ## Runs -/

/-- Whether an operation writes the log. -/
def ConnectionOp.logs : ConnectionOp → Bool
  | .upsert o _ => o.logNewConnections
  | .deleteBefore .. => false

/-- The store after a run, from an empty one. -/
def storeAfter (p : Primitives) (ops : List ConnectionOp) : FlowDb :=
  ops.foldl (ConnectionOp.run p) .empty

/-- A key enters the baseline in an operation. -/
def Enters (p : Primitives) (before : List ConnectionOp) (op : ConnectionOp) (k : ConnectionKey) : Prop :=
  (storeAfter p before).connectionBaseline k = none ∧
    (storeAfter p (before ++ [op])).connectionBaseline k ≠ none

/-- What is owed over a run. -/
structure LoggedOnce (p : Primitives) (ops : List ConnectionOp) : Prop where
  once : (storeAfter p ops).loggedKeys.Nodup
  exactly : ∀ k, k ∈ (storeAfter p ops).loggedKeys ↔ k.isService = true ∧
    ∃ before op after, ops = before ++ op :: after ∧ op.logs = true ∧ Enters p before op k
  silent : ∀ before op after k, ops = before ++ op :: after → Enters p before op k →
    op.logs = false ∨ k.isService = false → k ∉ (storeAfter p ops).loggedKeys

section Runs

variable {p : Primitives}

/-- Expired rows leave both alone. -/
theorem logs_run (op : ConnectionOp) (db : FlowDb) : Logs op.logs db (op.run p db) := by
  cases op with
  | upsert o records => exact logs_upsertFlows db records
  | deleteBefore => exact Logs.of_known_eq rfl

theorem storeAfter_snoc (ops : List ConnectionOp) (op : ConnectionOp) :
    storeAfter p (ops ++ [op]) = op.run p (storeAfter p ops) := by
  rw [storeAfter, List.foldl_append]
  rfl

/-- The invariant: nothing is logged twice, and what is logged is in the baseline. -/
theorem logged_held (ops : List ConnectionOp) : (storeAfter p ops).loggedKeys.Nodup ∧
    ∀ k ∈ (storeAfter p ops).loggedKeys, (storeAfter p ops).connectionBaseline k ≠ none := by
  induction ops using List.reverseRecOn with
  | nil => exact ⟨List.nodup_nil, fun k hk => absurd hk List.not_mem_nil⟩
  | append_singleton ops op ih =>
      obtain ⟨hnodup, hheld⟩ := ih
      have hstep := logs_run (p := p) op (storeAfter p ops)
      obtain ⟨added, hlog, hfresh, hadded⟩ := hstep.logged
      rw [storeAfter_snoc, hlog]
      refine ⟨List.nodup_append.mpr ⟨hnodup, hfresh, ?_⟩, fun k hk => ?_⟩
      · rintro k hk k' hk' rfl
        exact hheld k hk ((hadded k).mp hk').2.2.1
      · rcases List.mem_append.mp hk with hk | hk
        · exact hstep.holds k (hheld k hk)
        · exact ((hadded k).mp hk).2.2.2

/-- A key of the baseline is logged later only if it was already. -/
theorem logged_of_held {ops : List ConnectionOp} {k : ConnectionKey}
    (hk : (storeAfter p ops).connectionBaseline k ≠ none) (more : List ConnectionOp) :
    k ∈ (storeAfter p (ops ++ more)).loggedKeys ↔ k ∈ (storeAfter p ops).loggedKeys := by
  have hrun : (storeAfter p (ops ++ more)).connectionBaseline k ≠ none ∧
      (k ∈ (storeAfter p (ops ++ more)).loggedKeys ↔ k ∈ (storeAfter p ops).loggedKeys) := by
    induction more using List.reverseRecOn with
    | nil => simpa using hk
    | append_singleton more op ih =>
        obtain ⟨hheld, hiff⟩ := ih
        have hstep := logs_run (p := p) op (storeAfter p (ops ++ more))
        obtain ⟨added, hlog, -, hadded⟩ := hstep.logged
        have hnot : k ∉ added := fun h => hheld ((hadded k).mp h).2.2.1
        rw [← List.append_assoc, storeAfter_snoc, hlog, List.mem_append, or_iff_left hnot]
        exact ⟨hstep.holds k hheld, hiff⟩
  exact hrun.2

/-- An operation logs a key exactly when it enters then. -/
theorem logged_snoc (before : List ConnectionOp) (op : ConnectionOp) (k : ConnectionKey) :
    k ∈ (storeAfter p (before ++ [op])).loggedKeys ↔ k ∈ (storeAfter p before).loggedKeys ∨
      op.logs = true ∧ k.isService = true ∧ Enters p before op k := by
  obtain ⟨added, hlog, -, hadded⟩ := (logs_run (p := p) op (storeAfter p before)).logged
  rw [Enters, storeAfter_snoc, hlog, List.mem_append, hadded]

/-- **Each new connection is logged once**: over every run, and exactly those whose key entered the
baseline in a batch that logs and on the port of a service. -/
theorem logged_once (p : Primitives) (ops : List ConnectionOp) : LoggedOnce p ops := by
  refine ⟨(logged_held ops).1, fun k => ?_, ?_⟩
  · constructor
    · intro hk
      -- the operation that logged it, by induction on the run
      induction ops using List.reverseRecOn with
      | nil => exact absurd hk List.not_mem_nil
      | append_singleton ops op ih =>
          rcases (logged_snoc ops op k).mp hk with hk | ⟨hlogs, hservice, henters⟩
          · obtain ⟨hservice, before, op', after, hsplit, hlogs, henters⟩ := ih hk
            exact ⟨hservice, before, op', after ++ [op], by rw [hsplit]; simp, hlogs, henters⟩
          · exact ⟨hservice, ops, op, [], rfl, hlogs, henters⟩
    · rintro ⟨hservice, before, op, after, rfl, hlogs, henters⟩
      have hsplit : before ++ op :: after = (before ++ [op]) ++ after := by simp
      rw [hsplit, logged_of_held henters.2]
      exact (logged_snoc before op k).mpr (Or.inr ⟨hlogs, hservice, henters⟩)
  · rintro before op after k rfl henters hother hk
    have hsplit : before ++ op :: after = (before ++ [op]) ++ after := by simp
    rw [hsplit, logged_of_held henters.2, logged_snoc] at hk
    rcases hk with hk | ⟨hlogs, hservice, -⟩
    · exact (logged_held before).2 k hk henters.1
    · rcases hother with hother | hother
      · rw [hlogs] at hother
        cases hother
      · rw [hservice] at hother
        cases hother

end Runs

end IllumioOps
