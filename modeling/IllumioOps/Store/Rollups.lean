import IllumioOps.Store.Writes
import Mathlib.Data.List.Induction

/-!
# Daily rollups

`flow_rollup_daily` holds, per day, the primary rows grouped and summed. A batch does not
write it: it leaves the days it touches dirty, and a refresh rebuilds them, except days
that retention may have thinned. Over any run, a day that is neither dirty nor frozen has
exactly the rollup of its rows.
-/

set_option autoImplicit false

namespace IllumioOps

open Tables

variable {p : Primitives} {o : UpsertOptions}

/-! ## Rebuilding a day -/

/-- What a primary row gives to its day's rollup. -/
structure RollupFact where
  key : RollupKey
  connections : Nat
  bytesIn : Option Int
  bytesOut : Option Int
  deriving DecidableEq

def FlowRow.rollupFact (r : FlowRow) : RollupFact where
  key :=
    { srcKey := r.srcKey
      dstKey := r.dstKey
      port := r.port.getD noPort
      proto := r.proto
      policyDecision := r.policyDecision
      initiatorUser := (r.initiatorUser.map Subtype.val).getD ""
      initiatorProcess := (r.initiatorProcess.map Subtype.val).getD "" }
  connections := r.numConnections
  bytesIn := r.bytesIn
  bytesOut := r.bytesOut

/-- One row per group, with its sums. -/
def rollupGroups (day : Int) (facts : List RollupFact) : List RollupRow :=
  (facts.map RollupFact.key).dedup.map fun key =>
    let group := facts.filter fun f => f.key = key
    { day := day
      key := key
      connections := (group.map RollupFact.connections).sum
      flowRecords := group.length
      bytesIn := (group.filterMap RollupFact.bytesIn).sum
      bytesOut := (group.filterMap RollupFact.bytesOut).sum
      bytesKnownRecords := (group.filterMap RollupFact.bytesIn).length }

/-- The primary rows last seen on a day. -/
def primaryOn (rows : List FlowRow) (day : Int) : List FlowRow :=
  rows.filter fun r => r.isPrimary && dayStart day ≤ r.lastDetected &&
    r.lastDetected < dayStart (day + 1)

/-- `ROLLUP_INSERT`. -/
def rollupInsert (rows : List FlowRow) (day : Int) : List RollupRow :=
  rollupGroups day ((primaryOn rows day).map FlowRow.rollupFact)

/-- `rebuild_rollup`: one day, from its primary rows; the rows written. -/
def rebuildRollup (db : FlowDb) (day at_ : Int) : FlowDb × Nat :=
  let rows := rollupInsert db.flows.rows day
  ({ db with
      rollups := (db.rollups.filter fun r => r.day ≠ day) ++ rows
      rollupState := db.rollupState.insert day { dirty := false, builtAt := some (dbTime at_) } },
    rows.length)

/-! ## Refreshing what changed -/

/-- The dirty days in order, with the time they were built. -/
def dirtyDays (db : FlowDb) : List (Int × Option Int) :=
  ((db.rollupState.entries.filter fun e => e.2.dirty).map fun e =>
    (e.1, e.2.builtAt)).insertionSort fun a b => a.1 ≤ b.1

/-- A day that retention may have thinned and that was built before. -/
def isFrozen (frozenThrough : Option Int) (e : Int × Option Int) : Bool :=
  match frozenThrough with
  | none => false
  | some through => e.1 ≤ through && e.2.isSome

/-- A past day, a day never built, or today when its last build is old enough. -/
def isDue (at_ todayEvery : Int) (e : Int × Option Int) : Bool :=
  e.1 < dbDay at_ ||
    match e.2 with
    | none => true
    | some builtAt => todayEvery ≤ at_ - builtAt

/-- `UPDATE rollup_state SET dirty = 0 WHERE day = ?`. -/
def FlowDb.clearDirty (db : FlowDb) (day : Int) : FlowDb :=
  match db.rollupState.lookup day with
  | none => db
  | some s => { db with rollupState := db.rollupState.insert day { s with dirty := false } }

/-- `refresh_rollups`: frozen days are left as they are, the due ones rebuilt; the days rebuilt. -/
def refreshRollups (db : FlowDb) (at_ todayEvery : Int) (frozenThrough : Option Int) :
    FlowDb × List Int :=
  let dirty := dirtyDays db
  let frozen := (dirty.filter (isFrozen frozenThrough)).map Prod.fst
  let due := (dirty.filter fun e => !isFrozen frozenThrough e && isDue at_ todayEvery e).map Prod.fst
  (due.foldl (fun db day => (rebuildRollup db day at_).1) (frozen.foldl FlowDb.clearDirty db), due)

/-! ## What a day's rollup depends on -/

/-- The rollup of a day as it is stored. -/
def FlowDb.rollupsOn (db : FlowDb) (day : Int) : List RollupRow :=
  db.rollups.filter fun r => r.day = day

/-- The day waits for a rebuild. -/
def FlowDb.Dirty (db : FlowDb) (day : Int) : Prop :=
  ∃ s, db.rollupState.lookup day = some s ∧ s.dirty = true

theorem primaryOn_eq (rows : List FlowRow) (day : Int) :
    primaryOn rows day = rows.filter fun r => r.isPrimary && r.day = day := by
  apply List.filter_congr
  intro r _
  rw [Bool.and_assoc, ← Bool.decide_and]
  congr 1
  exact decide_eq_decide.2 (dbDay_eq_iff r.lastDetected day).symm

theorem day_of_mem_rollupInsert {rows : List FlowRow} {day : Int} {r : RollupRow}
    (hr : r ∈ rollupInsert rows day) : r.day = day := by
  obtain ⟨key, _, rfl⟩ := List.mem_map.1 hr
  rfl

/-- A rebuild makes its day's rollup that of its rows. -/
theorem rollupsOn_rebuildRollup (db : FlowDb) (day at_ : Int) :
    (rebuildRollup db day at_).1.rollupsOn day = rollupInsert db.flows.rows day := by
  unfold FlowDb.rollupsOn rebuildRollup
  rw [List.filter_append, List.filter_filter]
  have hold : db.rollups.filter (fun r => decide (r.day = day) && decide (r.day ≠ day)) = [] := by
    apply List.filter_eq_nil_iff.2
    intro r _
    simp
  have hnew : (rollupInsert db.flows.rows day).filter (fun r => decide (r.day = day)) =
      rollupInsert db.flows.rows day := by
    apply List.filter_eq_self.2
    intro r hr
    simp [day_of_mem_rollupInsert hr]
  rw [hold, hnew, List.nil_append]

/-- A rebuild leaves the other days alone. -/
theorem rebuildRollup_of_ne (db : FlowDb) {day e : Int} (at_ : Int) (hne : day ≠ e) :
    (rebuildRollup db e at_).1.rollupsOn day = db.rollupsOn day ∧
      (rebuildRollup db e at_).1.rollupState.lookup day = db.rollupState.lookup day := by
  constructor
  · unfold FlowDb.rollupsOn rebuildRollup
    rw [List.filter_append, List.filter_filter]
    have hnew : (rollupInsert db.flows.rows e).filter (fun r => decide (r.day = day)) = [] := by
      apply List.filter_eq_nil_iff.2
      intro r hr
      rw [day_of_mem_rollupInsert hr]
      simpa using hne.symm
    rw [hnew, List.append_nil]
    apply List.filter_congr
    intro r _
    by_cases hr : r.day = day
    · simp [hr, hne]
    · simp [hr]
  · exact AList.lookup_insert_ne hne

/-- A day that a batch does not touch keeps its rollup, dirty or not. -/
theorem rollupInsert_of_evolves {keys : List String} {touched : List Int} {day : Int}
    {rows rows' : List FlowRow} {N : FlowRow → Prop} (h : Evolves (Kept keys touched) N rows rows')
    (hN : ∀ y, N y → y.day ∈ touched) (hday : day ∉ touched) :
    rollupInsert rows' day = rollupInsert rows day := by
  unfold rollupInsert
  rw [primaryOn_eq, primaryOn_eq]
  congr 1
  apply h.filter_map_eq
  · intro x _ y _ hxy
    rcases hxy.known with hknown | ⟨_, hx, hy⟩
    · have hprimary : y.isPrimary = x.isPrimary := by
        have heq := congrArg FlowRow.isPrimary hknown
        exact heq
      have hfact : y.rollupFact = x.rollupFact := by
        have heq := congrArg FlowRow.rollupFact hknown
        exact heq
      exact ⟨by rw [FlowRow.day_of_uncounted hknown, hprimary], fun _ => hfact.symm⟩
    · have hxd : x.day ≠ day := fun heq => hday (heq ▸ hx)
      have hyd : y.day ≠ day := fun heq => hday (heq ▸ hy)
      simp [hxd, hyd]
  · intro y _ hy
    have hyd : y.day ≠ day := fun heq => hday (heq ▸ hN y hy)
    simp [hyd]

/-! ## Runs -/

inductive RollupOp where
  | upsert (o : UpsertOptions) (records : List FlowRecord)
  | rebuild (day at_ : Int)
  | refresh (at_ todayEvery : Int) (frozenThrough : Option Int)

def RollupOp.run (p : Primitives) (db : FlowDb) : RollupOp → FlowDb
  | .upsert o records => (upsertFlows p o db records).1
  | .rebuild day at_ => (rebuildRollup db day at_).1
  | .refresh at_ todayEvery frozenThrough => (refreshRollups db at_ todayEvery frozenThrough).1

/-- The `frozen_through` bounds that a run passed. -/
def frozenBounds (ops : List RollupOp) : List Int :=
  ops.filterMap fun
    | .refresh _ _ frozenThrough => frozenThrough
    | _ => none

/-- A day's rollup is that of its rows, or the day waits for a rebuild, or it is frozen. -/
def RollupCurrent (bounds : List Int) (db : FlowDb) (day : Int) : Prop :=
  db.Dirty day ∨ (∃ through ∈ bounds, day ≤ through) ∨
    db.rollupsOn day = rollupInsert db.flows.rows day

theorem RollupCurrent.mono {bounds bounds' : List Int} {db : FlowDb} {day : Int}
    (h : RollupCurrent bounds db day) (hsub : ∀ b ∈ bounds, b ∈ bounds') :
    RollupCurrent bounds' db day := by
  rcases h with hdirty | ⟨b, hb, hle⟩ | hsame
  · exact Or.inl hdirty
  · exact Or.inr (Or.inl ⟨b, hsub b hb, hle⟩)
  · exact Or.inr (Or.inr hsame)

/-- A rebuild keeps every day current. -/
theorem RollupCurrent.rebuild {bounds : List Int} {db : FlowDb} {day : Int}
    (h : RollupCurrent bounds db day) (e at_ : Int) :
    RollupCurrent bounds (rebuildRollup db e at_).1 day := by
  by_cases heq : day = e
  · subst heq
    exact Or.inr (Or.inr (rollupsOn_rebuildRollup db day at_))
  · obtain ⟨hrollups, hstate⟩ := rebuildRollup_of_ne db at_ heq
    unfold RollupCurrent FlowDb.Dirty
    rw [hrollups, hstate]
    exact h

theorem RollupCurrent.rebuilds {bounds : List Int} {db : FlowDb} {day : Int}
    (h : RollupCurrent bounds db day) (due : List Int) (at_ : Int) :
    RollupCurrent bounds (due.foldl (fun db day => (rebuildRollup db day at_).1) db) day := by
  induction due generalizing db with
  | nil => exact h
  | cons e due ih => exact ih (h.rebuild e at_)

/-- Clearing days up to a bound keeps every day current, the bound counted. -/
theorem RollupCurrent.clear {bounds : List Int} {db : FlowDb} {day through : Int}
    (h : RollupCurrent bounds db day) {frozen : List Int} (hfrozen : ∀ e ∈ frozen, e ≤ through) :
    RollupCurrent (through :: bounds) (frozen.foldl FlowDb.clearDirty db) day := by
  have hweaken : RollupCurrent (through :: bounds) db day :=
    h.mono fun b hb => List.mem_cons_of_mem _ hb
  by_cases hle : day ≤ through
  · exact Or.inr (Or.inl ⟨through, List.mem_cons_self, hle⟩)
  · clear h
    induction frozen generalizing db with
    | nil => exact hweaken
    | cons e frozen ih =>
        have hne : day ≠ e := by
          rintro rfl
          exact hle (hfrozen day List.mem_cons_self)
        apply ih (fun e he => hfrozen e (List.mem_cons_of_mem _ he))
        unfold FlowDb.clearDirty
        split
        · exact hweaken
        · unfold RollupCurrent FlowDb.Dirty
          rw [AList.lookup_insert_ne hne]
          exact hweaken

/-- A refresh keeps every day current. -/
theorem RollupCurrent.refresh {bounds : List Int} {db : FlowDb} {day : Int}
    (h : RollupCurrent bounds db day) (at_ todayEvery : Int) (frozenThrough : Option Int) :
    RollupCurrent (frozenThrough.toList ++ bounds)
      (refreshRollups db at_ todayEvery frozenThrough).1 day := by
  apply RollupCurrent.rebuilds
  cases frozenThrough with
  | none =>
      have hnone : (dirtyDays db).filter (isFrozen none) = [] := by
        apply List.filter_eq_nil_iff.2
        intro e _
        simp [isFrozen]
      rw [hnone]
      exact h
  | some through =>
      apply h.clear
      intro e he
      obtain ⟨entry, hentry, rfl⟩ := List.mem_map.1 he
      have hfrozen := (List.mem_filter.1 hentry).2
      simp only [isFrozen, Bool.and_eq_true, decide_eq_true_eq] at hfrozen
      exact hfrozen.1

/-- A batch keeps every day current: the days of rows that it changes are left dirty. -/
theorem RollupCurrent.upsert {bounds : List Int} {db : FlowDb} {day : Int}
    (h : RollupCurrent bounds db day) (hdb : db.flows.Stored p) (records : List FlowRecord) :
    RollupCurrent bounds (upsertFlows p o db records).1 day := by
  have hmarked := upsertFlows_daysMarked (p := p) (o := o) db records
  by_cases hday : day ∈ (upsertFlows p o db records).2.daysTouched
  · exact Or.inl ⟨_, by rw [hmarked.rollupState, if_pos hday], rfl⟩
  · unfold RollupCurrent FlowDb.Dirty FlowDb.rollupsOn
    rw [hmarked.rollupState, if_neg hday, hmarked.rollups,
      rollupInsert_of_evolves (upsertFlows_evolves hdb records) (fun _ hy => hy.2.2) hday]
    exact h

/-- What a row shows to the rollups. -/
structure SameInRollups (x y : FlowRow) : Prop where
  day : y.day = x.day
  isPrimary : y.isPrimary = x.isPrimary
  fact : y.rollupFact = x.rollupFact

/-- A row that changes what it shows leaves its old day and its new day dirty. -/
structure ChangesDirty (db : FlowDb) (x y : FlowRow) : Prop where
  identity : y.identity = x.identity
  shown : SameInRollups x y ∨ db.Dirty x.day ∧ db.Dirty y.day

theorem upsertFlows_changesDirty {db : FlowDb} (hdb : db.flows.Stored p)
    (records : List FlowRecord) :
    Evolves (ChangesDirty (upsertFlows p o db records).1)
      (fun y => (upsertFlows p o db records).1.Dirty y.day)
      db.flows.rows (upsertFlows p o db records).1.flows.rows := by
  have hmarked := upsertFlows_daysMarked (p := p) (o := o) db records
  have hdirty : ∀ d ∈ (upsertFlows p o db records).2.daysTouched,
      (upsertFlows p o db records).1.Dirty d := by
    intro d hd
    exact ⟨_, by rw [hmarked.rollupState, if_pos hd], rfl⟩
  apply (upsertFlows_evolves hdb records).mono
  · intro x _ y _ hxy
    refine ⟨hxy.identity, ?_⟩
    rcases hxy.known with hknown | ⟨_, hx, hy⟩
    · refine Or.inl ⟨FlowRow.day_of_uncounted hknown, ?_, ?_⟩
      · have heq := congrArg FlowRow.isPrimary hknown
        exact heq
      · have heq := congrArg FlowRow.rollupFact hknown
        exact heq
    · exact Or.inr ⟨hdirty _ hx, hdirty _ hy⟩
  · intro y _ hy
    exact hdirty _ hy.2.2

theorem rebuilds_flows (due : List Int) (at_ : Int) (db : FlowDb) :
    (due.foldl (fun db day => (rebuildRollup db day at_).1) db).flows = db.flows := by
  induction due generalizing db with
  | nil => rfl
  | cons e due ih => exact ih _

theorem clears_flows (frozen : List Int) (db : FlowDb) :
    (frozen.foldl FlowDb.clearDirty db).flows = db.flows := by
  induction frozen generalizing db with
  | nil => rfl
  | cons e frozen ih =>
      rw [List.foldl_cons, ih]
      unfold FlowDb.clearDirty
      split <;> rfl

/-- What every run keeps: rows stand for records, and every day is current. -/
structure RollupInv (p : Primitives) (bounds : List Int) (db : FlowDb) : Prop where
  stored : db.flows.Stored p
  current : ∀ day, RollupCurrent bounds db day

theorem RollupInv.run {bounds : List Int} {db : FlowDb} (h : RollupInv p bounds db)
    (op : RollupOp) : RollupInv p (frozenBounds [op] ++ bounds) (op.run p db) := by
  cases op with
  | upsert o records =>
      exact ⟨stored_upsertFlows h.stored records,
        fun day => (h.current day).upsert h.stored records⟩
  | rebuild day at_ => exact ⟨h.stored, fun d => (h.current d).rebuild day at_⟩
  | refresh at_ todayEvery frozenThrough =>
      refine ⟨?_, fun day => ?_⟩
      · change FlowTable.Stored p (refreshRollups db at_ todayEvery frozenThrough).1.flows
        unfold refreshRollups
        rw [rebuilds_flows, clears_flows]
        exact h.stored
      · apply ((h.current day).refresh at_ todayEvery frozenThrough).mono
        intro b hb
        cases frozenThrough <;> exact hb

theorem rollupInv_of_run (p : Primitives) (ops : List RollupOp) :
    RollupInv p (frozenBounds ops) (ops.foldl (RollupOp.run p) .empty) := by
  induction ops using List.reverseRecOn with
  | nil =>
      refine ⟨fun r hr => absurd hr List.not_mem_nil, fun day => Or.inr (Or.inr ?_)⟩
      rfl
  | append_singleton ops op ih =>
      rw [List.foldl_append]
      have hstep := ih.run op
      refine ⟨hstep.stored, fun day => (hstep.current day).mono ?_⟩
      intro b hb
      rw [frozenBounds, List.filterMap_append]
      exact List.mem_append.2 (List.mem_append.1 hb).symm

/-- After any run, every day that is neither dirty nor frozen has the rollup of its rows, and a
further batch leaves the old and the new day of every row that it changes dirty. -/
theorem rollups_current_of_run (p : Primitives) (ops : List RollupOp) :
    (∀ day, RollupCurrent (frozenBounds ops) (ops.foldl (RollupOp.run p) .empty) day) ∧
      ∀ (o : UpsertOptions) (records : List FlowRecord),
        Evolves
          (ChangesDirty (upsertFlows p o (ops.foldl (RollupOp.run p) .empty) records).1)
          (fun y => (upsertFlows p o (ops.foldl (RollupOp.run p) .empty) records).1.Dirty y.day)
          (ops.foldl (RollupOp.run p) .empty).flows.rows
          (upsertFlows p o (ops.foldl (RollupOp.run p) .empty) records).1.flows.rows := by
  have hinv := rollupInv_of_run p ops
  exact ⟨hinv.current, fun o records => upsertFlows_changesDirty hinv.stored records⟩

end IllumioOps
