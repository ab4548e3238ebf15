import IllumioOps.Alerts.Traffic
import IllumioOps.Store.Growth

/-!
# What a growth rule triggers on

Over every sequence of ingests and evaluations, a rule triggers only on growth that is newer than the
watermark of the evaluation committed before, and that no earlier evaluation had in its store, exactly
as long as no bandwidth rule finds an increment at its threshold beside nothing new
(`triggers_new_iff`): the traffic and the volume rule ask what is new, the bandwidth rule does not, and
an increment triggers it as long as it stands in the look-back window (`bandwidth_triggers_again`).

The invariant (`Kept`) ties the log to the watermark: every increment of a committed evaluation lies at
or before the watermark it left, and a rule is evaluated after the watermark of the last one.
-/

set_option autoImplicit false

namespace IllumioOps.Alerts

open Programs

/-! ## Sequences -/

/-- A batch that a collection writes, and what the collections leave of the other tables. -/
structure Ingest where
  options : UpsertOptions
  records : List FlowRecord
  lookups : LookupTables
  hasGaps : Int → Int → Bool

def TrafficStore.ingest (p : Primitives) (s : TrafficStore) (b : Ingest) : TrafficStore where
  db := (upsertFlows p b.options s.db b.records).1
  lookups := b.lookups
  collected := true
  hasGaps := b.hasGaps

/-- Between the steps of an evaluation nothing else happens; a step may fail. -/
def sequential (fails : Bool) : Answer TrafficStore := ⟨id, fails⟩

/-- A step of the sequence. An evaluation is stopped where its answers end. -/
inductive TrafficOp where
  | ingest (b : Ingest)
  | evaluate (q : TrafficRun) (fails : List Bool)

def TrafficOp.apply (p : Primitives) (w : TrafficState) : TrafficOp → TrafficState
  | .ingest b => { w with world := { w.world with flow := w.world.flow.ingest p b } }
  | .evaluate q fails => lastState w (evaluateTraffic p q w (fails.map sequential)).1

/-- A store with no growth in it yet, beside tables and settings of any kind. -/
def withoutFlows (world : World TrafficStore) : TrafficState where
  world := { world with flow := { world.flow with db := .empty } }
  batches := []

/-- The state after a sequence. -/
def trafficRun (p : Primitives) (world : World TrafficStore) (ops : List TrafficOp) :
    TrafficState :=
  ops.foldl (TrafficOp.apply p) (withoutFlows world)

/-! ## What is new -/

/-- The growth that a committed evaluation had in its store. -/
def TrafficEntry.evaluated : TrafficEntry → List FlowIncrement
  | .commit c => c.increments
  | _ => []

def evaluatedBy (log : List TrafficEntry) : List FlowIncrement := log.flatMap TrafficEntry.evaluated

/-- The watermark that an entry leaves. -/
def TrafficEntry.leaves (mark : Option Watermark) : TrafficEntry → Option Watermark
  | .commit c => some (.time c.mark)
  | _ => mark

/-- The watermark that the evaluations left, the one before them being `start`. -/
def leftBy (start : Option Watermark) (log : List TrafficEntry) : Option Watermark :=
  log.foldl TrafficEntry.leaves start

/-- Some growth the rule looks at was observed after the watermark, and no earlier evaluation had it. -/
def FindsNew (p : Primitives) (start : Option Watermark) (before : List TrafficEntry)
    (e : RuleEvaluation) : Prop :=
  ∃ i ∈ e.growth p, i.late = false ∧ i ∉ evaluatedBy before ∧
    ∃ t, leftBy start before = some (.time t) ∧ t < i.observedAt

/-- Every trigger is about something new. -/
def TriggersNew (p : Primitives) (start : Option Watermark) (log : List TrafficEntry) : Prop :=
  ∀ before e after, log = before ++ .rule e :: after → (e.trigger p).isSome → FindsNew p start before e

/-- Something newer than the watermark is in the look-back window. -/
def RuleEvaluation.Newer (p : Primitives) (e : RuleEvaluation) : Prop :=
  ∃ i ∈ e.growth p, e.since < i.observedAt

/-- No bandwidth rule finds an increment at its threshold beside nothing newer than the watermark. -/
def RuleEvaluation.Meets (p : Primitives) (e : RuleEvaluation) : Prop :=
  ∀ threshold, e.rule.threshold = .bandwidth threshold →
    e.Newer p ∨ ∀ i ∈ e.growth p, ∀ rate, mbps i.bytes i.seconds = some rate → rate < threshold

/-! ## When a rule triggers -/

section Rules

variable {p : Primitives} {e : RuleEvaluation}

/-- The times of the store are whole milliseconds. -/
def Whole (i : FlowIncrement) : Prop := dbTime i.observedAt = i.observedAt

theorem lt_iff_of_whole {t : Int} {i : FlowIncrement} (h : Whole i) :
    dbTime t < i.observedAt ↔ t < i.observedAt := by
  rw [Whole, dbTime, milliseconds] at h
  rw [dbTime, milliseconds]
  omega

theorem mem_growth {s : TrafficStore} {cond : FlowCondition} {start stop : Int} {i : FlowIncrement}
    (h : i ∈ s.growth p cond start stop) : i ∈ s.db.increments ∧ i.late = false := by
  rw [TrafficStore.growth] at h
  split at h
  · exact absurd h List.not_mem_nil
  · obtain ⟨hmem, hpasses⟩ := List.mem_filter.1 h
    simp only [Bool.and_eq_true, Bool.not_eq_true'] at hpasses
    exact ⟨hmem, hpasses.1.1.1⟩

theorem newRows_eq_zero_iff (hwhole : ∀ i ∈ e.growth p, Whole i) :
    (e.totals p).newRows = 0 ↔ ¬ e.Newer p := by
  rw [RuleEvaluation.totals, totalsOf, List.countP_eq_zero]
  constructor
  · rintro hnone ⟨i, hi, hlt⟩
    exact hnone i hi (decide_eq_true ((lt_iff_of_whole (hwhole i hi)).2 hlt))
  · intro hnot i hi hlt
    exact hnot ⟨i, hi, (lt_iff_of_whole (hwhole i hi)).1 (of_decide_eq_true hlt)⟩

/-- The traffic and the volume rule trigger on something new only. -/
theorem newer_of_trigger (hwhole : ∀ i ∈ e.growth p, Whole i)
    (hkind : ∀ threshold, e.rule.threshold ≠ .bandwidth threshold) (h : (e.trigger p).isSome) :
    e.Newer p := by
  by_contra hnot
  have hzero := (newRows_eq_zero_iff hwhole).2 hnot
  rw [RuleEvaluation.trigger, FlowRule.trigger] at h
  split at h
  · rw [evaluateTrafficRule, if_pos (Or.inl hzero)] at h
    exact absurd h (by simp)
  · exact hkind _ ‹_›
  · rw [evaluateVolumeRule] at h
    split at h
    · exact absurd h (by simp)
    · rw [if_pos (Or.inl hzero)] at h
      exact absurd h (by simp)

theorem bytesRows_ne_zero {rows : List FlowIncrement} {newAfter : Int} {rate : Rat}
    (h : (totalsOf rows newAfter).maxMbps = some rate) : (totalsOf rows newAfter).bytesRows ≠ 0 := by
  obtain ⟨i, hi, hrate⟩ := List.mem_filterMap.1 (List.max?_mem h)
  rw [mbps, Option.map_eq_some_iff] at hrate
  obtain ⟨b, hb, -⟩ := hrate
  have hmem : b ∈ rows.filterMap FlowIncrement.bytes := List.mem_filterMap.2 ⟨i, hi, hb⟩
  exact List.length_pos_of_mem hmem |>.ne'

/-- A bandwidth rule triggers exactly when a rate in the window reaches its threshold. -/
theorem bandwidth_trigger_iff {threshold : Rat} (hkind : e.rule.threshold = .bandwidth threshold) :
    (e.trigger p).isSome ↔
      ∃ i ∈ e.growth p, ∃ rate, mbps i.bytes i.seconds = some rate ∧ threshold ≤ rate := by
  rw [RuleEvaluation.trigger, FlowRule.trigger, hkind]
  simp only
  rw [evaluateBandwidthRule]
  cases hmax : (e.totals p).maxMbps with
  | none =>
      simp only [Option.isSome_none, Bool.false_eq_true, false_iff]
      rintro ⟨i, hi, rate, hrate, -⟩
      have hmem : rate ∈ (e.growth p).filterMap fun i => mbps i.bytes i.seconds :=
        List.mem_filterMap.2 ⟨i, hi, hrate⟩
      rw [List.max?_eq_none_iff.1 hmax] at hmem
      exact List.not_mem_nil hmem
  | some greatest =>
      have hbytes : (e.totals p).bytesRows ≠ 0 := bytesRows_ne_zero hmax
      obtain ⟨hmem, hle⟩ := List.max?_eq_some_iff.1 hmax
      simp only [hbytes, false_or]
      split
      · rename_i hlt
        simp only [Option.isSome_none, Bool.false_eq_true, false_iff]
        rintro ⟨i, hi, rate, hrate, hreaches⟩
        have hrate := hle rate (List.mem_filterMap.2 ⟨i, hi, hrate⟩)
        exact absurd (lt_of_le_of_lt (le_trans hreaches hrate) hlt) (lt_irrefl _)
      · rename_i hnot
        simp only [Option.isSome_some, true_iff]
        obtain ⟨i, hi, hrate⟩ := List.mem_filterMap.1 hmem
        exact ⟨i, hi, greatest, hrate, not_lt.1 hnot⟩

/-- A rule whose triggers are about something newer than its watermark meets the condition, and the
other way round. -/
theorem newer_iff_meets (hwhole : ∀ i ∈ e.growth p, Whole i) :
    ((e.trigger p).isSome → e.Newer p) ↔ e.Meets p := by
  constructor
  · intro hright threshold hkind
    by_cases htriggers : (e.trigger p).isSome
    · exact Or.inl (hright htriggers)
    · rw [bandwidth_trigger_iff hkind] at htriggers
      refine Or.inr fun i hi rate hrate => ?_
      exact not_le.1 fun hle => htriggers ⟨i, hi, rate, hrate, hle⟩
  · intro hmeets htriggers
    by_cases hkind : ∃ threshold, e.rule.threshold = .bandwidth threshold
    · obtain ⟨threshold, hkind⟩ := hkind
      refine (hmeets threshold hkind).resolve_right fun hbelow => ?_
      obtain ⟨i, hi, rate, hrate, hle⟩ := (bandwidth_trigger_iff hkind).1 htriggers
      exact absurd (hbelow i hi rate hrate) (not_lt.2 hle)
    · exact newer_of_trigger hwhole (fun threshold h => hkind ⟨threshold, h⟩) htriggers

end Rules

/-! ## The log -/

section Log

variable {start : Option Watermark} {log : List TrafficEntry}

theorem leftBy_append (entry : TrafficEntry) :
    leftBy start (log ++ [entry]) = entry.leaves (leftBy start log) := by
  simp [leftBy, List.foldl_append]

theorem evaluatedBy_append (entry : TrafficEntry) :
    evaluatedBy (log ++ [entry]) = evaluatedBy log ++ entry.evaluated := by
  simp [evaluatedBy]

/-- What a log says of the watermarks. -/
structure Noted (start : Option Watermark) (log : List TrafficEntry) : Prop where
  /-- What was evaluated is not newer than the watermark that is left. -/
  below : ∀ i ∈ evaluatedBy log, ∃ t, leftBy start log = some (.time t) ∧ i.observedAt ≤ t
  /-- A rule is run after the watermark that was left, on whole times. -/
  rules : ∀ before e after, log = before ++ .rule e :: after →
    leftBy start before = some (.time e.since) ∧
      (∀ i ∈ evaluatedBy before, i.observedAt ≤ e.since) ∧ ∀ i ∈ e.store.db.increments, Whole i

theorem noted_nil : Noted start [] where
  below := fun _ hi => absurd hi List.not_mem_nil
  rules := fun before _ _ h => absurd h.symm (by simp)

/-- An entry at the end of a log. -/
theorem append_eq_append_rule {before after : List TrafficEntry} {entry : TrafficEntry}
    {e : RuleEvaluation} (h : log ++ [entry] = before ++ .rule e :: after) :
    (entry = .rule e ∧ before = log) ∨ ∃ rest, log = before ++ .rule e :: rest := by
  rcases List.eq_nil_or_concat after with rfl | ⟨rest, last, rfl⟩
  · obtain ⟨hlog, hentry⟩ := List.append_inj' h rfl
    exact Or.inl ⟨List.singleton_inj.1 hentry, hlog.symm⟩
  · have hsplit : log ++ [entry] = (before ++ .rule e :: rest) ++ [last] := by simpa using h
    exact Or.inr ⟨rest, (List.append_inj' hsplit rfl).1⟩

/-- A rule is run. -/
theorem Noted.rule (h : Noted start log) {e : RuleEvaluation}
    (hsince : leftBy start log = some (.time e.since)) (hwhole : ∀ i ∈ e.store.db.increments, Whole i) :
    Noted start (log ++ [.rule e]) := by
  refine ⟨fun i hi => ?_, fun before e' after heq => ?_⟩
  · have hold : i ∈ evaluatedBy log := by simpa [evaluatedBy_append, TrafficEntry.evaluated] using hi
    rw [leftBy_append]
    exact h.below i hold
  · rcases append_eq_append_rule heq with ⟨hentry, rfl⟩ | ⟨rest, hlog⟩
    · obtain rfl := TrafficEntry.rule.inj hentry
      refine ⟨hsince, fun i hi => ?_, hwhole⟩
      obtain ⟨t, ht, hle⟩ := h.below i hi
      rw [hsince] at ht
      obtain rfl := Watermark.time.inj (Option.some.inj ht)
      exact hle
    · exact h.rules before e' rest hlog

theorem Noted.status (h : Noted start log) (ruleId : String) (status : RuleStatus) :
    Noted start (log ++ [.status ruleId status]) := by
  refine ⟨fun i hi => ?_, fun before e after heq => ?_⟩
  · have hold : i ∈ evaluatedBy log := by simpa [evaluatedBy_append, TrafficEntry.evaluated] using hi
    rw [leftBy_append]
    exact h.below i hold
  · rcases append_eq_append_rule heq with ⟨hentry, -⟩ | ⟨rest, hlog⟩
    · cases hentry
    · exact h.rules before e rest hlog

/-- An evaluation is committed: its watermark is not before the one it started from, nor before what
it had in the store. -/
theorem Noted.commit (h : Noted start log) {c : TrafficCommit}
    (hforward : ∀ t, leftBy start log = some (.time t) → t ≤ c.mark)
    (hbelow : ∀ i ∈ c.increments, i.observedAt ≤ c.mark) : Noted start (log ++ [.commit c]) := by
  refine ⟨fun i hi => ?_, fun before e after heq => ?_⟩
  · rw [leftBy_append]
    refine ⟨c.mark, rfl, ?_⟩
    rw [evaluatedBy_append] at hi
    rcases List.mem_append.1 hi with hi | hi
    · obtain ⟨t, ht, hle⟩ := h.below i hi
      exact hle.trans (hforward t ht)
    · exact hbelow i hi
  · rcases append_eq_append_rule heq with ⟨hentry, -⟩ | ⟨rest, hlog⟩
    · cases hentry
    · exact h.rules before e rest hlog

/-- On such a log, to find something new is to find something newer than the watermark. -/
theorem Noted.findsNew_iff (h : Noted start log) {p : Primitives} {before after : List TrafficEntry}
    {e : RuleEvaluation} (heq : log = before ++ .rule e :: after) :
    FindsNew p start before e ↔ e.Newer p := by
  obtain ⟨hsince, hbelow, -⟩ := h.rules before e after heq
  constructor
  · rintro ⟨i, hi, -, -, t, ht, hlt⟩
    rw [hsince] at ht
    obtain rfl := Watermark.time.inj (Option.some.inj ht)
    exact ⟨i, hi, hlt⟩
  · rintro ⟨i, hi, hlt⟩
    refine ⟨i, hi, (mem_growth hi).2, fun hold => ?_, e.since, hsince, hlt⟩
    exact absurd (hbelow i hold) (not_le.2 hlt)

/-- On such a log every trigger is about something new exactly when every rule that was run met the
condition. -/
theorem Noted.triggersNew_iff (h : Noted start log) (p : Primitives) :
    TriggersNew p start log ↔ ∀ e, TrafficEntry.rule e ∈ log → e.Meets p := by
  have hwhole : ∀ before e after, log = before ++ .rule e :: after → ∀ i ∈ e.growth p, Whole i :=
    fun before e after heq i hi => (h.rules before e after heq).2.2 i (mem_growth hi).1
  constructor
  · intro hnew e he
    obtain ⟨before, after, heq⟩ := List.append_of_mem he
    rw [← newer_iff_meets (hwhole before e after heq)]
    exact fun htriggers => (h.findsNew_iff heq).1 (hnew before e after heq htriggers)
  · intro hmeets before e after heq htriggers
    have he : TrafficEntry.rule e ∈ log := heq ▸ List.mem_append_right _ List.mem_cons_self
    rw [h.findsNew_iff heq]
    exact (newer_iff_meets (hwhole before e after heq)).2 (hmeets e he) htriggers

end Log

/-! ## An evaluation keeps the log -/

section Evaluation

variable {p : Primitives} {start : Option Watermark} {w : TrafficState} {pce : Pce} {since : Int}

/-- The invariant: the times of the store are whole, the watermark is the one the log left, and the log
is in order. -/
structure Kept (start : Option Watermark) (w : TrafficState) : Prop where
  whole : ∀ i ∈ w.world.flow.db.increments, Whole i
  mark : w.world.app.evalWatermark .traffic w.world.pce = leftBy start w.batches
  noted : Noted start w.batches

/-- A step between whose start and end nothing else happens. -/
def Quiet (a : Answer TrafficStore) : Prop := a.others = id

/-- Whatever was known, the invariant holds after a step. -/
def KeptAfter (start : Option Watermark) (_ w' : TrafficState) : Prop := Kept start w'

theorem Quiet.after_eq {a : Answer TrafficStore} (h : Quiet a) (w : TrafficState) : w.after a = w := by
  rw [State.after, h]
  rfl

/-- A step on its own. -/
theorem safe_quiet {α : Type} {K : TrafficState → Prop} {Q : α → TrafficState → Prop}
    {f : TrafficState → TrafficState × α} (hkept : ∀ w, K w → Kept start w)
    (h : ∀ w, K w → Kept start (f w).1 ∧ Q (f w).2 (f w).1) :
    Program.Safe Quiet (KeptAfter start) K (step f) fun r w =>
      match r with
      | .error _ => K w
      | .ok x => Q x w := by
  refine Program.safe_act fun w a ha hw => ?_
  rw [ha.after_eq]
  cases a.fails with
  | true =>
      simp only [if_true]
      exact ⟨hkept w hw, hw⟩
  | false =>
      simp only [Bool.false_eq_true, if_false]
      exact h w hw

theorem stable_quiet {K : TrafficState → Prop} (hkept : ∀ w, K w → Kept start w) :
    Stable Quiet (KeptAfter start) K := by
  intro w a ha hw
  rw [ha.after_eq]
  exact ⟨hkept w hw, hw⟩

/-- An evaluation goes on after a watermark. -/
structure After (start : Option Watermark) (pce : Pce) (since : Int) (w : TrafficState) : Prop extends
    Kept start w where
  pce_eq : w.world.pce = pce
  since_eq : leftBy start w.batches = some (.time since)

theorem Kept.status (h : Kept start w) (ruleId : String) (status : RuleStatus) :
    Kept start { w with batches := w.batches ++ [.status ruleId status] } where
  whole := h.whole
  mark := by
    rw [leftBy_append]
    exact h.mark
  noted := h.noted.status ruleId status

theorem safe_setStatus (ruleId : String) (status : RuleStatus) :
    Program.Safe Quiet (KeptAfter start) (After start pce since) (setStatus ruleId status)
      fun _ => After start pce since := by
  refine Program.safe_weaken (safe_quiet (Q := fun _ => After start pce since) (fun _ h => h.toKept)
    fun w hw => ?_) (fun _ h => h) ?_
  · refine ⟨hw.status ruleId status, hw.status ruleId status, hw.pce_eq, ?_⟩
    rw [leftBy_append]
    exact hw.since_eq
  · rintro (e | _) w hw <;> exact hw

theorem safe_collectionOff (rules : List FlowRule) :
    Program.Safe Quiet (KeptAfter start) (Kept start) (collectionOff rules) fun _ => Kept start := by
  induction rules with
  | nil => exact Program.safe_pure fun _ h => h
  | cons rule rules ih =>
      rw [collectionOff]
      refine Program.safe_bind (safe_quiet (Q := fun _ => Kept start) (fun _ h => h)
        fun w hw => ⟨hw.status _ _, hw.status _ _⟩) ?_
      rintro (e | _)
      · exact Program.safe_pure fun _ h => h
      · exact ih

theorem safe_readTotals (now : Int) (rule : FlowRule) :
    Program.Safe Quiet (KeptAfter start) (After start pce since) (readTotals now since rule)
      fun _ => After start pce since := by
  refine Program.safe_weaken (safe_quiet (Q := fun _ => After start pce since) (fun _ h => h.toKept)
    fun w hw => ?_) (fun _ h => h) ?_
  · have hkept : Kept start { w with batches := w.batches ++ [.rule ⟨rule, now, since, w.world.flow⟩] } := by
      refine ⟨hw.whole, ?_, hw.noted.rule hw.since_eq hw.whole⟩
      rw [leftBy_append]
      exact hw.mark
    refine ⟨hkept, hkept, hw.pce_eq, ?_⟩
    rw [leftBy_append]
    exact hw.since_eq
  · rintro (e | _) w hw <;> exact hw

/-- The rules are run; the recorder stays about the same PCE. -/
theorem safe_evaluateRules (now : Int) (rules : List FlowRule) (r : Recorder) (hpce : r.pce = pce) :
    Program.Safe Quiet (KeptAfter start) (After start pce since) (evaluateRules p now since rules r)
      fun found w => After start pce since w ∧ ∀ r', found = .ok r' → r'.pce = pce := by
  induction rules generalizing r with
  | nil => exact Program.safe_pure fun w hw => ⟨hw, fun r' hr => Except.ok.inj hr ▸ hpce⟩
  | cons rule rules ih =>
      rw [evaluateRules]
      refine Program.safe_bind (safe_readTotals now rule) ?_
      rintro (error | e)
      · exact Program.safe_pure fun w hw => ⟨hw, fun _ h => absurd h (by simp)⟩
      · refine Program.safe_bind (safe_setStatus _ _) ?_
        rintro (error | _)
        · exact Program.safe_pure fun w hw => ⟨hw, fun _ h => absurd h (by simp)⟩
        · refine ih _ ?_
          rw [Recorder.record]
          split <;> exact hpce

/-- The newest increment, or a time before it. -/
theorem observedAt_le_watermark {increments : List FlowIncrement} {i : FlowIncrement} (t : Int)
    (h : i ∈ increments) : i.observedAt ≤ (incrementsWatermark increments).getD t := by
  cases hmax : incrementsWatermark increments with
  | none =>
      have hempty : increments.map FlowIncrement.observedAt = [] := List.max?_eq_none_iff.1 hmax
      rw [List.map_eq_nil_iff.1 hempty] at h
      exact absurd h List.not_mem_nil
  | some newest => exact (List.max?_eq_some_iff.1 hmax).2 _ (List.mem_map_of_mem h)

/-- A commit of the watermark. -/
theorem Kept.committed (h : Kept start w) {α : Type} {c : TrafficCommit} {f : AlertDb → AlertDb × α}
    (hmark : (f w.world.app).1.evalWatermark .traffic w.world.pce = some (.time c.mark))
    (hforward : ∀ t, leftBy start w.batches = some (.time t) → t ≤ c.mark)
    (hbelow : ∀ i ∈ c.increments, i.observedAt ≤ c.mark) : Kept start (w.committed (.commit c) f) where
  whole := h.whole
  mark := by
    rw [State.committed, leftBy_append]
    exact hmark
  noted := h.noted.commit hforward hbelow

theorem safe_startTraffic (now : Int) (increments : List FlowIncrement) :
    Program.Safe Quiet (KeptAfter start)
      (fun w => Kept start w ∧ w.world.pce = pce ∧ leftBy start w.batches = none)
      (startTraffic pce now increments) fun _ _ => True := by
  have hstable : Stable Quiet (KeptAfter start)
      (fun w => Kept start w ∧ w.world.pce = pce ∧ leftBy start w.batches = none) :=
    stable_quiet fun _ h => h.1
  rw [startTraffic]
  refine Program.safe_bind (safe_look hstable _) ?_
  rintro (e | _ | _)
  · exact Program.safe_pure fun _ _ => trivial
  · exact Program.safe_pure fun _ _ => trivial
  · refine Program.safe_bind (Q := fun _ _ => True) (Program.safe_weaken
      (safe_transaction (Q := fun _ _ => True) hstable (fun w a ha hw => ⟨?_, trivial⟩) 0)
      (fun _ h => h.1) fun _ _ _ => trivial) ?_
    · rw [ha.after_eq]
      obtain ⟨hkept, rfl, hnone⟩ := hw
      refine hkept.committed (AlertDb.evalWatermark_set _ _ _ _) (fun t ht => ?_) fun i hi =>
        observedAt_le_watermark _ hi
      rw [hnone] at ht
      exact absurd ht (by simp)
    · rintro (e | _) <;> exact Program.safe_pure fun _ _ => trivial

theorem safe_continueTraffic (q : TrafficRun) (generation : Nat) (increments : List FlowIncrement) :
    Program.Safe Quiet (KeptAfter start) (After start pce since)
      (continueTraffic p q pce generation increments since) fun _ _ => True := by
  rw [continueTraffic]
  refine Program.safe_bind (safe_evaluateRules q.now q.active _ rfl) ?_
  rintro (e | found)
  · exact Program.safe_pure fun _ _ => trivial
  · refine Program.safe_fact (c := found.pce = pce) (fun _ h => h.2 found rfl) fun hpce => ?_
    refine Program.safe_bind (Q := fun _ _ => True) (Program.safe_weaken
      (safe_commit (Q := fun _ => True) (K := After start pce since)
        (stable_quiet fun _ h => h.toKept) fun w a ha hw => ⟨?_, trivial⟩)
      (fun _ h => h.1) fun _ _ _ => trivial) ?_
    · rw [ha.after_eq]
      refine hw.committed ?_ (fun t ht => ?_) fun i hi => ?_
      · rw [hw.pce_eq, ← hpce]
        exact evalWatermark_change _
      · rw [hw.since_eq] at ht
        obtain rfl := Watermark.time.inj (Option.some.inj ht)
        exact le_max_left _ _
      · exact (observedAt_le_watermark since hi).trans (le_max_right _ _)
    · rintro (e | _) <;> exact Program.safe_pure fun _ _ => trivial

/-- Every step of an evaluation keeps the invariant. -/
theorem safe_evaluateTraffic (q : TrafficRun) : Program.Safe Quiet (KeptAfter start) (Kept start)
    (evaluateTraffic p q) fun _ _ => True := by
  rw [evaluateTraffic]
  refine Program.safe_bind (safe_look (stable_quiet fun _ h => h) _) ?_
  rintro (e | ⟨pce, generation⟩)
  · exact Program.safe_pure fun _ _ => trivial
  · simp only
    split
    · have hknown : ∀ w, Kept start w ∧ w.world.pce = pce → Kept start w := fun _ h => h.1
      refine Program.safe_bind (Program.safe_weaken (safe_look (stable_quiet hknown) _)
        (fun w hw => ⟨hw.1, (congrArg Prod.fst (hw.2 _ rfl)).symm⟩) fun _ _ h => h) ?_
      rintro (e | increments)
      · exact Program.safe_pure fun _ _ => trivial
      · refine Program.safe_bind (Program.safe_weaken (safe_look (stable_quiet hknown) _)
          (fun _ h => h.1) fun _ _ h => h) ?_
        -- what the watermark says is what the log left
        rintro (e | _ | mark)
        · exact Program.safe_pure fun _ _ => trivial
        · refine Program.safe_weaken (safe_startTraffic q.now increments) (fun w hw => ?_)
            fun _ _ h => h
          obtain ⟨⟨hkept, rfl⟩, hmark⟩ := hw
          exact ⟨hkept, rfl, hkept.mark ▸ (hmark _ rfl).symm⟩
        · cases mark with
          | time since =>
              refine Program.safe_weaken (safe_continueTraffic q generation increments)
                (fun w hw => ?_) fun _ _ h => h
              obtain ⟨⟨hkept, rfl⟩, hmark⟩ := hw
              exact ⟨hkept, rfl, hkept.mark ▸ (hmark _ rfl).symm⟩
          | id n => exact Program.safe_pure fun _ _ => trivial
          | floor t => exact Program.safe_pure fun _ _ => trivial
          | stamp t n => exact Program.safe_pure fun _ _ => trivial
    · refine Program.safe_bind (Program.safe_weaken (safe_collectionOff q.active)
        (fun _ h => h.1) fun _ _ h => h) ?_
      rintro (e | _) <;> exact Program.safe_pure fun _ _ => trivial

/-- A step of the sequence keeps the invariant. -/
theorem Kept.apply (h : Kept start w) (op : TrafficOp) : Kept start (op.apply p w) := by
  cases op with
  | ingest b =>
      refine ⟨fun i hi => ?_, h.mark, h.noted⟩
      rcases observedAt_upsertFlows w.world.flow.db b.records hi with hold | hnew
      · exact h.whole i hold
      · rw [Whole, hnew, dbTime, dbTime, milliseconds]
        omega
  | evaluate q fails =>
      have hquiet : ∀ a ∈ fails.map sequential, Quiet a := by
        intro a ha
        obtain ⟨b, -, rfl⟩ := List.mem_map.1 ha
        rfl
      obtain ⟨hchain, -⟩ := safe_evaluateTraffic (p := p) q w (fails.map sequential) hquiet h
      exact Program.inv_of_isChain (I := Kept start) (fun _ _ _ hafter => hafter) h hchain _
        (lastState_mem _ _)

end Evaluation

/-- The watermark that stands before any growth is collected. -/
def firstMark (world : World TrafficStore) : Option Watermark :=
  world.app.evalWatermark .traffic world.pce

/-- The invariant holds after every sequence. -/
theorem kept_trafficRun (p : Primitives) (world : World TrafficStore) (ops : List TrafficOp) :
    Kept (firstMark world) (trafficRun p world ops) := by
  have hstart : Kept (firstMark world) (withoutFlows world) :=
    ⟨fun i hi => absurd hi List.not_mem_nil, rfl, noted_nil⟩
  rw [trafficRun]
  generalize withoutFlows world = w at hstart ⊢
  induction ops generalizing w with
  | nil => exact hstart
  | cons op ops ih => exact ih _ (hstart.apply op)

/-- Over every sequence of ingests and evaluations, the rules trigger only on growth newer than the
watermark left before, none of which an earlier evaluation had, exactly when every evaluation of a
bandwidth rule found something newer in its look-back window, or no increment at its threshold. -/
theorem triggers_new_iff (p : Primitives) (world : World TrafficStore) (ops : List TrafficOp) :
    TriggersNew p (firstMark world) (trafficRun p world ops).batches ↔
      ∀ e, TrafficEntry.rule e ∈ (trafficRun p world ops).batches → e.Meets p :=
  (kept_trafficRun p world ops).noted.triggersNew_iff p

/-! ## A transfer that is alerted again -/

/-- A rule for rates. -/
def fastRule : FlowRule where
  id := "00000000000000000000000000000001"
  name := "Fast transfer"
  packKey := none
  enabled := true
  notify := true
  severity := some .high
  cooldownMinutes := 0
  throttle := none
  condition := {}
  windowMinutes := 10
  threshold := .bandwidth (1 / 100000)
  severity_some := rfl

theorem noGroups_unique : (([] : List LabelGroup).map LabelGroup.href).Nodup := List.nodup_nil

theorem noMembers_key : ∀ g ∈ ([] : List LabelGroup), ∀ m ∈ ([] : List LabelGroupMember),
    m.href = g.href → m.key = g.key := fun _ hg => absurd hg List.not_mem_nil

def noLookups : LookupTables where
  labelSets := .empty
  ipListNets := []
  labelGroups := []
  labelGroupMembers := []
  servicePorts := []
  groups_unique := noGroups_unique
  members_key := noMembers_key

def quietWorld : World TrafficStore where
  pce := ("pce", "1")
  generation := 0
  flow := ⟨.empty, noLookups, false, fun _ _ => false⟩
  app := ⟨fun _ => none, [], 0, [], fun _ => none⟩

def evaluateAt (now : Int) : TrafficOp :=
  .evaluate ⟨now, [fastRule], [], true⟩ (List.replicate 12 false)

/-- A collection finds nothing, the next one a transfer; it is evaluated twice. -/
def transferTwice : List TrafficOp :=
  [.ingest ⟨{ liveUpsert with now := seconds 5 }, [], noLookups, fun _ _ => false⟩,
    evaluateAt (seconds 6), .ingest ⟨liveUpsert, [webOut], noLookups, fun _ _ => false⟩,
    evaluateAt (seconds 60), evaluateAt (seconds 120)]

/-- The transfer alerts again although nothing was observed since. -/
theorem bandwidth_triggers_again :
    ¬ ∀ (p : Primitives) (world : World TrafficStore) (ops : List TrafficOp),
      TriggersNew p (firstMark world) (trafficRun p world ops).batches := by
  intro h
  have hnoted := (kept_trafficRun .plain quietWorld transferTwice).noted
  obtain ⟨entry, hentry, hagain⟩ : ∃ entry ∈ (trafficRun .plain quietWorld transferTwice).batches,
      (match entry with
        | .rule e => (e.trigger .plain).isSome &&
            (e.growth .plain).all fun i => decide (i.observedAt ≤ e.since)
        | _ => false) = true := List.any_eq_true.1 (by decide +kernel)
  cases entry with
  | rule e =>
      obtain ⟨htriggers, hold⟩ := Bool.and_eq_true_iff.1 hagain
      obtain ⟨before, after, heq⟩ := List.append_of_mem hentry
      obtain ⟨i, hi, hlt⟩ := (hnoted.findsNew_iff heq).1 (h _ _ _ before e after heq htriggers)
      exact absurd (of_decide_eq_true (List.all_eq_true.1 hold i hi)) (not_le.2 hlt)
  | status => exact absurd hagain (by simp)
  | commit => exact absurd hagain (by simp)

end IllumioOps.Alerts
