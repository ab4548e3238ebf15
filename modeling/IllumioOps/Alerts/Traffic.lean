import IllumioOps.Alerts.Events
import IllumioOps.Filter.ToSql
import IllumioOps.Store.Upsert

/-!
# Evaluating growth

`evaluate_traffic`: a traffic, bandwidth or volume rule adds up the growth that was observed in its
look-back window on the connections its condition matches, and what of it is newer than the watermark;
the triggers of all rules are committed with the watermark moved to the newest growth. The traffic and
the volume rule ask for something new (`new_rows`), the bandwidth rule does not.

Rates and sizes are exact quotients here. The growth of one connection is measured by
`upsertFlows`; ingests and evaluations follow one another.
-/

set_option autoImplicit false

namespace IllumioOps.Alerts

open Programs

/-! ## The store -/

/-- The tables of the flows and what filters are looked up in, whether a collection has succeeded,
and whether the coverage of a window has gaps. -/
structure TrafficStore where
  db : FlowDb
  lookups : LookupTables
  collected : Bool
  hasGaps : Int → Int → Bool

/-- The tables a filter reads: the label sets are those the rows were written with. -/
def TrafficStore.tables (s : TrafficStore) : LookupTables :=
  { s.lookups with labelSets := s.db.labelSets }

/-- `INCREMENT_PRIMARY_JOIN`: the connection's current primary row gives a measured record its
dimensions. -/
def TrafficStore.measuredRow (s : TrafficStore) (i : FlowIncrement) : Option FlowRow :=
  (s.db.flows.byKey i.recordKey).bind fun r =>
    if r.isPrimary then some r else primaryRow (s.db.flows.connRows r.connKey)

/-- `_FLOW_SLACK_BEFORE` -/
def flowSlackBefore : Int := hours 24

/-- `_FLOW_SLACK_AFTER` -/
def flowSlackAfter : Int := hours 1

/-- The rows of `increment_totals`: the growth that was not late, observed in `(start, stop]`, of the
connections that the condition selects. -/
def TrafficStore.growth (p : Primitives) (s : TrafficStore) (cond : FlowCondition)
    (start stop : Int) : List FlowIncrement :=
  match cond.within (start - flowSlackBefore) (stop + flowSlackAfter) with
  -- the slack keeps the window from being empty
  | none => []
  | some spec => s.db.increments.filter fun i =>
      !i.late && decide (dbTime start < i.observedAt) && decide (i.observedAt ≤ dbTime stop) &&
        (s.measuredRow i).any (spec.sqlSelects p.unicode s.tables p.addresses)

/-- `_mbps`; the flow time is kept in microseconds. -/
def mbps (bytes : Option Int) (span : Int) : Option Rat :=
  bytes.map fun (b : Int) => (b * 8 / max (span / 1000000) 1 / 1000000 : Rat)

/-- `IncrementTotals` -/
structure IncrementTotals where
  connections : Nat
  bytes : Option Int
  bytesRows : Nat
  rows : Nat
  newRows : Nat
  maxMbps : Option Rat

/-- The totals of some rows. -/
def totalsOf (rows : List FlowIncrement) (newAfter : Int) : IncrementTotals where
  connections := (rows.map FlowIncrement.connections).sum
  bytes := if rows.filterMap FlowIncrement.bytes = [] then none
    else some (rows.filterMap FlowIncrement.bytes).sum
  bytesRows := (rows.filterMap FlowIncrement.bytes).length
  rows := rows.length
  newRows := rows.countP fun i => decide (dbTime newAfter < i.observedAt)
  maxMbps := (rows.filterMap fun i => mbps i.bytes i.seconds).max?

/-- `increments_watermark` -/
def incrementsWatermark (increments : List FlowIncrement) : Option Int :=
  (increments.map FlowIncrement.observedAt).max?

/-! ## Rules for growth -/

/-- What a rule compares: `TrafficRule`, `BandwidthRule` or `VolumeRule`. -/
inductive FlowThreshold where
  | traffic (connections : Nat)
  | bandwidth (mbps : Rat)
  | volume (mb : Rat)

/-- `_FlowRule`: a severity is required. -/
structure FlowRule extends RuleBase where
  condition : FlowCondition
  windowMinutes : Nat
  threshold : FlowThreshold
  severity_some : severity.isSome

/-- `round(x, 3)`: to the nearest, ties to the even one. -/
def round3 (x : Rat) : Rat :=
  let low := (x * 1000).floor
  let part := x * 1000 - low
  (if part < 1 / 2 ∨ (part = 1 / 2 ∧ low % 2 = 0) then low else low + 1 : Int) / 1000

/-- `_flow_trigger` -/
def flowTrigger (rule : FlowRule) (facts : IncrementTotals) (window : Int × Int)
    (value threshold : Rat) : Trigger where
  ruleId := rule.id
  subjectKey := rule.id
  severity := rule.severity.get rule.severity_some
  firstSeen := window.1
  lastSeen := window.2
  late := false
  facts := .growth value threshold facts.rows
  groupedAnnotation := none

/-- `evaluate_traffic_rule` -/
def evaluateTrafficRule (rule : FlowRule) (connections : Nat) (facts : IncrementTotals)
    (window : Int × Int) : Option Trigger :=
  if facts.newRows = 0 ∨ facts.connections < connections then none
  else some (flowTrigger rule facts window facts.connections connections)

/-- `evaluate_volume_rule` -/
def evaluateVolumeRule (rule : FlowRule) (thresholdMb : Rat) (facts : IncrementTotals)
    (window : Int × Int) : Option Trigger :=
  match facts.bytes with
  | none => none
  | some bytes =>
      if facts.newRows = 0 ∨ facts.bytesRows = 0 then none
      else if (bytes / 2 ^ 20 : Rat) < thresholdMb then none
      else some (flowTrigger rule facts window (round3 (bytes / 2 ^ 20)) thresholdMb)

/-- `evaluate_bandwidth_rule`: nothing is asked about what is new. -/
def evaluateBandwidthRule (rule : FlowRule) (thresholdMbps : Rat) (facts : IncrementTotals)
    (window : Int × Int) : Option Trigger :=
  match facts.maxMbps with
  | none => none
  | some rate =>
      if facts.bytesRows = 0 ∨ rate < thresholdMbps then none
      else some (flowTrigger rule facts window (round3 rate) thresholdMbps)

def FlowRule.trigger (rule : FlowRule) (facts : IncrementTotals) (window : Int × Int) :
    Option Trigger :=
  match rule.threshold with
  | .traffic connections => evaluateTrafficRule rule connections facts window
  | .bandwidth mbps => evaluateBandwidthRule rule mbps facts window
  | .volume mb => evaluateVolumeRule rule mb facts window

/-- What an evaluation says of a rule. -/
inductive RuleStatus where
  | ok
  | noData
  | incomplete
  | collectionOff
  deriving DecidableEq, Repr

/-- No byte data is not below the threshold. -/
def FlowRule.status (rule : FlowRule) (facts : IncrementTotals) (gaps : Bool) : RuleStatus :=
  let measuresBytes := match rule.threshold with
    | .traffic _ => false
    | _ => true
  if measuresBytes && decide (facts.rows ≠ 0) && decide (facts.bytesRows = 0) then .noData
  else if gaps then .incomplete else .ok

/-- The look-back window of a rule. -/
def FlowRule.window (rule : FlowRule) (now : Int) : Int × Int :=
  (now - minutes rule.windowMinutes, now)

/-! ## A run -/

/-- A rule as an evaluation runs it: at its time, after the watermark, over the store. -/
structure RuleEvaluation where
  rule : FlowRule
  now : Int
  since : Int
  store : TrafficStore

namespace RuleEvaluation

variable (p : Primitives) (e : RuleEvaluation)

/-- The growth in the look-back window. -/
def growth : List FlowIncrement :=
  e.store.growth p e.rule.condition (e.rule.window e.now).1 (e.rule.window e.now).2

/-- `increment_totals` -/
def totals : IncrementTotals := totalsOf (e.growth p) e.since

def trigger : Option Trigger := e.rule.trigger (e.totals p) (e.rule.window e.now)

end RuleEvaluation

/-- A committed evaluation: the growth that was in the store, and the watermark it left. -/
structure TrafficCommit where
  increments : List FlowIncrement
  mark : Int

/-- What the evaluations did, in the order they did it. -/
inductive TrafficEntry where
  | rule (e : RuleEvaluation)
  | status (ruleId : String) (status : RuleStatus)
  | commit (c : TrafficCommit)

abbrev TrafficState : Type := State TrafficStore TrafficEntry

abbrev TrafficStep (α : Type) : Type := Step TrafficStore TrafficEntry α

/-- What an evaluation is started with: the time, and of the settings the flow rules, the channels and
whether flows are collected. -/
structure TrafficRun where
  now : Int
  rules : List FlowRule
  channels : List String
  collects : Bool

/-- The enabled rules. -/
def TrafficRun.active (q : TrafficRun) : List FlowRule := q.rules.filter fun r => r.enabled

/-- `status` -/
def setStatus (ruleId : String) (status : RuleStatus) : TrafficStep (Except EvalError Unit) :=
  step fun w => ({ w with batches := w.batches ++ [.status ruleId status] }, ())

/-- Where flows are not collected, every rule is told so. -/
def collectionOff : List FlowRule → TrafficStep (Except EvalError Unit)
  | [] => pure (.ok ())
  | rule :: rules => do
      let done ← setStatus rule.id .collectionOff
      match done with
      | .error e => pure (.error e)
      | .ok () => collectionOff rules

/-- The totals of a rule are read. -/
def readTotals (now since : Int) (rule : FlowRule) :
    TrafficStep (Except EvalError RuleEvaluation) :=
  step fun w =>
    let e : RuleEvaluation := ⟨rule, now, since, w.world.flow⟩
    ({ w with batches := w.batches ++ [.rule e] }, e)

/-- The rules are run, and their triggers recorded. -/
def evaluateRules (p : Primitives) (now since : Int) :
    List FlowRule → Recorder → TrafficStep (Except EvalError Recorder)
  | [], r => pure (.ok r)
  | rule :: rules, r => do
      let read ← readTotals now since rule
      match read with
      | .error e => pure (.error e)
      | .ok e => do
          let (start, stop) := rule.window now
          let done ← setStatus rule.id (rule.status (e.totals p) (e.store.hasGaps start stop))
          match done with
          | .error e => pure (.error e)
          | .ok () =>
              evaluateRules p now since rules (r.record rule.toRuleBase (e.trigger p).toList)

/-- A first evaluation only sets the watermark, once a collection has succeeded. -/
def startTraffic (pce : Pce) (now : Int) (increments : List FlowIncrement) :
    TrafficStep (Except EvalError EvalRun) := do
  let collected ← look fun w => w.flow.collected
  match collected with
  | .error e => pure (.error e)
  | .ok false => pure (.ok ⟨0, 0, 0⟩)
  | .ok true => do
      let mark := (incrementsWatermark increments).getD now
      let done ← transaction (.commit ⟨increments, mark⟩)
        (fun db => (db.setEvalWatermark .traffic pce (.time mark), ())) 0
      match done with
      | .error e => pure (.error e)
      | .ok () => pure (.ok ⟨0, 0, 0⟩)

/-- The rules are run after a watermark, and what they found is committed. -/
def continueTraffic (p : Primitives) (q : TrafficRun) (pce : Pce) (generation : Nat)
    (increments : List FlowIncrement) (since : Int) : TrafficStep (Except EvalError EvalRun) := do
  let found ← evaluateRules p q.now since q.active ⟨q.now, pce, generation, q.channels, [], []⟩
  match found with
  | .error e => pure (.error e)
  | .ok found => do
      let mark := max since ((incrementsWatermark increments).getD since)
      let done ← found.commit .traffic (some (.time mark)) (.commit ⟨increments, mark⟩)
      match done with
      | .error e => pure (.error e)
      | .ok (fired, suppressed) => pure (.ok ⟨q.active.length, fired, suppressed⟩)

/-- `evaluate_traffic` -/
def evaluateTraffic (p : Primitives) (q : TrafficRun) : TrafficStep (Except EvalError EvalRun) := do
  let noted ← look fun w => (w.pce, w.generation)
  match noted with
  | .error e => pure (.error e)
  | .ok (pce, generation) =>
      if q.collects then do
        let increments ← look fun w => w.flow.db.increments
        match increments with
        | .error e => pure (.error e)
        | .ok increments => do
            let mark ← look fun w => w.app.evalWatermark .traffic pce
            match mark with
            | .error e => pure (.error e)
            | .ok none => startTraffic pce q.now increments
            | .ok (some (.time since)) => continueTraffic p q pce generation increments since
            | .ok (some _) => pure (.error .failed)
      else do
        let done ← collectionOff q.active
        match done with
        | .error e => pure (.error e)
        | .ok () => pure (.ok ⟨0, 0, 0⟩)

end IllumioOps.Alerts
