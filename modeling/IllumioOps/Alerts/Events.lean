import IllumioOps.Alerts.Recorder
import IllumioOps.Store.Events

/-!
# Evaluating events

`evaluate_events`: the collected events stored after the watermark are read in batches, the rules
are run over each, and what a batch found is committed with the watermark moved to its last id.
A watermark `t:T` of an upgrade reads from the start and leaves out the events up to `T`; the
first commit makes it an id. The collector stores events at any moment.
-/

set_option autoImplicit false

namespace IllumioOps.Alerts

open Programs

/-! ## The stored events -/

/-- The ids of the table increase from row to row, from one on, and none is above the last one
given. -/
structure GivenIds (t : EventTable) : Prop where
  ordered : t.rows.Pairwise fun a b => a.id < b.id
  bounded : ∀ r ∈ t.rows, r.id ≤ t.sequence
  positive : ∀ r ∈ t.rows, 0 < r.id

/-- The table `events`, whether a collection has succeeded, and the host of each event. -/
structure EventStore where
  events : EventTable
  collected : Bool
  hostKey : EventRow → Option String
  ids : GivenIds events

namespace EventStore

theorem ordered (s : EventStore) : s.events.rows.Pairwise fun a b => a.id < b.id := s.ids.ordered

theorem bounded (s : EventStore) : ∀ r ∈ s.events.rows, r.id ≤ s.events.sequence := s.ids.bounded

theorem positive (s : EventStore) : ∀ r ∈ s.events.rows, 0 < r.id := s.ids.positive

/-- A new event gets the next id. -/
theorem givenIds_insertOrIgnore {t : EventTable} {r : EventRecord} {origin : DataOrigin}
    {stamp : Int} (h : GivenIds t) : GivenIds (t.insertOrIgnore r origin stamp) := by
  rw [EventTable.insertOrIgnore]
  split
  · exact h
  · have hnew : ∀ q ∈ t.rows ++ [r.row (t.sequence + 1) origin stamp],
        q ∈ t.rows ∨ q.id = t.sequence + 1 := by
      intro q hq
      refine (List.mem_append.1 hq).imp id fun hq => ?_
      rw [List.mem_singleton.1 hq]
      rfl
    refine ⟨List.pairwise_append.2 ⟨h.ordered, List.pairwise_singleton _ _, ?_⟩, ?_, ?_⟩
    · intro q hq p hp
      obtain rfl := List.mem_singleton.1 hp
      exact Nat.lt_succ_of_le (h.bounded q hq)
    · intro q hq
      rcases hnew q hq with hq | hq
      · exact Nat.le_succ_of_le (h.bounded q hq)
      · exact Nat.le_of_eq hq
    · intro q hq
      rcases hnew q hq with hq | hq
      · exact h.positive q hq
      · rw [hq]
        exact Nat.succ_pos _

theorem givenIds_foldl {t : EventTable} {records : List EventRecord} {origin : DataOrigin}
    {stamp : Int} (h : GivenIds t) :
    GivenIds (records.foldl (fun t r => t.insertOrIgnore r origin stamp) t) := by
  induction records generalizing t with
  | nil => exact h
  | cons r records ih => exact ih (givenIds_insertOrIgnore h)

/-- `upsert_events` on the events. -/
def ingest (s : EventStore) (records : List EventRecord) (origin : DataOrigin) (now : Int) :
    EventStore :=
  { s with
    events := records.foldl (fun t r => t.insertOrIgnore r origin (dbTime now)) s.events
    ids := givenIds_foldl s.ids }

theorem upsertEvents_events (db : FlowDb) (s : EventStore) (records : List EventRecord)
    (origin : DataOrigin) (now : Int) :
    (upsertEvents db s.events records origin now).2.1 = (s.ingest records origin now).events := rfl

/-- `events_after`: the collected events after an id, oldest first, and whether more are
waiting. -/
def eventsAfter (s : EventStore) (after limit : Nat) : List EventRow × Bool :=
  let found := (s.events.rows.filter fun r =>
    decide (after < r.id) && decide (r.origin = .ingest)).take (limit + 1)
  (found.take limit, decide (limit < found.length))

/-- `max_event_id` -/
def maxEventId (s : EventStore) : Nat := (s.events.rows.map EventRow.id).foldl max 0

/-- `events_in_window`: the collected events of a window, of these types only. -/
def eventsInWindow (s : EventStore) (start stop : Int) (types : Option (List String)) :
    List EventRow :=
  s.events.rows.filter fun r => decide (dbTime start < r.timestamp) &&
    decide (r.timestamp ≤ dbTime stop) && decide (r.origin = .ingest) &&
    types.all fun types => decide (r.eventType ∈ types)

end EventStore

/-! ## Rules for events -/

inductive ThresholdType where
  | immediate
  | count
  deriving DecidableEq, Repr

/-- A rule for events. `accepts` is `event_matches`, which reads the raw event; `types` are the
exact types of a rule without a pattern. -/
structure EventRule extends RuleBase where
  accepts : EventRow → Bool
  types : Option (List String)
  threshold : ThresholdType
  thresholdCount : Nat
  windowMinutes : Nat

/-- What an evaluation reads besides the events: the alert severity of an event's, and the known
cause that explains tampering. -/
structure Reading where
  severityOf : Option String → Severity
  explained : Trigger → List EventRow → Option Nat

def lateAfter : Int := hours 2

/-- `_highest` -/
def highest : List Severity → Severity
  | [] => .low
  | s :: rest => rest.foldl (fun best t => if best.index < t.index then t else best) s

/-- `_event_trigger` -/
def eventTrigger (rd : Reading) (rule : EventRule) (found : List EventRow) (subject : String)
    (now : Int) (facts : TriggerFacts) : Trigger :=
  let times := found.map EventRow.timestamp
  { ruleId := rule.id
    subjectKey := subject
    severity := rule.severity.getD (highest (found.map fun e => rd.severityOf e.severity))
    firstSeen := times.foldl min (times.head?.getD 0)
    lastSeen := times.foldl max (times.head?.getD 0)
    late := found.all fun e => decide (e.timestamp < now - lateAfter)
    facts := facts
    groupedAnnotation := none }

/-- The events of each subject, in the order the subjects appear. -/
def bySubject (subject : EventRow → String) (found : List EventRow) :
    List (String × List EventRow) :=
  (found.map subject).eraseDups.map fun s => (s, found.filter fun e => decide (subject e = s))

/-- `evaluate_event_rule` -/
def evaluateEventRule (rd : Reading) (hostKey : EventRow → Option String) (rule : EventRule)
    (found : List EventRow) (windowMatches : Nat) (now : Int) : List Trigger :=
  if found = [] then []
  else match rule.threshold with
    | .count =>
        if windowMatches < rule.thresholdCount then []
        else [eventTrigger rd rule found rule.id now
          (.count windowMatches found.length rule.thresholdCount rule.windowMinutes)]
    | .immediate =>
        (bySubject (fun e => (hostKey e).getD e.eventType) found).filterMap fun p =>
          if p.2.length < rule.thresholdCount then none
          else some (eventTrigger rd rule p.2 p.1 now
            (.immediate p.2.length rule.thresholdCount))

/-! ## A run -/

abbrev EventState : Type := State EventStore (List EventRow)

abbrev EventStep (α : Type) : Type := Step EventStore (List EventRow) α

/-- What a run is started with: the time, and the rules and channels of the settings. -/
structure EventRun where
  now : Int
  rules : List EventRule
  channels : List String
  reading : Reading

/-- `EvalRun` -/
structure EvalRun where
  evaluated : Nat
  fired : Nat
  suppressed : Nat
  deriving DecidableEq, Repr

def eventBatch : Nat := 5000

def eventBatches : Nat := 10

/-- `_window_matches`, for a rule that counts. -/
def windowMatches (q : EventRun) (rule : EventRule) : EventStep (Except EvalError Nat) :=
  match rule.threshold with
  | .immediate => pure (.ok 0)
  | .count => look fun w => ((w.flow.eventsInWindow (q.now - minutes rule.windowMinutes) q.now
      rule.types).filter rule.accepts).length

/-- The rules are run over the events of a batch, and their triggers recorded. -/
def recordRules (q : EventRun) (facts : List EventRow) :
    List EventRule → Recorder → EventStep (Except EvalError Recorder)
  | [], r => pure (.ok r)
  | rule :: rules, r =>
      let found := facts.filter rule.accepts
      if !rule.enabled || decide (found = []) then recordRules q facts rules r
      else do
        let count ← windowMatches q rule
        match count with
        | .error e => pure (.error e)
        | .ok count => do
            let hosts ← look fun w => w.flow.hostKey
            match hosts with
            | .error e => pure (.error e)
            | .ok hosts =>
                let triggers := (evaluateEventRule q.reading hosts rule found count q.now).map
                  fun t => { t with groupedAnnotation := q.reading.explained t found }
                recordRules q facts rules (r.record rule.toRuleBase triggers)

/-- The batches of a run, at most so many: each is read, evaluated and committed. -/
def evaluateBatches (q : EventRun) (pce : Pce) (generation : Nat) (floor : Option Int) :
    Nat → Nat → EvalRun → EventStep (Except EvalError EvalRun)
  -- more new events than a run takes: the rest are evaluated next run
  | 0, _, run => pure (.ok run)
  | n + 1, after, run => do
      let page ← look fun w => w.flow.eventsAfter after eventBatch
      match page with
      | .error e => pure (.error e)
      | .ok (rows, more) =>
          match rows.getLast? with
          | none => pure (.ok run)
          | some last => do
              let facts := rows.filter fun e => floor.all fun t => decide (t < e.timestamp)
              let found ← recordRules q facts q.rules ⟨q.now, pce, generation, q.channels, [], []⟩
              match found with
              | .error e => pure (.error e)
              | .ok found => do
                  let done ← found.commit .events (some (.id last.id)) facts
                  match done with
                  | .error e => pure (.error e)
                  | .ok (fired, suppressed) =>
                      let run : EvalRun := ⟨run.evaluated + facts.length, run.fired + fired,
                        run.suppressed + suppressed⟩
                      if more then evaluateBatches q pce generation floor n last.id run
                      else pure (.ok run)

/-- A first evaluation only sets the watermark to the newest event, once a collection has
succeeded. -/
def startEvents (pce : Pce) : EventStep (Except EvalError EvalRun) := do
  let collected ← look fun w => w.flow.collected
  match collected with
  | .error e => pure (.error e)
  | .ok false => pure (.ok ⟨0, 0, 0⟩)
  | .ok true => do
      let newest ← look fun w => w.flow.maxEventId
      match newest with
      | .error e => pure (.error e)
      | .ok newest => do
          let done ← write fun db => db.setEvalWatermark .events pce (.id newest)
          match done with
          | .error e => pure (.error e)
          | .ok () => pure (.ok ⟨0, 0, 0⟩)

/-- The run from a watermark: where it reads from, and the floor. -/
def Watermark.eventsFrom : Watermark → Option (Nat × Option Int)
  | .id n => some (n, none)
  | .floor t => some (0, some t)
  | _ => none

/-- `evaluate_events` -/
def evaluateEvents (q : EventRun) : EventStep (Except EvalError EvalRun) := do
  let pce ← look fun w => w.pce
  match pce with
  | .error e => pure (.error e)
  | .ok pce => do
      let mark ← look fun w => w.app.evalWatermark .events pce
      match mark with
      | .error e => pure (.error e)
      | .ok none => startEvents pce
      | .ok (some mark) => do
          let generation ← look fun w => w.generation
          match generation with
          | .error e => pure (.error e)
          | .ok generation =>
              match mark.eventsFrom with
              | none => pure (.error .failed)
              | some (after, floor) =>
                  evaluateBatches q pce generation floor eventBatches after ⟨0, 0, 0⟩

end IllumioOps.Alerts
