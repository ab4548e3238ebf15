import IllumioOps.Domain.Values
import IllumioOps.Programs.Interrupted
import Mathlib.Logic.Function.Basic

/-!
# Recording alerts

The part of an alert evaluation that every source shares: the cooldown and the throttle of a rule
(`gate`), the tables of alerts, deliveries, rule states and watermarks, and the recorder, which
writes what one batch found together with the source's new watermark in one transaction. A
statement of the transaction can fail; then nothing of it is kept (`safe_transaction`).
-/

set_option autoImplicit false

namespace IllumioOps.Alerts

open Programs

/-! ## Rules and their gate -/

inductive Severity where
  | low
  | medium
  | high
  | critical
  deriving DecidableEq, Repr

/-- `SEVERITY_ORDER` -/
def Severity.index : Severity → Nat
  | .low => 0
  | .medium => 1
  | .high => 2
  | .critical => 3

structure Throttle where
  count : Nat
  periodMinutes : Nat
  deriving DecidableEq, Repr

/-- What every rule has. -/
structure RuleBase where
  id : String
  name : String
  packKey : Option String
  enabled : Bool
  notify : Bool
  severity : Option Severity
  cooldownMinutes : Nat
  throttle : Option Throttle
  deriving DecidableEq, Repr

/-- When a rule last let an alert of a subject through, and when its throttle did. -/
structure RuleState where
  lastFiredAt : Option Int
  recent : List Int
  deriving DecidableEq, Repr

inductive Reason where
  | ok
  | cooldown
  | throttle
  deriving DecidableEq, Repr

structure GateResult where
  reason : Reason
  nextAllowedAt : Option Int
  state : RuleState
  deriving DecidableEq, Repr

def GateResult.allowed (g : GateResult) : Bool := decide (g.reason = .ok)

/-- `gate`: the cooldown first, then a throttle over a sliding window. -/
def gate (rule : RuleBase) (state : Option RuleState) (now : Int) : GateResult :=
  let state := state.getD ⟨none, []⟩
  let period := rule.throttle.map fun t => minutes t.periodMinutes
  let recent := state.recent.filter fun t => period.any fun p => decide (now - p < t)
  let kept : RuleState := ⟨state.lastFiredAt, recent⟩
  let freeAt := if rule.cooldownMinutes = 0 then none
    else state.lastFiredAt.map fun t => t + minutes rule.cooldownMinutes
  if freeAt.any fun t => decide (now < t) then ⟨.cooldown, freeAt, kept⟩
  else if rule.throttle.any fun t => decide (t.count ≤ recent.length) then
    ⟨.throttle, recent.head?.map fun t => t + period.getD 0, kept⟩
  else ⟨.ok, none, ⟨some now, if rule.throttle.isSome then recent ++ [now] else []⟩⟩

/-- A rule without a cooldown and a throttle lets everything through. -/
theorem gate_allowed {rule : RuleBase} (hcooldown : rule.cooldownMinutes = 0)
    (hthrottle : rule.throttle = none) (state : Option RuleState) (now : Int) :
    (gate rule state now).allowed = true := by
  simp [gate, GateResult.allowed, hcooldown, hthrottle]

/-! ## Triggers and tables -/

/-- What a trigger counted, the growth it measured, or the detection it is about. -/
inductive TriggerFacts where
  | immediate (found threshold : Nat)
  | count (found newMatches threshold windowMinutes : Nat)
  | growth (value threshold : Rat) (rows : Nat)
  | detection (id : Nat) (criticalAsset : Bool) (severity : Severity)
  deriving DecidableEq, Repr

structure Trigger where
  ruleId : String
  subjectKey : String
  severity : Severity
  firstSeen : Int
  lastSeen : Int
  late : Bool
  facts : TriggerFacts
  groupedAnnotation : Option Nat
  deriving DecidableEq, Repr

inductive DeliveryStatus where
  | pending
  | notNotified
  | grouped
  | noChannel
  deriving DecidableEq, Repr

/-- A row of `alerts`. -/
structure Alert where
  id : Nat
  pceUrl : String
  orgId : String
  ruleName : String
  packKey : Option String
  firedAt : Int
  notify : Bool
  trigger : Trigger
  deriving DecidableEq, Repr

/-- A row of `alert_deliveries`; without a channel it says why nothing is sent. -/
structure Delivery where
  alertId : Nat
  channel : Option String
  status : DeliveryStatus
  nextAttemptAt : Option Int
  deriving DecidableEq, Repr

/-- A row of `alert_rule_state`. -/
structure RuleStateRow where
  state : RuleState
  suppressedCooldown : Nat
  suppressedThrottle : Nat
  seenSeverity : Option Severity
  deriving DecidableEq, Repr

/-- The sources of an evaluation. -/
inductive Source where
  | events
  | traffic
  | lateral
  | system
  deriving DecidableEq, Repr

/-- The watermarks of the sources: an id, a time floor `t:`, a stamp with an id (none is the
stamp of a store without a detection), or a time. -/
inductive Watermark where
  | id (n : Nat)
  | floor (t : Int)
  | stamp (s : Option Int) (n : Nat)
  | time (t : Int)
  deriving DecidableEq, Repr

/-- A PCE: its URL and organisation. -/
abbrev Pce : Type := String × String

/-- A row of `alert_eval_state`. -/
structure EvalState where
  pce : Pce
  watermark : Watermark
  deriving DecidableEq, Repr

/-- The tables of the alerts in the application database. -/
structure AlertDb where
  ruleStates : String × String → Option RuleStateRow
  alerts : List Alert
  alertIdFloor : Nat
  deliveries : List Delivery
  evalStates : Source → Option EvalState

namespace AlertDb

/-- `rule_state` -/
def ruleState (db : AlertDb) (ruleId subject : String) : Option RuleState :=
  (db.ruleStates (ruleId, subject)).map RuleStateRow.state

/-- `save_rule_state` -/
def saveRuleState (db : AlertDb) (ruleId subject : String) (g : GateResult) : AlertDb :=
  let old := db.ruleStates (ruleId, subject)
  let row : RuleStateRow :=
    { state := g.state
      suppressedCooldown := (old.map RuleStateRow.suppressedCooldown).getD 0 +
        if g.reason = .cooldown then 1 else 0
      suppressedThrottle := (old.map RuleStateRow.suppressedThrottle).getD 0 +
        if g.reason = .throttle then 1 else 0
      seenSeverity := old.bind RuleStateRow.seenSeverity }
  { db with ruleStates := Function.update db.ruleStates (ruleId, subject) (some row) }

/-- `insert_alert`: the alert and its delivery rows; its id is above every id ever used. -/
def insertAlert (db : AlertDb) (pce : Pce) (rule : RuleBase) (trigger : Trigger) (at_ : Int)
    (channels : List String) (hold : Option DeliveryStatus) : AlertDb :=
  let id := max ((db.alerts.map Alert.id).foldl max 0) db.alertIdFloor + 1
  let rows := match hold with
    | some status => [⟨id, none, status, none⟩]
    | none =>
        if channels = [] then [⟨id, none, .noChannel, none⟩]
        else channels.map fun c => ⟨id, some c, .pending, some at_⟩
  { db with
    alerts := db.alerts ++
      [⟨id, pce.1, pce.2, rule.name, rule.packKey, at_, hold.isNone, trigger⟩]
    deliveries := db.deliveries ++ rows }

/-- `seen_severity` -/
def seenSeverity (db : AlertDb) (ruleId subject : String) : Option Severity :=
  (db.ruleStates (ruleId, subject)).bind RuleStateRow.seenSeverity

/-- `set_seen_severity` -/
def setSeenSeverity (db : AlertDb) (ruleId subject : String) (severity : Severity) : AlertDb :=
  let old := (db.ruleStates (ruleId, subject)).getD ⟨⟨none, []⟩, 0, 0, none⟩
  let seen := { old with seenSeverity := some severity }
  { db with ruleStates := Function.update db.ruleStates (ruleId, subject) (some seen) }

/-- `last_alert` -/
def lastAlert (db : AlertDb) (ruleId subject : String) : Option Alert :=
  (db.alerts.filter fun a => decide (a.trigger.ruleId = ruleId) &&
    decide (a.trigger.subjectKey = subject)).foldl
    (fun best a => match best with
      | none => some a
      | some b => if b.firedAt ≤ a.firedAt then some a else some b) none

/-- `eval_watermark`: none when it is about another PCE. -/
def evalWatermark (db : AlertDb) (source : Source) (pce : Pce) : Option Watermark :=
  match db.evalStates source with
  | none => none
  | some row => if row.pce = pce then some row.watermark else none

/-- `set_eval_watermark` -/
def setEvalWatermark (db : AlertDb) (source : Source) (pce : Pce) (mark : Watermark) : AlertDb :=
  { db with evalStates := Function.update db.evalStates source (some ⟨pce, mark⟩) }

theorem evalWatermark_set (db : AlertDb) (source : Source) (pce : Pce) (mark : Watermark) :
    (db.setEvalWatermark source pce mark).evalWatermark source pce = some mark := by
  simp [setEvalWatermark, evalWatermark]

end AlertDb

/-! ## The recorder -/

/-- `_Recorder`: what one batch found, to be recorded. -/
structure Recorder where
  now : Int
  pce : Pce
  generation : Nat
  channels : List String
  pending : List (RuleBase × List Trigger)
  seen : List (String × String × Severity)

/-- `record` -/
def Recorder.record (rec : Recorder) (rule : RuleBase) (triggers : List Trigger) : Recorder :=
  if triggers = [] then rec else { rec with pending := rec.pending ++ [(rule, triggers)] }

/-- A transaction as it goes on: the tables, the alerts held back, and the counts. -/
structure Writing where
  db : AlertDb
  held : List (String × String)
  fired : Nat
  suppressed : Nat

/-- One trigger of a rule goes through its gate. -/
def Recorder.writeTrigger (rec : Recorder) (w : Writing) (rt : RuleBase × Trigger) : Writing :=
  let (rule, t) := rt
  let g := gate rule (w.db.ruleState rule.id t.subjectKey) rec.now
  let db := w.db.saveRuleState rule.id t.subjectKey g
  if g.allowed then
    let hold := if t.groupedAnnotation.isSome then some DeliveryStatus.grouped
      else if rule.notify then none else some .notNotified
    { w with
      db := db.insertAlert rec.pce rule t rec.now rec.channels hold
      fired := w.fired + 1 }
  else { w with db := db, held := (rule.id, t.subjectKey) :: w.held, suppressed := w.suppressed + 1 }

/-- What a rule saw is kept, unless its alert was held back. -/
def writeSeen (w : Writing) (s : String × String × Severity) : Writing :=
  if (s.1, s.2.1) ∈ w.held then w else { w with db := w.db.setSeenSeverity s.1 s.2.1 s.2.2 }

/-- The triggers with their rules, in the order they are written. -/
def Recorder.triggers (rec : Recorder) : List (RuleBase × Trigger) :=
  rec.pending.flatMap fun p => p.2.map fun t => (p.1, t)

/-- What is recorded stands after what was. -/
theorem triggers_record (r : Recorder) (base : RuleBase) (ts : List Trigger) :
    (r.record base ts).triggers = r.triggers ++ ts.map fun t => (base, t) := by
  rw [Recorder.record]
  split
  · rename_i hts
    rw [hts, List.map_nil, List.append_nil]
  · simp only [Recorder.triggers, List.flatMap_append, List.flatMap_cons, List.flatMap_nil,
      List.append_nil]

/-- Everything the transaction writes: the alerts and rule states, what was seen, and the
watermark. -/
def Recorder.written (rec : Recorder) (source : Source) (mark : Option Watermark)
    (db : AlertDb) : Writing :=
  let w := rec.seen.foldl writeSeen (rec.triggers.foldl rec.writeTrigger ⟨db, [], 0, 0⟩)
  match mark with
  | none => w
  | some mark => { w with db := w.db.setEvalWatermark source rec.pce mark }

/-! ## The state of an evaluation -/

/-- What evaluations share with others: the PCE of the settings, the generation of the flow
store, the store itself, and the tables of the alerts. -/
structure World (φ : Type) where
  pce : Pce
  generation : Nat
  flow : φ
  app : AlertDb

/-- The world, and what each committed batch took into account. -/
structure State (φ β : Type) where
  world : World φ
  batches : List β

/-- What comes with a step: what others did before it, and whether it fails. -/
structure Answer (φ : Type) where
  others : World φ → World φ
  fails : Bool

abbrev Step (φ β α : Type) : Type := Program (State φ β) (Answer φ) α

/-- How an evaluation ends early: with the exception of a step, or because the store is another
one by now (`StaleGeneration`). -/
inductive EvalError where
  | failed
  | stale
  deriving DecidableEq, Repr

section Steps

variable {φ β α : Type}

/-- What others did. -/
def State.after (w : State φ β) (a : Answer φ) : State φ β :=
  { w with world := a.others w.world }

/-- One step: what others did, and then its own effect, unless it fails. -/
def step (f : State φ β → State φ β × α) : Step φ β (Except EvalError α) :=
  Program.act fun w a =>
    if a.fails then (w.after a, .error .failed) else ((f (w.after a)).1, .ok (f (w.after a)).2)

/-- A read. -/
def look (f : World φ → α) : Step φ β (Except EvalError α) := step fun w => (w, f w.world)

/-- One statement on the application database that is a transaction of its own. -/
def write (f : AlertDb → AlertDb) : Step φ β (Except EvalError Unit) :=
  step fun w => ({ w with world := { w.world with app := f w.world.app } }, ())

/-- A transaction is committed, with what its batch took into account. -/
def State.committed (w : State φ β) (batch : β) (f : AlertDb → AlertDb × α) : State φ β where
  world := { w.world with app := (f w.world.app).1 }
  batches := w.batches ++ [batch]

/-- A transaction of the application database: its statements, and then the commit. Where one of
them fails nothing is written. -/
def transaction (batch : β) (f : AlertDb → AlertDb × α) : Nat → Step φ β (Except EvalError α)
  | 0 => step fun w => (w.committed batch f, (f w.world.app).2)
  | n + 1 => do
      let done ← step fun w => (w, ())
      match done with
      | .error e => pure (.error e)
      | .ok () => transaction batch f n

/-- What a commit writes, and how many alerts fired and were held back. -/
def Recorder.change (rec : Recorder) (source : Source) (mark : Option Watermark) (db : AlertDb) :
    AlertDb × Nat × Nat :=
  let w := rec.written source mark db
  (w.db, w.fired, w.suppressed)

/-- `commit` -/
def Recorder.commit (rec : Recorder) (source : Source) (mark : Option Watermark)
    (batch : β) : Step φ β (Except EvalError (Nat × Nat)) := do
  let same ← look fun w => decide (w.pce = rec.pce) && decide (w.generation = rec.generation)
  match same with
  | .error e => pure (.error e)
  | .ok false => pure (.error .stale)
  | .ok true =>
      transaction batch (rec.change source mark) (rec.triggers.length + rec.seen.length + 1)

/-! ## Rules of the steps -/

variable {ok : Answer φ → Prop} {R : State φ β → State φ β → Prop} {K K' : State φ β → Prop}

/-- What others do keeps the relation of the steps and what is known of the state. -/
def Stable (ok : Answer φ → Prop) (R : State φ β → State φ β → Prop) (K : State φ β → Prop) :
    Prop :=
  ∀ w a, ok a → K w → R w (w.after a) ∧ K (w.after a)

/-- A read returns what is there when it is done. -/
theorem safe_look (hstable : Stable ok R K) (f : World φ → α) :
    Program.Safe ok R K (look f) fun r w => K w ∧ ∀ x, r = .ok x → x = f w.world := by
  refine Program.safe_act fun w a ha hw => ?_
  obtain ⟨hr, hk⟩ := hstable w a ha hw
  cases hfails : a.fails with
  | true =>
      simp only [if_true]
      exact ⟨hr, hk, fun x hx => absurd hx (by simp)⟩
  | false =>
      simp only [Bool.false_eq_true, if_false]
      refine ⟨hr, hk, fun x hx => ?_⟩
      exact (Except.ok.inj hx).symm

theorem safe_write {f : AlertDb → AlertDb} {Q : State φ β → Prop} (hstable : Stable ok R K)
    (hwrite : ∀ w a, ok a → K w →
      let w' : State φ β := { w.after a with
        world := { (w.after a).world with app := f (w.after a).world.app } }
      R w w' ∧ Q w') :
    Program.Safe ok R K (write f) fun r w =>
      match r with
      | .error _ => K w
      | .ok () => Q w := by
  refine Program.safe_act fun w a ha hw => ?_
  cases hfails : a.fails with
  | true =>
      simp only [if_true]
      exact hstable w a ha hw
  | false =>
      simp only [Bool.false_eq_true, if_false]
      exact hwrite w a ha hw

/-- Of a transaction either everything is written or nothing. -/
theorem safe_transaction {batch : β} {f : AlertDb → AlertDb × α} {Q : α → State φ β → Prop}
    (hstable : Stable ok R K)
    (hcommit : ∀ w a, ok a → K w → R w ((w.after a).committed batch f) ∧
      Q (f (w.after a).world.app).2 ((w.after a).committed batch f)) (n : Nat) :
    Program.Safe ok R K (transaction batch f n) fun r w =>
      match r with
      | .error _ => K w
      | .ok x => Q x w := by
  induction n with
  | zero =>
      refine Program.safe_act fun w a ha hw => ?_
      cases hfails : a.fails with
      | true =>
          simp only [if_true]
          exact hstable w a ha hw
      | false =>
          simp only [Bool.false_eq_true, if_false]
          exact hcommit w a ha hw
  | succ n ih =>
      refine Program.safe_bind (Q := fun _ => K) (Program.safe_act fun w a ha hw => ?_) ?_
      · cases hfails : a.fails with
        | true =>
            simp only [if_true]
            exact hstable w a ha hw
        | false =>
            simp only [Bool.false_eq_true, if_false]
            exact hstable w a ha hw
      · rintro (e | _)
        · exact Program.safe_pure fun w hw => hw
        · exact ih

theorem safe_commit {rec : Recorder} {source : Source} {mark : Option Watermark} {batch : β}
    {Q : State φ β → Prop} (hstable : Stable ok R K)
    (hcommit : ∀ w a, ok a → K w → R w ((w.after a).committed batch (rec.change source mark)) ∧
      Q ((w.after a).committed batch (rec.change source mark))) :
    Program.Safe ok R K (rec.commit source mark batch) fun r w =>
      match r with
      | .error _ => K w
      | .ok _ => Q w := by
  rw [Recorder.commit]
  refine Program.safe_bind (safe_look hstable _) ?_
  rintro (e | _ | _)
  · exact Program.safe_pure fun w hw => hw.1
  · exact Program.safe_pure fun w hw => hw.1
  · refine Program.safe_weaken (safe_transaction (Q := fun _ => Q) hstable hcommit _)
      (fun w hw => hw.1) ?_
    rintro (e | x) w hw
    · exact hw
    · exact hw

end Steps

/-! ## What a commit leaves of the watermarks -/

section Watermarks

variable {rec : Recorder} {source : Source} {db : AlertDb}

theorem evalStates_saveRuleState (ruleId subject : String) (g : GateResult) :
    (db.saveRuleState ruleId subject g).evalStates = db.evalStates := rfl

theorem evalStates_writeTrigger (w : Writing) (rt : RuleBase × Trigger) :
    (rec.writeTrigger w rt).db.evalStates = w.db.evalStates := by
  obtain ⟨rule, t⟩ := rt
  simp only [Recorder.writeTrigger]
  split <;> rfl

theorem evalStates_foldl {α : Type} {f : Writing → α → Writing}
    (hf : ∀ w x, (f w x).db.evalStates = w.db.evalStates) (xs : List α) (w : Writing) :
    (xs.foldl f w).db.evalStates = w.db.evalStates := by
  induction xs generalizing w with
  | nil => rfl
  | cons x xs ih => exact (ih (f w x)).trans (hf w x)

theorem evalStates_writeSeen (w : Writing) (s : String × String × Severity) :
    (writeSeen w s).db.evalStates = w.db.evalStates := by
  simp only [writeSeen]
  split <;> rfl

/-- A commit moves the watermark of its source, and no other. -/
theorem evalStates_change (mark : Watermark) :
    (rec.change source (some mark) db).1.evalStates =
      Function.update db.evalStates source (some ⟨rec.pce, mark⟩) := by
  simp only [Recorder.change, Recorder.written, AlertDb.setEvalWatermark]
  rw [evalStates_foldl evalStates_writeSeen, evalStates_foldl evalStates_writeTrigger]

theorem evalWatermark_change (mark : Watermark) :
    (rec.change source (some mark) db).1.evalWatermark source rec.pce = some mark := by
  simp [AlertDb.evalWatermark, evalStates_change]

end Watermarks

/-! ## The alerts a commit leaves -/

section Alerts

variable {rec : Recorder} {source : Source} {mark : Option Watermark} {db : AlertDb} {a : Alert}

theorem mem_alerts_writeTrigger {w : Writing} (rt : RuleBase × Trigger) (h : a ∈ w.db.alerts) :
    a ∈ (rec.writeTrigger w rt).db.alerts := by
  obtain ⟨rule, t⟩ := rt
  simp only [Recorder.writeTrigger]
  split
  · exact List.mem_append_left _ h
  · exact h

theorem mem_alerts_foldl {rts : List (RuleBase × Trigger)} {w : Writing}
    (h : a ∈ w.db.alerts) : a ∈ (rts.foldl rec.writeTrigger w).db.alerts := by
  induction rts generalizing w with
  | nil => exact h
  | cons rt rts ih => exact ih (mem_alerts_writeTrigger rt h)

theorem alerts_foldl_writeSeen (seen : List (String × String × Severity)) (w : Writing) :
    (seen.foldl writeSeen w).db.alerts = w.db.alerts := by
  induction seen generalizing w with
  | nil => rfl
  | cons s seen ih =>
      refine (ih (writeSeen w s)).trans ?_
      simp only [writeSeen]
      split <;> rfl

theorem alerts_change (db : AlertDb) : (rec.change source mark db).1.alerts =
    (rec.triggers.foldl rec.writeTrigger ⟨db, [], 0, 0⟩).db.alerts := by
  rw [← alerts_foldl_writeSeen rec.seen]
  cases mark with
  | none => rfl
  | some mark => rfl

/-- No commit takes an alert away. -/
theorem mem_alerts_change (h : a ∈ db.alerts) : a ∈ (rec.change source mark db).1.alerts := by
  rw [alerts_change]
  exact mem_alerts_foldl h

/-- A trigger of a rule without a cooldown and a throttle is an alert once it is committed. -/
theorem exists_alert_of_trigger {rule : RuleBase} {t : Trigger}
    (hcooldown : rule.cooldownMinutes = 0) (hthrottle : rule.throttle = none)
    (ht : (rule, t) ∈ rec.triggers) :
    ∃ a ∈ (rec.change source mark db).1.alerts, a.trigger = t := by
  have hfold : ∀ (rts : List (RuleBase × Trigger)) (w : Writing), (rule, t) ∈ rts →
      ∃ a ∈ (rts.foldl rec.writeTrigger w).db.alerts, a.trigger = t := by
    intro rts
    induction rts with
    | nil => exact fun w h => absurd h List.not_mem_nil
    | cons rt rts ih =>
        intro w h
        rcases List.mem_cons.1 h with rfl | h
        · have hgate := gate_allowed hcooldown hthrottle (w.db.ruleState rule.id t.subjectKey)
            rec.now
          have hwritten : ∃ a ∈ (rec.writeTrigger w (rule, t)).db.alerts, a.trigger = t := by
            simp only [Recorder.writeTrigger, hgate, if_true]
            exact ⟨_, List.mem_append_right _ (List.mem_singleton.2 rfl), rfl⟩
          obtain ⟨a, ha, htrigger⟩ := hwritten
          have hkept : a ∈ (rts.foldl rec.writeTrigger (rec.writeTrigger w (rule, t))).db.alerts :=
            mem_alerts_foldl ha
          exact ⟨a, hkept, htrigger⟩
        · exact ih _ h
  rw [alerts_change]
  exact hfold _ _ ht

end Alerts

end IllumioOps.Alerts
