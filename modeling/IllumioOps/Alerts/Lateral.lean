import IllumioOps.Alerts.Detections
import IllumioOps.Alerts.Events

/-!
# Evaluating detections

`evaluate_lateral`: the detections changed after the watermark are read in batches, the lateral
rules are run over each, and what a batch found is committed with the watermark moved to its last
change. A detection alerts when it is new, that is created after the watermark the run started
from, or when its severity rose since the rule saw it. Passes of the detectors write at any
moment.
-/

set_option autoImplicit false

namespace IllumioOps.Alerts

open Programs

/-! ## The store -/

/-- The current labels of the workloads, and what the named IP lists and label groups stand
for. -/
structure Inventory where
  labels : String → List (String × String)
  ipLists : String → List String
  labelGroups : String → List String

/-- The table `detections`, whether a collection has succeeded, and the inventory. -/
structure DetectionStore where
  detections : DetectionTable
  collected : Bool
  inventory : Inventory

/-- A pass of the detectors, up to its write: when it started, what it found, and each detector's
dedup window. -/
structure DetectionPass where
  at_ : Int
  late : Bool
  found : List DetectionWrite
  dedup : DetectorKind → Int

/-- The write of `run_detection`. -/
def DetectionStore.runDetection (s : DetectionStore) (p : DetectionPass) : DetectionStore :=
  { s with detections := s.detections.upsertDetections p.found p.dedup p.late p.at_ }

/-! ## Rules for detections -/

/-- `EndFact` -/
structure EndFact where
  role : String
  href : Option String
  ip : String
  labels : List (String × String)
  deriving DecidableEq, Repr

/-- `DetectionFact` -/
structure DetectionFact where
  id : Nat
  detector : DetectorKind
  fingerprint : String
  subjectKey : String
  severity : Severity
  criticalAsset : Bool
  late : Bool
  firstSeen : Int
  lastSeen : Int
  isNew : Bool
  severityRose : Bool
  ends : Option (List EndFact)
  deriving DecidableEq, Repr

/-- A lateral rule. `exclude` is `endpoint_matches` of its exclusion; none is one that is empty
too. -/
structure LateralRule extends RuleBase where
  detectors : List DetectorKind
  minSeverity : Severity
  criticalAssetsOnly : Bool
  exclude : Option (Inventory → EndFact → Bool)

/-- `excluded`: every source matches, or every target does. -/
def excluded (exclude : Option (EndFact → Bool)) (ends : Option (List EndFact)) : Bool :=
  match exclude, ends with
  | some hit, some ends => ["s", "t"].any fun role =>
      let side := ends.filter fun e => decide (e.role = role)
      !side.isEmpty && side.all hit
  | _, _ => false

inductive LateralMiss where
  | otherDetector
  | belowSeverity
  | notCritical
  | excluded
  deriving DecidableEq, Repr

/-- `lateral_rule_reason` -/
def lateralRuleReason (rule : LateralRule) (inventory : Inventory) (d : DetectionFact) :
    Option LateralMiss :=
  if d.detector ∉ rule.detectors then some .otherDetector
  else if d.severity.index < rule.minSeverity.index then some .belowSeverity
  else if rule.criticalAssetsOnly && !d.criticalAsset then some .notCritical
  else if excluded (rule.exclude.map fun hit => hit inventory) d.ends then some .excluded
  else none

/-- A detection, or all of a detector's about a subject, that an operator marked known. -/
structure KnownMark where
  id : Nat
  detector : DetectorKind
  subjectKey : String
  fingerprint : Option String
  deriving DecidableEq, Repr

/-- The first mark that covers a detection (`apply_known`). -/
def coveringMark (marks : List KnownMark) (d : DetectionFact) : Option KnownMark :=
  marks.find? fun m => decide (m.detector = d.detector) && decide (m.subjectKey = d.subjectKey) &&
    m.fingerprint.all fun f => decide (f = d.fingerprint)

/-- The trigger of a rule about a detection; a mark that covers it groups it. -/
def detectionTrigger (rule : LateralRule) (marks : List KnownMark) (d : DetectionFact) :
    Trigger where
  ruleId := rule.id
  subjectKey := d.fingerprint
  severity := rule.severity.getD d.severity
  firstSeen := d.firstSeen
  lastSeen := d.lastSeen
  late := d.late
  facts := .detection d.id d.criticalAsset d.severity
  groupedAnnotation := (coveringMark marks d).map KnownMark.id

/-- `evaluate_lateral_rule`, with the known marks applied. -/
def evaluateLateralRule (rule : LateralRule) (inventory : Inventory) (marks : List KnownMark)
    (changed : List DetectionFact) : List Trigger :=
  (changed.filter fun d => (d.isNew || d.severityRose) &&
    decide (lateralRuleReason rule inventory d = none)).map (detectionTrigger rule marks)

/-- `_is_new`: created after the run's starting watermark. -/
def isNew (start : Option Int × Nat) (r : DetectionRow) : Bool :=
  start.1.all (fun s => decide (s < r.createdAt)) ||
    (decide (start.1 = some r.createdAt) && decide (start.2 < r.id))

/-- `_previous_severity`: what the rule saw last, or the severity on its last alert. -/
def previousSeverity (db : AlertDb) (ruleId fingerprint : String) : Option Severity :=
  match db.seenSeverity ruleId fingerprint with
  | some seen => some seen
  | none => (db.lastAlert ruleId fingerprint).map fun a => match a.trigger.facts with
    | .detection _ _ severity => severity
    | _ => a.trigger.severity

/-- The facts of the ends: a key that is no address is a workload's href. -/
def endFacts (inventory : Inventory) (ends : List StoredEnd) : List EndFact :=
  ends.map fun e =>
    if e.key.startsWith "ip:" then ⟨e.role, none, e.ip, []⟩
    else ⟨e.role, some e.key, e.ip, if e.key = "" then [] else inventory.labels e.key⟩

/-- `detection_fact` -/
def detectionFact (start : Option Int × Nat) (inventory : Inventory) (previous : Option Severity)
    (r : DetectionRow) : DetectionFact where
  id := r.id
  detector := r.detector
  fingerprint := r.fingerprint
  subjectKey := r.subjectKey
  severity := r.severity
  criticalAsset := r.criticalAsset
  late := r.late
  firstSeen := r.firstSeen
  lastSeen := r.lastSeen
  isNew := isNew start r
  severityRose := previous.any fun p => decide (p.index < r.severity.index)
  ends := r.ends.map (endFacts inventory)

/-! ## A run -/

/-- What a committed batch evaluated. -/
structure LateralBatch where
  rules : List LateralRule
  inventory : Inventory
  rows : List DetectionRow

/-- What the runs did, in the order they did it: a run started at a watermark, read a page, and
committed what it evaluated. -/
inductive LateralEntry where
  | start (mark : Option Watermark)
  | page (rows : List DetectionRow)
  | batch (b : LateralBatch)

abbrev LateralState : Type := State DetectionStore LateralEntry

abbrev LateralStep (α : Type) : Type := Step DetectionStore LateralEntry α

/-- What a run is started with: the time, the rules and channels of the settings, and the known
marks. -/
structure LateralRun where
  now : Int
  rules : List LateralRule
  channels : List String
  marks : List KnownMark

/-- The enabled rules. -/
def LateralRun.active (q : LateralRun) : List LateralRule := q.rules.filter fun r => r.enabled

def detectionBatch : Nat := 2000

def detectionBatches : Nat := 25

/-- The watermark of the lateral rules for the PCE of the settings. -/
def lateralMark (w : LateralState) : Option Watermark :=
  w.world.app.evalWatermark .lateral w.world.pce

/-- A run starts. -/
def started : LateralStep (Except EvalError Pce) :=
  step fun w => ({ w with batches := w.batches ++ [.start (lateralMark w)] }, w.world.pce)

/-- A page is read. -/
def readPage (mark : Option Int × Nat) : LateralStep (Except EvalError (List DetectionRow)) :=
  step fun w =>
    let rows := w.world.flow.detections.changedSince mark detectionBatch
    ({ w with batches := w.batches ++ [.page rows] }, rows)

/-- What the rule saw of a detection before: of a new one nothing. -/
def readPrevious (rule : LateralRule) (start : Option Int × Nat) (row : DetectionRow) :
    LateralStep (Except EvalError (Option Severity)) :=
  if isNew start row then pure (.ok none)
  else look fun w => previousSeverity w.app rule.id row.fingerprint

/-- The facts of a page for a rule. -/
def readFacts (rule : LateralRule) (wanted : List DetectorKind) (start : Option Int × Nat)
    (inventory : Inventory) :
    List DetectionRow → LateralStep (Except EvalError (List DetectionFact))
  | [] => pure (.ok [])
  | row :: rows =>
      if row.detector ∉ wanted then readFacts rule wanted start inventory rows
      else do
        let previous ← readPrevious rule start row
        match previous with
        | .error e => pure (.error e)
        | .ok previous => do
            let facts ← readFacts rule wanted start inventory rows
            match facts with
            | .error e => pure (.error e)
            | .ok facts => pure (.ok (detectionFact start inventory previous row :: facts))

/-- What a rule saw of a page is recorded. -/
def Recorder.saw (rec : Recorder) (rule : LateralRule) (page : List DetectionRow) : Recorder :=
  { rec with
    seen := rec.seen ++ (page.filter fun row => decide (row.detector ∈ rule.detectors)).map
      fun row => (rule.id, row.fingerprint, row.severity) }

/-- The rules are run over a page, and their triggers recorded with what each rule saw. -/
def recordDetections (q : LateralRun) (start : Option Int × Nat) (inventory : Inventory)
    (page : List DetectionRow) :
    List LateralRule → Recorder → LateralStep (Except EvalError Recorder)
  | [], r => pure (.ok r)
  | rule :: rules, r => do
      let facts ← readFacts rule (q.active.flatMap LateralRule.detectors) start inventory page
      match facts with
      | .error e => pure (.error e)
      | .ok facts =>
          recordDetections q start inventory page rules ((r.saw rule page).record rule.toRuleBase
            (evaluateLateralRule rule inventory q.marks facts))

/-- The batches of a run, at most so many: each is read, evaluated and committed. -/
def evaluateDetections (q : LateralRun) (pce : Pce) (generation : Nat) (inventory : Inventory)
    (start : Option Int × Nat) :
    Nat → Option Int × Nat → EvalRun → LateralStep (Except EvalError EvalRun)
  -- more changed detections than a run takes: the rest are evaluated next run
  | 0, _, run => pure (.ok run)
  | n + 1, mark, run => do
      let page ← readPage mark
      match page with
      | .error e => pure (.error e)
      | .ok page =>
          match page.getLast? with
          | none => pure (.ok run)
          | some last => do
              let found ← recordDetections q start inventory page q.active
                ⟨q.now, pce, generation, q.channels, [], []⟩
              match found with
              | .error e => pure (.error e)
              | .ok found => do
                  let done ← found.commit .lateral (some (.stamp last.place.1 last.place.2))
                    (.batch ⟨q.active, inventory, page⟩)
                  match done with
                  | .error e => pure (.error e)
                  | .ok (fired, suppressed) =>
                      let run : EvalRun := ⟨run.evaluated + page.length, run.fired + fired,
                        run.suppressed + suppressed⟩
                      if page.length < detectionBatch then pure (.ok run)
                      else evaluateDetections q pce generation inventory start n last.place run

/-- A first evaluation only sets the watermark to the newest change, once a collection has
succeeded. -/
def startLateral (pce : Pce) : LateralStep (Except EvalError EvalRun) := do
  let collected ← look fun w => w.flow.collected
  match collected with
  | .error e => pure (.error e)
  | .ok false => pure (.ok ⟨0, 0, 0⟩)
  | .ok true => do
      let newest ← look fun w => w.flow.detections.maxDetectionUpdate
      match newest with
      | .error e => pure (.error e)
      | .ok newest => do
          let done ← write fun db => db.setEvalWatermark .lateral pce (.stamp newest.1 newest.2)
          match done with
          | .error e => pure (.error e)
          | .ok () => pure (.ok ⟨0, 0, 0⟩)

/-- `_mark` -/
def Watermark.lateralFrom : Watermark → Option (Option Int × Nat)
  | .stamp s n => some (s, n)
  | _ => none

/-- `evaluate_lateral` -/
def evaluateLateral (q : LateralRun) : LateralStep (Except EvalError EvalRun) := do
  let pce ← started
  match pce with
  | .error e => pure (.error e)
  | .ok pce => do
      let mark ← look fun w => w.app.evalWatermark .lateral pce
      match mark with
      | .error e => pure (.error e)
      | .ok none => startLateral pce
      | .ok (some mark) => do
          let generation ← look fun w => w.generation
          match generation with
          | .error e => pure (.error e)
          | .ok generation => do
              let inventory ← look fun w => w.flow.inventory
              match inventory with
              | .error e => pure (.error e)
              | .ok inventory =>
                  match mark.lateralFrom with
                  | none => pure (.error .failed)
                  | some start =>
                      evaluateDetections q pce generation inventory start detectionBatches start
                        ⟨0, 0, 0⟩

end IllumioOps.Alerts
