import IllumioOps.Programs.Interrupted
import IllumioOps.Siem.Cursors
import Mathlib.Data.List.Find

/-!
# The SIEM dispatcher

`run_siem` and what it calls, as programs that can be stopped at any step. A step is one
transaction, one call of a transport or one look at the clock; what the transports and the
clock answer, and what the rest of the product does in between, is the step's answer.
-/

set_option autoImplicit false

namespace IllumioOps.Siem

open Programs

/-! ## Steps -/

/-- How a transport takes a record: it returns, refuses it for good (`permanent`), or fails
otherwise. -/
inductive SendOutcome where
  | taken
  | refused (error : String)
  | failed (error : String)
  deriving DecidableEq, Repr

/-- How `finish_batch` ends: normally, with an `OSError`, or with another exception. -/
inductive FinishOutcome where
  | confirmed
  | unconfirmed (error : String)
  | raised
  deriving DecidableEq, Repr

/-- What the surroundings do in one step: what arrived before it, whether the deadline has
passed, the time, an error of the transport's or the formatter's construction, and how the
transport answers. -/
structure Answer where
  arrivals : List Arrival
  late : Bool
  now : Int
  setup : Option String
  send : SendOutcome
  finish : FinishOutcome

abbrev Dispatch (α : Type) : Type := Program State Answer α

/-- One step of the dispatcher: the arrivals first, and then its own effect. -/
def step {α : Type} (f : State → Answer → State × α) : Dispatch α :=
  Program.act fun w a => f (w.arriveAll a.arrivals) a

/-- `clock() >= deadline` -/
def pastDeadline : Dispatch Bool := step fun w a => (w, a.late)

def timeNow : Dispatch Int := step fun w a => (w, a.now)

/-- `ctx.flows().generation` -/
def flowGeneration : Dispatch Nat := step fun w _ => (w, w.generation)

def getCursor (key : Key) : Dispatch (Option Cursor) := step fun w _ => (w, w.cursors key)

def newestId (source : Source) : Dispatch Nat := step fun w _ => (w, (w.stored source).newest)

def startCursor (s : SiemSettings) (key : Key) (lastId : Nat) : Dispatch Unit :=
  step fun w _ => (w.startCursor key s.pceUrl s.orgId lastId, ())

/-- A source's `read`. -/
def read (dest : SiemDestination) (source : Source) (after limit : Nat) :
    Dispatch (List SiemRecord) :=
  step fun w _ => (w, (w.stored source).after (dest.takes source) after limit)

def dropFloor (key : Key) : Dispatch Unit := step fun w _ => (w.dropFloor key, ())

def advance (s : SiemSettings) (key : Key) (lastId sent : Nat) (now : Int) : Dispatch Bool :=
  step fun w _ => w.advance key s.pceUrl s.orgId lastId sent now

def recordFailure (key : Key) (headId : Nat) (error : String) (now : Int) : Dispatch Nat :=
  step fun w _ => w.recordFailure key headId error now

/-- `_dlq_full` -/
def dlqFull (s : SiemSettings) (dest : SiemDestination) : Dispatch Bool :=
  step fun w _ => (w, decide (s.dlqMaxPerDest ≤ w.dlqCount dest.id))

def sendRecord (key : Key) (rec : SiemRecord) (probe : Bool) : Dispatch SendOutcome :=
  step fun w a => (w.sendRecord (key, rec) probe (decide (a.send = .taken)), a.send)

def finishBatch (dest : SiemDestination) : Dispatch FinishOutcome :=
  step fun w a => (w.finishBatch dest.id (decide (a.finish = .confirmed)), a.finish)

/-- `factory(dest)` and `_formatter(..)`: the error when one of them cannot be made. -/
def openTransport : Dispatch (Option String) := step fun w a => (w.openTransport, a.setup)

/-- `RECENT_UP`, in seconds. -/
def recentUp : Int := 3600

/-- `_recently_up`: a cursor of the destination sent something within the hour. -/
def recentlyUp (dest : SiemDestination) (now : Int) : Dispatch Bool :=
  step fun w _ => (w, [Source.audit, .alerts, .detections, .newConnections].any fun source =>
    match (w.cursors (dest.id, source)).bind Cursor.lastSentAt with
    | none => false
    | some sentAt => decide (now - recentUp ≤ sentAt))

/-- `_held`: the record should go to the DLQ and there is no room. -/
def held (key : Key) (rec : SiemRecord) (now : Int) : Dispatch Unit :=
  step fun w _ => ((w.noteError key "dlq_full" now).hold (key, rec), ())

/-- The insert of `_quarantine`. -/
def insertLetter (dest : SiemDestination) (source : Source) (rec : SiemRecord)
    (payload error : String) (attempts : Nat) (now : Int) : Dispatch Unit :=
  step fun w _ => (w.quarantine
    { destinationId := dest.id, source := source, recordId := rec.recordId,
      externalId := rec.externalId, eventTime := rec.time, payload := payload,
      sentAs := dest.sentAs, error := clip 2000 error, attempts := attempts,
      quarantinedAt := now } ((dest.id, source), rec), ())

/-! ## The failure path -/

/-- `STUCK_FACTOR` -/
def stuckFactor : Nat := 10

/-- `PROBE`: later records tried to tell a record that fails from a destination that is down. -/
def probeCount : Nat := 3

/-- `HARD_FACTOR` -/
def hardFactor : Nat := 100

/-- `_quarantine`: into the DLQ; false, the record held, when the DLQ is full. -/
def quarantine (s : SiemSettings) (dest : SiemDestination) (source : Source) (rec : SiemRecord)
    (payload error : String) (attempts : Nat) (now : Int) : Dispatch Bool := do
  let full ← dlqFull s dest
  if full then
    held (dest.id, source) rec now
    pure false
  else
    insertLetter dest source rec payload error attempts now
    pure true

/-- `_skips`: records lie between the head and the probe that went through. -/
def skips (records : List SiemRecord) (head probed : SiemRecord) : Bool :=
  records.any fun r => decide (head.recordId < r.recordId) && decide (r.recordId < probed.recordId)

/-- The loop of `_next_goes_through`: the first of the records that goes through. -/
def nextGoesThrough (dest : SiemDestination) (source : Source) :
    List SiemRecord → Dispatch (Option SiemRecord)
  | [] => pure none
  | nxt :: rest =>
      match dest.formatter.formatRecord nxt with
      | .error _ => nextGoesThrough dest source rest
      | .ok _ => do
          let sent ← sendRecord (dest.id, source) nxt true
          match sent with
          | .taken =>
              let finish ← finishBatch dest
              match finish with
              | .confirmed => pure (some nxt)
              | _ => nextGoesThrough dest source rest
          | _ => nextGoesThrough dest source rest

/-- The records `_next_goes_through` tries. -/
def probes (records : List SiemRecord) (head : SiemRecord) : List SiemRecord :=
  (records.filter fun r => decide (head.recordId < r.recordId)).take probeCount

structure SourceRun where
  sent : Nat
  quarantined : Nat
  error : Option String
  unreachable : Bool
  dlqFull : Bool
  started : Bool
  switched : Bool
  deriving DecidableEq, Repr

def SourceRun.empty : SourceRun := ⟨0, 0, none, false, false, false, false⟩

/-- What the loop over a batch has come to: the id up to which it is done, how many records
were sent, the failure that ended it, and the lines made. -/
structure Batch where
  consumed : Nat
  sent : Nat
  failure : Option (SiemRecord × String)
  payloads : List (Nat × String)
  run : SourceRun

/-- Whether the head has failed so often that it goes to the DLQ whatever the probes say. -/
def isStuck (dest : SiemDestination) (source : Source) (head : SiemRecord) (attempts : Nat)
    (now : Int) : Dispatch Bool :=
  if dest.maxRetries * hardFactor ≤ attempts then pure true
  else if dest.maxRetries * stuckFactor ≤ attempts then do
    let later ← read dest source head.recordId 1
    if later = [] then recentlyUp dest now else pure false
  else pure false

/-- The line of the head: as it was made for the batch, or made again. -/
def headPayload (dest : SiemDestination) (payloads : List (Nat × String)) (head : SiemRecord) :
    Except String String :=
  match payloads.lookup head.recordId with
  | none => dest.formatter.formatRecord head
  | some payload => if payload = "" then dest.formatter.formatRecord head else .ok payload

/-- Where the cursor goes once the head is in the DLQ: past the head, or past the probe that
went through when nothing lies between them. -/
def headTarget (ahead : List SiemRecord) (head : SiemRecord) : Option SiemRecord → Nat
  | none => head.recordId
  | some nxt => if skips ahead head nxt then head.recordId else nxt.recordId

/-- The end of the failure path: the head goes to the DLQ, and the cursor past it. -/
def blameHead (s : SiemSettings) (dest : SiemDestination) (source : Source) (head : SiemRecord)
    (error : String) (attempts : Nat) (now : Int) (payloads : List (Nat × String))
    (ahead : List SiemRecord) (probed : Option SiemRecord) (run : SourceRun) :
    Dispatch SourceRun :=
  match headPayload dest payloads head with
  | .error _ => Program.stop
  | .ok payload => do
      let room ← quarantine s dest source head payload error attempts now
      if room then
        let sent := if probed.isSome then 1 else 0
        let _ ← advance s (dest.id, source) (headTarget ahead head probed) sent now
        pure { run with quarantined := run.quarantined + 1, sent := run.sent + sent }
      else pure { run with dlqFull := true }

/-- The records after the head: those of the batch, or, of a small batch, read ahead. -/
def readAhead (dest : SiemDestination) (source : Source) (records : List SiemRecord)
    (head : SiemRecord) (stuck : Bool) : Dispatch (List SiemRecord) :=
  let later := records.filter fun r => decide (head.recordId < r.recordId)
  if !stuck && decide (later.length < probeCount) then
    read dest source head.recordId probeCount
  else pure later

/-- The probe, unless the head is stuck. -/
def probeNext (dest : SiemDestination) (source : Source) (ahead : List SiemRecord)
    (head : SiemRecord) (stuck : Bool) : Dispatch (Option SiemRecord) :=
  if stuck then pure none else nextGoesThrough dest source (probes ahead head)

/-- The failure path of `_run_source`, after the cursor was advanced. -/
def headFailed (s : SiemSettings) (dest : SiemDestination) (source : Source)
    (records : List SiemRecord) (payloads : List (Nat × String)) (head : SiemRecord)
    (error : String) (now : Int) (run : SourceRun) : Dispatch SourceRun := do
  let attempts ← recordFailure (dest.id, source) head.recordId error now
  let run := { run with error := some error, unreachable := true }
  let stuck ← isStuck dest source head attempts now
  if !stuck && decide (attempts < dest.maxRetries) then pure run
  else
    let full ← dlqFull s dest
    if full then
      -- no room for the head: a probe that goes through would be sent again
      held (dest.id, source) head now
      pure { run with dlqFull := true, error := some "dlq_full" }
    else
      let ahead ← readAhead dest source records head stuck
      let probed ← probeNext dest source ahead head stuck
      if stuck || probed.isSome then
        blameHead s dest source head error attempts now payloads ahead probed run
      else pure run

/-! ## A source -/

/-- The record was sent by 5.x: its time is at or before the floor. -/
def passedOver (floor : Option Int) (rec : SiemRecord) : Bool :=
  match floor with
  | none => false
  | some f => decide (rec.time ≤ f)

/-- The line of a record is made. -/
def Batch.made (b : Batch) (rec : SiemRecord) (payload : String) : Batch :=
  { b with payloads := b.payloads ++ [(rec.recordId, payload)] }

/-- A record is passed over. -/
def Batch.passed (b : Batch) (rec : SiemRecord) : Batch := { b with consumed := rec.recordId }

/-- A record was taken by the transport. -/
def Batch.took (b : Batch) (rec : SiemRecord) : Batch :=
  { b with sent := b.sent + 1, consumed := rec.recordId }

/-- A record went to the DLQ. -/
def Batch.quarantined (b : Batch) (rec : SiemRecord) : Batch :=
  { b with
    run := { b.run with quarantined := b.run.quarantined + 1 }
    consumed := rec.recordId }

/-- A record is held by a full DLQ. -/
def Batch.heldFull (b : Batch) : Batch := { b with run := { b.run with dlqFull := true } }

/-- The loop over the records of a batch. -/
def sendBatch (s : SiemSettings) (dest : SiemDestination) (source : Source) (floor : Option Int)
    (now : Int) : List SiemRecord → Batch → Dispatch Batch
  | [], b => pure b
  | rec :: rest, b => do
      let late ← pastDeadline
      if late then pure b
      else if passedOver floor rec then sendBatch s dest source floor now rest (b.passed rec)
      else
        match dest.formatter.formatRecord rec with
        | .error e => do
            let room ← quarantine s dest source rec (clip 4000 (dest.formatter.repr rec))
              ("format: " ++ e) 1 now
            if room then sendBatch s dest source floor now rest (b.quarantined rec)
            else pure b.heldFull
        | .ok payload => do
            let sent ← sendRecord (dest.id, source) rec false
            match sent with
            | .taken => sendBatch s dest source floor now rest ((b.made rec payload).took rec)
            | .refused e => do
                let room ← quarantine s dest source rec payload ("refused: " ++ e) 1 now
                if room then
                  sendBatch s dest source floor now rest ((b.made rec payload).quarantined rec)
                else pure (b.made rec payload).heldFull
            | .failed e => pure { b.made rec payload with failure := some (rec, e) }

/-- The first record of a batch that a line was made for. -/
def firstSent (records : List SiemRecord) (payloads : List (Nat × String)) : Option SiemRecord :=
  records.find? fun r => (payloads.lookup r.recordId).isSome

theorem firstSent_nil (records : List SiemRecord) : firstSent records [] = none := by
  simp [firstSent]

/-- A line made for a further record makes it the first only when there was none. -/
theorem firstSent_append {processed rest : List SiemRecord} {rec : SiemRecord}
    {payloads : List (Nat × String)} (payload : String)
    (hordered : (processed ++ rec :: rest).Pairwise fun a b => a.recordId < b.recordId)
    (hunsent : ∀ r ∈ rec :: rest, payloads.lookup r.recordId = none) :
    firstSent (processed ++ rec :: rest) (payloads ++ [(rec.recordId, payload)]) =
      (firstSent (processed ++ rec :: rest) payloads).or (some rec) := by
  have hbefore : ∀ r ∈ processed, r.recordId ≠ rec.recordId := fun r hr =>
    Nat.ne_of_lt ((List.pairwise_append.1 hordered).2.2 r hr rec List.mem_cons_self)
  have hnone : (rec :: rest).find? (fun r => (payloads.lookup r.recordId).isSome) = none := by
    rw [List.find?_eq_none]
    intro r hr
    rw [hunsent r hr]
    exact Bool.false_ne_true
  have hsame : processed.find?
      (fun r => ((payloads ++ [(rec.recordId, payload)]).lookup r.recordId).isSome) =
      processed.find? (fun r => (payloads.lookup r.recordId).isSome) := by
    apply List.find?_congr
    intro r hr
    simp [List.lookup_append, hbefore r hr]
  have hrec : (rec :: rest).find?
      (fun r => ((payloads ++ [(rec.recordId, payload)]).lookup r.recordId).isSome) = some rec :=
    List.find?_cons_of_pos (by simp [List.lookup_append])
  rw [firstSent, firstSent, List.find?_append, List.find?_append, hsame, hnone, Option.or_none,
    hrec]

/-- `finish_batch` after a batch that sent something: unconfirmed, nothing of it counts. -/
def confirmBatch (dest : SiemDestination) (last : Nat) (records : List SiemRecord) (b : Batch) :
    Dispatch Batch :=
  if b.sent = 0 then pure b
  else do
    let finish ← finishBatch dest
    match finish, firstSent records b.payloads with
    | .confirmed, _ => pure b
    | .unconfirmed e, some first =>
        pure { b with
          failure := some (first, "delivery_unconfirmed: " ++ e)
          consumed := ((records.filter fun r => decide (r.recordId < first.recordId)).map
            SiemRecord.recordId).foldl max last
          sent := 0 }
    | _, _ => Program.stop

/-- The run with the records of the batch counted as sent. -/
def Batch.counted (b : Batch) : SourceRun := { b.run with sent := b.run.sent + b.sent }

/-- The round's end, once the cursor was advanced: a full DLQ and a failure end the source's
turn, and so does a batch with nothing after it. -/
def settle (s : SiemSettings) (dest : SiemDestination) (source : Source)
    (records : List SiemRecord) (now : Int) (b : Batch) :
    Dispatch ((Nat × SourceRun) ⊕ SourceRun) :=
  if b.run.dlqFull then pure (.inr { b.counted with error := some "dlq_full" })
  else
    match b.failure with
    | some (head, error) => do
        let run ← headFailed s dest source records b.payloads head error now b.counted
        pure (.inr run)
    | none =>
        if decide (records.length < dest.batchSize) ||
            records.getLast?.any fun r => decide (b.consumed < r.recordId) then
          pure (.inr b.counted)
        else pure (.inl (b.consumed, b.counted))

/-- One batch: sent, confirmed, and the cursor moved. -/
def runBatch (s : SiemSettings) (dest : SiemDestination) (source : Source) (gen : Nat)
    (floor : Option Int) (last : Nat) (run : SourceRun) (records : List SiemRecord) :
    Dispatch ((Nat × SourceRun) ⊕ SourceRun) := do
  let generation ← flowGeneration
  if generation ≠ gen then pure (.inr { run with switched := true })
  else
    let now ← timeNow
    let b ← sendBatch s dest source floor now records ⟨last, 0, none, [], run⟩
    let b ← confirmBatch dest last records b
    let moved ← advance s (dest.id, source) b.consumed b.sent now
    if moved then settle s dest source records now b
    else pure (.inr b.run)

/-- One round of the loop of `_run_source`. -/
def round (s : SiemSettings) (dest : SiemDestination) (source : Source) (gen : Nat)
    (floor : Option Int) (last : Nat) (run : SourceRun) :
    Dispatch ((Nat × SourceRun) ⊕ SourceRun) := do
  let late ← pastDeadline
  if late then pure (.inr run)
  else
    let records ← read dest source last dest.batchSize
    if records = [] then
      if floor.isSome && decide (0 < last) then
        -- caught up with what was stored after the upgrade: the floor goes
        dropFloor (dest.id, source)
        pure (.inr run)
      else pure (.inr run)
    else runBatch s dest source gen floor last run records

/-- A new cursor: what is stored now is history. -/
def startSource (s : SiemSettings) (dest : SiemDestination) (source : Source) :
    Dispatch SourceRun := do
  let newest ← newestId source
  startCursor s (dest.id, source) newest
  pure { SourceRun.empty with started := true }

/-- `_run_source` -/
def runSource (s : SiemSettings) (dest : SiemDestination) (source : Source) (gen : Nat) :
    Dispatch SourceRun := do
  let cur ← getCursor (dest.id, source)
  match cur with
  | none => startSource s dest source
  | some c =>
      if c.isOf s.pceUrl s.orgId then
        Program.loop (fun b => round s dest source gen c.floorTime b.1 b.2)
          (c.lastId, SourceRun.empty)
      else startSource s dest source

/-! ## A run -/

/-- The sources of a destination in turn, until it fails or the PCE was switched. -/
def runSources (s : SiemSettings) (dest : SiemDestination) (gen : Nat) :
    List Source → Dispatch (List (Source × SourceRun))
  | [] => pure []
  | source :: rest => do
      let r ← runSource s dest source gen
      if r.unreachable || r.switched then pure [(source, r)]
      else
        let others ← runSources s dest gen rest
        pure ((source, r) :: others)

/-- The note on each source of a destination that cannot be set up. -/
def noteSetup (dest : SiemDestination) (error : String) : List Source → Dispatch Unit
  | [] => pure ()
  | source :: rest => do
      step fun w a => (w.noteError (dest.id, source) ("setup: " ++ error) a.now, ())
      noteSetup dest error rest

/-- `_run_destination` -/
def runDestination (s : SiemSettings) (dest : SiemDestination) (gen : Nat) :
    Dispatch (List (Source × SourceRun)) := do
  let setup ← openTransport
  match setup with
  | some e =>
      noteSetup dest e dest.cursorSources
      pure (dest.cursorSources.map fun source =>
        (source, { SourceRun.empty with error := some ("setup: " ++ e), unreachable := true }))
  | none => runSources s dest gen dest.cursorSources

/-- The destinations in turn. -/
def runDestinations (s : SiemSettings) (gen : Nat) :
    List SiemDestination → Dispatch (List (String × List (Source × SourceRun)))
  | [] => pure []
  | dest :: rest => do
      let r ← runDestination s dest gen
      let others ← runDestinations s gen rest
      pure ((dest.name, r) :: others)

/-- `run_siem`: one tick. -/
def runSiem (s : SiemSettings) : Dispatch (List (String × List (Source × SourceRun))) :=
  if !s.enabled then pure []
  else do
    let gen ← flowGeneration
    runDestinations s gen (s.destinations.filter SiemDestination.enabled)

/-- One tick after the other: the settings each one reads and what answers it; a tick whose
answers end is a crash. The result is the list of the states gone through. -/
def siemRuns (ticks : List (SiemSettings × List Answer)) (w : State) : List State :=
  Program.runs (ticks.map fun t => (runSiem t.1, t.2)) w

end IllumioOps.Siem
