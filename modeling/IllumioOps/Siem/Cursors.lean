import Mathlib.Data.List.Basic
import Mathlib.Logic.Function.Basic

/-!
# Where each destination got to in each source

The state behind the SIEM forwarding: the records of the four sources, the cursor of each
destination in each source (`siem_cursor`) and the dead-letter queue (`siem_dlq`), with the
operations of `store.siem` on them. A history goes along that no operation reads: where each
cursor started, which sends a destination accepted, and what was passed to its transport.
-/

set_option autoImplicit false

namespace IllumioOps.Siem

/-! ## Sources and records -/

/-- The record sources a cursor reads. -/
inductive Source where
  | audit
  | alerts
  | detections
  | newConnections
  deriving DecidableEq, Repr

/-- What a destination receives. -/
inductive SiemSource where
  | audit
  | findings
  | newConnections
  deriving DecidableEq, Repr

/-- `CURSOR_SOURCES` -/
def SiemSource.cursorSources : SiemSource → List Source
  | .audit => [.audit]
  | .findings => [.alerts, .detections]
  | .newConnections => [.newConnections]

/-- `FLOW_SOURCES`: their ids live in the flow store a PCE switch recreates. -/
def Source.inFlowStore : Source → Bool
  | .alerts => false
  | _ => true

/-- The kinds of forwarded lines. -/
inductive RecordKind where
  | audit
  | detection
  | alert
  | newConnection
  deriving DecidableEq, Repr

/-- The kind as a line names it. -/
def RecordKind.text : RecordKind → String
  | .audit => "audit"
  | .detection => "detection"
  | .alert => "alert"
  | .newConnection => "new_connection"

/-- One record to forward; `content` stands for what only the formatter reads. -/
structure SiemRecord where
  kind : RecordKind
  recordId : Nat
  time : Int
  content : String
  deriving DecidableEq, Repr

/-- `external_id` -/
def SiemRecord.externalId (r : SiemRecord) : String := s!"{r.kind.text}:{r.recordId}"

/-- The table of one source: its ids increase from row to row, and none is above the last id
given out (that row may be gone by now). -/
structure SourceTable where
  rows : List SiemRecord
  lastGiven : Nat
  ordered : rows.Pairwise fun a b => a.recordId < b.recordId
  bounded : ∀ r ∈ rows, r.recordId ≤ lastGiven

namespace SourceTable

def empty : SourceTable := ⟨[], 0, List.Pairwise.nil, fun _ h => absurd h List.not_mem_nil⟩

/-- `COALESCE(MAX(id), 0)` -/
def newest (t : SourceTable) : Nat := t.rows.foldr (fun r m => max r.recordId m) 0

theorem newest_le (t : SourceTable) : t.newest ≤ t.lastGiven := by
  obtain ⟨rows, lastGiven, ordered, bounded⟩ := t
  change rows.foldr (fun r m => max r.recordId m) 0 ≤ lastGiven
  clear ordered
  induction rows with
  | nil => exact Nat.zero_le _
  | cons q rows ih =>
      exact Nat.max_le.2 ⟨bounded q List.mem_cons_self,
        ih fun r hr => bounded r (List.mem_cons_of_mem q hr)⟩

/-- An insert: the id of a new row is above every id given out before. -/
def insert (t : SourceTable) (r : SiemRecord) : SourceTable :=
  if h : t.lastGiven < r.recordId then
    { rows := t.rows ++ [r]
      lastGiven := r.recordId
      ordered := List.pairwise_append.2 ⟨t.ordered, List.pairwise_singleton _ _,
        fun q hq _ hp => List.mem_singleton.1 hp ▸ Nat.lt_of_le_of_lt (t.bounded q hq) h⟩
      bounded := fun q hq => (List.mem_append.1 hq).elim
        (fun hq => Nat.le_of_lt (Nat.lt_of_le_of_lt (t.bounded q hq) h))
        fun hq => Nat.le_of_eq (congrArg SiemRecord.recordId (List.mem_singleton.1 hq)) }
  else t

/-- The rows after an id that a reader takes, oldest first, at most `limit`. -/
def after (t : SourceTable) (takes : SiemRecord → Bool) (id limit : Nat) : List SiemRecord :=
  (t.rows.filter fun r => decide (id < r.recordId) && takes r).take limit

end SourceTable

/-! ## Destinations -/

/-- How a destination's lines are made: a line, or the error of a record that has none; and the
text that stands for such a record in the dead-letter queue. -/
structure Formatter where
  formatRecord : SiemRecord → Except String String
  repr : SiemRecord → String

/-- A destination as the settings describe it. `takes` is what it takes of a source's table
(live events, alerts that notify, its decisions of the new-connection log); `sentAs` is the
text its lines are marked with. -/
structure SiemDestination where
  id : String
  name : String
  enabled : Bool
  sources : List SiemSource
  batchSize : Nat
  maxRetries : Nat
  sentAs : String
  takes : Source → SiemRecord → Bool
  formatter : Formatter

/-- `cursor_sources` -/
def SiemDestination.cursorSources (d : SiemDestination) : List Source :=
  d.sources.flatMap SiemSource.cursorSources

/-- The settings of one run: the PCE and the forwarding. -/
structure SiemSettings where
  pceUrl : String
  orgId : String
  enabled : Bool
  destinations : List SiemDestination
  dlqMaxPerDest : Nat

/-- A destination and one of its sources. -/
abbrev Key := String × Source

/-- A row of `siem_cursor`. -/
structure Cursor where
  pceUrl : String
  orgId : String
  lastId : Nat
  headId : Option Nat
  headAttempts : Nat
  sent : Nat
  lastSentAt : Option Int
  lastError : Option String
  lastErrorAt : Option Int
  floorTime : Option Int
  deriving DecidableEq, Repr

/-- The cursor belongs to the PCE. -/
def Cursor.isOf (c : Cursor) (pceUrl orgId : String) : Bool :=
  decide (c.pceUrl = pceUrl) && decide (c.orgId = orgId)

/-- A row of `siem_dlq`. -/
structure DeadLetter where
  destinationId : String
  source : Source
  recordId : Nat
  externalId : String
  eventTime : Int
  payload : String
  sentAs : String
  error : String
  attempts : Nat
  quarantinedAt : Int
  deriving DecidableEq, Repr

/-! ## The history -/

/-- A record for a destination's source. -/
abbrev Sent := Key × SiemRecord

/-- What happens between the dispatcher and the destinations. A send and a `finish_batch` name
what was sent since the last `finish_batch`; a send says whether it was a probe and which floor
its cursor had. -/
inductive Event where
  | sent (record : Sent) (probe : Bool) (floor : Option Int) (since : List Sent) (taken : Bool)
  | finished (destination : String) (since : List Sent) (confirmed : Bool)
  | quarantined (record : Sent)
  | held (record : Sent)
  deriving DecidableEq, Repr

/-- Where each cursor started and with which floor, the sends since the last `finish_batch`,
the sends a `finish_batch` confirmed, the records held by a full dead-letter queue and not
tried since, and what happened in order. -/
structure History where
  starts : Key → Nat × Option Int
  pending : List Sent
  accepted : List Sent
  holding : List Sent
  log : List Event

/-! ## The state and its operations -/

/-- The state of the product the dispatcher works on. -/
structure State where
  generation : Nat
  stored : Source → SourceTable
  cursors : Key → Option Cursor
  dlq : List DeadLetter
  history : History

/-- `error[:2000]`, `repr(rec)[:4000]` -/
def clip (n : Nat) (text : String) : String := String.ofList (text.toList.take n)

namespace State

/-- One cursor is written. -/
def setCursor (w : State) (key : Key) (c : Cursor) : State :=
  { w with cursors := Function.update w.cursors key (some c) }

@[simp] theorem cursors_setCursor_self (w : State) (key : Key) (c : Cursor) :
    (w.setCursor key c).cursors key = some c := Function.update_self _ _ _

theorem cursors_setCursor_of_ne {w : State} {key key' : Key} (h : key' ≠ key) (c : Cursor) :
    (w.setCursor key c).cursors key' = w.cursors key' := Function.update_of_ne h _ _

/-- An update of one cursor, when there is one. -/
def updateCursor (w : State) (key : Key) (f : Cursor → Cursor) : State :=
  match w.cursors key with
  | none => w
  | some c => w.setCursor key (f c)

/-- What `start_cursor` writes: a new cursor, or, over one that is there, the PCE and the
place. -/
def started (pceUrl orgId : String) (lastId : Nat) : Option Cursor → Cursor
  | none => ⟨pceUrl, orgId, lastId, none, 0, 0, none, none, none, none⟩
  | some c =>
      { c with pceUrl := pceUrl, orgId := orgId, lastId := lastId, headId := none,
               headAttempts := 0 }

@[simp] theorem started_lastId (pceUrl orgId : String) (lastId : Nat) (c : Option Cursor) :
    (started pceUrl orgId lastId c).lastId = lastId := by
  cases c <;> rfl

/-- `start_cursor`: a new cursor, or one of another PCE, at `lastId`. -/
def startCursor (w : State) (key : Key) (pceUrl orgId : String) (lastId : Nat) : State :=
  let c := started pceUrl orgId lastId (w.cursors key)
  { w.setCursor key c with
    history := { w.history with
      starts := Function.update w.history.starts key (lastId, c.floorTime) } }

/-- `set_floor` without a floor: it goes. -/
def dropFloor (w : State) (key : Key) : State :=
  w.updateCursor key fun c => { c with floorTime := none }

/-- What `advance` writes: the cursor never goes back, and the failing record's count is kept
until the cursor is past it. -/
def advanced (lastId sent : Nat) (now : Int) (c : Cursor) : Cursor :=
  let past := match c.headId with
    | none => true
    | some head => decide (head ≤ lastId)
  { c with
    lastId := max c.lastId lastId
    sent := c.sent + sent
    lastSentAt := if sent = 0 then c.lastSentAt else some now
    headAttempts := if past then 0 else c.headAttempts
    headId := if past then none else c.headId }

/-- `advance`: false, with nothing written, when the cursor belongs to another PCE. -/
def advance (w : State) (key : Key) (pceUrl orgId : String) (lastId sent : Nat) (now : Int) :
    State × Bool :=
  match w.cursors key with
  | none => (w, false)
  | some c =>
      if c.isOf pceUrl orgId then (w.updateCursor key (advanced lastId sent now), true)
      else (w, false)

/-- What `record_failure` writes. -/
def failed (headId : Nat) (error : String) (now : Int) (c : Cursor) : Cursor :=
  { c with
    headAttempts := if c.headId = some headId then c.headAttempts + 1 else 1
    headId := some headId
    lastError := some (clip 2000 error)
    lastErrorAt := some now }

/-- `record_failure`: how many times the record has failed now. -/
def recordFailure (w : State) (key : Key) (headId : Nat) (error : String) (now : Int) :
    State × Nat :=
  let w' := w.updateCursor key (failed headId error now)
  (w', match w'.cursors key with
    | none => 0
    | some c => c.headAttempts)

/-- `note_error` -/
def noteError (w : State) (key : Key) (error : String) (now : Int) : State :=
  w.updateCursor key fun c =>
    { c with lastError := some (clip 2000 error), lastErrorAt := some now }

/-- `dlq_count` of one destination. -/
def dlqCount (w : State) (destinationId : String) : Nat :=
  (w.dlq.filter fun d => decide (d.destinationId = destinationId)).length

/-- `quarantine`, with the record it is about. -/
def quarantine (w : State) (letter : DeadLetter) (record : Sent) : State :=
  { w with
    dlq := w.dlq ++ [letter]
    history := { w.history with
      holding := w.history.holding.filter fun q => decide (q ≠ record)
      log := w.history.log ++ [.quarantined record] } }

/-- The record is held by a full dead-letter queue. -/
def hold (w : State) (record : Sent) : State :=
  { w with
    history := { w.history with
      holding := w.history.holding ++ [record]
      log := w.history.log ++ [.held record] } }

/-- The floor of a destination's source, while one is set. -/
def floorOf (w : State) (key : Key) : Option Int := (w.cursors key).bind Cursor.floorTime

/-- The transport's answer to a send: taken, it is owed a `finish_batch`. -/
def sendRecord (w : State) (record : Sent) (probe taken : Bool) : State :=
  { w with
    history := { w.history with
      pending := if taken then w.history.pending ++ [record] else w.history.pending
      holding := w.history.holding.filter fun q => decide (q ≠ record)
      log := w.history.log ++
        [.sent record probe (w.floorOf record.1) w.history.pending taken] } }

/-- `finish_batch`: what was sent since the last one is accepted, or owed to nobody. -/
def finishBatch (w : State) (destination : String) (confirmed : Bool) : State :=
  { w with
    history := { w.history with
      pending := []
      accepted := if confirmed then w.history.accepted ++ w.history.pending
        else w.history.accepted
      log := w.history.log ++ [.finished destination w.history.pending confirmed] } }

/-- A new transport: nothing was sent on it. -/
def openTransport (w : State) : State := { w with history := { w.history with pending := [] } }

end State

/-! ## What else happens -/

/-- What the rest of the product does between two steps of the dispatcher: a record is stored;
dead letters are sent again, purged or expire; a PCE switch or a clearing of the collected data
recreates the flow store, and restarts its cursors. -/
inductive Arrival where
  | stored (source : Source) (rec : SiemRecord)
  | lettersKept (keep : DeadLetter → Bool)
  | recreated
  | restarted (pceUrl orgId : String)

/-- The arrival belongs to a life within one binding: no recreated store, no restart. -/
def Arrival.withinBinding : Arrival → Bool
  | .stored _ _ => true
  | .lettersKept _ => true
  | .recreated => false
  | .restarted _ _ => false

namespace State

/-- `restart_flow_cursors` -/
def restartFlowCursors (w : State) (pceUrl orgId : String) : State :=
  { w with
    cursors := fun key =>
      if key.2.inFlowStore then
        (w.cursors key).map fun c =>
          { c with lastId := 0, pceUrl := pceUrl, orgId := orgId, headId := none,
                   headAttempts := 0 }
      else w.cursors key }

/-- `FlowDb.reset`, as the forwarding sees it. -/
def recreate (w : State) : State :=
  { w with
    generation := w.generation + 1
    stored := fun source => if source.inFlowStore then SourceTable.empty else w.stored source }

/-- One arrival. -/
def arrive (w : State) : Arrival → State
  | .stored source rec =>
      { w with stored := Function.update w.stored source ((w.stored source).insert rec) }
  | .lettersKept keep => { w with dlq := w.dlq.filter keep }
  | .recreated => w.recreate
  | .restarted pceUrl orgId => w.restartFlowCursors pceUrl orgId

/-- The arrivals before a step, in order. -/
def arriveAll (w : State) (arrivals : List Arrival) : State := arrivals.foldl arrive w

end State

end IllumioOps.Siem
