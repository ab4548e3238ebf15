import IllumioOps.Programs.Interrupted
import IllumioOps.Programs.Logs
import IllumioOps.Siem.Formats
import IllumioOps.Tables.Numbered

/-!
# Writes to the PCE, one host at a time

What `services.fleet_write` and `services.quarantine` have in common. An apply goes through its
targets: it reads each workload, checks it, puts a row on record, writes and gives the row the
target's result. It is a program that can be stopped at any step; a step is one call of the PCE, one
read of what is configured or one transaction of the application database. Before any of them the
configured PCE may be another one, and other applies may write their own rows.
-/

set_option autoImplicit false

namespace IllumioOps.PceWrites

open Programs SiemText Tables

/-! ## Data -/

/-- `Ident`: the address and organisation configured, and the generation of the flow store. -/
structure Ident where
  url : String
  orgId : String
  generation : Nat
  deriving DecidableEq, Repr

/-- How the PCE answers: not at all (`PCE_TRANSPORT`, with its text), or with a status, the text of
the first bytes of the body, and the body as JSON where it can be read so. -/
inductive Reply where
  | lost (error : String)
  | answered (status : Nat) (text : String) (json : Option Json)

/-- What ends an apply by an exception: no write key, a body that is not JSON, a value that cannot
be looked up in a dict, a call that is not answered and not caught. -/
inductive Raised where
  | noWriteKey
  | notJson
  | unhashable
  | noAnswer (error : String)
  deriving DecidableEq, Repr

inductive Reason where
  | unmanaged
  | notInInventory
  | sameMode
  | notForward
  | modeChanged
  deriving DecidableEq, Repr

def Reason.text : Reason → String
  | .unmanaged => "unmanaged"
  | .notInInventory => "not_in_inventory"
  | .sameMode => "same_mode"
  | .notForward => "not_forward"
  | .modeChanged => "mode_changed"

/-- `unknown`: the write's answer never came. -/
inductive Status where
  | ok
  | failed
  | skipped
  | notQuarantined
  | unknown
  deriving DecidableEq, Repr

/-- The result column of a row. -/
inductive RowResult where
  | pending
  | refused
  | ended (status : Status)
  deriving DecidableEq, Repr

/-- A host of an apply, and why it cannot be written when it is not `ok`. -/
structure Target where
  key : String
  name : Option String
  ok : Bool
  reason : Option Reason
  deriving DecidableEq, Repr

/-- What an apply answers for a target. -/
structure Result where
  key : String
  name : Option String
  status : Status
  detail : Option String
  previous : Option String
  deriving DecidableEq, Repr

/-- A row of `fleet_actions` or `quarantine_actions`: the columns that differ within a batch.
`original`: the labels read, for a quarantine. -/
structure ActionRow where
  workloadHref : String
  hostname : Option String
  previous : Option String
  original : List Json
  result : RowResult
  detail : Option String

/-- What an apply reads, asks, writes and records, in order. -/
inductive Event where
  | identRead (ident : Ident)
  | got (key : String) (reply : Reply)
  | created (reply : Reply)
  | put (key : String) (body : Json) (reply : Reply)
  | inventoried (key mode : String)
  | recorded (id : Nat) (row : ActionRow)
  | finished (id : Nat) (status : Status)

/-- The number of a row that was put on record. -/
def Event.recordedId : Event → Option Nat
  | .recorded id _ => some id
  | _ => none

/-! ## Steps -/

/-- The table of the rows, and what the apply did. -/
structure State where
  actions : Numbered ActionRow
  events : List Event

/-- What another apply does to the table. -/
inductive OtherWrite where
  | added (row : ActionRow)
  | finished (id : Nat) (result : RowResult) (detail previous : Option String)

/-- What comes with a step: what other applies wrote before it, what is configured, and how the PCE
answers. -/
structure Answer where
  others : List OtherWrite
  ident : Ident
  reply : Reply

abbrev Step (α : Type) : Type := Program State Answer α

/-- `finish`, as it changes its row. -/
def ActionRow.finish (result : RowResult) (detail previous : Option String) (row : ActionRow) :
    ActionRow :=
  { row with result := result, detail := detail, previous := previous.or row.previous }

namespace State

/-- The numbers of the rows this apply put on record. -/
def recordedIds (s : State) : List Nat := s.events.filterMap Event.recordedId

def log (s : State) (e : Event) : State := { s with events := s.events ++ [e] }

/-- `add`, with the number the row gets. -/
def record (s : State) (row : ActionRow) : State where
  actions := s.actions.add row
  events := s.events ++ [.recorded s.actions.nextId row]

/-- `finish` -/
def finish (s : State) (id : Nat) (status : Status) (detail previous : Option String) : State where
  actions := s.actions.modify id (ActionRow.finish (.ended status) detail previous)
  events := s.events ++ [.finished id status]

/-- Another apply finishes the rows it added itself. -/
def outside (s : State) : OtherWrite → State
  | .added row => { s with actions := s.actions.add row }
  | .finished id result detail previous =>
      if id ∈ s.recordedIds then s
      else { s with actions := s.actions.modify id (ActionRow.finish result detail previous) }

end State

/-- One step: what others did, and then its own effect. -/
def step {α : Type} (f : State → Answer → State × α) : Step α :=
  Program.act fun s a => f (a.others.foldl State.outside s) a

/-- `_ident` -/
def readIdent : Step Ident := step fun s a => (s.log (.identRead a.ident), a.ident)

/-- `ctx.flows().generation` -/
def readGeneration : Step Nat := step fun s a => (s, a.ident.generation)

def get (key : String) : Step Reply := step fun s a => (s.log (.got key a.reply), a.reply)

def put (key : String) (body : Json) : Step Reply :=
  step fun s a => (s.log (.put key body a.reply), a.reply)

def record (row : ActionRow) : Step Nat := step fun s _ => (s.record row, s.actions.nextId)

def finish (id : Nat) (status : Status) (detail previous : Option String) : Step Unit :=
  step fun s _ => (s.finish id status detail previous, ())

/-- `done`: the target's result, on a row of its own or on the pending one. `update` is the previous
value that the pending row gets, where it gets one. -/
def done (t : Target) (status : Status) (detail previous : Option String) (original : List Json)
    (update : Option String) (row : Option Nat) : Step Result := do
  match row with
  | none =>
      let _ ← record ⟨t.key, t.name, previous, original, .ended status, detail⟩
      pure ⟨t.key, t.name, status, detail, previous⟩
  | some id =>
      finish id status detail update
      pure ⟨t.key, t.name, status, detail, previous⟩

/-- The loop over the targets: a result for each, unless an exception ends it. -/
def forEach {τ : Type} (handle : τ → Step (Except Raised Result)) :
    List τ → Step (Except Raised (List Result))
  | [] => pure (.ok [])
  | t :: rest => do
      match ← handle t with
      | .error e => pure (.error e)
      | .ok result =>
          match ← forEach handle rest with
          | .error e => pure (.error e)
          | .ok results => pure (.ok (result :: results))

/-- Why nothing more is written: these hrefs are another PCE's. -/
def pceChanged : String := "pce_changed"

/-- A result that nothing raised. -/
def returning (result : Step Result) : Step (Except Raised Result) := do
  let r ← result
  pure (.ok r)

/-! ## Answers -/

/-- `_detail` -/
def detailOf (py : Python) (status : Nat) (text : String) : String :=
  strip py ("HTTP " ++ toString status ++ " " ++ text)

/-- `got.json() if got.status == 200 else None`, with the status it stands for. -/
def jsonOf (expected status : Nat) (json : Option Json) : Except Raised Json :=
  if status = expected then
    match json with
    | some body => .ok body
    | none => .error .notJson
  else .ok .null

@[simp] theorem jsonOf_none (status : Nat) : jsonOf status status none = .error .notJson :=
  if_pos rfl

@[simp] theorem jsonOf_some (status : Nat) (body : Json) :
    jsonOf status status (some body) = .ok body := if_pos rfl

theorem jsonOf_of_ne {expected status : Nat} (h : status ≠ expected) (json : Option Json) :
    jsonOf expected status json = .ok .null := if_neg h

/-- A write was done. -/
def accepted (status : Nat) : Bool := status = 200 ∨ status = 204

/-- `str(value) if value is not None else None` -/
def textOf? (py : Python) : Json → Option String
  | .null => none
  | j => some (strOf py j)

/-- A value that `is False`. -/
def isFalse : Json → Bool
  | .bool false => true
  | _ => false

/-- A value that is this text. -/
def isText (s : String) : Json → Bool
  | .str t => t == s
  | _ => false

theorem isText_iff {s : String} {j : Json} : isText s j = true ↔ j = .str s := by
  cases j <;> simp [isText]

end IllumioOps.PceWrites
