import IllumioOps.Rules.Schedules

/-!
# Making, changing and deleting a schedule

A schedule leaves a note in the description of its target: `create` and `update` write it,
`delete` clears it. Each provisions the rule set alone and says what the PCE did.
-/

set_option autoImplicit false

namespace IllumioOps.RuleSchedules

open Programs

/-! ## The note -/

/-- Why an operation is refused: its exceptions. -/
inductive Refusal where
  | noWriteKey
  | alreadyScheduled
  | notProvisioned
  | draftPending
  | pceRefused (status : Option Nat) (detail : String)
  | pceSwitched
  | notFound
  deriving DecidableEq, Repr

/-- A failure of the PCE, as the operations that write a note report it. -/
def Failure.refusal (f : Failure) : Refusal := .pceRefused f.status f.text

/-- The put-back of `_write_note`. -/
def putNoteBack (t : Target) (refusal : Refusal) : Step (Except Refusal Unit) := do
  let back ← revert t.rulesetOf
  match back with
  | .error f => pure (.error f.refusal)
  | .ok r =>
      if r.status ≠ 204 then
        pure (.error (.pceRefused (some r.status) ("the note remains in the draft: " ++ r.detail)))
      else pure (.error refusal)

/-- `_write_note` -/
def writeNote (t : Target) (plan : Plan) : Step (Except Refusal Unit) := do
  let draft ← getDraft t
  match draft with
  | .error f => pure (.error f.refusal)
  | .ok draft =>
      match draft.item with
      | none => pure (.error (.pceRefused (some draft.status) draft.detail))
      | some item => do
          let written ← setFields t (.description (withNote item.description plan))
          match written with
          | .error f => pure (.error f.refusal)
          | .ok r =>
              if r.status ≠ 204 then pure (.error (.pceRefused (some r.status) r.detail))
              else do
                let p ← provision t.rulesetOf
                match p with
                | .dependencies _ => putNoteBack t .draftPending
                | .failed f => putNoteBack t f.refusal
                | .answered p =>
                    if p.status = 201 then pure (.ok ())
                    else putNoteBack t (.pceRefused (some p.status) p.detail)

/-- The note is written unless the rule set has a pending draft. -/
def writeNoteOnClear (t : Target) (plan : Plan) : Step (Except Refusal Unit) := do
  let pending ← draftPending t
  match pending with
  | .error f => pure (.error f.refusal)
  | .ok true => pure (.error .draftPending)
  | .ok false => writeNote t plan

/-! ## Creating -/

/-- The configured PCE, when it is the one the target was found on and has a write key. -/
def openFor (pce : String × String) : Step (Except Refusal Unit) :=
  step fun w _ =>
    if (w.world.pceUrl, w.world.orgId) ≠ pce then (w, .error .pceSwitched)
    else if !w.world.writeKey then (w, .error .noWriteKey)
    else (w, .ok ())

/-- The target has a schedule of the PCE. -/
def isScheduled (pce : String × String) (t : Target) (schedules : List Schedule) : Bool :=
  schedules.any fun s => decide ((s.pceUrl, s.orgId) = pce) && decide (s.target = t)

/-- A new schedule is stored; the target has one already otherwise. -/
def insertSchedule (pce : String × String) (t : Target) (name : String) (plan : Plan)
    (live : Live) (at_ : Int) : Step (Option Schedule) :=
  step fun w _ =>
    if isScheduled pce t w.world.schedules then (w, none)
    else
      let id := (w.world.schedules.map Schedule.id).foldl max 0 + 1
      let row : Schedule :=
        ⟨id, pce.1, pce.2, t, name, plan, false, .active, live, some at_, at_⟩
      ({ w with world := { w.world with schedules := w.world.schedules ++ [row] } }, some row)

/-- `create`, once its target may be scheduled. -/
def createOn (pce : String × String) (t : Target) (name : String) (plan : Plan) (at_ : Int) :
    Step (Except Refusal Schedule) := do
  let active ← getActive t
  match active with
  | .error f => pure (.error f.refusal)
  | .ok active =>
      match active.item with
      | none =>
          if active.status = 404 then pure (.error .notProvisioned)
          else pure (.error (.pceRefused (some active.status) active.detail))
      | some item => do
          let noted ← writeNoteOnClear t plan
          match noted with
          | .error refusal => pure (.error refusal)
          | .ok () => do
              let row ← insertSchedule pce t name plan (Live.of item.enabled) at_
              match row with
              | none => pure (.error .alreadyScheduled)
              | some row => do
                  addRun (row.run at_ .note .ok none none)
                  pure (.ok row)

/-- `create` -/
def create (pce : String × String) (t : Target) (name : String) (plan : Plan) (at_ : Int) :
    Step (Except Refusal Schedule) := do
  let opened ← openFor pce
  match opened with
  | .error refusal => pure (.error refusal)
  | .ok () => do
      let scheduled ← step fun w _ => (w, isScheduled pce t w.world.schedules)
      if scheduled then pure (.error .alreadyScheduled) else createOn pce t name plan at_

/-! ## Updating -/

/-- `_own`: a schedule of the configured PCE, with that PCE. -/
def own (id : Nat) : Step (Option (Schedule × String × String)) :=
  step fun w _ => (w, (w.world.schedules.find? fun s => decide (s.id = id) &&
    decide (s.pceUrl = w.world.pceUrl) && decide (s.orgId = w.world.orgId)).map fun s =>
      (s, w.world.pceUrl, w.world.orgId))

/-- The configured PCE, when it has a write key and is still the one. -/
def openOwn (pce : String × String) : Step (Except Refusal Unit) :=
  step fun w _ =>
    if !w.world.writeKey then (w, .error .noWriteKey)
    else if (w.world.pceUrl, w.world.orgId) ≠ pce then (w, .error .pceSwitched)
    else (w, .ok ())

/-- `update_plan` -/
def updatePlan (id : Nat) (plan : Plan) (at_ : Int) : Step Unit :=
  write fun w => { w with world := { w.world with schedules := w.world.schedules.map fun s =>
    if s.id = id then { s with plan := plan, updatedAt := at_ } else s } }

/-- `update` -/
def update (id : Nat) (plan : Plan) (at_ : Int) : Step (Except Refusal Unit) := do
  let row ← own id
  match row with
  | none => pure (.error .notFound)
  | some (row, pce) => do
      let opened ← openOwn pce
      match opened with
      | .error refusal => pure (.error refusal)
      | .ok () => do
          let noted ← writeNoteOnClear row.target plan
          match noted with
          | .error refusal => pure (.error refusal)
          | .ok () => do
              updatePlan id plan at_
              pure (.ok ())

/-! ## Deleting -/

structure DeleteResult where
  noteCleared : Bool
  provisioned : Bool
  status : Option Nat
  detail : Option String
  deriving DecidableEq, Repr

/-- A failure of the PCE, as `delete` reports it. -/
def Failure.deleteResult (f : Failure) : DeleteResult := ⟨false, false, f.status, some f.text⟩

/-- The cleared description is provisioned, unless other objects would have to go live too. -/
def provisionCleared (t : Target) : Step DeleteResult := do
  let p ← provision t.rulesetOf
  match p with
  | .dependencies hrefs =>
      pure ⟨true, false, none, some ("needs unprovisioned objects: " ++ ", ".intercalate hrefs)⟩
  | .failed f => pure f.deleteResult
  | .answered p =>
      if p.status = 201 then pure ⟨true, true, none, none⟩
      else pure ⟨true, false, some p.status, some p.detail⟩

/-- What `delete` does to the note of a target. -/
def clearForDelete (t : Target) : Step DeleteResult := do
  let draft ← getDraft t
  match draft with
  | .error f => pure f.deleteResult
  | .ok draft =>
      match draft.item with
      | none => pure ⟨false, false, some draft.status, some draft.detail⟩
      | some item => do
          let pending ← draftPending t
          match pending with
          | .error f => pure f.deleteResult
          | .ok pending => do
              let written ← setFields t (.description (stripNotes item.description))
              match written with
              | .error f => pure f.deleteResult
              | .ok r =>
                  if r.status ≠ 204 then pure ⟨false, false, some r.status, some r.detail⟩
                  -- someone's change waits in that draft: leave provisioning to them
                  else if pending then pure ⟨true, false, none, some "draft_pending"⟩
                  else provisionCleared t

/-- The settings still name the PCE, and have a write key: what `delete` may do to the note. -/
def deleteAllowed (pce : String × String) : Step (Except DeleteResult Unit) :=
  step fun w _ =>
    if (w.world.pceUrl, w.world.orgId) ≠ pce then
      (w, .error ⟨false, false, none, some "pce_switched"⟩)
    else if !w.world.writeKey then (w, .error ⟨false, false, none, some "no_write_key"⟩)
    else (w, .ok ())

/-- The detail of the run, without separators at its ends. -/
def deleteDetail (by_ : String) (out : DeleteResult) : String :=
  let separator (c : Char) : Bool := decide (c = ';') || decide (c = ' ')
  let text := ("by " ++ by_ ++ "; " ++ out.detail.getD "").toList
  String.ofList ((text.dropWhile separator).reverse.dropWhile separator).reverse

/-- The schedule goes either way, and the run says what the PCE did. -/
def finishDelete (row : Schedule) (by_ : String) (at_ : Int) (out : DeleteResult) :
    Step (Option DeleteResult) := do
  dropRow row
  addRun (row.lastRun at_ .noteCleared (if out.noteCleared then .ok else .failed) out.status
    (some (deleteDetail by_ out)))
  pure (some out)

/-- `delete`: what the PCE did, of a schedule that is the configured PCE's. -/
def delete (id : Nat) (by_ : String) (at_ : Int) : Step (Option DeleteResult) := do
  let row ← own id
  match row with
  | none => pure none
  | some (row, pce) => do
      let allowed ← deleteAllowed pce
      match allowed with
      | .error out => finishDelete row by_ at_ out
      | .ok () => do
          let out ← clearForDelete row.target
          finishDelete row by_ at_ out

end IllumioOps.RuleSchedules
