import IllumioOps.Programs.Interrupted
import IllumioOps.Rules.Policy

/-!
# Rule schedules

The schedules of `services.rule_schedules`, their checks and their changes, as programs that can
be stopped at any step. A step is one call of the PCE or one transaction of the application
database; others may change the policy, the schedules and the settings before any of them.
-/

set_option autoImplicit false

namespace IllumioOps.RuleSchedules

open Programs

/-! ## Plans and their notes -/

/-- What a target should be. -/
inductive Want where
  | enabled
  | disabled
  | expired
  deriving DecidableEq, Repr

/-- A weekly window, with the moments inside it, or an expiry; and the note it leaves in the
description of its target. -/
inductive Plan where
  | weekly (inWindow : Int → Bool) (enableInWindow : Bool) (note : String)
  | expiry (expireAt : Int) (note : String)

def Plan.note : Plan → String
  | .weekly _ _ note => note
  | .expiry _ note => note

def desired (plan : Plan) (now : Int) : Want :=
  match plan with
  | .expiry expireAt _ => if expireAt ≤ now then .expired else .enabled
  | .weekly inWindow enableInWindow _ =>
      if inWindow now = enableInWindow then .enabled else .disabled

/-- White space, as a text's `strip` and a pattern's `\s` take it. -/
def isSpace (c : Char) : Bool :=
  let n := c.toNat
  decide (9 ≤ n ∧ n ≤ 13) || decide (28 ≤ n ∧ n ≤ 32) || decide (n = 0x85) ||
    decide (n = 0xA0) || decide (n = 0x1680) || decide (0x2000 ≤ n ∧ n ≤ 0x200A) ||
    decide (n = 0x2028) || decide (n = 0x2029) || decide (n = 0x202F) || decide (n = 0x205F) ||
    decide (n = 0x3000)

/-- The text after a note at its start: a bracket, one of the three icons, up to the closing
bracket. -/
def afterNote : List Char → Option (List Char)
  | '[' :: icon :: rest =>
      if icon ∈ ['📅', '⏳', '⏰'] then
        match rest.dropWhile fun c => decide (c ≠ ']') with
        | [] => none
        | _ :: more => some more
      else none
  | _ => none

/-- The notes, each with the white space before it, are taken out; every round is done with at
least one character. -/
def withoutNotes : Nat → List Char → List Char
  | 0, text => text
  | n + 1, text =>
      match afterNote (text.dropWhile isSpace), text with
      | some rest, _ => withoutNotes n rest
      | none, [] => []
      | none, c :: rest => c :: withoutNotes n rest

/-- `strip` -/
def strip (text : List Char) : List Char :=
  ((text.dropWhile isSpace).reverse.dropWhile isSpace).reverse

/-- `strip_notes` -/
def stripNotes (description : String) : String :=
  String.ofList (strip (withoutNotes description.toList.length description.toList))

/-- `with_note` -/
def withNote (description : String) (plan : Plan) : String :=
  let kept := stripNotes description
  if kept = "" then plan.note else kept ++ "\n" ++ plan.note

example : stripNotes "keep  [⏰ Expires: 2026-01-01 00:00]" = "keep" := by decide +kernel

/-! ## Rows -/

inductive PceStatus where
  | active
  | deleted
  | unknown
  deriving DecidableEq, Repr

inductive Live where
  | enabled
  | disabled
  | unknown
  deriving DecidableEq, Repr

def Live.of (enabled : Bool) : Live := if enabled then .enabled else .disabled

inductive Action where
  | enable
  | disable
  | expire
  | skipDraft
  | notFound
  | error
  | note
  | noteCleared
  deriving DecidableEq, Repr

inductive RunResult where
  | ok
  | failed
  | skipped
  deriving DecidableEq, Repr

/-- A row of `rule_schedules`. -/
structure Schedule where
  id : Nat
  pceUrl : String
  orgId : String
  target : Target
  name : String
  plan : Plan
  paused : Bool
  pceStatus : PceStatus
  live : Live
  lastCheckedAt : Option Int
  updatedAt : Int

/-- A row of `rule_schedule_runs`. -/
structure Run where
  pceUrl : String
  orgId : String
  scheduleId : Option Nat
  target : Target
  name : String
  at_ : Int
  action : Action
  result : RunResult
  status : Option Nat
  detail : Option String
  deriving DecidableEq, Repr

/-! ## The state -/

/-- What others change as well: the policy, the rows, and the settings. -/
structure World where
  policy : Policy
  schedules : List Schedule
  runs : List Run
  pceUrl : String
  orgId : String
  writeKey : Bool

/-- What one operation did, in order. -/
inductive Event where
  | call (c : Call)
  | ran (r : Run)
  | dropped (scheduleId : Nat)
  deriving DecidableEq, Repr

/-- The check of a schedule, with the row it read. -/
structure CheckLog where
  schedule : Schedule
  events : List Event

/-- The world, the checks that came before, the one that goes on, and everything that was done,
in a check or not. -/
structure State where
  world : World
  past : List CheckLog
  current : Option CheckLog
  journal : List Event

/-- What comes with a step: what others did before it, how the PCE answers, the objects its
dependency read names. -/
structure Answer where
  others : World → World
  reply : Reply
  needs : List String

abbrev Step (α : Type) : Type := Program State Answer α

/-- One step: what others did, and then its own effect. -/
def step {α : Type} (f : State → Answer → State × α) : Step α :=
  Program.act fun w a => f { w with world := a.others w.world } a

namespace State

/-- An event is put on record, for the check that goes on as well. -/
def record (w : State) (e : Event) : State :=
  { w with
    current := w.current.map fun c => { c with events := c.events ++ [e] }
    journal := w.journal ++ [e] }

/-- The check of a schedule begins. -/
def begin (w : State) (row : Schedule) : State :=
  { w with past := w.past ++ w.current.toList, current := some ⟨row, []⟩ }

def setPolicy (w : State) (policy : Policy) : State :=
  { w with world := { w.world with policy := policy } }

end State

/-! ## The calls of the PCE -/

def detailMax : Nat := 300

/-- `_detail` -/
def Response.detail (r : Response) : String := String.ofList (r.body.toList.take detailMax)

/-- A read: an answer of 200 shows the object, when there is one. -/
def readItem (look : Policy → Target → Option Item) (seen : Bool → Call) (t : Target) :
    Step (Except Failure Response) :=
  step fun w a =>
    match a.reply with
    | .lost kind error _ => (w, .error (.noAnswer kind error))
    | .answered status body =>
        if status = 200 then
          match look w.world.policy t with
          | none => (w, .ok ⟨404, body, none⟩)
          | some item => (w.record (.call (seen item.enabled)), .ok ⟨200, body, some item⟩)
        else (w, .ok ⟨status, body, none⟩)

def getDraft (t : Target) : Step (Except Failure Response) := readItem Policy.draft .readDraft t

def getActive (t : Target) : Step (Except Failure Response) :=
  readItem Policy.active .readActive t

/-- One read of `draft_pending`; `last` says that it decides when nothing is pending. -/
def readPending (t : Target) (last : Bool) : Step (Except Failure Bool) :=
  step fun w a =>
    match a.reply with
    | .lost kind error _ => (w, .error (.noAnswer kind error))
    | .answered status _ =>
        if status = 200 ∧ (w.world.policy.draft t).isSome then
          let pending := w.world.policy.pendingAt t
          (if pending || last then w.record (.call (.readPending pending)) else w, .ok pending)
        else
          (w, .error (.policyRead (if status = 200 then 404 else status)))

/-- `draft_pending`: the target, and then the rule set it is in. -/
def draftPending (t : Target) : Step (Except Failure Bool) :=
  if t.isRuleset then readPending t true
  else do
    let own ← readPending t false
    match own with
    | .ok false => readPending t.rulesetOf true
    | .ok true => pure (.ok true)
    | .error f => pure (.error f)

/-- A write call: its effect, the status that means it was done, and how it is recorded. -/
def send (effect : Policy → Policy) (done : Nat) (sent : Option Nat → Bool → Call) :
    Step (Except Failure Response) :=
  step fun w a =>
    match a.reply with
    | .lost kind error applied =>
        ((if applied then w.setPolicy (effect w.world.policy) else w).record
          (.call (sent none applied)), .error (.noAnswer kind error))
    | .answered status body =>
        ((if status = done then w.setPolicy (effect w.world.policy) else w).record
          (.call (sent (some status) (decide (status = done)))), .ok ⟨status, body, none⟩)

/-- `set_fields`: 204 when done. -/
def setFields (t : Target) (fields : Fields) : Step (Except Failure Response) :=
  send (fun p => p.write t fields) 204 (.wrote t fields)

/-- `revert`: 204 when done. -/
def revert (ruleset : Target) : Step (Except Failure Response) :=
  send (fun p => p.revert ruleset) 204 (.reverted [ruleset])

/-- The dependency read of `provision`, with the hrefs it names besides the rule set. -/
def dependencies (ruleset : Target) : Step (Except Failure (Response × List String)) :=
  step fun w a =>
    match a.reply with
    | .lost kind error _ =>
        (w.record (.call (.dependencies ruleset none [])), .error (.noAnswer kind error))
    | .answered status body =>
        let others := if status = 200 then a.needs.filter fun h => decide (h ≠ ruleset.draftHref)
          else []
        (w.record (.call (.dependencies ruleset (some status) others)),
          .ok (⟨status, body, none⟩, others))

/-- The change itself: the rule set alone; 201 when done. -/
def commitChange (ruleset : Target) : Step (Except Failure Response) :=
  send (fun p => p.provision ruleset) 201 (.provisioned [ruleset])

/-- How `provision` ends: with an answer, with the objects that would have to go live too
(`DependenciesPending`), or without an answer. -/
inductive Provisioned where
  | answered (r : Response)
  | dependencies (hrefs : List String)
  | failed (f : Failure)
  deriving DecidableEq, Repr

/-- `provision` -/
def provision (ruleset : Target) : Step Provisioned := do
  let deps ← dependencies ruleset
  match deps with
  | .error f => pure (.failed f)
  | .ok (r, others) =>
      if r.status ≠ 200 then pure (.answered r)
      else if others ≠ [] then pure (.dependencies others)
      else do
        let committed ← commitChange ruleset
        match committed with
        | .error f => pure (.failed f)
        | .ok r => pure (.answered r)

/-! ## Switching a target -/

/-- How `_switch` ends: done, with the answer that refused it, or with one of its exceptions. -/
inductive Switched where
  | done
  | refused (r : Response)
  | dependencies (hrefs : List String)
  | undoFailed (hrefs : List String) (answer : Response)
  | failed (f : Failure)
  deriving DecidableEq, Repr

/-- The put-back of `_switch`: the draft of the rule set is discarded. -/
def putBack (t : Target) (hrefs : List String) (outcome : Switched) : Step Switched := do
  let back ← revert t.rulesetOf
  match back with
  | .error f => pure (.failed f)
  | .ok r => if r.status ≠ 204 then pure (.undoFailed hrefs r) else pure outcome

/-- `_switch` -/
def switch (t : Target) (enabled before : Bool) : Step Switched :=
  if before = enabled then pure .done
  else do
    let written ← setFields t (.enabled enabled)
    match written with
    | .error f => pure (.failed f)
    | .ok r =>
        if r.status ≠ 204 then pure (.refused r)
        else do
          let p ← provision t.rulesetOf
          match p with
          | .dependencies hrefs => putBack t hrefs (.dependencies hrefs)
          | .failed f => putBack t [] (.failed f)
          | .answered p =>
              if p.status = 201 then pure .done
              -- not provisioned: later checks would take the change for someone's draft
              else putBack t [] (.refused p)

/-- `_clear_note`: the refusing answer, if there was one. -/
def clearNote (t : Target) (draft : Response) : Step (Except Failure (Option Response)) :=
  let description := (draft.item.map Item.description).getD ""
  let clean := stripNotes description
  if clean = description then pure (.ok none)
  else do
    let written ← setFields t (.description clean)
    match written with
    | .error f => pure (.error f)
    | .ok r =>
        if r.status ≠ 204 then pure (.ok (some r))
        else do
          let p ← provision t.rulesetOf
          match p with
          -- cleared in the draft; provisioning it would take others' changes live
          | .dependencies _ => pure (.ok none)
          | .failed f => pure (.error f)
          | .answered p => pure (.ok (if p.status = 201 then none else some p))

/-! ## A check -/

/-- One transaction of the application database. -/
def write (f : State → State) : Step Unit := step fun w _ => (f w, ())

/-- The run as `add_run` stores it: its detail is cut, an empty one is none. -/
def Run.stored (r : Run) : Run :=
  { r with detail := match r.detail with
    | none => none
    | some text => if text = "" then none else some (String.ofList (text.toList.take detailMax)) }

/-- `_run` -/
def addRun (r : Run) : Step Unit :=
  write fun w => ({ w with world := { w.world with
    runs := w.world.runs ++ [r.stored] } }).record (.ran r.stored)

/-- A run of a schedule that is still there. -/
def Schedule.run (row : Schedule) (at_ : Int) (action : Action) (result : RunResult)
    (status : Option Nat) (detail : Option String) : Run :=
  ⟨row.pceUrl, row.orgId, some row.id, row.target, row.name, at_, action, result, status, detail⟩

/-- A run of a schedule that is deleted: it names the PCE written to. -/
def Schedule.lastRun (row : Schedule) (at_ : Int) (action : Action) (result : RunResult)
    (status : Option Nat) (detail : Option String) : Run :=
  { row.run at_ action result status detail with scheduleId := none }

/-- `_checked` -/
def setChecked (row : Schedule) (pceStatus : PceStatus) (live : Live) (at_ : Int) : Step Unit :=
  write fun w => { w with world := { w.world with schedules := w.world.schedules.map fun s =>
    if s.id = row.id then
      { s with pceStatus := pceStatus, live := live, lastCheckedAt := some at_ }
    else s } }

/-- The row of a schedule is deleted. -/
def dropRow (row : Schedule) : Step Unit :=
  write fun w => ({ w with world := { w.world with
    schedules := w.world.schedules.filter fun s => decide (s.id ≠ row.id) } }).record
      (.dropped row.id)

/-- `last_run`: the latest by time, and of equal times the one stored last. -/
def latestRun (runs : List Run) (scheduleId : Nat) : Option Run :=
  (runs.filter fun r => decide (r.scheduleId = some scheduleId)).foldl
    (fun best r => match best with
      | none => some r
      | some b => if b.at_ ≤ r.at_ then some r else some b) none

def lastRun (row : Schedule) : Step (Option Run) :=
  step fun w _ => (w, latestRun w.world.runs row.id)

/-- What a check comes to; `unchanged` is the target that is as it should be. -/
inductive Outcome where
  | switched
  | failed
  | skipped
  | unchanged
  deriving DecidableEq, Repr

/-- How `_apply` ends: with an outcome, or with one of its exceptions. -/
inductive Applied where
  | outcome (o : Outcome)
  | dependencies (hrefs : List String)
  | undoFailed (hrefs : List String) (answer : Response)
  | failed (f : Failure)
  deriving DecidableEq, Repr

/-- The end of an expiry whose target is disabled: the note goes, and then the row. -/
def endSchedule (row : Schedule) (draft : Response) (at_ : Int) : Step Applied := do
  let note ← clearNote row.target draft
  match note with
  | .error f => pure (.failed f)
  | .ok note => do
      dropRow row
      addRun (row.lastRun at_ .expire .ok none (note.map fun r =>
        "note not cleared: HTTP " ++ toString r.status ++ " " ++ r.detail))
      pure (.outcome .switched)

/-- `_apply` for an expiry that has passed. -/
def applyExpired (row : Schedule) (draft : Response) (before : Bool) (at_ : Int) :
    Step Applied := do
  let ended ← switch row.target false before
  match ended with
  | .refused r => do
      addRun (row.run at_ .expire .failed (some r.status) (some r.detail))
      pure (.outcome .failed)
  | .dependencies hrefs => pure (.dependencies hrefs)
  | .undoFailed hrefs answer => pure (.undoFailed hrefs answer)
  | .failed f => pure (.failed f)
  | .done => endSchedule row draft at_

/-- `_apply` for a target whose active version is `live` and should be `want`. -/
def applyWant (row : Schedule) (before live want : Bool) (at_ : Int) : Step Applied := do
  setChecked row .active (Live.of live) at_
  if live = want then pure (.outcome .unchanged)
  else do
    let ended ← switch row.target want before
    match ended with
    | .refused r => do
        addRun (row.run at_ (if want then .enable else .disable) .failed (some r.status)
          (some r.detail))
        pure (.outcome .failed)
    | .dependencies hrefs => pure (.dependencies hrefs)
    | .undoFailed hrefs answer => pure (.undoFailed hrefs answer)
    | .failed f => pure (.failed f)
    | .done => do
        setChecked row .active (Live.of want) at_
        addRun (row.run at_ (if want then .enable else .disable) .ok none none)
        pure (.outcome .switched)

/-- The rest of `_apply`: the active version decides. -/
def applyLive (row : Schedule) (before want : Bool) (at_ : Int) : Step Applied := do
  let active ← getActive row.target
  match active with
  | .error f => pure (.failed f)
  | .ok active =>
      if active.status = 404 then do
        setChecked row .unknown .unknown at_
        pure (.outcome .skipped)
      else
        match active.item with
        | none => do
            addRun (row.run at_ .error .failed (some active.status) (some active.detail))
            pure (.outcome .failed)
        | some item => applyWant row before item.enabled want at_

/-- `_apply` -/
def apply (row : Schedule) (draft : Response) (want : Want) (at_ : Int) : Step Applied :=
  -- no pending draft here: the draft is the active value
  let before := (draft.item.map Item.enabled).getD false
  match want with
  | .expired => applyExpired row draft before at_
  | .enabled => applyLive row before true at_
  | .disabled => applyLive row before false at_

/-- The skip for a pending draft: recorded once while it stays so. -/
def skipDraft (row : Schedule) (at_ : Int) : Step Outcome := do
  let last ← lastRun row
  if last.map Run.action = some .skipDraft then pure .skipped
  else do
    addRun (row.run at_ .skipDraft .skipped none none)
    pure .skipped

/-- A target the PCE does not have: recorded when it is new. -/
def markDeleted (row : Schedule) (at_ : Int) : Step Outcome :=
  if row.pceStatus = .deleted then do
    setChecked row .deleted .unknown at_
    pure .skipped
  else do
    addRun (row.run at_ .notFound .skipped (some 404) none)
    setChecked row .deleted .unknown at_
    pure .skipped

/-- The exceptions of `_apply` that `_check_one` records. -/
def settleApplied (row : Schedule) (at_ : Int) : Applied → Step (Except Failure Outcome)
  | .outcome o => pure (.ok o)
  | .failed f => pure (.error f)
  | .dependencies hrefs => do
      addRun (row.run at_ .skipDraft .skipped none
        (some ("needs unprovisioned objects: " ++ ", ".intercalate hrefs)))
      pure (.ok .skipped)
  | .undoFailed hrefs answer => do
      addRun (row.run at_ .error .failed (some answer.status)
        (some ("draft change remains (put back refused: " ++ answer.detail ++
          "); needs unprovisioned objects: " ++ ", ".intercalate hrefs)))
      pure (.ok .failed)

/-- `_check_one` -/
def checkOne (row : Schedule) (at_ : Int) : Step (Except Failure Outcome) := do
  let draft ← getDraft row.target
  match draft with
  | .error f => pure (.error f)
  | .ok draft =>
      if draft.status = 404 then do
        let o ← markDeleted row at_
        pure (.ok o)
      else if draft.status ≠ 200 then do
        addRun (row.run at_ .error .failed (some draft.status) (some draft.detail))
        pure (.ok .failed)
      else do
        let pending ← draftPending row.target
        match pending with
        | .error f => pure (.error f)
        | .ok true => do
            let o ← skipDraft row at_
            pure (.ok o)
        | .ok false => do
            let applied ← apply row draft (desired row.plan at_) at_
            settleApplied row at_ applied

/-- The row of a schedule is read; its check begins when it is to be checked: it is there, not
paused, and, in a tick, not changed since it was listed. -/
def readRow (id : Nat) (updatedAt : Option Int) : Step (Option Schedule) :=
  step fun w _ =>
    match w.world.schedules.find? fun s => decide (s.id = id) with
    | none => (w, none)
    | some row =>
        if row.paused || updatedAt.any fun t => decide (row.updatedAt ≠ t) then (w, none)
        else (w.begin row, some row)

/-- `_check_fresh` -/
def checkFresh (id : Nat) (at_ : Int) (updatedAt : Option Int) : Step (Option Outcome) := do
  let row ← readRow id updatedAt
  match row with
  | none => pure none
  | some row => do
      let o ← checkOne row at_
      match o with
      | .ok o => pure (some o)
      | .error f => do
          addRun (row.run at_ .error .failed f.status (some f.text))
          pure (some .failed)

/-! ## A tick -/

/-- `RUNS_KEEP`, in seconds. -/
def runsKeep : Int := 30 * 24 * 3600

/-- The settings as a tick reads them first, the runs pruned and the schedules listed. -/
def listRows (at_ : Int) : Step (Option (String × String × List (Nat × Int))) :=
  step fun w _ =>
    if w.world.writeKey then
      let rows := w.world.schedules.filter fun s =>
        decide (s.pceUrl = w.world.pceUrl) && decide (s.orgId = w.world.orgId) && !s.paused
      ({ w with world := { w.world with
          runs := w.world.runs.filter fun r => decide (at_ - runsKeep ≤ r.at_) } },
        some (w.world.pceUrl, w.world.orgId, rows.map fun s => (s.id, s.updatedAt)))
    else (w, none)

/-- The settings still name the PCE. -/
def samePce (pceUrl orgId : String) : Step Bool :=
  step fun w _ => (w, decide (w.world.pceUrl = pceUrl) && decide (w.world.orgId = orgId))

/-- The schedules of a tick in turn, until the PCE changes. -/
def tickRows (pceUrl orgId : String) (at_ : Int) : List (Nat × Int) → Step (List Outcome)
  | [] => pure []
  | (id, updatedAt) :: rest => do
      let same ← samePce pceUrl orgId
      if same then do
        let o ← checkFresh id at_ (some updatedAt)
        let others ← tickRows pceUrl orgId at_ rest
        pure (o.toList ++ others)
      else pure []

/-- `tick`: the outcomes of the schedules that were checked. -/
def tick (at_ : Int) : Step (List Outcome) := do
  let listed ← listRows at_
  match listed with
  | none => pure []
  | some (pceUrl, orgId, rows) => tickRows pceUrl orgId at_ rows

/-- `check_now`, for a schedule of the configured PCE and with a write key: its outcome, unless
the schedule is paused or gone. -/
def checkNow (id : Nat) (at_ : Int) : Step (Option Outcome) := do
  let own ← step fun w _ => (w, w.world.writeKey && w.world.schedules.any fun s =>
    decide (s.id = id) && decide (s.pceUrl = w.world.pceUrl) &&
      decide (s.orgId = w.world.orgId) && !s.paused)
  if own then checkFresh id at_ none else pure none

end IllumioOps.RuleSchedules
