import IllumioOps.Programs.Attempts
import IllumioOps.Writes.Batch

/-!
# Turning Rule Hit Count on

`enable_rhc` of `services.rhc`: the report template of the PCE, then the scopes in the VENs' draft
`firewall_settings`, then the provision of `firewall_settings`, each half only where it is off. Every answer
of the PCE is an input, one for each place that asks, and so is what `switched` finds at each place that
calls it. A run keeps what was asked and answered, in order.
-/

set_option autoImplicit false

namespace IllumioOps.Rhc

open Programs Programs.Attempt PceWrites

/-- The members of a JSON object. -/
abbrev Fields : Type := List (String × Json)

/-! ## Calls -/

inductive Call where
  | getTemplate
  | getActive
  | getDraft
  | putTemplate
  | putDraft
  | provision
  deriving DecidableEq, Repr

def template : String := "/report_templates/rule_hit_count_report"
def activeFw : String := "/sec_policy/active/firewall_settings"
def draftFw : String := "/sec_policy/draft/firewall_settings"
def scopesKey : String := "rule_hit_count_enabled_scopes"

/-- `ALL_VENS`. -/
def allVens : Json := .arr [.arr []]

def Call.method : Call → String
  | .getTemplate | .getActive | .getDraft => "GET"
  | .putTemplate | .putDraft => "PUT"
  | .provision => "POST"

def Call.path : Call → String
  | .getTemplate | .putTemplate => template
  | .getActive => activeFw
  | .getDraft | .putDraft => draftFw
  | .provision => "/sec_policy"

/-- The body sent; `orgId` is the organisation configured. -/
def Call.body (orgId : String) : Call → Option Json
  | .getTemplate | .getActive | .getDraft => none
  | .putTemplate => some (.obj [("enabled", .bool true)])
  | .putDraft => some (.obj [(scopesKey, allVens)])
  | .provision => some (.obj [
      ("update_description", .str "Enable Rule Hit Count (illumio-ops)"),
      ("change_subset", .obj [("firewall_settings",
        .arr [.obj [("href", .str ("/orgs/" ++ orgId ++ draftFw))]])])])

def Call.isWrite (call : Call) : Bool := call.method != "GET"

structure Config where
  writeKey : Bool
  saas : Bool
  orgId : String

/-- A call, what was sent with it and how it was answered. -/
structure Event where
  call : Call
  sent : Option Json
  reply : Reply

/-! ## Results -/

/-- `STEPS`. -/
inductive Step where
  | template
  | draft
  | provisioned
  deriving DecidableEq, Repr

def Step.text : Step → String
  | .template => "pce_report_template"
  | .draft => "ven_firewall_settings_draft"
  | .provisioned => "provisioned"

inductive ErrorKey where
  | noWriteKey
  | unsupported
  | refusedSaas
  | refused
  | unreachable
  | pendingFirewall
  | pceChanged
  | stepFailed
  | firewallChanged
  deriving DecidableEq, Repr

def ErrorKey.text : ErrorKey → String
  | .noWriteKey => "rhc_err_no_write_key"
  | .unsupported => "rhc_err_unsupported"
  | .refusedSaas => "rhc_err_refused_saas"
  | .refused => "rhc_err_refused"
  | .unreachable => "rhc_err_unreachable"
  | .pendingFirewall => "rhc_err_pending_firewall"
  | .pceChanged => "rhc_err_pce_changed"
  | .stepFailed => "rhc_err_step_failed"
  | .firewallChanged => "rhc_err_firewall_changed"

structure Failure where
  key : ErrorKey
  detail : Option String
  deriving DecidableEq, Repr

/-- `EnableResult`. -/
structure EnableResult where
  ok : Bool
  stepsDone : List Step
  skipped : List Step
  failure : Option Failure
  deriving DecidableEq, Repr

/-! ## Asking -/

/-- What was asked and answered, and the two lists of the result. -/
structure Run where
  events : List Event
  done : List Step
  skipped : List Step

def Run.logged (run : Run) (event : Event) : Run := { run with events := run.events ++ [event] }

def Run.finished (run : Run) (step : Step) : Run := { run with done := run.done ++ [step] }

def Run.skips (run : Run) (steps : List Step) : Run := { run with skipped := run.skipped ++ steps }

abbrev Enabling : Type → Type := Attempt Run Failure

/-- `PceResponse`; `json` is the body as JSON, where it can be read so. -/
structure Response where
  status : Nat
  text : String
  json : Option Json

def fieldsOf : Option Json → Option Fields
  | some (.obj fields) => some fields
  | _ => none

def Response.fields (r : Response) : Option Fields := fieldsOf r.json

/-- `client.request`: a failure of the transport ends the run. -/
def request (cfg : Config) (call : Call) (reply : Reply) : Enabling Response := do
  change (·.logged ⟨call, call.body cfg.orgId, reply⟩)
  match reply with
  | .lost error => fail ⟨.unreachable, some error⟩
  | .answered status text json => pure ⟨status, text, json⟩

/-! ## The content of the settings -/

def scopesOn (fields : Fields) : Bool := ((Json.obj fields).get scopesKey).truthy

/-- Someone's edits wait in the draft. -/
def pending (fields : Fields) : Bool := ((Json.obj fields).get "update_type").truthy

/-- `_FW_META`: who changed it when, and our own scopes. -/
def fwMeta : List String :=
  ["href", "update_type", "updated_at", "updated_by", "created_at", "created_by", "deleted_at",
    "deleted_by", scopesKey]

def fwContent (fields : Fields) : Fields := fields.filter fun f => !fwMeta.contains f.1

/-! ## The run -/

/-- How the PCE answers, and whether the settings are found changed, at each place. -/
structure Answers where
  template : Reply
  active : Reply
  draft : Reply
  switchedTemplate : Bool
  putTemplate : Reply
  switchedDraft : Bool
  putDraft : Reply
  activeNow : Reply
  draftNow : Reply
  switchedProvision : Bool
  provision : Reply

def httpText (status : Nat) : String := "HTTP " ++ toString status

def refused (cfg : Config) : ErrorKey := if cfg.saas then .refusedSaas else .refused

def stepFailed (step : Step) (r : Response) : Failure :=
  ⟨.stepFailed, some (step.text ++ ": " ++ httpText r.status ++ " " ++ r.text)⟩

/-- A template that could not be read stands in for the settings, which are then not asked for. -/
def readActive (cfg : Config) (a : Answers) (tpl : Response) : Enabling Response :=
  if tpl.status = 200 then request cfg .getActive a.active else pure tpl

def bodies (tpl fw : Response) : Enabling (Fields × Fields) :=
  let bad := if tpl.status ≠ 200 ∨ tpl.fields = none then tpl else fw
  let failure : Failure := ⟨.unreachable,
    some (if bad.status ≠ 200 then httpText bad.status else "unexpected response")⟩
  if tpl.status ≠ 200 ∨ fw.status ≠ 200 then fail failure
  else match tpl.fields, fw.fields with
    | some tplBody, some fwBody => pure (tplBody, fwBody)
    | _, _ => fail failure

/-- The template and the active settings. -/
def readBoth (cfg : Config) (a : Answers) : Enabling (Fields × Fields) := do
  let tpl ← request cfg .getTemplate a.template
  if tpl.status = 404 then fail ⟨.unsupported, none⟩
  else if tpl.status = 403 then fail ⟨refused cfg, some "HTTP 403"⟩
  else do
    let fw ← readActive cfg a tpl
    bodies tpl fw

/-- The draft settings: nobody else's edits may wait there. -/
def readDraft (cfg : Config) (a : Answers) : Enabling Unit := do
  let draft ← request cfg .getDraft a.draft
  match draft.status == 200, draft.fields with
  | true, some body => if pending body then fail ⟨.pendingFirewall, none⟩ else pure ()
  | _, _ => fail ⟨.unreachable, some (httpText draft.status)⟩

def enableTemplate (cfg : Config) (a : Answers) : Enabling Unit :=
  if a.switchedTemplate then fail ⟨.pceChanged, none⟩
  else do
    let r ← request cfg .putTemplate a.putTemplate
    if r.status = 403 then fail ⟨refused cfg, some ("HTTP 403 " ++ r.text)⟩
    else if r.status ≠ 200 ∧ r.status ≠ 204 then fail (stepFailed .template r)
    else change (·.finished .template)

def writeDraft (cfg : Config) (a : Answers) : Enabling Unit :=
  if a.switchedDraft then fail ⟨.pceChanged, none⟩
  else do
    let r ← request cfg .putDraft a.putDraft
    if r.status ≠ 200 ∧ r.status ≠ 204 then fail (stepFailed .draft r)
    else change (·.finished .draft)

/-- The draft may have been edited since it was read: the provision goes out only where it differs from
the active settings in our scopes alone. `same` is `==` of two dicts. -/
def provision (same : Fields → Fields → Bool) (cfg : Config) (a : Answers) : Enabling Unit := do
  -- the statuses of these two answers are not looked at
  let activeNow ← request cfg .getActive a.activeNow
  let draftNow ← request cfg .getDraft a.draftNow
  match activeNow.fields, draftNow.fields with
  | some active, some draft =>
      if !same (fwContent active) (fwContent draft) then fail ⟨.firewallChanged, none⟩
      else if a.switchedProvision then fail ⟨.pceChanged, none⟩
      else do
        let r ← request cfg .provision a.provision
        if r.status ≠ 201 then fail (stepFailed .provisioned r)
        else change (·.finished .provisioned)
  | _, _ => fail ⟨.firewallChanged, none⟩

/-- The scopes, where they are off. -/
def enableVens (same : Fields → Fields → Bool) (cfg : Config) (a : Answers) : Enabling Unit := do
  writeDraft cfg a
  provision same cfg a

/-- The halves that are off, once both were read. -/
def enableHalves (same : Fields → Fields → Bool) (cfg : Config) (a : Answers)
    (needTemplate needVens : Bool) : Enabling Unit := do
  change (·.skips (if needTemplate then [] else [.template]))
  change (·.skips (if needVens then [] else [.draft, .provisioned]))
  onlyIf needVens (readDraft cfg a)
  onlyIf needTemplate (enableTemplate cfg a)
  onlyIf needVens (enableVens same cfg a)

def attempt (same : Fields → Fields → Bool) (cfg : Config) (a : Answers) : Enabling Unit :=
  if !cfg.writeKey then fail ⟨.noWriteKey, none⟩
  else do
    let (tplBody, fwBody) ← readBoth cfg a
    enableHalves same cfg a (!((Json.obj tplBody).get "enabled").truthy) (!scopesOn fwBody)

/-- `enable_rhc`: the result, and what was asked and answered. -/
def enableRhc (same : Fields → Fields → Bool) (cfg : Config) (a : Answers) :
    EnableResult × List Event :=
  match attempt same cfg a ⟨[], [], []⟩ with
  | (.ok (), run) => (⟨true, run.done, run.skipped, none⟩, run.events)
  | (.error failure, run) => (⟨false, run.done, run.skipped, some failure⟩, run.events)

end IllumioOps.Rhc
