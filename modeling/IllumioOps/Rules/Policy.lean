import Mathlib.Data.List.Basic
import Mathlib.Logic.Function.Basic

/-!
# Rules and rule sets, as the PCE holds them

A rule set and its rules exist as a draft and, once provisioned, in the active policy. Writes go
to the draft; a provision makes the draft of a rule set its active version, a revert discards it
(`policy_write`). The log of a check keeps every call with its answer.
-/

set_option autoImplicit false

namespace IllumioOps.RuleSchedules

/-! ## The objects -/

/-- The collections of a rule set that a scheduled rule is in. -/
inductive RuleKind where
  | secRules
  | denyRules
  deriving DecidableEq, Repr

/-- What an href names, whatever its version: a rule set, or a rule in it. -/
structure Target where
  org : String
  ruleSet : String
  rule : Option (RuleKind × String)
  deriving DecidableEq, Repr

/-- `ruleset_of` -/
def Target.rulesetOf (t : Target) : Target := { t with rule := none }

/-- `is_ruleset` -/
def Target.isRuleset (t : Target) : Bool := decide (t.rulesetOf = t)

@[simp] theorem Target.rulesetOf_rulesetOf (t : Target) : t.rulesetOf.rulesetOf = t.rulesetOf := rfl

def RuleKind.text : RuleKind → String
  | .secRules => "sec_rules"
  | .denyRules => "deny_rules"

/-- `draft_href` -/
def Target.draftHref (t : Target) : String :=
  "/orgs/" ++ t.org ++ "/sec_policy/draft/rule_sets/" ++ t.ruleSet ++
    match t.rule with
    | none => ""
    | some (kind, id) => "/" ++ kind.text ++ "/" ++ id

/-- What the schedules read and write of an object. -/
structure Item where
  enabled : Bool
  description : String
  deriving DecidableEq, Repr

/-- What `set_fields` writes. -/
inductive Fields where
  | enabled (value : Bool)
  | description (value : String)
  deriving DecidableEq, Repr

def Fields.set : Fields → Item → Item
  | .enabled value, item => { item with enabled := value }
  | .description value, item => { item with description := value }

/-- The policy: each object as a draft and in the active version, which drafts carry an
`update_type`, and the rules that a rule set's draft lists. -/
structure Policy where
  draft : Target → Option Item
  active : Target → Option Item
  changed : Target → Bool
  rules : Target → List Target

namespace Policy

/-- A draft is written. -/
def write (p : Policy) (t : Target) (fields : Fields) : Policy :=
  { p with
    draft := Function.update p.draft t ((p.draft t).map fields.set)
    changed := Function.update p.changed t true }

/-- The draft of a rule set, with its rules, goes live. -/
def provision (p : Policy) (ruleset : Target) : Policy :=
  { p with
    active := fun t => if t.rulesetOf = ruleset then p.draft t else p.active t
    changed := fun t => if t.rulesetOf = ruleset then false else p.changed t }

/-- The draft of a rule set, with its rules, is discarded. -/
def revert (p : Policy) (ruleset : Target) : Policy :=
  { p with
    draft := fun t => if t.rulesetOf = ruleset then p.active t else p.draft t
    changed := fun t => if t.rulesetOf = ruleset then false else p.changed t }

/-- An object, or a rule it lists, carries an `update_type`. -/
def pendingAt (p : Policy) (t : Target) : Bool :=
  p.changed t || (t.isRuleset && (p.rules t).any p.changed)

end Policy

/-! ## Calls and their answers -/

/-- An answer of the PCE; `item` is the object that a successful read shows. -/
structure Response where
  status : Nat
  body : String
  item : Option Item
  deriving DecidableEq, Repr

/-- Why a call has no answer: the transport failed, or the outbound budget was used up. -/
inductive NoAnswer where
  | transport
  | budget
  deriving DecidableEq, Repr

/-- The class of the exception. -/
def NoAnswer.name : NoAnswer → String
  | .transport => "PceTransportError"
  | .budget => "PceBudgetExhausted"

/-- One of the `PCE_ERRORS`, with its text: a call without an answer, or a policy read that was
not answered with 200. -/
inductive Failure where
  | noAnswer (kind : NoAnswer) (error : String)
  | policyRead (status : Nat)
  deriving DecidableEq, Repr

/-- The class and the text of the exception. -/
def Failure.text : Failure → String
  | .noAnswer kind error => kind.name ++ ": " ++ error
  | .policyRead status => "PolicyReadError: HTTP " ++ toString status

/-- The status the exception carries. -/
def Failure.status : Failure → Option Nat
  | .noAnswer _ _ => none
  | .policyRead status => some status

/-- How the PCE takes a call: it answers, or the call ends without an answer, the effect of a
write having been applied or not. -/
inductive Reply where
  | answered (status : Nat) (body : String)
  | lost (kind : NoAnswer) (error : String) (applied : Bool)
  deriving DecidableEq, Repr

/-- The calls, with what they showed. A call without an answer has no status; a read of the
dependencies shows the objects the PCE names besides the rule set. -/
inductive Call where
  | readDraft (enabled : Bool)
  | readActive (enabled : Bool)
  | readPending (pending : Bool)
  | wrote (target : Target) (fields : Fields) (status : Option Nat) (applied : Bool)
  | dependencies (ruleset : Target) (status : Option Nat) (others : List String)
  | provisioned (subset : List Target) (status : Option Nat) (applied : Bool)
  | reverted (subset : List Target) (status : Option Nat) (applied : Bool)
  deriving DecidableEq, Repr

/-- The call is a write to the PCE: to a draft, of a provision or of a revert. -/
def Call.writes : Call → Bool
  | .wrote _ _ _ _ => true
  | .provisioned _ _ _ => true
  | .reverted _ _ _ => true
  | _ => false

end IllumioOps.RuleSchedules
