import IllumioOps.Alerts.Recorder
import IllumioOps.Migrate.Readings

/-!
# Converted rules and their checks

What a 5.x rule is converted to, before it is validated (`RawRule`), and the validation of alert rules
(`domain.alertrules`, `domain.filter`) as it applies to such a rule: the fields that are in error, in
their order. A pattern is compiled where it looks like a regular expression; an exception other than
`re.error` is not caught.
-/

set_option autoImplicit false

namespace IllumioOps.Migrate

open Alerts (Severity)
open RuleSchedules (isSpace strip)

/-! ## Converted rules -/

/-- An end of a condition. -/
structure RawSide where
  labels : List (String × List String)
  ips : List String
  hrefs : List String
  deriving DecidableEq, Repr

structure RawCondition where
  decisions : Option PolicyDecision
  src : Option RawSide
  dst : Option RawSide
  srcExclude : Option RawSide
  dstExclude : Option RawSide
  either : Option RawSide
  eitherExclude : Option RawSide
  ports : List RawPort
  excludePorts : List RawPort
  initiatorProcess : Option String
  windowsServices : List String
  excludeWindowsServices : List String
  excludeProcesses : List String
  transmissions : List Transmission
  excludeTransmissions : List Transmission
  deriving DecidableEq, Repr

/-- The ends of a condition, in their order. -/
def RawCondition.sides (c : RawCondition) : List (Option RawSide) :=
  [c.src, c.dst, c.srcExclude, c.dstExclude, c.either, c.eitherExclude]

/-- The kinds of flow rules, with their thresholds. -/
inductive RawThreshold where
  | traffic (connections : Int)
  | bandwidth (mbps : PyFloat)
  | volume (mb : PyFloat)
  deriving DecidableEq, Repr

structure RawEvent where
  eventTypes : List String
  status : String
  eventSeverity : String
  matchFields : List (String × String)
  counts : Bool
  thresholdCount : Int
  windowMinutes : Int
  deriving DecidableEq, Repr

inductive RawBody where
  | event (e : RawEvent)
  | flow (condition : RawCondition) (threshold : RawThreshold) (windowMinutes : Int)
  | system
  deriving DecidableEq, Repr

/-- What a rule of 5.x is converted to. -/
structure RawRule where
  id : String
  name : String
  packKey : Option String
  enabled : Bool
  notify : Bool
  severity : Option Severity
  cooldownMinutes : Int
  throttle : Option (Int × Int)
  body : RawBody
  deriving DecidableEq, Repr

/-! ## Checks -/

variable (py : Python)

/-- `_ANY` -/
def anyPatterns : List String := ["*", "any", "all", ""]

/-- `_looks_like_regex` -/
def looksLikeRegex (pattern : String) : Bool :=
  pattern.toList.head? == some '^' || pattern.toList.getLast? == some '$' ||
    pattern.toList.any fun c => c ∈ ['*', '+', '?', '[', ']', '(', ')', '\x7b', '\x7d', '$', '\\']

/-- `_check_pattern` -/
def checkPattern (pattern : String) : Except PyError Bool :=
  let body := match pattern.toList with
    | '!' :: rest => String.ofList rest
    | _ => pattern
  if body ∈ anyPatterns ∨ looksLikeRegex body = false then .ok true
  else match py.compile ("^" ++ body ++ "$") with
    | .compiles => .ok true
    | .reError => .ok false
    | .raises e => .error e

/-- The patterns one after the other, up to the first that is wrong. -/
def checkPatterns : List String → Except PyError Bool
  | [] => .ok true
  | pattern :: patterns => do
      let ok ← checkPattern py pattern
      if ok then checkPatterns patterns else pure false

/-- `_types` -/
def checkTypes (types : List String) : Except PyError Bool :=
  if types.any fun t => strip t.toList = [] then .ok false
  else checkPatterns py (types.map stripText)

/-- `_fields`: each path, and then its pattern. -/
def checkMatchFields : List (String × String) → Except PyError Bool
  | [] => .ok true
  | (path, pattern) :: fields => do
      if strip path.toList = [] then pure false
      else do
        let ok ← checkPattern py pattern
        if ok then checkMatchFields fields else pure false

/-- The fields with patterns, those that are in error. -/
def patternErrors (e : RawEvent) : Except PyError (List String) := do
  let types ← checkTypes py e.eventTypes
  let status ← checkPattern py (stripText e.status)
  let severity ← checkPattern py (stripText e.eventSeverity)
  let fields ← checkMatchFields py e.matchFields
  pure ((if types then [] else ["event_types"]) ++ (if status then [] else ["status"]) ++
    (if severity then [] else ["event_severity"]) ++ if fields then [] else ["match_fields"])

def isId (id : String) : Bool :=
  decide (id.toList.length = 32) &&
    id.toList.all fun c => c.isDigit || decide ('a' ≤ c ∧ c ≤ 'f')

/-- The fields every rule has. -/
def baseErrors (r : RawRule) : List String :=
  (if isId r.id then [] else ["id"]) ++ (if r.name.toList.length ≤ 120 then [] else ["name"]) ++
    (if 0 ≤ r.cooldownMinutes ∧ r.cooldownMinutes ≤ 10080 then [] else ["cooldown_minutes"]) ++
    match r.throttle with
    | none => []
    | some (count, period) =>
        (if 1 ≤ count ∧ count ≤ 1000 then [] else ["throttle"]) ++
          if 1 ≤ period ∧ period ≤ 10080 then [] else ["throttle"]

/-- `PortProto` -/
def RawPort.check (p : RawPort) : Bool :=
  p.port.all (fun n => decide (-1 ≤ n ∧ n ≤ 65535)) &&
    p.toPort.all (fun n => decide (0 ≤ n ∧ n ≤ 65535)) &&
    p.proto.all (fun n => decide (0 ≤ n ∧ n ≤ 255)) &&
    (p.port.isSome || p.proto.isSome) &&
    p.toPort.all fun last => p.port.any fun first => decide (0 ≤ first ∧ first ≤ last)

open Ipaddress in
/-- Whether `parse_ip_token` takes a text. -/
def isIpToken (token : String) : Bool :=
  let text := strip token.toList
  if '/' ∈ text then (ipNetwork text).isSome else (ipAddress text).isSome

/-- `EndpointFilter` -/
def RawSide.check (s : RawSide) : Bool :=
  s.labels.all (fun l => l.1 != "" && !l.2.isEmpty) && s.ips.all isIpToken

/-- `normalize_process` -/
def normalizeProcess (name : String) : Option String :=
  let base := (name.toList.reverse.takeWhile fun c => c != '\\' && c != '/').reverse
  if base = [] then none
  else if (py.lower (String.ofList base)).toList.reverse.take 4 = ['e', 'x', 'e', '.'] ∨
      '\\' ∈ name.toList then some (py.lower (String.ofList base))
  else some (String.ofList base)

def nameFits (name : String) : Bool := decide (1 ≤ name.toList.length ∧ name.toList.length ≤ 255)

/-- `FlowCondition` -/
def RawCondition.check (c : RawCondition) : Bool :=
  c.sides.all (fun s => s.all RawSide.check) && c.ports.all RawPort.check &&
    c.excludePorts.all RawPort.check && c.windowsServices.all nameFits &&
    c.excludeWindowsServices.all nameFits &&
    c.excludeProcesses.all fun name =>
      nameFits name && (normalizeProcess py (stripText name)).isSome

def RawThreshold.check : RawThreshold → Bool
  | .traffic n => decide (1 ≤ n)
  | .bandwidth x => x.positive
  | .volume x => x.positive

/-- The name of the field of a threshold. -/
def RawThreshold.field : RawThreshold → String
  | .traffic _ => "threshold_connections"
  | .bandwidth _ => "threshold_mbps"
  | .volume _ => "threshold_mb"

/-- The fields of a body that hold no patterns. An error of a condition is one of its own; how many
there are makes no difference. -/
def bodyErrors : RawBody → List String
  | .event e => (if 1 ≤ e.thresholdCount then [] else ["threshold_count"]) ++
      if 1 ≤ e.windowMinutes ∧ e.windowMinutes ≤ 1440 then [] else ["window_minutes"]
  | .flow condition threshold window => (if condition.check py then [] else ["condition"]) ++
      (if 10 ≤ window ∧ window ≤ 1440 then [] else ["window_minutes"]) ++
      if threshold.check then [] else [threshold.field]
  | .system => []

/-- What is checked of a rule whose fields are in order: its name, and a severity where one is
required. -/
def modelError (r : RawRule) : Bool :=
  (r.name = "" && r.packKey.getD "" = "") || match r.body with
    | .event _ => false
    | _ => r.severity.isNone

/-- The fields of a body with patterns, those that are in error. -/
def RawBody.patternErrors : RawBody → Except PyError (List String)
  | .event e => Migrate.patternErrors py e
  | _ => .ok []

/-- `validate_python` of the alert rules: the fields that are in error, none for a rule that is as a
whole. -/
def checkRule (r : RawRule) : Except PyError (List (Option String)) := do
  let patterns ← r.body.patternErrors py
  let errors := baseErrors r ++ patterns ++ bodyErrors py r.body
  pure (if errors = [] then (if modelError r then [none] else []) else errors.map some)

end IllumioOps.Migrate
