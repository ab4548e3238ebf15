import IllumioOps.Migrate.RuleChecks

/-!
# Carrying the alert rules of 5.x over

`convert_rule` and `migrate_alerts`, for an installation without channel settings: each rule becomes a
rule of this version or is reported as none, with what it could not keep, and the default rules that 5.x
did not have are added. A rule is validated; where it is in error its patterns are replaced and it is
validated again, and what is left of the errors ends the migration.
-/

set_option autoImplicit false

namespace IllumioOps.Migrate

open Alerts (Severity)
open RuleSchedules (isSpace strip)

/-! ## The best-practice pack -/

inductive PackKind where
  | event
  | traffic
  | system
  | lateral
  deriving DecidableEq, Repr

/-- A rule of the pack: its key, kind and severity. -/
structure PackRule where
  key : String
  kind : PackKind
  severity : Option Severity
  deriving DecidableEq, Repr

/-- `best_practice_rules` -/
def pack : List PackRule :=
  [⟨"rule_agent_tampering", .event, some .high⟩, ⟨"rule_agent_suspend", .event, some .high⟩,
    ⟨"rule_agent_clone", .event, some .high⟩, ⟨"rule_agent_heartbeat", .event, none⟩,
    ⟨"rule_agent_offline", .event, none⟩, ⟨"rule_lost_agent", .event, some .high⟩,
    ⟨"rule_login_failed", .event, none⟩, ⟨"rule_api_auth_failed", .event, none⟩,
    ⟨"rule_policy_fail", .event, none⟩, ⟨"rule_ruleset_change", .event, none⟩,
    ⟨"rule_policy_provision", .event, none⟩, ⟨"rule_api_authz_failed", .event, none⟩,
    ⟨"rule_api_key_change", .event, some .high⟩, ⟨"rule_sec_rule_change", .event, none⟩,
    ⟨"rule_bulk_unpair", .event, some .high⟩, ⟨"rule_auth_settings_change", .event, some .high⟩,
    ⟨"rule_high_blocked", .traffic, some .medium⟩,
    ⟨"rule_system_pce_health", .system, some .high⟩,
    ⟨"rule_system_collection_failing", .system, some .high⟩,
    ⟨"rule_system_data_loss", .system, some .high⟩,
    ⟨"rule_system_job_failing", .system, some .high⟩,
    ⟨"rule_system_disk_low", .system, some .medium⟩,
    ⟨"rule_system_siem_backlog", .system, some .medium⟩, ⟨"rule_lateral_fanout", .lateral, none⟩,
    ⟨"rule_lateral_new_admin", .lateral, none⟩, ⟨"rule_lateral_cross_env", .lateral, none⟩,
    ⟨"rule_anomaly_peer", .lateral, none⟩, ⟨"rule_anomaly_volume", .lateral, none⟩,
    ⟨"rule_anomaly_account_source", .lateral, none⟩, ⟨"rule_anomaly_tool", .lateral, none⟩,
    ⟨"rule_anomaly_directory", .lateral, none⟩, ⟨"rule_anomaly_direction", .lateral, none⟩,
    ⟨"rule_anomaly_pair_port", .lateral, none⟩, ⟨"rule_anomaly_quiet", .lateral, none⟩,
    ⟨"rule_anomaly_staging", .lateral, none⟩]

/-- `pack_rule_id`, the digest of a key in 32 hexadecimal digits, and the identifiers that `uuid4` gives
the rules that need one: no two of these are the same, and none is the identifier of a rule of the pack
or of a rule that is read. -/
structure Identifiers (py : Python) (rules : List Json) where
  packRuleId : String → String
  newId : Nat → String
  packRuleId_isId : ∀ key, isId (packRuleId key) = true
  packRuleId_injective : ∀ r ∈ pack, ∀ q ∈ pack, packRuleId r.key = packRuleId q.key → r = q
  newId_isId : ∀ n, isId (newId n) = true
  newId_injective : ∀ i < rules.length, ∀ j < rules.length, newId i = newId j → i = j
  newId_ne_pack : ∀ i < rules.length, ∀ r ∈ pack, newId i ≠ packRuleId r.key
  newId_ne_raw : ∀ i < rules.length, ∀ rule ∈ rules, newId i ≠ textOr py (rule.get "id")

/-! ## What a rule could not keep -/

/-- The reasons a report gives. -/
inductive Reason where
  | carried
  | rulesListed
  | typeUnsupported
  | newId
  | thresholdAlias
  | aliasKey
  | windowRaised
  | throttleCapped
  | badValue
  | badLabel
  | iplistName
  | processInitiator
  | firstProcessOnly
  | filterUnsupported
  | notReadBy5x
  | invalid
  | unknownKey
  | disabled
  | newDefault
  | newDefaultQuiet
  deriving DecidableEq, Repr

/-- `_Lost`: each key of 5.x with the reason it was lost or rewritten. -/
abbrev Lost : Type := List (String × Reason)

/-- `_NARROWING_LOST` -/
def narrowingLost : List Reason := [.filterUnsupported, .iplistName, .badLabel]

variable (py : Python)

/-! ## Conditions -/

/-- The tokens of some keys, each with its key. -/
def tokens (rule : Json) (keys : List String) : List (String × Json) :=
  keys.flatMap fun k => (asList (rule.get k)).map fun token => (k, token)

/-- A value of a key, added where it is not yet. -/
def addLabel (byKey : List (String × List String)) (pair : String × String) :
    List (String × List String) :=
  if byKey.any fun e => e.1 == pair.1 then
    byKey.map fun e =>
      if e.1 = pair.1 then (e.1, if pair.2 ∈ e.2 then e.2 else e.2 ++ [pair.2]) else e
  else byKey ++ [(pair.1, [pair.2])]

/-- The keys of one end: labels, addresses and workloads. -/
structure SideKeys where
  labels : List String
  ips : List String
  hrefs : List String

/-- What is lost of an end. -/
def sideLost (rule : Json) (keys : SideKeys) : Lost :=
  ((tokens rule keys.labels).filter fun t => (label py t.2).isNone).map (fun t => (t.1, .badLabel)) ++
    ((tokens rule keys.ips).filter fun t => (ips py t.2).isNone).map fun t => (t.1, .iplistName)

/-- An `href` as it is referred to. -/
def hrefOf (v : Json) : String := if v.isObj then str py (v.get "href") else str py v

/-- `_side`: none when nothing of it is left. -/
def side (rule : Json) (keys : SideKeys) : Option RawSide :=
  let labels := ((tokens rule keys.labels).filterMap fun t => label py t.2).foldl addLabel []
  let addresses := ((tokens rule keys.ips).filterMap fun t => ips py t.2).flatten
  let refs := ((tokens rule keys.hrefs).filter fun t => t.2.truthy).map fun t => hrefOf py t.2
  if labels = [] ∧ addresses = [] ∧ refs = [] then none else some ⟨labels, addresses, refs⟩

def srcKeys : SideKeys := ⟨["src_label", "src_labels"], ["src_ip_in"], ["src_workloads"]⟩

def dstKeys : SideKeys := ⟨["dst_label", "dst_labels"], ["dst_ip_in"], ["dst_workloads"]⟩

def srcExcludeKeys : SideKeys :=
  ⟨["ex_src_label", "ex_src_labels"], ["ex_src_ip"], ["ex_src_workloads"]⟩

def dstExcludeKeys : SideKeys :=
  ⟨["ex_dst_label", "ex_dst_labels"], ["ex_dst_ip"], ["ex_dst_workloads"]⟩

def eitherKeys : SideKeys := ⟨["any_label"], ["any_ip"], ["any_workload"]⟩

def eitherExcludeKeys : SideKeys := ⟨["ex_any_label"], ["ex_any_ip"], ["ex_any_workload"]⟩

/-- The ends of a condition, in the order they are read. -/
def sideKeys : List SideKeys :=
  [srcKeys, dstKeys, srcExcludeKeys, dstExcludeKeys, eitherKeys, eitherExcludeKeys]

/-- The ports of some tokens, and what is lost of them. -/
def ports (defaultProto : Option Int) : List (String × Json) → Except PyError (List RawPort × Lost)
  | [] => .ok ([], [])
  | (key, token) :: rest => do
      let found ← port py token defaultProto
      let (more, lost) ← ports defaultProto rest
      pure (match found with
        | none => (more, (key, .badValue) :: lost)
        | some p => (p :: more, lost))

/-- The names of a key, without blank ones. -/
def names (rule : Json) (key : String) : List String :=
  ((asList (rule.get key)).map fun v => stripText (str py v)).filter fun s => decide (s ≠ "")

/-- `_TRANSMISSIONS` -/
def transmissionOf (name : String) : Option Transmission :=
  [Transmission.unicast, .broadcast, .multicast].find? fun t => decide (t.value = name)

def transmissionNames (rule : Json) (key : String) : List String := (names py rule key).map py.lower

def transmissionLost (rule : Json) (key : String) : Lost :=
  if (transmissionNames py rule key).any fun name => (transmissionOf name).isNone then
    [(key, .badValue)] else []

/-- `_PD` -/
def decisionOf : Option Int → Option PolicyDecision
  | some 0 => some .allowed
  | some 1 => some .potentiallyBlocked
  | some 2 => some .blocked
  | _ => none

/-- `_UNSUPPORTED_FILTER_KEYS` -/
def unsupportedFilterKeys : List String :=
  ["src_iplists", "dst_iplists", "ex_src_iplists", "ex_dst_iplists", "any_iplist", "ex_any_iplist",
    "services", "ex_services", "src_label_group", "dst_label_group", "ex_src_label_group",
    "ex_dst_label_group", "src_label_groups", "dst_label_groups", "ex_src_label_groups",
    "ex_dst_label_groups"]

def unsupportedLost (rule : Json) : Lost :=
  (unsupportedFilterKeys.filter fun k => !(asList (rule.get k)).isEmpty).map
    fun k => (k, .filterUnsupported)

/-- The process of a rule, and that it is matched at the initiating end, and the first only. -/
def process (rule : Json) : Option String × Lost :=
  let v := rule.get "process_name"
  if v.truthy then
    let names := asList v
    (names.head?.map (str py), ("process_name", .processInitiator) ::
      if 1 < names.length then [("process_name", .firstProcessOnly)] else [])
  else (none, [])

/-- The decision number of a rule, and what is lost of it. -/
def decision (rule : Json) : Except PyError (Option Int × Lost) :=
  let pd := rule.get "pd"
  if decisionGiven pd then do
    let n ← decisionNumber py pd
    pure (n, if n.isNone then [("pd", .badValue)] else [])
  else .ok (none, [])

/-- `_condition` -/
def condition (rule : Json) : Except PyError (RawCondition × Lost) := do
  let (pd, pdLost) ← decision py rule
  let proto ← ruleProto py (rule.get "proto")
  let (found, portLost) ← ports py proto (tokens rule ["port", "ports"])
  let (excluded, excludedLost) ← ports py none (tokens rule ["ex_port", "ex_ports"])
  let (process, processLost) := process py rule
  pure
    ({ decisions := decisionOf pd
       src := side py rule srcKeys
       dst := side py rule dstKeys
       srcExclude := side py rule srcExcludeKeys
       dstExclude := side py rule dstExcludeKeys
       either := side py rule eitherKeys
       eitherExclude := side py rule eitherExcludeKeys
       ports := if found = [] ∧ proto.isSome then [⟨none, none, proto⟩] else found
       excludePorts := excluded
       initiatorProcess := process
       windowsServices := names py rule "windows_service_name"
       excludeWindowsServices := names py rule "ex_windows_service_name"
       excludeProcesses := names py rule "ex_process_name"
       transmissions := (transmissionNames py rule "transmission").filterMap transmissionOf
       excludeTransmissions :=
         (transmissionNames py rule "ex_transmission").filterMap transmissionOf },
      pdLost ++ sideKeys.flatMap (sideLost py rule) ++ portLost ++ excludedLost ++ processLost ++
        transmissionLost py rule "transmission" ++ transmissionLost py rule "ex_transmission" ++
        unsupportedLost rule)

/-! ## One rule -/

/-- `_FLOW_KEYS` -/
def flowKeys : List String :=
  ["pd", "port", "proto", "ex_port", "ports", "ex_ports", "src_label", "dst_label", "ex_src_label",
    "ex_dst_label", "src_labels", "dst_labels", "ex_src_labels", "ex_dst_labels", "src_ip_in",
    "dst_ip_in", "ex_src_ip", "ex_dst_ip", "src_workloads", "dst_workloads", "ex_src_workloads",
    "ex_dst_workloads", "process_name", "any_label", "any_ip", "any_workload", "ex_any_label",
    "ex_any_ip", "ex_any_workload", "windows_service_name", "ex_windows_service_name",
    "transmission", "ex_transmission", "ex_process_name"] ++ unsupportedFilterKeys

/-- `_COMMON_KEYS` -/
def commonKeys : List String :=
  ["threshold_type", "threshold_count", "threshold", "threshold_window", "cooldown_minutes",
    "throttle", "alert_throttle"]

/-- `_EVENT_KEYS` -/
def eventKeys : List String :=
  ["filter_value", "filter_status", "filter_severity", "match_fields", "filter_match_fields"]

/-- `_RULE_META` -/
def ruleMeta : List String :=
  ["id", "type", "name", "name_key", "desc", "desc_key", "rec", "rec_key", "enabled", "filter_key"]

/-- What the kinds of rules share once it is read: the window, the cooldown and the throttle. -/
structure RawBase where
  window : Int
  cooldown : Int
  throttle : Option (Int × Int)
  lost : Lost

/-- A throttle of a rule. -/
def throttleValue (rule : Json) : Json := (rule.get "throttle").orElse (rule.get "alert_throttle")

/-- The window of a rule, ten minutes where it is zero. -/
def windowOf (rule : Json) : Except PyError Int := do
  let n ← wholeNum py (rule.get "threshold_window") 10
  pure (if n = 0 then 10 else n)

/-- The cooldown of a rule, its window where it has none. -/
def cooldownOf (rule : Json) (window : Int) : Except PyError Int :=
  match rule.get "cooldown_minutes" with
  | .null => .ok window
  | v => wholeNum py v window

/-- `_base`, as far as it is read. -/
def base (rule : Json) : Except PyError RawBase := do
  let window ← windowOf py rule
  let (throttle, cut) ← throttle py (throttleValue rule)
  let cooldown ← cooldownOf py rule window
  pure ⟨window, cooldown, throttle,
    (if cut then [("throttle", .throttleCapped)] else []) ++
      if (throttleValue rule).truthy && throttle.isNone then [("throttle", .badValue)] else []⟩

/-- The name of a converted rule; a rule of the pack shows the name of the pack. -/
def nameOf (rule : Json) (packKey : Option String) (kind : String) : String :=
  let name := if packKey.isSome then ""
    else String.ofList ((textOr py ((rule.get "name").orElse (rule.get "name_key"))).toList.take 120)
  if name = "" ∧ packKey.isNone then kind ++ " rule" else name

/-- The fields that an event rule matches. -/
def matchFieldsOf (rule : Json) : List (String × String) :=
  match (rule.get "match_fields").orElse (rule.get "filter_match_fields") with
  | .obj fields => fields.map fun f => (f.1, str py f.2)
  | _ => []

/-- The event types of a rule, all where it names none. -/
def eventTypesOf (rule : Json) : List String :=
  let types := (((textOr py (rule.get "filter_value")).toList.splitOn ',').map strip).filter
    fun t => decide (t ≠ [])
  if types = [] then ["*"] else types.map String.ofList

def orAll (s : String) : String := if s = "" then "all" else s

/-- The threshold of an event rule, at least one. -/
def eventCount (rule : Json) : Except PyError Int := do
  let n ← wholeNum py
    (rule.get (if (rule.get? "threshold_count").isSome then "threshold_count" else "threshold")) 1
  pure (max 1 n)

def eventBody (rule : Json) (b : RawBase) : Except PyError (RawBody × Lost) := do
  let count ← eventCount py rule
  pure (.event
    { eventTypes := eventTypesOf py rule
      status := orAll (textOr py (rule.get "filter_status"))
      eventSeverity := orAll (textOr py (rule.get "filter_severity"))
      matchFields := matchFieldsOf py rule
      counts := match rule.get "threshold_type" with
        | .str s => s == "count"
        | _ => false
      thresholdCount := count
      windowMinutes := min b.window 1440 },
    (if (rule.get? "threshold_count").isNone && (rule.get? "threshold").isSome then
      [("threshold", .thresholdAlias)] else []) ++
    if (rule.get? "filter_match_fields").isSome && (rule.get? "match_fields").isNone then
      [("filter_match_fields", .aliasKey)] else [])

/-- The kinds of flow rules. -/
inductive FlowKind where
  | traffic
  | bandwidth
  | volume
  deriving DecidableEq, Repr

/-- The threshold of a flow rule, as a number. -/
def thresholdNum (rule : Json) : Except PyError PyFloat :=
  num py (match rule.get? "threshold_count" with
    | some v => v
    | none => rule.get "threshold") (.num 1)

/-- The threshold of a flow rule, above zero. -/
def flowThreshold (kind : FlowKind) (x : PyFloat) : Except PyError RawThreshold :=
  match kind with
  | .traffic => do
      let n ← x.toInt
      pure (.traffic (max 1 n))
  | .bandwidth => pure (.bandwidth (x.atLeast (.ofRat (1 / 1000))))
  | .volume => pure (.volume (x.atLeast (.ofRat (1 / 1000))))

/-- `MIN_FLOW_WINDOW` -/
def minFlowWindow : Int := 10

def flowBody (rule : Json) (kind : FlowKind) (b : RawBase) : Except PyError (RawBody × Lost) := do
  let x ← thresholdNum py rule
  let (cond, lost) ← condition py rule
  let threshold ← flowThreshold kind x
  pure (.flow cond threshold (min (max b.window minFlowWindow) 1440),
    (if b.window < minFlowWindow then [("threshold_window", .windowRaised)] else []) ++ lost)

/-- What a system rule of 5.x stored and never used. -/
def systemLost (rule : Json) : Lost :=
  (["threshold_type", "threshold_count", "threshold_window", "match_fields"].filter fun k =>
    (rule.get? k).isSome).map fun k => (k, .notReadBy5x)

/-- The kinds of rules that are converted. -/
inductive RuleKind where
  | event
  | flow (kind : FlowKind)
  | system
  deriving DecidableEq, Repr

def RuleKind.text : RuleKind → String
  | .event => "event"
  | .flow .traffic => "traffic"
  | .flow .bandwidth => "bandwidth"
  | .flow .volume => "volume"
  | .system => "system"

/-- The kind of a rule, if it is one that is converted. -/
def kindOf (rule : Json) : Option RuleKind :=
  let kind := textOr py (rule.get "type")
  if kind = "event" then some .event
  else if kind = "traffic" then some (.flow .traffic)
  else if kind = "bandwidth" then some (.flow .bandwidth)
  else if kind = "volume" then some (.flow .volume)
  else if kind = "system" ∧ textOr py (rule.get "filter_value") = "pce_health" then some .system
  else none

/-- The keys a kind of rule reads. -/
def RuleKind.handled : RuleKind → List String
  | .event => eventKeys ++ commonKeys
  | .flow _ => flowKeys ++ commonKeys
  | .system => commonKeys ++ ["filter_value", "match_fields"]

/-- `name_key in PACK_KEYS`: a list or an object cannot be looked up. -/
def packKeyOf (rule : Json) : Except PyError (Option String) :=
  match rule.get "name_key" with
  | .str s => .ok (if s ∈ pack.map PackRule.key then some s else none)
  | .arr _ => .error .type
  | .obj _ => .error .type
  | _ => .ok none

/-- The identifier of a rule: that of its pack rule, its own, or a new one. -/
def ruleId (packRuleId : String → String) (newId : String) (rule : Json) (packKey : Option String)
    (used : List String) : String :=
  let rawId := textOr py (rule.get "id")
  match packKey.map packRuleId with
  | some id => if id ∉ used then id else if isId rawId ∧ rawId ∉ used then rawId else newId
  | none => if isId rawId ∧ rawId ∉ used then rawId else newId

def packSeverity (packKey : Option String) : Option Severity :=
  (packKey.bind fun key => pack.find? fun r => decide (r.key = key)).bind PackRule.severity

/-- The rule as it is first put together: its body, what it lost, and whether it stays enabled. -/
def assemble (kind : RuleKind) (rule : Json) (id : String) (packKey : Option String) (b : RawBase)
    (body : RawBody) (lost : Lost) : RawRule where
  id := id
  name := nameOf py rule (if kind = .system then none else packKey) kind.text
  packKey := if kind = .system then none else packKey
  enabled := (match rule.get "enabled" with
    | .bool false => false
    | _ => true) && !(match kind with
      | .flow _ => lost.any fun l => decide (l.2 ∈ narrowingLost)
      | _ => false)
  notify := true
  severity := match kind with
    | .event => packSeverity packKey
    | .flow _ => some .medium
    | .system => some .high
  cooldownMinutes := b.cooldown
  throttle := b.throttle
  body := body

/-- The body of a rule of a kind, and what is lost of it. -/
def bodyOf (kind : RuleKind) (rule : Json) (b : RawBase) : Except PyError (RawBody × Lost) :=
  match kind with
  | .event => eventBody py rule b
  | .flow kind => flowBody py rule kind b
  | .system => .ok (.system, systemLost rule)

/-- The patterns in error, replaced. -/
def RawEvent.reset (e : RawEvent) (errors : List (Option String)) : RawEvent :=
  { e with
    eventTypes := if some "event_types" ∈ errors then ["*"] else e.eventTypes
    status := if some "status" ∈ errors then "all" else e.status
    eventSeverity := if some "event_severity" ∈ errors then "all" else e.eventSeverity
    matchFields := if some "match_fields" ∈ errors then [] else e.matchFields }

/-- A rule in error is disabled, and its patterns in error are replaced. -/
def resetPatterns (errors : List (Option String)) (r : RawRule) : RawRule :=
  { r with
    enabled := false
    body := match r.body with
      | .event e => .event (e.reset errors)
      | body => body }

/-- The rule is validated, and again with its patterns replaced where it is in error. -/
def validated (kind : RuleKind) (r : RawRule) : Except PyError (RawRule × Lost) := do
  let errors ← checkRule py r
  if errors = [] then pure (r, [])
  else
    let r := resetPatterns errors r
    let again ← checkRule py r
    if again = [] then pure (r, errors.map fun e => (e.getD kind.text, .invalid))
    else .error .validation

/-- What a rule is converted to: the rule with its kind, what was lost, and the keys kept. -/
structure Conversion where
  kind : RuleKind
  rule : RawRule
  lost : Lost
  kept : List String

/-- The keys of an object. -/
def keysOf : Json → List String
  | .obj fields => fields.map Prod.fst
  | _ => []

/-- `convert_rule`: none for a rule of another type. -/
def convertRule (packRuleId : String → String) (newId : String) (rule : Json) (used : List String) :
    Except PyError (Option Conversion) := do
  let packKey ← packKeyOf rule
  let id := ruleId py packRuleId newId rule packKey used
  let idLost : Lost := if id ≠ textOr py (rule.get "id") then [("id", .newId)] else []
  match kindOf py rule with
  | none => pure none
  | some kind => do
      let b ← base py rule
      let (body, bodyLost) ← bodyOf py kind rule b
      let lost := idLost ++ b.lost ++ bodyLost
      let (converted, invalid) ← validated py kind (assemble py kind rule id packKey b body lost)
      let unknown := (keysOf rule).filter fun k => decide (k ∉ kind.handled ∧ k ∉ ruleMeta)
      let lost := lost ++ invalid ++ unknown.map fun k => (k, .unknownKey)
      pure (some ⟨kind, converted, lost, (keysOf rule).filter fun k =>
        decide (k ∈ kind.handled ∧ k ∉ lost.map Prod.fst)⟩)

/-! ## All rules -/

inductive Action where
  | carried
  | rewritten
  | dropped
  | unsupported
  deriving DecidableEq, Repr

/-- `MigrationItem` -/
structure MigrationItem where
  source : String
  target : Option String
  action : Action
  reason : Reason
  deriving DecidableEq, Repr

/-- Where the rules were read: `config/alerts.json`, or the configuration itself. -/
inductive RuleFile where
  | alertsJson
  | config
  deriving DecidableEq, Repr

def RuleFile.text : RuleFile → String
  | .alertsJson => "alerts.json rules"
  | .config => "rules"

/-- The name of a rule in the report. -/
def itemLabel (file : RuleFile) (i : Nat) (rule : Json) : String :=
  String.ofList (((file.text ++ "[" ++ toString i ++ "] " ++
    textOr py ((rule.get "name").orElse (rule.get "name_key"))).toList.reverse.dropWhile
      isSpace).reverse)

def Reason.action : Reason → Action
  | .filterUnsupported => .unsupported
  | .invalid => .unsupported
  | .iplistName => .unsupported
  | .unknownKey => .unsupported
  | .notReadBy5x => .dropped
  | _ => .rewritten

def targetOf (id : String) : String := "alerts.rules[" ++ String.ofList (id.toList.take 8) ++ "]"

/-- The items of a converted rule. -/
def ruleItems (label : String) (rule : Json) (c : Conversion) : List MigrationItem :=
  let target := some (targetOf c.rule.id)
  (if c.lost = [] then [⟨label, target, .carried, .carried⟩] else []) ++
    c.lost.map (fun l => ⟨label ++ " · " ++ l.1, target, l.2.action, l.2⟩) ++
    if !c.rule.enabled && (match rule.get "enabled" with
      | .bool false => false
      | _ => true) then [⟨label, target, .rewritten, .disabled⟩] else []

/-- A rule of the section: one that was converted, or a default rule. -/
inductive SectionRule where
  | converted (r : RawRule)
  | default (id : String) (r : PackRule)

def SectionRule.id : SectionRule → String
  | .converted r => r.id
  | .default id _ => id

/-- Whether a rule passes the validation; the default rules are built by the same classes. -/
def SectionRule.check : SectionRule → Except PyError Bool
  | .converted r => do
      let errors ← checkRule py r
      pure (errors.isEmpty)
  | .default id _ => .ok (isId id)

/-- The section of the settings and the report as they grow, and the identifiers used. -/
structure Migration where
  used : List String
  rules : List RawRule
  items : List MigrationItem

/-- A rule that is not converted. -/
def Migration.skip (m : Migration) (label : String) : Migration :=
  { m with items := m.items ++ [⟨label, none, .unsupported, .typeUnsupported⟩] }

/-- A rule that is. -/
def Migration.add (m : Migration) (label : String) (rule : Json) (c : Conversion) : Migration where
  used := m.used ++ [c.rule.id]
  rules := m.rules ++ [c.rule]
  items := m.items ++ ruleItems label rule c

variable (packRuleId : String → String) (newId : Nat → String)

/-- The rules one after the other, from the `i`-th on. -/
def migrateRules (file : RuleFile) :
    Nat → List Json → Migration → Except PyError Migration
  | _, [], m => .ok m
  | i, rule :: rules, m =>
      -- the label reads the name of the rule before anything asks whether it is an object
      if !rule.isObj then .error .attribute
      else do
        let label := itemLabel py file i rule
        let converted ← convertRule py packRuleId (newId i) rule m.used
        match converted with
        | none => migrateRules file (i + 1) rules (m.skip label)
        | some c => migrateRules file (i + 1) rules (m.add label rule c)

/-- The default rules that 5.x did not have and that are not there. -/
def newDefaults (have_ : List String) : List PackRule :=
  pack.filter fun r => decide (r.kind = .system ∨ r.kind = .lateral) &&
    decide (packRuleId r.key ∉ have_)

def defaultItem (r : PackRule) : MigrationItem where
  source := "(new) " ++ r.key
  target := some (targetOf (packRuleId r.key))
  action := .rewritten
  reason := if r.kind = .lateral then .newDefaultQuiet else .newDefault

/-- The rules that one section may hold. -/
def maxRules : Nat := 400

/-- `validate` of the section. -/
def checkSection (rules : List SectionRule) : Except PyError Bool := do
  let checked ← rules.mapM (SectionRule.check py)
  pure (checked.all id && decide (rules.length ≤ maxRules) && decide (rules.map SectionRule.id).Nodup)

/-- The item of the key `rules` of the configuration, where the rules are read from it. -/
def listedItems (rules : List Json) : RuleFile → List MigrationItem
  | .alertsJson => []
  | .config => [if rules = [] then ⟨"rules", some "alerts.rules", .carried, .carried⟩
      else ⟨"rules", some "alerts.rules", .rewritten, .rulesListed⟩]

/-- `migrate_alerts`, without channel settings: the rules of the section, and the report. -/
def migrateAlerts (file : RuleFile) (rules : List Json) :
    Except PyError (List SectionRule × List MigrationItem) := do
  let start : Migration := ⟨[], [], listedItems rules file⟩
  let m ← migrateRules py packRuleId newId file 0 rules start
  let defaults := newDefaults packRuleId (m.rules.map RawRule.id)
  let section_ := m.rules.map SectionRule.converted ++
    defaults.map fun r => .default (packRuleId r.key) r
  let ok ← checkSection py section_
  if ok then pure (section_, m.items ++ defaults.map (defaultItem packRuleId))
  else .error .validation

end IllumioOps.Migrate
