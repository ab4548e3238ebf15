import IllumioOps.Policy.Networks
import Mathlib.Data.List.Sort
import Mathlib.Data.String.Basic

/-!
# Expanding a rule set

`resolve_ruleset_within` of `domain.policy_resolver`: the rules of one rule set as rows of source,
destination and service. The consumers and the providers of a rule become addresses (`sideIps`),
within each scope of the rule set on its own (`scopeSets`); a side that is too large becomes a
summary (`capSides`); the products of sources, destinations and services become rows, each once,
until the limit on rows would be passed (`build`).

A set of texts is a list here, of which only the members count.
-/

set_option autoImplicit false

namespace IllumioOps.Policy

/-! ## Rules -/

/-- What an actor names; an empty text stands for a reference that is missing. -/
inductive ActorRef where
  | ams
  | label (href : String)
  | labelGroup (href : String)
  | ipList (href : String)
  | workload (href : String)
  | ipAddress (value : String)
  | unknown
  deriving DecidableEq, Repr

/-- An actor of a rule, or an entry of a scope. -/
structure Actor where
  ref : ActorRef
  exclusion : Bool
  deriving DecidableEq, Repr

/-- An entry of `ingress_services` or `service_ports`: a port, a service or a protocol. -/
structure ServiceRef where
  port : Option Int
  toPort : Option Int
  proto : Option Int
  href : Option String
  deriving DecidableEq, Repr

/-- A port of a service of the PCE. -/
structure PortEntry where
  port : Option Int
  toPort : Option Int
  proto : Option Int
  deriving DecidableEq, Repr

structure Rule where
  href : String
  enabled : Bool
  override : Bool
  consumers : List Actor
  providers : List Actor
  unscopedConsumers : Bool
  ingressServices : List ServiceRef
  servicePorts : List ServiceRef
  useWorkloadSubnets : List String
  resolveProvidersAs : List String
  resolveConsumersAs : List String
  deriving DecidableEq, Repr

structure RuleSet where
  name : String
  enabled : Bool
  scopes : List (List Actor)
  rules : List Rule
  denyRules : List Rule
  deriving DecidableEq, Repr

/-- The references that the PCE holds, of each kind. -/
structure Known where
  label : List String
  labelGroup : List String
  ipList : List String
  workload : List String

structure Lookups where
  labelToIps : String → List String
  labelGroupToLabels : String → List String
  iplistToCidrs : String → List String
  workloadToIps : List (String × List String)
  labelKeys : Option (String → Option String)
  known : Option Known
  ipToSubnet : String → Option String
  serviceToPorts : String → List PortEntry
  serviceToNames : String → Option String

/-! ## Actors as addresses -/

inductive ActorKind where
  | any
  | allWorkloads
  | label
  | labelGroup
  | ipList
  | workload
  | ipAddress
  | unknown
  deriving DecidableEq, Repr

namespace Lookups

variable (lk : Lookups)

def groupIps (href : String) : List String := (lk.labelGroupToLabels href).flatMap lk.labelToIps

def workloadIps (href : String) : List String := (lk.workloadToIps.lookup href).getD []

/-- `_all_workloads` -/
def allWorkloads : List String := lk.workloadToIps.flatMap Prod.snd

/-- `_unknown` -/
def isUnknown (actor : Actor) : Bool :=
  match lk.known with
  | none => false
  | some known =>
      match actor.ref with
      | .label href => href ∉ known.label
      | .labelGroup href => href ∉ known.labelGroup
      | .ipList href => href ∉ known.ipList
      | .workload href => href ∉ known.workload
      | .ams | .ipAddress _ | .unknown => false

/-- `_actor_ips` -/
def actorIps (actor : Actor) : List String :=
  match actor.ref with
  | .ams => lk.allWorkloads
  | .label href => lk.labelToIps href
  | .labelGroup href => lk.groupIps href
  | .ipList href => lk.iplistToCidrs href
  | .workload href => lk.workloadIps href
  | .ipAddress value => if value = "" then [] else [value]
  | .unknown => []

/-- The label dimension of a label or a label group; `other` when the keys are not known. -/
def keyOf (href other : String) : String :=
  match lk.labelKeys with
  | some keys => (keys href).getD href
  | none => other

end Lookups

/-- The kind that `_actor_ips` gives. -/
def ActorRef.kind : ActorRef → ActorKind
  | .ams => .allWorkloads
  | .label _ => .label
  | .labelGroup _ => .labelGroup
  | .ipList _ => .ipList
  | .workload _ => .workload
  | .ipAddress _ => .ipAddress
  | .unknown => .unknown

/-- The reference of a label or a label group. -/
def ActorRef.labelHref : ActorRef → Option String
  | .label href => some href
  | .labelGroup href => some href
  | _ => none

/-- The sets under each key, keys in the order they are first met. -/
def groupByKey (entries : List (String × List String)) : List (List String) :=
  (entries.map Prod.fst).eraseDups.map fun key =>
    (entries.filter fun e => e.1 = key).flatMap Prod.snd

/-- `set.intersection` of the sets, of which there is one at least. -/
def intersection : List (List String) → List String
  | [] => []
  | s :: rest => s.filter fun ip => rest.all fun t => ip ∈ t

/-! ## Scopes -/

/-- The label entries that are not excluded, by key. Without known keys every label is its own. -/
def scopeEntries (lk : Lookups) (scope : List Actor) : List (String × List String) :=
  scope.filterMap fun e =>
    if e.exclusion then none
    else e.ref.labelHref.map fun href => (lk.keyOf href href, lk.actorIps e)

/-- The addresses of the label entries that are excluded. -/
def scopeExclusions (lk : Lookups) (scope : List Actor) : List String :=
  (scope.filter fun e => e.exclusion ∧ e.ref.labelHref.isSome).flatMap lk.actorIps

/-- One turn of the loop of `_scope_sets`; without a set, the scope is taken as not narrowed. -/
def scopeSet (lk : Lookups) (scope : List Actor) : Option (List String) :=
  let byKey := groupByKey (scopeEntries lk scope)
  let exc := scopeExclusions lk scope
  if byKey = [] ∧ exc = [] then none
  else some ((intersection byKey).filter (· ∉ exc))

/-- `_scope_sets` -/
def scopeSets (lk : Lookups) (scopes : List (List Actor)) : Option (List (List String)) :=
  match scopes.mapM (scopeSet lk) with
  | some [] => none
  | sets => sets

/-! ## Sides -/

/-- The label actors of a side that are not excluded, by key. Without known keys all share one. -/
def sideEntries (lk : Lookups) (actors : List Actor) : List (String × List String) :=
  actors.filterMap fun a =>
    if a.exclusion then none
    else a.ref.labelHref.map fun href => (lk.keyOf href "", lk.actorIps a)

/-- The addresses of the actors of some kinds that are not excluded. -/
def included (lk : Lookups) (actors : List Actor) (kinds : List ActorKind) : List String :=
  (actors.filter fun a => ¬ a.exclusion ∧ a.ref.kind ∈ kinds).flatMap lk.actorIps

def excluded (lk : Lookups) (actors : List Actor) : List String :=
  (actors.filter Actor.exclusion).flatMap lk.actorIps

/-- The workload addresses of a side before they become networks: labels, workloads and All
Workloads, within the scope. -/
def workloadPart (lk : Lookups) (actors : List Actor) (scopeIps : Option (List String)) :
    List String :=
  let named := included lk actors [.workload]
  let all :=
    match scopeIps with
    | none => included lk actors [.allWorkloads]
    | some scope =>
        if actors.any fun a => ¬ a.exclusion ∧ a.ref = .ams then scope else []
  let part := intersection (groupByKey (sideEntries lk actors)) ++ (named ++ all)
  match scopeIps with
  | none => part
  | some scope => part.filter (· ∈ scope)

/-- `sorted` of a set -/
def sortedSet (texts : List String) : List String := texts.dedup.insertionSort (· ≤ ·)

/-- The kind of the last actor that is not excluded. -/
def sideKind (actors : List Actor) : ActorKind :=
  ((actors.filter fun a => ¬ a.exclusion).getLast?.map fun a => a.ref.kind).getD .any

/-- `_side_ips` -/
def sideIps (lk : Lookups) (actors : List Actor) (scopeIps : Option (List String))
    (subnets : Bool) : List String × ActorKind :=
  if actors = [] then (["ANY"], .any)
  else
    let part := workloadPart lk actors scopeIps
    let workloads := if subnets then part.map fun ip => (lk.ipToSubnet ip).getD ip else part
    let explicit := included lk actors [.ipList, .ipAddress, .unknown]
    let out := subtract (sortedSet workloads ++ sortedSet (explicit.filter (· ∉ workloads)))
      (excluded lk actors)
    (out.eraseDups, sideKind actors)

/-! ## Services -/

/-- A port of a row: a number, any port, or a text for a service that has none. -/
inductive Port where
  | any
  | number (n : Int)
  | without (service : String)
  deriving DecidableEq, Repr

structure Service where
  port : Port
  portTo : Option Int
  protocol : String
  name : String
  deriving DecidableEq, Repr

/-- `_proto_name` -/
def protoName : Option Int → String
  | none => "ANY"
  | some 6 => "TCP"
  | some 17 => "UDP"
  | some 1 => "ICMP"
  | some 58 => "ICMPv6"
  | some 47 => "GRE"
  | some 50 => "ESP"
  | some (-1) => "ANY"
  | some n => toString n

/-- `port_to` is left out when it is missing or zero. -/
def portTo (toPort : Option Int) : Option Int := toPort.filter (· ≠ 0)

/-- The services that one entry stands for. -/
def serviceEntry (lk : Lookups) (s : ServiceRef) : List Service :=
  match s.port, s.href, s.proto with
  | some port, _, _ => [⟨.number port, portTo s.toPort, protoName s.proto, ""⟩]
  | none, some href, _ =>
      let name := (lk.serviceToNames href).getD href
      match lk.serviceToPorts href with
      | [] => [⟨.without name, none, "", name⟩]
      | ports => ports.map fun p =>
          ⟨p.port.elim .any .number, portTo p.toPort, protoName p.proto, name⟩
  | none, none, some proto => [⟨.any, none, protoName (some proto), ""⟩]
  | none, none, none => []

/-- `_services` -/
def services (lk : Lookups) (rule : Rule) : List Service :=
  match rule.ingressServices ++ rule.servicePorts with
  | [] => [⟨.any, none, "ANY", ""⟩]
  | refs => refs.flatMap (serviceEntry lk)

/-! ## Products -/

inductive Side where
  | src
  | dst
  deriving DecidableEq, Repr

inductive Action where
  | allow
  | deny
  | overrideDeny
  deriving DecidableEq, Repr

/-- `_MAX_RULE_PAIRS` -/
def maxRulePairs : Nat := 100000

/-- `_summary_token` -/
def summaryToken (n : Nat) : String := "<" ++ toString n ++ " hosts: expansion capped>"

/-- `_cap_sides`: the larger side is summarized first, then the other one if that is not enough. -/
def capSides (srcs dsts : List String) (services : Nat) :
    List String × List String × List Side :=
  let per := max services 1
  if srcs.length * dsts.length * per ≤ maxRulePairs then (srcs, dsts, [])
  else if dsts.length ≤ srcs.length then
    let token := [summaryToken srcs.length]
    if maxRulePairs < token.length * dsts.length * per then
      (token, [summaryToken dsts.length], [.src, .dst])
    else (token, dsts, [.src])
  else
    let token := [summaryToken dsts.length]
    if maxRulePairs < srcs.length * token.length * per then
      ([summaryToken srcs.length], token, [.dst, .src])
    else (srcs, token, [.dst])

/-- The sources, destinations and services of one rule in one scope, after the cap. -/
structure Product where
  ruleHref : String
  action : Action
  srcs : List String
  dsts : List String
  services : List Service
  srcKind : ActorKind
  dstKind : ActorKind
  truncated : List Side
  deriving DecidableEq, Repr

structure Row where
  rulesetName : String
  ruleHref : String
  action : Action
  srcIp : String
  dstIp : String
  port : Port
  portTo : Option Int
  protocol : String
  srcKind : ActorKind
  dstKind : ActorKind
  serviceName : String
  truncated : List Side
  deriving DecidableEq, Repr

/-- What makes two rows the same. -/
structure RowKey where
  ruleHref : String
  action : Action
  srcIp : String
  dstIp : String
  port : Port
  portTo : Option Int
  protocol : String
  deriving DecidableEq, Repr

def Row.key (r : Row) : RowKey :=
  ⟨r.ruleHref, r.action, r.srcIp, r.dstIp, r.port, r.portTo, r.protocol⟩

namespace Product

def size (p : Product) : Nat := p.srcs.length * p.dsts.length * p.services.length

/-- The rows of a product, in the order of the loops. -/
def rows (name : String) (p : Product) : List Row :=
  p.services.flatMap fun svc => p.srcs.flatMap fun src => p.dsts.map fun dst =>
    ⟨name, p.ruleHref, p.action, src, dst, svc.port, svc.portTo, svc.protocol, p.srcKind, p.dstKind,
      svc.name, p.truncated⟩

end Product

/-- The consumers of a rule in a scope, which narrows them unless they are unscoped. -/
def consumerSide (lk : Lookups) (rule : Rule) (scopeIps : Option (List String)) :
    List String × ActorKind :=
  sideIps lk rule.consumers (if rule.unscopedConsumers then none else scopeIps)
    ("consumers" ∈ rule.useWorkloadSubnets)

def providerSide (lk : Lookups) (rule : Rule) (scopeIps : Option (List String)) :
    List String × ActorKind :=
  sideIps lk rule.providers scopeIps ("providers" ∈ rule.useWorkloadSubnets)

/-- The product of a rule in a scope; there is none when a side has no address. -/
def productIn (lk : Lookups) (rule : Rule) (action : Action) (scopeIps : Option (List String)) :
    Option Product :=
  let (srcs, srcKind) := consumerSide lk rule scopeIps
  let (dsts, dstKind) := providerSide lk rule scopeIps
  if srcs = [] ∨ dsts = [] then none
  else
    let svcs := services lk rule
    let (srcs, dsts, truncated) := capSides srcs dsts svcs.length
    some ⟨rule.href, action, srcs, dsts, svcs, srcKind, dstKind, truncated⟩

/-- The scopes in which a rule is expanded; a rule set that is not scoped has one without a set. -/
def scopeChoices : Option (List (List String)) → List (Option (List String))
  | none => [none]
  | some sets => sets.map some

/-- The products of a rule, one for each scope in which both sides have an address. -/
def products (lk : Lookups) (scopes : Option (List (List String))) (rule : Rule)
    (action : Action) : List Product :=
  (scopeChoices scopes).filterMap (productIn lk rule action)

/-! ## The rows of a rule set -/

inductive Issue where
  | virtualServices
  | unknownReference
  deriving DecidableEq, Repr

/-- Why a rule cannot be expanded faithfully, if so. -/
def issueOf (lk : Lookups) (scopeUnknown : Bool) (rule : Rule) : Option Issue :=
  if "virtual_services" ∈ rule.resolveProvidersAs ∨ "virtual_services" ∈ rule.resolveConsumersAs then
    some .virtualServices
  else if scopeUnknown ∨ (rule.consumers ++ rule.providers).any lk.isUnknown then
    some .unknownReference
  else none

structure Resolution where
  rows : List Row
  omitted : Nat
  notExpanded : List (String × Issue)
  noAddress : List String

/-- A row is added unless there is one with its key. -/
def addRow (rows : List Row) (row : Row) : List Row :=
  if row.key ∈ rows.map Row.key then rows else rows ++ [row]

/-- A product that would pass the limit is counted; any other is built. -/
def build (name : String) (limit : Option Nat) (r : Resolution) (p : Product) : Resolution :=
  if limit.any fun l => l < r.rows.length + p.size then { r with omitted := r.omitted + p.size }
  else { r with rows := (p.rows name).foldl addRow r.rows }

/-- One rule: it is skipped, disclosed or expanded. -/
def expandRule (lk : Lookups) (rs : RuleSet) (limit : Option Nat) (r : Resolution)
    (rule : Rule × Action) : Resolution :=
  if ¬ rule.1.enabled then r
  else
    match issueOf lk (rs.scopes.any fun scope => scope.any lk.isUnknown) rule.1 with
    | some issue => { r with notExpanded := r.notExpanded ++ [(rule.1.href, issue)] }
    | none =>
        let made := products lk (scopeSets lk rs.scopes) rule.1 rule.2
        let built := made.foldl (build rs.name limit) r
        if made = [] then { built with noAddress := built.noAddress ++ [rule.1.href] } else built

/-- The rules of a rule set, each with its action. -/
def RuleSet.actions (rs : RuleSet) : List (Rule × Action) :=
  (rs.rules.map fun rule => (rule, .allow)) ++
    rs.denyRules.map fun rule => (rule, if rule.override then .overrideDeny else .deny)

/-- `resolve_ruleset_within` -/
def resolveRulesetWithin (lk : Lookups) (rs : RuleSet) (limit : Option Nat) : Resolution :=
  if ¬ rs.enabled then ⟨[], 0, [], []⟩
  else rs.actions.foldl (expandRule lk rs limit) ⟨[], 0, [], []⟩

end IllumioOps.Policy
