import IllumioOps.Domain.Flows

/-!
# The flow filter and its test on one record

`FilterSpec` is a flow filter with its time window, `FlowView` the fields that the
filter reads from a stored row or a live record, `Lookups` what the IP lists, label
groups and services named by a filter stand for. `FilterSpec.matches` is the test on
one record.

An endpoint is a union of its parts by default; with `match = all` the labels and
the hosts must both hold. An exclusion never leaves out a record that lacks the value.
-/

set_option autoImplicit false

namespace IllumioOps

open IllumioOps.Sql (asciiLower)

/-! ## The specification -/

structure LabelCond where
  key : String
  values : List String
  key_ne : key ≠ ""
  values_ne : values ≠ []
  deriving DecidableEq

/-- The shape that a port condition is validated for. -/
def portShape (port toPort proto : Option Int) : Bool :=
  (port.isSome || proto.isSome) &&
    match toPort, port with
    | none, _ => true
    | some _, none => false
    | some t, some p => 0 ≤ p && p ≤ t

/-- A port (`-1`: the service has none), a range of ports, a protocol. -/
structure PortProto where
  port : Option Int
  toPort : Option Int
  proto : Option Int
  shape : portShape port toPort proto = true
  deriving DecidableEq

inductive MatchMode where
  | any
  | all
  deriving DecidableEq

structure EndpointFilter where
  labels : List LabelCond := []
  hrefs : List String := []
  ips : List String := []
  ipLists : List String := []
  isPublic : Bool := false
  matchMode : MatchMode := .any
  labelGroups : List String := []
  deriving DecidableEq

namespace EndpointFilter

def hasLabels (ep : EndpointFilter) : Bool := !ep.labels.isEmpty || !ep.labelGroups.isEmpty

def hasHosts (ep : EndpointFilter) : Bool :=
  !ep.hrefs.isEmpty || !ep.ips.isEmpty || !ep.ipLists.isEmpty || ep.isPublic

/-- Labels and hosts both set under `match = all`: an intersection, not the union. -/
def intersects (ep : EndpointFilter) : Bool :=
  ep.matchMode = .all && ep.hasLabels && ep.hasHosts

def isEmpty (ep : EndpointFilter) : Bool := !(ep.hasLabels || ep.hasHosts)

/-- `_split_ips`: the addresses without a prefix length. -/
def exactIps (ep : EndpointFilter) : List String := ep.ips.filter fun ip => '/' ∉ ip.toList

/-- `_split_ips`: the networks. -/
def netIps (ep : EndpointFilter) : List String := ep.ips.filter fun ip => '/' ∈ ip.toList

end EndpointFilter

/-- A flow filter without its time window. -/
structure FlowCondition where
  src : Option EndpointFilter := none
  dst : Option EndpointFilter := none
  srcExclude : Option EndpointFilter := none
  dstExclude : Option EndpointFilter := none
  ports : List PortProto := []
  excludePorts : List PortProto := []
  decisions : List PolicyDecision := []
  initiatorProcess : Option String := none
  initiatorUser : Option String := none
  serviceProcess : Option String := none
  serviceUser : Option String := none
  initiatorProcesses : List String := []
  initiatorUsers : List String := []
  serviceProcesses : List String := []
  serviceUsers : List String := []
  text : Option String := none
  excludeSystemAccounts : Bool := false
  either : Option EndpointFilter := none
  eitherExclude : Option EndpointFilter := none
  services : List String := []
  excludeServices : List String := []
  windowsServices : List String := []
  excludeWindowsServices : List String := []
  transmissions : List Transmission := []
  excludeTransmissions : List Transmission := []
  excludeProcesses : List String := []

/-- A filter for a window; its bounds are whole milliseconds. -/
structure FilterSpec extends FlowCondition where
  start : Int
  stop : Int
  start_ms : start % milliseconds 1 = 0
  stop_ms : stop % milliseconds 1 = 0
  window : start < stop

/-- `_start_ms`: a start finer than a millisecond moves inward to the next one. -/
def startMs (t : Int) : Int := -(dbTime (-t))

/-- `_end_ms`: an end finer than a millisecond moves inward. -/
def endMs (t : Int) : Int := dbTime t

theorem startMs_ms (t : Int) : startMs t % milliseconds 1 = 0 := by
  simp only [startMs, dbTime, milliseconds]
  omega

theorem endMs_ms (t : Int) : endMs t % milliseconds 1 = 0 := by
  simp only [endMs, dbTime, milliseconds]
  omega

/-- `FlowCondition.within`: none when the window is empty. -/
def FlowCondition.within (cond : FlowCondition) (start stop : Int) : Option FilterSpec :=
  if h : startMs start < endMs stop then
    some { cond with
      start := startMs start
      stop := endMs stop
      start_ms := startMs_ms start
      stop_ms := endMs_ms stop
      window := h }
  else none

/-! ## The fields a filter reads -/

inductive Side where
  | src
  | dst
  deriving DecidableEq

/-- One end of a flow. -/
structure EndView where
  ip : String
  href : Option String
  hostname : Option String
  labels : String → Option String

/-- The fields the filter reads, from a stored row or a live record. -/
structure FlowView where
  isPrimary : Bool
  src : EndView
  dst : EndView
  port : Option Int
  proto : Int
  policyDecision : String
  initiatorProcess : Option String
  initiatorUser : Option String
  serviceProcess : Option String
  serviceUser : Option String
  windowsService : Option String
  transmission : Option String
  firstDetected : Int
  lastDetected : Int

def FlowView.side (v : FlowView) : Side → EndView
  | .src => v.src
  | .dst => v.dst

/-- The text columns that `text` searches. -/
def FlowView.texts (v : FlowView) : List (Option String) :=
  [v.src.hostname, v.dst.hostname, some v.src.ip, some v.dst.ip, v.initiatorProcess,
    v.initiatorUser, v.serviceProcess, v.serviceUser]

/-- `dict(pairs)[key]`: the last pair of a key wins. -/
def dictGet (pairs : List (String × String)) (key : String) : Option String :=
  pairs.reverse.lookup key

/-- `_view` of a live record. -/
def FlowRecord.view (r : FlowRecord) : FlowView :=
  let outbound := r.direction = .outbound
  let process := r.ownProcess.map Subtype.val
  let user := r.ownUser.map Subtype.val
  { isPrimary := true
    src := { ip := r.srcIp, href := r.srcHref, hostname := r.srcHostname,
             labels := dictGet r.srcLabels }
    dst := { ip := r.dstIp, href := r.dstHref, hostname := r.dstHostname,
             labels := dictGet r.dstLabels }
    port := r.port
    proto := r.proto
    policyDecision := r.policyDecision
    initiatorProcess := if outbound then process else none
    initiatorUser := if outbound then user else none
    serviceProcess := if outbound then none else process
    serviceUser := if outbound then none else user
    windowsService := r.windowsService
    transmission := r.transmission
    firstDetected := r.firstDetected
    lastDetected := r.lastDetected }

/-- A service's ports; an absent bound or protocol is any. -/
structure PortEntry where
  port : Option Int
  toPort : Option Int
  proto : Option Int
  deriving DecidableEq

/-- What the IP lists, label groups and services of a filter stand for. -/
structure Lookups where
  ipLists : String → List String
  labelGroups : String → Option (String × List String)
  services : String → List PortEntry

/-! ## Partial matches -/

/-- Partial match by default; `*` anchors and stands for any run of characters. -/
def likePattern (term : String) : List Char :=
  let escaped := term.toList.flatMap fun c =>
    if c = '\\' ∨ c = '%' ∨ c = '_' then ['\\', c] else [c]
  if '*' ∈ term.toList then escaped.map fun c => if c = '*' then '%' else c
  else '%' :: (escaped ++ ['%'])

/-- What one element of the compiled pattern matches. -/
inductive LikeToken where
  | run
  | one
  | char (c : Char)
  deriving DecidableEq

/-- `_like_regex`: an escaped character stands for itself. -/
def likeRegex : List Char → List LikeToken
  | [] => []
  | '\\' :: c :: p => .char c :: likeRegex p
  | '%' :: p => .run :: likeRegex p
  | '_' :: p => .one :: likeRegex p
  | c :: p => .char c :: likeRegex p

/-- `fullmatch` with ASCII case folding. -/
def fullmatch : List LikeToken → List Char → Bool
  | [], s => s.isEmpty
  | .run :: p, s => s.tails.any (fullmatch p)
  | .one :: _, [] => false
  | .one :: p, _ :: s => fullmatch p s
  | .char _ :: _, [] => false
  | .char c :: p, d :: s => c.toLower == d.toLower && fullmatch p s

def like (value : Option String) (term : String) : Bool :=
  match value with
  | none => false
  | some v => fullmatch (likeRegex (likePattern term)) v.toList

/-! ## The test on one record -/

section Matches

variable (u : Unicode) (addr : Addresses) (look : Lookups)

/-- The values that a key may hold: its listed values and its groups' members. -/
def allowedValues (ep : EndpointFilter) (key : String) : List String :=
  (ep.labels.filter fun c => c.key = key).flatMap LabelCond.values ++
    ep.labelGroups.flatMap fun h =>
      match look.labelGroups h with
      | some (k, members) => if k = key then members else []
      | none => []

/-- The keys of the labels part. -/
def allowedKeys (ep : EndpointFilter) : List String :=
  ep.labels.map LabelCond.key ++
    ep.labelGroups.filterMap fun h => (look.labelGroups h).map Prod.fst

/-- Every key holds one of its allowed values; a missing group matches nothing. -/
def labelsHold (ep : EndpointFilter) (labels : String → Option String) : Bool :=
  (ep.labelGroups.all fun h => (look.labelGroups h).isSome) &&
    (allowedKeys look ep).all fun k =>
      match labels k with
      | none => false
      | some value => value ∈ allowedValues look ep k

/-- The host parts: an href, an address, a network, a public address, an IP list. -/
def hostsHold (ep : EndpointFilter) (e : EndView) : Bool :=
  (e.href.getD "" ∈ ep.hrefs) || (e.ip ∈ ep.exactIps) ||
    (ep.netIps.any fun n => addr.ipInNet e.ip n) || (ep.isPublic && addr.outside e.ip e.href) ||
    ((ep.ipLists.flatMap look.ipLists).any fun n => addr.ipInNet e.ip n)

/-- How the parts of an endpoint combine: `(the part is set, the end satisfies it)`. -/
def combineParts (mode : MatchMode) (held : List (Bool × Bool)) : Bool :=
  match mode with
  | .all => (held.filter Prod.fst).all Prod.snd
  | .any => (held.filter Prod.fst).any Prod.snd

def sideMatches (ep : EndpointFilter) (v : FlowView) (side : Side) : Bool :=
  combineParts ep.matchMode
    [(ep.hasLabels, ep.hasLabels && labelsHold look ep (v.side side).labels),
      (ep.hasHosts, hostsHold addr look ep (v.side side))]

/-- A record without a port has port `-1`. -/
def portOrNone (v : FlowView) : Int := v.port.getD (-1)

/-- An absent protocol is any. -/
def protoHolds (proto : Option Int) (v : FlowView) : Bool :=
  match proto with
  | none => true
  | some proto => v.proto = proto

/-- A range of ports, one port, or any. -/
def portRangeHolds (port toPort : Option Int) (v : FlowView) : Bool :=
  match toPort, port with
  | some hi, some lo => lo ≤ portOrNone v && portOrNone v ≤ hi
  | some _, none => false
  | none, some port => portOrNone v = port
  | none, none => true

def portMatches (p : PortProto) (v : FlowView) : Bool :=
  protoHolds p.proto v && portRangeHolds p.port p.toPort v

def entryMatches (v : FlowView) (e : PortEntry) : Bool :=
  protoHolds e.proto v &&
    match e.port with
    | none => true
    | some lo => lo ≤ portOrNone v && portOrNone v ≤ e.toPort.getD lo

def serviceMatches (entries : List PortEntry) (v : FlowView) : Bool := entries.any (entryMatches v)

def serviceSet (ports : List PortProto) (services : List String) (v : FlowView) : Bool :=
  (ports.any fun p => portMatches p v) ||
    services.any fun h => serviceMatches (look.services h) v

/-- `_in_ci`: membership up to ASCII case; a missing value is in no set. -/
def inCi (value : Option String) (values : List String) : Bool :=
  match value with
  | none => false
  | some v => asciiLower v ∈ values.map asciiLower

/-- An endpoint condition that is set and not empty holds, or does not when negated. -/
def endpointPasses (ep : Option EndpointFilter) (negate : Bool)
    (met : EndpointFilter → Bool) : Bool :=
  match ep with
  | none => true
  | some ep => ep.isEmpty || met ep != negate

/-- A named process is one of the set. -/
def oneOf (value : Option String) (values : List String) : Bool :=
  match value with
  | none => false
  | some v => v ∈ values

/-- A named account is one of the set, domain accounts up to case. -/
def userOneOf (value : Option String) (values : List String) : Bool :=
  match value with
  | none => false
  | some v => u.userKey v ∈ values.map u.userKey

/-- One column's partial match (an empty term is none) and exact set. -/
def columnPasses (value : Option String) (term : Option String) (values : List String)
    (isOneOf : Option String → List String → Bool) : Bool :=
  (term.getD "" = "" || like value (term.getD "")) && (values.isEmpty || isOneOf value values)

/-- `matches`: the whole filter on one record. -/
def FilterSpec.matches (spec : FilterSpec) (v : FlowView) : Bool :=
  v.isPrimary &&
  !(v.lastDetected < spec.start || spec.stop < v.firstDetected) &&
  endpointPasses spec.src false (fun ep => sideMatches addr look ep v .src) &&
  endpointPasses spec.dst false (fun ep => sideMatches addr look ep v .dst) &&
  endpointPasses spec.srcExclude true (fun ep => sideMatches addr look ep v .src) &&
  endpointPasses spec.dstExclude true (fun ep => sideMatches addr look ep v .dst) &&
  endpointPasses spec.either false
    (fun ep => sideMatches addr look ep v .src || sideMatches addr look ep v .dst) &&
  endpointPasses spec.eitherExclude true
    (fun ep => sideMatches addr look ep v .src || sideMatches addr look ep v .dst) &&
  (spec.ports.isEmpty && spec.services.isEmpty || serviceSet look spec.ports spec.services v) &&
  !serviceSet look spec.excludePorts spec.excludeServices v &&
  (spec.windowsServices.isEmpty || inCi v.windowsService spec.windowsServices) &&
  !inCi v.windowsService spec.excludeWindowsServices &&
  (spec.transmissions.isEmpty ||
    inCi v.transmission (spec.transmissions.map Transmission.value)) &&
  !inCi v.transmission (spec.excludeTransmissions.map Transmission.value) &&
  !(oneOf v.initiatorProcess spec.excludeProcesses ||
    oneOf v.serviceProcess spec.excludeProcesses) &&
  (spec.decisions.isEmpty || v.policyDecision ∈ spec.decisions.map PolicyDecision.value) &&
  columnPasses v.initiatorProcess spec.initiatorProcess spec.initiatorProcesses oneOf &&
  columnPasses v.initiatorUser spec.initiatorUser spec.initiatorUsers (userOneOf u) &&
  columnPasses v.serviceProcess spec.serviceProcess spec.serviceProcesses oneOf &&
  columnPasses v.serviceUser spec.serviceUser spec.serviceUsers (userOneOf u) &&
  (spec.text.getD "" = "" || v.texts.any fun t => like t (spec.text.getD "")) &&
  !(spec.excludeSystemAccounts && u.isSystemAccount v.initiatorUser)

end Matches

end IllumioOps
