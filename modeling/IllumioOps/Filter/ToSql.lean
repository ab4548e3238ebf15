import IllumioOps.Store.Tables
import IllumioOps.Sql.Meaning

/-!
# The filter as a `WHERE` clause over the flow store

`toSql` writes the clauses in the order of the source, each with the values of its
placeholders. The row's alias is `f`.
-/

set_option autoImplicit false

namespace IllumioOps

open IllumioOps.Sql (asciiLower Value TermPiece Piece QueryPiece)

/-! ## Columns -/

/-- A column of the filtered row. -/
def column (c : String) : TermPiece := .col "f" c

namespace Side

def ip : Side → String
  | .src => "src_ip"
  | .dst => "dst_ip"

def href : Side → String
  | .src => "src_href"
  | .dst => "dst_href"

def labelSet : Side → String
  | .src => "src_label_set"
  | .dst => "dst_label_set"

end Side

/-- `COALESCE(f.<side>_label_set, -1)`. -/
def labelSetColumn (side : Side) : TermPiece :=
  (column side.labelSet).coalesce (.lit (.int (-1)))

/-- `COALESCE(f.port, -1)`. -/
def portColumn : TermPiece := (column "port").coalesce (.lit (.int (-1)))

/-- `<expr> IN (?, .., ?)` with text values. -/
def inTexts (t : TermPiece) (values : List String) : Piece := .oneOf t (values.map .text)

/-! ## One endpoint -/

/-- One listed label condition: the end's label set is among those that meet it. -/
def sqlLabelCond (side : Side) (c : LabelCond) : Piece :=
  .inQuery (labelSetColumn side)
    (.select (.col "m" "set_id") "label_set_members" "m"
      ((Piece.eq (.col "m" "key") (.param (.text c.key))).and
        (inTexts (.col "m" "value") c.values)))

/-- `sorted(set(..))` -/
def sortedSet (xs : List String) : List String := xs.dedup.insertionSort (· ≤ ·)

/-- The listed `(key, value)` pairs. -/
def labelPairs (ep : EndpointFilter) : List (String × String) :=
  ep.labels.flatMap fun c => c.values.map fun v => (c.key, v)

/-- The groups' members and the listed pairs. -/
def sqlAllowed (ep : EndpointFilter) : QueryPiece :=
  (labelPairs ep).foldl (fun q p => q.unionAll (.rowPair (.text p.1) (.text p.2)))
    (.selectPair (.col "g" "key") (.col "g" "value") "label_group_members" "g"
      (inTexts (.col "g" "href") (sortedSet ep.labelGroups)))

/-- The groups' keys and the listed keys. -/
def sqlKeys (ep : EndpointFilter) : QueryPiece :=
  (sortedSet (ep.labels.map LabelCond.key)).foldl (fun q k => q.union (.row (.text k)))
    (.select (.col "g" "key") "label_groups" "g"
      (inTexts (.col "g" "href") (sortedSet ep.labelGroups)))

/-- The labels part when it names label groups: every named group exists, and the
end's label set holds, for each key, one of that key's allowed values. -/
def sqlLabelsWithGroups (ep : EndpointFilter) (side : Side) : Piece :=
  (Piece.countEq
      (.select (.lit (.int 1)) "label_groups" "g"
        (inTexts (.col "g" "href") (sortedSet ep.labelGroups)))
      (sortedSet ep.labelGroups).length).and
    (.inQuery (labelSetColumn side)
      (.having (.col "m" "set_id") (.col "m" "key") "label_set_members" "m"
        (.inQueryPair (.col "m" "key") (.col "m" "value") (sqlAllowed ep)) (sqlKeys ep)))

/-- The labels part, when there is one. -/
def sqlLabels (ep : EndpointFilter) (side : Side) : List Piece :=
  if ep.labelGroups ≠ [] then [sqlLabelsWithGroups ep side]
  else if ep.labels ≠ [] then [.all (ep.labels.map (sqlLabelCond side))]
  else []

def sqlInNet (side : Side) (net : String) : Piece :=
  .eq (.apply₂ "ip_in_net" (column side.ip) (.param (.text net))) (.lit (.int 1))

def sqlIpLists (side : Side) (hrefs : List String) : Piece :=
  .existsRow (.select (.lit (.int 1)) "ip_list_nets" "n"
    ((inTexts (.col "n" "href") hrefs).and
      (.eq (.apply₂ "ip_in_net" (column side.ip) (.col "n" "net")) (.lit (.int 1)))))

def sqlOutside (side : Side) : Piece :=
  .eq (.apply₂ "is_outside" (column side.ip) (column side.href)) (.lit (.int 1))

/-- The host parts: hrefs first, then the addresses. -/
def sqlAddresses (ep : EndpointFilter) (side : Side) : List Piece :=
  (if ep.hrefs ≠ [] then
    [inTexts ((column side.href).coalesce (.lit (.text ""))) ep.hrefs] else []) ++
  (if ep.exactIps ≠ [] then [inTexts (column side.ip) ep.exactIps] else []) ++
  ep.netIps.map (sqlInNet side) ++
  (if ep.ipLists ≠ [] then [sqlIpLists side ep.ipLists] else []) ++
  (if ep.isPublic then [sqlOutside side] else [])

/-- The parts of one endpoint, ORed — or labels AND hosts for `match = all`. -/
def sqlSide (ep : EndpointFilter) (side : Side) : Piece :=
  let addresses := sqlAddresses ep side
  let parts := sqlLabels ep side ++ if addresses ≠ [] then [Piece.any addresses] else []
  if parts = [] then .one
  else match ep.matchMode with
    | .all => .all parts
    | .any => .any parts

/-! ## Ports, services, sets, texts -/

def sqlProto : Option Int → List Piece
  | none => []
  | some proto => [.eq (column "proto") (.param (.int proto))]

def sqlPortRange (port toPort : Option Int) : List Piece :=
  match toPort, port with
  | some hi, port => [.between portColumn (.param (.ofInt port)) (.param (.int hi))]
  | none, some port => [.eq portColumn (.param (.int port))]
  | none, none => []

def sqlPort (p : PortProto) : Piece := .all (sqlProto p.proto ++ sqlPortRange p.port p.toPort)

def sqlServices (hrefs : List String) : Piece :=
  .existsRow (.select (.lit (.int 1)) "pce_service_ports" "s"
    (((inTexts (.col "s" "href") hrefs).and
      ((Piece.isNull (.col "s" "proto")).or (.eq (.col "s" "proto") (column "proto")))).and
      ((Piece.isNull (.col "s" "port")).or
        (.between portColumn (.col "s" "port")
          ((TermPiece.col "s" "to_port").coalesce (.col "s" "port"))))))

/-- `_sql_in`; negated, a missing value is not left out. -/
def sqlIn (t : TermPiece) (values : List String) (negate : Bool) : Piece :=
  if negate then (inTexts t values).coalesceZero.not else inTexts t values

/-- `_sql_user`: the column, its ASCII letters folded when it is a domain account. -/
def sqlUser (c : String) : TermPiece :=
  .caseWhen
    ((Piece.gt ((column c).instr (.lit (.text "\\"))) (.lit (.int 0))).or
      (.gt ((column c).instr (.lit (.text "@"))) (.lit (.int 0))))
    (column c).lower (column c)

def sqlLike (c term : String) : Piece :=
  .like (column c) (.param (.text (String.ofList (likePattern term))))

def textColumns : List String :=
  ["src_hostname", "dst_hostname", "src_ip", "dst_ip", "initiator_process", "initiator_user",
    "service_process", "service_user"]

/-! ## The whole filter -/

/-- The clause of an endpoint condition that is set and not empty. -/
def sqlEndpoint (ep : Option EndpointFilter) (negate : Bool) (clause : EndpointFilter → Piece) :
    List Piece :=
  match ep with
  | none => []
  | some ep => if ep.isEmpty then [] else [if negate then (clause ep).not else clause ep]

def sqlEither (ep : EndpointFilter) : Piece := (sqlSide ep .src).or (sqlSide ep .dst)

/-- The listed ports and the services, one set. -/
def sqlPortSet (ports : List PortProto) (services : List String) (negate : Bool) : List Piece :=
  let terms := ports.map sqlPort ++ if services ≠ [] then [sqlServices services] else []
  if terms = [] then [] else [if negate then (Piece.any terms).not else .any terms]

/-- One column's partial match (an empty term is none) and exact set. -/
def sqlColumn (c : String) (term : Option String) (expr : TermPiece) (values : List String) :
    List Piece :=
  (if term.getD "" ≠ "" then [sqlLike c (term.getD "")] else []) ++
    if values ≠ [] then [inTexts expr values] else []

section ToSql

variable (u : Unicode)

/-- The clauses of a filter, in the order they are written. -/
def FilterSpec.sqlClauses (spec : FilterSpec) : List Piece :=
  [.eq (column "is_primary") (.lit (.int 1)),
    .ge (column "last_detected") (.param (.int (dbTime spec.start))),
    .le (column "first_detected") (.param (.int (dbTime spec.stop)))] ++
  sqlEndpoint spec.src false (fun ep => sqlSide ep .src) ++
  sqlEndpoint spec.dst false (fun ep => sqlSide ep .dst) ++
  sqlEndpoint spec.srcExclude true (fun ep => sqlSide ep .src) ++
  sqlEndpoint spec.dstExclude true (fun ep => sqlSide ep .dst) ++
  sqlEndpoint spec.either false sqlEither ++
  sqlEndpoint spec.eitherExclude true sqlEither ++
  sqlPortSet spec.ports spec.services false ++
  sqlPortSet spec.excludePorts spec.excludeServices true ++
  (if spec.windowsServices ≠ [] then
    [sqlIn (column "windows_service").lower (spec.windowsServices.map asciiLower) false]
    else []) ++
  (if spec.excludeWindowsServices ≠ [] then
    [sqlIn (column "windows_service").lower (spec.excludeWindowsServices.map asciiLower) true]
    else []) ++
  (if spec.transmissions ≠ [] then
    [sqlIn (column "transmission").lower (spec.transmissions.map Transmission.value) false]
    else []) ++
  (if spec.excludeTransmissions ≠ [] then
    [sqlIn (column "transmission").lower (spec.excludeTransmissions.map Transmission.value) true]
    else []) ++
  (if spec.excludeProcesses ≠ [] then
    [sqlIn (column "initiator_process") spec.excludeProcesses true,
      sqlIn (column "service_process") spec.excludeProcesses true]
    else []) ++
  (if spec.decisions ≠ [] then
    [inTexts (column "policy_decision") (spec.decisions.map PolicyDecision.value)] else []) ++
  sqlColumn "initiator_process" spec.initiatorProcess (column "initiator_process")
    spec.initiatorProcesses ++
  sqlColumn "initiator_user" spec.initiatorUser (sqlUser "initiator_user")
    (spec.initiatorUsers.map u.userKey) ++
  sqlColumn "service_process" spec.serviceProcess (column "service_process")
    spec.serviceProcesses ++
  sqlColumn "service_user" spec.serviceUser (sqlUser "service_user")
    (spec.serviceUsers.map u.userKey) ++
  (if spec.text.getD "" ≠ "" then
    [Piece.any (textColumns.map fun c => sqlLike c (spec.text.getD ""))] else []) ++
  if spec.excludeSystemAccounts then
    [.eq (.apply "is_system_account" (column "initiator_user")) (.lit (.int 0))] else []

/-- `to_sql`: the `WHERE` clause and its parameters. -/
def FilterSpec.toSql (spec : FilterSpec) : Piece := .all (spec.sqlClauses u)

/-- The scope of a query over `flows f`. -/
def FlowRow.scope (r : FlowRow) : Sql.Env := Sql.Env.bind (fun _ _ => .null) "f" r.sqlRow

/-- The row is selected by the clause under its parameters. -/
def FilterSpec.sqlSelects (spec : FilterSpec) (t : LookupTables) (addr : Addresses)
    (row : FlowRow) : Bool :=
  (spec.toSql u).1.eval (t.database u addr) row.scope (spec.toSql u).2 = some true

end ToSql

end IllumioOps
