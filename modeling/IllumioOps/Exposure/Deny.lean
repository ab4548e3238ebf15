import IllumioOps.Exposure.Reach
import IllumioOps.Filter.Spec

/-!
# Suggested cuts and deny proposals

`suggest_cuts` of `domain.exposure` counts who would still reach a target without one edge, or without
the edges into one host. `apply_deny` of `domain.deny` takes from the connections those that a deny
rule matches, through the tests of the flow filter. For the proposal that a cut is turned into, both
leave the same edges, so the simulation repeats the numbers of the cut (`cut_simulated`).
-/

set_option autoImplicit false

namespace IllumioOps.Exposure

open Graphs Tables

/-! ## One end and one service against the filter -/

/-- No IP list, label group or service is known. -/
def noLookups : Lookups where
  ipLists := fun _ => []
  labelGroups := fun _ => none
  services := fun _ => []

/-- One endpoint condition on one end: a host's href, address and labels. -/
def endpointMatches (addr : Addresses) (ep : EndpointFilter) (href : Option String) (ip : String)
    (labels : String → Option String) : Bool :=
  combineParts ep.matchMode
    [(ep.hasLabels, ep.hasLabels && labelsHold noLookups ep labels),
      (ep.hasHosts, hostsHold addr noLookups ep ⟨ip, href, none, labels⟩)]

/-- It is the test that the filter makes on an end of a record. -/
theorem endpointMatches_eq_sideMatches (addr : Addresses) (ep : EndpointFilter) (v : FlowView)
    (side : Side) : sideMatches addr noLookups ep v side =
      endpointMatches addr ep (v.side side).href (v.side side).ip (v.side side).labels := rfl

/-- One port condition on a port and a protocol. -/
def servicePortMatches (p : PortProto) (port : Option Int) (proto : Int) : Bool :=
  (match p.proto with
    | none => true
    | some q => proto = q) &&
  match p.toPort, p.port with
  | some hi, some lo => lo ≤ port.getD (-1) && port.getD (-1) ≤ hi
  | some _, none => false
  | none, some lo => port.getD (-1) = lo
  | none, none => true

/-- It is the test that the filter makes on the port of a record. -/
theorem servicePortMatches_eq_portMatches (p : PortProto) (v : FlowView) :
    portMatches p v = servicePortMatches p v.port v.proto := rfl

/-! ## Deny proposals -/

/-- What the host table and the fallback say of a host. -/
structure HostInfo where
  href : Option String
  labels : String → Option String

/-- A deny rule names a source, a destination or a service. -/
structure DenyProposal where
  src : EndpointFilter
  dst : EndpointFilter
  ports : List PortProto
  named : ¬(src.isEmpty ∧ dst.isEmpty ∧ ports = [])

def edgeMatches (addr : Addresses) (p : DenyProposal) (src dst : HostInfo) (srcIp dstIp : String)
    (port proto : Int) : Bool :=
  (p.src.isEmpty || endpointMatches addr p.src src.href srcIp src.labels) &&
    (p.dst.isEmpty || endpointMatches addr p.dst dst.href dstIp dst.labels) &&
    (p.ports.isEmpty || p.ports.any fun pp => servicePortMatches pp (some port) proto)

/-- `key.startswith("ip:")`: the host is an address without a workload. -/
def isIpKey (key : String) : Bool := "ip:".toList.isPrefixOf key.toList

/-- `key[3:]` -/
def addressOf (key : String) : String := String.ofList (key.toList.drop 3)

def ipOf (key : String) : String := if isIpKey key then addressOf key else ""

/-- The connections that a proposal leaves in place. -/
def applyDeny (addr : Addresses) (edges : List EdgeIn) (p : DenyProposal)
    (hosts : String → HostInfo) : List EdgeIn :=
  edges.filter fun e =>
    !edgeMatches addr p (hosts e.src) (hosts e.dst) (ipOf e.src) (ipOf e.dst) e.port e.proto

/-- The hosts of the inventory, each under its href. -/
structure HostTable where
  get : String → Option HostInfo
  known : ∀ key host, get key = some host →
    host.href = some key ∧ isIpKey key = false ∧ key ≠ ""

/-- `host_for`: a host that the table does not have is judged by its key. -/
def hostFor (table : HostTable) (key : String) : HostInfo :=
  (table.get key).getD { href := if isIpKey key then none else some key, labels := fun _ => none }

/-- `_endpoint` -/
def endpoint (key : String) (table : HostTable) : EndpointFilter :=
  if isIpKey key then { ips := [addressOf key] }
  else
    { hrefs := [match (table.get key).bind HostInfo.href with
        | some href => if href = "" then key else href
        | none => key] }

/-! ## Cuts -/

inductive CutKind where
  | edge
  | node
  deriving DecidableEq, Repr

structure Cut where
  kind : CutKind
  src : String
  dst : Option String
  ports : List Port
  before : Nat
  after : Nat
  deriving Repr

theorem isEmpty_endpoint (key : String) (table : HostTable) :
    (endpoint key table).isEmpty = false := by
  unfold endpoint
  split <;> rfl

/-- An edge cut denies its services from its source to its destination; a host cut denies everything
into the host. -/
def cutToProposal (cut : Cut) (table : HostTable) : DenyProposal :=
  match cut.kind, cut.dst with
  | .edge, some dst =>
    { src := endpoint cut.src table
      dst := endpoint dst table
      ports := cut.ports.map fun p => ⟨some p.1, none, some p.2, rfl⟩
      named := fun h => by
        rw [isEmpty_endpoint] at h
        exact Bool.false_ne_true h.1 }
  | _, _ =>
    { src := {}
      dst := endpoint cut.src table
      ports := []
      named := fun h => by
        rw [isEmpty_endpoint] at h
        exact Bool.false_ne_true h.2.1 }

/-- `collections.Counter` -/
def counter {κ : Type} [BEq κ] (xs : List κ) : List (κ × Nat) :=
  xs.foldl (fun counts x => alter x (fun n => n.getD 0 + 1) counts) []

/-- `itertools.pairwise` -/
def pairwise {κ : Type} (path : List κ) : List (κ × κ) := path.zip path.tail

/-- An edge or a host that shortest paths go through, with the number of those paths. -/
structure Candidate where
  count : Nat
  isNode : Bool
  a : String
  b : String
  v : Nat
  u : Option Nat

/-- The order of the tuples `(-count, isNode, a, b, v, u)`; two of them differ in one of the first
four. -/
def Candidate.le (p q : Candidate) : Bool :=
  if p.count ≠ q.count then q.count < p.count
  else if p.isNode ≠ q.isNode then q.isNode
  else if p.a ≠ q.a then p.a < q.a
  else p.b ≤ q.b

/-- The sort key of the cuts: `(after, kind != "edge", len(ports), src, dst or "")`. -/
def Cut.le (c d : Cut) : Bool :=
  if c.after ≠ d.after then c.after < d.after
  else if c.kind ≠ d.kind then c.kind = .edge
  else if c.ports.length ≠ d.ports.length then c.ports.length < d.ports.length
  else if c.src ≠ d.src then c.src < d.src
  else c.dst.getD "" ≤ d.dst.getD ""

/-- The cut of a candidate; none stands for an edge that the graph does not have. -/
def cutOf (g : Graph) (rev : List (List Nat)) (t hops before : Nat) (c : Candidate) : Option Cut :=
  match c.u with
  | some u => do
    let info ← g.edgeInfo.lookup (c.v, u)
    some
      { kind := .edge
        src := g.nodes.getD c.v ""
        dst := some (g.nodes.getD u "")
        ports := info.1.mergeSort portLe
        before := before
        after := (nextHops g rev t hops (some (c.v, u)) none).length }
  | none =>
    some
      { kind := .node
        src := g.nodes.getD c.v ""
        dst := none
        ports := []
        before := before
        after := (nextHops g rev t hops none (some c.v)).length }

/-- The edges and hosts that the most shortest paths go through. -/
def candidates (g : Graph) (paths : List (List Nat)) : List Candidate :=
  (counter (paths.flatMap pairwise)).map (fun e =>
      ⟨e.2, false, g.nodes.getD e.1.1 "", g.nodes.getD e.1.2 "", e.1.1, some e.1.2⟩) ++
    (counter (paths.flatMap fun p => p.tail.dropLast)).map fun e =>
      ⟨e.2, true, g.nodes.getD e.1 "", "", e.1, none⟩

/-- Single cuts on the shortest paths into `target`, those first that leave the fewest hosts reaching
it. -/
def suggestCuts (g : Graph) (target : String) (hops top maxCandidates : Nat) : Option (List Cut) :=
  match g.index target with
  | none => some []
  | some t =>
    let rev := reverse g
    let base := nextHops g rev t hops none none
    if base.length = 0 then some []
    else do
      let paths ← (base.map Prod.fst).mapM fun s => Search.path base t (base.length + 1) s
      let cuts ← (((candidates g paths).mergeSort Candidate.le).take maxCandidates).mapM
        (cutOf g rev t hops base.length)
      some ((cuts.mergeSort Cut.le).take top)

/-! ## What a proposal matches -/

/-- A workload's href, or `ip:` and an address; an address has no prefix length. -/
def HostKey (key : String) : Prop :=
  if isIpKey key then addressOf key ≠ "" ∧ '/' ∉ (addressOf key).toList else key ≠ ""

instance (key : String) : Decidable (HostKey key) := by
  unfold HostKey
  infer_instance

theorem eq_of_addressOf {k k' : String} (hk : isIpKey k = true) (hk' : isIpKey k' = true)
    (h : addressOf k = addressOf k') : k = k' := by
  obtain ⟨rest, hrest⟩ := List.isPrefixOf_iff_prefix.1 hk
  obtain ⟨rest', hrest'⟩ := List.isPrefixOf_iff_prefix.1 hk'
  have hdrop : k.toList.drop 3 = k'.toList.drop 3 := by
    have hlist := congrArg String.toList h
    rwa [addressOf, addressOf, String.toList_ofList, String.toList_ofList] at hlist
  rw [← hrest, ← hrest'] at hdrop
  have htail : rest = rest' := hdrop
  rw [← String.toList_inj, ← hrest, ← hrest', htail]

theorem href_hostFor (table : HostTable) (key : String) :
    (hostFor table key).href = if isIpKey key then none else some key := by
  unfold hostFor
  cases hget : table.get key with
  | none => rfl
  | some host =>
      obtain ⟨hhref, hip, -⟩ := table.known key host hget
      rw [Option.getD_some, hhref, hip]
      rfl

theorem endpoint_of_href (table : HostTable) {key : String} (hip : isIpKey key = false) :
    endpoint key table = { hrefs := [key] } := by
  unfold endpoint
  rw [hip, if_neg Bool.false_ne_true]
  cases hget : table.get key with
  | none => rfl
  | some host =>
      obtain ⟨hhref, -, hne⟩ := table.known key host hget
      rw [Option.bind_some, hhref]
      dsimp only
      rw [if_neg hne]

/-- The endpoint of one host holds for that host only. -/
theorem endpointMatches_endpoint (addr : Addresses) (table : HostTable) {k k' : String}
    (hk : HostKey k) (labels : String → Option String) :
    endpointMatches addr (endpoint k table) (hostFor table k').href (ipOf k') labels = true ↔
      k' = k := by
  rw [href_hostFor]
  unfold HostKey at hk
  cases hip : isIpKey k with
  | true =>
      rw [hip, if_pos rfl] at hk
      -- by address: exactly this one, and a workload has none here
      have hexact : endpointMatches addr (endpoint k table)
          (if isIpKey k' then none else some k') (ipOf k') labels = true ↔ ipOf k' = addressOf k := by
        rw [endpoint, if_pos hip]
        simp [endpointMatches, combineParts, EndpointFilter.hasLabels, EndpointFilter.hasHosts,
          hostsHold, EndpointFilter.exactIps, EndpointFilter.netIps, hk.2]
      rw [hexact, ipOf]
      cases hip' : isIpKey k' with
      | true =>
          rw [if_pos rfl]
          exact ⟨eq_of_addressOf hip' hip, fun heq => by rw [heq]⟩
      | false =>
          rw [if_neg Bool.false_ne_true]
          refine iff_of_false (Ne.symm hk.1) fun heq => ?_
          rw [heq, hip] at hip'
          exact Bool.false_ne_true hip'.symm
  | false =>
      rw [hip, if_neg Bool.false_ne_true] at hk
      have hexact : endpointMatches addr (endpoint k table)
          (if isIpKey k' then none else some k') (ipOf k') labels = true ↔
            (if isIpKey k' then none else some k').getD "" = k := by
        rw [endpoint_of_href table hip]
        simp [endpointMatches, combineParts, EndpointFilter.hasLabels, EndpointFilter.hasHosts,
          hostsHold, EndpointFilter.exactIps, EndpointFilter.netIps]
      rw [hexact]
      cases hip' : isIpKey k' with
      | true =>
          rw [if_pos rfl]
          refine iff_of_false (Ne.symm hk) fun heq => ?_
          rw [heq, hip] at hip'
          exact Bool.false_ne_true hip'
      | false => rw [if_neg Bool.false_ne_true, Option.getD_some]

section

variable {addr : Addresses} {table : HostTable} {edges : List EdgeIn}

/-- The connection is one that the proposal blocks. -/
def Denied (addr : Addresses) (table : HostTable) (p : DenyProposal) (e : EdgeIn) : Prop :=
  edgeMatches addr p (hostFor table e.src) (hostFor table e.dst) (ipOf e.src) (ipOf e.dst) e.port
    e.proto = true

theorem mem_applyDeny {p : DenyProposal} {e : EdgeIn} :
    e ∈ applyDeny addr edges p (hostFor table) ↔ e ∈ edges ∧ ¬ Denied addr table p e := by
  rw [applyDeny, List.mem_filter, Bool.not_eq_true', ← Bool.not_eq_true]
  rfl

theorem any_servicePortMatches {ports : List Port} {port proto : Int} :
    ((ports.map fun p => (⟨some p.1, none, some p.2, rfl⟩ : PortProto)).any fun pp =>
      servicePortMatches pp (some port) proto) = true ↔ (port, proto) ∈ ports := by
  rw [List.any_eq_true]
  simp only [List.mem_map, exists_exists_and_eq_and, servicePortMatches, Bool.and_eq_true,
    decide_eq_true_eq, Option.getD_some]
  constructor
  · rintro ⟨⟨port', proto'⟩, hmem, rfl, rfl⟩
    exact hmem
  · intro hmem
    exact ⟨_, hmem, rfl, rfl⟩

/-- The proposal of an edge cut blocks its services between its two ends. -/
theorem denied_edge {cut : Cut} {dst : String} (hkind : cut.kind = .edge) (hdst : cut.dst = some dst)
    (hsrcKey : HostKey cut.src) (hdstKey : HostKey dst) (hports : cut.ports ≠ []) (e : EdgeIn) :
    Denied addr table (cutToProposal cut table) e ↔
      e.src = cut.src ∧ e.dst = dst ∧ (e.port, e.proto) ∈ cut.ports := by
  have hproposal : cutToProposal cut table =
      { src := endpoint cut.src table, dst := endpoint dst table,
        ports := cut.ports.map fun p => ⟨some p.1, none, some p.2, rfl⟩,
        named := fun h => by
          rw [isEmpty_endpoint] at h
          exact Bool.false_ne_true h.1 } := by
    unfold cutToProposal
    split
    · rename_i d _ hd
      obtain rfl := Option.some.inj (hd.symm.trans hdst)
      rfl
    · rename_i hother
      exact absurd hdst (hother dst hkind)
  have hnonempty : (cut.ports.map fun p =>
      (⟨some p.1, none, some p.2, rfl⟩ : PortProto)).isEmpty = false := by
    rw [List.isEmpty_eq_false_iff]
    simpa using hports
  rw [Denied, hproposal, edgeMatches]
  dsimp only
  rw [isEmpty_endpoint, isEmpty_endpoint, hnonempty, Bool.false_or, Bool.false_or, Bool.false_or,
    Bool.and_eq_true, Bool.and_eq_true, endpointMatches_endpoint addr table hsrcKey,
    endpointMatches_endpoint addr table hdstKey, any_servicePortMatches, and_assoc]

/-- The proposal of a host cut blocks everything into the host. -/
theorem denied_node {cut : Cut} (hkind : cut.kind = .node) (hkey : HostKey cut.src) (e : EdgeIn) :
    Denied addr table (cutToProposal cut table) e ↔ e.dst = cut.src := by
  have hproposal : cutToProposal cut table =
      { src := {}, dst := endpoint cut.src table, ports := [],
        named := fun h => by
          rw [isEmpty_endpoint] at h
          exact Bool.false_ne_true h.2.1 } := by
    unfold cutToProposal
    split
    · rename_i hedge _
      rw [hkind] at hedge
      exact CutKind.noConfusion hedge
    · rfl
  rw [Denied, hproposal, edgeMatches]
  dsimp only
  rw [isEmpty_endpoint, Bool.false_or, Bool.and_eq_true, Bool.and_eq_true,
    endpointMatches_endpoint addr table hkey]
  exact ⟨fun h => h.1.2, fun h => ⟨⟨rfl, h⟩, rfl⟩⟩

/-- Without the connections of one pair, the pair alone is no longer linked. -/
theorem linked_applyDeny_edge {p : DenyProposal} {src dst : String} {ports : List Port}
    (hp : ∀ e, Denied addr table p e ↔ e.src = src ∧ e.dst = dst ∧ (e.port, e.proto) ∈ ports)
    (hports : ∀ e ∈ edges, Joins false src dst e → (e.port, e.proto) ∈ ports) {a b : String} :
    Linked (applyDeny addr edges p (hostFor table)) false a b ↔
      Linked edges false a b ∧ ¬(a = src ∧ b = dst) := by
  constructor
  · rintro ⟨e, he, hjoins⟩
    obtain ⟨he, hnot⟩ := mem_applyDeny.1 he
    refine ⟨⟨e, he, hjoins⟩, ?_⟩
    rintro ⟨rfl, rfl⟩
    obtain ⟨hsrc, hdst⟩ := Prod.mk.inj hjoins.2
    exact hnot ((hp e).2 ⟨hsrc, hdst, hports e he hjoins⟩)
  · rintro ⟨⟨e, he, hjoins⟩, hnot⟩
    refine ⟨e, mem_applyDeny.2 ⟨he, fun hdenied => hnot ?_⟩, hjoins⟩
    obtain ⟨hsrc, hdst⟩ := Prod.mk.inj hjoins.2
    obtain ⟨hsrc', hdst', -⟩ := (hp e).1 hdenied
    exact ⟨hsrc.symm.trans hsrc', hdst.symm.trans hdst'⟩

/-- Without the connections into one host, nothing is linked to it. -/
theorem linked_applyDeny_node {p : DenyProposal} {host : String}
    (hp : ∀ e, Denied addr table p e ↔ e.dst = host) {a b : String} :
    Linked (applyDeny addr edges p (hostFor table)) false a b ↔
      Linked edges false a b ∧ b ≠ host := by
  constructor
  · rintro ⟨e, he, hjoins⟩
    obtain ⟨he, hnot⟩ := mem_applyDeny.1 he
    refine ⟨⟨e, he, hjoins⟩, fun heq => hnot ((hp e).2 ?_)⟩
    exact (Prod.mk.inj hjoins.2).2.trans heq
  · rintro ⟨⟨e, he, hjoins⟩, hne⟩
    refine ⟨e, mem_applyDeny.2 ⟨he, fun hdenied => hne ?_⟩, hjoins⟩
    exact (Prod.mk.inj hjoins.2).2.symm.trans ((hp e).1 hdenied)

end

/-! ## The counts of a cut -/

variable {g : Graph}

theorem named_edgeBut_edge {v u : Nat} {src dst : String} (hv : g.nodes[v]? = some src)
    (hu : g.nodes[u]? = some dst) {a b : String} :
    Named g.nodes (g.EdgeBut (some (v, u)) none) a b ↔ g.Link a b ∧ ¬(a = src ∧ b = dst) := by
  constructor
  · rintro ⟨i, j, hi, hj, hedge, hnot⟩
    refine ⟨⟨i, j, hi, hj, hedge⟩, ?_⟩
    rintro ⟨rfl, rfl⟩
    rw [(eq_iff_of_nodes hi hv).1 rfl, (eq_iff_of_nodes hj hu).1 rfl] at hnot
    exact hnot (Or.inr rfl)
  · rintro ⟨⟨i, j, hi, hj, hedge⟩, hnot⟩
    refine ⟨i, j, hi, hj, hedge, ?_⟩
    rintro (hskip | hskip)
    · cases hskip
    · obtain ⟨rfl, rfl⟩ := Prod.mk.inj (Option.some.inj hskip)
      exact hnot ⟨(eq_iff_of_nodes hi hv).2 rfl, (eq_iff_of_nodes hj hu).2 rfl⟩

theorem named_edgeBut_node {v : Nat} {host : String} (hv : g.nodes[v]? = some host) {a b : String} :
    Named g.nodes (g.EdgeBut none (some v)) a b ↔ g.Link a b ∧ b ≠ host := by
  constructor
  · rintro ⟨i, j, hi, hj, hedge, hnot⟩
    refine ⟨⟨i, j, hi, hj, hedge⟩, ?_⟩
    rintro rfl
    rw [(eq_iff_of_nodes hj hv).1 rfl] at hnot
    exact hnot (Or.inl rfl)
  · rintro ⟨⟨i, j, hi, hj, hedge⟩, hne⟩
    refine ⟨i, j, hi, hj, hedge, ?_⟩
    rintro (hskip | hskip)
    · exact hne ((eq_iff_of_nodes hj hv).2 (Option.some.inj hskip))
    · cases hskip

/-- A search that skips edges counts the sources of the paths along those that are left. -/
theorem length_nextHops {L : String → String → Prop} {skipEdge : Option (Nat × Nat)}
    {skipInto : Option Nat}
    (hL : ∀ a b, Named g.nodes (g.EdgeBut skipEdge skipInto) a b ↔ L a b) {target : String}
    {t hops : Nat} (ht : g.nodes[t]? = some target) {paths : List (String × List String)}
    (hpaths : ShortestPaths L hops target paths) :
    (nextHops g (reverse g) t hops skipEdge skipInto).length = paths.length := by
  have hlt : t < g.nodes.length := (List.getElem?_eq_some_iff.1 ht).1
  have hNL : Named g.nodes (g.EdgeBut skipEdge skipInto) = L := by
    funext a b
    exact propext (hL a b)
  have hends : ∀ v u, g.EdgeBut skipEdge skipInto v u → v < g.nodes.length ∧ u < g.nodes.length :=
    fun v u h => h.1.lt
  generalize hkeys : (nextHops g (reverse g) t hops skipEdge skipInto).map Prod.fst = keys
  have hmem : ∀ v, v ∈ keys ↔ v ≠ t ∧ Reaches (g.EdgeBut skipEdge skipInto) hops v t := fun v => by
    rw [← hkeys]
    exact mem_keys_nextHops hlt
  have hstart : ∀ {v : Nat}, v ∈ keys → v < g.nodes.length := fun {v} hv => by
    obtain ⟨hne, p, hp, -⟩ := (hmem v).1 hv
    rcases hp.start with rfl | ⟨w, hw⟩
    · exact absurd rfl hne
    · exact (hends v w hw).1
  have hnode : ∀ host, host ≠ target ∧ Reaches L hops host target → host ∈ g.nodes := by
    rintro host ⟨hne, p, hp, -⟩
    rw [← hNL] at hp
    rcases hp.start with rfl | ⟨w, i, j, hi, -⟩
    · exact absurd rfl hne
    · exact List.mem_of_getElem? hi
  obtain ⟨hnodup, hnames⟩ := mem_map_nodes g.nodes_nodup "" (hkeys ▸ nodup_keys_nextHops hlt)
    (fun v hv => hstart hv) hnode fun v host hv => by
      rw [hmem, Ne, Ne, eq_iff_of_nodes hv ht, ← hNL, reaches_named_iff g.nodes_nodup hends hv ht]
  have hperm := (List.perm_ext_iff_of_nodup hnodup hpaths.distinct).2 fun host => by
    rw [hnames, hpaths.sources]
  have hlength := hperm.length_eq
  rwa [List.length_map, ← hkeys, List.length_map, List.length_map] at hlength

theorem ShortestPaths.length_le {L L' : String → String → Prop} {hops : Nat} {target : String}
    {paths paths' : List (String × List String)} (h : ShortestPaths L hops target paths)
    (h' : ShortestPaths L' hops target paths') (hsub : ∀ a b, L a b → L' a b) :
    paths.length ≤ paths'.length := by
  have hkeys : paths.map Prod.fst ⊆ paths'.map Prod.fst := fun host hhost => by
    obtain ⟨hne, hreach⟩ := (h.sources host).1 hhost
    exact (h'.sources host).2 ⟨hne, hreach.mono hsub⟩
  have hle := (h.distinct.subperm hkeys).length_le
  rwa [List.length_map, List.length_map] at hle

/-! ## The candidates -/

theorem mem_of_mem_counter {κ : Type} [BEq κ] [LawfulBEq κ] {xs : List κ} {e : κ × Nat}
    (he : e ∈ counter xs) : e.1 ∈ xs := by
  have hkey : e.1 ∈ (counter xs).map Prod.fst := List.mem_map_of_mem he
  clear he
  induction xs using List.reverseRecOn with
  | nil => exact hkey
  | append_singleton xs x ih =>
      rw [counter, List.foldl_append, List.foldl_cons, List.foldl_nil, mem_keys_alter] at hkey
      rw [List.mem_append, List.mem_singleton]
      rcases hkey with rfl | hkey
      · exact Or.inr rfl
      · exact Or.inl (ih hkey)

/-- A candidate is an edge of the graph or one of its hosts. -/
def Candidate.Proper (g : Graph) (c : Candidate) : Prop :=
  match c.u with
  | some u => g.Edge c.v u
  | none => c.v < g.nodes.length

/-- The candidates of routes are. -/
theorem proper_of_mem_candidates {paths : List (List Nat)} {t : Nat} (ht : t < g.nodes.length)
    (hpaths : ∀ p ∈ paths, ∃ v, Route g.Edge v t p) {c : Candidate}
    (hc : c ∈ candidates g paths) : c.Proper g := by
  rcases List.mem_append.1 hc with hc | hc
  · obtain ⟨e, he, rfl⟩ := List.mem_map.1 hc
    obtain ⟨p, hp, hpair⟩ := List.mem_flatMap.1 (mem_of_mem_counter he)
    obtain ⟨v, hroute⟩ := hpaths p hp
    exact hroute.edge_of_mem_zip hpair
  · obtain ⟨e, he, rfl⟩ := List.mem_map.1 hc
    obtain ⟨p, hp, hinner⟩ := List.mem_flatMap.1 (mem_of_mem_counter he)
    obtain ⟨v, hroute⟩ := hpaths p hp
    have hmem : e.1 ∈ p := List.mem_of_mem_tail (List.dropLast_subset _ hinner)
    show e.1 < g.nodes.length
    rcases hroute.of_mem hmem with heq | ⟨w, hw⟩
    · exact heq ▸ ht
    · exact hw.lt.1

/-! ## The cuts of one list of connections -/

section

variable (addr : Addresses) (table : HostTable) {edges : List EdgeIn}

/-- The ends of a link of the graph are hosts of the connections. -/
theorem hostKey_of_node (hkeys : ∀ e ∈ edges, HostKey e.src ∧ HostKey e.dst) {host : String}
    (hnode : host ∈ (buildGraph edges false).nodes) : HostKey host := by
  obtain ⟨⟨a, b⟩, hk, hends⟩ := mem_hostNames.1 hnode
  obtain ⟨e, he, -, hpair⟩ := mem_keys_merge.1 hk
  obtain ⟨rfl, rfl⟩ := Prod.mk.inj hpair
  rcases hends with rfl | rfl
  · exact (hkeys e he).1
  · exact (hkeys e he).2

theorem link_eq_linked (edges : List EdgeIn) (enforced : Bool) :
    (buildGraph edges enforced).Link = Linked edges enforced := by
  funext a b
  exact propext link_buildGraph

theorem getElem?_name {i : Nat} (hi : i < g.nodes.length) :
    g.nodes[i]? = some (g.nodes.getD i "") := by
  rw [List.getD_eq_getElem?_getD, List.getElem?_eq_getElem hi, Option.getD_some]

/-- A search that skips what a proposal takes counts the hosts that the simulation finds, no more
than there were. -/
theorem nextHops_simulated (skipEdge : Option (Nat × Nat)) (skipInto : Option Nat)
    {target : String} {t hops : Nat} (ht : (buildGraph edges false).nodes[t]? = some target) {kept : List EdgeIn}
    (hkept : ∀ a b, Named (buildGraph edges false).nodes
      ((buildGraph edges false).EdgeBut skipEdge skipInto) a b ↔ Linked kept false a b)
    {paths after : List (String × List String)}
    (hpaths : pathsTo (buildGraph edges false) target hops = some paths)
    (hafter : pathsTo (buildGraph kept false) target hops = some after) :
    (nextHops (buildGraph edges false) (reverse (buildGraph edges false)) t hops skipEdge
        skipInto).length = after.length ∧ after.length ≤ paths.length := by
  obtain ⟨paths', hpaths', hspec⟩ := pathsTo_spec (buildGraph edges false) target hops
  obtain rfl := Option.some.inj (hpaths.symm.trans hpaths')
  obtain ⟨after', hafter', hspec'⟩ := pathsTo_spec (buildGraph kept false) target hops
  obtain rfl := Option.some.inj (hafter.symm.trans hafter')
  rw [link_eq_linked] at hspec'
  refine ⟨length_nextHops hkept ht hspec', hspec'.length_le hspec fun a b hab => ?_⟩
  obtain ⟨i, j, hi, hj, hij⟩ := (hkept a b).2 hab
  exact ⟨i, j, hi, hj, hij.1⟩

/-- The edge of a candidate has ports, those of the connections between its ends. -/
theorem exists_info {v u : Nat} (hedge : (buildGraph edges false).Edge v u) {a b : String}
    (hv : (buildGraph edges false).nodes[v]? = some a)
    (hu : (buildGraph edges false).nodes[u]? = some b) :
    ∃ ports state, (buildGraph edges false).edgeInfo.lookup (v, u) = some (ports, state) ∧
      ports ≠ [] ∧ ∀ e ∈ edges, Joins false a b e → (e.port, e.proto) ∈ ports := by
  have hsome : ((buildGraph edges false).edgeInfo.lookup (v, u)).isSome := by
    rw [List.lookup_isSome_iff]
    obtain ⟨e, he, hk⟩ := List.mem_map.1 (((buildGraph edges false).info_iff v u).2 hedge)
    exact ⟨e, he, beq_iff_eq.2 hk.symm⟩
  obtain ⟨⟨ports, state⟩, hlookup⟩ := Option.isSome_iff_exists.1 hsome
  have hinfo : ((v, u), ports, state) ∈ (buildGraph edges false).edgeInfo := by
    obtain ⟨l, r, hsplit, -⟩ := List.lookup_eq_some_iff.1 hlookup
    rw [hsplit]
    simp
  have hports := ports_buildGraph hinfo hv hu
  refine ⟨ports, state, hlookup, ?_, fun e he hjoins => (hports _).2 ⟨e, he, hjoins, rfl⟩⟩
  obtain ⟨e, he, hjoins⟩ := link_buildGraph.1 ⟨v, u, hv, hu, hedge⟩
  exact List.ne_nil_of_mem ((hports _).2 ⟨e, he, hjoins, rfl⟩)

/-- The cut of a candidate: the search that skips and the connections that are left count the same
hosts, no more than there were. -/
theorem cutOf_simulated (hkeys : ∀ e ∈ edges, HostKey e.src ∧ HostKey e.dst) {target : String}
    {t hops before : Nat} (ht : (buildGraph edges false).nodes[t]? = some target)
    {c : Candidate} (hc : c.Proper (buildGraph edges false)) :
    ∃ cut, cutOf (buildGraph edges false) (reverse (buildGraph edges false)) t hops before c =
        some cut ∧ cut.before = before ∧
      ∀ {paths after},
        pathsTo (buildGraph edges false) target hops = some paths →
        pathsTo (buildGraph (applyDeny addr edges (cutToProposal cut table) (hostFor table)) false)
          target hops = some after →
        cut.after = after.length ∧ cut.after ≤ paths.length := by
  have hkey : ∀ {i : Nat}, i < (buildGraph edges false).nodes.length →
      HostKey ((buildGraph edges false).nodes.getD i "") := fun hi =>
    hostKey_of_node hkeys (List.mem_of_getElem? (getElem?_name hi))
  unfold Candidate.Proper at hc
  unfold cutOf
  cases hu : c.u with
  | some u =>
      rw [hu] at hc
      dsimp only at hc ⊢
      obtain ⟨hv, hu'⟩ := hc.lt
      obtain ⟨ports, state, hlookup, hne, hports⟩ :=
        exists_info hc (getElem?_name hv) (getElem?_name hu')
      rw [hlookup]
      refine ⟨_, rfl, rfl, fun {paths after} hpaths hafter => ?_⟩
      have hne' : ports.mergeSort portLe ≠ [] := fun hnil =>
        hne ((List.mergeSort_perm ports portLe).symm.trans (hnil ▸ List.Perm.refl _)).eq_nil
      have hcount := nextHops_simulated (some (c.v, u)) none ht (fun a b => ?_) hpaths hafter
      · exact ⟨hcount.1, hcount.1 ▸ hcount.2⟩
      · rw [named_edgeBut_edge (getElem?_name hv) (getElem?_name hu'), link_eq_linked]
        refine Iff.symm (linked_applyDeny_edge (denied_edge rfl rfl ?_ (hkey hu') hne') ?_)
        · exact hkey hv
        · exact fun e he hjoins => List.mem_mergeSort.2 (hports e he hjoins)
  | none =>
      rw [hu] at hc
      dsimp only at hc ⊢
      refine ⟨_, rfl, rfl, fun {paths after} hpaths hafter => ?_⟩
      have hcount := nextHops_simulated none (some c.v) ht (fun a b => ?_) hpaths hafter
      · exact ⟨hcount.1, hcount.1 ▸ hcount.2⟩
      · rw [named_edgeBut_node (getElem?_name hc), link_eq_linked]
        refine Iff.symm (linked_applyDeny_node (denied_node rfl ?_))
        exact hkey hc

/-- For every cut that is suggested, the simulation of its proposal finds the number of hosts that
the cut says will be left, and that is no more than before. -/
theorem cut_simulated (hkeys : ∀ e ∈ edges, HostKey e.src ∧ HostKey e.dst) (target : String)
    (hops top maxCandidates : Nat) :
    ∃ cuts, suggestCuts (buildGraph edges false) target hops top maxCandidates = some cuts ∧
      ∀ cut ∈ cuts, ∃ before after,
        pathsTo (buildGraph edges false) target hops = some before ∧
        pathsTo (buildGraph (applyDeny addr edges (cutToProposal cut table) (hostFor table)) false)
          target hops = some after ∧
        cut.before = before.length ∧ cut.after = after.length ∧ cut.after ≤ cut.before := by
  unfold suggestCuts
  cases hindex : (buildGraph edges false).index target with
  | none => exact ⟨[], rfl, fun cut hcut => absurd hcut List.not_mem_nil⟩
  | some t =>
      have ht := index_eq_some_iff.1 hindex
      have hlt : t < (buildGraph edges false).nodes.length := (List.getElem?_eq_some_iff.1 ht).1
      obtain ⟨s, visited, hsound, hempty, hnxt⟩ := nextHops_sound hlt hops none none
      rw [edgeBut_none] at hsound
      dsimp only
      rw [← hnxt]
      split
      · exact ⟨[], rfl, fun cut hcut => absurd hcut List.not_mem_nil⟩
      · -- every source has its path, and every candidate on the paths its cut
        obtain ⟨paths, hpaths⟩ := exists_mapM fun v hv => by
          obtain ⟨p, hp, -⟩ := hsound.path_spec hempty hv
          exact ⟨p, hp⟩
        have hroutes : ∀ p ∈ paths, ∃ v, Route (buildGraph edges false).Edge v t p := fun p hp => by
          obtain ⟨v, hv, hfollow⟩ := exists_of_mem_mapM hpaths hp
          obtain ⟨p', hp', hroute, -⟩ := hsound.path_spec hempty hv
          obtain rfl := Option.some.inj (hfollow.symm.trans hp')
          exact ⟨v, hroute⟩
        have hcuts : ∀ c ∈ ((candidates (buildGraph edges false) paths).mergeSort
            Candidate.le).take maxCandidates, c.Proper (buildGraph edges false) := fun c hc =>
          proper_of_mem_candidates hlt hroutes (List.mem_mergeSort.1 (List.mem_of_mem_take hc))
        have hsome : ∀ c ∈ ((candidates (buildGraph edges false) paths).mergeSort
            Candidate.le).take maxCandidates, ∃ cut, cutOf (buildGraph edges false)
              (reverse (buildGraph edges false)) t hops s.nxt.length c = some cut := fun c hc => by
          obtain ⟨cut, hcut, -⟩ := cutOf_simulated addr table hkeys ht (hcuts c hc)
          exact ⟨cut, hcut⟩
        obtain ⟨cuts, hall⟩ := exists_mapM hsome
        refine ⟨(cuts.mergeSort Cut.le).take top, ?_, fun cut hcut => ?_⟩
        · rw [hpaths, Option.bind_eq_bind, Option.bind_some, hall]
          rfl
        obtain ⟨c, hc, hof⟩ := exists_of_mem_mapM hall
          (List.mem_mergeSort.1 (List.mem_of_mem_take hcut))
        obtain ⟨cut', hof', hbefore, hcount⟩ := cutOf_simulated addr table hkeys ht (hcuts c hc)
        obtain rfl := Option.some.inj (hof.symm.trans hof')
        obtain ⟨before, hpathsBefore, hspec⟩ :=
          pathsTo_spec (buildGraph edges false) target hops
        obtain ⟨after, hpathsAfter, -⟩ := pathsTo_spec (buildGraph
          (applyDeny addr edges (cutToProposal cut table) (hostFor table)) false) target hops
        obtain ⟨hafter, hle⟩ := hcount hpathsBefore hpathsAfter
        have hlength : s.nxt.length = before.length := by
          rw [hnxt]
          exact length_nextHops (fun a b => by rw [edgeBut_none]; exact Iff.rfl) ht hspec
        rw [hlength] at hbefore
        exact ⟨before, after, hpathsBefore, hpathsAfter, hbefore, hafter, hbefore ▸ hle⟩

end

/-- An inventory of the workloads of `chain`. -/
def chainHosts : HostTable where
  get key := if key = "/w/app" ∨ key = "/w/db" then some ⟨some key, fun _ => none⟩ else none
  known key host h := by
    split at h
    · rename_i hkey
      obtain rfl := Option.some.inj h
      rcases hkey with rfl | rfl <;> exact ⟨rfl, by decide +kernel, by decide⟩
    · cases h

theorem cut_simulated_chain :
    ∃ cuts, suggestCuts (buildGraph chain false) "ip:10.0.0.9" 2 3 20 = some cuts ∧
      ∀ cut ∈ cuts, ∃ before after,
        pathsTo (buildGraph chain false) "ip:10.0.0.9" 2 = some before ∧
        pathsTo (buildGraph (applyDeny noAddresses chain (cutToProposal cut chainHosts)
          (hostFor chainHosts)) false) "ip:10.0.0.9" 2 = some after ∧
        cut.before = before.length ∧ cut.after = after.length ∧ cut.after ≤ cut.before :=
  cut_simulated noAddresses chainHosts (by decide +kernel) "ip:10.0.0.9" 2 3 20

end IllumioOps.Exposure
