import IllumioOps.Graphs.Routes
import IllumioOps.Tables.Distinct
import IllumioOps.Tables.Keyed
import Mathlib.Data.List.Sort

/-!
# The exposure graph

`build_graph` of `domain.exposure`: one edge for each pair of hosts that some observed connection
joins, its ports merged, its state the strongest of theirs. Hosts are numbered in the order of their
names. `Linked` is what an edge means in terms of the connections; the graph has exactly those edges
(`link_buildGraph`), each with the ports of its connections (`ports_buildGraph`).
-/

set_option autoImplicit false

namespace IllumioOps.Exposure

open Tables

inductive EdgeState where
  | unknown
  | potentiallyBlocked
  | allowed
  deriving DecidableEq, Repr

def strength : EdgeState → Nat
  | .unknown => 0
  | .potentiallyBlocked => 1
  | .allowed => 2

/-- A port and a protocol. -/
abbrev Port := Int × Int

/-- A connection on a management port, from one host to another. -/
structure EdgeIn where
  src : String
  dst : String
  port : Int
  proto : Int
  state : EdgeState
  deriving DecidableEq, Repr

/-- The hosts, the numbers of the hosts that each one reaches directly, and the ports and the state
of each edge. -/
structure Graph where
  nodes : List String
  out : List (List Nat)
  edgeInfo : List ((Nat × Nat) × List Port × EdgeState)
  nodes_nodup : nodes.Nodup
  out_length : out.length = nodes.length
  out_lt : ∀ outs ∈ out, ∀ u ∈ outs, u < nodes.length
  info_iff : ∀ v u, (v, u) ∈ edgeInfo.map Prod.fst ↔ u ∈ out.getD v []

namespace Graph

/-- `index.get`: the number of a host of the graph. -/
def index (g : Graph) (host : String) : Option Nat := g.nodes.idxOf? host

def Edge (g : Graph) (v u : Nat) : Prop := u ∈ g.out.getD v []

/-- An edge between two hosts by their names. -/
def Link (g : Graph) (a b : String) : Prop :=
  Graphs.Named g.nodes g.Edge a b

theorem Edge.lt {g : Graph} {v u : Nat} (h : g.Edge v u) : v < g.nodes.length ∧ u < g.nodes.length := by
  rw [Edge, List.getD_eq_getElem?_getD] at h
  cases hv : g.out[v]? with
  | none =>
      rw [hv] at h
      exact absurd h List.not_mem_nil
  | some outs =>
      rw [hv] at h
      exact ⟨g.out_length ▸ (List.getElem?_eq_some_iff.1 hv).1,
        g.out_lt outs (List.mem_of_getElem? hv) u h⟩

end Graph

/-! ## The connections of each pair, merged -/

/-- What is kept for each pair of hosts: the ports and the strongest state. -/
abbrev Merged := List ((String × String) × List Port × EdgeState)

/-- The connection is one of those that the graph is built from. -/
def Counts (enforced : Bool) (e : EdgeIn) : Prop :=
  ¬(e.src = e.dst ∨ (enforced ∧ e.state ≠ .allowed))

instance (enforced : Bool) (e : EdgeIn) : Decidable (Counts enforced e) :=
  inferInstanceAs (Decidable (¬ _))

/-- What a pair has, if anything, with one more connection. -/
def addConnection (e : EdgeIn) : Option (List Port × EdgeState) → List Port × EdgeState
  | none => ([(e.port, e.proto)], e.state)
  | some (ports, state) =>
    (ports.insert (e.port, e.proto), if strength e.state > strength state then e.state else state)

def mergeEdge (enforced : Bool) (merged : Merged) (e : EdgeIn) : Merged :=
  if Counts enforced e then alter (e.src, e.dst) (addConnection e) merged else merged

def merge (edges : List EdgeIn) (enforced : Bool) : Merged :=
  edges.foldl (mergeEdge enforced) []

/-- A connection that counts and goes from the one host to the other. -/
def Joins (enforced : Bool) (a b : String) (e : EdgeIn) : Prop :=
  Counts enforced e ∧ (e.src, e.dst) = (a, b)

theorem merge_append (edges : List EdgeIn) (enforced : Bool) (e : EdgeIn) :
    merge (edges ++ [e]) enforced = mergeEdge enforced (merge edges enforced) e := by
  simp [merge]

theorem nodup_keys_merge (edges : List EdgeIn) (enforced : Bool) :
    ((merge edges enforced).map Prod.fst).Nodup := by
  induction edges using List.reverseRecOn with
  | nil => exact List.nodup_nil
  | append_singleton edges e ih =>
      rw [merge_append, mergeEdge]
      split
      · exact nodup_keys_alter ih
      · exact ih

/-- A pair is there when a connection joins it. -/
theorem mem_keys_merge {edges : List EdgeIn} {enforced : Bool} {a b : String} :
    (a, b) ∈ (merge edges enforced).map Prod.fst ↔ ∃ e ∈ edges, Joins enforced a b e := by
  induction edges using List.reverseRecOn with
  | nil => simp [merge]
  | append_singleton edges e ih =>
      rw [merge_append, mergeEdge]
      simp only [List.mem_append, List.mem_singleton, or_and_right, exists_or, exists_eq_left, ← ih]
      split
      · rename_i hcounts
        rw [mem_keys_alter, or_comm, Joins, eq_comm]
        simp only [hcounts, true_and]
      · rename_i hcounts
        simp only [Joins, hcounts, false_and, or_false]

/-- The ports of a pair are those of the connections that join it. -/
theorem mem_ports_merge {edges : List EdgeIn} {enforced : Bool} {a b : String} {ports : List Port}
    {state : EdgeState} (h : (merge edges enforced).lookup (a, b) = some (ports, state)) (p : Port) :
    p ∈ ports ↔ ∃ e ∈ edges, Joins enforced a b e ∧ (e.port, e.proto) = p := by
  induction edges using List.reverseRecOn generalizing ports state with
  | nil => simp [merge] at h
  | append_singleton edges e ih =>
      rw [merge_append, mergeEdge] at h
      simp only [List.mem_append, List.mem_singleton, or_and_right, exists_or, exists_eq_left]
      split at h
      · rename_i hcounts
        by_cases hpair : (e.src, e.dst) = (a, b)
        · -- the connection joins this pair
          have hjoins : Joins enforced a b e := ⟨hcounts, hpair⟩
          rw [hpair, lookup_alter_self] at h
          cases hold : (merge edges enforced).lookup (a, b) with
          | none =>
              rw [hold, addConnection, Option.some.injEq, Prod.mk.injEq] at h
              have hnone : ¬ ∃ e ∈ edges, Joins enforced a b e := by
                rw [← mem_keys_merge]
                intro hmem
                obtain ⟨⟨k, m⟩, hm, rfl⟩ := List.mem_map.1 hmem
                have hsome := (lookup_eq_some_iff_mem (nodup_keys_merge edges enforced)).2 hm
                rw [hold] at hsome
                cases hsome
              have hnot : ¬ ∃ e ∈ edges, Joins enforced a b e ∧ (e.port, e.proto) = p :=
                fun ⟨e, he, hj, _⟩ => hnone ⟨e, he, hj⟩
              rw [← h.1, List.mem_singleton, or_iff_right hnot, and_iff_right hjoins, eq_comm]
          | some m =>
              obtain ⟨known, strongest⟩ := m
              rw [hold, addConnection, Option.some.injEq, Prod.mk.injEq] at h
              rw [← h.1, List.mem_insert_iff, ih hold, or_comm, and_iff_right hjoins, eq_comm (a := p)]
        · have hnot : ¬ Joins enforced a b e := fun hj => hpair hj.2
          rw [lookup_alter_of_ne (Ne.symm hpair)] at h
          rw [ih h]
          simp only [hnot, false_and, or_false]
      · rename_i hcounts
        have hnot : ¬ Joins enforced a b e := fun hj => hcounts hj.1
        rw [ih h]
        simp only [hnot, false_and, or_false]

/-! ## Hosts and pairs by number -/

/-- `sorted({n for pair in merged for n in pair})`. -/
def hostNames (merged : Merged) : List String :=
  (merged.flatMap fun e => [e.1.1, e.1.2]).eraseDups.mergeSort (· ≤ ·)

theorem nodup_hostNames (merged : Merged) : (hostNames merged).Nodup :=
  (List.mergeSort_perm _ _).nodup_iff.2 (nodup_eraseDups _)

theorem mem_hostNames {merged : Merged} {host : String} :
    host ∈ hostNames merged ↔ ∃ k ∈ merged.map Prod.fst, host = k.1 ∨ host = k.2 := by
  rw [hostNames, List.mem_mergeSort, List.mem_eraseDups, List.mem_flatMap]
  simp

/-- The order of pairs of numbers. -/
def pairLe (p q : Nat × Nat) : Bool := p.1 < q.1 || (p.1 == q.1 && p.2 ≤ q.2)

/-- The order of ports. -/
def portLe (p q : Port) : Bool := p.1 < q.1 || (p.1 == q.1 && p.2 ≤ q.2)

/-- The pairs in the order of their hosts' numbers, each with what is kept for it. -/
def numbered (merged : Merged) : List ((Nat × Nat) × List Port × EdgeState) :=
  let nodes := hostNames merged
  (merged.map fun e => ((nodes.idxOf e.1.1, nodes.idxOf e.1.2), e.2)).mergeSort
    fun e f => pairLe e.1 f.1

theorem mem_numbered {merged : Merged} {v u : Nat} {m : List Port × EdgeState} :
    ((v, u), m) ∈ numbered merged ↔ ∃ a b, (hostNames merged)[v]? = some a ∧
      (hostNames merged)[u]? = some b ∧ ((a, b), m) ∈ merged := by
  have hnodup := nodup_hostNames merged
  have hindex : ∀ {host : String} {i : Nat}, (hostNames merged)[i]? = some host →
      (hostNames merged).idxOf host = i := by
    intro host i h
    obtain ⟨hlt, rfl⟩ := List.getElem?_eq_some_iff.1 h
    exact hnodup.idxOf_getElem i hlt
  have hhost : ∀ {host : String}, host ∈ hostNames merged →
      (hostNames merged)[(hostNames merged).idxOf host]? = some host := fun h =>
    List.getElem?_eq_some_iff.2 ⟨List.idxOf_lt_length_of_mem h, List.getElem_idxOf _⟩
  rw [numbered, List.mem_mergeSort, List.mem_map]
  constructor
  · rintro ⟨⟨⟨a, b⟩, m⟩, hmem, heq⟩
    simp only [Prod.mk.injEq] at heq
    obtain ⟨⟨rfl, rfl⟩, rfl⟩ := heq
    have hkey : (a, b) ∈ merged.map Prod.fst := List.mem_map.2 ⟨_, hmem, rfl⟩
    exact ⟨a, b, hhost (mem_hostNames.2 ⟨_, hkey, Or.inl rfl⟩),
      hhost (mem_hostNames.2 ⟨_, hkey, Or.inr rfl⟩), hmem⟩
  · rintro ⟨a, b, hv, hu, hmem⟩
    exact ⟨((a, b), m), hmem, by rw [hindex hv, hindex hu]⟩

/-- `out[si].append(di)`. -/
def place (out : List (List Nat)) (p : Nat × Nat) : List (List Nat) :=
  out.modify p.1 (· ++ [p.2])

theorem length_foldl_place (ps : List (Nat × Nat)) (out : List (List Nat)) :
    (ps.foldl place out).length = out.length := by
  induction ps generalizing out with
  | nil => rfl
  | cons p ps ih => rw [List.foldl_cons, ih, place, List.length_modify]

theorem mem_foldl_place {ps : List (Nat × Nat)} {out : List (List Nat)} {v u : Nat} :
    u ∈ (ps.foldl place out).getD v [] ↔ u ∈ out.getD v [] ∨ v < out.length ∧ (v, u) ∈ ps := by
  induction ps generalizing out with
  | nil => simp
  | cons p ps ih =>
      have hone : u ∈ (place out p).getD v [] ↔ u ∈ out.getD v [] ∨ v < out.length ∧ (v, u) = p := by
        obtain ⟨v', u'⟩ := p
        rw [place, List.getD_eq_getElem?_getD, List.getD_eq_getElem?_getD, List.getElem?_modify]
        by_cases hlt : v < out.length
        · by_cases heq : v' = v
          · subst heq
            simp [hlt]
          · simp [hlt, heq, Ne.symm heq]
        · simp [hlt]
      have hlength : (place out p).length = out.length := List.length_modify _ _ _
      rw [List.foldl_cons, ih, hone, hlength, List.mem_cons]
      tauto

/-- The pairs' second hosts, by their first. -/
def adjacency (merged : Merged) : List (List Nat) :=
  ((numbered merged).map Prod.fst).foldl place (List.replicate (hostNames merged).length [])

theorem lt_of_numbered {merged : Merged} {v u : Nat}
    (h : (v, u) ∈ (numbered merged).map Prod.fst) :
    v < (hostNames merged).length ∧ u < (hostNames merged).length := by
  obtain ⟨⟨_, m⟩, hmem, rfl⟩ := List.mem_map.1 h
  obtain ⟨a, b, hv, hu, -⟩ := mem_numbered.1 hmem
  exact ⟨(List.getElem?_eq_some_iff.1 hv).1, (List.getElem?_eq_some_iff.1 hu).1⟩

theorem mem_adjacency {merged : Merged} {v u : Nat} :
    u ∈ (adjacency merged).getD v [] ↔ (v, u) ∈ (numbered merged).map Prod.fst := by
  have hnone : u ∉ (List.replicate (hostNames merged).length ([] : List Nat)).getD v [] := by
    rw [List.getD_eq_getElem?_getD, List.getElem?_replicate]
    split <;> simp
  rw [adjacency, mem_foldl_place, or_iff_right hnone, List.length_replicate]
  exact ⟨And.right, fun h => ⟨(lt_of_numbered h).1, h⟩⟩

/-! ## The graph -/

/-- One edge per host pair: its ports merged, its state the strongest of them. -/
def buildGraph (edges : List EdgeIn) (enforced : Bool) : Graph where
  nodes := hostNames (merge edges enforced)
  out := adjacency (merge edges enforced)
  edgeInfo := (numbered (merge edges enforced)).map fun e => (e.1, e.2.1.mergeSort portLe, e.2.2)
  nodes_nodup := nodup_hostNames _
  out_length := by rw [adjacency, length_foldl_place, List.length_replicate]
  out_lt := by
    intro outs houts u hu
    obtain ⟨v, hv⟩ := List.mem_iff_getElem?.1 houts
    have hget : u ∈ (adjacency (merge edges enforced)).getD v [] := by
      rwa [List.getD_eq_getElem?_getD, hv, Option.getD_some]
    exact (lt_of_numbered (mem_adjacency.1 hget)).2
  info_iff := by
    intro v u
    rw [mem_adjacency, List.map_map]
    rfl

/-- Some connection that counts goes from the one host to the other. -/
def Linked (edges : List EdgeIn) (enforced : Bool) (a b : String) : Prop :=
  ∃ e ∈ edges, Joins enforced a b e

theorem edge_buildGraph {edges : List EdgeIn} {enforced : Bool} {v u : Nat} :
    (buildGraph edges enforced).Edge v u ↔ ∃ m, ((v, u), m) ∈ numbered (merge edges enforced) := by
  rw [Graph.Edge, ← (buildGraph edges enforced).info_iff]
  simp [buildGraph]

/-- The graph has the edges of the connections that count. -/
theorem link_buildGraph {edges : List EdgeIn} {enforced : Bool} {a b : String} :
    (buildGraph edges enforced).Link a b ↔ Linked edges enforced a b := by
  rw [Linked, ← mem_keys_merge]
  constructor
  · rintro ⟨v, u, hv, hu, hedge⟩
    obtain ⟨m, hm⟩ := edge_buildGraph.1 hedge
    obtain ⟨a', b', hv', hu', hmem⟩ := mem_numbered.1 hm
    obtain rfl := Option.some.inj (hv.symm.trans hv')
    obtain rfl := Option.some.inj (hu.symm.trans hu')
    exact List.mem_map.2 ⟨_, hmem, rfl⟩
  · intro h
    have hnames : ∀ host, host = a ∨ host = b →
        ∃ i, (buildGraph edges enforced).nodes[i]? = some host := fun host hab =>
      List.mem_iff_getElem?.1 (mem_hostNames.2 ⟨_, h, hab⟩)
    obtain ⟨v, hv⟩ := hnames a (Or.inl rfl)
    obtain ⟨u, hu⟩ := hnames b (Or.inr rfl)
    obtain ⟨⟨_, m⟩, hmem, rfl⟩ := List.mem_map.1 h
    exact ⟨v, u, hv, hu, edge_buildGraph.2 ⟨m, mem_numbered.2 ⟨a, b, hv, hu, hmem⟩⟩⟩

/-- The ports of an edge are those of its connections. -/
theorem ports_buildGraph {edges : List EdgeIn} {enforced : Bool} {v u : Nat} {a b : String}
    {ports : List Port} {state : EdgeState}
    (h : ((v, u), ports, state) ∈ (buildGraph edges enforced).edgeInfo)
    (hv : (buildGraph edges enforced).nodes[v]? = some a)
    (hu : (buildGraph edges enforced).nodes[u]? = some b) (p : Port) :
    p ∈ ports ↔ ∃ e ∈ edges, Joins enforced a b e ∧ (e.port, e.proto) = p := by
  obtain ⟨⟨k, known, st⟩, hmem, heq⟩ := List.mem_map.1 h
  simp only [Prod.mk.injEq] at heq
  obtain ⟨rfl, rfl, rfl⟩ := heq
  obtain ⟨a', b', hv', hu', hm⟩ := mem_numbered.1 hmem
  obtain rfl := Option.some.inj (hv.symm.trans hv')
  obtain rfl := Option.some.inj (hu.symm.trans hu')
  rw [List.mem_mergeSort]
  exact mem_ports_merge ((lookup_eq_some_iff_mem (nodup_keys_merge edges enforced)).2 hm) p

end IllumioOps.Exposure
