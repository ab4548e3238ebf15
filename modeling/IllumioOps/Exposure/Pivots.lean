import IllumioOps.Exposure.Reach
import IllumioOps.Graphs.LowPoints

/-!
# Pivots

`articulation_points` of `domain.exposure`: the hosts whose removal splits the graph, its edges taken
both ways. The traversal is that of `Graphs.articulation`; here its nodes are the numbers of the hosts,
and what it marks is said of the hosts and their connections (`articulationPoints_exact`).
-/

set_option autoImplicit false

namespace IllumioOps.Exposure

open Graphs

open Relation (ReflTransGen)

/-- The order in which `list` gives the members of a set, which the language does not say. -/
structure SetOrder where
  list : List Nat → List Nat
  perm : ∀ xs, List.Perm (list xs) xs

/-- `adj[v].add(u); adj[u].add(v)` -/
def joinBoth (adj : List (List Nat)) (p : Nat × Nat) : List (List Nat) :=
  (adj.modify p.1 (List.insert p.2)).modify p.2 (List.insert p.1)

/-- The neighbours of each host, by edges in either direction. -/
def neighbourSets (g : Graph) : List (List Nat) :=
  (g.out.zipIdx.flatMap fun e => e.1.map fun u => (e.2, u)).foldl joinBoth
    (List.replicate g.nodes.length [])

def neighbours (order : SetOrder) (g : Graph) (v : Nat) : List Nat :=
  order.list ((neighbourSets g).getD v [])

/-- Hosts whose removal splits the graph: the pivots. None stands for a traversal that does not
end. -/
def articulationPoints (order : SetOrder) (g : Graph) : Option (List String) :=
  (articulation (neighbours order g) (List.range g.nodes.length)).map fun points =>
    points.map fun i => g.nodes.getD i ""

/-! ## Neighbours -/

theorem mem_modify_insert {adj : List (List Nat)} {i w v u : Nat} :
    u ∈ (adj.modify i (List.insert w)).getD v [] ↔
      u ∈ adj.getD v [] ∨ v < adj.length ∧ v = i ∧ u = w := by
  rw [List.getD_eq_getElem?_getD, List.getD_eq_getElem?_getD, List.getElem?_modify]
  by_cases hlt : v < adj.length
  · rw [List.getElem?_eq_getElem hlt]
    by_cases heq : i = v
    · subst heq
      simp only [if_true, Option.map_eq_map, Option.map_some, Option.getD_some,
        List.mem_insert_iff, hlt, true_and]
      exact or_comm
    · have hne : ¬ v = i := fun h => heq h.symm
      simp [heq, hne]
  · rw [List.getElem?_eq_none (Nat.le_of_not_lt hlt)]
    simp [hlt]

theorem mem_foldl_joinBoth {ps : List (Nat × Nat)} {adj : List (List Nat)} {v u : Nat} :
    u ∈ (ps.foldl joinBoth adj).getD v [] ↔
      u ∈ adj.getD v [] ∨ v < adj.length ∧ ((v, u) ∈ ps ∨ (u, v) ∈ ps) := by
  induction ps generalizing adj with
  | nil => simp
  | cons p ps ih =>
      have hone : u ∈ (joinBoth adj p).getD v [] ↔
          u ∈ adj.getD v [] ∨ v < adj.length ∧ ((v, u) = p ∨ (u, v) = p) := by
        obtain ⟨i, j⟩ := p
        rw [joinBoth, mem_modify_insert, mem_modify_insert, List.length_modify, Prod.mk.injEq,
          Prod.mk.injEq]
        tauto
      have hlength : (joinBoth adj p).length = adj.length := by
        rw [joinBoth, List.length_modify, List.length_modify]
      rw [List.foldl_cons, ih, hone, hlength, List.mem_cons, List.mem_cons]
      tauto

variable {order : SetOrder} {g : Graph}

/-- Neighbours are joined by an edge in one direction or the other. -/
theorem mem_neighbours {v u : Nat} : u ∈ neighbours order g v ↔ g.Edge v u ∨ g.Edge u v := by
  have hmem : ∀ i j, (i, j) ∈ (g.out.zipIdx.flatMap fun e => e.1.map fun u => (e.2, u)) ↔
      g.Edge i j := by
    intro i j
    simp only [List.mem_flatMap, List.mem_map, Prod.exists, List.mem_zipIdx_iff_getElem?,
      Prod.mk.injEq, Graph.Edge, List.getD_eq_getElem?_getD]
    constructor
    · rintro ⟨outs, k, hk, w, hw, rfl, rfl⟩
      rwa [hk]
    · intro h
      cases hi : g.out[i]? with
      | none =>
          rw [hi] at h
          exact absurd h List.not_mem_nil
      | some outs =>
          rw [hi] at h
          exact ⟨outs, i, hi, j, h, rfl, rfl⟩
  have hnone : u ∉ (List.replicate g.nodes.length ([] : List Nat)).getD v [] := by
    rw [List.getD_eq_getElem?_getD, List.getElem?_replicate]
    split <;> simp
  rw [neighbours, (order.perm _).mem_iff, neighbourSets, mem_foldl_joinBoth, or_iff_right hnone,
    List.length_replicate, hmem, hmem]
  refine ⟨And.right, fun h => ⟨?_, h⟩⟩
  rcases h with h | h
  · exact h.lt.1
  · exact h.lt.2

theorem neighbours_lt {v u : Nat} (h : u ∈ neighbours order g v) :
    v < g.nodes.length ∧ u < g.nodes.length := by
  rcases mem_neighbours.1 h with h | h
  · exact h.lt
  · exact ⟨h.lt.2, h.lt.1⟩

/-! ## Components of hosts -/

/-- Linked by hosts that satisfy `P`, whatever the direction of the links. -/
def Connected (L : String → String → Prop) (P : String → Prop) : String → String → Prop :=
  ReflTransGen fun a b => (L a b ∨ L b a) ∧ P a ∧ P b

/-- Without the host, two hosts of its component are no longer connected. -/
def SplitsComponent (L : String → String → Prop) (host : String) : Prop :=
  ∃ a b, a ≠ host ∧ b ≠ host ∧ Connected L (fun _ => True) a host ∧
    Connected L (fun _ => True) b host ∧ ¬ Connected L (· ≠ host) a b

/-- Who is connected to another host is one of the graph. -/
theorem exists_number {P : String → Prop} {a b : String} (h : Connected g.Link P a b) (hne : a ≠ b) :
    ∃ v : Nat, g.nodes[v]? = some a := by
  rcases ReflTransGen.cases_head h with rfl | ⟨c, ⟨hlink, -⟩, -⟩
  · exact absurd rfl hne
  · rcases hlink with ⟨v, u, hv, -⟩ | ⟨v, u, -, hu, -⟩
    · exact ⟨v, hv⟩
    · exact ⟨u, hu⟩

/-- Hosts are connected as their numbers are joined. -/
theorem connected_iff_joined {P : String → Prop} {Q : Nat → Prop}
    (hPQ : ∀ i x, g.nodes[i]? = some x → (P x ↔ Q i)) {v u : Nat} {a b : String}
    (hv : g.nodes[v]? = some a) (hu : g.nodes[u]? = some b) :
    Connected g.Link P a b ↔ Graphs.Joined (neighbours order g) Q v u := by
  have hindex : ∀ {i : Nat} {x : String}, g.nodes[i]? = some x → g.nodes.idxOf x = i :=
    fun h => idxOf_of_getElem? g.nodes_nodup h
  constructor
  · intro h
    have hmap : Graphs.Joined (neighbours order g) Q (g.nodes.idxOf a) (g.nodes.idxOf b) := by
      induction h generalizing u with
      | refl => exact Graphs.Joined.refl _
      | @tail c d _ hcd ih =>
          obtain ⟨hlink, hc, hd⟩ := hcd
          obtain ⟨i, j, hi, hj, hedge⟩ : ∃ i j, g.nodes[i]? = some c ∧ g.nodes[j]? = some d ∧
              (g.Edge i j ∨ g.Edge j i) := by
            rcases hlink with ⟨i, j, hi, hj, hij⟩ | ⟨j, i, hj, hi, hji⟩
            · exact ⟨i, j, hi, hj, Or.inl hij⟩
            · exact ⟨i, j, hi, hj, Or.inr hji⟩
          have hlast : Graphs.Joined (neighbours order g) Q (g.nodes.idxOf c) (g.nodes.idxOf d) := by
            rw [hindex hi, hindex hj]
            exact Graphs.Joined.single (mem_neighbours.2 hedge) ((hPQ i c hi).1 hc) ((hPQ j d hj).1 hd)
          exact (ih hi).trans hlast
    rwa [hindex hv, hindex hu] at hmap
  · intro h
    have hnode : ∀ {i : Nat}, i < g.nodes.length → g.nodes[i]? = some (g.nodes.getD i "") :=
      fun hi => by rw [List.getD_eq_getElem?_getD, List.getElem?_eq_getElem hi, Option.getD_some]
    have hmap : Connected g.Link P (g.nodes.getD v "") (g.nodes.getD u "") := by
      clear hu
      induction h with
      | refl => exact ReflTransGen.refl
      | @tail i j _ hij ih =>
          obtain ⟨hmem, hi, hj⟩ := hij
          obtain ⟨hilt, hjlt⟩ := neighbours_lt hmem
          refine ReflTransGen.tail ih ⟨?_, (hPQ i _ (hnode hilt)).2 hi, (hPQ j _ (hnode hjlt)).2 hj⟩
          rcases mem_neighbours.1 hmem with hedge | hedge
          · exact Or.inl ⟨i, j, hnode hilt, hnode hjlt, hedge⟩
          · exact Or.inr ⟨j, i, hnode hjlt, hnode hilt, hedge⟩
    rwa [List.getD_eq_getElem?_getD, List.getD_eq_getElem?_getD, hv, hu, Option.getD_some,
      Option.getD_some] at hmap

/-- A host splits its component as its number does. -/
theorem splitsComponent_iff {p : Nat} {host : String} (hp : g.nodes[p]? = some host) :
    SplitsComponent g.Link host ↔ Splits (neighbours order g) p := by
  have htrue : ∀ (i : Nat) (x : String), g.nodes[i]? = some x → (True ↔ True) :=
    fun _ _ _ => Iff.rfl
  have hne : ∀ i x, g.nodes[i]? = some x → (x ≠ host ↔ i ≠ p) := fun i x hi => by
    rw [Ne, Ne, eq_iff_of_nodes hi hp]
  constructor
  · rintro ⟨a, b, ha, hb, hap, hbp, hnot⟩
    obtain ⟨v, hv⟩ := exists_number hap ha
    obtain ⟨u, hu⟩ := exists_number hbp hb
    exact ⟨v, u, (hne v a hv).1 ha, (hne u b hu).1 hb, (connected_iff_joined htrue hv hp).1 hap,
      (connected_iff_joined htrue hu hp).1 hbp, fun h => hnot ((connected_iff_joined hne hv hu).2 h)⟩
  · rintro ⟨v, u, hv, hu, hvp, hup, hnot⟩
    have hnode : ∀ {i}, i ≠ p → Graphs.Joined (neighbours order g) (fun _ => True) i p →
        ∃ x, g.nodes[i]? = some x := by
      intro i hi hjoined
      rcases ReflTransGen.cases_head hjoined with rfl | ⟨c, ⟨hc, -⟩, -⟩
      · exact absurd rfl hi
      · exact ⟨_, List.getElem?_eq_getElem (neighbours_lt hc).1⟩
    obtain ⟨a, ha⟩ := hnode hv hvp
    obtain ⟨b, hb⟩ := hnode hu hup
    exact ⟨a, b, (hne v a ha).2 hv, (hne u b hb).2 hu, (connected_iff_joined htrue ha hp).2 hvp,
      (connected_iff_joined htrue hb hp).2 hup,
      fun h => hnot ((connected_iff_joined hne ha hb).1 h)⟩

/-- The traversals end, and what they mark are the hosts whose removal splits the component they are
in, whatever the order of the neighbours. -/
theorem articulationPoints_exact (order : SetOrder) (edges : List EdgeIn) (enforced : Bool) :
    ∃ points, articulationPoints order (buildGraph edges enforced) = some points ∧
      ∀ host, host ∈ points ↔ SplitsComponent (Linked edges enforced) host := by
  generalize hg : buildGraph edges enforced = g
  have hlink : g.Link = Linked edges enforced := by
    funext a b
    rw [← hg]
    exact propext link_buildGraph
  have hsymm : ∀ v u, u ∈ neighbours order g v → v ∈ neighbours order g u := fun v u h =>
    mem_neighbours.2 (mem_neighbours.1 h).symm
  obtain ⟨points, hpoints, hexact⟩ := articulation_spec hsymm fun v u h =>
    List.mem_range.2 (neighbours_lt h).2
  refine ⟨_, by rw [articulationPoints, hpoints]; rfl, fun host => ?_⟩
  rw [← hlink, List.mem_map]
  constructor
  · rintro ⟨p, hp, rfl⟩
    have hsplits := (hexact p).1 hp
    have hlt : p < g.nodes.length := by
      obtain ⟨a, -, ha, -, hap, -⟩ := hsplits
      rcases ReflTransGen.cases_tail hap with rfl | ⟨c, -, hc, -⟩
      · exact absurd rfl ha
      · exact (neighbours_lt hc).2
    refine (splitsComponent_iff ?_).2 hsplits
    rw [List.getD_eq_getElem?_getD, List.getElem?_eq_getElem hlt, Option.getD_some]
  · intro hsplits
    have hnode : ∃ p : Nat, g.nodes[p]? = some host := by
      obtain ⟨a, -, ha, -, hap, -⟩ := hsplits
      rcases ReflTransGen.cases_tail hap with heq | ⟨c, -, hlinked, -⟩
      · exact absurd heq.symm ha
      · rcases hlinked with ⟨i, j, -, hj, -⟩ | ⟨i, j, hi, -, -⟩
        · exact ⟨j, hj⟩
        · exact ⟨i, hi⟩
    obtain ⟨p, hp⟩ := hnode
    exact ⟨p, (hexact p).2 ((splitsComponent_iff hp).1 hsplits),
      by rw [List.getD_eq_getElem?_getD, hp, Option.getD_some]⟩

end IllumioOps.Exposure
