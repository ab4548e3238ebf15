import IllumioOps.Exposure.Graph
import IllumioOps.Graphs.Search
import IllumioOps.Tables.Collected
import Mathlib.Data.Nat.BitIndices
import Mathlib.Data.Nat.Bitwise

/-!
# Reach counts and paths

`reach_counts`, `_paths_to` and `paths_to` of `domain.exposure`. The first counts the hosts that each
host reaches within the hops, from bit sets that grow by one hop a pass; the other two search backwards
from one target. Both say how the hosts reach each other along the edges (`reachCounts_getElem?`,
`mem_keys_pathsTo`), so their totals agree (`reach_and_paths_agree`).
-/

set_option autoImplicit false

namespace IllumioOps.Exposure

open Graphs Tables

/-! ## Bit sets -/

/-- `int.bit_count` -/
def bitCount (n : Nat) : Nat := n.bitIndices.length

/-- The bits of `acc` and of all the values. -/
theorem testBit_foldl_or {β : Type} (f : β → Nat) (l : List β) (acc i : Nat) :
    (l.foldl (fun acc x => acc ||| f x) acc).testBit i = true ↔
      acc.testBit i = true ∨ ∃ x ∈ l, (f x).testBit i = true := by
  induction l generalizing acc with
  | nil => simp
  | cons x l ih =>
      rw [List.foldl_cons, ih, Nat.testBit_or, Bool.or_eq_true]
      simp only [List.mem_cons, exists_eq_or_imp, or_assoc]

theorem testBit_one_shiftLeft {u i : Nat} : (1 <<< u).testBit i = true ↔ i = u := by
  rw [Nat.one_shiftLeft, Nat.testBit_two_pow]
  simp [eq_comm]

/-! ## Reach counts -/

/-- `direct[v] |= 1 << u` for each of the host's out edges. -/
def directBits (outs : List Nat) : Nat := outs.foldl (fun acc u => acc ||| 1 <<< u) 0

/-- One pass: what each host reaches, and what those reach that it has an edge to. -/
def pass (out : List (List Nat)) (reach : List Nat) : List Nat :=
  out.mapIdx fun v outs => outs.foldl (fun acc u => acc ||| reach.getD u 0) (reach.getD v 0)

/-- The bit sets after a number of passes. -/
def reachBits (g : Graph) : Nat → List Nat
  | 0 => g.out.map directBits
  | passes + 1 => pass g.out (reachBits g passes)

/-- How many hosts each host reaches in at most `hops` steps. -/
def reachCounts (g : Graph) (hops : Nat) : List Nat :=
  (reachBits g (hops - 1)).mapIdx fun v r => bitCount (Nat.ldiff r (1 <<< v))

variable {g : Graph}

theorem length_reachBits (passes : Nat) : (reachBits g passes).length = g.nodes.length := by
  cases passes with
  | zero => rw [reachBits, List.length_map, g.out_length]
  | succ passes => rw [reachBits, pass, List.length_mapIdx, g.out_length]

/-- After a number of passes, a host's bits are the hosts that one edge and that many more lead to. -/
theorem testBit_reachBits (passes v u : Nat) :
    ((reachBits g passes).getD v 0).testBit u = true ↔
      ∃ w, g.Edge v w ∧ Reaches g.Edge passes w u := by
  induction passes generalizing v with
  | zero =>
      have hbits : (reachBits g 0).getD v 0 = directBits (g.out.getD v []) := by
        simp only [reachBits, List.getD_eq_getElem?_getD, List.getElem?_map]
        cases g.out[v]? <;> rfl
      rw [hbits, directBits, testBit_foldl_or, Nat.zero_testBit]
      simp only [Bool.false_eq_true, false_or, testBit_one_shiftLeft, reaches_zero]
      constructor
      · rintro ⟨w, hw, rfl⟩
        exact ⟨u, hw, rfl⟩
      · rintro ⟨w, hw, rfl⟩
        exact ⟨w, hw, rfl⟩
  | succ passes ih =>
      have hbits : (reachBits g (passes + 1)).getD v 0 =
          (g.out.getD v []).foldl (fun acc u => acc ||| (reachBits g passes).getD u 0)
            (if v < g.out.length then (reachBits g passes).getD v 0 else 0) := by
        rw [reachBits, pass]
        simp only [List.getD_eq_getElem?_getD, List.getElem?_mapIdx]
        by_cases hlt : v < g.out.length <;> simp [hlt]
      have hown : (if v < g.out.length then (reachBits g passes).getD v 0 else 0) =
          (reachBits g passes).getD v 0 := by
        split
        · rfl
        · rename_i hge
          rw [g.out_length, ← length_reachBits passes] at hge
          rw [List.getD_eq_getElem?_getD, List.getElem?_eq_none (by omega), Option.getD_none]
      rw [hbits, hown, testBit_foldl_or]
      simp only [ih]
      constructor
      · rintro (⟨w, hvw, hw⟩ | ⟨w, hvw, x, hwx, hx⟩)
        · -- a host that was reached before is reached with one hop to spare
          obtain ⟨p, hp, hlength⟩ := hw
          exact ⟨w, hvw, p, hp, by omega⟩
        · exact ⟨w, hvw, hx.cons hwx⟩
      · rintro ⟨w, hvw, hw⟩
        rcases reaches_succ.1 hw with rfl | ⟨x, hwx, hx⟩
        · exact Or.inl ⟨w, hvw, Reaches.refl passes w⟩
        · exact Or.inr ⟨w, hvw, x, hwx, hx⟩

/-- The bits that are counted for a host: those of the other hosts that it reaches. -/
theorem mem_bitIndices_ldiff {hops : Nat} (hhops : 1 ≤ hops) {v u : Nat} :
    u ∈ (Nat.ldiff ((reachBits g (hops - 1)).getD v 0) (1 <<< v)).bitIndices ↔
      u ≠ v ∧ Reaches g.Edge hops v u := by
  obtain ⟨passes, rfl⟩ : ∃ passes, hops = passes + 1 := ⟨hops - 1, by omega⟩
  rw [Nat.mem_bitIndices, Nat.testBit_ldiff, Bool.and_eq_true, Bool.not_eq_true',
    ← Bool.not_eq_true, testBit_one_shiftLeft, Nat.add_sub_cancel, testBit_reachBits, reaches_succ]
  constructor
  · rintro ⟨hreach, hne⟩
    exact ⟨hne, Or.inr hreach⟩
  · rintro ⟨hne, rfl | hreach⟩
    · exact absurd rfl hne
    · exact ⟨hreach, hne⟩

/-- A host that is reached from one of the graph is one of the graph. -/
theorem lt_of_reaches {k v u : Nat} (h : Reaches g.Edge k v u) (hv : v < g.nodes.length) :
    u < g.nodes.length := by
  obtain ⟨p, hp, -⟩ := h
  rcases hp.stop with rfl | ⟨w, hw⟩
  · exact hv
  · exact hw.lt.2

theorem eq_iff_of_nodes {v u : Nat} {a b : String} (hv : g.nodes[v]? = some a)
    (hu : g.nodes[u]? = some b) : a = b ↔ v = u := by
  constructor
  · rintro rfl
    rw [← idxOf_of_getElem? g.nodes_nodup hv, idxOf_of_getElem? g.nodes_nodup hu]
  · rintro rfl
    exact Option.some.inj (hv.symm.trans hu)

theorem reaches_link_iff {k v u : Nat} {a b : String} (hv : g.nodes[v]? = some a)
    (hu : g.nodes[u]? = some b) : Reaches g.Link k a b ↔ Reaches g.Edge k v u :=
  reaches_named_iff g.nodes_nodup (fun _ _ => Graph.Edge.lt) hv hu

/-- The count of a host is that of the other hosts that it reaches. -/
theorem reachCounts_getElem? {hops : Nat} (hhops : 1 ≤ hops) {v : Nat} {host : String}
    (hv : g.nodes[v]? = some host) : ∃ reached : List String, reached.Nodup ∧
      (∀ h, h ∈ reached ↔ h ≠ host ∧ Reaches g.Link hops host h) ∧
      (reachCounts g hops)[v]? = some reached.length := by
  have hlt : v < g.nodes.length := (List.getElem?_eq_some_iff.1 hv).1
  generalize hbits : (Nat.ldiff ((reachBits g (hops - 1)).getD v 0) (1 <<< v)).bitIndices = bits
  have hmem : ∀ u, u ∈ bits ↔ u ≠ v ∧ Reaches g.Edge hops v u := fun u => by
    rw [← hbits]
    exact mem_bitIndices_ldiff hhops
  have hnames := mem_map_nodes g.nodes_nodup "" (hbits ▸ Nat.bitIndices_nodup)
    (fun u hu => lt_of_reaches ((hmem u).1 hu).2 hlt)
    (Q := fun h => h ≠ host ∧ Reaches g.Link hops host h) ?_ ?_
  · refine ⟨_, hnames.1, hnames.2, ?_⟩
    have hr : (reachBits g (hops - 1))[v]? = some ((reachBits g (hops - 1)).getD v 0) := by
      rw [← length_reachBits (hops - 1)] at hlt
      rw [List.getD_eq_getElem?_getD, List.getElem?_eq_getElem hlt, Option.getD_some]
    rw [reachCounts, List.getElem?_mapIdx, hr, Option.map_some, bitCount, hbits, List.length_map]
  · rintro h ⟨hne, p, hp, -⟩
    rcases hp.stop with rfl | ⟨w, i, j, -, hj, -⟩
    · exact absurd rfl hne
    · exact List.mem_of_getElem? hj
  · intro u h hu
    rw [hmem, Ne, Ne, eq_iff_of_nodes hu hv, reaches_link_iff hv hu]

/-! ## Paths to a target -/

/-- Each node's predecessors, in the order of their numbers. -/
def reverse (g : Graph) : List (List Nat) :=
  (g.out.zipIdx.flatMap fun e => e.1.map fun u => (u, e.2)).foldl place
    (List.replicate g.nodes.length [])

/-- The edges without one of them, or without those into a host. -/
def Graph.EdgeBut (g : Graph) (skipEdge : Option (Nat × Nat)) (skipInto : Option Nat) (v u : Nat) :
    Prop :=
  g.Edge v u ∧ ¬(some u = skipInto ∨ some (v, u) = skipEdge)

/-- `_paths_to`: the next hop of each source on its shortest path. Each host enters the queue at
most once. -/
def nextHops (g : Graph) (rev : List (List Nat)) (target hops : Nat)
    (skipEdge : Option (Nat × Nat)) (skipInto : Option Nat) : List (Nat × Nat) :=
  (Search.run (fun node => rev.getD node [])
    (fun pred node => some node = skipInto ∨ some (pred, node) = skipEdge) hops g.nodes.length
    (Search.start target)).nxt

/-- Every host that reaches `target` within `hops` steps, with its shortest path; none stands for
a next hop that is missing. -/
def pathsTo (g : Graph) (target : String) (hops : Nat) :
    Option (List (String × List String)) :=
  match g.index target with
  | none => some []
  | some t =>
    let nxt := nextHops g (reverse g) t hops none none
    (nxt.map Prod.fst).mapM fun s =>
      (Search.path nxt t (nxt.length + 1) s).map fun path =>
        (g.nodes.getD s "", path.map fun i => g.nodes.getD i "")

theorem mem_reverse {v u : Nat} : v ∈ (reverse g).getD u [] ↔ g.Edge v u := by
  have hnone : v ∉ (List.replicate g.nodes.length ([] : List Nat)).getD u [] := by
    rw [List.getD_eq_getElem?_getD, List.getElem?_replicate]
    split <;> simp
  rw [reverse, mem_foldl_place, or_iff_right hnone, List.length_replicate]
  have hmem : (u, v) ∈ (g.out.zipIdx.flatMap fun e => e.1.map fun u => (u, e.2)) ↔ g.Edge v u := by
    simp only [List.mem_flatMap, List.mem_map, Prod.exists, List.mem_zipIdx_iff_getElem?,
      Prod.mk.injEq, Graph.Edge, List.getD_eq_getElem?_getD]
    constructor
    · rintro ⟨outs, i, hi, w, hw, rfl, rfl⟩
      rwa [hi]
    · intro h
      cases hv : g.out[v]? with
      | none =>
          rw [hv] at h
          exact absurd h List.not_mem_nil
      | some outs =>
          rw [hv] at h
          exact ⟨outs, v, hv, u, h, rfl, rfl⟩
  rw [hmem]
  exact ⟨And.right, fun h => ⟨h.lt.2, h⟩⟩

/-- The search that `nextHops` makes is over when it ends, and it has found what it should. -/
theorem nextHops_sound {target : Nat} (ht : target < g.nodes.length) (hops : Nat)
    (skipEdge : Option (Nat × Nat)) (skipInto : Option Nat) :
    ∃ (s : Search Nat) (visited : List Nat),
      s.Sound (g.EdgeBut skipEdge skipInto) target hops visited ∧ s.queue = [] ∧
        s.nxt = nextHops g (reverse g) target hops skipEdge skipInto := by
  have hstart : (Search.start target).Sound (g.EdgeBut skipEdge skipInto) target hops [] :=
    Search.sound_start
  have hedge : ∀ v u, g.EdgeBut skipEdge skipInto v u ↔ v ∈ (reverse g).getD u [] ∧
      decide (some u = skipInto ∨ some (v, u) = skipEdge) = false := by
    intro v u
    rw [mem_reverse, decide_eq_false_iff_not]
    rfl
  have hpreds : ∀ u ∈ List.range g.nodes.length, ∀ v ∈ (reverse g).getD u [],
      v ∈ List.range g.nodes.length := fun u _ v hv =>
    List.mem_range.2 (mem_reverse.1 hv).lt.1
  obtain ⟨visited, hsound, hempty⟩ := hstart.run hedge hpreds g.nodes.length
    (fun x hx => List.mem_range.2 (List.mem_singleton.1 hx ▸ ht))
    (by rw [List.length_range]; exact Nat.le_of_eq (Nat.add_comm _ _))
  exact ⟨_, visited, hsound, hempty, rfl⟩

/-- The hosts with a next hop are those that reach the target. -/
theorem mem_keys_nextHops {target : Nat} (ht : target < g.nodes.length) {hops : Nat}
    {skipEdge : Option (Nat × Nat)} {skipInto : Option Nat} {v : Nat} :
    v ∈ (nextHops g (reverse g) target hops skipEdge skipInto).map Prod.fst ↔
      v ≠ target ∧ Reaches (g.EdgeBut skipEdge skipInto) hops v target := by
  obtain ⟨s, visited, hsound, hempty, hnxt⟩ := nextHops_sound ht hops skipEdge skipInto
  rw [← hnxt]
  exact hsound.mem_nxt_iff hempty

theorem nodup_keys_nextHops {target : Nat} (ht : target < g.nodes.length) {hops : Nat}
    {skipEdge : Option (Nat × Nat)} {skipInto : Option Nat} :
    ((nextHops g (reverse g) target hops skipEdge skipInto).map Prod.fst).Nodup := by
  obtain ⟨s, visited, hsound, -, hnxt⟩ := nextHops_sound ht hops skipEdge skipInto
  have hnodup := hsound.distinct
  rw [hsound.nexts, hnxt] at hnodup
  exact (List.nodup_cons.1 hnodup).2

theorem edgeBut_none : g.EdgeBut none none = g.Edge := by
  funext v u
  simp [Graph.EdgeBut]

theorem index_eq_some_iff {host : String} {v : Nat} :
    g.index host = some v ↔ g.nodes[v]? = some host := by
  constructor
  · intro h
    obtain ⟨hlt, hv, -⟩ := List.idxOf?_eq_some_iff.1 h
    exact List.getElem?_eq_some_iff.2 ⟨hlt, hv⟩
  · intro h
    have hmem : host ∈ g.nodes := List.mem_of_getElem? h
    rw [Graph.index, List.idxOf?_eq_some_iff]
    obtain ⟨hlt, rfl⟩ := List.getElem?_eq_some_iff.1 h
    refine ⟨hlt, rfl, fun j hj heq => Nat.ne_of_lt hj ?_⟩
    exact (g.nodes_nodup.getElem_inj_iff).1 heq

/-- Who reaches a host that is not its own start reaches a host of the graph. -/
theorem mem_nodes_of_reaches {k : Nat} {host target : String} (hne : host ≠ target)
    (h : Reaches g.Link k host target) : host ∈ g.nodes ∧ target ∈ g.nodes := by
  obtain ⟨p, hp, -⟩ := h
  constructor
  · rcases hp.start with rfl | ⟨w, i, j, hi, -, -⟩
    · exact absurd rfl hne
    · exact List.mem_of_getElem? hi
  · rcases hp.stop with rfl | ⟨w, i, j, -, hj, -⟩
    · exact absurd rfl hne
    · exact List.mem_of_getElem? hj

/-- A path along the edges of `L` for each host, and no other, that reaches the target within the
hops, no longer than any other of its paths to the target. -/
structure ShortestPaths (L : String → String → Prop) (hops : Nat) (target : String)
    (paths : List (String × List String)) : Prop where
  distinct : (paths.map Prod.fst).Nodup
  sources : ∀ host, host ∈ paths.map Prod.fst ↔ host ≠ target ∧ Reaches L hops host target
  shortest : ∀ host p, (host, p) ∈ paths → Route L host target p ∧
    ∀ q, Route L host target q → p.length ≤ q.length

/-- There is a path for each host that reaches the target, a shortest one of its edges. -/
theorem pathsTo_spec (g : Graph) (target : String) (hops : Nat) :
    ∃ paths, pathsTo g target hops = some paths ∧ ShortestPaths g.Link hops target paths := by
  cases hindex : g.index target with
  | none =>
      rw [pathsTo, hindex]
      refine ⟨[], rfl, List.nodup_nil, fun host => ?_,
        fun host p hp => absurd hp List.not_mem_nil⟩
      refine iff_of_false List.not_mem_nil fun ⟨hne, hreach⟩ => ?_
      exact List.idxOf?_eq_none_iff.1 hindex (mem_nodes_of_reaches hne hreach).2
  | some t =>
      have ht := index_eq_some_iff.1 hindex
      have hlt : t < g.nodes.length := (List.getElem?_eq_some_iff.1 ht).1
      obtain ⟨s, visited, hsound, hempty, hnxt⟩ := nextHops_sound hlt hops none none
      have hkeys : ∀ {v : Nat}, v ∈ s.nxt.map Prod.fst ↔ v ≠ t ∧ Reaches g.Edge hops v t := by
        intro v
        rw [hsound.mem_nxt_iff hempty, edgeBut_none]
      rw [edgeBut_none] at hsound
      have hkeylt : ∀ v ∈ s.nxt.map Prod.fst, v < g.nodes.length := fun v hv => by
        obtain ⟨hne, p, hp, -⟩ := hkeys.1 hv
        rcases hp.start with rfl | ⟨w, hw⟩
        · exact absurd rfl hne
        · exact hw.lt.1
      -- every source has its path
      have hpath : ∀ v ∈ s.nxt.map Prod.fst, ∃ r,
          ((Search.path s.nxt t (s.nxt.length + 1) v).map fun path =>
            (g.nodes.getD v "", path.map fun i => g.nodes.getD i "")) = some r := fun v hv => by
        obtain ⟨p, hp, -⟩ := hsound.path_spec hempty hv
        exact ⟨_, by rw [hp]; rfl⟩
      obtain ⟨paths, hpaths⟩ := exists_mapM hpath
      have hfst : paths.map Prod.fst = (s.nxt.map Prod.fst).map fun v => g.nodes.getD v "" := by
        refine map_eq_map_of_mapM hpaths fun v r hr => ?_
        obtain ⟨p, -, rfl⟩ := Option.map_eq_some_iff.1 hr
        rfl
      obtain ⟨hnodup, hmem⟩ := mem_map_nodes g.nodes_nodup "" (hnxt ▸ nodup_keys_nextHops hlt) hkeylt
        (Q := fun host => host ≠ target ∧ Reaches g.Link hops host target)
        (fun host hq => (mem_nodes_of_reaches hq.1 hq.2).1)
        fun v host hv => by rw [hkeys, Ne, Ne, eq_iff_of_nodes hv ht, reaches_link_iff hv ht]
      refine ⟨paths, ?_, hfst ▸ hnodup, fun host => hfst ▸ hmem host, fun host p hp => ?_⟩
      · rw [pathsTo, hindex]
        dsimp only
        rw [← hnxt]
        exact hpaths
      · obtain ⟨v, hv, hr⟩ := exists_of_mem_mapM hpaths hp
        obtain ⟨path, hpath, heq⟩ := Option.map_eq_some_iff.1 hr
        obtain ⟨rfl, rfl⟩ := Prod.mk.inj heq
        obtain ⟨p, hfollow, hroute, -, hshortest⟩ := hsound.path_spec hempty hv
        obtain rfl := Option.some.inj (hpath.symm.trans hfollow)
        have hhost : g.nodes[v]? = some (g.nodes.getD v "") := by
          rw [List.getD_eq_getElem?_getD, List.getElem?_eq_getElem (hkeylt v hv), Option.getD_some]
        refine ⟨hroute.named (fun _ _ => Graph.Edge.lt) "" hhost ht, fun q hq => ?_⟩
        have hle := hshortest _ (hq.numbered g.nodes_nodup hhost ht)
        rwa [List.length_map] at hle ⊢

/-! ## The counts and the paths of one list of connections -/

/-- A host's reach by its name, 0 for one that the graph does not have:
`dict(zip(g.nodes, reach_counts(g, hops))).get(host, 0)`. -/
def reachOf (g : Graph) (hops : Nat) (host : String) : Nat :=
  ((g.nodes.zip (reachCounts g hops)).lookup host).getD 0

theorem length_reachCounts (g : Graph) (hops : Nat) :
    (reachCounts g hops).length = g.nodes.length := by
  rw [reachCounts, List.length_mapIdx, length_reachBits]

/-- A host's reach is that of the other hosts that it reaches. -/
theorem reachOf_spec (g : Graph) {hops : Nat} (hhops : 1 ≤ hops) (host : String) :
    ∃ reached : List String, reached.Nodup ∧
      (∀ h, h ∈ reached ↔ h ≠ host ∧ Reaches g.Link hops host h) ∧
      reachOf g hops host = reached.length := by
  have hkeys : (g.nodes.zip (reachCounts g hops)).map Prod.fst = g.nodes :=
    List.map_fst_zip (Nat.le_of_eq (length_reachCounts g hops).symm)
  by_cases hin : host ∈ g.nodes
  · obtain ⟨v, hv⟩ := List.mem_iff_getElem?.1 hin
    obtain ⟨reached, hnodup, hmem, hcount⟩ := reachCounts_getElem? hhops hv
    refine ⟨reached, hnodup, hmem, ?_⟩
    have hpair : (host, reached.length) ∈ g.nodes.zip (reachCounts g hops) :=
      List.mem_iff_getElem?.2 ⟨v, by rw [List.getElem?_zip_eq_some]; exact ⟨hv, hcount⟩⟩
    have hdistinct : ((g.nodes.zip (reachCounts g hops)).map Prod.fst).Nodup := by
      rw [hkeys]
      exact g.nodes_nodup
    rw [reachOf, (lookup_eq_some_iff_mem hdistinct).2 hpair, Option.getD_some]
  · refine ⟨[], List.nodup_nil, fun h => ?_, ?_⟩
    · refine iff_of_false List.not_mem_nil fun ⟨hne, hreach⟩ => ?_
      exact hin (mem_nodes_of_reaches (Ne.symm hne) hreach).1
    · have hnone : (g.nodes.zip (reachCounts g hops)).lookup host = none := by
        rw [List.lookup_eq_none_iff]
        intro e he
        have hmem : e.1 ∈ g.nodes := hkeys ▸ List.mem_map_of_mem he
        simp only [bne_iff_ne]
        exact fun heq => hin (heq ▸ hmem)
      rw [reachOf, hnone]
      rfl

/-- With fewer edges a host reaches no more hosts. -/
theorem reachOf_mono {g g' : Graph} (hlink : ∀ a b, g.Link a b → g'.Link a b) {hops : Nat}
    (hhops : 1 ≤ hops) (host : String) : reachOf g hops host ≤ reachOf g' hops host := by
  obtain ⟨reached, hnodup, hmem, hreach⟩ := reachOf_spec g hhops host
  obtain ⟨reached', hnodup', hmem', hreach'⟩ := reachOf_spec g' hhops host
  have hsub : reached ⊆ reached' := fun h hh => by
    obtain ⟨hne, hr⟩ := (hmem h).1 hh
    exact (hmem' h).2 ⟨hne, hr.mono hlink⟩
  rw [hreach, hreach']
  exact (hnodup.subperm hsub).length_le

open Classical in
/-- The reach of all hosts and the sources of all targets are the same pairs. -/
theorem sum_reachCounts (g : Graph) {hops : Nat} (hhops : 1 ≤ hops) :
    (reachCounts g hops).sum =
      (g.nodes.map fun target => ((pathsTo g target hops).getD []).length).sum := by
  have hcounts : reachCounts g hops = g.nodes.map fun host => g.nodes.countP fun h =>
      decide (h ≠ host ∧ Reaches g.Link hops host h) := by
    refine List.ext_getElem? fun v => ?_
    rw [List.getElem?_map]
    cases hv : g.nodes[v]? with
    | none =>
        rw [List.getElem?_eq_none_iff] at hv
        rw [Option.map_none, List.getElem?_eq_none_iff, length_reachCounts]
        exact hv
    | some host =>
        obtain ⟨reached, hnodup, hmem, hcount⟩ := reachCounts_getElem? hhops hv
        rw [hcount, Option.map_some, length_eq_countP hnodup g.nodes_nodup fun h => ?_]
        rw [hmem, decide_eq_true_iff]
        exact ⟨fun hh => ⟨(mem_nodes_of_reaches (Ne.symm hh.1) hh.2).2, hh⟩, And.right⟩
  have hpaths : ∀ target, ((pathsTo g target hops).getD []).length = g.nodes.countP fun h =>
      decide (target ≠ h ∧ Reaches g.Link hops h target) := by
    intro target
    obtain ⟨paths, hsome, hspec⟩ := pathsTo_spec g target hops
    have hlength : paths.length = (paths.map Prod.fst).length := (List.length_map _).symm
    rw [hsome, Option.getD_some, hlength,
      length_eq_countP hspec.distinct g.nodes_nodup fun h => ?_]
    rw [hspec.sources, decide_eq_true_iff, ne_comm]
    exact ⟨fun hh => ⟨(mem_nodes_of_reaches (Ne.symm hh.1) hh.2).1, hh⟩, And.right⟩
  rw [hcounts, sum_countP_comm]
  simp only [hpaths]

/-- On the graph of any connections, the counts and the paths say how the hosts reach each other: a
host's count is that of the other hosts within the hops, the paths to a target are the shortest ones
of the hosts that have it within theirs, the totals agree, and enforcing takes from every reach. -/
theorem reach_and_paths_agree (edges : List EdgeIn) (hops : Nat) (hhops : 1 ≤ hops) :
    (∀ enforced,
      (reachCounts (buildGraph edges enforced) hops).length =
        (buildGraph edges enforced).nodes.length ∧
      (∀ (v : Nat) (host : String), (buildGraph edges enforced).nodes[v]? = some host →
        (reachCounts (buildGraph edges enforced) hops)[v]? =
          some (Set.ncard {h | h ≠ host ∧ Reaches (Linked edges enforced) hops host h})) ∧
      (∀ target, ∃ paths, pathsTo (buildGraph edges enforced) target hops = some paths ∧
        ShortestPaths (Linked edges enforced) hops target paths) ∧
      (reachCounts (buildGraph edges enforced) hops).sum =
        ((buildGraph edges enforced).nodes.map fun target =>
          ((pathsTo (buildGraph edges enforced) target hops).getD []).length).sum) ∧
    ∀ host, reachOf (buildGraph edges true) hops host ≤ reachOf (buildGraph edges false) hops host := by
  have hlink : ∀ enforced, (buildGraph edges enforced).Link = Linked edges enforced := by
    intro enforced
    funext a b
    exact propext link_buildGraph
  refine ⟨fun enforced => ⟨length_reachCounts _ hops, fun v host hv => ?_, fun target => ?_,
    sum_reachCounts _ hhops⟩, fun host => reachOf_mono (fun a b hab => ?_) hhops host⟩
  · obtain ⟨reached, hnodup, hmem, hcount⟩ := reachCounts_getElem? hhops hv
    rw [hlink] at hmem
    rw [hcount, ncard_eq_length hnodup hmem]
  · rw [← hlink]
    exact pathsTo_spec _ target hops
  · -- a connection of the enforced graph counts in the full one
    rw [hlink] at hab ⊢
    obtain ⟨e, he, hcounts, hends⟩ := hab
    refine ⟨e, he, fun hskip => hcounts (Or.inl ?_), hends⟩
    rcases hskip with heq | ⟨hfalse, -⟩
    · exact heq
    · exact absurd hfalse Bool.false_ne_true

/-- Two connections in a row, the second one not reported as allowed. -/
def chain : List EdgeIn :=
  [⟨"/w/app", "/w/db", 22, 6, .allowed⟩, ⟨"/w/db", "ip:10.0.0.9", 3389, 6, .unknown⟩]

theorem reach_and_paths_agree_chain :
    (reachCounts (buildGraph chain false) 2).sum =
        ((buildGraph chain false).nodes.map fun target =>
          ((pathsTo (buildGraph chain false) target 2).getD []).length).sum ∧
      reachOf (buildGraph chain true) 2 "/w/app" ≤ reachOf (buildGraph chain false) 2 "/w/app" :=
  ⟨((reach_and_paths_agree chain 2 (by decide)).1 false).2.2.2,
    (reach_and_paths_agree chain 2 (by decide)).2 "/w/app"⟩

end IllumioOps.Exposure
