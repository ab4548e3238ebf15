import IllumioOps.Graphs.Routes
import IllumioOps.Tables.Keyed
import Mathlib.Data.List.Nodup
import Mathlib.Data.List.Perm.Subperm

/-!
# Breadth-first search towards a target

The search walks edges backwards from a target, to at most a number of hops, and notes for each node
it finds the next node on its way. `Search.Sound` is what holds between two turns; a search that has
emptied its queue has found the nodes that reach the target (`Search.mem_nxt_iff`), and following the
notes from one of them is a shortest route (`Search.path_spec`).
-/

set_option autoImplicit false

namespace IllumioOps.Graphs

open Tables

variable {α : Type}

/-- The nodes still to look at; what is known of each node that was found: its distance and, the
target apart, its next node. -/
structure Search (α : Type) where
  queue : List α
  dist : List (α × Nat)
  nxt : List (α × α)

namespace Search

def start (target : α) : Search α where
  queue := [target]
  dist := [(target, 0)]
  nxt := []

section

variable [DecidableEq α]

/-- Looks at a predecessor of a node whose distance is `d`. -/
def visit (skip : α → α → Bool) (node : α) (d : Nat) (s : Search α) (pred : α) : Search α :=
  if pred ∈ s.dist.map Prod.fst ∨ skip pred node then s
  else
    { queue := s.queue ++ [pred]
      dist := s.dist ++ [(pred, d + 1)]
      nxt := s.nxt ++ [(pred, node)] }

/-- Turns until the queue is empty; a turn takes its first node. -/
def run (preds : α → List α) (skip : α → α → Bool) (hops : Nat) : Nat → Search α → Search α
  | 0, s => s
  | fuel + 1, s =>
    match s.queue with
    | [] => s
    | node :: rest =>
      let d := (s.dist.lookup node).getD 0
      let popped := { s with queue := rest }
      run preds skip hops fuel
        (if d = hops then popped else (preds node).foldl (visit skip node d) popped)

/-- The nodes from `source` on, by the notes; none for a node without a note. -/
def path (nxt : List (α × α)) (target : α) : Nat → α → Option (List α)
  | 0, _ => none
  | fuel + 1, source =>
    if source = target then some [source]
    else (nxt.lookup source).bind fun node => (path nxt target fuel node).map (source :: ·)

end

/-! ## One turn -/

/-- The search with nodes found from `node`, whose distance is `d`. -/
def add (s : Search α) (node : α) (d : Nat) (new : List α) : Search α where
  queue := s.queue ++ new
  dist := s.dist ++ new.map fun x => (x, d + 1)
  nxt := s.nxt ++ new.map fun x => (x, node)

theorem keys_add (s : Search α) (node : α) (d : Nat) (new : List α) :
    (s.add node d new).dist.map Prod.fst = s.dist.map Prod.fst ++ new := by
  simp [add, Function.comp_def]

/-- Looking at the predecessors of a node adds those that are new and not skipped, each once. -/
theorem foldl_visit [DecidableEq α] (skip : α → α → Bool) (node : α) (d : Nat) (l : List α) (s : Search α) :
    ∃ new : List α, new.Nodup ∧
      (∀ x, x ∈ new ↔ x ∈ l ∧ skip x node = false ∧ x ∉ s.dist.map Prod.fst) ∧
      l.foldl (visit skip node d) s = s.add node d new := by
  induction l generalizing s with
  | nil => exact ⟨[], List.nodup_nil, by simp, by simp [add]⟩
  | cons pred l ih =>
      rw [List.foldl_cons]
      by_cases hknown : pred ∈ s.dist.map Prod.fst ∨ skip pred node
      · -- it is known or skipped: nothing changes
        obtain ⟨new, hnodup, hmem, hrun⟩ := ih s
        refine ⟨new, hnodup, fun x => ?_, ?_⟩
        · rw [hmem, List.mem_cons]
          constructor
          · rintro ⟨hx, hrest⟩
            exact ⟨Or.inr hx, hrest⟩
          · rintro ⟨rfl | hx, hskip, hnew⟩
            · rcases hknown with hknown | hknown
              · exact absurd hknown hnew
              · rw [hskip] at hknown
                exact absurd hknown Bool.false_ne_true
            · exact ⟨hx, hskip, hnew⟩
        · rw [visit, if_pos hknown, hrun]
      · obtain ⟨new, hnodup, hmem, hrun⟩ := ih (s.add node d [pred])
        have hvisit : visit skip node d s pred = s.add node d [pred] := by
          rw [visit, if_neg hknown]
          rfl
        rw [not_or, Bool.not_eq_true] at hknown
        simp only [keys_add, List.mem_append, List.mem_singleton, not_or] at hmem
        refine ⟨pred :: new, List.nodup_cons.2 ⟨?_, hnodup⟩, fun x => ?_, ?_⟩
        · intro hpred
          exact ((hmem pred).1 hpred).2.2.2 rfl
        · rw [List.mem_cons, hmem, List.mem_cons]
          constructor
          · rintro (rfl | ⟨hx, hskip, hnew, -⟩)
            · exact ⟨Or.inl rfl, hknown.2, hknown.1⟩
            · exact ⟨Or.inr hx, hskip, hnew⟩
          · rintro ⟨rfl | hx, hskip, hnew⟩
            · exact Or.inl rfl
            · by_cases heq : x = pred
              · exact Or.inl heq
              · exact Or.inr ⟨hx, hskip, hnew, heq⟩
        · rw [hvisit, hrun]
          simp [add]

/-! ## Between the turns -/

/-- A search towards `target` along `E` that has looked at the nodes of `done`: it found those and
the ones of the queue, in the order of their distances, and knows the predecessors of each node it
has looked at. -/
structure Sound (E : α → α → Prop) (target : α) (hops : Nat) (s : Search α) (done : List α) :
    Prop where
  keys : s.dist.map Prod.fst = done ++ s.queue
  distinct : (s.dist.map Prod.fst).Nodup
  nexts : s.dist.map Prod.fst = target :: s.nxt.map Prod.fst
  start : (target, 0) ∈ s.dist
  step : ∀ x y, (x, y) ∈ s.nxt → E x y ∧ ∃ d, (y, d) ∈ s.dist ∧ (x, d + 1) ∈ s.dist
  near : ∀ p ∈ s.dist, p.2 ≤ hops ∧ p.2 < s.dist.length
  sorted : s.dist.Pairwise fun p q => p.2 ≤ q.2
  level : ∀ node, s.queue.head? = some node → ∀ d, (node, d) ∈ s.dist → ∀ p ∈ s.dist, p.2 ≤ d + 1
  closed : ∀ y ∈ done, ∀ d, (y, d) ∈ s.dist → d < hops → ∀ x, E x y →
    ∃ e ≤ d + 1, (x, e) ∈ s.dist

variable {E : α → α → Prop} {target : α} {hops : Nat} {s : Search α} {done : List α}

theorem sound_start : Sound E target hops (start target) [] where
  keys := rfl
  distinct := List.nodup_singleton target
  nexts := rfl
  start := List.mem_singleton_self _
  step := by simp [Search.start]
  near := by simp [Search.start]
  sorted := List.pairwise_singleton _ _
  level := by simp [Search.start]
  closed := by simp

/-- The distances of the queue are at least that of the node at its head. -/
theorem Sound.le_of_mem_rest (h : Sound E target hops s done) {node : α} {rest : List α} {d : Nat}
    (hqueue : s.queue = node :: rest) (hd : (node, d) ∈ s.dist) {x : α} {e : Nat} (hx : x ∈ rest)
    (he : (x, e) ∈ s.dist) : d ≤ e := by
  have hkeys := h.keys
  rw [hqueue] at hkeys
  -- the entries in three parts, as the keys stand: looked at, the node, the rest
  obtain ⟨before, after, hdist, -, hafter⟩ := List.map_eq_append_iff.1 hkeys
  obtain ⟨entry, post, rfl, hentry, hpost⟩ := List.map_eq_cons_iff.1 hafter
  have hmem : entry ∈ s.dist := by rw [hdist]; simp
  have heq : entry = (node, d) := by
    obtain ⟨k, v⟩ := entry
    obtain rfl : k = node := hentry
    rw [value_unique h.distinct hmem hd]
  have hsorted := h.sorted
  rw [hdist, List.pairwise_append] at hsorted
  rw [← hpost] at hx
  obtain ⟨⟨k, v⟩, hv, rfl⟩ := List.mem_map.1 hx
  have hvmem : (k, v) ∈ s.dist := by rw [hdist]; simp [hv]
  have hve : v = e := value_unique h.distinct hvmem he
  have hle := List.rel_of_pairwise_cons hsorted.2.1 hv
  rw [heq] at hle
  exact hve ▸ hle

/-- A turn: the node at the head of the queue is looked at, and its new predecessors are added. -/
theorem Sound.add (h : Sound E target hops s done) {node : α} {rest new : List α} {d : Nat}
    (hqueue : s.queue = node :: rest) (hd : (node, d) ∈ s.dist) (hnodup : new.Nodup)
    (hnew : ∀ x ∈ new, E x node ∧ x ∉ s.dist.map Prod.fst ∧ d < hops)
    (hall : d < hops → ∀ x, E x node → x ∈ s.dist.map Prod.fst ∨ x ∈ new) :
    Sound E target hops (Search.add { s with queue := rest } node d new) (done ++ [node]) := by
  have hlevel := h.level node (by rw [hqueue]; rfl) d hd
  have hkeys := keys_add { s with queue := rest } node d new
  have hdistinct : ((Search.add { s with queue := rest } node d new).dist.map Prod.fst).Nodup := by
    rw [hkeys, List.nodup_append]
    refine ⟨h.distinct, hnodup, ?_⟩
    rintro x hx y hy rfl
    exact (hnew x hy).2.1 hx
  have hmem : ∀ p, p ∈ (Search.add { s with queue := rest } node d new).dist ↔
      p ∈ s.dist ∨ p.1 ∈ new ∧ p.2 = d + 1 := by
    rintro ⟨x, e⟩
    simp only [Search.add, List.mem_append, List.mem_map, Prod.mk.injEq]
    constructor
    · rintro (hold | ⟨y, hy, rfl, rfl⟩)
      · exact Or.inl hold
      · exact Or.inr ⟨hy, rfl⟩
    · rintro (hold | ⟨hx, rfl⟩)
      · exact Or.inl hold
      · exact Or.inr ⟨x, hx, rfl, rfl⟩
  refine
    { keys := ?_, distinct := hdistinct, nexts := ?_, start := (hmem _).2 (Or.inl h.start),
      step := ?_, near := ?_, sorted := ?_, level := ?_, closed := ?_ }
  · rw [hkeys]
    simp [Search.add, h.keys, hqueue]
  · rw [hkeys]
    simp [Search.add, h.nexts, Function.comp_def]
  · intro x y hxy
    simp only [Search.add, List.mem_append, List.mem_map, Prod.mk.injEq] at hxy
    rcases hxy with hold | ⟨x, hx, rfl, rfl⟩
    · obtain ⟨hE, e, hy, hx⟩ := h.step x y hold
      exact ⟨hE, e, (hmem _).2 (Or.inl hy), (hmem _).2 (Or.inl hx)⟩
    · exact ⟨(hnew x hx).1, d, (hmem _).2 (Or.inl hd), (hmem _).2 (Or.inr ⟨hx, rfl⟩)⟩
  · intro p hp
    have hlength : (Search.add { s with queue := rest } node d new).dist.length =
        s.dist.length + new.length := by simp [Search.add]
    rw [hlength]
    rcases (hmem p).1 hp with hold | ⟨hx, heq⟩
    · have hnear := h.near p hold
      omega
    · have hlt := (hnew _ hx).2.2
      have hpos := List.length_pos_of_mem hx
      have hnear := (h.near _ hd).2
      dsimp only at hnear
      omega
  · refine List.pairwise_append.2 ⟨h.sorted, ?_, ?_⟩
    · rw [List.pairwise_map]
      exact List.pairwise_iff_forall_sublist.2 fun _ => Nat.le_refl _
    · intro p hp q hq
      obtain ⟨x, -, rfl⟩ := List.mem_map.1 hq
      exact hlevel p hp
  · -- the next head is at least as far as the node, and nothing is farther than one hop more
    intro head hhead e he p hp
    have hfar : d ≤ e := by
      have hhead' : head ∈ rest ++ new := List.mem_of_head? hhead
      rcases (hmem _).1 he with hold | ⟨-, heq⟩
      · rcases List.mem_append.1 hhead' with hrest | hhead'
        · exact h.le_of_mem_rest hqueue hd hrest hold
        · exact absurd (List.mem_map.2 ⟨_, hold, rfl⟩) (hnew head hhead').2.1
      · dsimp only at heq
        omega
    rcases (hmem p).1 hp with hold | ⟨-, heq⟩
    · exact Nat.le_trans (hlevel p hold) (Nat.succ_le_succ hfar)
    · rw [heq]
      exact Nat.succ_le_succ hfar
  · intro y hy e he hlt x hE
    have hold : (y, e) ∈ s.dist := by
      rcases (hmem _).1 he with hold | ⟨hx, -⟩
      · exact hold
      · refine absurd ?_ (hnew y hx).2.1
        rw [h.keys, hqueue]
        rcases List.mem_append.1 hy with hy | hy
        · exact List.mem_append_left _ hy
        · rw [List.mem_singleton.1 hy]
          simp
    rcases List.mem_append.1 hy with hy | hy
    · obtain ⟨f, hle, hf⟩ := h.closed y hy e hold hlt x hE
      exact ⟨f, hle, (hmem _).2 (Or.inl hf)⟩
    · -- the node itself: its predecessors were found before or are found now
      obtain rfl := List.mem_singleton.1 hy
      obtain rfl := value_unique h.distinct hold hd
      rcases hall hlt x hE with hx | hx
      · obtain ⟨⟨x, f⟩, hf, rfl⟩ := List.mem_map.1 hx
        exact ⟨f, hlevel _ hf, (hmem _).2 (Or.inl hf)⟩
      · exact ⟨e + 1, Nat.le_refl _, (hmem _).2 (Or.inr ⟨hx, rfl⟩)⟩

/-! ## A whole search -/

variable [DecidableEq α] {preds : α → List α} {skip : α → α → Bool}

/-- Every turn keeps the search sound, and with fuel for each node of a list that has them all, the
queue is empty in the end. -/
theorem Sound.run {all : List α} (hE : ∀ x y, E x y ↔ x ∈ preds y ∧ skip x y = false)
    (hpreds : ∀ y ∈ all, ∀ x ∈ preds y, x ∈ all) (fuel : Nat) (h : Sound E target hops s done)
    (hin : ∀ x ∈ s.dist.map Prod.fst, x ∈ all)
    (hfuel : s.queue.length + all.length ≤ fuel + s.dist.length) :
    ∃ visited, Sound E target hops (run preds skip hops fuel s) visited ∧
      (Search.run preds skip hops fuel s).queue = [] := by
  induction fuel generalizing s done with
  | zero =>
      have hlength : s.dist.length ≤ all.length := by
        have hsub : s.dist.map Prod.fst ⊆ all := hin
        have hle := (h.distinct.subperm hsub).length_le
        rwa [List.length_map] at hle
      refine ⟨done, h, List.eq_nil_of_length_eq_zero ?_⟩
      rw [Search.run]
      omega
  | succ fuel ih =>
      rw [Search.run]
      split
      · rename_i hempty
        exact ⟨done, h, hempty⟩
      · rename_i node rest hqueue
        have hnode : node ∈ s.dist.map Prod.fst := by
          rw [h.keys, hqueue]
          simp
        obtain ⟨⟨node, d⟩, hd, rfl⟩ := List.mem_map.1 hnode
        have hlookup : s.dist.lookup node = some d := (lookup_eq_some_iff_mem h.distinct).2 hd
        dsimp only at hqueue ⊢
        rw [hlookup, Option.getD_some]
        have hlength : s.queue.length = rest.length + 1 := by rw [hqueue]; rfl
        split
        · -- at the last hop nothing is added
          rename_i hlast
          have hturn := h.add hqueue hd List.nodup_nil (by simp) fun hlt => by omega
          simp only [Search.add, List.map_nil, List.append_nil] at hturn
          exact ih hturn hin (by dsimp only; omega)
        · rename_i hlast
          have hlt : d < hops := Nat.lt_of_le_of_ne (h.near _ hd).1 hlast
          obtain ⟨new, hnodup, hmem, hrun⟩ :=
            foldl_visit skip node d (preds node) { s with queue := rest }
          have hturn : Sound E target hops (Search.add { s with queue := rest } node d new)
              (done ++ [node]) := by
            refine h.add hqueue hd hnodup (fun x hx => ?_) fun _ x hx => ?_
            · obtain ⟨hpred, hskip, hfresh⟩ := (hmem x).1 hx
              exact ⟨(hE x node).2 ⟨hpred, hskip⟩, hfresh, hlt⟩
            · obtain ⟨hpred, hskip⟩ := (hE x node).1 hx
              by_cases hknown : x ∈ s.dist.map Prod.fst
              · exact Or.inl hknown
              · exact Or.inr ((hmem x).2 ⟨hpred, hskip, hknown⟩)
          rw [hrun]
          refine ih hturn ?_ ?_
          · intro x hx
            rw [keys_add] at hx
            rcases List.mem_append.1 hx with hold | hx
            · exact hin x hold
            · exact hpreds node (hin node hnode) x ((hmem x).1 hx).1
          · simp only [Search.add, List.length_append, List.length_map]
            omega

/-! ## What a finished search knows -/

omit [DecidableEq α] in
/-- A node with a short enough route was found, at most as far as that route. -/
theorem Sound.found (h : Sound E target hops s done) (hempty : s.queue = []) {x : α} {p : List α}
    (hp : Route E x target p) (hshort : p.length ≤ hops + 1) : ∃ d, (x, d) ∈ s.dist ∧
      d + 1 ≤ p.length := by
  generalize hend : target = stop at hp
  induction hp with
  | here =>
      subst hend
      exact ⟨0, h.start, Nat.le_refl 1⟩
  | @step x y c p hxy hp ih =>
      rw [List.length_cons] at hshort
      obtain ⟨d, hd, hle⟩ := ih (by omega) hend
      have hdone : y ∈ done := by
        have hkeys := h.keys
        rw [hempty, List.append_nil] at hkeys
        rw [← hkeys]
        exact List.mem_map.2 ⟨_, hd, rfl⟩
      obtain ⟨e, hle', he⟩ := h.closed y hdone d hd (by omega) x hxy
      exact ⟨e, he, by rw [List.length_cons]; omega⟩

/-- The notes lead from a node to the target in as many steps as its distance. -/
theorem Sound.follow (h : Sound E target hops s done) (d : Nat) {x : α} (hd : (x, d) ∈ s.dist)
    (fuel : Nat) (hfuel : d < fuel) :
    ∃ p, path s.nxt target fuel x = some p ∧ Route E x target p ∧ p.length = d + 1 := by
  induction fuel generalizing d x with
  | zero => omega
  | succ fuel ih =>
      rw [path]
      by_cases htarget : x = target
      · subst htarget
        obtain rfl := value_unique h.distinct hd h.start
        exact ⟨[x], by rw [if_pos rfl], Route.here x, rfl⟩
      · have hnodup := h.distinct
        have hkey : x ∈ s.dist.map Prod.fst := List.mem_map.2 ⟨_, hd, rfl⟩
        rw [h.nexts] at hkey hnodup
        obtain ⟨⟨x, y⟩, hxy, rfl⟩ := List.mem_map.1 ((List.mem_cons.1 hkey).resolve_left htarget)
        obtain ⟨hE, e, hy, hx⟩ := h.step x y hxy
        obtain rfl := value_unique h.distinct hd hx
        obtain ⟨p, hpath, hroute, hlength⟩ := ih e hy (by omega)
        have hlookup : s.nxt.lookup x = some y :=
          (lookup_eq_some_iff_mem (List.nodup_cons.1 hnodup).2).2 hxy
        refine ⟨x :: p, ?_, Route.step hE hroute, by rw [List.length_cons, hlength]⟩
        rw [if_neg htarget, hlookup, Option.bind_some, hpath]
        rfl

/-- A finished search has a note for the nodes that reach the target within the hops, the target
itself apart. -/
theorem Sound.mem_nxt_iff (h : Sound E target hops s done) (hempty : s.queue = []) {x : α} :
    x ∈ s.nxt.map Prod.fst ↔ x ≠ target ∧ Reaches E hops x target := by
  have hnodup := h.distinct
  rw [h.nexts, List.nodup_cons] at hnodup
  constructor
  · intro hx
    refine ⟨fun heq => hnodup.1 (heq ▸ hx), ?_⟩
    have hkey : x ∈ s.dist.map Prod.fst := by
      rw [h.nexts]
      exact List.mem_cons_of_mem _ hx
    obtain ⟨⟨x, d⟩, hd, rfl⟩ := List.mem_map.1 hkey
    obtain ⟨p, -, hp, hlength⟩ := h.follow d hd (d + 1) (Nat.lt_succ_self d)
    have hnear := (h.near _ hd).1
    dsimp only at hnear
    exact ⟨p, hp, by omega⟩
  · rintro ⟨hne, p, hp, hlength⟩
    obtain ⟨d, hd, -⟩ := h.found hempty hp hlength
    have hkey : x ∈ s.dist.map Prod.fst := List.mem_map.2 ⟨_, hd, rfl⟩
    rw [h.nexts] at hkey
    exact (List.mem_cons.1 hkey).resolve_left hne

/-- Following the notes of a finished search gives a shortest route. -/
theorem Sound.path_spec (h : Sound E target hops s done) (hempty : s.queue = []) {x : α}
    (hx : x ∈ s.nxt.map Prod.fst) :
    ∃ p, path s.nxt target (s.nxt.length + 1) x = some p ∧ Route E x target p ∧
      p.length ≤ hops + 1 ∧ ∀ q, Route E x target q → p.length ≤ q.length := by
  have hkey : x ∈ s.dist.map Prod.fst := by
    rw [h.nexts]
    exact List.mem_cons_of_mem _ hx
  have hlength : s.dist.length = s.nxt.length + 1 := by
    have hlen := congrArg List.length h.nexts
    simpa using hlen
  obtain ⟨⟨x, d⟩, hd, rfl⟩ := List.mem_map.1 hkey
  have hnear := h.near _ hd
  dsimp only at hnear
  obtain ⟨p, hpath, hp, hplength⟩ := h.follow d hd (s.nxt.length + 1) (by omega)
  refine ⟨p, hpath, hp, by omega, fun q hq => ?_⟩
  by_cases hshort : q.length ≤ hops + 1
  · obtain ⟨e, he, hle⟩ := h.found hempty hq hshort
    obtain rfl := value_unique h.distinct hd he
    omega
  · omega

end Search

end IllumioOps.Graphs
