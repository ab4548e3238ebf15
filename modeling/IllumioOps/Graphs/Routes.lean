import Mathlib.Data.List.Nodup

/-!
# Routes along the edges of a relation

A route lists the nodes that a walk visits, both ends included. `Reaches E k a b` holds when at
most `k` edges lead from `a` to `b`.
-/

set_option autoImplicit false

namespace IllumioOps.Graphs

variable {α β : Type} {E F : α → α → Prop}

inductive Route (E : α → α → Prop) : α → α → List α → Prop
  | here (a : α) : Route E a a [a]
  | step {a b c : α} {p : List α} : E a b → Route E b c p → Route E a c (a :: p)

/-- At most `k` edges lead from `a` to `b`. -/
def Reaches (E : α → α → Prop) (k : Nat) (a b : α) : Prop :=
  ∃ p, Route E a b p ∧ p.length ≤ k + 1

theorem Route.length_pos {a b : α} {p : List α} (h : Route E a b p) : 0 < p.length := by
  cases h with
  | here => exact Nat.one_pos
  | step hab hp => exact Nat.succ_pos _

/-- A route maps along with its edges. -/
theorem Route.map {G : β → β → Prop} {f : α → β} (hf : ∀ a b, E a b → G (f a) (f b)) {a b : α}
    {p : List α} (h : Route E a b p) : Route G (f a) (f b) (p.map f) := by
  induction h with
  | here a => exact Route.here (f a)
  | step hab _ ih => exact Route.step (hf _ _ hab) ih

theorem Route.mono (hEF : ∀ a b, E a b → F a b) {a b : α} {p : List α} (h : Route E a b p) :
    Route F a b p := by
  have hmap := h.map (f := id) hEF
  rwa [List.map_id] at hmap

/-- A route of more than one node starts at an edge. -/
theorem Route.start {a b : α} {p : List α} (h : Route E a b p) : a = b ∨ ∃ c, E a c := by
  cases h with
  | here => exact Or.inl rfl
  | step hab _ => exact Or.inr ⟨_, hab⟩

/-- It ends at one as well. -/
theorem Route.stop {a b : α} {p : List α} (h : Route E a b p) : a = b ∨ ∃ c, E c b := by
  induction h with
  | here => exact Or.inl rfl
  | step hab _ ih =>
      rcases ih with rfl | hstop
      · exact Or.inr ⟨_, hab⟩
      · exact Or.inr hstop

/-- The nodes next to each other on a route are joined. -/
theorem Route.edge_of_mem_zip {a b : α} {p : List α} (h : Route E a b p) {x y : α}
    (hxy : (x, y) ∈ p.zip p.tail) : E x y := by
  induction h with
  | here => simp at hxy
  | @step a b c p hab hp ih =>
      obtain ⟨rest, rfl⟩ : ∃ rest, p = b :: rest := by
        cases hp with
        | here => exact ⟨[], rfl⟩
        | step => exact ⟨_, rfl⟩
      rw [List.tail_cons, List.zip_cons_cons, List.mem_cons] at hxy
      rcases hxy with heq | hxy
      · obtain ⟨rfl, rfl⟩ := Prod.mk.inj heq
        exact hab
      · exact ih hxy

/-- A node of a route is its last one or has an edge. -/
theorem Route.of_mem {a b : α} {p : List α} (h : Route E a b p) {x : α} (hx : x ∈ p) :
    x = b ∨ ∃ c, E x c := by
  induction h with
  | here => exact Or.inl (List.mem_singleton.1 hx)
  | step hab _ ih =>
      rcases List.mem_cons.1 hx with rfl | hx
      · exact Or.inr ⟨_, hab⟩
      · exact ih hx

theorem Reaches.refl (k : Nat) (a : α) : Reaches E k a a :=
  ⟨[a], Route.here a, Nat.le_add_left 1 k⟩

theorem Reaches.cons {k : Nat} {a b c : α} (hab : E a b) (h : Reaches E k b c) :
    Reaches E (k + 1) a c := by
  obtain ⟨p, hp, hlength⟩ := h
  exact ⟨a :: p, Route.step hab hp, Nat.succ_le_succ hlength⟩

@[simp] theorem reaches_zero {a b : α} : Reaches E 0 a b ↔ a = b := by
  constructor
  · rintro ⟨p, hp, hlength⟩
    cases hp with
    | here => rfl
    | step hab hp =>
        have hpos := hp.length_pos
        rw [List.length_cons] at hlength
        omega
  · rintro rfl
    exact Reaches.refl 0 a

/-- One more edge is allowed: none is used, or a first one and then as many as before. -/
theorem reaches_succ {k : Nat} {a b : α} :
    Reaches E (k + 1) a b ↔ a = b ∨ ∃ c, E a c ∧ Reaches E k c b := by
  constructor
  · rintro ⟨p, hp, hlength⟩
    cases hp with
    | here => exact Or.inl rfl
    | step hab hp => exact Or.inr ⟨_, hab, _, hp, Nat.le_of_succ_le_succ hlength⟩
  · rintro (rfl | ⟨c, hac, hc⟩)
    · exact Reaches.refl (k + 1) a
    · exact hc.cons hac

theorem Reaches.mono {k : Nat} {a b : α} (hEF : ∀ a b, E a b → F a b) (h : Reaches E k a b) :
    Reaches F k a b := by
  obtain ⟨p, hp, hlength⟩ := h
  exact ⟨p, hp.mono hEF, hlength⟩

/-! ## Nodes by number -/

/-- The edges between the nodes of a list, from the edges between their numbers. -/
def Named (nodes : List α) (E : Nat → Nat → Prop) (a b : α) : Prop :=
  ∃ v u, nodes[v]? = some a ∧ nodes[u]? = some b ∧ E v u

section

variable {nodes : List α} {N : Nat → Nat → Prop} {a b : α} {v u : Nat}

/-- A route along the numbers is one along the nodes. -/
theorem Route.named (hN : ∀ v u, N v u → v < nodes.length ∧ u < nodes.length) (default : α)
    (hv : nodes[v]? = some a) (hu : nodes[u]? = some b) {p : List Nat} (h : Route N v u p) :
    Route (Named nodes N) a b (p.map fun i => nodes.getD i default) := by
  have hget : ∀ {i : Nat} {x : α}, nodes[i]? = some x → nodes.getD i default = x := fun hi => by
    rw [List.getD_eq_getElem?_getD, hi, Option.getD_some]
  have hmap : Route (Named nodes N) (nodes.getD v default) (nodes.getD u default)
      (p.map fun i => nodes.getD i default) := by
    refine h.map (f := fun i => nodes.getD i default) fun i j hij => ?_
    obtain ⟨hi, hj⟩ := hN i j hij
    have hi' : nodes[i]? = some nodes[i] := List.getElem?_eq_getElem hi
    have hj' : nodes[j]? = some nodes[j] := List.getElem?_eq_getElem hj
    exact ⟨i, j, by rw [hget hi', hi'], by rw [hget hj', hj'], hij⟩
  rwa [hget hv, hget hu] at hmap

variable [BEq α] [LawfulBEq α]

theorem idxOf_of_getElem? (hnodup : nodes.Nodup) (hv : nodes[v]? = some a) :
    nodes.idxOf a = v := by
  obtain ⟨hlt, rfl⟩ := List.getElem?_eq_some_iff.1 hv
  exact hnodup.idxOf_getElem v hlt

/-- A route along the nodes is one along their numbers. -/
theorem Route.numbered (hnodup : nodes.Nodup) (hv : nodes[v]? = some a) (hu : nodes[u]? = some b)
    {p : List α} (h : Route (Named nodes N) a b p) :
    Route N v u (p.map fun x => nodes.idxOf x) := by
  have hmap : Route N (nodes.idxOf a) (nodes.idxOf b) (p.map fun x => nodes.idxOf x) := by
    refine h.map (f := fun x => nodes.idxOf x) fun x y hxy => ?_
    obtain ⟨i, j, hi, hj, hij⟩ := hxy
    rwa [idxOf_of_getElem? hnodup hi, idxOf_of_getElem? hnodup hj]
  rwa [idxOf_of_getElem? hnodup hv, idxOf_of_getElem? hnodup hu] at hmap

/-- Nodes that occur once reach each other as their numbers do. -/
theorem reaches_named_iff (hnodup : nodes.Nodup)
    (hN : ∀ v u, N v u → v < nodes.length ∧ u < nodes.length) (hv : nodes[v]? = some a)
    (hu : nodes[u]? = some b) {k : Nat} : Reaches (Named nodes N) k a b ↔ Reaches N k v u := by
  constructor
  · rintro ⟨p, hp, hlength⟩
    exact ⟨_, hp.numbered hnodup hv hu, by rwa [List.length_map]⟩
  · rintro ⟨p, hp, hlength⟩
    exact ⟨_, hp.named hN a hv hu, by rwa [List.length_map]⟩

/-- A set of nodes that is listed by numbers, each once, is listed by the nodes themselves. -/
theorem mem_map_nodes (hnodup : nodes.Nodup) (default : α) {us : List Nat}
    (hus : us.Nodup) (hlt : ∀ u ∈ us, u < nodes.length) {Q : α → Prop} (hQ : ∀ x, Q x → x ∈ nodes)
    (h : ∀ u x, nodes[u]? = some x → (u ∈ us ↔ Q x)) :
    (us.map fun u => nodes.getD u default).Nodup ∧
      ∀ x, x ∈ us.map (fun u => nodes.getD u default) ↔ Q x := by
  have hnode : ∀ u ∈ us, nodes[u]? = some (nodes.getD u default) := fun u hu => by
    rw [List.getD_eq_getElem?_getD, List.getElem?_eq_getElem (hlt u hu), Option.getD_some]
  constructor
  · refine List.Nodup.map_on (fun u hu w hw heq => ?_) hus
    rw [← idxOf_of_getElem? hnodup (hnode u hu), heq, idxOf_of_getElem? hnodup (hnode w hw)]
  · intro x
    rw [List.mem_map]
    constructor
    · rintro ⟨u, hu, rfl⟩
      exact (h u _ (hnode u hu)).1 hu
    · intro hx
      obtain ⟨u, hu⟩ := List.mem_iff_getElem?.1 (hQ x hx)
      exact ⟨u, (h u x hu).2 hx, by rw [List.getD_eq_getElem?_getD, hu, Option.getD_some]⟩

end

end IllumioOps.Graphs
