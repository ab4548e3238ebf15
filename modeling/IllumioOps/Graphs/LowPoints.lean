import Mathlib.Algebra.GroupWithZero.Nat
import Mathlib.Algebra.Order.BigOperators.Group.List
import Mathlib.Algebra.Order.Group.Nat
import Mathlib.Data.List.Nodup
import Mathlib.Logic.Function.Basic
import Mathlib.Logic.Relation

/-!
# Articulation points by low points

A depth-first traversal with a stack of its own marks the nodes whose removal splits their component:
a node other than the root of the traversal when a child's low point is not below it, the root when it
has more than one child (`articulation_spec`).

The stack is described frame by frame. The frame of a node has a zone of discovery times, from its own
to that of the next frame: the nodes of the zone are finished, and what the frame says of them
(`FrameOk`) is handed down to the frame below when it is popped.
-/

set_option autoImplicit false

namespace IllumioOps.Graphs

open Relation (ReflTransGen)

variable {α : Type}

/-! ## Connected by nodes of a kind -/

/-- A path from `x` to `y` along neighbours that satisfy `P`. -/
def Joined (nb : α → List α) (P : α → Prop) (x y : α) : Prop :=
  ReflTransGen (fun a b => b ∈ nb a ∧ P a ∧ P b) x y

/-- Without the node, two nodes of its component are no longer connected. -/
def Splits (nb : α → List α) (p : α) : Prop :=
  ∃ a b, a ≠ p ∧ b ≠ p ∧ Joined nb (fun _ => True) a p ∧ Joined nb (fun _ => True) b p ∧
    ¬ Joined nb (· ≠ p) a b

variable {nb : α → List α} {P Q : α → Prop}

theorem Joined.refl (x : α) : Joined nb P x x := ReflTransGen.refl

theorem Joined.trans {x y z : α} (hxy : Joined nb P x y) (hyz : Joined nb P y z) :
    Joined nb P x z :=
  ReflTransGen.trans hxy hyz

theorem Joined.single {x y : α} (h : y ∈ nb x) (hx : P x) (hy : P y) : Joined nb P x y :=
  ReflTransGen.single ⟨h, hx, hy⟩

theorem Joined.mono (hPQ : ∀ x, P x → Q x) {x y : α} (h : Joined nb P x y) : Joined nb Q x y := by
  induction h with
  | refl => exact Joined.refl _
  | tail _ hab ih => exact ih.trans (Joined.single hab.1 (hPQ _ hab.2.1) (hPQ _ hab.2.2))

theorem Joined.symm (hsymm : ∀ x y, y ∈ nb x → x ∈ nb y) {x y : α} (h : Joined nb P x y) :
    Joined nb P y x := by
  induction h with
  | refl => exact Joined.refl _
  | tail _ hab ih => exact (Joined.single (hsymm _ _ hab.1) hab.2.2 hab.2.1).trans ih

/-- A set that neighbours do not leave holds what its members are joined to. -/
theorem Joined.mem_of_closed {S : α → Prop} (hS : ∀ x u, S x → u ∈ nb x → P u → S u) {x y : α}
    (h : Joined nb P x y) (hx : S x) : S y := by
  induction h with
  | refl => exact hx
  | tail _ hab ih => exact hS _ _ ih hab.1 hab.2.2

/-- A node splits when one of its neighbours is in a set that only it leads out of, and another is
not. -/
theorem Splits.of_closed (hsymm : ∀ x y, y ∈ nb x → x ∈ nb y) {S : α → Prop} {p a b : α}
    (hS : ∀ x u, S x → u ∈ nb x → u = p ∨ S u) (ha : S a) (hap : a ∈ nb p) (hpS : ¬ S p)
    (hb : ¬ S b) (hbp : b ∈ nb p) (hne : b ≠ p) : Splits nb p := by
  refine ⟨a, b, ?_, hne, Joined.single (hsymm p a hap) trivial trivial,
    Joined.single (hsymm p b hbp) trivial trivial, fun hjoined => hb ?_⟩
  · rintro rfl
    exact hpS ha
  · exact hjoined.mem_of_closed (fun x u hx hu hne => (hS x u hx hu).resolve_left hne) ha

/-! ## The traversal -/

/-- What is known of the nodes that were found: when, and the earliest that they lead to; the
articulation points so far; the next time. -/
structure Found (α : Type) where
  disc : α → Option Nat
  low : α → Nat
  points : List α
  clock : Nat

/-- A traversal from one root: its children so far, and the stack of nodes with their parents and the
number of the next neighbour to look at. -/
structure Visit (α : Type) extends Found α where
  children : Nat
  stack : List (α × Option α × Nat)

section

variable [DecidableEq α] (nb : α → List α) (root : α)

/-- The top of the stack looks at its next neighbour, or is popped. -/
def turn (s : Visit α) : Option (Visit α) :=
  match s.stack with
  | [] => none
  | (v, parent, i) :: rest =>
    match (nb v)[i]? with
    | some u =>
      if some u = parent then some { s with stack := (v, parent, i + 1) :: rest }
      else
        match s.disc u with
        | none =>
          some
            { disc := Function.update s.disc u (some s.clock)
              low := Function.update s.low u s.clock
              points := s.points
              clock := s.clock + 1
              children := if v = root then s.children + 1 else s.children
              stack := (u, some v, 0) :: (v, parent, i + 1) :: rest }
        | some d =>
          some { s with
            low := Function.update s.low v (min (s.low v) d)
            stack := (v, parent, i + 1) :: rest }
    | none =>
      match parent with
      | none => some { s with stack := rest }
      | some p =>
        some { s with
          low := Function.update s.low p (min (s.low p) (s.low v))
          points :=
            if p ≠ root ∧ (s.disc p).all (· ≤ s.low v) then s.points.insert p else s.points
          stack := rest }

/-- Turns until the stack is empty; none when the fuel does not suffice. -/
def walk : Nat → Visit α → Option (Visit α)
  | 0, s => if s.stack.isEmpty then some s else none
  | fuel + 1, s =>
    match turn nb root s with
    | none => some s
    | some s' => walk fuel s'

/-- The traversal from a root, unless it was found already. -/
def visit (fuel : Nat) (known : Found α) : Option (Found α) :=
  if (known.disc root).isSome then some known
  else
    (walk nb root fuel
      { disc := Function.update known.disc root (some known.clock)
        low := Function.update known.low root known.clock
        points := known.points
        clock := known.clock + 1
        children := 0
        stack := [(root, none, 0)] }).map fun s =>
      { s.toFound with points := if s.children > 1 then s.points.insert root else s.points }

end

/-- One unit for each node and one for each of its neighbours. -/
def fuelFor (nb : α → List α) (nodes : List α) : Nat := (nodes.map fun v => (nb v).length + 1).sum

/-- The articulation points of the nodes. -/
def articulation [DecidableEq α] (nb : α → List α) (nodes : List α) : Option (List α) :=
  (nodes.foldlM (fun known root => visit nb root (fuelFor nb nodes) known)
    { disc := fun _ => none, low := fun _ => 0, points := [], clock := 0 }).map Found.points

/-! ## What a frame says of its zone -/

/-- The node was found at `d` or later. -/
def Found.Since (s : Found α) (d : Nat) (x : α) : Prop := ∃ e, s.disc x = some e ∧ d ≤ e

/-- It was found at `d` or earlier. -/
def Found.Until (s : Found α) (d : Nat) (x : α) : Prop := ∃ e, s.disc x = some e ∧ e ≤ d

/-- A node of the stack, found at `d`, whose zone ends before `hi`: its low point is the earliest
that its zone leads to, and the zone is joined to it; unless the node is an articulation point, to
the root around it. `R` is the time of the root. -/
structure FrameOk (nb : α → List α) (root : α) (R : Nat) (s : Found α) (v : α) (parent : Option α)
    (i d hi : Nat) : Prop where
  seen : s.disc v = some d
  first : R ≤ d
  low_le : s.low v ≤ d
  low_from : s.low v = d ∨
    ∃ y u, Joined nb (s.Since d) y v ∧ s.Since d y ∧ u ∈ nb y ∧ s.disc u = some (s.low v)
  examined : ∀ j < i, ∀ u, (nb v)[j]? = some u →
    some u = parent ∨ ∃ f, s.disc u = some f ∧ s.low v ≤ f
  zone : ∀ x e, s.disc x = some e → d < e → e < hi → ∀ u ∈ nb x,
    ∃ f, s.disc u = some f ∧ s.low v ≤ f ∧ f < hi
  within : ∀ x e, s.disc x = some e → d ≤ e → e < hi → Joined nb (s.Since d) x v
  around : v ≠ root → v ∉ s.points → ∀ x e, s.disc x = some e → d < e → e < hi →
    Joined nb (· ≠ v) x root

/-- A frame lies on the frame of its parent; that of the root is the last. -/
def Hangs (nb : α → List α) (root v : α) (parent : Option α) (rest : List (α × Option α × Nat)) :
    Prop :=
  (parent = none ∧ v = root ∧ rest = []) ∨
    ∃ p q j below, parent = some p ∧ rest = (p, q, j) :: below ∧ v ∈ nb p

/-- The frames of a stack; `hi` is where the zone of its top ends. -/
def Frames (nb : α → List α) (root : α) (R : Nat) (s : Found α) :
    Nat → List (α × Option α × Nat) → Prop
  | _, [] => True
  | hi, (v, parent, i) :: rest =>
    ∃ d < hi, FrameOk nb root R s v parent i d hi ∧ Hangs nb root v parent rest ∧
      Frames nb root R s d rest

/-- What is known later, of what was found before `hi`: nothing else, and possibly more articulation
points. -/
structure Extends (hi : Nat) (s s' : Found α) : Prop where
  kept : ∀ x e, s.disc x = some e → s'.disc x = some e
  old : ∀ x e, s'.disc x = some e → e < hi → s.disc x = some e
  low : ∀ x e, s.disc x = some e → e < hi → s'.low x = s.low x
  points : ∀ p ∈ s.points, p ∈ s'.points

variable {root : α} {R : Nat} {s s' : Found α}

theorem Extends.since {hi : Nat} (h : Extends hi s s') {d : Nat} {x : α} (hx : s.Since d x) :
    s'.Since d x := by
  obtain ⟨e, he, hle⟩ := hx
  exact ⟨e, h.kept x e he, hle⟩

theorem Extends.mono {hi lo : Nat} (h : Extends hi s s') (hle : lo ≤ hi) : Extends lo s s' where
  kept := h.kept
  old := fun x e he hlt => h.old x e he (Nat.lt_of_lt_of_le hlt hle)
  low := fun x e he hlt => h.low x e he (Nat.lt_of_lt_of_le hlt hle)
  points := h.points

/-- A frame keeps what it says. -/
theorem FrameOk.mono {v : α} {parent : Option α} {i d hi : Nat} (h : Extends hi s s')
    (hd : d < hi) (hf : FrameOk nb root R s v parent i d hi) :
    FrameOk nb root R s' v parent i d hi := by
  have hlow : s'.low v = s.low v := h.low v d hf.seen hd
  refine
    { seen := h.kept v d hf.seen, first := hf.first, low_le := hlow ▸ hf.low_le,
      low_from := ?_, examined := ?_, zone := ?_, within := ?_, around := ?_ }
  · rw [hlow]
    rcases hf.low_from with heq | ⟨y, u, hjoined, hy, hu, hlowu⟩
    · exact Or.inl heq
    · exact Or.inr ⟨y, u, hjoined.mono fun x => h.since, h.since hy, hu, h.kept u _ hlowu⟩
  · intro j hj u hu
    rcases hf.examined j hj u hu with hparent | ⟨f, hseen, hle⟩
    · exact Or.inl hparent
    · exact Or.inr ⟨f, h.kept u f hseen, hlow ▸ hle⟩
  · intro x e he hlt hhi u hu
    obtain ⟨f, hseen, hle, hlt'⟩ := hf.zone x e (h.old x e he hhi) hlt hhi u hu
    exact ⟨f, h.kept u f hseen, hlow ▸ hle, hlt'⟩
  · intro x e he hle hhi
    exact (hf.within x e (h.old x e he hhi) hle hhi).mono fun x => h.since
  · intro hroot hpoint x e he hlt hhi
    exact hf.around hroot (fun hp => hpoint (h.points v hp)) x e (h.old x e he hhi) hlt hhi

/-- When all its neighbours were looked at, a frame knows all that its zone leads to, its parent
apart. -/
theorem FrameOk.leads {v : α} {parent : Option α} {i d hi : Nat}
    (hf : FrameOk nb root R s v parent i d hi)
    (hdistinct : ∀ x y d, s.disc x = some d → s.disc y = some d → x = y)
    (hend : (nb v)[i]? = none) {x : α} {e : Nat} (he : s.disc x = some e) (hle : d ≤ e)
    (hlt : e < hi) {u : α} (hu : u ∈ nb x) :
    some u = parent ∨ ∃ f, s.disc u = some f ∧ s.low v ≤ f := by
  rcases Nat.eq_or_lt_of_le hle with rfl | hde
  · obtain rfl := hdistinct x v d he hf.seen
    obtain ⟨j, hj⟩ := List.mem_iff_getElem?.1 hu
    have hjlt : j < (nb x).length := (List.getElem?_eq_some_iff.1 hj).1
    exact hf.examined j (Nat.lt_of_lt_of_le hjlt (List.getElem?_eq_none_iff.1 hend)) u hj
  · obtain ⟨f, hseen, hlow, -⟩ := hf.zone x e he hde hlt u hu
    exact Or.inr ⟨f, hseen, hlow⟩

/-- So does a stack. -/
theorem Frames.mono {stack : List (α × Option α × Nat)} {hi : Nat} (h : Extends hi s s')
    (hf : Frames nb root R s hi stack) : Frames nb root R s' hi stack := by
  induction stack generalizing hi with
  | nil => trivial
  | cons frame rest ih =>
      obtain ⟨v, parent, i⟩ := frame
      obtain ⟨d, hlt, hframe, hhangs, hrest⟩ := hf
      exact ⟨d, hlt, hframe.mono h hlt, hhangs, ih (h.mono (Nat.le_of_lt hlt)) hrest⟩

/-! ## Between the turns -/

/-- A traversal from `root`, found at `R`, of nodes that were all found before or are on the stack or
finished. -/
structure Visit.Ok (nb : α → List α) (root : α) (R : Nat) (s : Visit α) : Prop where
  distinct : ∀ x y d, s.disc x = some d → s.disc y = some d → x = y
  lt_clock : ∀ x d, s.disc x = some d → d < s.clock
  root_seen : s.disc root = some R
  old : ∀ x e, s.disc x = some e → e < R → ∀ u ∈ nb x, ∃ f, s.disc u = some f ∧ f < R
  frames : Frames nb root R s.toFound s.clock s.stack
  lower : ∀ x e, s.disc x = some e → R ≤ e → Joined nb (s.Until e) x root
  left : ∀ p e, s.disc p = some e → R ≤ e → p ∉ s.stack.map Prod.fst → p ≠ root →
    p ∉ s.points → ∀ x f, s.disc x = some f → R ≤ f → x ≠ p → Joined nb (· ≠ p) x root
  sound : ∀ p ∈ s.points, Splits nb p
  none_found : s.children = 0 → ∀ x e, s.disc x = some e → e ≤ R
  some_found : 0 < s.children → ∃ c e, c ∈ nb root ∧ s.disc c = some e ∧ R < e ∧
    (s.children = 1 → ∀ x f, s.disc x = some f → R < f → Joined nb (· ≠ root) x c)
  many : 1 < s.children → Splits nb root
  finished : s.stack = [] → ∀ x e, s.disc x = some e → ∀ u ∈ nb x, ∃ f, s.disc u = some f

section

variable {s : Visit α} (h : s.Ok nb root R) (hsymm : ∀ x y, y ∈ nb x → x ∈ nb y)
include h hsymm

/-- A neighbour of what the traversal found was found by it. -/
theorem Visit.Ok.first_le {x u : α} {e f : Nat} (hx : s.disc x = some e) (he : R ≤ e)
    (hu : u ∈ nb x) (hf : s.disc u = some f) : R ≤ f := by
  by_contra hlt
  obtain ⟨e', he', hlt'⟩ := h.old u f hf (Nat.lt_of_not_le hlt) x (hsymm x u hu)
  obtain rfl := Option.some.inj (hx.symm.trans he')
  omega

omit hsymm in
/-- The neighbour is the parent: only the number of the next one changes. -/
theorem Visit.Ok.skip {v u : α} {parent : Option α} {i : Nat} {rest : List (α × Option α × Nat)}
    (hstack : s.stack = (v, parent, i) :: rest) (hu : (nb v)[i]? = some u)
    (hparent : some u = parent) :
    Visit.Ok nb root R { s with stack := (v, parent, i + 1) :: rest } := by
  have hframes := h.frames
  rw [hstack] at hframes
  obtain ⟨d, hlt, hframe, hhangs, hrest⟩ := hframes
  have hexamined : ∀ j < i + 1, ∀ w, (nb v)[j]? = some w →
      some w = parent ∨ ∃ f, s.disc w = some f ∧ s.low v ≤ f := by
    intro j hj w hw
    rcases Nat.lt_succ_iff_lt_or_eq.1 hj with hj | rfl
    · exact hframe.examined j hj w hw
    · rw [hu] at hw
      exact Or.inl (hw ▸ hparent)
  exact
    { h with
      frames := ⟨d, hlt, { hframe with examined := hexamined }, hhangs, hrest⟩
      left := fun p e hp hR hnot => h.left p e hp hR (by rw [hstack]; exact hnot)
      finished := fun hnil => absurd hnil (List.cons_ne_nil _ _) }

omit hsymm in
/-- The neighbour was found: the low point takes its time into account. -/
theorem Visit.Ok.look [DecidableEq α] {v u : α} {parent : Option α} {i f : Nat}
    {rest : List (α × Option α × Nat)} (hstack : s.stack = (v, parent, i) :: rest)
    (hu : (nb v)[i]? = some u) (hf : s.disc u = some f) :
    Visit.Ok nb root R { s with
      low := Function.update s.low v (min (s.low v) f)
      stack := (v, parent, i + 1) :: rest } := by
  have hframes := h.frames
  rw [hstack] at hframes
  obtain ⟨d, hlt, hframe, hhangs, hrest⟩ := hframes
  generalize hs' : ({ s with
      low := Function.update s.low v (min (s.low v) f)
      stack := (v, parent, i + 1) :: rest } : Visit α) = s'
  have hdisc : s'.disc = s.disc := by rw [← hs']
  have hpoints : s'.points = s.points := by rw [← hs']
  have hlow : s'.low v = min (s.low v) f := by rw [← hs']; exact Function.update_self _ _ _
  have hsince : s'.Since d = s.Since d := by
    funext x
    rw [Found.Since, Found.Since, hdisc]
  have hextends : Extends d s.toFound s'.toFound := by
    refine ⟨fun x e he => hdisc ▸ he, fun x e he _ => hdisc ▸ he, fun x e he hlt' => ?_,
      fun p hp => hpoints ▸ hp⟩
    -- the nodes below are other ones
    have hne : x ≠ v := by
      rintro rfl
      obtain rfl := Option.some.inj (he.symm.trans hframe.seen)
      exact Nat.lt_irrefl _ hlt'
    rw [← hs']
    exact Function.update_of_ne hne _ _
  have hframe' : FrameOk nb root R s'.toFound v parent (i + 1) d s.clock := by
    refine
      { seen := hdisc ▸ hframe.seen, first := hframe.first,
        low_le := hlow ▸ (Nat.le_trans (Nat.min_le_left _ _) hframe.low_le),
        low_from := ?_, examined := ?_, zone := ?_, within := ?_, around := ?_ }
    · rcases Nat.le_total (s.low v) f with hle | hle
      · rw [hlow, Nat.min_eq_left hle, hsince, hdisc]
        exact hframe.low_from
      · refine Or.inr ⟨v, u, Joined.refl v, ⟨d, hdisc ▸ hframe.seen, Nat.le_refl d⟩,
          List.mem_of_getElem? hu, ?_⟩
        rw [hlow, Nat.min_eq_right hle, hdisc]
        exact hf
    · intro j hj w hw
      rw [hdisc, hlow]
      rcases Nat.lt_succ_iff_lt_or_eq.1 hj with hj | rfl
      · rcases hframe.examined j hj w hw with hparent | ⟨g, hg, hle⟩
        · exact Or.inl hparent
        · exact Or.inr ⟨g, hg, Nat.le_trans (Nat.min_le_left _ _) hle⟩
      · rw [hu] at hw
        obtain rfl := Option.some.inj hw
        exact Or.inr ⟨f, hf, Nat.min_le_right _ _⟩
    · intro x e he hde hhi w hw
      rw [hdisc] at he ⊢
      obtain ⟨g, hg, hle, hlt'⟩ := hframe.zone x e he hde hhi w hw
      exact ⟨g, hg, hlow ▸ Nat.le_trans (Nat.min_le_left _ _) hle, hlt'⟩
    · rw [hdisc, hsince]
      exact hframe.within
    · rw [hdisc, hpoints]
      exact hframe.around
  subst hs'
  exact
    { h with
      frames := ⟨d, hlt, hframe', hhangs, hrest.mono hextends⟩
      left := fun p e hp hR hnot => h.left p e hp hR (by rw [hstack]; exact hnot)
      finished := fun hnil => absurd hnil (List.cons_ne_nil _ _) }

/-- A second child of the root: what was found from the first one is not joined to it but by the
root. -/
theorem Visit.Ok.splits_root {u : α} {i : Nat} {rest : List (α × Option α × Nat)}
    (hstack : s.stack = (root, none, i) :: rest) (hu : u ∈ nb root) (hnew : s.disc u = none)
    (hchildren : 0 < s.children) : Splits nb root := by
  have hframes := h.frames
  rw [hstack] at hframes
  obtain ⟨d, -, hframe, -, -⟩ := hframes
  obtain rfl := Option.some.inj (hframe.seen.symm.trans h.root_seen)
  obtain ⟨c, e, hc, hce, hlt, -⟩ := h.some_found hchildren
  refine Splits.of_closed (S := fun x => ∃ e, s.disc x = some e ∧ d < e) (a := c) (b := u) hsymm ?_
    ⟨e, hce, hlt⟩ hc ?_ ?_ hu ?_
  · -- all that was found after the root is in its zone
    rintro x w ⟨f, hf, hdf⟩ hw
    obtain ⟨g, hg, -, -⟩ := hframe.zone x f hf hdf (h.lt_clock x f hf) w hw
    have hle := h.first_le hsymm hf (Nat.le_of_lt hdf) hw hg
    rcases Nat.eq_or_lt_of_le hle with rfl | hlt'
    · exact Or.inl (h.distinct w root d hg h.root_seen)
    · exact Or.inr ⟨g, hg, hlt'⟩
  · rintro ⟨f, hf, hdf⟩
    obtain rfl := Option.some.inj (hf.symm.trans h.root_seen)
    exact Nat.lt_irrefl _ hdf
  · rintro ⟨f, hf, -⟩
    rw [hnew] at hf
    cases hf
  · rintro rfl
    rw [h.root_seen] at hnew
    cases hnew

/-- The neighbour is new: it is found now and put on the stack. -/
theorem Visit.Ok.find [DecidableEq α] {v u : α} {parent : Option α} {i : Nat}
    {rest : List (α × Option α × Nat)} (hstack : s.stack = (v, parent, i) :: rest)
    (hu : (nb v)[i]? = some u) (hnew : s.disc u = none) :
    Visit.Ok nb root R
      { disc := Function.update s.disc u (some s.clock)
        low := Function.update s.low u s.clock
        points := s.points
        clock := s.clock + 1
        children := if v = root then s.children + 1 else s.children
        stack := (u, some v, 0) :: (v, parent, i + 1) :: rest } := by
  have hframes := h.frames
  rw [hstack] at hframes
  obtain ⟨d, hlt, hframe, hhangs, hrest⟩ := hframes
  have hmem : u ∈ nb v := List.mem_of_getElem? hu
  have hback : v ∈ nb u := hsymm v u hmem
  have hne : ∀ {x e}, s.disc x = some e → x ≠ u := by
    rintro x e he rfl
    rw [hnew] at he
    cases he
  have hRclock : R < s.clock := h.lt_clock root R h.root_seen
  generalize hs' : ({
      disc := Function.update s.disc u (some s.clock)
      low := Function.update s.low u s.clock
      points := s.points
      clock := s.clock + 1
      children := if v = root then s.children + 1 else s.children
      stack := (u, some v, 0) :: (v, parent, i + 1) :: rest } : Visit α) = s'
  have hself : s'.disc u = some s.clock := by rw [← hs']; exact Function.update_self _ _ _
  have hkept : ∀ x e, s.disc x = some e → s'.disc x = some e := fun x e he => by
    rw [← hs']
    exact (Function.update_of_ne (hne he) _ _).trans he
  have hcases : ∀ x e, s'.disc x = some e → (x = u ∧ e = s.clock) ∨ s.disc x = some e := by
    intro x e he
    by_cases hx : x = u
    · subst hx
      exact Or.inl ⟨rfl, (Option.some.inj (hself.symm.trans he)).symm⟩
    · rw [← hs'] at he
      exact Or.inr ((Function.update_of_ne hx _ _).symm.trans he)
  have hlowu : s'.low u = s.clock := by rw [← hs']; exact Function.update_self _ _ _
  have hextends : Extends s.clock s.toFound s'.toFound := by
    refine ⟨hkept, fun x e he hltc => ?_, fun x e he _ => ?_, fun p hp => by rw [← hs']; exact hp⟩
    · rcases hcases x e he with ⟨-, rfl⟩ | he
      · exact absurd hltc (Nat.lt_irrefl _)
      · exact he
    · rw [← hs']
      exact Function.update_of_ne (hne he) _ _
  have hvlow : s'.low v = s.low v := hextends.low v d hframe.seen hlt
  -- the frame below has looked at the new node
  have hbelow : FrameOk nb root R s'.toFound v parent (i + 1) d s.clock := by
    refine { hframe.mono hextends hlt with examined := ?_ }
    intro j hj w hw
    rcases Nat.lt_succ_iff_lt_or_eq.1 hj with hj | rfl
    · exact (hframe.mono hextends hlt).examined j hj w hw
    · rw [hu] at hw
      obtain rfl := Option.some.inj hw
      exact Or.inr ⟨s.clock, hself, hvlow ▸ Nat.le_trans hframe.low_le (Nat.le_of_lt hlt)⟩
  -- nothing was found after the new node
  have htop : FrameOk nb root R s'.toFound u (some v) 0 s.clock (s.clock + 1) := by
    refine
      { seen := hself, first := Nat.le_of_lt hRclock, low_le := Nat.le_of_eq hlowu,
        low_from := Or.inl hlowu, examined := fun j hj => absurd hj (Nat.not_lt_zero j),
        zone := fun x e _ hlt1 hlt2 => by omega, within := ?_,
        around := fun _ _ x e _ hlt1 hlt2 => by omega }
    intro x e he hle hhi
    obtain rfl : e = s.clock := by omega
    rcases hcases x _ he with ⟨rfl, -⟩ | he
    · exact Joined.refl x
    · exact absurd (h.lt_clock x _ he) (Nat.lt_irrefl _)
  have hclock : s'.clock = s.clock + 1 := by rw [← hs']
  have hpoints : s'.points = s.points := by rw [← hs']
  have hstack' : s'.stack = (u, some v, 0) :: (v, parent, i + 1) :: rest := by rw [← hs']
  have hchildren : s'.children = if v = root then s.children + 1 else s.children := by rw [← hs']
  have huntil : ∀ {e x}, s.Until e x → s'.Until e x := fun {e x} hx => by
    obtain ⟨f, hf, hle⟩ := hx
    exact ⟨f, hkept x f hf, hle⟩
  have hvroot : v ≠ root → R < d := fun hv => by
    rcases Nat.eq_or_lt_of_le hframe.first with rfl | hRd
    · exact absurd (h.distinct v root _ hframe.seen h.root_seen) hv
    · exact hRd
  refine
    { distinct := ?_, lt_clock := ?_, root_seen := hkept root R h.root_seen, old := ?_,
      frames := ?_, lower := ?_, left := ?_, sound := hpoints ▸ h.sound, none_found := ?_,
      some_found := ?_, many := ?_, finished := ?_ }
  · intro x y e hx hy
    rcases hcases x e hx with ⟨rfl, hxe⟩ | hx
    · rcases hcases y e hy with ⟨rfl, -⟩ | hy
      · rfl
      · exact absurd (h.lt_clock y e hy) (hxe ▸ Nat.lt_irrefl _)
    · rcases hcases y e hy with ⟨rfl, hye⟩ | hy
      · exact absurd (h.lt_clock x e hx) (hye ▸ Nat.lt_irrefl _)
      · exact h.distinct x y e hx hy
  · intro x e he
    rw [hclock]
    rcases hcases x e he with ⟨-, rfl⟩ | he
    · exact Nat.lt_succ_self _
    · exact Nat.lt_succ_of_lt (h.lt_clock x e he)
  · intro x e he hlt' w hw
    rcases hcases x e he with ⟨-, rfl⟩ | he
    · omega
    · obtain ⟨f, hf, hfR⟩ := h.old x e he hlt' w hw
      exact ⟨f, hkept w f hf, hfR⟩
  · rw [hstack', hclock]
    exact ⟨s.clock, Nat.lt_succ_self _, htop,
      Or.inr ⟨v, parent, i + 1, rest, rfl, rfl, hmem⟩, d, hlt, hbelow, hhangs,
      hrest.mono (hextends.mono (Nat.le_of_lt hlt))⟩
  · intro x e he hR
    rcases hcases x e he with ⟨rfl, rfl⟩ | he
    · have hv : Joined nb (s'.Until s.clock) v root :=
        (h.lower v d hframe.seen hframe.first).mono fun y hy => by
          obtain ⟨f, hf, hle⟩ := huntil hy
          exact ⟨f, hf, Nat.le_trans hle (Nat.le_of_lt hlt)⟩
      exact (Joined.single hback ⟨_, hself, Nat.le_refl _⟩
        ⟨d, hkept v d hframe.seen, Nat.le_of_lt hlt⟩).trans hv
    · exact (h.lower x e he hR).mono fun y => huntil
  · intro p e hp hR hnot hroot hpoint x f hf hRf hxp
    rw [hstack', List.map_cons, List.mem_cons, not_or] at hnot
    have hold : ∀ y g, s.disc y = some g → R ≤ g → y ≠ p → Joined nb (· ≠ p) y root := by
      refine h.left p e ?_ hR (hstack ▸ hnot.2) hroot (hpoints ▸ hpoint)
      exact (hcases p e hp).resolve_left fun heq => hnot.1 heq.1
    rcases hcases x f hf with ⟨rfl, -⟩ | hf
    · -- by its parent, which is on the stack
      have hvp : v ≠ p := fun heq => hnot.2 (heq ▸ List.mem_cons_self)
      exact (Joined.single hback hxp hvp).trans (hold v d hframe.seen hframe.first hvp)
    · exact hold x f hf hRf hxp
  · intro hzero
    rw [hchildren] at hzero
    split at hzero
    · omega
    · rename_i hv
      exact absurd (h.none_found hzero v d hframe.seen) (Nat.not_le.2 (hvroot hv))
  · intro hpos
    rw [hchildren] at hpos ⊢
    by_cases hv : v = root
    · rw [if_pos hv]
      by_cases hzero : s.children = 0
      · refine ⟨u, s.clock, hv ▸ hmem, hself, hRclock, fun _ x f hf hlt' => ?_⟩
        rcases hcases x f hf with ⟨rfl, -⟩ | hf
        · exact Joined.refl x
        · exact absurd (h.none_found hzero x f hf) (Nat.not_le.2 hlt')
      · obtain ⟨c, e, hc, hce, hRe, -⟩ := h.some_found (Nat.pos_of_ne_zero hzero)
        exact ⟨c, e, hc, hkept c e hce, hRe, fun hone => by omega⟩
    · rw [if_neg hv] at hpos ⊢
      obtain ⟨c, e, hc, hce, hRe, hall⟩ := h.some_found hpos
      refine ⟨c, e, hc, hkept c e hce, hRe, fun hone x f hf hlt' => ?_⟩
      rcases hcases x f hf with ⟨rfl, -⟩ | hf
      · have hxroot : x ≠ root := (hne h.root_seen).symm
        exact (Joined.single hback hxroot hv).trans (hall hone v d hframe.seen (hvroot hv))
      · exact hall hone x f hf hlt'
  · intro hmany
    rw [hchildren] at hmany
    split at hmany
    · rename_i hv
      subst hv
      -- the root is its own frame, the last one
      rcases hhangs with ⟨rfl, -, -⟩ | ⟨p, q, j, below, -, rfl, -⟩
      · exact h.splits_root hsymm hstack hmem hnew (by omega)
      · obtain ⟨e, hed, hp, -⟩ := hrest
        obtain rfl := Option.some.inj (hframe.seen.symm.trans h.root_seen)
        exact absurd hp.first (Nat.not_le.2 hed)
    · exact h.many hmany
  · intro hnil
    rw [hstack'] at hnil
    cases hnil

omit hsymm in
/-- The root is popped: the traversal is over. -/
theorem Visit.Ok.finishRoot {v : α} {i : Nat} {rest : List (α × Option α × Nat)}
    (hstack : s.stack = (v, none, i) :: rest) (hend : (nb v)[i]? = none) :
    Visit.Ok nb root R { s with stack := rest } := by
  have hframes := h.frames
  rw [hstack] at hframes
  obtain ⟨d, hlt, hframe, hhangs, -⟩ := hframes
  rcases hhangs with ⟨-, rfl, rfl⟩ | ⟨p, q, j, below, hparent, -, -⟩
  · obtain rfl := Option.some.inj (hframe.seen.symm.trans h.root_seen)
    refine { h with frames := trivial, left := ?_, finished := ?_ }
    · intro p e hp hR _ hroot
      refine h.left p e hp hR ?_ hroot
      rw [hstack, List.map_cons, List.map_nil, List.mem_singleton]
      exact hroot
    · intro _ x e he u hu
      rcases Nat.lt_or_ge e d with hlt' | hge
      · obtain ⟨f, hf, -⟩ := h.old x e he hlt' u hu
        exact ⟨f, hf⟩
      · rcases hframe.leads h.distinct hend he hge (h.lt_clock x e he) hu with hnone | ⟨f, hf, -⟩
        · cases hnone
        · exact ⟨f, hf⟩
  · cases hparent

/-- A child is popped whose low point is not below its parent: only the parent leads out of what was
found from the child. -/
theorem Visit.Ok.splits_parent {c p : α} {i : Nat} {rest : List (α × Option α × Nat)}
    (hstack : s.stack = (c, some p, i) :: rest) (hend : (nb c)[i]? = none) (hroot : p ≠ root)
    {dp : Nat} (hp : s.disc p = some dp) (hlow : dp ≤ s.low c) : Splits nb p := by
  have hframes := h.frames
  rw [hstack] at hframes
  obtain ⟨d, hlt, hframe, hhangs, hrest⟩ := hframes
  rcases hhangs with ⟨hnone, -, -⟩ | ⟨p', q, j, below, hparent, rfl, hcp⟩
  · cases hnone
  obtain rfl := Option.some.inj hparent
  obtain ⟨dp', hlt', hframe', hhangs', hbelow⟩ := hrest
  obtain rfl := Option.some.inj (hp.symm.trans hframe'.seen)
  -- the parent has a parent of its own, found before it
  rcases hhangs' with ⟨-, heq, -⟩ | ⟨b, q', j', below', -, rfl, hpb⟩
  · exact absurd heq hroot
  obtain ⟨db, hdb, hframeb, -, -⟩ := hbelow
  refine Splits.of_closed (S := s.Since d) (a := c) (b := b) hsymm ?_
    ⟨d, hframe.seen, Nat.le_refl d⟩ hcp ?_ ?_ (hsymm b p hpb) ?_
  · rintro x u ⟨e, he, hde⟩ hu
    rcases hframe.leads h.distinct hend he hde (h.lt_clock x e he) hu with hup | ⟨f, hf, hle⟩
    · exact Or.inl (Option.some.inj hup)
    · rcases Nat.eq_or_lt_of_le (Nat.le_trans hlow hle) with rfl | hpf
      · exact Or.inl (h.distinct u p dp hf hp)
      · rcases Nat.lt_or_ge f d with hfd | hfd
        · -- what was finished below the parent before the child does not lead to the zone
          obtain ⟨g, hg, -, hgd⟩ := hframe'.zone u f hf hpf hfd x (hsymm x u hu)
          obtain rfl := Option.some.inj (hg.symm.trans he)
          omega
        · exact Or.inr ⟨f, hf, hfd⟩
  · rintro ⟨e, he, hde⟩
    obtain rfl := Option.some.inj (he.symm.trans hp)
    omega
  · rintro ⟨e, he, hde⟩
    obtain rfl := Option.some.inj (he.symm.trans hframeb.seen)
    omega
  · rintro rfl
    obtain rfl := Option.some.inj (hp.symm.trans hframeb.seen)
    exact Nat.lt_irrefl _ hdb

/-- A child is popped: its zone goes to its parent. -/
theorem Visit.Ok.finish [DecidableEq α] {c p : α} {i : Nat} {rest : List (α × Option α × Nat)}
    (hstack : s.stack = (c, some p, i) :: rest) (hend : (nb c)[i]? = none) :
    Visit.Ok nb root R { s with
      low := Function.update s.low p (min (s.low p) (s.low c))
      points := if p ≠ root ∧ (s.disc p).all (· ≤ s.low c) then s.points.insert p else s.points
      stack := rest } := by
  have hsplits : ∀ e, p ≠ root → s.disc p = some e → e ≤ s.low c → Splits nb p :=
    fun e hroot hp hle => h.splits_parent hsymm hstack hend hroot hp hle
  have hframes := h.frames
  rw [hstack] at hframes
  obtain ⟨d, hlt, hframe, hhangs, hrest⟩ := hframes
  rcases hhangs with ⟨hnone, -, -⟩ | ⟨p', q, j, below, hparent, rfl, hcp⟩
  · cases hnone
  obtain rfl := Option.some.inj hparent
  obtain ⟨dp, hdp, hframe', hhangs', hbelow⟩ := hrest
  have hp := hframe'.seen
  have hback : p ∈ nb c := hsymm p c hcp
  have hRd : R < d := Nat.lt_of_le_of_lt hframe'.first hdp
  generalize hs' : ({ s with
      low := Function.update s.low p (min (s.low p) (s.low c))
      points := if p ≠ root ∧ (s.disc p).all (· ≤ s.low c) then s.points.insert p else s.points
      stack := (p, q, j) :: below } : Visit α) = s'
  have hdisc : s'.disc = s.disc := by rw [← hs']
  have hlow : s'.low p = min (s.low p) (s.low c) := by
    rw [← hs']
    exact Function.update_self _ _ _
  have hpoints : s'.points = if p ≠ root ∧ dp ≤ s.low c then s.points.insert p else s.points := by
    rw [← hs']
    dsimp only
    simp only [hp, Option.all_some, decide_eq_true_eq]
  have hsub : ∀ x ∈ s.points, x ∈ s'.points := fun x hx => by
    rw [hpoints]
    split
    · exact List.mem_insert_of_mem hx
    · exact hx
  have hsince : ∀ e, s'.Since e = s.Since e := fun e => by
    funext x
    rw [Found.Since, Found.Since, hdisc]
  have hextends : Extends dp s.toFound s'.toFound := by
    refine ⟨fun x e he => hdisc ▸ he, fun x e he _ => hdisc ▸ he, fun x e he hlt' => ?_, hsub⟩
    have hne : x ≠ p := by
      rintro rfl
      obtain rfl := Option.some.inj (he.symm.trans hp)
      exact Nat.lt_irrefl _ hlt'
    rw [← hs']
    exact Function.update_of_ne hne _ _
  have hup : ∀ {x}, Joined nb (s.Since d) x c → Joined nb (s.Since dp) x p := fun {x} hx =>
    (hx.mono fun y ⟨e, he, hle⟩ => ⟨e, he, by omega⟩).trans
      (Joined.single hback ⟨d, hframe.seen, Nat.le_of_lt hdp⟩ ⟨dp, hp, Nat.le_refl dp⟩)
  have hzone : FrameOk nb root R s'.toFound p q j dp s.clock := by
    refine
      { seen := hdisc ▸ hp, first := hframe'.first,
        low_le := hlow ▸ Nat.le_trans (Nat.min_le_left _ _) hframe'.low_le,
        low_from := ?_, examined := ?_, zone := ?_, within := ?_, around := ?_ }
    · rw [hlow, hsince, hdisc]
      rcases Nat.le_total (s.low p) (s.low c) with hle | hle
      · rw [Nat.min_eq_left hle]
        exact hframe'.low_from
      · rw [Nat.min_eq_right hle]
        rcases hframe.low_from with heq | ⟨y, u, hjoined, ⟨e, he, hde⟩, hu, hlowu⟩
        · have hle' := hframe'.low_le
          omega
        · exact Or.inr ⟨y, u, hup hjoined, ⟨e, he, by omega⟩, hu, hlowu⟩
    · intro k hk w hw
      rw [hdisc, hlow]
      rcases hframe'.examined k hk w hw with hq | ⟨f, hf, hle⟩
      · exact Or.inl hq
      · exact Or.inr ⟨f, hf, Nat.le_trans (Nat.min_le_left _ _) hle⟩
    · intro x e he hlt1 hlt2 u hu
      rw [hdisc] at he ⊢
      rw [hlow]
      rcases Nat.lt_or_ge e d with hed | hed
      · obtain ⟨f, hf, hle, hfd⟩ := hframe'.zone x e he hlt1 hed u hu
        exact ⟨f, hf, Nat.le_trans (Nat.min_le_left _ _) hle, Nat.lt_trans hfd hlt⟩
      · rcases hframe.leads h.distinct hend he hed hlt2 hu with hparent | ⟨f, hf, hle⟩
        · obtain rfl := Option.some.inj hparent
          exact ⟨dp, hp, Nat.le_trans (Nat.min_le_left _ _) hframe'.low_le, Nat.lt_trans hdp hlt⟩
        · exact ⟨f, hf, Nat.le_trans (Nat.min_le_right _ _) hle, h.lt_clock u f hf⟩
    · intro x e he hle hlt2
      rw [hdisc] at he
      rw [hsince]
      rcases Nat.lt_or_ge e d with hed | hed
      · exact hframe'.within x e he hle hed
      · exact hup (hframe.within x e he hed hlt2)
    · intro hroot hpoint x e he hlt1 hlt2
      rw [hdisc] at he
      rcases Nat.lt_or_ge e d with hed | hed
      · exact hframe'.around hroot (fun hx => hpoint (hsub p hx)) x e he hlt1 hed
      · -- the child's zone leads below the parent, and from there to the root around it
        have hbelow' : s.low c < dp := by
          by_contra hge
          rw [hpoints, if_pos ⟨hroot, Nat.le_of_not_lt hge⟩] at hpoint
          exact hpoint List.mem_insert_self
        have havoid : ∀ {y z}, Joined nb (s.Since d) y z → Joined nb (· ≠ p) y z := fun hyz => by
          refine hyz.mono fun w hw hwp => ?_
          obtain ⟨f, hf, hle⟩ := hw
          rw [hwp, hp] at hf
          obtain rfl := Option.some.inj hf
          omega
        rcases hframe.low_from with heq | ⟨y, u, hjoined, ⟨f, hf, hdf⟩, hu, hlowu⟩
        · omega
        · have hyp : y ≠ p := by
            rintro rfl
            obtain rfl := Option.some.inj (hf.symm.trans hp)
            omega
          have hup' : u ≠ p := by
            rintro rfl
            obtain heq := Option.some.inj (hlowu.symm.trans hp)
            omega
          have hRu : R ≤ s.low c := h.first_le hsymm hf (by omega) hu hlowu
          have hdown : Joined nb (· ≠ p) u root :=
            (h.lower u _ hlowu hRu).mono fun w hw hwp => by
              obtain ⟨g, hg, hle⟩ := hw
              rw [hwp, hp] at hg
              obtain rfl := Option.some.inj hg
              omega
          exact (havoid (hframe.within x e he hed hlt2)).trans
            ((havoid (hjoined.symm hsymm)).trans ((Joined.single hu hyp hup').trans hdown))
  have hleft : ∀ x e, s'.disc x = some e → R ≤ e → x ∉ s'.stack.map Prod.fst → x ≠ root →
      x ∉ s'.points → ∀ y f, s'.disc y = some f → R ≤ f → y ≠ x → Joined nb (· ≠ x) y root := by
    intro x e hx hR hnot hroot hpoint y f hf hRf hyx
    rw [hdisc] at hx hf
    have hnot' : x ∉ ((p, q, j) :: below).map Prod.fst := by
      rw [← hs'] at hnot
      exact hnot
    by_cases hxc : x = c
    · subst hxc
      have hx' := hframe.seen
      rcases Nat.lt_trichotomy f d with hfd | rfl | hfd
      · refine (h.lower y f hf hRf).mono fun w hw hwx => ?_
        obtain ⟨g, hg, hle⟩ := hw
        rw [hwx, hx'] at hg
        obtain rfl := Option.some.inj hg
        omega
      · exact absurd (h.distinct y x f hf hx') hyx
      · exact hframe.around hroot (fun hx => hpoint (hsub x hx)) y f hf hfd (h.lt_clock y f hf)
    · refine h.left x e hx hR ?_ hroot (fun hx => hpoint (hsub x hx)) y f hf hRf hyx
      rw [hstack, List.map_cons, List.mem_cons, not_or]
      exact ⟨hxc, hnot'⟩
  have hsound : ∀ x ∈ s'.points, Splits nb x := by
    intro x hx
    rw [hpoints] at hx
    split at hx
    · rename_i hmark
      rcases List.mem_insert_iff.1 hx with rfl | hx
      · exact hsplits dp hmark.1 hp hmark.2
      · exact h.sound x hx
    · exact h.sound x hx
  subst hs'
  exact
    { h with
      frames := ⟨dp, Nat.lt_trans hdp hlt, hzone, hhangs', hbelow.mono hextends⟩
      left := hleft
      sound := hsound
      finished := fun hnil => absurd hnil (List.cons_ne_nil _ _) }

end

/-! ## A whole traversal -/

section

variable [DecidableEq α] {s s' : Visit α}

/-- What a turn can do. -/
inductive Turned (nb : α → List α) (root : α) (s : Visit α) : Visit α → Prop
  | skip {v u : α} {parent : Option α} {i : Nat} {rest : List (α × Option α × Nat)} :
      s.stack = (v, parent, i) :: rest → (nb v)[i]? = some u → some u = parent →
      Turned nb root s { s with stack := (v, parent, i + 1) :: rest }
  | find {v u : α} {parent : Option α} {i : Nat} {rest : List (α × Option α × Nat)} :
      s.stack = (v, parent, i) :: rest → (nb v)[i]? = some u → s.disc u = none →
      Turned nb root s
        { disc := Function.update s.disc u (some s.clock)
          low := Function.update s.low u s.clock
          points := s.points
          clock := s.clock + 1
          children := if v = root then s.children + 1 else s.children
          stack := (u, some v, 0) :: (v, parent, i + 1) :: rest }
  | look {v u : α} {parent : Option α} {i d : Nat} {rest : List (α × Option α × Nat)} :
      s.stack = (v, parent, i) :: rest → (nb v)[i]? = some u → s.disc u = some d →
      Turned nb root s { s with
        low := Function.update s.low v (min (s.low v) d)
        stack := (v, parent, i + 1) :: rest }
  | finishRoot {v : α} {i : Nat} {rest : List (α × Option α × Nat)} :
      s.stack = (v, none, i) :: rest → (nb v)[i]? = none →
      Turned nb root s { s with stack := rest }
  | finish {v p : α} {i : Nat} {rest : List (α × Option α × Nat)} :
      s.stack = (v, some p, i) :: rest → (nb v)[i]? = none →
      Turned nb root s { s with
        low := Function.update s.low p (min (s.low p) (s.low v))
        points := if p ≠ root ∧ (s.disc p).all (· ≤ s.low v) then s.points.insert p else s.points
        stack := rest }

theorem turned_of_turn (hturn : turn nb root s = some s') : Turned nb root s s' := by
  unfold turn at hturn
  cases hstack : s.stack with
  | nil =>
      rw [hstack] at hturn
      cases hturn
  | cons frame rest =>
      obtain ⟨v, parent, i⟩ := frame
      rw [hstack] at hturn
      dsimp only at hturn
      cases hu : (nb v)[i]? with
      | some u =>
          rw [hu] at hturn
          dsimp only at hturn
          by_cases hparent : some u = parent
          · rw [if_pos hparent] at hturn
            exact Option.some.inj hturn ▸ Turned.skip hstack hu hparent
          · rw [if_neg hparent] at hturn
            cases hdisc : s.disc u with
            | none =>
                rw [hdisc] at hturn
                exact Option.some.inj hturn ▸ Turned.find hstack hu hdisc
            | some d =>
                rw [hdisc] at hturn
                exact Option.some.inj hturn ▸ Turned.look hstack hu hdisc
      | none =>
          rw [hu] at hturn
          cases parent with
          | none => exact Option.some.inj hturn ▸ Turned.finishRoot hstack hu
          | some p => exact Option.some.inj hturn ▸ Turned.finish hstack hu

/-- The stack is empty when there is no turn. -/
theorem stack_eq_nil_of_turn (hturn : turn nb root s = none) : s.stack = [] := by
  unfold turn at hturn
  cases hstack : s.stack with
  | nil => rfl
  | cons frame rest =>
      obtain ⟨v, parent, i⟩ := frame
      rw [hstack] at hturn
      dsimp only at hturn
      cases hu : (nb v)[i]? with
      | some u =>
          rw [hu] at hturn
          dsimp only at hturn
          by_cases hparent : some u = parent
          · rw [if_pos hparent] at hturn
            cases hturn
          · rw [if_neg hparent] at hturn
            cases hdisc : s.disc u with
            | none =>
                rw [hdisc] at hturn
                cases hturn
            | some d =>
                rw [hdisc] at hturn
                cases hturn
      | none =>
          rw [hu] at hturn
          cases parent with
          | none => cases hturn
          | some p => cases hturn

/-- A turn keeps what is known between the turns. -/
theorem Visit.Ok.turn (h : s.Ok nb root R) (hsymm : ∀ x y, y ∈ nb x → x ∈ nb y)
    (hturn : Turned nb root s s') : s'.Ok nb root R := by
  cases hturn with
  | skip hstack hu hparent => exact h.skip hstack hu hparent
  | find hstack hu hnew => exact h.find hsymm hstack hu hnew
  | look hstack hu hd => exact h.look hstack hu hd
  | finishRoot hstack hend => exact h.finishRoot hstack hend
  | finish hstack hend => exact h.finish hsymm hstack hend

/-- What a traversal does to what was known before it: it finds more nodes, at later times, and more
articulation points. -/
structure Grows (s s' : Found α) : Prop where
  kept : ∀ x e, s.disc x = some e → s'.disc x = some e
  old : ∀ x e, s'.disc x = some e → e < s.clock → s.disc x = some e
  points : ∀ p ∈ s.points, p ∈ s'.points
  clock : s.clock ≤ s'.clock

omit [DecidableEq α] in
theorem Grows.refl (s : Found α) : Grows s s :=
  ⟨fun _ _ h => h, fun _ _ h _ => h, fun _ h => h, Nat.le_refl _⟩

omit [DecidableEq α] in
theorem Grows.trans {s s' s'' : Found α} (h : Grows s s') (h' : Grows s' s'') : Grows s s'' :=
  ⟨fun x e he => h'.kept x e (h.kept x e he),
    fun x e he hlt => h.old x e (h'.old x e he (Nat.lt_of_lt_of_le hlt h.clock)) hlt,
    fun p hp => h'.points p (h.points p hp), Nat.le_trans h.clock h'.clock⟩

theorem Turned.grows (hturn : Turned nb root s s') : Grows s.toFound s'.toFound := by
  cases hturn with
  | skip | look | finishRoot => exact ⟨fun _ _ h => h, fun _ _ h _ => h, fun _ h => h, Nat.le_refl _⟩
  | @find v u parent i rest hstack hu hnew =>
      refine ⟨fun x e he => ?_, fun x e he hlt => ?_, fun p hp => hp, Nat.le_succ _⟩
      · have hne : x ≠ u := by
          rintro rfl
          rw [hnew] at he
          cases he
        exact (Function.update_of_ne hne _ _).trans he
      · by_cases hx : x = u
        · subst hx
          have hself : Function.update s.disc x (some s.clock) x = some s.clock :=
            Function.update_self _ _ _
          have heq : s.clock = e := Option.some.inj (hself.symm.trans he)
          exact absurd hlt (heq ▸ Nat.lt_irrefl _)
        · exact (Function.update_of_ne hx _ _).symm.trans he
  | finish hstack hend =>
      refine ⟨fun _ _ h => h, fun _ _ h _ => h, fun p hp => ?_, Nat.le_refl _⟩
      dsimp only
      split
      · exact List.mem_insert_of_mem hp
      · exact hp

/-! ## It ends -/

/-- The turns that the nodes not found yet will take. -/
def unfound (nb : α → List α) (nodes : List α) (disc : α → Option Nat) : Nat :=
  (nodes.map fun v => if (disc v).isSome then 0 else (nb v).length + 1).sum

/-- The turns that are left. -/
def pending (nb : α → List α) (nodes : List α) (s : Visit α) : Nat :=
  unfound nb nodes s.disc + (s.stack.map fun f => (nb f.1).length - f.2.2 + 1).sum

/-- A node that is found takes its turns from those of the others. -/
theorem unfound_update (nb : α → List α) (nodes : List α) (disc : α → Option Nat) (u : α) (d : Nat) :
    unfound nb nodes (Function.update disc u (some d)) +
        (if u ∈ nodes ∧ disc u = none then (nb u).length + 1 else 0) ≤ unfound nb nodes disc := by
  induction nodes with
  | nil => simp [unfound]
  | cons v nodes ih =>
      simp only [unfound, List.map_cons, List.sum_cons] at ih ⊢
      by_cases hv : v = u
      · subst hv
        rw [Function.update_self]
        cases hdisc : disc v with
        | none =>
            simp only [List.mem_cons_self, Option.isSome_some, Option.isSome_none, and_self,
              if_true, Bool.false_eq_true, if_false]
            omega
        | some e =>
            simp only [hdisc, reduceCtorEq, and_false, if_false, Option.isSome_some] at ih ⊢
            omega
      · rw [Function.update_of_ne hv]
        have hmem : u ∈ v :: nodes ↔ u ∈ nodes := by
          rw [List.mem_cons]
          exact or_iff_right (Ne.symm hv)
        simp only [hmem]
        omega

/-- A turn is one of those that are left. -/
theorem Turned.pending {nodes : List α} (hnodes : ∀ v u, u ∈ nb v → u ∈ nodes)
    (hturn : Turned nb root s s') : Graphs.pending nb nodes s' < Graphs.pending nb nodes s := by
  unfold Graphs.pending
  cases hturn with
  | @skip v u parent i rest hstack hu hparent =>
      have hlt : i < (nb v).length := (List.getElem?_eq_some_iff.1 hu).1
      simp only [hstack, List.map_cons, List.sum_cons]
      omega
  | @find v u parent i rest hstack hu hnew =>
      have hlt : i < (nb v).length := (List.getElem?_eq_some_iff.1 hu).1
      have hfound := unfound_update nb nodes s.disc u s.clock
      rw [if_pos ⟨hnodes v u (List.mem_of_getElem? hu), hnew⟩] at hfound
      simp only [hstack, List.map_cons, List.sum_cons]
      omega
  | @look v u parent i d rest hstack hu hd =>
      have hlt : i < (nb v).length := (List.getElem?_eq_some_iff.1 hu).1
      simp only [hstack, List.map_cons, List.sum_cons]
      omega
  | finishRoot hstack hend | finish hstack hend =>
      simp only [hstack, List.map_cons, List.sum_cons]
      omega

/-- With fuel for the turns that are left, the traversal empties its stack. -/
theorem Visit.Ok.walk {nodes : List α} (hsymm : ∀ x y, y ∈ nb x → x ∈ nb y)
    (hnodes : ∀ v u, u ∈ nb v → u ∈ nodes) (fuel : Nat) (h : s.Ok nb root R)
    (hfuel : pending nb nodes s ≤ fuel) :
    ∃ s', Graphs.walk nb root fuel s = some s' ∧ s'.Ok nb root R ∧ s'.stack = [] ∧
      Grows s.toFound s'.toFound := by
  induction fuel generalizing s with
  | zero =>
      have hnil : s.stack = [] := by
        cases hstack : s.stack with
        | nil => rfl
        | cons frame rest =>
            rw [pending, hstack, List.map_cons, List.sum_cons] at hfuel
            omega
      exact ⟨s, by rw [Graphs.walk, hnil]; rfl, h, hnil, Grows.refl _⟩
  | succ fuel ih =>
      rw [Graphs.walk]
      cases hturn : Graphs.turn nb root s with
      | none => exact ⟨s, rfl, h, stack_eq_nil_of_turn hturn, Grows.refl _⟩
      | some s₁ =>
          have hturned := turned_of_turn hturn
          have hless := hturned.pending hnodes
          obtain ⟨s', hwalk, hok, hnil, hgrows⟩ := ih (h.turn hsymm hturned) (by omega)
          exact ⟨s', hwalk, hok, hnil, hturned.grows.trans hgrows⟩

/-! ## All traversals -/

/-- The marks are right for the nodes that were found, whole components. -/
structure Found.Exact (nb : α → List α) (s : Found α) : Prop where
  distinct : ∀ x y d, s.disc x = some d → s.disc y = some d → x = y
  lt_clock : ∀ x d, s.disc x = some d → d < s.clock
  closed : ∀ x e, s.disc x = some e → ∀ u ∈ nb x, ∃ f, s.disc u = some f
  sound : ∀ p ∈ s.points, Splits nb p
  complete : ∀ p e, s.disc p = some e → Splits nb p → p ∈ s.points

omit [DecidableEq α] in
/-- A node does not split when the others of its component are joined around it to one of them. -/
theorem not_splits (hsymm : ∀ x y, y ∈ nb x → x ∈ nb y) {C : α → Prop}
    (hC : ∀ x u, C x → u ∈ nb x → C u) {p r : α} (hp : C p)
    (hr : ∀ x, C x → x ≠ p → Joined nb (· ≠ p) x r) : ¬ Splits nb p := by
  rintro ⟨a, b, ha, hb, hap, hbp, hnot⟩
  have hin : ∀ {x}, Joined nb (fun _ => True) x p → C x := fun hx =>
    (hx.symm hsymm).mem_of_closed (fun y u hy hu _ => hC y u hy hu) hp
  exact hnot ((hr a (hin hap) ha).trans ((hr b (hin hbp) hb).symm hsymm))

/-- The start of a traversal. -/
theorem ok_start {known : Found α} (hknown : known.Exact nb) (hnew : known.disc root = none) :
    Visit.Ok nb root known.clock
      { disc := Function.update known.disc root (some known.clock)
        low := Function.update known.low root known.clock
        points := known.points
        clock := known.clock + 1
        children := 0
        stack := [(root, none, 0)] } := by
  generalize hs : ({
      disc := Function.update known.disc root (some known.clock)
      low := Function.update known.low root known.clock
      points := known.points
      clock := known.clock + 1
      children := 0
      stack := [(root, none, 0)] } : Visit α) = s
  have hself : s.disc root = some known.clock := by
    rw [← hs]
    exact Function.update_self _ _ _
  have hlow : s.low root = known.clock := by
    rw [← hs]
    exact Function.update_self _ _ _
  have hkept : ∀ x e, known.disc x = some e → s.disc x = some e := fun x e he => by
    have hne : x ≠ root := by
      rintro rfl
      rw [hnew] at he
      cases he
    rw [← hs]
    exact (Function.update_of_ne hne _ _).trans he
  have hcases : ∀ x e, s.disc x = some e →
      (x = root ∧ e = known.clock) ∨ known.disc x = some e := by
    intro x e he
    by_cases hx : x = root
    · subst hx
      exact Or.inl ⟨rfl, (Option.some.inj (hself.symm.trans he)).symm⟩
    · rw [← hs] at he
      exact Or.inr ((Function.update_of_ne hx _ _).symm.trans he)
  -- everything else was found before the root
  have honly : ∀ x e, s.disc x = some e → known.clock ≤ e → x = root := by
    intro x e he hle
    rcases hcases x e he with ⟨hx, -⟩ | he
    · exact hx
    · exact absurd (hknown.lt_clock x e he) (Nat.not_lt.2 hle)
  have hframe : FrameOk nb root known.clock s.toFound root none 0 known.clock s.clock := by
    have hclock : s.clock = known.clock + 1 := by rw [← hs]
    refine
      { seen := hself, first := Nat.le_refl _, low_le := Nat.le_of_eq hlow,
        low_from := Or.inl hlow, examined := fun j hj => absurd hj (Nat.not_lt_zero j),
        zone := fun x e _ hlt1 hlt2 => by omega, within := fun x e he hle _ => ?_,
        around := fun hne => absurd rfl hne }
    rw [honly x e he hle]
    exact Joined.refl root
  have hlt : known.clock < s.clock := by
    rw [← hs]
    exact Nat.lt_succ_self _
  refine
    { distinct := ?_, lt_clock := ?_, root_seen := hself, old := ?_, frames := ?_, lower := ?_,
      left := ?_, sound := ?_, none_found := ?_, some_found := ?_, many := ?_, finished := ?_ }
  · intro x y e hx hy
    rcases hcases x e hx with ⟨rfl, hxe⟩ | hx
    · exact (honly y e hy (Nat.le_of_eq hxe.symm)).symm
    · rcases hcases y e hy with ⟨rfl, hye⟩ | hy
      · exact absurd (hknown.lt_clock x e hx) (hye ▸ Nat.lt_irrefl _)
      · exact hknown.distinct x y e hx hy
  · intro x e he
    rcases hcases x e he with ⟨-, rfl⟩ | he
    · exact hlt
    · exact Nat.lt_trans (hknown.lt_clock x e he) hlt
  · intro x e he hlt' u hu
    rcases hcases x e he with ⟨-, rfl⟩ | he
    · exact absurd hlt' (Nat.lt_irrefl _)
    · obtain ⟨f, hf⟩ := hknown.closed x e he u hu
      exact ⟨f, hkept u f hf, hknown.lt_clock u f hf⟩
  · have hstack : s.stack = [(root, none, 0)] := by rw [← hs]
    rw [hstack]
    exact ⟨known.clock, hlt, hframe, Or.inl ⟨rfl, rfl, rfl⟩, trivial⟩
  · intro x e he hle
    rw [honly x e he hle]
    exact Joined.refl root
  · intro p e hp hle _ hroot
    exact absurd (honly p e hp hle) hroot
  · rw [← hs]
    exact hknown.sound
  · intro _ x e he
    rcases hcases x e he with ⟨-, rfl⟩ | he
    · exact Nat.le_refl _
    · exact Nat.le_of_lt (hknown.lt_clock x e he)
  · intro hpos
    rw [← hs] at hpos
    exact absurd hpos (Nat.lt_irrefl 0)
  · intro hmany
    rw [← hs] at hmany
    exact absurd hmany (Nat.not_lt_zero 1)
  · intro hnil
    rw [← hs] at hnil
    cases hnil

/-- The end of a traversal: the root is marked when it has more than one child. -/
theorem exact_end {known : Found α} (hknown : known.Exact nb) (hsymm : ∀ x y, y ∈ nb x → x ∈ nb y)
    (hok : s.Ok nb root known.clock) (hnil : s.stack = []) (hgrows : Grows known s.toFound)
    {points : List α}
    (hpoints : points = if s.children > 1 then s.points.insert root else s.points) :
    Found.Exact nb { s.toFound with points := points } := by
  have hsub : ∀ p ∈ s.points, p ∈ points := fun p hp => by
    rw [hpoints]
    split
    · exact List.mem_insert_of_mem hp
    · exact hp
  have hC : ∀ x u, s.Since known.clock x → u ∈ nb x → s.Since known.clock u := by
    rintro x u ⟨e, he, hle⟩ hu
    obtain ⟨f, hf⟩ := hok.finished hnil x e he u hu
    exact ⟨f, hf, hok.first_le hsymm he hle hu hf⟩
  refine
    { distinct := hok.distinct, lt_clock := hok.lt_clock, closed := hok.finished hnil,
      sound := ?_, complete := ?_ }
  · intro p hp
    dsimp only at hp
    rw [hpoints] at hp
    split at hp
    · rename_i hmany
      rcases List.mem_insert_iff.1 hp with rfl | hp
      · exact hok.many hmany
      · exact hok.sound p hp
    · exact hok.sound p hp
  · intro p e hp hsplits
    by_contra hnot
    have hnot' : p ∉ s.points := fun hmem => hnot (hsub p hmem)
    rcases Nat.lt_or_ge e known.clock with hlt | hge
    · -- found before: it was marked already
      exact hnot' (hgrows.points p (hknown.complete p e (hgrows.old p e hp hlt) hsplits))
    · by_cases hroot : p = root
      · subst hroot
        have hfew : ¬ s.children > 1 := fun hmany => by
          rw [if_pos hmany] at hpoints
          exact hnot (hpoints ▸ List.mem_insert_self)
        by_cases hzero : s.children = 0
        · -- nothing was found from the root
          refine not_splits hsymm hC (r := p) ⟨e, hp, hge⟩ ?_ hsplits
          rintro x ⟨f, hf, hle⟩ hne
          have heq : f = known.clock := Nat.le_antisymm (hok.none_found hzero x f hf) hle
          exact absurd (hok.distinct x p f hf (heq ▸ hok.root_seen)) hne
        · obtain ⟨c, -, -, -, -, hall⟩ := hok.some_found (Nat.pos_of_ne_zero hzero)
          refine not_splits hsymm hC (r := c) ⟨e, hp, hge⟩ ?_ hsplits
          rintro x ⟨f, hf, hle⟩ hne
          refine hall (by omega) x f hf (Nat.lt_of_le_of_ne hle ?_)
          rintro rfl
          exact hne (hok.distinct x p _ hf hok.root_seen)
      · refine not_splits hsymm hC (r := root) ⟨e, hp, hge⟩ ?_ hsplits
        rintro x ⟨f, hf, hle⟩ hne
        exact hok.left p e hp hge (by rw [hnil]; exact List.not_mem_nil) hroot hnot' x f hf hle hne

/-- A traversal ends; the marks are right for what it finds too. -/
theorem visit_spec {nodes : List α} (hsymm : ∀ x y, y ∈ nb x → x ∈ nb y)
    (hnodes : ∀ v u, u ∈ nb v → u ∈ nodes) (hroot : root ∈ nodes) {known : Found α}
    (hknown : known.Exact nb) :
    ∃ found, visit nb root (fuelFor nb nodes) known = some found ∧ found.Exact nb ∧
      (∃ e, found.disc root = some e) ∧ ∀ x e, known.disc x = some e → found.disc x = some e := by
  unfold visit
  cases hdisc : known.disc root with
  | some e => exact ⟨known, rfl, hknown, ⟨e, hdisc⟩, fun _ _ h => h⟩
  | none =>
      have hfuel : pending nb nodes
          { disc := Function.update known.disc root (some known.clock)
            low := Function.update known.low root known.clock
            points := known.points
            clock := known.clock + 1
            children := 0
            stack := [(root, none, 0)] } ≤ fuelFor nb nodes := by
        have hfound := unfound_update nb nodes known.disc root known.clock
        rw [if_pos ⟨hroot, hdisc⟩] at hfound
        have hall : unfound nb nodes known.disc ≤ fuelFor nb nodes := by
          refine List.sum_le_sum fun v _ => ?_
          split
          · exact Nat.zero_le _
          · exact Nat.le_refl _
        simp only [pending, List.map_cons, List.map_nil, List.sum_cons, List.sum_nil]
        omega
      obtain ⟨s, hwalk, hok, hnil, hgrows⟩ :=
        (ok_start hknown hdisc).walk hsymm hnodes (fuelFor nb nodes) hfuel
      have hkept : ∀ x e, known.disc x = some e → s.disc x = some e := by
        intro x e he
        have hne : x ≠ root := by
          rintro rfl
          rw [hdisc] at he
          cases he
        exact hgrows.kept x e ((Function.update_of_ne hne _ _).trans he)
      have hold : Grows known s.toFound := by
        refine ⟨hkept, fun x e he hlt => ?_, hgrows.points,
          Nat.le_trans (Nat.le_succ _) hgrows.clock⟩
        have hstart := hgrows.old x e he (Nat.lt_succ_of_lt hlt)
        by_cases hx : x = root
        · subst hx
          have heq := Option.some.inj ((Function.update_self x _ known.disc).symm.trans hstart)
          exact absurd hlt (heq ▸ Nat.lt_irrefl _)
        · exact (Function.update_of_ne hx _ _).symm.trans hstart
      refine ⟨{ s.toFound with points := if s.children > 1 then s.points.insert root else s.points },
        ?_, exact_end hknown hsymm hok hnil hold rfl, ⟨_, hok.root_seen⟩, hkept⟩
      rw [hwalk]
      rfl

/-- The traversals end, and the marks are the nodes whose removal splits their component. -/
theorem articulation_spec {nodes : List α} (hsymm : ∀ x y, y ∈ nb x → x ∈ nb y)
    (hnodes : ∀ v u, u ∈ nb v → u ∈ nodes) :
    ∃ points, articulation nb nodes = some points ∧ ∀ p, p ∈ points ↔ Splits nb p := by
  have hrun : ∀ (roots : List α) (known : Found α), (∀ r ∈ roots, r ∈ nodes) → known.Exact nb →
      ∃ found, roots.foldlM (fun known root => visit nb root (fuelFor nb nodes) known) known =
          some found ∧ found.Exact nb ∧ (∀ r ∈ roots, ∃ e, found.disc r = some e) ∧
        ∀ x e, known.disc x = some e → found.disc x = some e := by
    intro roots
    induction roots with
    | nil => exact fun known _ hknown => ⟨known, rfl, hknown, by simp, fun _ _ h => h⟩
    | cons r roots ih =>
        intro known hin hknown
        obtain ⟨next, hvisit, hexact, ⟨e, he⟩, hkept⟩ :=
          visit_spec hsymm hnodes (hin r List.mem_cons_self) hknown
        obtain ⟨found, hfold, hexact', hroots, hkept'⟩ :=
          ih next (fun r' hr' => hin r' (List.mem_cons_of_mem r hr')) hexact
        refine ⟨found, ?_, hexact', fun r' hr' => ?_, fun x d hd => hkept' x d (hkept x d hd)⟩
        · rw [List.foldlM_cons, hvisit]
          exact hfold
        · rcases List.mem_cons.1 hr' with rfl | hr'
          · exact ⟨e, hkept' r' e he⟩
          · exact hroots r' hr'
  obtain ⟨found, hfold, hexact, hall, -⟩ := hrun nodes
    { disc := fun _ => none, low := fun _ => 0, points := [], clock := 0 } (fun r hr => hr)
    ⟨by simp, by simp, by simp, by simp, by simp⟩
  refine ⟨found.points, by rw [articulation, hfold]; rfl, fun p => ⟨hexact.sound p, fun hp => ?_⟩⟩
  -- a node that splits has a neighbour, so it is one of the nodes
  have hin : p ∈ nodes := by
    obtain ⟨a, -, ha, -, hap, -⟩ := hp
    rcases ReflTransGen.cases_tail hap with rfl | ⟨c, -, hc, -⟩
    · exact absurd rfl ha
    · exact hnodes c p hc
  obtain ⟨e, he⟩ := hall p hin
  exact hexact.complete p e he hp

end

end IllumioOps.Graphs
