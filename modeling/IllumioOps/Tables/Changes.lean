import Mathlib.Data.List.Nodup

/-!
# How tables change

A table is a list of rows in insertion order. `Evolves R N xs ys` says that every row of
`xs` is still in `ys`, at its place and changed as `R` allows, and that the rows after
them are new and satisfy `N`. Updates and inserts evolve a table, evolutions compose,
and what the relation leaves alone is the same before and after.

`groupUpdate` edits the rows of one group by what the group holds. Updates of several
groups, one after another, do not see each other (`foldl_groupUpdate`). Of updates of which at most
one touches a row, that one edits it (`foldl_edit_cases`).
-/

set_option autoImplicit false

namespace IllumioOps.Tables

variable {α β : Type}

/-- Kept rows changed as `R` allows, then new rows as `N` allows. -/
inductive Evolves (R : α → α → Prop) (N : α → Prop) : List α → List α → Prop where
  | added {ys : List α} (h : ∀ y ∈ ys, N y) : Evolves R N [] ys
  | kept {x y : α} {xs ys : List α} (h : R x y) (rest : Evolves R N xs ys) :
      Evolves R N (x :: xs) (y :: ys)

variable {R S : α → α → Prop} {N M : α → Prop} {xs ys zs : List α}

/-! ## What evolves a table -/

/-- An update of the rows, then an insert at the end. -/
theorem Evolves.map_append {f : α → α} (hR : ∀ x ∈ xs, R x (f x)) (hN : ∀ y ∈ ys, N y) :
    Evolves R N xs (xs.map f ++ ys) := by
  induction xs with
  | nil => exact .added hN
  | cons x xs ih =>
      apply Evolves.kept (hR x List.mem_cons_self)
      apply ih
      intro z hz
      exact hR z (List.mem_cons_of_mem _ hz)

/-- An update of the rows. -/
theorem Evolves.map {f : α → α} (hR : ∀ x ∈ xs, R x (f x)) : Evolves R N xs (xs.map f) := by
  have h : Evolves R N xs (xs.map f ++ []) :=
    Evolves.map_append hR fun y hy => absurd hy List.not_mem_nil
  rwa [List.append_nil] at h

/-- An insert at the end. -/
theorem Evolves.append (hR : ∀ x ∈ xs, R x x) (hN : ∀ y ∈ ys, N y) :
    Evolves R N xs (xs ++ ys) := by
  have h := Evolves.map_append (f := id) hR hN
  rwa [List.map_id] at h

theorem Evolves.refl (hR : ∀ x ∈ xs, R x x) : Evolves R N xs xs := by
  have h := Evolves.map (N := N) (f := id) hR
  rwa [List.map_id] at h

theorem Evolves.mono {R' : α → α → Prop} {N' : α → Prop} (h : Evolves R N xs ys)
    (hR : ∀ x ∈ xs, ∀ y ∈ ys, R x y → R' x y) (hN : ∀ y ∈ ys, N y → N' y) :
    Evolves R' N' xs ys := by
  induction h with
  | added h =>
      apply Evolves.added
      intro y hy
      exact hN y hy (h y hy)
  | kept h _ ih =>
      apply Evolves.kept (hR _ List.mem_cons_self _ List.mem_cons_self h)
      apply ih
      · intro x hx y hy
        exact hR x (List.mem_cons_of_mem _ hx) y (List.mem_cons_of_mem _ hy)
      · intro y hy
        exact hN y (List.mem_cons_of_mem _ hy)

/-- New rows that evolve on are new rows of the whole. -/
theorem Evolves.of_added (hN : ∀ y ∈ ys, N y) (h : Evolves S M ys zs) :
    ∀ z ∈ zs, (∃ y, N y ∧ S y z) ∨ M z := by
  induction h with
  | added h =>
      intro z hz
      exact Or.inr (h z hz)
  | kept hS _ ih =>
      intro z hz
      rcases List.mem_cons.1 hz with rfl | hz
      · exact Or.inl ⟨_, hN _ List.mem_cons_self, hS⟩
      · apply ih _ z hz
        intro y hy
        exact hN y (List.mem_cons_of_mem _ hy)

/-- One evolution after another. -/
theorem Evolves.trans (h : Evolves R N xs ys) (h' : Evolves S M ys zs) :
    Evolves (fun x z => ∃ y, R x y ∧ S y z) (fun z => (∃ y, N y ∧ S y z) ∨ M z) xs zs := by
  induction h generalizing zs with
  | added hN => exact .added (Evolves.of_added hN h')
  | kept hR _ ih =>
      cases h' with
      | kept hS hrest => exact .kept ⟨_, hR, hS⟩ (ih hrest)

/-! ## What an evolved table holds -/

/-- A row is a kept one or a new one. -/
theorem Evolves.mem_right (h : Evolves R N xs ys) {y : α} (hy : y ∈ ys) :
    (∃ x ∈ xs, R x y) ∨ N y := by
  induction h with
  | added hN => exact Or.inr (hN y hy)
  | kept hR _ ih =>
      rcases List.mem_cons.1 hy with rfl | hy
      · exact Or.inl ⟨_, List.mem_cons_self, hR⟩
      · rcases ih hy with ⟨x, hx, hxy⟩ | hy
        · exact Or.inl ⟨x, List.mem_cons_of_mem _ hx, hxy⟩
        · exact Or.inr hy

/-- No row is lost. -/
theorem Evolves.mem_left (h : Evolves R N xs ys) {x : α} (hx : x ∈ xs) : ∃ y ∈ ys, R x y := by
  induction h with
  | added => exact absurd hx List.not_mem_nil
  | kept hR _ ih =>
      rcases List.mem_cons.1 hx with rfl | hx
      · exact ⟨_, List.mem_cons_self, hR⟩
      · obtain ⟨y, hy, hxy⟩ := ih hx
        exact ⟨y, List.mem_cons_of_mem _ hy, hxy⟩

/-- Rows of a kind that updates keep in the kind and unchanged, and inserts do not add. -/
theorem Evolves.filter_map_eq {p : α → Bool} {f : α → β} (h : Evolves R N xs ys)
    (hR : ∀ x ∈ xs, ∀ y ∈ ys, R x y → p x = p y ∧ (p y = true → f x = f y))
    (hN : ∀ y ∈ ys, N y → p y = false) : (ys.filter p).map f = (xs.filter p).map f := by
  induction h with
  | added h =>
      rw [List.filter_eq_nil_iff.2 (fun y hy => by simp [hN y hy (h y hy)]), List.filter_nil]
  | @kept x y xs ys h _ ih =>
      obtain ⟨hp, hf⟩ := hR x List.mem_cons_self y List.mem_cons_self h
      have hrest := ih (fun x hx y hy => hR x (List.mem_cons_of_mem _ hx) y
        (List.mem_cons_of_mem _ hy)) (fun y hy => hN y (List.mem_cons_of_mem _ hy))
      cases hy : p y with
      | false => rw [List.filter_cons_of_neg (by simp [hy]),
          List.filter_cons_of_neg (by simp [hp, hy]), hrest]
      | true => rw [List.filter_cons_of_pos (by simp [hy]),
          List.filter_cons_of_pos (by simp [hp, hy]), List.map_cons, List.map_cons, hrest, hf hy]

/-! ## Updates group by group -/

section Groups

variable {κ : Type} [DecidableEq κ] {g : α → κ} {e : List α → α → α}

/-- The rows of a group. -/
def groupRows (g : α → κ) (xs : List α) (k : κ) : List α := xs.filter fun x => g x = k

/-- Every row of the group is edited by what the whole group holds. -/
def groupUpdate (g : α → κ) (e : List α → α → α) (xs : List α) (k : κ) : List α :=
  xs.map fun x => if g x = k then e (groupRows g xs k) x else x

@[simp] theorem mem_groupRows {xs : List α} {k : κ} {x : α} :
    x ∈ groupRows g xs k ↔ x ∈ xs ∧ g x = k := by
  simp [groupRows]

/-- The group after its update. -/
theorem groupRows_groupUpdate (hg : ∀ ys x, g (e ys x) = g x) (xs : List α) (k : κ) :
    groupRows g (groupUpdate g e xs k) k = (groupRows g xs k).map (e (groupRows g xs k)) := by
  have hfilter : ∀ ys, groupRows g (xs.map fun x => if g x = k then e ys x else x) k =
      (groupRows g xs k).map (e ys) := by
    intro ys
    unfold groupRows
    rw [List.filter_map]
    have hsame : ((fun x => decide (g x = k)) ∘ fun x => if g x = k then e ys x else x) =
        fun x => decide (g x = k) := by
      funext x
      by_cases h : g x = k
      · simp [h, hg]
      · simp [h]
    rw [hsame]
    apply List.map_congr_left
    intro x hx
    rw [if_pos (by simpa using (List.mem_filter.1 hx).2)]
  exact hfilter _

/-- Two updates of one group, one after the other. -/
theorem groupUpdate_groupUpdate {e' : List α → α → α} (hg : ∀ ys x, g (e ys x) = g x)
    (xs : List α) (k : κ) :
    groupUpdate g e' (groupUpdate g e xs k) k =
      groupUpdate g (fun ys x => e' (ys.map (e ys)) (e ys x)) xs k := by
  rw [groupUpdate, groupRows_groupUpdate hg, groupUpdate, groupUpdate, List.map_map]
  apply List.map_congr_left
  intro x _
  simp only [Function.comp]
  by_cases h : g x = k
  · rw [if_pos h, if_pos h, hg, if_pos h]
  · rw [if_neg h, if_neg h, if_neg h]

/-- An update keeps the rows of every other group. -/
theorem groupRows_groupUpdate_of_ne (hg : ∀ ys x, g (e ys x) = g x) {k k' : κ} (hne : k' ≠ k)
    (xs : List α) : groupRows g (groupUpdate g e xs k) k' = groupRows g xs k' := by
  have hsame : ∀ x, g (if g x = k then e (groupRows g xs k) x else x) = g x := by
    intro x
    by_cases h : g x = k
    · rw [if_pos h, hg]
    · rw [if_neg h]
  unfold groupUpdate
  generalize groupRows g xs k = ys at hsame
  unfold groupRows
  rw [List.filter_map]
  have hfilter : (xs.filter ((fun x => decide (g x = k')) ∘ fun x =>
      if g x = k then e ys x else x)) = xs.filter fun x => decide (g x = k') := by
    apply List.filter_congr
    intro x _
    simp only [Function.comp, hsame]
  rw [hfilter]
  conv_rhs => rw [← List.map_id (xs.filter fun x => decide (g x = k'))]
  apply List.map_congr_left
  intro x hx
  have hk' : g x = k' := by simpa using (List.mem_filter.1 hx).2
  rw [if_neg (fun h => hne (hk'.symm.trans h)), id]

/-- Updates of several groups edit each row by what its group held at first. -/
theorem foldl_groupUpdate (hg : ∀ ys x, g (e ys x) = g x) {ks : List κ} (hks : ks.Nodup)
    (xs : List α) :
    ks.foldl (groupUpdate g e) xs =
      xs.map fun x => if g x ∈ ks then e (groupRows g xs (g x)) x else x := by
  induction ks generalizing xs with
  | nil => simp
  | cons k ks ih =>
      obtain ⟨hk, hks⟩ := List.nodup_cons.1 hks
      rw [List.foldl_cons, ih hks]
      conv_lhs => enter [2]; unfold groupUpdate
      rw [List.map_map]
      apply List.map_congr_left
      intro x _
      simp only [Function.comp]
      by_cases hx : g x = k
      · -- The row's own group is updated first; the later ones are other groups.
        rw [if_pos hx, hg, hx, if_neg hk, if_pos List.mem_cons_self]
      · rw [if_neg hx, groupRows_groupUpdate_of_ne hg hx]
        simp only [List.mem_cons, hx, false_or]

end Groups

/-! ## Updates of disjoint rows -/

section Disjoint

variable {ω : Type} {edit : α → ω → α} {touches : ω → α → Prop}

/-- A row that none of the updates touches. -/
theorem foldl_edit_eq (hkeep : ∀ w x, ¬ touches w x → edit x w = x) {ws : List ω} {x : α}
    (hnone : ∀ w ∈ ws, ¬ touches w x) : ws.foldl edit x = x := by
  induction ws with
  | nil => rfl
  | cons w ws ih =>
      rw [List.foldl_cons, hkeep w x (hnone w List.mem_cons_self)]
      exact ih fun v hv => hnone v (List.mem_cons_of_mem _ hv)

/-- Updates one after the other, of which at most one touches the row: that one edits it. -/
theorem foldl_edit_of_mem (hkeep : ∀ w x, ¬ touches w x → edit x w = x)
    (hedit : ∀ v w x, touches v (edit x w) → touches v x) {ws : List ω} {x : α}
    (hdisjoint : ws.Pairwise fun v w => touches v x → ¬ touches w x) {w : ω} (hw : w ∈ ws)
    (htouches : touches w x) : ws.foldl edit x = edit x w := by
  induction ws with
  | nil => exact absurd hw List.not_mem_nil
  | cons v ws ih =>
      obtain ⟨hv, hws⟩ := List.pairwise_cons.1 hdisjoint
      rw [List.foldl_cons]
      rcases List.mem_cons.1 hw with rfl | hw
      · -- the later updates do not touch the row, nor what became of it
        refine foldl_edit_eq hkeep fun u hu hux => ?_
        exact hv u hu htouches (hedit u w x hux)
      · rw [hkeep v x fun hvx => hv w hw hvx htouches]
        exact ih hws hw

/-- What is left of a row after such updates: the row itself, or what one of them made of it. -/
theorem foldl_edit_cases (hkeep : ∀ w x, ¬ touches w x → edit x w = x)
    (hedit : ∀ v w x, touches v (edit x w) → touches v x) {ws : List ω} {x : α}
    (hdisjoint : ws.Pairwise fun v w => touches v x → ¬ touches w x) :
    ws.foldl edit x = x ∨
      ∃ w ∈ ws, touches w x ∧ ws.foldl edit x = edit x w := by
  by_cases hsome : ∃ w ∈ ws, touches w x
  · obtain ⟨w, hw, htouches⟩ := hsome
    exact Or.inr ⟨w, hw, htouches, foldl_edit_of_mem hkeep hedit hdisjoint hw htouches⟩
  · refine Or.inl (foldl_edit_eq hkeep fun w hw htouches => ?_)
    exact hsome ⟨w, hw, htouches⟩

end Disjoint

end IllumioOps.Tables
