import Mathlib.Data.List.Forall2

/-!
# Lists of results that may be missing

`List.mapM` into `Option`: the whole list when there is a result for every element, none when one is
missing.
-/

set_option autoImplicit false

namespace IllumioOps.Tables

variable {α β γ : Type} {f : α → Option β} {xs : List α} {ys : List β}

/-- The results are the elements' own, in their order. -/
theorem mapM_eq_some_iff : xs.mapM f = some ys ↔ List.Forall₂ (fun x y => f x = some y) xs ys := by
  induction xs generalizing ys with
  | nil =>
      rw [List.forall₂_nil_left_iff, List.mapM_nil, eq_comm]
      exact Option.some_inj
  | cons x xs ih =>
      rw [List.mapM_cons, List.forall₂_cons_left_iff]
      constructor
      · intro h
        obtain ⟨y, hy, h⟩ := Option.bind_eq_some_iff.1 h
        obtain ⟨rest, hrest, h⟩ := Option.bind_eq_some_iff.1 h
        exact ⟨y, rest, hy, ih.1 hrest, (Option.some.inj h).symm⟩
      · rintro ⟨y, rest, hy, hrest, rfl⟩
        rw [hy, ih.2 hrest]
        rfl

/-- There is a list when each element has a result. -/
theorem exists_mapM (h : ∀ x ∈ xs, ∃ y, f x = some y) : ∃ ys, xs.mapM f = some ys := by
  induction xs with
  | nil => exact ⟨[], rfl⟩
  | cons x xs ih =>
      obtain ⟨y, hy⟩ := h x List.mem_cons_self
      obtain ⟨ys, hys⟩ := ih fun x' hx' => h x' (List.mem_cons_of_mem x hx')
      exact ⟨y :: ys, by rw [List.mapM_cons, hy, hys]; rfl⟩

/-- A result is that of an element. -/
theorem exists_of_mem_mapM (h : xs.mapM f = some ys) {y : β} (hy : y ∈ ys) :
    ∃ x ∈ xs, f x = some y := by
  obtain ⟨i, hi, rfl⟩ := List.getElem_of_mem hy
  have hall := mapM_eq_some_iff.1 h
  have hlt : i < xs.length := hall.length_eq ▸ hi
  exact ⟨xs[i], List.getElem_mem hlt, hall.get hlt hi⟩

/-- What the results have in common with the elements. -/
theorem map_eq_map_of_mapM (h : xs.mapM f = some ys) {g : β → γ} {k : α → γ}
    (hg : ∀ x y, f x = some y → g y = k x) : ys.map g = xs.map k := by
  have hall := mapM_eq_some_iff.1 h
  clear h
  induction hall with
  | nil => rfl
  | cons hxy _ ih => rw [List.map_cons, List.map_cons, hg _ _ hxy, ih]

end IllumioOps.Tables
