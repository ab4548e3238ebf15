import Mathlib.Data.List.Induction
import Mathlib.Data.Set.Card

/-!
# Lists without repetitions

Keeping the first of equal entries, in their order.
-/

set_option autoImplicit false

namespace IllumioOps.Tables

variable {α : Type} [BEq α] [LawfulBEq α]

theorem nodup_eraseDups (xs : List α) : xs.eraseDups.Nodup := by
  induction xs using List.reverseRecOn with
  | nil => exact List.nodup_nil
  | append_singleton xs a ih =>
      rw [List.eraseDups_append]
      by_cases ha : a ∈ xs
      · simpa [List.removeAll, ha] using ih
      · have hnew : ∀ b ∈ xs, b ≠ a := fun b hb heq => ha (heq ▸ hb)
        simpa [List.removeAll, ha, List.eraseDups_cons, List.nodup_append, ih] using hnew

omit [BEq α] [LawfulBEq α] in
/-- A list that holds each element of a set once is as long as the set is large. -/
theorem ncard_eq_length {xs : List α} (hnodup : xs.Nodup) {P : α → Prop} (hP : ∀ x, x ∈ xs ↔ P x) :
    Set.ncard {x | P x} = xs.length := by
  classical
  have hset : {x | P x} = ((xs.toFinset : Finset α) : Set α) := by
    ext x
    simp [hP]
  rw [hset, Set.ncard_coe_finset, List.toFinset_card_of_nodup hnodup]

omit [BEq α] [LawfulBEq α] in
/-- It is as long as the part of a larger such list that satisfies the same condition. -/
theorem length_eq_countP {xs ys : List α} (hxs : xs.Nodup) (hys : ys.Nodup) {P : α → Bool}
    (hP : ∀ x, x ∈ xs ↔ x ∈ ys ∧ P x) : xs.length = ys.countP P := by
  rw [List.countP_eq_length_filter]
  refine List.Perm.length_eq ((List.perm_ext_iff_of_nodup hxs (hys.filter P)).2 fun x => ?_)
  rw [hP, List.mem_filter]

omit [BEq α] [LawfulBEq α] in
/-- Pairs of a relation are counted by their first parts as by their second. -/
theorem sum_countP_comm {β : Type} (r : α → β → Bool) (xs : List α) (ys : List β) :
    (xs.map fun x => ys.countP (r x)).sum = (ys.map fun y => xs.countP fun x => r x y).sum := by
  induction xs with
  | nil => simp
  | cons x xs ih =>
      have hone : (ys.map fun y => (x :: xs).countP fun z => r z y).sum =
          ys.countP (r x) + (ys.map fun y => xs.countP fun z => r z y).sum := by
        clear ih
        induction ys with
        | nil => simp
        | cons y ys ih =>
            simp only [List.map_cons, List.sum_cons, List.countP_cons] at ih ⊢
            omega
      rw [List.map_cons, List.sum_cons, ih, hone]

end IllumioOps.Tables
