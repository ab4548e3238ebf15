import Mathlib.Data.List.Basic

/-!
# Loading rows up to a limit

A list is read up to its `n`-th element that counts (`upTo`), and each row that is read goes into a table unless the
table has one with its key (`insertNew`): what is in the table in the end is what it had, and of the other keys the
first row that was read (`mem_foldl_insertNew`).
-/

set_option autoImplicit false

namespace IllumioOps.Tables

variable {α κ : Type} {p : α → Bool} {n : Nat} {xs ys : List α}

/-! ## Up to a limit -/

/-- The list up to its `n`-th element that counts, or all of it. -/
def upTo (p : α → Bool) : Nat → List α → List α
  | _, [] => []
  | n, x :: xs => if p x then if n ≤ 1 then [x] else x :: upTo p (n - 1) xs else x :: upTo p n xs

theorem upTo_append_of_lt (h : xs.countP p < n) : upTo p n (xs ++ ys) = xs ++ upTo p (n - xs.countP p) ys := by
  induction xs generalizing n with
  | nil => simp
  | cons x xs ih =>
    rw [List.cons_append, upTo]
    split
    · rename_i hx
      rw [List.countP_cons_of_pos hx] at h ⊢
      rw [if_neg (by omega), ih (by omega), Nat.sub_sub, Nat.add_comm 1]
      rfl
    · rename_i hx
      rw [List.countP_cons_of_neg hx] at h ⊢
      rw [ih h]
      rfl

/-- Fewer count than the limit: everything is read. -/
theorem upTo_eq_self (h : xs.countP p < n) : upTo p n xs = xs := by
  have hall : upTo p n (xs ++ []) = _ := upTo_append_of_lt h
  simpa [upTo] using hall

/-- Where the limit is reached nothing more is read. -/
theorem upTo_append_of_le (h : n ≤ xs.countP p) (hn : 0 < n) : upTo p n (xs ++ ys) = upTo p n xs := by
  induction xs generalizing n with
  | nil => simp only [List.countP_nil] at h; omega
  | cons x xs ih =>
    rw [List.cons_append, upTo, upTo]
    split
    · rename_i hx
      rw [List.countP_cons_of_pos hx] at h
      split
      · rfl
      · rw [ih (by omega) (by omega)]
    · rename_i hx
      rw [List.countP_cons_of_neg hx] at h
      rw [ih h hn]

theorem upTo_ne_nil (h : xs ≠ []) : upTo p n xs ≠ [] := by
  cases xs with
  | nil => exact absurd rfl h
  | cons x xs =>
    rw [upTo]
    split
    · split <;> exact List.cons_ne_nil _ _
    · exact List.cons_ne_nil _ _

theorem upTo_subset : upTo p n xs ⊆ xs := by
  induction xs generalizing n with
  | nil => exact List.Subset.refl _
  | cons x xs ih =>
    rw [upTo]
    split
    · split
      · exact List.cons_subset_cons _ (List.nil_subset _)
      · exact List.cons_subset_cons _ ih
    · exact List.cons_subset_cons _ ih

theorem upTo_map {β : Type} (f : β → α) (zs : List β) : upTo p n (zs.map f) = (upTo (fun z => p (f z)) n zs).map f := by
  induction zs generalizing n with
  | nil => rfl
  | cons z zs ih =>
    rw [List.map_cons, upTo, upTo, ih, ih]
    split
    · split <;> rfl
    · rfl

/-! ## The first row of a key -/

variable [DecidableEq κ] {key : α → κ}

/-- The row goes in unless the table has its key. -/
def insertNew (key : α → κ) (rows : List α) (r : α) : List α :=
  if ∃ q ∈ rows, key q = key r then rows else rows ++ [r]

theorem mem_insertNew {rows : List α} {r x : α} :
    x ∈ insertNew key rows r ↔ x ∈ rows ∨ x = r ∧ ∀ q ∈ rows, key q ≠ key r := by
  unfold insertNew
  split
  · rename_i hkey
    obtain ⟨q, hq, heq⟩ := hkey
    exact ⟨Or.inl, fun h => h.elim id fun h => absurd heq (h.2 q hq)⟩
  · rename_i hkey
    rw [List.mem_append, List.mem_singleton]
    exact ⟨Or.imp_right fun h => ⟨h, fun q hq heq => hkey ⟨q, hq, heq⟩⟩, Or.imp_right And.left⟩

/-- Of a key that the table did not have, the first row that was read is in it. -/
theorem mem_foldl_insertNew {rows : List α} {x : α} :
    x ∈ xs.foldl (insertNew key) rows ↔
      x ∈ rows ∨ (∀ q ∈ rows, key q ≠ key x) ∧ xs.find? (fun q => key q = key x) = some x := by
  induction xs generalizing rows with
  | nil => simp
  | cons r xs ih =>
    rw [List.foldl_cons, ih, mem_insertNew]
    by_cases hr : key r = key x
    · -- the row itself has the key: it is the first, or the table has one
      have hnone : ¬ ∀ q ∈ insertNew key rows r, key q ≠ key x := by
        intro h
        by_cases hold : ∃ q ∈ rows, key q = key r
        · obtain ⟨q, hq, heq⟩ := hold
          exact h q (mem_insertNew.2 (Or.inl hq)) (heq.trans hr)
        · exact h r (mem_insertNew.2 (Or.inr ⟨rfl, fun q hq heq => hold ⟨q, hq, heq⟩⟩)) hr
      rw [List.find?_cons_of_pos (by simpa using hr)]
      constructor
      · rintro ((hx | ⟨rfl, hnew⟩) | ⟨hno, -⟩)
        · exact Or.inl hx
        · exact Or.inr ⟨hnew, rfl⟩
        · exact absurd hno hnone
      · rintro (hx | ⟨hno, hx⟩)
        · exact Or.inl (Or.inl hx)
        · obtain rfl := Option.some.inj hx
          exact Or.inl (Or.inr ⟨rfl, hno⟩)
    · have hkeys : (∀ q ∈ insertNew key rows r, key q ≠ key x) ↔ ∀ q ∈ rows, key q ≠ key x := by
        constructor
        · exact fun h q hq => h q (mem_insertNew.2 (Or.inl hq))
        · intro h q hq
          rcases mem_insertNew.1 hq with hq | ⟨rfl, -⟩
          · exact h q hq
          · exact hr
      rw [List.find?_cons_of_neg (by simpa using hr), hkeys]
      have hne : ¬ (x = r ∧ ∀ q ∈ rows, key q ≠ key r) := fun h => hr (h.1 ▸ rfl)
      rw [or_iff_left hne]

end IllumioOps.Tables
