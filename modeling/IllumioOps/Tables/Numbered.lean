import Mathlib.Data.List.Basic

/-!
# Tables with row numbers

A table whose rows are numbered as they are added: the number of a new row is one more than the
largest there is, so the numbers increase and no two rows share one. A row is found and changed by
its number. A row once added is still found after any number of other rows are added or changed.
-/

set_option autoImplicit false

namespace IllumioOps.Tables

variable {α : Type}

/-- Rows in the order they were added, each with its number. -/
structure Numbered (α : Type) where
  rows : List (Nat × α)
  increase : (rows.map Prod.fst).Pairwise (· < ·)

namespace Numbered

theorem increase_nil : (([] : List (Nat × α)).map Prod.fst).Pairwise (· < ·) := List.Pairwise.nil

/-- The table without rows. -/
def empty : Numbered α := ⟨[], increase_nil⟩

/-- The number that the next row gets. -/
def nextId (t : Numbered α) : Nat := (t.rows.map Prod.fst).foldr max 0 + 1

theorem lt_nextId {t : Numbered α} {row : Nat × α} (h : row ∈ t.rows) : row.1 < t.nextId := by
  have hle : ∀ ids : List Nat, row.1 ∈ ids → row.1 ≤ ids.foldr max 0 := by
    intro ids
    induction ids with
    | nil => exact fun hid => absurd hid List.not_mem_nil
    | cons id ids ih =>
        intro hid
        rcases List.mem_cons.1 hid with rfl | hid
        · exact Nat.le_max_left _ _
        · exact Nat.le_trans (ih hid) (Nat.le_max_right _ _)
  exact Nat.lt_succ_of_le (hle _ (List.mem_map_of_mem h))

/-- Adds a row at the end. -/
def add (t : Numbered α) (a : α) : Numbered α where
  rows := t.rows ++ [(t.nextId, a)]
  increase := by
    rw [List.map_append, List.pairwise_append]
    refine ⟨t.increase, List.pairwise_singleton _ _, ?_⟩
    intro id hid next hnext
    obtain ⟨row, hrow, rfl⟩ := List.mem_map.1 hid
    obtain rfl : next = t.nextId := by simpa using hnext
    exact lt_nextId hrow

/-- Changes the row of a number, where there is one. -/
def modify (t : Numbered α) (id : Nat) (f : α → α) : Numbered α where
  rows := t.rows.map fun row => if row.1 = id then (row.1, f row.2) else row
  increase := by
    have hids : (t.rows.map fun row => if row.1 = id then (row.1, f row.2) else row).map Prod.fst =
        t.rows.map Prod.fst := by
      rw [List.map_map]
      apply List.map_congr_left
      intro row _
      dsimp only [Function.comp]
      split <;> rfl
    rw [hids]
    exact t.increase

/-- The row of a number. -/
def find? (t : Numbered α) (id : Nat) : Option α :=
  (t.rows.find? fun row => row.1 = id).map Prod.snd

variable {t : Numbered α} {id : Nat} {a : α}

/-- A row that is there is still found when another is added. -/
theorem find?_add_of_some (h : t.find? id = some a) (b : α) : (t.add b).find? id = some a := by
  obtain ⟨row, hrow, rfl⟩ := Option.map_eq_some_iff.1 h
  unfold find? add
  rw [List.find?_append, hrow]
  rfl

theorem find?_add_nextId (t : Numbered α) (b : α) : (t.add b).find? t.nextId = some b := by
  have hnone : t.rows.find? (fun row => row.1 = t.nextId) = none := by
    rw [List.find?_eq_none]
    intro row hrow
    have hlt := lt_nextId hrow
    simp only [decide_eq_true_eq]
    omega
  unfold find? add
  rw [List.find?_append, hnone]
  simp

/-- The rows that a change meets, by their numbers. -/
theorem find?_map_rows (rows : List (Nat × α)) (id changed : Nat) (f : α → α) :
    ((rows.map fun row => if row.1 = changed then (row.1, f row.2) else row).find?
        fun row => row.1 = id).map Prod.snd =
      ((rows.find? fun row => row.1 = id).map Prod.snd).map
        fun b => if id = changed then f b else b := by
  induction rows with
  | nil => rfl
  | cons row rows ih =>
      rw [List.map_cons, List.find?_cons, List.find?_cons]
      have hnumber : (if row.1 = changed then (row.1, f row.2) else row).1 = row.1 := by
        split <;> rfl
      rw [hnumber]
      by_cases hid : row.1 = id
      · subst hid
        simp only [decide_true, Option.map_some]
        split <;> rfl
      · simp only [hid, decide_false]
        exact ih

theorem find?_modify (t : Numbered α) (id changed : Nat) (f : α → α) :
    (t.modify changed f).find? id =
      (t.find? id).map fun b => if id = changed then f b else b :=
  find?_map_rows t.rows id changed f

theorem find?_modify_self (h : t.find? id = some a) (f : α → α) :
    (t.modify id f).find? id = some (f a) := by
  rw [find?_modify, h, Option.map_some, if_pos rfl]

theorem find?_modify_of_ne (h : t.find? id = some a) {changed : Nat} (hne : id ≠ changed)
    (f : α → α) : (t.modify changed f).find? id = some a := by
  rw [find?_modify, h, Option.map_some, if_neg hne]

end Numbered

end IllumioOps.Tables
