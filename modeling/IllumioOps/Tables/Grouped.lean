import IllumioOps.Tables.Keyed

/-!
# Rows put together by a key

`d.setdefault(key(r), []).append(r)` for each row: a dictionary with the rows of each key, in their
order. What it holds under a key is the rows of that key, and nothing where there are none
(`lookup_grouped`).
-/

set_option autoImplicit false

namespace IllumioOps.Tables

variable {α κ β : Type} [DecidableEq κ]

/-- The rows by their key. -/
def grouped (key : α → κ) (rows : List α) : List (κ × List α) :=
  rows.foldl (fun d r => alter (key r) (fun old => old.getD [] ++ [r]) d) []

variable {key : α → κ} {k : κ}

theorem lookup_foldl_grouped (rows : List α) (d : List (κ × List α)) :
    (rows.foldl (fun d r => alter (key r) (fun old => old.getD [] ++ [r]) d) d).lookup k =
      if rows.filter (fun r => decide (key r = k)) = [] then d.lookup k
      else some ((d.lookup k).getD [] ++ rows.filter fun r => decide (key r = k)) := by
  induction rows generalizing d with
  | nil => rfl
  | cons r rows ih =>
    rw [List.foldl_cons, ih]
    by_cases hr : key r = k
    · subst hr
      rw [lookup_alter_self]
      by_cases hnil : rows.filter (fun q => decide (key q = key r)) = [] <;> simp [hnil]
    · rw [lookup_alter_of_ne fun h => hr h.symm]
      simp [hr]

theorem lookup_grouped (rows : List α) :
    (grouped key rows).lookup k =
      if rows.filter (fun r => decide (key r = k)) = [] then none
      else some (rows.filter fun r => decide (key r = k)) := by
  rw [grouped, lookup_foldl_grouped]
  simp

theorem nodup_keys_grouped (rows : List α) : ((grouped key rows).map Prod.fst).Nodup := by
  have h : ∀ d : List (κ × List α), (d.map Prod.fst).Nodup →
      ((rows.foldl (fun d r => alter (key r) (fun old => old.getD [] ++ [r]) d) d).map
        Prod.fst).Nodup := by
    induction rows with
    | nil => exact fun _ h => h
    | cons r rows ih => exact fun d hd => ih _ (nodup_keys_alter hd)
  exact h [] List.nodup_nil

/-- A group is the rows of its key, and there is at least one. -/
theorem mem_grouped {rows group : List α} :
    (k, group) ∈ grouped key rows ↔ group ≠ [] ∧ group = rows.filter fun r => decide (key r = k) := by
  rw [← lookup_eq_some_iff_mem (nodup_keys_grouped rows), lookup_grouped]
  split
  · rename_i hnil
    rw [hnil]
    constructor
    · exact fun h => absurd h (by simp)
    · exact fun h => absurd h.2 h.1
  · rename_i hsome
    constructor
    · intro h
      obtain rfl := Option.some.inj h
      exact ⟨hsome, rfl⟩
    · rintro ⟨-, rfl⟩
      rfl

end IllumioOps.Tables
