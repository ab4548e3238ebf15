import Mathlib.Order.Lattice

/-!
# Tilings

A list of windows tiles a range when the first starts where the range starts, each of the others starts
where the one before it ends, the last ends where the range ends, and none is empty.
-/

set_option autoImplicit false

namespace IllumioOps.Ranges

variable {α : Type} [LinearOrder α] {a b c : α} {ws vs : List (α × α)}

inductive Tiles : α → α → List (α × α) → Prop
  | last {a b : α} (h : a < b) : Tiles a b [(a, b)]
  | cons {a b c : α} {ws : List (α × α)} (h : a < b) (hrest : Tiles b c ws) :
      Tiles a c ((a, b) :: ws)

namespace Tiles

theorem lt (h : Tiles a b ws) : a < b := by
  induction h with
  | last h => exact h
  | cons h _ ih => exact lt_trans h ih

/-- Two ranges that touch are tiled together. -/
theorem append (h : Tiles a b ws) (h' : Tiles b c vs) : Tiles a c (ws ++ vs) := by
  induction h with
  | last hab => exact Tiles.cons hab h'
  | cons hab _ ih => exact Tiles.cons hab (ih h')

/-- Every point of the range lies in a window, its ends included. -/
theorem exists_mem (h : Tiles a b ws) {x : α} (ha : a ≤ x) (hb : x ≤ b) :
    ∃ w ∈ ws, w.1 ≤ x ∧ x ≤ w.2 := by
  induction h with
  | last _ => exact ⟨_, List.mem_singleton_self _, ha, hb⟩
  | @cons a m c ws _ _ ih =>
    rcases le_total x m with hx | hx
    · exact ⟨_, List.mem_cons_self, ha, hx⟩
    · obtain ⟨w, hw, hin⟩ := ih hx hb
      exact ⟨w, List.mem_cons_of_mem _ hw, hin⟩

/-- No window is empty, and none reaches past the range. -/
theorem bounds (h : Tiles a b ws) {w : α × α} (hw : w ∈ ws) : a ≤ w.1 ∧ w.1 < w.2 ∧ w.2 ≤ b := by
  induction h with
  | last hab =>
    obtain rfl := List.mem_singleton.1 hw
    exact ⟨le_rfl, hab, le_rfl⟩
  | cons hab hrest ih =>
    rcases List.mem_cons.1 hw with rfl | hw
    · exact ⟨le_rfl, hab, le_of_lt hrest.lt⟩
    · obtain ⟨h1, h2, h3⟩ := ih hw
      exact ⟨le_trans (le_of_lt hab) h1, h2, h3⟩

end Tiles

end IllumioOps.Ranges
