import Mathlib.Data.List.Basic

/-!
# Logs whose entries are justified

A log is a list of events in the order they happened. `InOrder J log` is the rule that every event
is justified by the events before it; a log that grows by a justified event keeps to it.
-/

set_option autoImplicit false

namespace IllumioOps.Programs

variable {ε : Type} {J K : List ε → ε → Prop} {log before after : List ε} {e : ε}

/-- Every event is justified by those before it. -/
def InOrder (J : List ε → ε → Prop) (log : List ε) : Prop :=
  ∀ before e after, log = before ++ e :: after → J before e

theorem inOrder_nil (J : List ε → ε → Prop) : InOrder J [] :=
  fun before e after h => absurd h (by simp)

theorem InOrder.snoc (h : InOrder J log) (he : J log e) : InOrder J (log ++ [e]) := by
  intro before e' after hsplit
  rcases List.eq_nil_or_concat after with rfl | ⟨after, last, rfl⟩
  · -- the event that was added
    obtain ⟨hbefore, hlast⟩ := List.append_inj' hsplit rfl
    obtain rfl := List.head_eq_of_cons_eq hlast
    exact hbefore ▸ he
  · -- an event of the log as it was
    have hsplit : log ++ [e] = (before ++ e' :: after) ++ [last] := by simpa using hsplit
    exact h before e' after (List.append_inj' hsplit rfl).1

/-- What a log ends with, it ends with after one more event. -/
theorem suffix_snoc {recent log : List ε} (h : recent <:+ log) (e : ε) :
    recent ++ [e] <:+ log ++ [e] := by
  obtain ⟨earlier, rfl⟩ := h
  exact ⟨earlier, (List.append_assoc _ _ _).symm⟩

/-- A log that is not empty still begins as it did. -/
theorem head?_snoc {first : ε} (h : log.head? = some first) (e : ε) :
    (log ++ [e]).head? = some first := by
  cases log with
  | nil => exact absurd h (by simp)
  | cons first' log => exact h

end IllumioOps.Programs
