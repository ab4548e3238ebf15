import Mathlib.Data.List.Basic

/-!
# Pairs joined into one text

Keys and values joined as `key eq value`, and such pairs joined by a separator. The text says which pairs
it was made of as long as no key holds the sign between a key and its value, and no value holds the
separator (`joinPairs_inj`); a key may hold the separator, and a value the sign.
-/

set_option autoImplicit false

namespace IllumioOps.Text

variable {α : Type}

/-- The pairs, each as `key eq value`, with the separator between them. -/
def joinPairs (eq sep : α) : List (List α × List α) → List α
  | [] => []
  | [p] => p.1 ++ eq :: p.2
  | p :: q :: ps => p.1 ++ eq :: (p.2 ++ sep :: joinPairs eq sep (q :: ps))

theorem joinPairs_eq_intercalate (eq sep : α) (ps : List (List α × List α)) :
    joinPairs eq sep ps = [sep].intercalate (ps.map fun p => p.1 ++ eq :: p.2) := by
  induction ps with
  | nil => rfl
  | cons p ps ih =>
      cases ps with
      | nil => simp [joinPairs]
      | cons q ps =>
          rw [joinPairs, ih, List.map_cons, List.map_cons, List.map_cons, List.intercalate_cons_cons]
          simp

/-- What stands before the first occurrence of a sign, and what stands after it. -/
theorem append_cons_inj {c : α} {a a' b b' : List α} (ha : c ∉ a) (ha' : c ∉ a')
    (h : a ++ c :: b = a' ++ c :: b') : a = a' ∧ b = b' := by
  induction a generalizing a' with
  | nil =>
      cases a' with
      | nil => exact ⟨rfl, (List.cons.inj h).2⟩
      | cons x a' =>
          obtain ⟨rfl, -⟩ := List.cons.inj h
          exact absurd List.mem_cons_self ha'
  | cons x a ih =>
      cases a' with
      | nil =>
          obtain ⟨rfl, -⟩ := List.cons.inj h
          exact absurd List.mem_cons_self ha
      | cons y a' =>
          obtain ⟨rfl, htail⟩ := List.cons.inj h
          obtain ⟨rfl, rfl⟩ := ih (List.not_mem_of_not_mem_cons ha)
            (List.not_mem_of_not_mem_cons ha') htail
          exact ⟨rfl, rfl⟩

/-- By induction on the pairs: the key ends at the first sign, and the value at the first separator after
it. -/
theorem joinPairs_inj {eq sep : α} {ps qs : List (List α × List α)}
    (hkeys : ∀ p ∈ ps ++ qs, eq ∉ p.1) (hvalues : ∀ p ∈ ps ++ qs, sep ∉ p.2)
    (h : joinPairs eq sep ps = joinPairs eq sep qs) : ps = qs := by
  induction ps generalizing qs with
  | nil =>
      cases qs with
      | nil => rfl
      | cons q qs => cases qs <;> simp [joinPairs] at h
  | cons p ps ih =>
      cases qs with
      | nil => cases ps <;> simp [joinPairs] at h
      | cons q qs =>
          have hp : eq ∉ p.1 ∧ sep ∉ p.2 := ⟨hkeys p (by simp), hvalues p (by simp)⟩
          have hq : eq ∉ q.1 ∧ sep ∉ q.2 := ⟨hkeys q (by simp), hvalues q (by simp)⟩
          have hpair : p.1 = q.1 → p.2 = q.2 → p = q := fun h₁ h₂ => Prod.ext h₁ h₂
          cases ps with
          | nil =>
              cases qs with
              | nil =>
                  obtain ⟨hkey, hvalue⟩ := append_cons_inj hp.1 hq.1 h
                  rw [hpair hkey hvalue]
              | cons q' qs =>
                  -- the value of the one pair would hold the separator
                  obtain ⟨-, hvalue⟩ := append_cons_inj hp.1 hq.1 h
                  exact absurd (hvalue ▸ List.mem_append_right _ List.mem_cons_self) hp.2
          | cons p' ps =>
              cases qs with
              | nil =>
                  obtain ⟨-, hvalue⟩ := append_cons_inj hp.1 hq.1 h
                  exact absurd (hvalue ▸ List.mem_append_right _ List.mem_cons_self) hq.2
              | cons q' qs =>
                  obtain ⟨hkey, hrest⟩ := append_cons_inj hp.1 hq.1 h
                  obtain ⟨hvalue, hrest⟩ := append_cons_inj hp.2 hq.2 hrest
                  have hin : ∀ r ∈ (p' :: ps) ++ (q' :: qs), r ∈ (p :: p' :: ps) ++ (q :: q' :: qs) := by
                    intro r hr
                    rcases List.mem_append.mp hr with hr | hr
                    · exact List.mem_append_left _ (List.mem_cons_of_mem p hr)
                    · exact List.mem_append_right _ (List.mem_cons_of_mem q hr)
                  rw [hpair hkey hvalue, ih (fun r hr => hkeys r (hin r hr))
                    (fun r hr => hvalues r (hin r hr)) hrest]

end IllumioOps.Text
