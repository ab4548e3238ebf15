import Mathlib.Data.List.Nodup

/-!
# Dictionaries as lists of pairs

A dictionary is the list of its keys and values in the order they were first put; its keys are
distinct. `alter` puts the value of one key from the value the key has, if it has one.
-/

set_option autoImplicit false

namespace IllumioOps.Tables

variable {κ β : Type}

/-- Two values beside one key are equal. -/
theorem value_unique {d : List (κ × β)} (hkeys : (d.map Prod.fst).Nodup) {k : κ} {b b' : β}
    (h : (k, b) ∈ d) (h' : (k, b') ∈ d) : b = b' :=
  congrArg Prod.snd (List.inj_on_of_nodup_map hkeys h h' rfl)

variable [BEq κ]

theorem lookup_cons_eq {k k' : κ} {b : β} {d : List (κ × β)} :
    ((k', b) :: d).lookup k = if k == k' then some b else d.lookup k := by
  rw [List.lookup_cons]
  cases k == k' <;> rfl

theorem lookup_map_snd {γ : Type} (g : β → γ) (d : List (κ × β)) (k : κ) :
    (d.map fun e => (e.1, g e.2)).lookup k = (d.lookup k).map g := by
  induction d with
  | nil => rfl
  | cons e d ih =>
    obtain ⟨k', b⟩ := e
    rw [List.map_cons, lookup_cons_eq, lookup_cons_eq, ih]
    split <;> rfl

variable [LawfulBEq κ]

/-- With distinct keys, what a key is looked up to is what stands beside it. -/
theorem lookup_eq_some_iff_mem {d : List (κ × β)} (hkeys : (d.map Prod.fst).Nodup) {k : κ} {b : β} :
    d.lookup k = some b ↔ (k, b) ∈ d := by
  induction d with
  | nil => simp
  | cons head d ih =>
      obtain ⟨k', b'⟩ := head
      rw [List.map_cons, List.nodup_cons] at hkeys
      rw [lookup_cons_eq, List.mem_cons, Prod.mk.injEq]
      split
      · rename_i heq
        obtain rfl := eq_of_beq heq
        have hnot : (k, b) ∉ d := fun h => hkeys.1 (List.mem_map.2 ⟨_, h, rfl⟩)
        simp only [Option.some.injEq, true_and, hnot, or_false, eq_comm]
      · rename_i hne
        rw [beq_iff_eq] at hne
        rw [ih hkeys.2]
        simp only [hne, false_and, false_or]

/-- `d[k] = f(d.get(k))`: in its place where the key is there, at the end where it is not. -/
def alter (k : κ) (f : Option β → β) : List (κ × β) → List (κ × β)
  | [] => [(k, f none)]
  | (k', b) :: d => if k == k' then (k, f (some b)) :: d else (k', b) :: alter k f d

theorem mem_keys_alter {k k' : κ} {f : Option β → β} {d : List (κ × β)} :
    k' ∈ (alter k f d).map Prod.fst ↔ k' = k ∨ k' ∈ d.map Prod.fst := by
  induction d with
  | nil => simp [alter]
  | cons head d ih =>
      obtain ⟨key, b⟩ := head
      unfold alter
      split
      · rename_i h
        obtain rfl := eq_of_beq h
        simp only [List.map_cons, List.mem_cons]
        tauto
      · simp only [List.map_cons, List.mem_cons, ih]
        tauto

theorem nodup_keys_alter {k : κ} {f : Option β → β} {d : List (κ × β)}
    (hkeys : (d.map Prod.fst).Nodup) : ((alter k f d).map Prod.fst).Nodup := by
  induction d with
  | nil => exact List.nodup_singleton k
  | cons head d ih =>
      obtain ⟨key, b⟩ := head
      rw [List.map_cons, List.nodup_cons] at hkeys
      unfold alter
      split
      · rename_i h
        obtain rfl := eq_of_beq h
        exact List.nodup_cons.2 hkeys
      · rename_i h
        rw [beq_iff_eq] at h
        rw [List.map_cons, List.nodup_cons, mem_keys_alter]
        refine ⟨?_, ih hkeys.2⟩
        rintro (heq | hmem)
        · exact h heq.symm
        · exact hkeys.1 hmem

theorem lookup_alter_self {k : κ} {f : Option β → β} {d : List (κ × β)} :
    (alter k f d).lookup k = some (f (d.lookup k)) := by
  induction d with
  | nil => rw [alter, lookup_cons_eq, if_pos (beq_self_eq_true k), List.lookup_nil]
  | cons head d ih =>
      obtain ⟨key, b⟩ := head
      unfold alter
      by_cases hkey : k == key
      · rw [if_pos hkey, lookup_cons_eq, lookup_cons_eq, if_pos (beq_self_eq_true k), if_pos hkey]
      · rw [if_neg hkey, lookup_cons_eq, lookup_cons_eq, if_neg hkey, if_neg hkey, ih]

/-- Only the value of the key changes. -/
theorem lookup_alter_of_ne {k k' : κ} (h : k' ≠ k) {f : Option β → β} {d : List (κ × β)} :
    (alter k f d).lookup k' = d.lookup k' := by
  have hne : ¬(k' == k) = true := by rwa [beq_iff_eq]
  induction d with
  | nil => rw [alter, lookup_cons_eq, if_neg hne]
  | cons head d ih =>
      obtain ⟨key, b⟩ := head
      unfold alter
      split
      · rename_i hkey
        obtain rfl := eq_of_beq hkey
        rw [lookup_cons_eq, lookup_cons_eq, if_neg hne, if_neg hne]
      · rw [lookup_cons_eq, lookup_cons_eq, ih]

end IllumioOps.Tables
