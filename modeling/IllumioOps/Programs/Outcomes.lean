import Mathlib.Data.List.Basic
import Mathlib.Logic.Basic

/-!
# Computations that may fail

`EndsIn x p` is the judgement that a computation ends, with a value that has a property; which error it
ends with otherwise makes no difference. Its rules follow the constructs (`endsIn_ok`, `endsIn_error`,
`endsIn_bind`, `endsIn_mapM`), each as an equivalence, so that they turn the end of a computation into a
condition on what it reads.
-/

set_option autoImplicit false

namespace IllumioOps.Programs

variable {ε α β : Type} {x : Except ε α} {p q : α → Prop}

/-- The computation ends with a value that has the property. -/
def EndsIn (x : Except ε α) (p : α → Prop) : Prop := ∃ a, x = .ok a ∧ p a

@[simp] theorem endsIn_ok {a : α} : EndsIn (.ok a : Except ε α) p ↔ p a :=
  ⟨fun ⟨_, h, hp⟩ => Except.ok.inj h ▸ hp, fun hp => ⟨a, rfl, hp⟩⟩

@[simp] theorem endsIn_pure {a : α} : EndsIn (pure a : Except ε α) p ↔ p a := endsIn_ok

@[simp] theorem endsIn_error {e : ε} : ¬ EndsIn (.error e : Except ε α) p := by
  rintro ⟨a, h, -⟩
  cases h

/-- What comes next is asked of every value the first part can end with, and it ends with one. -/
@[simp] theorem endsIn_bind {f : α → Except ε β} {p : β → Prop} :
    EndsIn (x >>= f) p ↔ EndsIn x fun a => EndsIn (f a) p := by
  cases x with
  | error e =>
      constructor
      · exact fun h => absurd h endsIn_error
      · exact fun h => absurd h endsIn_error
  | ok a =>
      rw [endsIn_ok]
      rfl

@[simp] theorem endsIn_map {f : α → β} {p : β → Prop} :
    EndsIn (x.map f) p ↔ EndsIn x fun a => p (f a) := by
  cases x with
  | error e =>
      constructor
      · exact fun h => absurd h endsIn_error
      · exact fun h => absurd h endsIn_error
  | ok a =>
      rw [endsIn_ok]
      exact endsIn_ok

/-- How a computation of two parts ended with a value. -/
theorem bind_eq_ok {f : α → Except ε β} {b : β} :
    (x >>= f) = .ok b ↔ ∃ a, x = .ok a ∧ f a = .ok b := by
  have h := endsIn_bind (x := x) (f := f) (p := (· = b))
  constructor
  · intro hb
    obtain ⟨a, ha, c, hc, hcb⟩ := h.mp ⟨b, hb, rfl⟩
    exact ⟨a, ha, hcb ▸ hc⟩
  · rintro ⟨a, ha, hb⟩
    obtain ⟨c, hc, hcb⟩ := h.mpr ⟨a, ha, b, hb, rfl⟩
    exact hcb ▸ hc

theorem EndsIn.mono (h : EndsIn x p) (hpq : ∀ a, x = .ok a → p a → q a) : EndsIn x q := by
  obtain ⟨a, ha, hp⟩ := h
  exact ⟨a, ha, hpq a ha hp⟩

/-- Two properties that agree on the value the computation ends with. -/
theorem endsIn_congr (hpq : ∀ a, x = .ok a → (p a ↔ q a)) : EndsIn x p ↔ EndsIn x q :=
  ⟨fun h => h.mono fun a ha => (hpq a ha).mp, fun h => h.mono fun a ha => (hpq a ha).mpr⟩

/-- A condition that is not about the value. -/
theorem endsIn_and_const {c : Prop} : (EndsIn x fun a => p a ∧ c) ↔ EndsIn x p ∧ c := by
  constructor
  · rintro ⟨a, ha, hp, hc⟩
    exact ⟨⟨a, ha, hp⟩, hc⟩
  · rintro ⟨⟨a, ha, hp⟩, hc⟩
    exact ⟨a, ha, hp, hc⟩

/-- A list is gone through when each of its members is. -/
theorem endsIn_mapM {f : α → Except ε β} {p : β → Prop} (xs : List α) :
    (EndsIn (xs.mapM f) fun ys => ∀ y ∈ ys, p y) ↔ ∀ a ∈ xs, EndsIn (f a) p := by
  induction xs with
  | nil => simp
  | cons a xs ih =>
      have hstep : (EndsIn ((a :: xs).mapM f) fun ys => ∀ y ∈ ys, p y) ↔
          EndsIn (f a) fun b => EndsIn (xs.mapM f) fun ys => p b ∧ ∀ y ∈ ys, p y := by
        simp only [List.mapM_cons, endsIn_bind, endsIn_pure, List.forall_mem_cons]
      rw [hstep, List.forall_mem_cons, ← ih]
      constructor
      · rintro ⟨b, hb, ys, hys, hp, hall⟩
        exact ⟨⟨b, hb, hp⟩, ys, hys, hall⟩
      · rintro ⟨⟨b, hb, hp⟩, ys, hys, hall⟩
        exact ⟨b, hb, ys, hys, hp, hall⟩

end IllumioOps.Programs
