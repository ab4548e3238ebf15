import Mathlib.Data.List.Basic

/-!
# Attempts

A computation that changes a state and may fail half-way; what it changed before it failed stays changed.
`Leads P m Q E` is the judgement about it: from a state with `P` it ends well with `Q` or fails with `E`.
Its rules follow the constructs.
-/

set_option autoImplicit false

namespace IllumioOps.Programs

variable {σ ε α β : Type}

/-- From a state: a result or an error, and the state it leaves. -/
def Attempt (σ ε α : Type) : Type := σ → Except ε α × σ

namespace Attempt

/-- One attempt after another; the second is not made when the first fails. -/
def andThen (m : Attempt σ ε α) (f : α → Attempt σ ε β) : Attempt σ ε β := fun s =>
  match m s with
  | (.ok a, t) => f a t
  | (.error e, t) => (.error e, t)

instance : Monad (Attempt σ ε) where
  pure a := fun s => (.ok a, s)
  bind := andThen

def fail (e : ε) : Attempt σ ε α := fun s => (.error e, s)

def change (f : σ → σ) : Attempt σ ε Unit := fun s => (.ok (), f s)

def onlyIf (c : Bool) (m : Attempt σ ε Unit) : Attempt σ ε Unit := if c then m else pure ()

/-! ## The judgement -/

/-- From a state where `P` holds, a result comes with a state where `Q` holds of both, and an error with
one where `E` does. -/
def Leads (P : σ → Prop) (m : Attempt σ ε α) (Q : α → σ → Prop) (E : ε → σ → Prop) : Prop :=
  ∀ s, P s → (∀ a t, m s = (.ok a, t) → Q a t) ∧ ∀ e t, m s = (.error e, t) → E e t

variable {P P' : σ → Prop} {Q Q' : α → σ → Prop} {E E' : ε → σ → Prop} {S : β → σ → Prop}

theorem leads_pure {a : α} (h : ∀ s, P s → Q a s) : Leads P (pure a : Attempt σ ε α) Q E := by
  intro s hs
  refine ⟨fun b t hb => ?_, fun e t he => ?_⟩
  · obtain ⟨hvalue, rfl⟩ := Prod.mk.inj hb
    obtain rfl := Except.ok.inj hvalue
    exact h s hs
  · exact absurd (Prod.mk.inj he).1 (by simp)

theorem leads_fail {e : ε} (h : ∀ s, P s → E e s) : Leads P (fail e : Attempt σ ε α) Q E := by
  intro s hs
  refine ⟨fun b t hb => ?_, fun e' t he => ?_⟩
  · exact absurd (Prod.mk.inj hb).1 (by simp)
  · obtain ⟨herror, rfl⟩ := Prod.mk.inj he
    obtain rfl := Except.error.inj herror
    exact h s hs

theorem leads_change {f : σ → σ} {Q : Unit → σ → Prop} (h : ∀ s, P s → Q () (f s)) :
    Leads P (change f : Attempt σ ε Unit) Q E := by
  intro s hs
  refine ⟨fun b t hb => ?_, fun e t he => ?_⟩
  · obtain ⟨-, rfl⟩ := Prod.mk.inj hb
    exact h s hs
  · exact absurd (Prod.mk.inj he).1 (by simp)

theorem leads_bind {m : Attempt σ ε α} {f : α → Attempt σ ε β} (hm : Leads P m Q E)
    (hf : ∀ a, Leads (Q a) (f a) S E) : Leads P (m >>= f) S E := by
  intro s hs
  obtain ⟨hok, herror⟩ := hm s hs
  have hbind : (m >>= f) s = match m s with
      | (.ok a, t) => f a t
      | (.error e, t) => (.error e, t) := rfl
  rw [hbind]
  rcases hrun : m s with ⟨e | a, t⟩
  · refine ⟨fun b u hb => ?_, fun e' u he => ?_⟩
    · exact absurd (Prod.mk.inj hb).1 (by simp)
    · obtain ⟨hsame, rfl⟩ := Prod.mk.inj he
      obtain rfl := Except.error.inj hsame
      exact herror e t hrun
  · exact hf a t (hok a t hrun)

/-- What is known before a part is known in it. -/
theorem leads_fact {m : Attempt σ ε α} {c : Prop} (hc : ∀ s, P s → c) (hm : c → Leads P m Q E) :
    Leads P m Q E := fun s hs => hm (hc s hs) s hs

theorem leads_weaken {m : Attempt σ ε α} (hm : Leads P m Q E) (hP : ∀ s, P' s → P s)
    (hQ : ∀ a s, Q a s → Q' a s) (hE : ∀ e s, E e s → E' e s) : Leads P' m Q' E' := by
  intro s hs
  obtain ⟨hok, herror⟩ := hm s (hP s hs)
  exact ⟨fun a t ha => hQ a t (hok a t ha), fun e t he => hE e t (herror e t he)⟩

theorem leads_ite {c : Prop} [Decidable c] {m m' : Attempt σ ε α} (hm : c → Leads P m Q E)
    (hm' : ¬ c → Leads P m' Q E) : Leads P (if c then m else m') Q E := by
  split
  · exact hm ‹_›
  · exact hm' ‹_›

theorem leads_onlyIf {c : Bool} {m : Attempt σ ε Unit} {Q : Unit → σ → Prop}
    (hm : c = true → Leads P m Q E) (hskip : c = false → ∀ s, P s → Q () s) :
    Leads P (onlyIf c m) Q E := by
  cases c with
  | true => exact hm rfl
  | false => exact leads_pure (hskip rfl)

end Attempt

end IllumioOps.Programs
