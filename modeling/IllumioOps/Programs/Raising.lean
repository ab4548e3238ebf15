import IllumioOps.Programs.Interrupted

/-!
# Programs that raise

A program that can be stopped at any step and whose result is a value or an error; an error ends what
follows it unless it is caught. `Raising.Safe` is the judgement of `Program.Safe` with a postcondition for
each of the two ends. Its rules follow the constructs.
-/

set_option autoImplicit false

namespace IllumioOps.Programs

variable {σ A ε α β : Type}

/-- A program that ends with a value or raises. -/
abbrev Raising (σ A ε α : Type) : Type := ExceptT ε (Program σ A) α

namespace Raising

/-- One step. -/
def act (f : σ → A → σ × α) : Raising σ A ε α := ExceptT.lift (Program.act f)

/-- The end that a computed value or error stands for. -/
def ofExcept (x : Except ε α) : Raising σ A ε α := ExceptT.mk (pure x)

/-- `try`: what it ends with, an error included, is handed on. -/
def caught (m : Raising σ A ε α) : Raising σ A ε (Except ε α) :=
  ExceptT.lift (ExceptT.run m)

/-- What an error makes of a round of a loop: it ends the loop. -/
def turn : Except ε (β ⊕ α) → β ⊕ Except ε α
  | .ok (.inl next) => .inl next
  | .ok (.inr a) => .inr (.ok a)
  | .error e => .inr (.error e)

/-- A loop whose rounds each take an answer. -/
def loop (body : β → Raising σ A ε (β ⊕ α)) (b : β) : Raising σ A ε α :=
  ExceptT.mk (Program.loop (fun b => ExceptT.run (body b) >>= fun r => pure (turn r)) b)

/-! ## The judgement -/

/-- What holds at the end, whichever it is. -/
def ending (Q : α → σ → Prop) (E : ε → σ → Prop) : Except ε α → σ → Prop
  | .ok a => Q a
  | .error e => E e

/-- From a state where `P` holds and allowed answers, every step keeps `R` between the state before and
after it, a value is returned in a state where `Q` holds of both, and an error raised where `E` does. -/
def Safe (ok : A → Prop) (R : σ → σ → Prop) (P : σ → Prop) (m : Raising σ A ε α) (Q : α → σ → Prop)
    (E : ε → σ → Prop) : Prop :=
  Program.Safe ok R P (ExceptT.run m) (ending Q E)

variable {ok : A → Prop} {R : σ → σ → Prop} {P P' : σ → Prop} {Q Q' : α → σ → Prop}
  {E E' : ε → σ → Prop} {S : β → σ → Prop}

theorem safe_ofExcept {x : Except ε α} (h : ∀ s, P s → ending Q E x s) :
    Safe ok R P (ofExcept x) Q E := Program.safe_pure h

theorem safe_pure {a : α} (h : ∀ s, P s → Q a s) :
    Safe ok R P (pure a : Raising σ A ε α) Q E := Program.safe_pure h

theorem safe_throw {e : ε} (h : ∀ s, P s → E e s) :
    Safe ok R P (throw e : Raising σ A ε α) Q E := Program.safe_pure h

theorem safe_act {f : σ → A → σ × α}
    (h : ∀ s a, ok a → P s → R s (f s a).1 ∧ Q (f s a).2 (f s a).1) :
    Safe ok R P (act f : Raising σ A ε α) Q E :=
  Program.safe_bind (Program.safe_act h) fun _ => Program.safe_pure fun _ hs => hs

theorem safe_bind {m : Raising σ A ε α} {f : α → Raising σ A ε β} (hm : Safe ok R P m Q E)
    (hf : ∀ a, Safe ok R (Q a) (f a) S E) : Safe ok R P (m >>= f) S E := by
  refine Program.safe_bind hm fun r => ?_
  cases r with
  | ok a => exact hf a
  | error e => exact Program.safe_pure fun _ hs => hs

theorem safe_caught {m : Raising σ A ε α} (hm : Safe ok R P m Q E) :
    Safe ok R P (caught m) (ending Q E) E' :=
  Program.safe_bind hm fun _ => Program.safe_pure fun _ hs => hs

theorem safe_weaken {m : Raising σ A ε α} (hm : Safe ok R P m Q E) (hP : ∀ s, P' s → P s)
    (hQ : ∀ a s, Q a s → Q' a s) (hE : ∀ e s, E e s → E' e s) : Safe ok R P' m Q' E' := by
  refine Program.safe_weaken hm hP fun r s hs => ?_
  cases r with
  | ok a => exact hQ a s hs
  | error e => exact hE e s hs

/-- A fact that does not depend on the state is taken out of what holds at the start. -/
theorem safe_fact {m : Raising σ A ε α} {c : Prop} (hc : ∀ s, P s → c) (hm : c → Safe ok R P m Q E) :
    Safe ok R P m Q E := Program.safe_fact hc hm

/-- What holds at the start for some value is taken out as that value. -/
theorem safe_some {ι : Type} {P : ι → σ → Prop} {m : Raising σ A ε α}
    (hm : ∀ i, Safe ok R (P i) m Q E) : Safe ok R (fun s => ∃ i, P i s) m Q E :=
  fun s answers hok ⟨i, hs⟩ => hm i s answers hok hs

theorem safe_ite {c : Prop} [Decidable c] {m m' : Raising σ A ε α} (hm : c → Safe ok R P m Q E)
    (hm' : ¬ c → Safe ok R P m' Q E) : Safe ok R P (if c then m else m') Q E := by
  split
  · exact hm ‹_›
  · exact hm' ‹_›

/-- The loop rule: `I` is the invariant of the rounds. -/
theorem safe_loop {body : β → Raising σ A ε (β ⊕ α)} {I : β → σ → Prop}
    (hbody : ∀ b, Safe ok R (I b) (body b) (fun r s =>
      match r with
      | .inl next => I next s
      | .inr a => Q a s) E) (b : β) : Safe ok R (I b) (loop body b) Q E := by
  refine Program.safe_loop (fun b => Program.safe_bind (hbody b) fun r => ?_) b
  rcases r with e | (next | a)
  · exact Program.safe_pure fun _ hs => hs
  · exact Program.safe_pure fun _ hs => hs
  · exact Program.safe_pure fun _ hs => hs

end Raising

end IllumioOps.Programs
