import IllumioOps.Programs.Interrupted

/-!
# Programs and the steps they took

`Program.steps` puts the answers a run took beside the states before and after each of them, so that a
condition can speak of both. `Program.Along` is the judgement about the runs whose steps all meet a
condition: every step keeps a promise, which may speak of all the states gone through so far, the newest
first. Its rules follow the constructs, as those of `Program.Safe` do.
-/

set_option autoImplicit false

namespace IllumioOps.Programs.Program

variable {σ A α β : Type}

/-! ## Steps -/

/-- The steps of a run: the state before, the answer taken and the state after. -/
def steps : σ → List A → List σ → List (σ × A × σ)
  | s, a :: answers, t :: visited => (s, a, t) :: steps t answers visited
  | _, _, _ => []

@[simp] theorem steps_nil (s : σ) (answers : List A) : steps s answers [] = [] := by
  cases answers <;> rfl

theorem steps_append {s : σ} {answers : List A} {v w : List σ} (h : v.length ≤ answers.length) :
    steps s answers (v ++ w) =
      steps s answers v ++ steps (lastState s v) (answers.drop v.length) w := by
  induction v generalizing s answers with
  | nil => rw [steps_nil, List.nil_append, List.nil_append, List.length_nil, List.drop_zero,
      lastState_nil]
  | cons t v ih =>
      cases answers with
      | nil => exact absurd h (by simp)
      | cons a answers =>
          have hrest := ih (s := t) (Nat.le_of_succ_le_succ (m := answers.length) h)
          simp only [List.cons_append, steps, hrest, lastState_cons, List.length_cons,
            List.drop_succ_cons]

theorem mem_steps_append {s : σ} {answers : List A} {v : List σ} (w : List σ) {x : σ × A × σ}
    (h : x ∈ steps s answers v) : x ∈ steps s answers (v ++ w) := by
  induction v generalizing s answers with
  | nil =>
      rw [steps_nil] at h
      exact absurd h List.not_mem_nil
  | cons t v ih =>
      cases answers with
      | nil => exact absurd h List.not_mem_nil
      | cons a answers =>
          rcases List.mem_cons.mp h with rfl | h
          · exact List.mem_cons_self
          · exact List.mem_cons_of_mem _ (ih h)

/-- The answer of a step is one of those the run was given. -/
theorem answer_mem_of_mem_steps {s : σ} {answers : List A} {v : List σ} {x : σ × A × σ}
    (h : x ∈ steps s answers v) : x.2.1 ∈ answers := by
  induction v generalizing s answers with
  | nil =>
      rw [steps_nil] at h
      exact absurd h List.not_mem_nil
  | cons t v ih =>
      cases answers with
      | nil => exact absurd h List.not_mem_nil
      | cons a answers =>
          rcases List.mem_cons.mp h with rfl | h
          · exact List.mem_cons_self
          · exact List.mem_cons_of_mem _ (ih h)

/-! ## Promises -/

/-- Every state gone through keeps a promise about those before it, the newest first. -/
def Promised (R : List σ → σ → Prop) : List σ → List σ → Prop
  | _, [] => True
  | past, t :: visited => R past t ∧ Promised R (t :: past) visited

theorem promised_append {R : List σ → σ → Prop} {past v w : List σ} (hv : Promised R past v)
    (hw : Promised R (v.reverse ++ past) w) : Promised R past (v ++ w) := by
  induction v generalizing past with
  | nil => exact hw
  | cons t v ih =>
      refine ⟨hv.1, ih hv.2 ?_⟩
      rwa [List.reverse_cons, List.append_assoc] at hw

theorem Promised.of_split {R : List σ → σ → Prop} {past before after : List σ} {t : σ}
    (h : Promised R past (before ++ t :: after)) : R (before.reverse ++ past) t := by
  induction before generalizing past with
  | nil => exact h.1
  | cons s before ih =>
      have ht := ih h.2
      rwa [List.reverse_cons, List.append_assoc]

theorem lastState_eq_head (s : σ) (v past : List σ) :
    ∃ older, v.reverse ++ s :: past = lastState s v :: older := by
  induction v generalizing s past with
  | nil => exact ⟨past, rfl⟩
  | cons t v ih =>
      obtain ⟨older, h⟩ := ih t (s :: past)
      refine ⟨older, ?_⟩
      rw [List.reverse_cons, List.append_assoc, lastState_cons, ← h]
      rfl

/-! ## The judgement -/

/-- From a past where `P` holds, a run whose steps all meet `C` keeps the promise `R` at every step, and
a result is returned in a past where `Q` holds of both. -/
def Along (C : σ → A → σ → Prop) (R : List σ → σ → Prop) (P : List σ → Prop) (m : Program σ A α)
    (Q : α → List σ → Prop) : Prop :=
  ∀ s past answers, P (s :: past) →
    (∀ x ∈ steps s answers (m s answers).1, C x.1 x.2.1 x.2.2) →
    Promised R (s :: past) (m s answers).1 ∧
      ∀ r rest, (m s answers).2 = some (r, rest) →
        ((m s answers).1.length ≤ answers.length ∧ rest = answers.drop (m s answers).1.length) ∧
          Q r ((m s answers).1.reverse ++ s :: past)

variable {C : σ → A → σ → Prop} {R : List σ → σ → Prop} {P P' : List σ → Prop}
  {Q Q' : α → List σ → Prop} {S : β → List σ → Prop}

theorem along_done {a : α} (h : ∀ past, P past → Q a past) : Along C R P (done a) Q := by
  intro s past answers hP _
  refine ⟨trivial, ?_⟩
  intro r rest hr
  obtain ⟨rfl, rfl⟩ := Prod.mk.inj (Option.some.inj hr)
  exact ⟨⟨Nat.zero_le _, rfl⟩, h _ hP⟩

theorem along_pure {a : α} (h : ∀ past, P past → Q a past) :
    Along C R P (pure a : Program σ A α) Q := along_done h

theorem along_stop : Along C R P (stop : Program σ A α) Q :=
  fun _ _ _ _ _ => ⟨trivial, fun r rest hr => absurd hr (by simp [stop])⟩

theorem along_act {f : σ → A → σ × α}
    (h : ∀ s past a, P (s :: past) → C s a (f s a).1 →
      R (s :: past) (f s a).1 ∧ Q (f s a).2 ((f s a).1 :: s :: past)) :
    Along C R P (act f) Q := by
  intro s past answers hP hC
  cases answers with
  | nil => exact ⟨trivial, fun r rest hr => absurd hr (by simp [act])⟩
  | cons a answers =>
      obtain ⟨hR, hQ⟩ := h s past a hP (hC (s, a, (f s a).1) List.mem_cons_self)
      refine ⟨⟨hR, trivial⟩, ?_⟩
      intro r rest hr
      obtain ⟨rfl, rfl⟩ := Prod.mk.inj (Option.some.inj hr)
      exact ⟨⟨Nat.succ_le_succ (Nat.zero_le _), rfl⟩, hQ⟩

theorem along_andThen {m : Program σ A α} {f : α → Program σ A β} (hm : Along C R P m Q)
    (hf : ∀ r, Along C R (Q r) (f r) S) : Along C R P (andThen m f) S := by
  intro s past answers hP hC
  have hfirst := hm s past answers hP
  unfold andThen at hC ⊢
  rcases hrun : m s answers with ⟨visited, _ | ⟨r, rest⟩⟩
  · rw [hrun] at hfirst hC
    exact ⟨(hfirst hC).1, fun r rest hr => absurd hr (by simp)⟩
  · rw [hrun] at hfirst hC
    simp only at hfirst hC ⊢
    obtain ⟨hpromised, hresult⟩ := hfirst fun x hx => hC x (mem_steps_append _ hx)
    obtain ⟨⟨hlength, rfl⟩, hQ⟩ := hresult r rest rfl
    -- the answers the first part leaves are those behind its steps
    rw [steps_append hlength] at hC
    obtain ⟨older, hpast⟩ := lastState_eq_head s visited past
    rw [hpast] at hQ
    obtain ⟨hnext, hend⟩ := hf r (lastState s visited) older (answers.drop visited.length) hQ
      fun x hx => hC x (List.mem_append_right _ hx)
    rw [← hpast] at hnext hend
    refine ⟨promised_append hpromised hnext, ?_⟩
    intro r' rest' hr'
    obtain ⟨⟨hle, hrest⟩, hS⟩ := hend r' rest' hr'
    rw [List.length_drop] at hle
    rw [List.drop_drop] at hrest
    refine ⟨⟨?_, ?_⟩, ?_⟩
    · rw [List.length_append]
      omega
    · rw [List.length_append, hrest]
    · rw [List.reverse_append, List.append_assoc]
      exact hS

theorem along_bind {m : Program σ A α} {f : α → Program σ A β} (hm : Along C R P m Q)
    (hf : ∀ r, Along C R (Q r) (f r) S) : Along C R P (m >>= f) S := along_andThen hm hf

theorem along_weaken {m : Program σ A α} (hm : Along C R P m Q) (hP : ∀ past, P' past → P past)
    (hQ : ∀ r past, Q r past → Q' r past) : Along C R P' m Q' := by
  intro s past answers hs hC
  obtain ⟨hpromised, hresult⟩ := hm s past answers (hP _ hs) hC
  refine ⟨hpromised, ?_⟩
  intro r rest hr
  obtain ⟨hrest, hq⟩ := hresult r rest hr
  exact ⟨hrest, hQ r _ hq⟩

/-- A fact that does not depend on the past is taken out of what holds at the start. -/
theorem along_fact {m : Program σ A α} {c : Prop} (hc : ∀ past, P past → c)
    (hm : c → Along C R P m Q) : Along C R P m Q := fun s past answers hs =>
  hm (hc _ hs) s past answers hs

/-- The loop rule: `I` is the invariant of the rounds. -/
theorem along_loop {body : β → Program σ A (β ⊕ α)} {I : β → List σ → Prop}
    (hbody : ∀ b, Along C R (I b) (body b) fun r past =>
      match r with
      | .inl next => I next past
      | .inr a => Q a past) (b : β) : Along C R (I b) (loop body b) Q := by
  have hiterate : ∀ n b, Along C R (I b) (iterate body n b) Q := by
    intro n
    induction n with
    | zero =>
        intro b s past answers _ _
        exact ⟨trivial, fun r rest hr => absurd hr (by simp [iterate])⟩
    | succ n ih =>
        intro b
        refine along_andThen (hbody b) ?_
        rintro (next | a)
        · exact ih next
        · exact along_done fun past h => h
  intro s past answers hI
  exact hiterate _ b s past answers hI

end IllumioOps.Programs.Program
