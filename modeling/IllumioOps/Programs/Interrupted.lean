import Mathlib.Data.List.Chain
import Mathlib.Data.List.Basic

/-!
# Programs that can be stopped at any step

A program takes one answer of its surroundings at every step and changes a lasting state. The
answers are a list: where they end, the program is stopped and the state stays as it is. A run
is the list of the states it goes through (`Program`), so what is said of every run and every
list of answers holds at every point where a crash can leave the state.

`Program.Safe` is the judgement about a program: every step from an allowed answer keeps a
relation between the state before and after it, and the result is as promised. Its rules follow
the constructs (`safe_pure`, `safe_bind`, `safe_act`, `safe_loop`); `chain_runs` carries it over
any sequence of programs, each stopped anywhere. `Program.Returns` is about a program that is not
stopped and gets one and the same answer at every step; `Program.EndsBy` about one that ends
whatever the answers are.
-/

set_option autoImplicit false

namespace IllumioOps.Programs

variable {σ A α β : Type}

/-- From a state and answers: the states gone through, and, unless the answers ended
before, the result with the answers left. -/
def Program (σ A α : Type) : Type := σ → List A → List σ × Option (α × List A)

/-- The state after a run from `s`. -/
def lastState : σ → List σ → σ
  | s, [] => s
  | _, t :: visited => lastState t visited

@[simp] theorem lastState_nil (s : σ) : lastState s [] = s := rfl

@[simp] theorem lastState_cons (s t : σ) (v : List σ) :
    lastState s (t :: v) = lastState t v := rfl

theorem lastState_append (s : σ) (v w : List σ) :
    lastState s (v ++ w) = lastState (lastState s v) w := by
  induction v generalizing s with
  | nil => rfl
  | cons t v ih => exact ih t

theorem lastState_mem (s : σ) (v : List σ) : lastState s v ∈ s :: v := by
  induction v generalizing s with
  | nil => exact List.mem_singleton.2 rfl
  | cons t v ih => exact List.mem_cons_of_mem s (ih t)

namespace Program

/-- A program with nothing left to do. -/
def done (a : α) : Program σ A α := fun _ answers => ([], some (a, answers))

/-- One program after another; the second does not start when the first is stopped. -/
def andThen (m : Program σ A α) (f : α → Program σ A β) : Program σ A β := fun s answers =>
  match m s answers with
  | (visited, none) => (visited, none)
  | (visited, some (a, rest)) =>
      let next := f a (lastState s visited) rest
      (visited ++ next.1, next.2)

instance : Monad (Program σ A) where
  pure := done
  bind := andThen

/-- One step: it takes an answer and changes the state. -/
def act (f : σ → A → σ × α) : Program σ A α := fun s answers =>
  match answers with
  | [] => ([], none)
  | a :: rest => ([(f s a).1], some ((f s a).2, rest))

/-- A program that an error ends. -/
def stop : Program σ A α := fun _ _ => ([], none)

/-- At most `n` rounds of a loop. A round goes on with `.inl` and ends the loop with `.inr`. -/
def iterate (body : β → Program σ A (β ⊕ α)) : Nat → β → Program σ A α
  | 0, _ => fun _ _ => ([], none)
  | n + 1, b => andThen (body b) fun
      | .inl next => iterate body n next
      | .inr a => done a

/-- A loop whose rounds each take an answer: it ends by itself or where the answers do. -/
def loop (body : β → Program σ A (β ⊕ α)) (b : β) : Program σ A α := fun s answers =>
  iterate body (answers.length + 1) b s answers

/-- A program that takes at least one answer before it ends. -/
def Takes (m : Program σ A α) : Prop :=
  ∀ s answers a rest, (m s answers).2 = some (a, rest) → rest.length < answers.length

/-- A program leaves no more answers than it was given. -/
def Keeps (m : Program σ A α) : Prop :=
  ∀ s answers a rest, (m s answers).2 = some (a, rest) → rest.length ≤ answers.length

/-! ## Rounds -/

theorem takes_act (f : σ → A → σ × α) : Takes (act f) := by
  intro s answers a rest h
  cases answers with
  | nil => exact absurd h (by simp [act])
  | cons b answers =>
      have hrest : answers = rest := (Prod.mk.inj (Option.some.inj h)).2
      subst hrest
      exact Nat.lt_succ_self _

theorem Takes.keeps {m : Program σ A α} (h : Takes m) : Keeps m :=
  fun s answers a rest hr => Nat.le_of_lt (h s answers a rest hr)

theorem keeps_done (a : α) : Keeps (done a : Program σ A α) := by
  intro s answers b rest h
  have hrest : answers = rest := (Prod.mk.inj (Option.some.inj h)).2
  exact hrest ▸ Nat.le_refl _

/-- What a sequence returns, its two parts returned one after the other. -/
theorem andThen_eq_some {m : Program σ A α} {f : α → Program σ A β} {s : σ} {answers : List A}
    {b : β} {rest : List A} (h : (andThen m f s answers).2 = some (b, rest)) :
    ∃ a between, (m s answers).2 = some (a, between) ∧
      (f a (lastState s (m s answers).1) between).2 = some (b, rest) := by
  rw [andThen] at h
  rcases hm : m s answers with ⟨visited, _ | ⟨a, between⟩⟩
  · rw [hm] at h
    exact absurd h (by simp)
  · rw [hm] at h
    exact ⟨a, between, rfl, h⟩

theorem Takes.andThen {m : Program σ A α} {f : α → Program σ A β} (hm : Takes m)
    (hf : ∀ a, Keeps (f a)) : Takes (andThen m f) := by
  intro s answers b rest h
  obtain ⟨a, between, hfirst, hsecond⟩ := andThen_eq_some h
  exact Nat.lt_of_le_of_lt (hf a _ _ _ _ hsecond) (hm _ _ _ _ hfirst)

theorem Keeps.andThen {m : Program σ A α} {f : α → Program σ A β} (hm : Keeps m)
    (hf : ∀ a, Keeps (f a)) : Keeps (andThen m f) := by
  intro s answers b rest h
  obtain ⟨a, between, hfirst, hsecond⟩ := andThen_eq_some h
  exact Nat.le_trans (hf a _ _ _ _ hsecond) (hm _ _ _ _ hfirst)

/-- With more rounds allowed than there are answers, how many makes no difference. -/
theorem iterate_eq {body : β → Program σ A (β ⊕ α)} (hbody : ∀ b, Takes (body b)) {n k : Nat}
    {b : β} {s : σ} {answers : List A} (hn : answers.length < n) (hk : answers.length < k) :
    iterate body n b s answers = iterate body k b s answers := by
  induction n generalizing k b s answers with
  | zero => exact absurd hn (Nat.not_lt_zero _)
  | succ n ih =>
      cases k with
      | zero => exact absurd hk (Nat.not_lt_zero _)
      | succ k =>
          simp only [iterate, Program.andThen]
          rcases hm : body b s answers with ⟨visited, _ | ⟨next | a, rest⟩⟩
          · rfl
          · -- one more round: it took an answer, so the rounds left still suffice
            have hlt := hbody b s answers _ _ (congrArg Prod.snd hm)
            have hrest := ih (b := next) (s := lastState s visited) (k := k)
              (by omega : rest.length < n) (by omega)
            simp only [hrest]
          · rfl

/-- A loop is its body, and then the loop again unless the round ended it. -/
theorem loop_eq {body : β → Program σ A (β ⊕ α)} (hbody : ∀ b, Takes (body b)) (b : β) :
    loop body b = andThen (body b) fun
      | .inl next => loop body next
      | .inr a => done a := by
  funext s answers
  simp only [loop, iterate, Program.andThen]
  rcases hm : body b s answers with ⟨visited, _ | ⟨next | a, rest⟩⟩
  · rfl
  · have hlt := hbody b s answers _ _ (congrArg Prod.snd hm)
    have hrest := iterate_eq hbody (b := next) (s := lastState s visited) hlt
      (Nat.lt_succ_self rest.length)
    simp only [hrest]
    rfl
  · rfl

/-! ## The judgement -/

/-- From a state where `P` holds and allowed answers, every step keeps `R` between the state
before and after it, and a result is returned in a state where `Q` holds of both. -/
def Safe (ok : A → Prop) (R : σ → σ → Prop) (P : σ → Prop) (m : Program σ A α)
    (Q : α → σ → Prop) : Prop :=
  ∀ s answers, (∀ a ∈ answers, ok a) → P s →
    List.IsChain R (s :: (m s answers).1) ∧
      ∀ r rest, (m s answers).2 = some (r, rest) →
        (∀ a ∈ rest, ok a) ∧ Q r (lastState s (m s answers).1)

variable {ok : A → Prop} {R : σ → σ → Prop} {P P' : σ → Prop} {Q Q' : α → σ → Prop}
  {S : β → σ → Prop}

theorem safe_done {a : α} (h : ∀ s, P s → Q a s) : Safe ok R P (done a) Q := by
  intro s answers hok hP
  refine ⟨List.isChain_singleton s, ?_⟩
  intro r rest hr
  obtain ⟨rfl, rfl⟩ := Prod.mk.inj (Option.some.inj hr)
  exact ⟨hok, h s hP⟩

theorem safe_pure {a : α} (h : ∀ s, P s → Q a s) :
    Safe ok R P (pure a : Program σ A α) Q := safe_done h

theorem safe_stop : Safe ok R P (stop : Program σ A α) Q :=
  fun s _ _ _ => ⟨List.isChain_singleton s, fun r rest hr => absurd hr (by simp [stop])⟩

theorem safe_act {f : σ → A → σ × α}
    (h : ∀ s a, ok a → P s → R s (f s a).1 ∧ Q (f s a).2 (f s a).1) :
    Safe ok R P (act f) Q := by
  intro s answers hok hP
  cases answers with
  | nil => exact ⟨List.isChain_singleton s, fun r rest hr => absurd hr (by simp [act])⟩
  | cons a answers =>
      obtain ⟨hR, hQ⟩ := h s a (hok a List.mem_cons_self) hP
      refine ⟨List.isChain_pair.2 hR, ?_⟩
      intro r rest hr
      obtain ⟨rfl, rfl⟩ := Prod.mk.inj (Option.some.inj hr)
      exact ⟨fun b hb => hok b (List.mem_cons_of_mem a hb), hQ⟩

/-- A chain up to a state, continued by a chain from it. -/
theorem isChain_append_of_last {s : σ} {v w : List σ} (hv : List.IsChain R (s :: v))
    (hw : List.IsChain R (lastState s v :: w)) : List.IsChain R (s :: (v ++ w)) := by
  induction v generalizing s with
  | nil => exact hw
  | cons t v ih =>
      obtain ⟨hst, hv⟩ := List.isChain_cons_cons.1 hv
      exact List.isChain_cons_cons.2 ⟨hst, ih hv hw⟩

theorem safe_andThen {m : Program σ A α} {f : α → Program σ A β} (hm : Safe ok R P m Q)
    (hf : ∀ r, Safe ok R (Q r) (f r) S) : Safe ok R P (andThen m f) S := by
  intro s answers hok hP
  obtain ⟨hchain, hresult⟩ := hm s answers hok hP
  simp only [Program.andThen]
  rcases hrun : m s answers with ⟨visited, _ | ⟨r, rest⟩⟩
  · rw [hrun] at hchain
    exact ⟨hchain, fun r rest hr => absurd hr (by simp)⟩
  · rw [hrun] at hchain hresult
    obtain ⟨hrest, hQ⟩ := hresult r rest rfl
    obtain ⟨hnext, hS⟩ := hf r _ rest hrest hQ
    refine ⟨isChain_append_of_last hchain hnext, ?_⟩
    intro r' rest' hr'
    rw [lastState_append]
    exact hS r' rest' hr'

theorem safe_bind {m : Program σ A α} {f : α → Program σ A β} (hm : Safe ok R P m Q)
    (hf : ∀ r, Safe ok R (Q r) (f r) S) : Safe ok R P (m >>= f) S := safe_andThen hm hf

theorem safe_weaken {m : Program σ A α} (hm : Safe ok R P m Q) (hP : ∀ s, P' s → P s)
    (hQ : ∀ r s, Q r s → Q' r s) : Safe ok R P' m Q' := by
  intro s answers hok hs
  obtain ⟨hchain, hresult⟩ := hm s answers hok (hP s hs)
  refine ⟨hchain, ?_⟩
  intro r rest hr
  obtain ⟨hrest, hq⟩ := hresult r rest hr
  exact ⟨hrest, hQ r _ hq⟩

theorem safe_mono {R' : σ → σ → Prop} {m : Program σ A α} (hR : ∀ s t, R s t → R' s t)
    (hm : Safe ok R P m Q) : Safe ok R' P m Q := fun s answers hok hs =>
  ⟨(hm s answers hok hs).1.imp hR, (hm s answers hok hs).2⟩

/-- A fact that does not depend on the state is taken out of what holds at the start. -/
theorem safe_fact {m : Program σ A α} {φ : σ → Prop} {c : Prop} (hc : ∀ s, φ s → c)
    (hm : c → Safe ok R φ m Q) : Safe ok R φ m Q := fun s answers hok hs =>
  hm (hc s hs) s answers hok hs

/-- The loop rule: `I` is the invariant of the rounds. -/
theorem safe_loop {body : β → Program σ A (β ⊕ α)} {I : β → σ → Prop}
    (hbody : ∀ b, Safe ok R (I b) (body b) fun r s =>
      match r with
      | .inl next => I next s
      | .inr a => Q a s) (b : β) : Safe ok R (I b) (loop body b) Q := by
  have hiterate : ∀ n b, Safe ok R (I b) (iterate body n b) Q := by
    intro n
    induction n with
    | zero =>
        intro b s answers _ _
        exact ⟨List.isChain_singleton s, fun r rest hr => absurd hr (by simp [iterate])⟩
    | succ n ih =>
        intro b
        refine safe_andThen (hbody b) ?_
        rintro (next | a)
        · exact ih next
        · exact safe_done fun s h => h
  intro s answers hok hI
  exact hiterate _ b s answers hok hI

/-! ## Programs that are not stopped -/

/-- With enough answers `q` the program ends by itself: what it returns, and the state it leaves. -/
def Returns (q : A) (m : Program σ A α) (s : σ) (a : α) (t : σ) : Prop :=
  ∃ n, ∀ rest, (m s (List.replicate n q ++ rest)).2 = some (a, rest) ∧
    lastState s (m s (List.replicate n q ++ rest)).1 = t

variable {q : A} {s t u : σ} {a : α} {b : β}

theorem returns_done : Returns q (done a : Program σ A α) s a s := ⟨0, fun _ => ⟨rfl, rfl⟩⟩

theorem returns_pure : Returns q (pure a : Program σ A α) s a s := returns_done

theorem returns_act (f : σ → A → σ × α) : Returns q (act f) s (f s q).2 (f s q).1 :=
  ⟨1, fun _ => ⟨rfl, rfl⟩⟩

theorem returns_andThen {m : Program σ A α} {f : α → Program σ A β} (hm : Returns q m s a t)
    (hf : Returns q (f a) t b u) : Returns q (andThen m f) s b u := by
  obtain ⟨n, hm⟩ := hm
  obtain ⟨k, hf⟩ := hf
  refine ⟨n + k, fun rest => ?_⟩
  obtain ⟨hfirst, hbetween⟩ := hm (List.replicate k q ++ rest)
  obtain ⟨hsecond, hlast⟩ := hf rest
  rw [List.replicate_add, List.append_assoc, Program.andThen]
  rcases hrun : m s (List.replicate n q ++ (List.replicate k q ++ rest)) with ⟨visited, result⟩
  rw [hrun] at hfirst hbetween
  obtain rfl : result = some (a, List.replicate k q ++ rest) := hfirst
  obtain rfl : lastState s visited = t := hbetween
  refine ⟨hsecond, ?_⟩
  rw [← hlast]
  exact lastState_append _ _ _

theorem returns_bind {m : Program σ A α} {f : α → Program σ A β} (hm : Returns q m s a t)
    (hf : Returns q (f a) t b u) : Returns q (m >>= f) s b u := returns_andThen hm hf

/-! ## Programs that end -/

/-- Whatever the answers are, with `n` of them the program ends, and it takes at most `n`. -/
def EndsBy (n : Nat) (m : Program σ A α) : Prop :=
  ∀ s answers, n ≤ answers.length →
    ∃ r rest, (m s answers).2 = some (r, rest) ∧ answers.length ≤ rest.length + n

theorem endsBy_pure (a : α) : EndsBy 0 (pure a : Program σ A α) :=
  fun _ answers _ => ⟨a, answers, rfl, Nat.le_refl _⟩

theorem endsBy_act (f : σ → A → σ × α) : EndsBy 1 (act f) := by
  intro s answers hlength
  cases answers with
  | nil => exact absurd hlength (Nat.not_succ_le_zero 0)
  | cons a rest => exact ⟨(f s a).2, rest, rfl, Nat.le_refl _⟩

theorem EndsBy.mono {n k : Nat} {m : Program σ A α} (h : EndsBy n m) (hn : n ≤ k) :
    EndsBy k m := by
  intro s answers hlength
  obtain ⟨r, rest, hr, hrest⟩ := h s answers (Nat.le_trans hn hlength)
  exact ⟨r, rest, hr, by omega⟩

theorem EndsBy.bind {n k : Nat} {m : Program σ A α} {f : α → Program σ A β} (hm : EndsBy n m)
    (hf : ∀ r, EndsBy k (f r)) : EndsBy (n + k) (m >>= f) := by
  intro s answers hlength
  obtain ⟨r, between, hfirst, hbetween⟩ := hm s answers (by omega)
  obtain ⟨r', rest, hsecond, hrest⟩ :=
    hf r (lastState s (m s answers).1) between (by omega)
  refine ⟨r', rest, ?_, by omega⟩
  -- the second program starts with the answers that the first one leaves
  change (andThen m f s answers).2 = some (r', rest)
  rw [andThen]
  rcases hrun : m s answers with ⟨visited, result⟩
  rw [hrun] at hfirst hsecond
  obtain rfl : result = some (r, between) := hfirst
  exact hsecond

/-! ## Sequences of programs -/

/-- The states gone through by programs that start one after the other, each where the one
before it ended or was stopped. -/
def runs : List (Program σ A α × List A) → σ → List σ
  | [], _ => []
  | (m, answers) :: rest, s =>
      let visited := (m s answers).1
      visited ++ runs rest (lastState s visited)

theorem inv_of_isChain {I : σ → Prop} (hI : ∀ s t, I s → R s t → I t) {s : σ} {v : List σ}
    (hs : I s) (hv : List.IsChain R (s :: v)) : ∀ t ∈ s :: v, I t := by
  induction v generalizing s with
  | nil =>
      intro t ht
      rwa [List.mem_singleton.1 ht]
  | cons u v ih =>
      obtain ⟨hsu, hv⟩ := List.isChain_cons_cons.1 hv
      intro t ht
      rcases List.mem_cons.1 ht with rfl | ht
      · exact hs
      · exact ih (hI s u hs hsu) hv t ht

/-- Safe programs, run one after the other and each stopped anywhere, keep the relation at
every step; the invariant that one ends with, or is stopped with, the next one starts from. -/
theorem chain_runs (ok : A → Prop) {I : σ → Prop} (hI : ∀ s t, I s → R s t → I t)
    {programs : List (Program σ A α × List A)}
    (hsafe : ∀ p ∈ programs, Safe ok R I p.1 (fun _ _ => True) ∧ ∀ a ∈ p.2, ok a) {s : σ}
    (hs : I s) : List.IsChain R (s :: runs programs s) := by
  induction programs generalizing s with
  | nil => exact List.isChain_singleton s
  | cons p programs ih =>
      obtain ⟨hp, hok⟩ := hsafe p List.mem_cons_self
      obtain ⟨hchain, -⟩ := hp s p.2 hok hs
      have hlast : I (lastState s (p.1 s p.2).1) :=
        inv_of_isChain hI hs hchain _ (lastState_mem s _)
      exact isChain_append_of_last hchain
        (ih (fun q hq => hsafe q (List.mem_cons_of_mem p hq)) hlast)

end Program

end IllumioOps.Programs
