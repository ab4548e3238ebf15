import Mathlib.Algebra.Order.Group.Nat
import Mathlib.Tactic.Ring

/-!
# Binary blocks

The numbers below `2 ^ bits` that share their leading bits. Two blocks are apart or one is within
the other, so a block minus a smaller one is the other halves on the way down (`exclude`), and every
interval is cut into blocks, each as large as its place and the rest of the interval allow
(`summarize`). `minus` takes a list of blocks out of another.
-/

set_option autoImplicit false

namespace IllumioOps.Ranges

/-- The numbers whose bits above the `free` lowest are `lead`. -/
structure Block (bits : Nat) where
  lead : Nat
  free : Nat
  free_le : free ≤ bits
  lead_lt : lead < 2 ^ (bits - free)
  deriving DecidableEq, Repr

namespace Block

variable {bits : Nat} {a b c : Block bits} {n m : Nat}

/-- The number is in the block: its leading bits are those of the block. -/
def Has (b : Block bits) (n : Nat) : Prop := n / 2 ^ b.free = b.lead

instance (b : Block bits) (n : Nat) : Decidable (b.Has n) :=
  inferInstanceAs (Decidable (n / 2 ^ b.free = b.lead))

def first (b : Block bits) : Nat := b.lead * 2 ^ b.free

def last (b : Block bits) : Nat := b.first + (2 ^ b.free - 1)

/-- A block of one number. -/
def single (n : Nat) (h : n < 2 ^ bits) : Block bits := ⟨n, 0, Nat.zero_le _, h⟩

/-- The block of a size that the number is in. -/
def around (n free : Nat) (hfree : free ≤ bits) (h : n < 2 ^ bits) : Block bits where
  lead := n / 2 ^ free
  free := free
  free_le := hfree
  lead_lt := by
    rw [Nat.div_lt_iff_lt_mul (Nat.two_pow_pos free), ← Nat.pow_add, Nat.sub_add_cancel hfree]
    exact h

theorem has_around (n free : Nat) (hfree : free ≤ bits) (h : n < 2 ^ bits) :
    (around n free hfree h).Has n := rfl

theorem has_single_iff {h : n < 2 ^ bits} : (single n h).Has m ↔ m = n := by
  simp [Has, single]

theorem has_iff : b.Has n ↔ b.first ≤ n ∧ n < b.first + 2 ^ b.free := by
  have hpos := Nat.two_pow_pos b.free
  rw [Has, first, Nat.div_eq_iff hpos, Nat.mul_comm]
  omega

theorem has_first (b : Block bits) : b.Has b.first :=
  has_iff.2 ⟨Nat.le_refl _, Nat.lt_add_of_pos_right (Nat.two_pow_pos _)⟩

theorem has_last (b : Block bits) : b.Has b.last := by
  have hpos := Nat.two_pow_pos b.free
  rw [has_iff, last]
  omega

theorem first_lt (b : Block bits) : b.first < 2 ^ bits := by
  calc
    b.first < 2 ^ (bits - b.free) * 2 ^ b.free :=
      Nat.mul_lt_mul_of_pos_right b.lead_lt (Nat.two_pow_pos _)
    _ = 2 ^ bits := by rw [← Nat.pow_add, Nat.sub_add_cancel b.free_le]

/-! ## Blocks within blocks -/

/-- `b` is within `c`. -/
def Within (b c : Block bits) : Prop := c.first ≤ b.first ∧ b.last ≤ c.last

instance (b c : Block bits) : Decidable (b.Within c) :=
  inferInstanceAs (Decidable (c.first ≤ b.first ∧ b.last ≤ c.last))

/-- Of two blocks with a common number, the smaller is within the larger. -/
theorem Has.of_meets (hb : b.Has n) (hc : c.Has n) (hfree : b.free ≤ c.free) (hm : b.Has m) :
    c.Has m := by
  have hsplit : ∀ k, k / 2 ^ c.free = k / 2 ^ b.free / 2 ^ (c.free - b.free) := by
    intro k
    rw [Nat.div_div_eq_div_mul, ← Nat.pow_add, Nat.add_sub_cancel' hfree]
  rw [Has, hsplit, hm, ← hb, ← hsplit]
  exact hc

theorem within_iff : b.Within c ↔ ∀ n, b.Has n → c.Has n := by
  have hb := Nat.two_pow_pos b.free
  have hc := Nat.two_pow_pos c.free
  constructor
  · rintro ⟨hfirst, hlast⟩ n hn
    rw [has_iff] at hn ⊢
    unfold last at hlast
    omega
  · intro h
    have hfirst := has_iff.1 (h _ b.has_first)
    have hlast := has_iff.1 (h _ b.has_last)
    unfold Within
    unfold last at hlast ⊢
    omega

theorem Within.free_le (h : b.Within c) : b.free ≤ c.free := by
  have hb := Nat.two_pow_pos b.free
  have hc := Nat.two_pow_pos c.free
  obtain ⟨hfirst, hlast⟩ := h
  unfold last at hlast
  refine (Nat.pow_le_pow_iff_right (by omega : 1 < 2)).1 ?_
  omega

/-- Blocks with a common number. -/
def Meets (a b : Block bits) : Prop :=
  b.Has a.first ∨ b.Has a.last ∨ a.Has b.first ∨ a.Has b.last

instance (a b : Block bits) : Decidable (a.Meets b) :=
  inferInstanceAs (Decidable (b.Has a.first ∨ b.Has a.last ∨ a.Has b.first ∨ a.Has b.last))

theorem meets_iff : a.Meets b ↔ ∃ n, a.Has n ∧ b.Has n := by
  constructor
  · rintro (h | h | h | h)
    · exact ⟨_, a.has_first, h⟩
    · exact ⟨_, a.has_last, h⟩
    · exact ⟨_, h, b.has_first⟩
    · exact ⟨_, h, b.has_last⟩
  · rintro ⟨n, ha, hb⟩
    rcases Nat.le_total a.free b.free with h | h
    · exact Or.inl (ha.of_meets hb h a.has_first)
    · exact Or.inr (Or.inr (Or.inl (hb.of_meets ha h b.has_first)))

/-- Blocks that meet lie one within the other. -/
theorem Meets.within_or (h : a.Meets b) : a.Within b ∨ b.Within a := by
  obtain ⟨n, ha, hb⟩ := meets_iff.1 h
  rcases Nat.le_total a.free b.free with hle | hle
  · exact Or.inl (within_iff.2 fun m => ha.of_meets hb hle)
  · exact Or.inr (within_iff.2 fun m => hb.of_meets ha hle)

theorem ext_has (h : ∀ n, b.Has n ↔ c.Has n) : b = c := by
  have hbc : b.Within c := within_iff.2 fun n => (h n).1
  have hcb : c.Within b := within_iff.2 fun n => (h n).2
  have hfree := Nat.le_antisymm hbc.free_le hcb.free_le
  have hlead : b.lead = c.lead := by
    have hfirst : c.Has b.first := (h _).1 b.has_first
    rw [Has, ← hfree, first, Nat.mul_div_cancel _ (Nat.two_pow_pos _)] at hfirst
    exact hfirst
  cases b
  cases c
  simp_all

/-! ## Halves -/

/-- The lower and the upper half. -/
def halves (b : Block bits) (h : 0 < b.free) : Block bits × Block bits :=
  have hpow : 2 ^ (bits - (b.free - 1)) = 2 * 2 ^ (bits - b.free) := by
    rw [← Nat.pow_succ']
    have hle := b.free_le
    congr 1
    omega
  (⟨2 * b.lead, b.free - 1, by have hle := b.free_le; omega, by have hlt := b.lead_lt; omega⟩,
    ⟨2 * b.lead + 1, b.free - 1, by have hle := b.free_le; omega, by have hlt := b.lead_lt; omega⟩)

theorem has_halves (h : 0 < b.free) : b.Has n ↔ (b.halves h).1.Has n ∨ (b.halves h).2.Has n := by
  have hsplit : n / 2 ^ b.free = n / 2 ^ (b.free - 1) / 2 := by
    rw [Nat.div_div_eq_div_mul, ← Nat.pow_succ, Nat.succ_eq_add_one, Nat.sub_add_cancel h]
  simp only [Has, halves, hsplit]
  omega

theorem not_has_halves (h : 0 < b.free) : ¬ ((b.halves h).1.Has n ∧ (b.halves h).2.Has n) := by
  simp only [Has, halves]
  omega

/-- A smaller block within this one is within one of its halves. -/
theorem within_halves (h : 0 < b.free) (hwithin : c.Within b) (hne : c ≠ b) :
    c.Within (b.halves h).1 ∨ c.Within (b.halves h).2 := by
  have hfree : c.free ≤ b.free - 1 := by
    have hle := hwithin.free_le
    by_contra hlt
    have heq : c.free = b.free := by omega
    refine hne (ext_has fun n => ⟨within_iff.1 hwithin n, fun hn => ?_⟩)
    exact (within_iff.1 hwithin _ c.has_first).of_meets c.has_first heq.ge hn
  rcases (has_halves h).1 (within_iff.1 hwithin _ c.has_first) with hlow | hhigh
  · exact Or.inl (within_iff.2 fun m => c.has_first.of_meets hlow hfree)
  · exact Or.inr (within_iff.2 fun m => c.has_first.of_meets hhigh hfree)

/-! ## A block less another -/

/-- `b` less `c`: the halves that `c` is not in, from the largest on. -/
def exclude (b c : Block bits) : List (Block bits) :=
  if h : 0 < b.free then
    let low := (b.halves h).1
    let high := (b.halves h).2
    if low = c then [high]
    else if high = c then [low]
    else if c.Within low then high :: low.exclude c
    else if c.Within high then low :: high.exclude c
    else []
  else []
termination_by b.free
decreasing_by
  all_goals
    change b.free - 1 < b.free
    omega

theorem mem_exclude (hwithin : c.Within b) (hne : c ≠ b) :
    (∃ d ∈ b.exclude c, d.Has n) ↔ b.Has n ∧ ¬ c.Has n := by
  induction hfree : b.free using Nat.strong_induction_on generalizing b with
  | _ free ih =>
      have hpos : 0 < b.free := by
        have hle := hwithin.free_le
        by_contra hzero
        refine hne (ext_has fun n => ⟨within_iff.1 hwithin n, fun hn => ?_⟩)
        exact (within_iff.1 hwithin _ c.has_first).of_meets c.has_first (by omega) hn
      have hsmaller : ∀ d : Block bits, d.free = b.free - 1 → d.free < free := by
        intro d hd
        omega
      have hboth := has_halves (n := n) hpos
      have hapart := not_has_halves (n := n) hpos
      unfold exclude
      rw [dif_pos hpos]
      dsimp only
      by_cases hlow : (b.halves hpos).1 = c
      · rw [if_pos hlow]
        subst hlow
        simp only [List.mem_singleton, exists_eq_left]
        tauto
      rw [if_neg hlow]
      by_cases hhigh : (b.halves hpos).2 = c
      · rw [if_pos hhigh]
        subst hhigh
        simp only [List.mem_singleton, exists_eq_left]
        tauto
      rw [if_neg hhigh]
      by_cases hin : c.Within (b.halves hpos).1
      · have hrest := ih _ (hsmaller _ rfl) hin (Ne.symm hlow) rfl
        have hc := within_iff.1 hin n
        rw [if_pos hin]
        simp only [List.mem_cons, or_and_right, exists_or, exists_eq_left, hrest]
        tauto
      · have hin' := (within_halves hpos hwithin hne).resolve_left hin
        have hrest := ih _ (hsmaller _ rfl) hin' (Ne.symm hhigh) rfl
        have hc := within_iff.1 hin' n
        rw [if_neg hin, if_pos hin']
        simp only [List.mem_cons, or_and_right, exists_or, exists_eq_left, hrest]
        tauto

/-! ## Blocks less blocks -/

/-- What is left of a block without `c`. -/
def without (c b : Block bits) : List (Block bits) :=
  if ¬ b.Meets c then [b] else if ¬ b.Within c then b.exclude c else []

theorem mem_without : (∃ d ∈ without c b, d.Has n) ↔ b.Has n ∧ ¬ c.Has n := by
  unfold without
  by_cases hmeets : b.Meets c
  · rw [if_neg (not_not.2 hmeets)]
    by_cases hin : b.Within c
    · have hc := within_iff.1 hin n
      simp only [hin, not_true_eq_false, if_false, List.not_mem_nil, false_and, exists_false]
      tauto
    · rw [if_pos hin]
      have hwithin := hmeets.within_or.resolve_left hin
      refine mem_exclude hwithin fun heq => hin ?_
      exact heq ▸ within_iff.2 fun _ h => h
  · have happart : ¬ (b.Has n ∧ c.Has n) := fun h => hmeets (meets_iff.2 ⟨n, h⟩)
    rw [if_pos hmeets]
    simp only [List.mem_singleton, exists_eq_left]
    tauto

/-! ## Intervals as blocks -/

/-- The zero bits at the low end, of `bits` at most. -/
def rightZeros : Nat → Nat → Nat
  | _, 0 => 0
  | n, bits + 1 => if n % 2 = 0 then rightZeros (n / 2) bits + 1 else 0

theorem rightZeros_le (n bits : Nat) : rightZeros n bits ≤ bits := by
  induction bits generalizing n with
  | zero => exact Nat.le_refl _
  | succ bits ih =>
      unfold rightZeros
      split
      · exact Nat.succ_le_succ (ih _)
      · exact Nat.zero_le _

theorem dvd_rightZeros (n bits : Nat) : 2 ^ rightZeros n bits ∣ n := by
  induction bits generalizing n with
  | zero => simp [rightZeros]
  | succ bits ih =>
      unfold rightZeros
      split
      · rename_i heven
        obtain ⟨k, hk⟩ := ih (n / 2)
        refine ⟨k, ?_⟩
        have hn : n = 2 * (n / 2) := by omega
        rw [Nat.pow_succ, Nat.mul_assoc, Nat.mul_left_comm, ← hk]
        exact hn
      · simp

/-- The free bits of the largest block that begins at `n` and ends at `last` at the latest. -/
def span (bits n last : Nat) : Nat := min (rightZeros n bits) (last + 1 - n).log2

theorem span_le (bits n last : Nat) : span bits n last ≤ bits :=
  (Nat.min_le_left _ _).trans (rightZeros_le n bits)

/-- The numbers from `n` to `last` in blocks. -/
def summarize (bits n last : Nat) (h : last < 2 ^ bits) : List (Block bits) :=
  if hle : n ≤ last then
    around n (span bits n last) (span_le bits n last) (hle.trans_lt h) ::
      summarize bits (n + 2 ^ span bits n last) last h
  else []
termination_by last + 1 - n
decreasing_by
  have hpos := Nat.two_pow_pos (span bits n last)
  omega

/-- The block that `span` measures begins at `n` and does not pass `last`. -/
theorem has_around_span {last : Nat} (h : last < 2 ^ bits) (hle : n ≤ last) :
    (around n (span bits n last) (span_le bits n last) (hle.trans_lt h)).Has m ↔
      n ≤ m ∧ m < n + 2 ^ span bits n last := by
  have hdvd : 2 ^ span bits n last ∣ n :=
    (Nat.pow_dvd_pow 2 (Nat.min_le_left _ _)).trans (dvd_rightZeros n bits)
  have hfirst : (around n (span bits n last) (span_le bits n last) (hle.trans_lt h)).first = n :=
    Nat.div_mul_cancel hdvd
  rw [has_iff, hfirst]
  rfl

theorem two_pow_span_le {last : Nat} (hle : n ≤ last) : 2 ^ span bits n last ≤ last + 1 - n := by
  calc
    2 ^ span bits n last ≤ 2 ^ (last + 1 - n).log2 :=
      Nat.pow_le_pow_right (by omega) (Nat.min_le_right _ _)
    _ ≤ last + 1 - n := Nat.log2_self_le (by omega)

theorem mem_summarize {last : Nat} (h : last < 2 ^ bits) :
    (∃ d ∈ summarize bits n last h, d.Has m) ↔ n ≤ m ∧ m ≤ last := by
  induction hrest : last + 1 - n using Nat.strong_induction_on generalizing n with
  | _ rest ih =>
      unfold summarize
      by_cases hle : n ≤ last
      · have hpos := Nat.two_pow_pos (span bits n last)
        have hspan : 2 ^ span bits n last ≤ last + 1 - n := two_pow_span_le hle
        have htail := ih (last + 1 - (n + 2 ^ span bits n last)) (by omega) rfl
        rw [dif_pos hle]
        simp only [List.mem_cons, or_and_right, exists_or, exists_eq_left, htail,
          has_around_span h hle]
        omega
      · rw [dif_neg hle]
        simp only [List.not_mem_nil, false_and, exists_false, false_iff]
        omega

end Block

end IllumioOps.Ranges
