import Mathlib.Algebra.Order.Field.Basic
import Mathlib.Tactic.Linarith
import Mathlib.Tactic.Ring

/-!
# Token buckets

A bucket fills at a rate up to its capacity; its tokens are settled only when it is looked at. `level` is
what it holds at a time. The level is the potential of the argument: what is taken out over a stretch of
uses, and what is left, is at most what was there and what flowed in (`taken_add_level_le`), whatever the
capacity and the rate are changed to on the way.
-/

set_option autoImplicit false

namespace IllumioOps.Buckets

variable {K : Type} [Field K] [LinearOrder K]

/-- A bucket as it was settled last. -/
structure Bucket (K : Type) where
  capacity : K
  rate : K
  tokens : K
  since : K

/-- What the bucket holds at a time. -/
def Bucket.level (b : Bucket K) (t : K) : K := min b.capacity (b.tokens + (t - b.since) * b.rate)

/-- The bucket settled at a time. -/
def Bucket.settle (b : Bucket K) (t : K) : Bucket K := { b with tokens := b.level t, since := t }

/-- A use of the bucket: a token is taken, it is only looked at, or its capacity and rate change. -/
inductive Use (K : Type) where
  | take
  | look
  | change (capacity rate : K)

/-- The bucket after a use at a time. -/
def Bucket.after (b : Bucket K) (t : K) : Use K → Bucket K
  | .take => { b.settle t with tokens := b.level t - 1 }
  | .look => b.settle t
  | .change capacity rate => ⟨capacity, rate, min (b.level t) capacity, t⟩

/-- The bucket after uses, one after the other. -/
def Bucket.afterAll (b : Bucket K) (uses : List (K × Use K)) : Bucket K :=
  uses.foldl (fun b u => b.after u.1 u.2) b

/-- The tokens taken. -/
def taken (uses : List (K × Use K)) : Nat :=
  uses.countP fun u => match u.2 with
    | .take => true
    | _ => false

/-- What flows in between two times, at the rate in force from use to use: the integral of the rate. -/
def inflow (rate a : K) : List (K × Use K) → K → K
  | [], b => rate * (b - a)
  | (t, .change _ rate') :: uses, b => rate * (t - a) + inflow rate' t uses b
  | (t, _) :: uses, b => rate * (t - a) + inflow rate t uses b

/-- A bucket that holds between nothing and its capacity, and does not leak. -/
structure Bucket.Sound (b : Bucket K) : Prop where
  rate : 0 ≤ b.rate
  nonneg : 0 ≤ b.tokens
  le : b.tokens ≤ b.capacity

/-- The times of the uses follow one another, from a first to a last. -/
def Ordered (a : K) : List (K × Use K) → K → Prop
  | [], b => a ≤ b
  | u :: uses, b => a ≤ u.1 ∧ Ordered u.1 uses b

/-- Whether a use can be made: a token is taken only where there is one, and a bucket is not changed into
one that leaks or holds less than nothing. -/
def Bucket.Allows (b : Bucket K) (t : K) : Use K → Prop
  | .take => 1 ≤ b.level t
  | .look => True
  | .change capacity rate => 0 ≤ capacity ∧ 0 ≤ rate

/-- Every use is allowed where it is made. -/
def Bucket.AllowsAll (b : Bucket K) : List (K × Use K) → Prop
  | [] => True
  | u :: uses => b.Allows u.1 u.2 ∧ (b.after u.1 u.2).AllowsAll uses

variable {b : Bucket K} {t t' : K}

theorem level_le (b : Bucket K) (t : K) : b.level t ≤ b.capacity := min_le_left _ _

@[simp] theorem level_since (h : b.tokens ≤ b.capacity) : b.level b.since = b.tokens := by
  rw [Bucket.level, sub_self, zero_mul, add_zero, min_eq_right h]

theorem since_after (b : Bucket K) (t : K) (u : Use K) : (b.after t u).since = t := by
  cases u <;> rfl

theorem afterAll_append (b : Bucket K) (us vs : List (K × Use K)) :
    b.afterAll (us ++ vs) = (b.afterAll us).afterAll vs := List.foldl_append

theorem allowsAll_append {us vs : List (K × Use K)} :
    b.AllowsAll (us ++ vs) ↔ b.AllowsAll us ∧ (b.afterAll us).AllowsAll vs := by
  induction us generalizing b with
  | nil => simp [Bucket.AllowsAll, Bucket.afterAll]
  | cons u us ih => exact (and_congr_right fun _ => ih).trans and_assoc.symm

omit [Field K] in
theorem ordered_iff {a z : K} {us : List (K × Use K)} :
    Ordered a us z ↔ a ≤ z ∧ (∀ u ∈ us, a ≤ u.1 ∧ u.1 ≤ z) ∧ us.Pairwise fun u v => u.1 ≤ v.1 := by
  induction us generalizing a with
  | nil => simp [Ordered]
  | cons u us ih =>
      rw [Ordered, ih, List.pairwise_cons, List.forall_mem_cons]
      constructor
      · rintro ⟨hau, huz, hin, hpair⟩
        exact ⟨hau.trans huz, ⟨⟨hau, huz⟩, fun v hv => ⟨hau.trans (hin v hv).1, (hin v hv).2⟩⟩,
          fun v hv => (hin v hv).1, hpair⟩
      · rintro ⟨-, ⟨⟨hau, huz⟩, hin⟩, hle, hpair⟩
        exact ⟨hau, huz, fun v hv => ⟨hle v hv, (hin v hv).2⟩, hpair⟩

variable [IsStrictOrderedRing K]

theorem Bucket.Sound.level_nonneg (h : b.Sound) (ht : b.since ≤ t) : 0 ≤ b.level t := by
  have hin : 0 ≤ (t - b.since) * b.rate := mul_nonneg (sub_nonneg.mpr ht) h.rate
  exact le_min (h.nonneg.trans h.le) (add_nonneg h.nonneg hin)

/-- Between two times the level rises by what flows in, at most. -/
theorem level_le_add (h : b.Sound) (ht : t ≤ t') : b.level t' ≤ b.level t + b.rate * (t' - t) := by
  have hin : 0 ≤ b.rate * (t' - t) := mul_nonneg h.rate (sub_nonneg.mpr ht)
  rcases min_choice b.capacity (b.tokens + (t - b.since) * b.rate) with hfull | hpart
  · rw [Bucket.level, Bucket.level, hfull]
    exact (min_le_left _ _).trans (le_add_of_nonneg_right hin)
  · rw [Bucket.level, Bucket.level, hpart]
    refine (min_le_right _ _).trans (le_of_eq ?_)
    ring

theorem sound_settle (h : b.Sound) (ht : b.since ≤ t) : (b.settle t).Sound :=
  ⟨h.rate, h.level_nonneg ht, level_le b t⟩

theorem sound_after (h : b.Sound) (ht : b.since ≤ t) {u : Use K} (hu : b.Allows t u) :
    (b.after t u).Sound := by
  cases u with
  | take =>
      have hle : b.level t - 1 ≤ b.capacity :=
        (sub_le_self _ zero_le_one).trans (level_le b t)
      exact ⟨h.rate, sub_nonneg.mpr hu, hle⟩
  | look => exact sound_settle h ht
  | change capacity rate =>
      exact ⟨hu.2, le_min (h.level_nonneg ht) hu.1, min_le_right _ _⟩

/-- A use takes what it takes out of the level, and adds nothing. -/
theorem level_after (h : b.Sound) (ht : b.since ≤ t) {u : Use K} (hu : b.Allows t u) :
    (taken [(t, u)] : K) + (b.after t u).level t ≤ b.level t := by
  have hsince := level_since (sound_after h ht hu).le
  rw [since_after] at hsince
  rw [hsince]
  cases u with
  | take =>
      have htaken : taken [(t, (Use.take : Use K))] = 1 := rfl
      rw [htaken, Nat.cast_one]
      exact le_of_eq (add_sub_cancel 1 (b.level t))
  | look =>
      have htaken : taken [(t, (Use.look : Use K))] = 0 := rfl
      rw [htaken, Nat.cast_zero, zero_add]
      exact le_refl _
  | change capacity rate =>
      have htaken : taken [(t, (Use.change capacity rate : Use K))] = 0 := rfl
      rw [htaken, Nat.cast_zero, zero_add]
      exact min_le_left _ _

/-- **The potential argument**, by induction on the uses: what was taken and what is left at the end is at
most the level at the start and what flowed in. -/
theorem taken_add_level_le {uses : List (K × Use K)} {a z : K} (h : b.Sound) (ha : b.since ≤ a)
    (hordered : Ordered a uses z) (hallows : b.AllowsAll uses) :
    (taken uses : K) + (b.afterAll uses).level z ≤ b.level a + inflow b.rate a uses z := by
  induction uses generalizing b a with
  | nil =>
      rw [show taken ([] : List (K × Use K)) = 0 from rfl, Nat.cast_zero, zero_add]
      exact level_le_add h hordered
  | cons u uses ih =>
      obtain ⟨t, u⟩ := u
      obtain ⟨hat, hrest⟩ := hordered
      obtain ⟨hu, huses⟩ := hallows
      have ht : b.since ≤ t := ha.trans hat
      have hsplit : taken ((t, u) :: uses) = taken [(t, u)] + taken uses := by
        rw [taken, taken, taken, ← List.countP_append]
        rfl
      have hnext := ih (sound_after h ht hu) (le_of_eq (since_after b t u)) hrest huses
      have huse := level_after h ht hu
      have hrise := level_le_add h hat
      have hinflow : inflow b.rate a ((t, u) :: uses) z =
          b.rate * (t - a) + inflow (b.after t u).rate t uses z := by
        cases u <;> rfl
      have hafter : b.afterAll ((t, u) :: uses) = (b.after t u).afterAll uses := rfl
      rw [hsplit, hinflow, hafter, Nat.cast_add]
      linarith

/-- By induction on the uses: the bucket stays sound, and was settled by the last of them. -/
theorem sound_afterAll {us : List (K × Use K)} {z : K} (h : b.Sound) (hallows : b.AllowsAll us)
    (hordered : Ordered b.since us z) : (b.afterAll us).Sound ∧ (b.afterAll us).since ≤ z := by
  induction us generalizing b with
  | nil => exact ⟨h, hordered⟩
  | cons u us ih =>
      refine ih (sound_after h hordered.1 hallows.1) hallows.2 ?_
      rw [since_after]
      exact hordered.2

/-- The level is a token again exactly from the wait on, if the bucket can hold one. -/
theorem one_le_level_iff (hcapacity : 1 ≤ b.capacity) (hrate : 0 < b.rate) :
    1 ≤ b.level t ↔ b.since + (1 - b.tokens) / b.rate ≤ t := by
  rw [Bucket.level, le_min_iff, and_iff_right hcapacity, ← le_sub_iff_add_le', div_le_iff₀ hrate,
    sub_le_iff_le_add']

end IllumioOps.Buckets
