import IllumioOps.Ranges.Parts
import Mathlib.Data.List.Pairwise
import Mathlib.Order.Lattice
import Mathlib.Order.MinMax

/-!
# Sets of ranges that are joined as they grow

A set of points is kept as a list of closed ranges. A range that is added swallows the ranges
that it overlaps or touches (`joinRange`). What is covered afterwards is what was covered
before and the new range (`covered_joinRange`, and `inside_joinRange` for half-open ranges), what
one range contained one range still contains, and a range that touches another one joins it
(`within_joinRange_of_touch`). Ranges that do not overlap or touch stay so (`touchFree_joinRange`).
-/

set_option autoImplicit false

namespace IllumioOps.Ranges

variable {α : Type} [LinearOrder α]

/-! ## Joining -/

/-- The ranges that overlap or touch `[lo, hi]`. -/
def touching (ranges : List (α × α)) (lo hi : α) : List (α × α) :=
  ranges.filter fun r => r.1 ≤ hi && lo ≤ r.2

/-- The least of the starts and `lo`. -/
def leastStart (ranges : List (α × α)) (lo : α) : α := ranges.foldr (fun r m => min r.1 m) lo

/-- The greatest of the ends and `hi`. -/
def greatestEnd (ranges : List (α × α)) (hi : α) : α := ranges.foldr (fun r m => max r.2 m) hi

/-- `[lo, hi]` takes in the ranges that it overlaps or touches. -/
def joinRange (ranges : List (α × α)) (lo hi : α) : List (α × α) :=
  (ranges.filter fun r => !(r.1 ≤ hi && lo ≤ r.2)) ++
    [(leastStart (touching ranges lo hi) lo, greatestEnd (touching ranges lo hi) hi)]

/-- One of the ranges contains `[x, y]`. -/
def Within (ranges : List (α × α)) (x y : α) : Prop := ∃ r ∈ ranges, r.1 ≤ x ∧ y ≤ r.2

instance (ranges : List (α × α)) (x y : α) : Decidable (Within ranges x y) := by
  unfold Within
  infer_instance

/-- One of the ranges contains the point. -/
def Covered (ranges : List (α × α)) (t : α) : Prop := Within ranges t t

variable {ranges : List (α × α)} {lo hi x y t : α}

theorem Within.mono {x' y' : α} (h : Within ranges x y) (hx : x ≤ x') (hy : y' ≤ y) :
    Within ranges x' y' := by
  obtain ⟨r, hr, hrx, hry⟩ := h
  exact ⟨r, hr, hrx.trans hx, hy.trans hry⟩

theorem leastStart_le (ranges : List (α × α)) (lo : α) : leastStart ranges lo ≤ lo := by
  induction ranges with
  | nil => exact le_rfl
  | cons r ranges ih => exact (min_le_right _ _).trans ih

theorem leastStart_le_of_mem {r : α × α} (hr : r ∈ ranges) : leastStart ranges lo ≤ r.1 := by
  induction ranges with
  | nil => exact absurd hr List.not_mem_nil
  | cons q ranges ih =>
      rcases List.mem_cons.1 hr with rfl | hr
      · exact min_le_left _ _
      · exact (min_le_right _ _).trans (ih hr)

theorem leastStart_cases (ranges : List (α × α)) (lo : α) :
    leastStart ranges lo = lo ∨ ∃ r ∈ ranges, leastStart ranges lo = r.1 := by
  induction ranges with
  | nil => exact Or.inl rfl
  | cons q ranges ih =>
      have hcons : leastStart (q :: ranges) lo = min q.1 (leastStart ranges lo) := rfl
      rcases min_choice q.1 (leastStart ranges lo) with hmin | hmin
      · exact Or.inr ⟨q, List.mem_cons_self, hcons.trans hmin⟩
      · rcases ih with ih | ⟨r, hr, ih⟩
        · exact Or.inl (hcons.trans (hmin.trans ih))
        · exact Or.inr ⟨r, List.mem_cons_of_mem _ hr, hcons.trans (hmin.trans ih)⟩

theorem le_greatestEnd (ranges : List (α × α)) (hi : α) : hi ≤ greatestEnd ranges hi := by
  induction ranges with
  | nil => exact le_rfl
  | cons r ranges ih => exact ih.trans (le_max_right _ _)

theorem le_greatestEnd_of_mem {r : α × α} (hr : r ∈ ranges) : r.2 ≤ greatestEnd ranges hi := by
  induction ranges with
  | nil => exact absurd hr List.not_mem_nil
  | cons q ranges ih =>
      rcases List.mem_cons.1 hr with rfl | hr
      · exact le_max_left _ _
      · exact (ih hr).trans (le_max_right _ _)

theorem greatestEnd_cases (ranges : List (α × α)) (hi : α) :
    greatestEnd ranges hi = hi ∨ ∃ r ∈ ranges, greatestEnd ranges hi = r.2 := by
  induction ranges with
  | nil => exact Or.inl rfl
  | cons q ranges ih =>
      have hcons : greatestEnd (q :: ranges) hi = max q.2 (greatestEnd ranges hi) := rfl
      rcases max_choice q.2 (greatestEnd ranges hi) with hmax | hmax
      · exact Or.inr ⟨q, List.mem_cons_self, hcons.trans hmax⟩
      · rcases ih with ih | ⟨r, hr, ih⟩
        · exact Or.inl (hcons.trans (hmax.trans ih))
        · exact Or.inr ⟨r, List.mem_cons_of_mem _ hr, hcons.trans (hmax.trans ih)⟩

/-! ## What one range contains -/

theorem mem_touching {r : α × α} :
    r ∈ touching ranges lo hi ↔ r ∈ ranges ∧ r.1 ≤ hi ∧ lo ≤ r.2 := by
  simp [touching]

/-- The range that was added is in one range. -/
theorem within_joinRange_self (ranges : List (α × α)) (lo hi : α) :
    Within (joinRange ranges lo hi) lo hi :=
  ⟨_, List.mem_append_right _ List.mem_cons_self, leastStart_le _ _, le_greatestEnd _ _⟩

/-- What one range contained one range still contains. -/
theorem within_joinRange (h : Within ranges x y) (lo hi : α) :
    Within (joinRange ranges lo hi) x y := by
  obtain ⟨r, hr, hrx, hry⟩ := h
  by_cases hmet : r.1 ≤ hi ∧ lo ≤ r.2
  · have hr' := mem_touching.2 ⟨hr, hmet⟩
    exact ⟨_, List.mem_append_right _ List.mem_cons_self,
      (leastStart_le_of_mem hr').trans hrx, hry.trans (le_greatestEnd_of_mem hr')⟩
  · refine ⟨r, List.mem_append_left _ (List.mem_filter.2 ⟨hr, ?_⟩), hrx, hry⟩
    rw [Bool.not_eq_true', Bool.eq_false_iff]
    simpa only [ne_eq, Bool.and_eq_true, decide_eq_true_eq] using hmet

/-- A range that touches what one range contains joins it. -/
theorem within_joinRange_of_touch (h : Within ranges x y) (hx : x ≤ hi) (hy : lo ≤ y) :
    Within (joinRange ranges lo hi) (min x lo) (max y hi) := by
  obtain ⟨r, hr, hrx, hry⟩ := h
  have hr' : r ∈ touching ranges lo hi :=
    mem_touching.2 ⟨hr, hrx.trans hx, hy.trans hry⟩
  refine ⟨_, List.mem_append_right _ List.mem_cons_self, le_min ?_ ?_, max_le ?_ ?_⟩
  · exact (leastStart_le_of_mem hr').trans hrx
  · exact leastStart_le _ _
  · exact hry.trans (le_greatestEnd_of_mem hr')
  · exact le_greatestEnd _ _

/-! ## What is covered -/

/-- Nothing is covered but what was covered before and the range that was added. -/
theorem covered_joinRange : Covered (joinRange ranges lo hi) t ↔
    Covered ranges t ∨ lo ≤ t ∧ t ≤ hi := by
  constructor
  · rintro ⟨r, hr, hrt, htr⟩
    rcases List.mem_append.1 hr with hr | hr
    · exact Or.inl ⟨r, (List.mem_filter.1 hr).1, hrt, htr⟩
    · rw [List.mem_singleton] at hr
      subst hr
      rcases lt_or_ge t lo with hlo | hlo
      · -- Below `lo`, the point is in the range that starts first.
        rcases leastStart_cases (touching ranges lo hi) lo with heq | ⟨q, hq, heq⟩
        · rw [heq] at hrt
          exact absurd (hrt.trans_lt hlo) (lt_irrefl _)
        · obtain ⟨hq, _, hqlo⟩ := mem_touching.1 hq
          exact Or.inl ⟨q, hq, heq ▸ hrt, hlo.le.trans hqlo⟩
      · rcases lt_or_ge hi t with hhi | hhi
        · rcases greatestEnd_cases (touching ranges lo hi) hi with heq | ⟨q, hq, heq⟩
          · rw [heq] at htr
            exact absurd (hhi.trans_le htr) (lt_irrefl _)
          · obtain ⟨hq, hqhi, _⟩ := mem_touching.1 hq
            exact Or.inl ⟨q, hq, hqhi.trans hhi.le, heq ▸ htr⟩
        · exact Or.inr ⟨hlo, hhi⟩
  · rintro (h | ⟨hlo, hhi⟩)
    · exact within_joinRange h lo hi
    · exact (within_joinRange_self ranges lo hi).mono hlo hhi

/-- The same of half-open ranges. -/
theorem inside_joinRange : (∃ r ∈ joinRange ranges lo hi, Inside r t) ↔
    (∃ r ∈ ranges, Inside r t) ∨ Inside (lo, hi) t := by
  constructor
  · rintro ⟨r, hr, hrt, htr⟩
    rcases List.mem_append.1 hr with hr | hr
    · exact Or.inl ⟨r, (List.mem_filter.1 hr).1, hrt, htr⟩
    · rw [List.mem_singleton] at hr
      subst hr
      rcases lt_or_ge t lo with hlo | hlo
      · rcases leastStart_cases (touching ranges lo hi) lo with heq | ⟨q, hq, heq⟩
        · rw [heq] at hrt
          exact absurd (hrt.trans_lt hlo) (lt_irrefl _)
        · obtain ⟨hq, _, hqlo⟩ := mem_touching.1 hq
          exact Or.inl ⟨q, hq, heq ▸ hrt, hlo.trans_le hqlo⟩
      · rcases lt_or_ge t hi with hhi | hhi
        · exact Or.inr ⟨hlo, hhi⟩
        · rcases greatestEnd_cases (touching ranges lo hi) hi with heq | ⟨q, hq, heq⟩
          · rw [heq] at htr
            exact absurd (hhi.trans_lt htr) (lt_irrefl _)
          · obtain ⟨hq, hqhi, _⟩ := mem_touching.1 hq
            exact Or.inl ⟨q, hq, hqhi.trans hhi, heq ▸ htr⟩
  · rintro (⟨r, hr, hrt, htr⟩ | ⟨hlo, hhi⟩)
    · obtain ⟨q, hq, hqr, hrq⟩ := within_joinRange ⟨r, hr, le_rfl, le_rfl⟩ lo hi
      exact ⟨q, hq, hqr.trans hrt, htr.trans_le hrq⟩
    · obtain ⟨q, hq, hqlo, hqhi⟩ := within_joinRange_self ranges lo hi
      exact ⟨q, hq, hqlo.trans hlo, hhi.trans_le hqhi⟩

/-! ## What stays apart -/

/-- Of any two ranges one ends before the other starts, and none ends before it starts. -/
structure TouchFree (ranges : List (α × α)) : Prop where
  proper : ∀ r ∈ ranges, r.1 ≤ r.2
  apart : ranges.Pairwise fun r q => r.2 < q.1 ∨ q.2 < r.1

/-- The joined range is apart from the ranges it did not meet. -/
theorem TouchFree.joined_apart (h : TouchFree ranges) {r : α × α} (hr : r ∈ ranges)
    (hfree : ¬ (r.1 ≤ hi ∧ lo ≤ r.2)) :
    r.2 < leastStart (touching ranges lo hi) lo ∨
      greatestEnd (touching ranges lo hi) hi < r.1 := by
  have hproper := h.proper r hr
  -- the ranges that were met are on the same side as the new one
  have hmet : ∀ q ∈ touching ranges lo hi, r.2 < q.1 ∨ q.2 < r.1 := by
    intro q hq
    obtain ⟨hq, hqmet⟩ := mem_touching.1 hq
    have hne : r ≠ q := fun heq => hfree (heq ▸ hqmet)
    have hsymm : Std.Symm fun x y : α × α => x.2 < y.1 ∨ y.2 < x.1 := ⟨fun _ _ => Or.symm⟩
    exact h.apart.forall hr hq hne
  by_cases hstart : r.1 ≤ hi
  · have hend : r.2 < lo := lt_of_not_ge fun hle => hfree ⟨hstart, hle⟩
    left
    rcases leastStart_cases (touching ranges lo hi) lo with heq | ⟨q, hq, heq⟩
    · rwa [heq]
    · rw [heq]
      rcases hmet q hq with hlt | hlt
      · exact hlt
      · have hqlo := (mem_touching.1 hq).2.2
        exact absurd (hqlo.trans_lt hlt) (not_lt_of_ge (hproper.trans hend.le))
  · have hbegin : hi < r.1 := lt_of_not_ge hstart
    right
    rcases greatestEnd_cases (touching ranges lo hi) hi with heq | ⟨q, hq, heq⟩
    · rwa [heq]
    · rw [heq]
      rcases hmet q hq with hlt | hlt
      · have hqhi := (mem_touching.1 hq).2.1
        exact absurd (hlt.trans_le hqhi) (not_lt_of_ge (hbegin.le.trans hproper))
      · exact hlt

theorem touchFree_joinRange (h : TouchFree ranges) (hlohi : lo ≤ hi) :
    TouchFree (joinRange ranges lo hi) where
  proper r hr := by
    rcases List.mem_append.1 hr with hr | hr
    · exact h.proper r (List.mem_filter.1 hr).1
    · rw [List.mem_singleton] at hr
      subst hr
      exact (leastStart_le _ _).trans (hlohi.trans (le_greatestEnd _ _))
  apart := by
    refine List.pairwise_append.2 ⟨h.apart.filter _, List.pairwise_singleton _ _, ?_⟩
    intro r hr q hq
    rw [List.mem_singleton] at hq
    subst hq
    obtain ⟨hr, hfree⟩ := List.mem_filter.1 hr
    refine h.joined_apart hr fun hmeet => ?_
    simp [hmeet.1, hmeet.2] at hfree

end IllumioOps.Ranges
