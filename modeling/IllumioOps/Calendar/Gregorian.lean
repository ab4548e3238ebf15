import Mathlib.Data.Int.Init
import Mathlib.Tactic.IntervalCases

/-!
# The Gregorian calendar

Dates are numbers, date 0 being 1970-01-01. A month is counted from January of the year 0, so its year
is the quotient by twelve. The months lie one after the other (`monthStart_succ`), every date is in one
of them (`monthStart_monthOf_le`, `lt_monthStart_monthOf`), and so a day of the month comes again within
two months (`exists_dayOf`).
-/

set_option autoImplicit false

namespace IllumioOps.Calendar

/-- `calendar.isleap` -/
def isLeap (year : Int) : Bool := year % 4 = 0 && (year % 100 ≠ 0 || year % 400 = 0)

/-- The first of January. -/
def yearStart (year : Int) : Int :=
  365 * (year - 1) + (year - 1) / 4 - (year - 1) / 100 + (year - 1) / 400 - 719162

/-- The days of the months of a common year. -/
def monthDays : List Int := [31, 28, 31, 30, 31, 30, 31, 31, 30, 31, 30, 31]

/-- The days before each month of a common year. -/
def daysBefore : List Int := [0, 31, 59, 90, 120, 151, 181, 212, 243, 273, 304, 334]

/-- `calendar.monthrange(..)[1]` -/
def monthLength (month : Int) : Int :=
  monthDays.getD (month % 12).toNat 0 + if month % 12 = 1 ∧ isLeap (month / 12) then 1 else 0

/-- The first of the month. -/
def monthStart (month : Int) : Int :=
  yearStart (month / 12) + daysBefore.getD (month % 12).toNat 0 +
    if 2 ≤ month % 12 ∧ isLeap (month / 12) then 1 else 0

/-- The month a date is in: a first guess from the mean length of a month, or the one before or after. -/
def monthOf (date : Int) : Int :=
  let guess := (date + 719162) * 4800 / 146097 + 12
  if monthStart (guess + 1) ≤ date then guess + 1
  else if monthStart guess ≤ date then guess
  else guess - 1

/-- `date.day` -/
def dayOf (date : Int) : Int := date - monthStart (monthOf date) + 1

/-- `date.weekday()`: Monday is 0. -/
def weekday (date : Int) : Int := (date + 3) % 7

variable {year month date day : Int}

/-! ## Years and months -/

theorem yearStart_succ :
    yearStart (year + 1) = yearStart year + 365 + if isLeap year then 1 else 0 := by
  simp only [yearStart, isLeap, Bool.and_eq_true, Bool.or_eq_true, decide_eq_true_eq]
  split <;> omega

/-- The months of a year by their number in it. -/
theorem month_cases (motive : Int → Prop) (h0 : motive 0) (h1 : motive 1) (h2 : motive 2)
    (h3 : motive 3) (h4 : motive 4) (h5 : motive 5) (h6 : motive 6) (h7 : motive 7) (h8 : motive 8)
    (h9 : motive 9) (h10 : motive 10) (h11 : motive 11) : motive (month % 12) := by
  have hlo : 0 ≤ month % 12 := Int.emod_nonneg _ (by omega)
  have hhi : month % 12 < 12 := Int.emod_lt_of_pos _ (by omega)
  generalize month % 12 = m at hlo hhi
  interval_cases m <;> assumption

variable (month) in
theorem monthLength_bounds : 28 ≤ monthLength month ∧ monthLength month ≤ 31 := by
  obtain ⟨hlo, hhi, hfebruary⟩ : 28 ≤ monthDays.getD (month % 12).toNat 0 ∧
      monthDays.getD (month % 12).toNat 0 ≤ 31 ∧
      (month % 12 = 1 → monthDays.getD (month % 12).toNat 0 = 28) := by
    refine month_cases (fun m => 28 ≤ monthDays.getD m.toNat 0 ∧ monthDays.getD m.toNat 0 ≤ 31 ∧
      (m = 1 → monthDays.getD m.toNat 0 = 28)) ?_ ?_ ?_ ?_ ?_ ?_ ?_ ?_ ?_ ?_ ?_ ?_ <;> decide
  rw [monthLength]
  split
  · rename_i h
    have := hfebruary h.1
    omega
  · omega

variable (month) in
/-- A month begins where the one before ends. -/
theorem monthStart_succ : monthStart (month + 1) = monthStart month + monthLength month := by
  have hyear : yearStart (month / 12 + 1) =
      yearStart (month / 12) + 365 + if isLeap (month / 12) then 1 else 0 := yearStart_succ
  by_cases hlast : month % 12 = 11
  · have hquot : (month + 1) / 12 = month / 12 + 1 := by omega
    have hmod : (month + 1) % 12 = 0 := by omega
    rw [monthStart, monthStart, monthLength, hquot, hmod, hlast, hyear]
    by_cases hleap : isLeap (month / 12) <;> simp [hleap, daysBefore, monthDays] <;> omega
  · have hquot : (month + 1) / 12 = month / 12 := by omega
    have hmod : (month + 1) % 12 = month % 12 + 1 := by omega
    rw [monthStart, monthStart, monthLength, hquot, hmod]
    have hstep : ∀ leap : Bool, month % 12 ≠ 11 →
        daysBefore.getD (month % 12 + 1).toNat 0 + (if 2 ≤ month % 12 + 1 ∧ leap then 1 else 0) =
          daysBefore.getD (month % 12).toNat 0 + (if 2 ≤ month % 12 ∧ leap then 1 else 0) +
            (monthDays.getD (month % 12).toNat 0 + if month % 12 = 1 ∧ leap then 1 else 0) := by
      intro leap
      refine month_cases (fun m => m ≠ 11 →
        daysBefore.getD (m + 1).toNat 0 + (if 2 ≤ m + 1 ∧ leap then 1 else 0) =
          daysBefore.getD m.toNat 0 + (if 2 ≤ m ∧ leap then 1 else 0) +
            (monthDays.getD m.toNat 0 + if m = 1 ∧ leap then 1 else 0))
        ?_ ?_ ?_ ?_ ?_ ?_ ?_ ?_ ?_ ?_ ?_ ?_ <;> cases leap <;> decide
    have := hstep (isLeap (month / 12)) hlast
    omega

theorem monthStart_lt_of_lt {i j : Int} (h : i < j) : monthStart i + 28 ≤ monthStart j := by
  induction j, (show i + 1 ≤ j from h) using Int.leInduction with
  | base =>
    rw [monthStart_succ]
    have := (monthLength_bounds i).1
    omega
  | succ j hij ih =>
    have hlt := ih hij
    rw [monthStart_succ]
    have := (monthLength_bounds j).1
    omega

/-! ## The month of a date -/

variable (month) in
/-- The start of a month is near the place it would have if all months had the mean length, 146097 / 4800
days. -/
theorem monthStart_near :
    (month - 12) * 146097 - 30000 ≤ (monthStart month + 719162) * 4800 ∧
      (monthStart month + 719162) * 4800 ≤ (month - 12) * 146097 + 30000 := by
  have hdays : ∀ leap : Bool,
      (month % 12) * 146097 - 20000 ≤ (daysBefore.getD (month % 12).toNat 0 +
        if 2 ≤ month % 12 ∧ leap then 1 else 0) * 4800 ∧
      (daysBefore.getD (month % 12).toNat 0 + if 2 ≤ month % 12 ∧ leap then 1 else 0) * 4800 ≤
        (month % 12) * 146097 + 20000 := by
    intro leap
    refine month_cases (fun m => m * 146097 - 20000 ≤ (daysBefore.getD m.toNat 0 +
        if 2 ≤ m ∧ leap then 1 else 0) * 4800 ∧
      (daysBefore.getD m.toNat 0 + if 2 ≤ m ∧ leap then 1 else 0) * 4800 ≤ m * 146097 + 20000)
      ?_ ?_ ?_ ?_ ?_ ?_ ?_ ?_ ?_ ?_ ?_ ?_ <;> cases leap <;> decide
  have hyear : (month / 12 - 1) * 146097 - 800 ≤ (yearStart (month / 12) + 719162) * 400 ∧
      (yearStart (month / 12) + 719162) * 400 ≤ (month / 12 - 1) * 146097 + 800 := by
    rw [yearStart]
    omega
  have hsplit : month = 12 * (month / 12) + month % 12 := (Int.mul_ediv_add_emod month 12).symm
  have hdays := hdays (isLeap (month / 12))
  rw [monthStart]
  omega

variable (date) in
theorem monthStart_monthOf_le : monthStart (monthOf date) ≤ date := by
  rw [monthOf]
  split
  · assumption
  · split
    · assumption
    · have := (monthStart_near ((date + 719162) * 4800 / 146097 + 12 - 1)).2
      omega

variable (date) in
theorem lt_monthStart_monthOf : date < monthStart (monthOf date + 1) := by
  rw [monthOf]
  split
  · have := (monthStart_near ((date + 719162) * 4800 / 146097 + 12 + 1 + 1)).1
    omega
  · split
    · exact lt_of_not_ge (by assumption)
    · rw [Int.sub_add_cancel]
      exact lt_of_not_ge (by assumption)

/-- A date is in one month only. -/
theorem monthOf_eq (hlo : monthStart month ≤ date) (hhi : date < monthStart (month + 1)) :
    monthOf date = month := by
  have hlo' := monthStart_monthOf_le date
  have hhi' := lt_monthStart_monthOf date
  rcases lt_trichotomy (monthOf date) month with hlt | heq | hgt
  · rcases (Int.add_one_le_iff.2 hlt).lt_or_eq with hlt | heq
    · have := monthStart_lt_of_lt hlt
      omega
    · rw [heq] at hhi'
      omega
  · exact heq
  · rcases (Int.add_one_le_iff.2 hgt).lt_or_eq with hlt | heq
    · have := monthStart_lt_of_lt hlt
      omega
    · rw [heq] at hhi
      omega

/-- Within two months every day of the month comes, or the last day of a shorter month. -/
theorem exists_dayOf (date : Int) (hday : 1 ≤ day) :
    ∃ d, date ≤ d ∧ d ≤ date + 61 ∧ dayOf d = min day (monthLength (monthOf d)) := by
  have hlo := monthStart_monthOf_le date
  have hhi := lt_monthStart_monthOf date
  -- the month after the date's own
  have hstart := monthStart_succ (monthOf date)
  have hlength := (monthLength_bounds (monthOf date)).2
  obtain ⟨hshort, hlong⟩ := monthLength_bounds (monthOf date + 1)
  have hmin : 1 ≤ min day (monthLength (monthOf date + 1)) := le_min hday (by omega)
  have hmax : min day (monthLength (monthOf date + 1)) ≤ monthLength (monthOf date + 1) :=
    min_le_right _ _
  have hmonth : monthOf (monthStart (monthOf date + 1) +
      min day (monthLength (monthOf date + 1)) - 1) = monthOf date + 1 :=
    monthOf_eq (by omega) (by rw [monthStart_succ (monthOf date + 1)]; omega)
  refine ⟨monthStart (monthOf date + 1) + min day (monthLength (monthOf date + 1)) - 1, ?_, ?_, ?_⟩
  · omega
  · omega
  · rw [dayOf, hmonth]
    omega

/-- Within a week every weekday comes. -/
theorem exists_weekday (date : Int) (hlo : 0 ≤ day) (hhi : day ≤ 6) :
    ∃ d, date ≤ d ∧ d ≤ date + 6 ∧ weekday d = day := by
  refine ⟨date + (day - weekday date) % 7, ?_, ?_, ?_⟩ <;> simp only [weekday] <;> omega

end IllumioOps.Calendar
