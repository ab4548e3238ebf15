import Mathlib.Data.List.Basic
import Mathlib.Logic.Function.Iterate

/-!
# A backlog worked off from its head

A turn takes the first `n` rows and drops those that are done; the others go back to the head, and
the next turn takes them again. After `k` turns the rows up to `reach k` were taken, and the ones
left over stand before the rest (`turn_iterate`). A turn takes as many new rows as `n` exceeds the
rows left over, so `n` of these stop the backlog for good (`reach_le_of_stuck`).
-/

set_option autoImplicit false

namespace IllumioOps.Backlog

variable {α : Type} (n : Nat) (done : α → Bool)

/-- One turn. -/
def turn (rows : List α) : List α := (rows.take n).filter (fun r => !done r) ++ rows.drop n

/-- The rows at the head that are left over. -/
def leftOver (rows : List α) : Nat := (rows.filter fun r => !done r).length

/-- How far into the rows the turns have come. -/
def reach (rows : List α) : Nat → Nat
  | 0 => 0
  | k + 1 => reach rows k + (n - leftOver done (rows.take (reach rows k)))

variable {n done} {rows : List α} {i j k : Nat}

theorem leftOver_append {front back : List α} :
    leftOver done (front ++ back) = leftOver done front + leftOver done back := by
  rw [leftOver, List.filter_append, List.length_append]
  rfl

variable (done rows) in
theorem leftOver_le : leftOver done rows ≤ rows.length := List.length_filter_le _ _

variable (done rows) in
/-- Between two places there are no more rows left over than rows. -/
theorem leftOver_take_le (hle : i ≤ j) :
    leftOver done (rows.take j) ≤ leftOver done (rows.take i) + (j - i) := by
  have hsplit : rows.take j = rows.take i ++ (rows.drop i).take (j - i) := by
    rw [← List.take_add, Nat.add_sub_cancel' hle]
  rw [hsplit, leftOver_append]
  have hle := leftOver_le done ((rows.drop i).take (j - i))
  have hlength : ((rows.drop i).take (j - i)).length ≤ j - i := by
    rw [List.length_take]
    exact Nat.min_le_left _ _
  omega

/-- A turn never takes less rows than are left over. -/
theorem leftOver_reach_le : leftOver done (rows.take (reach n done rows k)) ≤ n := by
  induction k with
  | zero => simp [reach, leftOver]
  | succ k ih =>
      have hle := leftOver_take_le done rows
        (Nat.le_add_right (reach n done rows k)
          (n - leftOver done (rows.take (reach n done rows k))))
      rw [reach]
      omega

/-- What the turns leave. -/
theorem turn_iterate : (turn n done)^[k] rows =
    (rows.take (reach n done rows k)).filter (fun r => !done r) ++
      rows.drop (reach n done rows k) := by
  induction k with
  | zero => simp [reach]
  | succ k ih =>
      have hlength : ((rows.take (reach n done rows k)).filter fun r => !done r).length ≤ n :=
        leftOver_reach_le
      rw [Function.iterate_succ_apply', ih, turn, reach]
      -- the rows left over, and as many new ones as fit
      rw [List.take_append, List.drop_append, List.take_of_length_le hlength,
        List.drop_of_length_le hlength, List.nil_append, List.filter_append, List.filter_filter,
        List.take_add, List.filter_append, List.drop_drop]
      simp only [Bool.and_self]
      rfl

/-- All is done after `k` turns exactly when the turns came to every row that can be. -/
theorem turn_iterate_done_iff : (∀ r ∈ (turn n done)^[k] rows, done r = false) ↔
    ∀ r ∈ rows.drop (reach n done rows k), done r = false := by
  rw [turn_iterate]
  constructor
  · exact fun h r hr => h r (List.mem_append_right _ hr)
  · intro h r hr
    rcases List.mem_append.1 hr with hr | hr
    · exact Bool.not_eq_true' _ ▸ (List.mem_filter.1 hr).2
    · exact h r hr

variable (k) in
/-- Once `n` rows are left over, the turns come no further. -/
theorem reach_le_of_stuck (hstuck : n ≤ leftOver done (rows.take j)) :
    reach n done rows k ≤ j := by
  induction k with
  | zero => exact Nat.zero_le _
  | succ k ih =>
      have hle := leftOver_take_le done rows ih
      rw [reach]
      omega

end IllumioOps.Backlog
