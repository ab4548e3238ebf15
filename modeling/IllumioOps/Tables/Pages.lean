import Mathlib.Data.List.Basic
import Mathlib.Order.Lattice

/-!
# Reading an ordered list page by page

Rows are ordered by a key that increases from row to row. A page is the first rows after a key;
the key of its last row is where the next page starts. A page is all the rows up to that key
(`take_eq_filter`), pages put together are all the rows up to the last one's
(`filter_le_append`), and every page takes its share of the rows that were there before others
were added behind them (`length_filter_gt_le`).
-/

set_option autoImplicit false

namespace IllumioOps.Pages

variable {α κ : Type} [LinearOrder κ] {key : α → κ} {rows added : List α} {last : α} {lo hi : κ}
  {n : Nat}

/-- The rows are in the order of their keys. -/
abbrev Ordered (key : α → κ) (rows : List α) : Prop := rows.Pairwise fun a b => key a < key b

theorem Ordered.filter (h : Ordered key rows) (p : α → Bool) : Ordered key (rows.filter p) :=
  List.Pairwise.sublist List.filter_sublist h

/-- Every row of a list is at or before its last one. -/
theorem Ordered.le_last (h : Ordered key rows) (hlast : rows.getLast? = some last) {r : α}
    (hr : r ∈ rows) : key r ≤ key last := by
  obtain ⟨front, rfl⟩ := List.getLast?_eq_some_iff.1 hlast
  rcases List.mem_append.1 hr with hr | hr
  · exact le_of_lt ((List.pairwise_append.1 h).2.2 r hr last (List.mem_singleton.2 rfl))
  · rw [List.mem_singleton.1 hr]

/-- The rows behind a page are after its last one. -/
theorem Ordered.last_lt (h : Ordered key rows) (hlast : (rows.take n).getLast? = some last)
    {r : α} (hr : r ∈ rows.drop n) : key last < key r := by
  have hsplit : Ordered key (rows.take n ++ rows.drop n) := by rwa [List.take_append_drop]
  exact (List.pairwise_append.1 hsplit).2.2 last (List.mem_of_getLast? hlast) r hr

/-- A page is all the rows up to its last one. -/
theorem take_eq_filter (h : Ordered key rows) (hlast : (rows.take n).getLast? = some last) :
    rows.take n = rows.filter fun r => decide (key r ≤ key last) := by
  have hpage : Ordered key (rows.take n) := List.Pairwise.sublist (List.take_sublist n rows) h
  have htake : (rows.take n).filter (fun r => decide (key r ≤ key last)) = rows.take n := by
    refine List.filter_eq_self.2 fun r hr => decide_eq_true ?_
    exact hpage.le_last hlast hr
  have hdrop : (rows.drop n).filter (fun r => decide (key r ≤ key last)) = [] := by
    refine List.filter_eq_nil_iff.2 fun r hr hle => ?_
    exact absurd (of_decide_eq_true hle) (not_le.2 (h.last_lt hlast hr))
  calc rows.take n
      = (rows.take n).filter (fun r => decide (key r ≤ key last)) ++
          (rows.drop n).filter (fun r => decide (key r ≤ key last)) := by
        rw [htake, hdrop, List.append_nil]
    _ = rows.filter fun r => decide (key r ≤ key last) := by
        rw [← List.filter_append, List.take_append_drop]

/-- The rows up to a key, and those from it to the next one. -/
theorem filter_le_append (h : Ordered key rows) (hle : lo ≤ hi) :
    rows.filter (fun r => decide (key r ≤ lo)) ++
        rows.filter (fun r => decide (lo < key r) && decide (key r ≤ hi)) =
      rows.filter fun r => decide (key r ≤ hi) := by
  induction rows with
  | nil => rfl
  | cons r rows ih =>
      obtain ⟨hfirst, hrest⟩ := List.pairwise_cons.1 h
      by_cases hr : key r ≤ lo
      · have hhi : key r ≤ hi := le_trans hr hle
        have hnot : ¬lo < key r := not_lt.2 hr
        simp only [List.filter_cons, hr, hhi, hnot, decide_true, decide_false, Bool.false_and,
          if_true, Bool.false_eq_true, if_false, List.cons_append, ih hrest]
      · -- every later row is after the first key too
        have hnone : (r :: rows).filter (fun q => decide (key q ≤ lo)) = [] := by
          refine List.filter_eq_nil_iff.2 fun q hq hqlo => hr ?_
          have hqlo := of_decide_eq_true hqlo
          rcases List.mem_cons.1 hq with rfl | hq
          · exact hqlo
          · exact le_trans (le_of_lt (hfirst q hq)) hqlo
        rw [hnone, List.nil_append]
        refine List.filter_congr fun q hq => ?_
        have hlo : lo < key q := by
          rcases List.mem_cons.1 hq with rfl | hq
          · exact not_le.1 hr
          · exact lt_trans (not_le.1 hr) (hfirst q hq)
        simp [hlo]

/-- Of the rows that were there before others were added behind them, a page takes as many as it
has room for. -/
theorem length_filter_gt_le (h : Ordered key (rows ++ added))
    (hlast : ((rows ++ added).take n).getLast? = some last) :
    (rows.filter fun r => decide (key last < key r)).length ≤ rows.length - n := by
  have hpage : Ordered key ((rows ++ added).take n) :=
    List.Pairwise.sublist (List.take_sublist n _) h
  have htake : (rows.take n).filter (fun r => decide (key last < key r)) = [] := by
    refine List.filter_eq_nil_iff.2 fun r hr hlt => ?_
    refine absurd (of_decide_eq_true hlt) (not_lt.2 (hpage.le_last hlast ?_))
    rw [List.take_append]
    exact List.mem_append_left _ hr
  calc (rows.filter fun r => decide (key last < key r)).length
      = ((rows.take n ++ rows.drop n).filter fun r => decide (key last < key r)).length := by
        rw [List.take_append_drop]
    _ = ((rows.drop n).filter fun r => decide (key last < key r)).length := by
        rw [List.filter_append, htake, List.nil_append]
    _ ≤ (rows.drop n).length := List.length_filter_le _ _
    _ = rows.length - n := List.length_drop

end IllumioOps.Pages
