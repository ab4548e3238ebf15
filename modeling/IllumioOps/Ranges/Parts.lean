import Mathlib.Data.List.Sort
import Mathlib.Data.Prod.Lex
import Mathlib.Order.MinMax
import Mathlib.Tactic.Order

/-!
# Ranges with parts cut out, and marked ranges merged

A range is half-open: it holds the points from its start on that are before its end. `subtract` cuts
ranges out of a range; what is left are the points of the range in none of them
(`inside_subtract`), whatever ranges are cut, empty ones included.

`mergeMarked` joins the ranges of one mark that overlap or touch. The points of every mark stay
(`inside_mergeMarked`), no two ranges of a mark overlap or touch (`apart_mergeMarked`), and merging
again changes nothing (`mergeMarked_idem`).
-/

set_option autoImplicit false

namespace IllumioOps.Ranges

variable {α ρ : Type} [LinearOrder α] [LinearOrder ρ]

/-- The range holds the point. -/
def Inside (r : α × α) (t : α) : Prop := r.1 ≤ t ∧ t < r.2

instance (r : α × α) (t : α) : Decidable (Inside r t) := by
  unfold Inside
  infer_instance

/-! ## Cutting -/

/-- What is left of a part. -/
def cutPart (cut part : α × α) : List (α × α) :=
  if cut.2 ≤ part.1 ∨ part.2 ≤ cut.1 then [part]
  else (if part.1 < cut.1 then [(part.1, cut.1)] else []) ++
    if cut.2 < part.2 then [(cut.2, part.2)] else []

/-- The parts of a range that the cuts leave. -/
def subtract (window : α × α) (cuts : List (α × α)) : List (α × α) :=
  cuts.foldl (fun parts cut => parts.flatMap (cutPart cut)) [window]

variable {t : α}

theorem mem_cutPart {cut part p : α × α} :
    p ∈ cutPart cut part ↔
      if cut.2 ≤ part.1 ∨ part.2 ≤ cut.1 then p = part
      else part.1 < cut.1 ∧ p = (part.1, cut.1) ∨ cut.2 < part.2 ∧ p = (cut.2, part.2) := by
  unfold cutPart
  split
  · exact List.mem_singleton
  · rw [List.mem_append]
    refine or_congr ?_ ?_
    all_goals
      split
      · next h => simp [h]
      · next h => simp [h]

/-- A cut takes the points of the cut out of a part, and no others. -/
theorem inside_cutPart (cut part : α × α) :
    (∃ p ∈ cutPart cut part, Inside p t) ↔ Inside part t ∧ ¬ Inside cut t := by
  simp only [mem_cutPart, Inside]
  split
  · next hapart =>
    -- the cut is beside the part
    constructor
    · rintro ⟨p, rfl, hstart, hstop⟩
      refine ⟨⟨hstart, hstop⟩, fun hcut => ?_⟩
      rcases hapart with hapart | hapart <;> order
    · rintro ⟨hpart, -⟩
      exact ⟨part, rfl, hpart⟩
  · next hmeet =>
    rw [not_or, not_le, not_le] at hmeet
    obtain ⟨hafter, hbefore⟩ := hmeet
    constructor
    · rintro ⟨p, ⟨-, rfl⟩ | ⟨-, rfl⟩, hstart, hstop⟩
      · exact ⟨⟨hstart, by order⟩, fun hcut => by order⟩
      · exact ⟨⟨by order, hstop⟩, fun hcut => by order⟩
    · rintro ⟨⟨hstart, hstop⟩, hcut⟩
      rcases lt_or_ge t cut.1 with hlt | hge
      · exact ⟨(part.1, cut.1), Or.inl ⟨by order, rfl⟩, hstart, hlt⟩
      · -- at or after the start of the cut and not in it: at or after its end
        have hend : cut.2 ≤ t := le_of_not_gt fun hlt => hcut ⟨hge, hlt⟩
        exact ⟨(cut.2, part.2), Or.inr ⟨by order, rfl⟩, hend, hstop⟩

/-- What the cuts leave are the points in none of them. -/
theorem inside_subtract (window : α × α) (cuts : List (α × α)) :
    (∃ p ∈ subtract window cuts, Inside p t) ↔
      Inside window t ∧ ∀ cut ∈ cuts, ¬ Inside cut t := by
  have hfold : ∀ parts : List (α × α),
      (∃ p ∈ cuts.foldl (fun parts cut => parts.flatMap (cutPart cut)) parts, Inside p t) ↔
        (∃ p ∈ parts, Inside p t) ∧ ∀ cut ∈ cuts, ¬ Inside cut t := by
    induction cuts with
    | nil => exact fun parts => by simp
    | cons cut cuts ih =>
        intro parts
        have hone : (∃ p ∈ parts.flatMap (cutPart cut), Inside p t) ↔
            (∃ p ∈ parts, Inside p t) ∧ ¬ Inside cut t := by
          simp only [List.mem_flatMap]
          constructor
          · rintro ⟨p, ⟨part, hpart, hp⟩, hin⟩
            obtain ⟨hleft, hcut⟩ := (inside_cutPart cut part).1 ⟨p, hp, hin⟩
            exact ⟨⟨part, hpart, hleft⟩, hcut⟩
          · rintro ⟨⟨part, hpart, hin⟩, hcut⟩
            obtain ⟨p, hp, hin⟩ := (inside_cutPart cut part).2 ⟨hin, hcut⟩
            exact ⟨p, ⟨part, hpart, hp⟩, hin⟩
        rw [List.foldl_cons, ih, hone, and_assoc, List.forall_mem_cons]
  unfold subtract
  rw [hfold]
  simp

/-! ## Merging -/

/-- A range with a mark. -/
structure Marked (α ρ : Type) where
  start : α
  stop : α
  mark : ρ
  deriving DecidableEq, Repr

namespace Marked

def span (g : Marked α ρ) : α × α := (g.start, g.stop)

/-- The order in which ranges are merged: by mark, then by start. -/
def before (g h : Marked α ρ) : Prop := g.mark < h.mark ∨ g.mark = h.mark ∧ g.start ≤ h.start

/-- The order of the result: by start, then by end, then by mark. -/
def atMost (g h : Marked α ρ) : Prop :=
  g.start < h.start ∨ g.start = h.start ∧ (g.stop < h.stop ∨ g.stop = h.stop ∧ g.mark ≤ h.mark)

instance (g h : Marked α ρ) : Decidable (before g h) := by
  unfold before
  infer_instance

instance (g h : Marked α ρ) : Decidable (atMost g h) := by
  unfold atMost
  infer_instance

/-- Of two ranges of one mark the second starts after the first has ended. -/
def Apart (g h : Marked α ρ) : Prop := g.mark = h.mark → g.stop < h.start

instance : Std.Total (before : Marked α ρ → Marked α ρ → Prop) where
  total g h := by
    unfold before
    rcases lt_trichotomy g.mark h.mark with hlt | heq | hgt
    · exact Or.inl (Or.inl hlt)
    · rcases le_total g.start h.start with hle | hle
      · exact Or.inl (Or.inr ⟨heq, hle⟩)
      · exact Or.inr (Or.inr ⟨heq.symm, hle⟩)
    · exact Or.inr (Or.inl hgt)

instance : IsTrans (Marked α ρ) before where
  trans g h k := by
    unfold before
    rintro (hgh | ⟨hgh, hstart⟩) (hhk | ⟨hhk, hstart'⟩)
    · exact Or.inl (by order)
    · exact Or.inl (by order)
    · exact Or.inl (by order)
    · exact Or.inr ⟨by order, by order⟩

instance : Std.Total (atMost : Marked α ρ → Marked α ρ → Prop) where
  total g h := by
    unfold atMost
    rcases lt_trichotomy g.start h.start with hlt | heq | hgt
    · exact Or.inl (Or.inl hlt)
    · rcases lt_trichotomy g.stop h.stop with hlt | heq' | hgt
      · exact Or.inl (Or.inr ⟨heq, Or.inl hlt⟩)
      · rcases le_total g.mark h.mark with hle | hle
        · exact Or.inl (Or.inr ⟨heq, Or.inr ⟨heq', hle⟩⟩)
        · exact Or.inr (Or.inr ⟨heq.symm, Or.inr ⟨heq'.symm, hle⟩⟩)
      · exact Or.inr (Or.inr ⟨heq.symm, Or.inl hgt⟩)
    · exact Or.inr (Or.inl hgt)

instance : IsTrans (Marked α ρ) atMost where
  trans g h k := by
    unfold atMost
    rintro (hgh | ⟨hgh, hstop | ⟨hstop, hmark⟩⟩) (hhk | ⟨hhk, hstop' | ⟨hstop', hmark'⟩⟩)
    · exact Or.inl (by order)
    · exact Or.inl (by order)
    · exact Or.inl (by order)
    · exact Or.inl (by order)
    · exact Or.inr ⟨by order, Or.inl (by order)⟩
    · exact Or.inr ⟨by order, Or.inl (by order)⟩
    · exact Or.inl (by order)
    · exact Or.inr ⟨by order, Or.inl (by order)⟩
    · exact Or.inr ⟨by order, Or.inr ⟨by order, by order⟩⟩

instance : Std.Antisymm (atMost : Marked α ρ → Marked α ρ → Prop) where
  antisymm g h := by
    unfold atMost
    rintro (hgh | ⟨hgh, hstop | ⟨hstop, hmark⟩⟩) (hhg | ⟨hhg, hstop' | ⟨hstop', hmark'⟩⟩)
    all_goals first | (exfalso; order) | skip
    cases g
    cases h
    exact congr (congr (congrArg Marked.mk hgh) hstop) (le_antisymm hmark hmark')

end Marked

open Marked

/-- The last range takes in one of its mark that it overlaps or touches; the ranges so far come
last first. -/
def absorb (merged : List (Marked α ρ)) (g : Marked α ρ) : List (Marked α ρ) :=
  match merged with
  | last :: rest =>
      if last.mark = g.mark ∧ g.start ≤ last.stop then
        { last with stop := max last.stop g.stop } :: rest
      else g :: last :: rest
  | [] => [g]

/-- The ranges of each mark that overlap or touch are joined. -/
def mergeMarked (ranges : List (Marked α ρ)) : List (Marked α ρ) :=
  (((ranges.insertionSort before).foldl absorb []).reverse).insertionSort atMost

/-! ## What merging keeps -/

/-- A range of this mark holds the point. -/
def Holds (ranges : List (Marked α ρ)) (mark : ρ) (t : α) : Prop :=
  ∃ g ∈ ranges, g.mark = mark ∧ Inside g.span t

omit [LinearOrder ρ] in
theorem Holds.congr {ranges more : List (Marked α ρ)} {mark : ρ}
    (h : ∀ g, g ∈ ranges ↔ g ∈ more) : Holds ranges mark t ↔ Holds more mark t := by
  simp only [Holds, h]

omit [LinearOrder ρ] in
theorem holds_cons {g : Marked α ρ} {ranges : List (Marked α ρ)} {mark : ρ} :
    Holds (g :: ranges) mark t ↔ g.mark = mark ∧ Inside g.span t ∨ Holds ranges mark t := by
  simp [Holds]

omit [LinearOrder ρ] in
theorem holds_append {ranges more : List (Marked α ρ)} {mark : ρ} :
    Holds (ranges ++ more) mark t ↔ Holds ranges mark t ∨ Holds more mark t := by
  simp only [Holds, List.mem_append, or_and_right, exists_or]

/-- Last first, every range comes after the earlier ones and apart from those of its mark. -/
def InTurn (merged : List (Marked α ρ)) : Prop :=
  merged.Pairwise fun later earlier => earlier.before later ∧ earlier.Apart later

/-- A range that comes after all the others joins the last one or is apart from all of them. -/
theorem InTurn.absorb {merged : List (Marked α ρ)} {g : Marked α ρ} (h : InTurn merged)
    (hafter : ∀ e ∈ merged, e.before g) :
    InTurn (absorb merged g) ∧
      (∀ k, g.before k → ∀ e ∈ absorb merged g, e.before k) ∧
      ∀ mark t, Holds (absorb merged g) mark t ↔ Holds (merged ++ [g]) mark t := by
  cases merged with
  | nil =>
      refine ⟨List.pairwise_singleton _ _, fun k hk e he => ?_, fun _ _ => Iff.rfl⟩
      exact List.mem_singleton.1 he ▸ hk
  | cons last rest =>
      have hlast := hafter last List.mem_cons_self
      obtain ⟨hhead, hrest⟩ := List.pairwise_cons.1 h
      unfold Ranges.absorb
      dsimp only
      split
      · next hjoin =>
        obtain ⟨hmark, hmeet⟩ := hjoin
        have hstart : last.start ≤ g.start := by
          rcases hlast with hlt | ⟨-, hle⟩
          · exact absurd hmark hlt.ne
          · exact hle
        refine ⟨List.pairwise_cons.2 ⟨hhead, hrest⟩, fun k hk e he => ?_, fun mark t => ?_⟩
        · rcases List.mem_cons.1 he with rfl | he
          · exact trans_of before hlast hk
          · exact trans_of before (hafter e (List.mem_cons_of_mem _ he)) hk
        · rw [holds_cons, List.cons_append, holds_cons, holds_append, holds_cons]
          have hspan : Inside (last.start, max last.stop g.stop) t ↔
              Inside last.span t ∨ Inside g.span t := by
            simp only [Inside, Marked.span, lt_max_iff]
            constructor
            · rintro ⟨hle, hlt | hlt⟩
              · exact Or.inl ⟨hle, hlt⟩
              · rcases lt_or_ge t last.stop with hin | hout
                · exact Or.inl ⟨hle, hin⟩
                · exact Or.inr ⟨by order, hlt⟩
            · rintro (⟨hle, hlt⟩ | ⟨hle, hlt⟩)
              · exact ⟨hle, Or.inl hlt⟩
              · exact ⟨by order, Or.inr hlt⟩
          have hnone : ¬ Holds ([] : List (Marked α ρ)) mark t := by simp [Holds]
          simp only [Marked.span] at hspan ⊢
          rw [hspan, ← hmark]
          tauto
      · next hjoin =>
        have hapart : ∀ e ∈ last :: rest, e.Apart g := by
          intro e he hmark
          rcases List.mem_cons.1 he with rfl | he
          · exact lt_of_not_ge fun hle => hjoin ⟨hmark, hle⟩
          · -- the last one lies between: it has the same mark
            obtain ⟨hbefore, hsplit⟩ := hhead e he
            have hmarks : e.mark = last.mark ∧ last.start ≤ g.start := by
              rcases hbefore with hlt | ⟨heq, -⟩ <;> rcases hlast with hlt' | ⟨heq', hle⟩
              · exact absurd hmark (by order)
              · exact absurd hmark (by order)
              · exact absurd hmark (by order)
              · exact ⟨heq, hle⟩
            exact (hsplit hmarks.1).trans_le hmarks.2
        refine ⟨List.pairwise_cons.2 ⟨fun e he => ⟨hafter e he, hapart e he⟩, h⟩,
          fun k hk e he => ?_, fun mark t => ?_⟩
        · rcases List.mem_cons.1 he with rfl | he
          · exact hk
          · exact trans_of before (hafter e he) hk
        · apply Holds.congr
          intro e
          simp only [List.mem_cons, List.mem_append, List.not_mem_nil, or_false]
          tauto

/-- Merging ranges that come in order. -/
theorem InTurn.foldl_absorb {ranges merged : List (Marked α ρ)} (h : InTurn merged)
    (hsorted : ranges.Pairwise before) (hafter : ∀ e ∈ merged, ∀ g ∈ ranges, e.before g) :
    InTurn (ranges.foldl Ranges.absorb merged) ∧
      ∀ mark t, Holds (ranges.foldl Ranges.absorb merged) mark t ↔
        Holds (merged ++ ranges) mark t := by
  induction ranges generalizing merged with
  | nil => exact ⟨h, fun mark t => by rw [List.append_nil]; rfl⟩
  | cons g ranges ih =>
      obtain ⟨hg, hsorted⟩ := List.pairwise_cons.1 hsorted
      obtain ⟨hturn, hbefore, hholds⟩ :=
        h.absorb fun e he => hafter e he g List.mem_cons_self
      obtain ⟨hturn', hholds'⟩ := ih hturn hsorted fun e he k hk => hbefore k (hg k hk) e he
      refine ⟨hturn', fun mark t => ?_⟩
      rw [List.foldl_cons, hholds', holds_append, hholds, holds_append, or_assoc, ← holds_append,
        List.singleton_append, ← holds_append]

/-- Every mark keeps its points. -/
theorem inside_mergeMarked (ranges : List (Marked α ρ)) (mark : ρ) (t : α) :
    Holds (mergeMarked ranges) mark t ↔ Holds ranges mark t := by
  obtain ⟨-, hholds⟩ := InTurn.foldl_absorb (List.Pairwise.nil : InTurn ([] : List (Marked α ρ)))
    (List.pairwise_insertionSort before ranges) fun e he => absurd he List.not_mem_nil
  have hsame : Holds (mergeMarked ranges) mark t ↔
      Holds ((ranges.insertionSort before).foldl absorb []) mark t := by
    apply Holds.congr
    intro g
    unfold mergeMarked
    rw [List.mem_insertionSort, List.mem_reverse]
  rw [hsame, hholds, List.nil_append]
  exact Holds.congr fun g => List.mem_insertionSort before

/-- The result is sorted. -/
theorem sorted_mergeMarked (ranges : List (Marked α ρ)) :
    (mergeMarked ranges).Pairwise atMost := List.pairwise_insertionSort _ _

/-- No two ranges of a mark overlap or touch. -/
theorem apart_mergeMarked (ranges : List (Marked α ρ)) :
    (mergeMarked ranges).Pairwise Apart := by
  obtain ⟨hturn, -⟩ := InTurn.foldl_absorb (List.Pairwise.nil : InTurn ([] : List (Marked α ρ)))
    (List.pairwise_insertionSort before ranges) fun e he => absurd he List.not_mem_nil
  -- in the order of the merge or in the other one
  have heither : (mergeMarked ranges).Pairwise fun g h =>
      (g.before h ∧ g.Apart h) ∨ (h.before g ∧ h.Apart g) := by
    have hperm := List.perm_insertionSort atMost
      ((ranges.insertionSort before).foldl absorb []).reverse
    refine (hperm.trans (List.reverse_perm _)).symm.pairwise
      (List.Pairwise.imp (fun h => Or.inr h) hturn) fun h => h.symm
  refine (heither.and (sorted_mergeMarked ranges)).imp ?_
  rintro g h ⟨⟨-, hapart⟩ | ⟨hbefore, hapart⟩, hsorted⟩ hmark
  · exact hapart hmark
  · -- the other way round the starts are equal, and the first range is empty
    have hstop := hapart hmark.symm
    have hstart : h.start ≤ g.start := by
      rcases hbefore with hlt | ⟨-, hle⟩
      · exact absurd hmark hlt.ne'
      · exact hle
    rcases hsorted with hlt | ⟨heq, hlt | ⟨heq', -⟩⟩ <;> order

/-! ## Merging again -/

/-- Ranges that are in order by mark and start, and apart, are not joined. -/
theorem foldl_absorb_of_apart {ranges merged : List (Marked α ρ)}
    (h : (merged.reverse ++ ranges).Pairwise Apart) :
    ranges.foldl absorb merged = ranges.reverse ++ merged := by
  induction ranges generalizing merged with
  | nil => rfl
  | cons g ranges ih =>
      have hstep : absorb merged g = g :: merged := by
        cases merged with
        | nil => rfl
        | cons last rest =>
            have hapart : last.Apart g := by
              have hcross := (List.pairwise_append.1 h).2.2
              exact hcross last (by simp) g List.mem_cons_self
            exact if_neg fun hjoin => absurd hjoin.2 (not_le_of_gt (hapart hjoin.1))
      rw [List.foldl_cons, hstep, ih (by simpa using h)]
      simp

/-- Sorted by mark and start, ranges that are apart stay so: of one mark they keep their order. -/
theorem apart_insertionSort {ranges : List (Marked α ρ)} (hsorted : ranges.Pairwise atMost)
    (hapart : ranges.Pairwise Apart) : (ranges.insertionSort before).Pairwise Apart := by
  induction ranges with
  | nil => exact List.Pairwise.nil
  | cons g ranges ih =>
      obtain ⟨hg, hsorted⟩ := List.pairwise_cons.1 hsorted
      obtain ⟨hgapart, hapart⟩ := List.pairwise_cons.1 hapart
      rw [List.insertionSort_cons]
      -- what the range is put behind has another mark
      have hput : ∀ rest : List (Marked α ρ), rest.Pairwise Apart →
          (∀ h ∈ rest, g.atMost h ∧ g.Apart h) →
          (rest.orderedInsert before g).Pairwise Apart := by
        intro rest hrest hall
        induction rest with
        | nil => exact List.pairwise_singleton _ _
        | cons h rest ihput =>
            obtain ⟨hh, hrest⟩ := List.pairwise_cons.1 hrest
            rw [List.orderedInsert_cons]
            split
            · exact List.pairwise_cons.2 ⟨fun k hk => (hall k hk).2,
                List.pairwise_cons.2 ⟨hh, hrest⟩⟩
            · next hnot =>
              refine List.pairwise_cons.2 ⟨fun k hk => ?_,
                ihput hrest fun k hk => hall k (List.mem_cons_of_mem _ hk)⟩
              rcases (List.mem_orderedInsert before).1 hk with rfl | hk
              · intro hmark
                have hstart : k.start ≤ h.start := by
                  rcases (hall h List.mem_cons_self).1 with hlt | ⟨heq, -⟩ <;> order
                exact absurd (Or.inr ⟨hmark.symm, hstart⟩) hnot
              · exact hh k hk
      refine hput _ (ih hsorted hapart) fun h hh => ?_
      rw [List.mem_insertionSort] at hh
      exact ⟨hg h hh, hgapart h hh⟩

/-- Merging again changes nothing. -/
theorem mergeMarked_idem (ranges : List (Marked α ρ)) :
    mergeMarked (mergeMarked ranges) = mergeMarked ranges := by
  have hapart := apart_insertionSort (sorted_mergeMarked ranges) (apart_mergeMarked ranges)
  have hfold : ((mergeMarked ranges).insertionSort before).foldl absorb [] =
      ((mergeMarked ranges).insertionSort before).reverse := by
    rw [foldl_absorb_of_apart (by simpa using hapart), List.append_nil]
  rw [mergeMarked, hfold, List.reverse_reverse]
  -- the same ranges, in the same order
  have hperm : List.Perm (((mergeMarked ranges).insertionSort before).insertionSort atMost)
      (mergeMarked ranges) :=
    (List.perm_insertionSort _ _).trans (List.perm_insertionSort _ _)
  exact hperm.eq_of_pairwise' (List.pairwise_insertionSort _ _) (sorted_mergeMarked ranges)

end IllumioOps.Ranges
