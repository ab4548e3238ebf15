import Mathlib.Data.List.Basic

/-!
# Regular expressions and their alternatives

A regular expression is read at its top level only: alternatives, each a sequence of parts. A part is
whatever takes a match on from a place to further ones; the places it reaches may depend on the groups
captured so far, and what it reaches is tried in order. Anchors written around the text of an expression
bind tighter than its alternation: the first joins the first alternative and the second the last one
(`anchored`). `matchesStart_anchored` says what becomes of a match.
-/

set_option autoImplicit false

namespace IllumioOps.Text

/-- How far a match has come, and the groups captured on the way. -/
structure Place where
  pos : Nat
  groups : List (Option (Nat × Nat))
  deriving DecidableEq, Repr

def Place.start : Place := ⟨0, []⟩

/-- A part of an expression: the places it leads to in a text, in the order they are tried. -/
abbrev Part : Type := List Char → Place → List Place

/-- `^`, at the start of the text. -/
def startAnchor : Part := fun _ place => if place.pos = 0 then [place] else []

/-- The end of the text, or its last character where that is a line feed. -/
def AtEnd (text : List Char) (pos : Nat) : Prop :=
  pos = text.length ∨ pos + 1 = text.length ∧ text.getLast? = some '\n'

instance (text : List Char) (pos : Nat) : Decidable (AtEnd text pos) := by
  unfold AtEnd
  infer_instance

/-- `$` -/
def endAnchor : Part := fun text place => if AtEnd text place.pos then [place] else []

/-- A single character. -/
def oneOf (p : Char → Bool) : Part := fun text place =>
  if (text[place.pos]?).any p then [{ place with pos := place.pos + 1 }] else []

/-- As many characters as there are, then fewer. -/
def manyOf (p : Char → Bool) : Part := fun text place =>
  let run := ((text.drop place.pos).takeWhile p).length
  (List.range (run + 1)).reverse.map fun n => { place with pos := place.pos + n }

/-- The parts of an alternative, one after the other. -/
abbrev Branch : Type := List Part

/-- A text without characters of a meaning of their own. -/
def literal (text : String) : Branch := text.toList.map fun c => oneOf (· == c)

def Branch.leads (text : List Char) : Branch → Place → List Place
  | [], place => [place]
  | part :: parts, place => (part text place).flatMap (Branch.leads text parts)

/-- The last alternative and those before it. -/
structure Regex where
  earlier : List Branch
  last : Branch

namespace Regex

def alternatives (r : Regex) : List Branch := r.earlier ++ [r.last]

/-- An expression with `^` written before it and `$` after it. -/
def anchored (r : Regex) : Regex :=
  match r.earlier with
  | [] => ⟨[], startAnchor :: r.last ++ [endAnchor]⟩
  | first :: rest => ⟨(startAnchor :: first) :: rest, r.last ++ [endAnchor]⟩

/-- `re.match`: an alternative leads from the start to anywhere. -/
def matchesStart (r : Regex) (text : List Char) : Bool :=
  r.alternatives.any fun branch => !(branch.leads text .start).isEmpty

/-- `re.fullmatch`: an alternative leads from the start to the end. The texts with one are the language. -/
def matchesWhole (r : Regex) (text : List Char) : Bool :=
  r.alternatives.any fun branch => (branch.leads text .start).any fun place => place.pos == text.length

end Regex

/-! ## Anchors in an alternative -/

variable {text : List Char} {branch : Branch} {place : Place} {r : Regex}

theorem leads_append (parts : Branch) :
    Branch.leads text (branch ++ parts) place =
      (Branch.leads text branch place).flatMap (Branch.leads text parts) := by
  induction branch generalizing place with
  | nil => simp [Branch.leads]
  | cons part branch ih =>
      have hrest : (fun place => Branch.leads text (branch ++ parts) place) =
          fun place => (Branch.leads text branch place).flatMap (Branch.leads text parts) :=
        funext fun place => ih
      simp only [List.cons_append, Branch.leads, List.flatMap_assoc]
      rw [← hrest]

theorem leads_startAnchor : Branch.leads text (startAnchor :: branch) .start =
    Branch.leads text branch .start := by
  simp [Branch.leads, startAnchor, Place.start]

theorem mem_leads_endAnchor {reached : Place} :
    reached ∈ Branch.leads text (branch ++ [endAnchor]) place ↔
      reached ∈ Branch.leads text branch place ∧ AtEnd text reached.pos := by
  rw [leads_append]
  have hlast (p : Place) : Branch.leads text [endAnchor] p = if AtEnd text p.pos then [p] else [] := by
    by_cases h : AtEnd text p.pos <;> simp [Branch.leads, endAnchor, h]
  constructor
  · intro h
    obtain ⟨p, hp, hreached⟩ := List.mem_flatMap.mp h
    rw [hlast] at hreached
    split at hreached
    · rename_i hend
      rw [List.mem_singleton.mp hreached]
      exact ⟨hp, hend⟩
    · exact absurd hreached List.not_mem_nil
  · rintro ⟨hreached, hend⟩
    refine List.mem_flatMap.mpr ⟨reached, hreached, ?_⟩
    rw [hlast, if_pos hend]
    exact List.mem_singleton_self _

/-! ## Matching an anchored expression -/

/-- An alternative matches a beginning of the text. -/
def Branch.Begins (branch : Branch) (text : List Char) : Prop :=
  branch.leads text .start ≠ []

/-- An alternative matches the text up to its end, or up to a last line feed. -/
def Branch.Ends (branch : Branch) (text : List Char) : Prop :=
  ∃ place ∈ branch.leads text .start, AtEnd text place.pos

theorem matchesStart_iff : r.matchesStart text = true ↔
    (∃ branch ∈ r.earlier, branch.Begins text) ∨ r.last.Begins text := by
  simp only [Regex.matchesStart, Regex.alternatives, List.any_append, Bool.or_eq_true, List.any_eq_true,
    List.mem_singleton, Branch.Begins, Bool.not_eq_true', ne_eq, List.isEmpty_eq_false_iff, exists_eq_left]

theorem matchesWhole_iff : r.matchesWhole text = true ↔
    ∃ branch ∈ r.alternatives, ∃ place ∈ branch.leads text .start, place.pos = text.length := by
  simp only [Regex.matchesWhole, List.any_eq_true, beq_iff_eq]

theorem begins_startAnchor : Branch.Begins (startAnchor :: branch) text ↔ branch.Begins text := by
  rw [Branch.Begins, leads_startAnchor, Branch.Begins]

theorem begins_endAnchor : Branch.Begins (branch ++ [endAnchor]) text ↔ branch.Ends text := by
  constructor
  · intro hbegins
    obtain ⟨place, hplace⟩ := List.exists_mem_of_ne_nil _ hbegins
    obtain ⟨hleads, hend⟩ := mem_leads_endAnchor.mp hplace
    exact ⟨place, hleads, hend⟩
  · rintro ⟨place, hleads, hend⟩
    exact List.ne_nil_of_mem (mem_leads_endAnchor.mpr ⟨hleads, hend⟩)

/-- With anchors written around it an expression matches from the start where an alternative but the last
matches a beginning of the text, or the last one all of it. -/
theorem matchesStart_anchored : r.anchored.matchesStart text = true ↔
    (∃ branch ∈ r.earlier, branch.Begins text) ∨ r.last.Ends text := by
  rw [matchesStart_iff]
  obtain ⟨earlier, last⟩ := r
  cases earlier with
  | nil =>
      have hlast : Branch.Begins (startAnchor :: (last ++ [endAnchor])) text ↔ last.Ends text := by
        rw [begins_startAnchor, begins_endAnchor]
      simpa [Regex.anchored] using hlast
  | cons first rest =>
      simp only [Regex.anchored, begins_endAnchor, List.mem_cons, exists_eq_or_imp, begins_startAnchor]

/-- A text of the language is matched. -/
theorem matchesStart_of_matchesWhole (h : r.matchesWhole text = true) :
    r.anchored.matchesStart text = true := by
  rw [matchesStart_anchored]
  obtain ⟨branch, hbranch, place, hplace, hpos⟩ := matchesWhole_iff.mp h
  rcases List.mem_append.mp hbranch with hearlier | hlast
  · exact .inl ⟨branch, hearlier, List.ne_nil_of_mem hplace⟩
  · rw [List.mem_singleton.mp hlast] at hplace
    exact .inr ⟨place, hplace, .inl hpos⟩

end IllumioOps.Text
