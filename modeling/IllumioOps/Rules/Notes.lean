import IllumioOps.Rules.NextChange
import IllumioOps.Text.Escaped
import Mathlib.Data.List.Infix
import Mathlib.Data.List.ReduceOption
import Mathlib.Data.List.TakeWhile

/-!
# Notes in a description

The note of a plan in the description of its target, written by `with_note` and removed by `strip_notes`.
A note is a bracket with an icon up to the next closing bracket; removing takes the notes out in one pass
from the left. What is left is the owner's text, and it stays as it is as long as no bracket of it comes to
stand before an icon of it (`notes_laws_iff`).
-/

set_option autoImplicit false

namespace IllumioOps.RuleSchedules

/-! ## The notes of the plans -/

def icons : List Char := ['📅', '⏳', '⏰']

/-- A text that is a note, and holds no other closing bracket. -/
def IsNote (note : List Char) : Prop :=
  ∃ icon ∈ icons, ∃ body, ']' ∉ body ∧ note = '[' :: icon :: (body ++ [']'])

/-- `d.capitalize()` -/
def dayText : PlanChanges.Weekday → String
  | .mon => "Mon"
  | .tue => "Tue"
  | .wed => "Wed"
  | .thu => "Thu"
  | .fri => "Fri"
  | .sat => "Sat"
  | .sun => "Sun"

/-- `_days_text`: the days in the order of the week. -/
def daysText (days : List PlanChanges.Weekday) : List PlanChanges.Weekday :=
  [PlanChanges.Weekday.mon, .tue, .wed, .thu, .fri, .sat, .sun].filter fun d => decide (d ∈ days)

/-- A plan with the name of its time zone and the text of its expiry there; neither has a bracket. -/
structure NamedPlan where
  plan : PlanChanges.Plan
  timezone : List Char
  expiryText : List Char
  timezone_ok : ']' ∉ timezone
  expiryText_ok : ']' ∉ expiryText

/-- What stands between the icon and the closing bracket. -/
def NamedPlan.body (p : NamedPlan) : List Char :=
  match p.plan with
  | .expiry _ => " Expires: ".toList ++ p.expiryText ++ " (".toList ++ p.timezone ++ [')']
  | .weekly w =>
      " Recurring: ".toList ++ [','].intercalate ((daysText w.days).map fun d => (dayText d).toList) ++ [' '] ++
        w.start.text ++ ['-'] ++ w.stop.text ++ " (".toList ++ p.timezone ++ ") ".toList ++
        (if w.enableInWindow then "Enable in window" else "Disable in window").toList

/-- `note` -/
def NamedPlan.note (p : NamedPlan) : List Char :=
  let icon := match p.plan with
    | .expiry _ => '⏰'
    | .weekly _ => '📅'
  '[' :: icon :: (p.body ++ [']'])

/-- The plan as the schedules hold it. -/
def NamedPlan.scheduled (p : NamedPlan) : Plan := p.plan.scheduled (String.ofList p.note)

theorem note_scheduled (p : NamedPlan) : p.scheduled.note = String.ofList p.note := by
  rw [NamedPlan.scheduled]
  cases p.plan <;> rfl

theorem bracket_not_mem_time (x : PlanChanges.Time) : ']' ∉ x.text := by
  have hread := x.read
  have hdigit : ∀ {c : Char}, (PlanChanges.digit? c).isSome → c ≠ ']' := by
    rintro c hc rfl
    revert hc
    decide +kernel
  unfold PlanChanges.hhmm? at hread
  split at hread
  case h_1 a b c d rest heq =>
    simp only [Option.bind_eq_bind, Option.bind_eq_some_iff, Option.guard_eq_some', Option.pure_def] at hread
    obtain ⟨-, hrest, -, -, -, -, _, ha, _, hb, _, hc, _, hd, -⟩ := hread
    have ha' := hdigit (c := a) (by rw [ha]; rfl)
    have hb' := hdigit (c := b) (by rw [hb]; rfl)
    have hc' := hdigit (c := c) (by rw [hc]; rfl)
    have hd' := hdigit (c := d) (by rw [hd]; rfl)
    have hrest' : ']' ∉ rest := by
      rcases hrest with rfl | rfl <;> decide
    rw [heq]
    simp only [List.mem_cons, not_or]
    exact ⟨ha'.symm, hb'.symm, by decide, hc'.symm, hd'.symm, hrest'⟩
  case h_2 => cases hread

theorem bracket_not_mem_days (days : List PlanChanges.Weekday) :
    ']' ∉ [','].intercalate ((daysText days).map fun d => (dayText d).toList) := by
  intro h
  rcases Text.mem_of_mem_intercalate h with hsep | ⟨text, htext, hmem⟩
  · exact absurd hsep (by decide)
  · obtain ⟨d, -, rfl⟩ := List.mem_map.1 htext
    cases d <;> exact absurd hmem (by decide)

/-- The note of a plan is a note. -/
theorem isNote_note (p : NamedPlan) : IsNote p.note := by
  have hbody : ']' ∉ p.body := by
    rw [NamedPlan.body]
    cases p.plan with
    | expiry t =>
      simp only [List.mem_append, not_or]
      exact ⟨⟨⟨⟨by decide, p.expiryText_ok⟩, by decide⟩, p.timezone_ok⟩, by decide⟩
    | weekly w =>
      have haction : ']' ∉ (if w.enableInWindow then "Enable in window" else "Disable in window").toList := by
        split <;> decide
      simp only [List.mem_append, not_or]
      exact ⟨⟨⟨⟨⟨⟨⟨⟨⟨by decide, bracket_not_mem_days _⟩, by decide⟩, bracket_not_mem_time _⟩, by decide⟩,
        bracket_not_mem_time _⟩, by decide⟩, p.timezone_ok⟩, by decide⟩, haction⟩
  rw [NamedPlan.note]
  cases p.plan with
  | expiry t => exact ⟨'⏰', by decide, _, hbody, rfl⟩
  | weekly w => exact ⟨'📅', by decide, _, hbody, rfl⟩

/-! ## Where a note stands -/

/-- The text starts with white space and a note, and goes on with the rest. -/
def NoteAt (text rest : List Char) : Prop :=
  ∃ space note, (∀ c ∈ space, isSpace c = true) ∧ IsNote note ∧ text = space ++ (note ++ rest)

/-- A text as it is read: its characters, and none for a note with the white space before it. -/
inductive Pieces : List Char → List (Option Char) → Prop
  | nil : Pieces [] []
  | note {text rest : List Char} {ps : List (Option Char)} (h : NoteAt text rest)
      (hrest : Pieces rest ps) : Pieces text (none :: ps)
  | char {c : Char} {rest : List Char} {ps : List (Option Char)} (h : ∀ r, ¬ NoteAt (c :: rest) r)
      (hrest : Pieces rest ps) : Pieces (c :: rest) (some c :: ps)

/-- A bracket that is kept, then an icon that is kept, with nothing but notes between them. -/
def Rejoins (ps : List (Option Char)) : Prop :=
  ∃ before k icon after, icon ∈ icons ∧
    ps = before ++ some '[' :: (List.replicate k none ++ some icon :: after)

/-- A bracket stands before an icon. -/
def Opens (text : List Char) : Prop :=
  ∃ before icon after, icon ∈ icons ∧ text = before ++ '[' :: icon :: after

theorem isSpace_bracket : isSpace '[' = false := by decide

theorem isSpace_icon {icon : Char} (h : icon ∈ icons) : isSpace icon = false := by
  have hall : (icons.all fun c => !isSpace c) = true := by decide
  simpa using List.all_eq_true.1 hall icon h

theorem dropWhile_space {space rest : List Char} {c : Char} (hspace : ∀ c ∈ space, isSpace c = true)
    (hc : isSpace c = false) : (space ++ c :: rest).dropWhile isSpace = c :: rest := by
  rw [List.dropWhile_append_of_pos hspace, List.dropWhile_cons_of_neg (by simp [hc])]

theorem dropWhile_bracket {body rest : List Char} (hbody : ']' ∉ body) :
    (body ++ ']' :: rest).dropWhile (fun c => decide (c ≠ ']')) = ']' :: rest := by
  have hall : ∀ c ∈ body, decide (c ≠ ']') = true := fun c hc => decide_eq_true fun h => hbody (h ▸ hc)
  rw [List.dropWhile_append_of_pos hall, List.dropWhile_cons_of_neg (by simp)]

theorem afterNote_isNote {note rest : List Char} (h : IsNote note) :
    afterNote (note ++ rest) = some rest := by
  obtain ⟨icon, hicon, body, hbody, rfl⟩ := h
  have htext : '[' :: icon :: (body ++ [']']) ++ rest = '[' :: icon :: (body ++ ']' :: rest) := by simp
  rw [htext, afterNote, if_pos (show icon ∈ ['📅', '⏳', '⏰'] from hicon), dropWhile_bracket hbody]

theorem isNote_of_afterNote {text rest : List Char} (h : afterNote text = some rest) :
    ∃ note, IsNote note ∧ text = note ++ rest := by
  rw [afterNote.eq_def] at h
  split at h
  · rename_i icon more
    split at h
    · rename_i hicon
      have hsplit := List.takeWhile_append_dropWhile (p := fun c => decide (c ≠ ']')) (l := more)
      have hbody : ']' ∉ more.takeWhile fun c => decide (c ≠ ']') := fun hmem => by
        have := List.mem_takeWhile_imp hmem
        simp at this
      have hhead := List.head?_dropWhile_not (fun c => decide (c ≠ ']')) more
      split at h
      · cases h
      · rename_i head after hdrop
        obtain rfl := Option.some.inj h
        rw [hdrop] at hsplit hhead
        obtain rfl : head = ']' := by simpa using hhead
        refine ⟨'[' :: icon :: (more.takeWhile (fun c => decide (c ≠ ']')) ++ [']']),
          ⟨icon, hicon, _, hbody, rfl⟩, ?_⟩
        conv_lhs => rw [← hsplit]
        simp
    · cases h
  · cases h

theorem noteAt_iff {text rest : List Char} :
    NoteAt text rest ↔ afterNote (text.dropWhile isSpace) = some rest := by
  constructor
  · rintro ⟨space, note, hspace, hnote, rfl⟩
    have hafter : afterNote (note ++ rest) = some rest := afterNote_isNote hnote
    obtain ⟨icon, hicon, body, hbody, rfl⟩ := hnote
    rw [List.cons_append, dropWhile_space hspace isSpace_bracket]
    exact hafter
  · intro h
    obtain ⟨note, hnote, heq⟩ := isNote_of_afterNote h
    refine ⟨text.takeWhile isSpace, note, fun c hc => List.mem_takeWhile_imp hc, hnote, ?_⟩
    rw [← heq, List.takeWhile_append_dropWhile]

theorem NoteAt.length_lt {text rest : List Char} (h : NoteAt text rest) : rest.length < text.length := by
  obtain ⟨space, note, -, ⟨icon, -, body, -, rfl⟩, rfl⟩ := h
  simp
  omega

/-! ## Reading a text -/

/-- What is left of the pieces. -/
def kept (ps : List (Option Char)) : List Char := ps.reduceOption

theorem exists_pieces (text : List Char) : ∃ ps, Pieces text ps := by
  induction hn : text.length using Nat.strong_induction_on generalizing text with
  | _ n ih =>
    cases text with
    | nil => exact ⟨[], .nil⟩
    | cons c rest =>
      by_cases hnote : ∃ r, NoteAt (c :: rest) r
      · obtain ⟨r, hr⟩ := hnote
        obtain ⟨ps, hps⟩ := ih _ (hn ▸ hr.length_lt) r rfl
        exact ⟨none :: ps, .note hr hps⟩
      · obtain ⟨ps, hps⟩ := ih rest.length (by rw [← hn]; exact Nat.lt_succ_self _) rest rfl
        exact ⟨some c :: ps, .char (fun r hr => hnote ⟨r, hr⟩) hps⟩

theorem withoutNotes_note {n : Nat} {text rest : List Char} (h : NoteAt text rest) :
    withoutNotes (n + 1) text = withoutNotes n rest := by
  have hafter := noteAt_iff.1 h
  conv_lhs => unfold withoutNotes
  generalize afterNote (text.dropWhile isSpace) = a at *
  subst hafter
  cases text <;> rfl

theorem withoutNotes_char {n : Nat} {c : Char} {rest : List Char} (h : ∀ r, ¬ NoteAt (c :: rest) r) :
    withoutNotes (n + 1) (c :: rest) = c :: withoutNotes n rest := by
  have hafter : afterNote ((c :: rest).dropWhile isSpace) = none :=
    Option.eq_none_iff_forall_ne_some.2 fun r hr => h r (noteAt_iff.2 hr)
  conv_lhs => unfold withoutNotes
  generalize afterNote ((c :: rest).dropWhile isSpace) = a at *
  subst hafter
  rfl

/-- The pass over a text leaves what is left of its pieces. -/
theorem withoutNotes_eq {text : List Char} {ps : List (Option Char)} (h : Pieces text ps) {n : Nat}
    (hn : text.length ≤ n) : withoutNotes n text = kept ps := by
  induction h generalizing n with
  | nil =>
    cases n with
    | zero => rfl
    | succ n => rfl
  | @note text rest ps hnote _ ih =>
    have hlt := hnote.length_lt
    cases n with
    | zero => omega
    | succ n =>
      rw [withoutNotes_note hnote]
      exact ih (by omega)
  | @char c rest ps hnot _ ih =>
    cases n with
    | zero => simp at hn
    | succ n =>
      rw [withoutNotes_char hnot, ih (by simpa using hn)]
      rfl

/-- Removing makes no text longer, and leaves one as long only where no note stands. -/
theorem length_kept {text : List Char} {ps : List (Option Char)} (h : Pieces text ps) :
    (kept ps).length ≤ text.length ∧
      ((kept ps).length = text.length →
        kept ps = text ∧ ∀ before after r, text = before ++ after → ¬ NoteAt after r) := by
  induction h with
  | nil =>
    refine ⟨Nat.le_refl _, fun _ => ⟨rfl, fun before after r heq hnote => ?_⟩⟩
    have hlt := hnote.length_lt
    have hnil : after = [] := (List.append_eq_nil_iff.1 heq.symm).2
    rw [hnil] at hlt
    exact absurd hlt (Nat.not_lt_zero _)
  | @note text rest ps hnote _ ih =>
    have hlt := hnote.length_lt
    have hkept : kept (none :: ps) = kept ps := rfl
    rw [hkept]
    exact ⟨by omega, fun heq => by omega⟩
  | @char c rest ps hnot _ ih =>
    have hkept : kept (some c :: ps) = c :: kept ps := rfl
    rw [hkept, List.length_cons, List.length_cons]
    refine ⟨by omega, fun heq => ?_⟩
    obtain ⟨hsame, hnone⟩ := ih.2 (by omega)
    refine ⟨by rw [hsame], fun before after r hsplit => ?_⟩
    cases before with
    | nil =>
      rw [List.nil_append] at hsplit
      exact hsplit ▸ hnot r
    | cons b before =>
      obtain ⟨-, hrest⟩ := List.cons.inj hsplit
      exact hnone before after r hrest

/-- A note starts with a bracket before an icon. -/
theorem NoteAt.opens {text rest : List Char} (h : NoteAt text rest) : Opens text := by
  obtain ⟨space, note, -, ⟨icon, hicon, body, -, rfl⟩, rfl⟩ := h
  exact ⟨space, icon, body ++ [']'] ++ rest, hicon, by simp⟩

theorem Opens.append_left {text : List Char} (h : Opens text) (before : List Char) :
    Opens (before ++ text) := by
  obtain ⟨a, icon, b, hicon, rfl⟩ := h
  exact ⟨before ++ a, icon, b, hicon, by simp⟩

theorem Opens.append_right {text : List Char} (h : Opens text) (after : List Char) :
    Opens (text ++ after) := by
  obtain ⟨a, icon, b, hicon, rfl⟩ := h
  exact ⟨a, icon, b ++ after, hicon, by simp⟩

/-- The first character that is left has notes before it. -/
theorem kept_eq_cons {ps : List (Option Char)} {c : Char} {rest : List Char}
    (h : kept ps = c :: rest) : ∃ k after, ps = List.replicate k none ++ some c :: after := by
  induction ps with
  | nil => simp [kept] at h
  | cons piece ps ih =>
    cases piece with
    | none =>
      obtain ⟨k, after, rfl⟩ := ih h
      exact ⟨k + 1, after, rfl⟩
    | some x =>
      obtain ⟨rfl, -⟩ := List.cons.inj (show x :: kept ps = c :: rest from h)
      exact ⟨0, ps, rfl⟩

/-- What is left opens a bracket before an icon when one comes to stand there. -/
theorem opens_kept_iff {ps : List (Option Char)} : Opens (kept ps) ↔ Rejoins ps := by
  constructor
  · rintro ⟨before, icon, after, hicon, heq⟩
    induction ps generalizing before with
    | nil => simp [kept] at heq
    | cons piece ps ih =>
      cases piece with
      | none =>
        obtain ⟨b, k, i, a, hi, rfl⟩ := ih before heq
        exact ⟨none :: b, k, i, a, hi, rfl⟩
      | some c =>
        have hkept : kept (some c :: ps) = c :: kept ps := rfl
        rw [hkept] at heq
        cases before with
        | nil =>
          obtain ⟨rfl, hrest⟩ := List.cons.inj heq
          obtain ⟨k, a, rfl⟩ := kept_eq_cons hrest
          exact ⟨[], k, icon, a, hicon, rfl⟩
        | cons x before =>
          obtain ⟨-, hrest⟩ := List.cons.inj heq
          obtain ⟨b, k, i, a, hi, rfl⟩ := ih before hrest
          exact ⟨some c :: b, k, i, a, hi, rfl⟩
  · rintro ⟨before, k, icon, after, hicon, rfl⟩
    refine ⟨kept before, icon, kept after, hicon, ?_⟩
    have hnotes : (List.replicate k (none : Option Char)).reduceOption = [] :=
      List.reduceOption_replicate_none
    simp only [kept, List.reduceOption_append, List.reduceOption_cons_of_some, hnotes, List.nil_append]

/-- A text without such a bracket stays as it is. -/
theorem kept_eq_of_not_opens {text : List Char} {ps : List (Option Char)} (h : Pieces text ps)
    (hopens : ¬ Opens text) : kept ps = text := by
  induction h with
  | nil => rfl
  | note hnote _ _ => exact absurd hnote.opens hopens
  | @char c rest ps _ _ ih =>
    have hrest : ¬ Opens rest := fun h => hopens (h.append_left [c])
    exact congrArg (c :: ·) (ih hrest)

/-! ## White space around a text -/

theorem dropWhile_append_cons {p : Char → Bool} {a b : List Char} {x : Char} (hx : p x = false) :
    (a ++ x :: b).dropWhile p = a.dropWhile p ++ x :: b := by
  induction a with
  | nil => simp [hx]
  | cons c a ih =>
    cases hc : p c with
    | true => simpa [hc] using ih
    | false => simp [hc]

/-- A bracket before an icon is no white space. -/
theorem opens_strip_iff {text : List Char} : Opens (strip text) ↔ Opens text := by
  constructor
  · intro h
    obtain ⟨before, hbefore⟩ := List.dropWhile_suffix isSpace (l := text)
    obtain ⟨after, hafter⟩ := List.dropWhile_suffix isSpace (l := (text.dropWhile isSpace).reverse)
    have hsplit : before ++ (strip text ++ after.reverse) = text := by
      rw [strip, ← List.reverse_append, hafter, List.reverse_reverse, hbefore]
    rw [← hsplit]
    exact (h.append_right _).append_left _
  · rintro ⟨before, icon, after, hicon, rfl⟩
    rw [strip, dropWhile_append_cons isSpace_bracket]
    simp only [List.reverse_append, List.reverse_cons, List.append_assoc, List.cons_append,
      List.nil_append]
    rw [dropWhile_append_cons (isSpace_icon hicon)]
    exact ⟨before.dropWhile isSpace, icon, (after.reverse.dropWhile isSpace).reverse, hicon, by simp⟩

/-- No white space stands at the ends. -/
def Stripped (text : List Char) : Prop :=
  (∀ c ∈ text.head?, isSpace c = false) ∧ ∀ c ∈ text.getLast?, isSpace c = false

theorem strip_eq_self {text : List Char} (h : Stripped text) : strip text = text := by
  have hfront : ∀ l : List Char, (∀ c ∈ l.head?, isSpace c = false) → l.dropWhile isSpace = l := by
    intro l hl
    cases l with
    | nil => rfl
    | cons c l => simp [hl c rfl]
  rw [strip, hfront text h.1, hfront text.reverse (by rw [List.head?_reverse]; exact h.2),
    List.reverse_reverse]

theorem stripped_strip (text : List Char) : Stripped (strip text) := by
  have hfront : ∀ l : List Char, ∀ c ∈ (l.dropWhile isSpace).head?, isSpace c = false := by
    intro l c hc
    have h := List.head?_dropWhile_not isSpace l
    rw [Option.mem_def] at hc
    rw [hc] at h
    simpa using h
  constructor
  · intro c hc
    -- the front is that of the text without the white space before it
    obtain ⟨after, hafter⟩ := List.dropWhile_suffix isSpace (l := (text.dropWhile isSpace).reverse)
    have hsplit : strip text ++ after.reverse = text.dropWhile isSpace := by
      rw [strip, ← List.reverse_append, hafter, List.reverse_reverse]
    refine hfront text c ?_
    rw [← hsplit]
    exact List.mem_head?_append_of_mem_head? hc
  · intro c hc
    rw [strip, List.getLast?_reverse] at hc
    exact hfront _ c hc

theorem length_strip (text : List Char) : (strip text).length ≤ text.length := by
  rw [strip, List.length_reverse]
  have h := (List.dropWhile_suffix isSpace (l := (text.dropWhile isSpace).reverse)).length_le
  have h' := (List.dropWhile_suffix isSpace (l := text)).length_le
  rw [List.length_reverse] at h
  omega

/-! ## The laws -/

/-- `strip_notes`, on the characters. -/
def stripped (text : List Char) : List Char := strip (withoutNotes text.length text)

theorem stripped_eq {text : List Char} {ps : List (Option Char)} (h : Pieces text ps) :
    stripped text = strip (kept ps) := by
  rw [stripped, withoutNotes_eq h (Nat.le_refl _)]

section Laws

variable {own note : List Char}

/-- Before a note that was written, no note stands in the owner's text. -/
theorem not_noteAt_written {c : Char} {rest : List Char} (hopens : ¬ Opens (c :: rest))
    (hlast : ∀ x ∈ (c :: rest).getLast?, isSpace x = false) (r : List Char) :
    ¬ NoteAt ((c :: rest) ++ '\n' :: note) r := by
  rintro ⟨space, note', hspace, ⟨icon, hicon, body, -, rfl⟩, heq⟩
  rcases List.append_eq_append_iff.1 heq with ⟨cs, hcs, hnote⟩ | ⟨cs, hcs, hnote⟩
  · -- the white space goes on past the text, which ends with none
    obtain ⟨x, hx⟩ : ∃ x, x ∈ (c :: rest).getLast? := ⟨_, List.getLast?_eq_some_getLast (by simp)⟩
    have hmem : x ∈ space := hcs ▸ List.mem_append_left cs (List.mem_of_getLast? hx)
    have hnot := hlast x hx
    rw [hspace x hmem] at hnot
    cases hnot
  · cases cs with
    | nil =>
      rw [List.nil_append] at hnote
      exact absurd (List.cons.inj hnote).1 (by decide)
    | cons b cs =>
      simp only [List.cons_append, List.cons.injEq] at hnote
      obtain ⟨rfl, hnote⟩ := hnote
      cases cs with
      | nil =>
        simp only [List.nil_append, List.cons.injEq] at hnote
        obtain ⟨rfl, -⟩ := hnote
        exact absurd hicon (by decide)
      | cons i cs =>
        simp only [List.cons_append, List.cons.injEq] at hnote
        obtain ⟨rfl, -⟩ := hnote
        exact hopens ⟨space, icon, cs, hicon, hcs⟩

/-- A note that was written after the owner's text is taken out again. -/
theorem withoutNotes_written (hnote : IsNote note) {text : List Char} (hopens : ¬ Opens text)
    (hlast : ∀ x ∈ text.getLast?, isSpace x = false) {n : Nat}
    (hn : (text ++ '\n' :: note).length ≤ n) : withoutNotes n (text ++ '\n' :: note) = text := by
  induction text generalizing n with
  | nil =>
    cases n with
    | zero => simp at hn
    | succ n =>
      have hat : NoteAt ('\n' :: note) [] := ⟨['\n'], note, List.forall_mem_singleton.2 (by decide), hnote, by simp⟩
      rw [List.nil_append, withoutNotes_note hat]
      cases n <;> rfl
  | cons c rest ih =>
    cases n with
    | zero => simp at hn
    | succ n =>
      have hrest : ∀ x ∈ rest.getLast?, isSpace x = false := by
        intro x hx
        refine hlast x ?_
        cases rest with
        | nil => cases hx
        | cons y rest => rwa [List.getLast?_cons_cons]
      have hnot : ∀ r, ¬ NoteAt (c :: (rest ++ '\n' :: note)) r := not_noteAt_written hopens hlast
      rw [List.cons_append, withoutNotes_char hnot,
        ih (fun h => hopens (h.append_left [c])) hrest (by simpa using hn)]

/-- Where a bracket before an icon is closed, a note is taken out. -/
theorem stripped_ne_of_noteAt {before after r : List Char} (hown : own = before ++ after)
    (h : NoteAt after r) : stripped own ≠ own := by
  intro heq
  obtain ⟨ps, hps⟩ := exists_pieces own
  rw [stripped_eq hps] at heq
  obtain ⟨hle, hsame⟩ := length_kept hps
  have hlen := length_strip (kept ps)
  rw [heq] at hlen
  exact (hsame (by omega)).2 before after r hown h

/-- What is taken out from a bracket on is all that follows, where the only closing bracket is the last
character. -/
theorem length_kept_of_unclosed {tail : List Char} (htail : ']' ∉ tail)
    (hat : NoteAt (tail ++ [']']) []) {text : List Char} {ps : List (Option Char)}
    (h : Pieces text ps) {before : List Char} (htext : text = before ++ (tail ++ [']'])) :
    (kept ps).length ≤ before.length := by
  induction h generalizing before with
  | nil => exact Nat.zero_le _
  | @note text rest ps hnote hrest ih =>
    have hkept : kept (none :: ps) = kept ps := rfl
    rw [hkept]
    obtain ⟨space, note', -, ⟨icon, -, body, -, rfl⟩, heq⟩ := hnote
    have hsplit : before ++ (tail ++ [']']) =
        (space ++ '[' :: icon :: body ++ [']']) ++ rest := by
      rw [← htext, heq]
      simp
    rcases List.append_eq_append_iff.1 hsplit with ⟨cs, hcs, htl⟩ | ⟨cs, hcs, htl⟩
    · rcases List.eq_nil_or_concat cs with rfl | ⟨cs, x, rfl⟩
      · exact (ih (show rest = [] ++ (tail ++ [']']) from htl.symm)).trans (Nat.zero_le _)
      · -- the note ends within the tail, so at its last character
        rw [List.concat_eq_append, ← List.append_assoc] at hcs
        rw [List.concat_eq_append] at htl
        obtain ⟨-, rfl⟩ := List.append_singleton_inj.1 hcs
        rcases List.eq_nil_or_concat rest with rfl | ⟨r, y, rfl⟩
        · have hle := (length_kept hrest).1
          rw [List.length_nil] at hle
          exact hle.trans (Nat.zero_le _)
        · rw [List.concat_eq_append, ← List.append_assoc] at htl
          obtain ⟨rfl, -⟩ := List.append_singleton_inj.1 htl
          exact absurd (by simp) htail
    · rw [hcs, List.length_append]
      exact (ih htl).trans (Nat.le_add_left _ _)
  | @char c rest ps hnot _ ih =>
    cases before with
    | nil => exact absurd (htext ▸ hat) (hnot [])
    | cons b before =>
      obtain ⟨-, hrest⟩ := List.cons.inj htext
      exact Nat.succ_le_succ (ih hrest)

/-- The owner's text without the notes, and without white space around it. -/
theorem stripped_written (hnote : IsNote note) (hstripped : Stripped own) (hopens : ¬ Opens own) :
    stripped (own ++ '\n' :: note) = own := by
  rw [stripped, withoutNotes_written hnote hopens hstripped.2 (Nat.le_refl _)]
  exact strip_eq_self hstripped

theorem stripped_note (hnote : IsNote note) : stripped note = [] := by
  have hat : NoteAt note [] := ⟨[], note, by simp, hnote, by simp⟩
  have hps : Pieces note [none] := .note hat .nil
  rw [stripped_eq hps]
  rfl

theorem stripped_eq_self (hstripped : Stripped own) (hopens : ¬ Opens own) : stripped own = own := by
  obtain ⟨ps, hps⟩ := exists_pieces own
  rw [stripped_eq hps, kept_eq_of_not_opens hps hopens, strip_eq_self hstripped]

/-- Where a bracket before an icon stays, the text does not stay: a closed one is a note, and one that is
not closed takes what stands before the note that was written with it. -/
theorem ne_of_opens (hnote : IsNote note) (hopens : Opens own) :
    stripped own ≠ own ∨ stripped (own ++ '\n' :: note) ≠ own := by
  obtain ⟨before, icon, after, hicon, rfl⟩ := hopens
  by_cases hclosed : ']' ∈ after
  · obtain ⟨body, rest, rfl, hbody⟩ := List.eq_append_cons_of_mem hclosed
    have hat : NoteAt ('[' :: icon :: (body ++ ']' :: rest)) rest :=
      ⟨[], '[' :: icon :: (body ++ [']']), by simp, ⟨icon, hicon, body, hbody, rfl⟩, by simp⟩
    exact Or.inl (stripped_ne_of_noteAt rfl hat)
  · obtain ⟨icon', hicon', body, hbody, rfl⟩ := hnote
    refine Or.inr fun heq => ?_
    have hicons : ∀ i ∈ icons, ']' ≠ i := fun i hi h => absurd (h ▸ hi) (by decide)
    have htail : ']' ∉ '[' :: icon :: (after ++ '\n' :: '[' :: icon' :: body) := by
      simp only [List.mem_cons, List.mem_append, not_or]
      exact ⟨by decide, hicons icon hicon, hclosed, by decide, by decide, hicons icon' hicon', hbody⟩
    have hat : NoteAt ('[' :: icon :: (after ++ '\n' :: '[' :: icon' :: body) ++ [']']) [] :=
      ⟨[], _, by simp, ⟨icon, hicon, after ++ '\n' :: '[' :: icon' :: body, by
        simp only [List.mem_cons, not_or] at htail
        exact htail.2.2, rfl⟩, by simp⟩
    obtain ⟨ps, hps⟩ := exists_pieces
      (before ++ '[' :: icon :: after ++ '\n' :: '[' :: icon' :: (body ++ [']']))
    have htext : before ++ '[' :: icon :: after ++ '\n' :: '[' :: icon' :: (body ++ [']']) =
        before ++ ('[' :: icon :: (after ++ '\n' :: '[' :: icon' :: body) ++ [']']) := by simp
    have hlen := length_kept_of_unclosed htail hat hps htext
    rw [stripped_eq hps] at heq
    have hle := length_strip (kept ps)
    rw [heq] at hle
    simp at hle
    omega

end Laws

/-! ## Descriptions -/

theorem toList_stripNotes (d : String) : (stripNotes d).toList = stripped d.toList := by
  rw [stripNotes, String.toList_ofList, stripped]

theorem toList_withNote (d : String) (p : NamedPlan) :
    (withNote d p.scheduled).toList =
      if stripped d.toList = [] then p.note else stripped d.toList ++ '\n' :: p.note := by
  have hnote : p.scheduled.note.toList = p.note := by rw [note_scheduled, String.toList_ofList]
  have hempty : stripNotes d = "" ↔ stripped d.toList = [] := by
    rw [← toList_stripNotes, String.toList_eq_nil_iff]
  rw [withNote]
  by_cases h : stripped d.toList = []
  · rw [if_pos h, if_pos (hempty.2 h), hnote]
  · rw [if_neg h, if_neg fun hd => h (hempty.1 hd), String.toList_append, String.toList_append, hnote,
      toList_stripNotes, List.append_assoc]
    rfl

/-- Writing a note and removing it leaves the owner's text, another note takes the place of one, and
removing twice is removing once. -/
structure NoteLaws (d : String) (p q : Plan) : Prop where
  removed : stripNotes (withNote d p) = stripNotes d
  replaced : withNote (withNote d p) q = withNote d q
  again : stripNotes (stripNotes d) = stripNotes d

/-- A note of some plan. -/
def somePlan : NamedPlan where
  plan := .expiry 0
  timezone := []
  expiryText := []
  timezone_ok := List.not_mem_nil
  expiryText_ok := List.not_mem_nil

/-- The laws hold of a description, for all plans, exactly when no bracket of the owner's stands before an
icon of the owner's with nothing but notes between them. Every description is read in some way. -/
theorem notes_laws_iff (d : String) :
    (∃ ps, Pieces d.toList ps) ∧
      ((∀ p q : NamedPlan, NoteLaws d p.scheduled q.scheduled) ↔
        ∀ ps, Pieces d.toList ps → ¬ Rejoins ps) := by
  obtain ⟨ps, hps⟩ := exists_pieces d.toList
  refine ⟨⟨ps, hps⟩, ?_⟩
  have hopens : ∀ {ps}, Pieces d.toList ps → (Opens (stripped d.toList) ↔ Rejoins ps) := fun hps => by
    rw [stripped_eq hps, opens_strip_iff, opens_kept_iff]
  have hstripped : Stripped (stripped d.toList) := by
    rw [stripped_eq hps]
    exact stripped_strip _
  constructor
  · intro hlaws ps' hps' hrejoins
    have hlaw := hlaws somePlan somePlan
    have hne : stripped d.toList ≠ [] := by
      intro hnil
      obtain ⟨before, icon, after, -, heq⟩ := (hopens hps').2 hrejoins
      rw [hnil] at heq
      simp at heq
    rcases ne_of_opens (isNote_note somePlan) ((hopens hps').2 hrejoins) with hne' | hne'
    · refine hne' ?_
      have h := congrArg String.toList hlaw.again
      rwa [toList_stripNotes, toList_stripNotes] at h
    · refine hne' ?_
      have h := congrArg String.toList hlaw.removed
      rwa [toList_stripNotes, toList_withNote, if_neg hne, toList_stripNotes] at h
  · intro hnone p q
    have hno : ¬ Opens (stripped d.toList) := fun h => hnone ps hps ((hopens hps).1 h)
    have hremoved : ∀ p : NamedPlan, stripNotes (withNote d p.scheduled) = stripNotes d := by
      intro p
      refine String.toList_injective ?_
      rw [toList_stripNotes, toList_withNote, toList_stripNotes]
      by_cases hnil : stripped d.toList = []
      · rw [if_pos hnil, hnil]
        exact stripped_note (isNote_note p)
      · rw [if_neg hnil]
        exact stripped_written (isNote_note p) hstripped hno
    refine ⟨hremoved p, ?_, ?_⟩
    · rw [withNote, hremoved p, withNote]
    · refine String.toList_injective ?_
      rw [toList_stripNotes, toList_stripNotes]
      exact stripped_eq_self hstripped hno

/-- The owner opened a bracket before an icon and did not close it: the note that is written closes it, and
takes it along when it is removed. -/
theorem not_laws_openBracket :
    stripNotes "see [⏰ later" = "see [⏰ later" ∧
      stripNotes (withNote "see [⏰ later" somePlan.scheduled) = "see" ∧
      ¬ NoteLaws "see [⏰ later" somePlan.scheduled somePlan.scheduled := by
  have hkept : stripNotes "see [⏰ later" = "see [⏰ later" := by decide +kernel
  have hlost : stripNotes (withNote "see [⏰ later" somePlan.scheduled) = "see" := by decide +kernel
  refine ⟨hkept, hlost, fun h => ?_⟩
  have heq := h.removed
  rw [hkept, hlost] at heq
  exact absurd heq (by decide)

end IllumioOps.RuleSchedules
