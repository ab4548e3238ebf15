import Mathlib.Data.List.Basic

/-!
# Escaped text

A text whose separators and backslashes are escaped by a backslash can be cut at the separators
that are not escaped. `cut` ends a field at the first of them, `pieces` cuts at all of them, and
`pairs` reads keys and values, where a key is the word before its separator. What `escape` wrote is
found again (`readField_escape`, `pairs_spell`). Where the writer escapes the separator but no
backslash, a field is found again exactly when no backslash in it stands at the end or before a
backslash or a separator (`readFields_bare_iff`).
-/

set_option autoImplicit false

namespace IllumioOps.Text

/-! ## Writing -/

/-- Every occurrence of a character replaced by a text. -/
def replace (c : Char) (new : String) (s : String) : String :=
  String.ofList (s.toList.flatMap fun x => if x = c then new.toList else [x])

/-- What is written after the backslash of an escape, for the characters that are escaped. -/
abbrev Escapes : Type := Char → Option Char

def escapeChar (escapes : Escapes) (c : Char) : List Char :=
  match escapes c with
  | some d => ['\\', d]
  | none => [c]

def escape (escapes : Escapes) (s : List Char) : List Char := s.flatMap (escapeChar escapes)

theorem escapeChar_none {escapes : Escapes} {c : Char} (h : escapes c = none) :
    escapeChar escapes c = [c] := by
  rw [escapeChar, h]

/-- Where nothing needs an escape, nothing is escaped. -/
theorem escape_eq_self {escapes : Escapes} {s : List Char} (h : ∀ c ∈ s, escapes c = none) :
    escape escapes s = s := by
  induction s with
  | nil => rfl
  | cons c s ih =>
      rw [escape, List.flatMap_cons, ← escape, escapeChar_none (h c List.mem_cons_self),
        ih fun d hd => h d (List.mem_cons_of_mem _ hd)]
      rfl

/-- A character of a joined text is one of the separator or of a part. -/
theorem mem_of_mem_intercalate {sep : List Char} {l : List (List Char)} {c : Char}
    (h : c ∈ sep.intercalate l) : c ∈ sep ∨ ∃ cs ∈ l, c ∈ cs := by
  induction l with
  | nil =>
      rw [List.intercalate_nil] at h
      exact absurd h List.not_mem_nil
  | cons cs l ih =>
      cases l with
      | nil =>
          rw [List.intercalate_singleton] at h
          exact Or.inr ⟨cs, List.mem_cons_self, h⟩
      | cons ds l =>
          rw [List.intercalate_cons_cons, List.append_assoc] at h
          rcases List.mem_append.1 h with hcs | h
          · exact Or.inr ⟨cs, List.mem_cons_self, hcs⟩
          rcases List.mem_append.1 h with hsep | h
          · exact Or.inl hsep
          rcases ih h with hsep | ⟨es, hes, hc⟩
          · exact Or.inl hsep
          · exact Or.inr ⟨es, List.mem_cons_of_mem _ hes, hc⟩

/-! ## Reading -/

/-- What stands before the first separator that is not escaped, as it is written, and what stands
after it. -/
def cut (sep : Char) : List Char → Option (List Char × List Char)
  | [] => none
  | '\\' :: c :: cs => (cut sep cs).map fun p => ('\\' :: c :: p.1, p.2)
  | c :: cs => if c = sep then some ([], cs) else (cut sep cs).map fun p => (c :: p.1, p.2)

/-- What an escape stands for; a backslash before any other character stands for itself. -/
def unescape (meaning : Escapes) : List Char → List Char
  | [] => []
  | '\\' :: c :: cs =>
      match meaning c with
      | some d => d :: unescape meaning cs
      | none => '\\' :: c :: unescape meaning cs
  | c :: cs => c :: unescape meaning cs

/-- The first field and the text after its separator. -/
def readField (sep : Char) (meaning : Escapes) (s : List Char) : Option (List Char × List Char) :=
  (cut sep s).map fun p => (unescape meaning p.1, p.2)

/-- The first fields and the text after them. -/
def readFields (sep : Char) (meaning : Escapes) :
    Nat → List Char → Option (List (List Char) × List Char)
  | 0, s => some ([], s)
  | n + 1, s =>
      (readField sep meaning s).bind fun field =>
        (readFields sep meaning n field.2).map fun rest => (field.1 :: rest.1, rest.2)

/-- Puts a text before the first of the pieces. -/
def prepend (s : List Char) : List (List Char) → List (List Char)
  | [] => [s]
  | piece :: rest => (s ++ piece) :: rest

/-- The text cut at every separator that is not escaped. -/
def pieces (sep : Char) : List Char → List (List Char)
  | [] => [[]]
  | '\\' :: c :: cs => prepend ['\\', c] (pieces sep cs)
  | c :: cs => if c = sep then [] :: pieces sep cs else prepend [c] (pieces sep cs)

/-- The characters after the last space. -/
def lastWord (s : List Char) : List Char := (s.reverse.takeWhile (· != ' ')).reverse

/-- The characters before the last space. -/
def beforeLastWord (s : List Char) : List Char := ((s.reverse.dropWhile (· != ' ')).drop 1).reverse

/-- The pairs of a key and the pieces after it: but for the last piece, the last word is the next
key. -/
def pairsFrom (meaning : Escapes) (key : List Char) :
    List (List Char) → List (List Char × List Char)
  | [] => []
  | [value] => [(key, unescape meaning value)]
  | piece :: rest =>
      (key, unescape meaning (beforeLastWord piece)) :: pairsFrom meaning (lastWord piece) rest

/-- The keys and values of a text: a key is the word before a separator that is not escaped, and
its value reaches to the next key. -/
def pairs (sep : Char) (meaning : Escapes) (s : List Char) : List (List Char × List Char) :=
  match pieces sep s with
  | [] => []
  | first :: rest => pairsFrom meaning (lastWord first) rest

/-! ## What is written is read back -/

section Written

variable {sep : Char} {escapes meaning : Escapes}

/-- Escapes that are read back, and leave no separator or backslash bare. -/
structure ReadsBack (sep : Char) (escapes meaning : Escapes) : Prop where
  ne : sep ≠ '\\'
  backslash : ∃ d, escapes '\\' = some d
  separator : ∃ d, escapes sep = some d
  meaning : ∀ c d, escapes c = some d → meaning d = some c

/-- A character that is not escaped is neither a backslash nor the separator. -/
theorem ReadsBack.bare (h : ReadsBack sep escapes meaning) {c : Char} (hc : escapes c = none) :
    c ≠ '\\' ∧ c ≠ sep := by
  constructor
  · rintro rfl
    obtain ⟨d, hd⟩ := h.backslash
    rw [hc] at hd
    exact absurd hd (by simp)
  · rintro rfl
    obtain ⟨d, hd⟩ := h.separator
    rw [hc] at hd
    exact absurd hd (by simp)

theorem cut_bare {c : Char} (hc : c ≠ '\\') (cs : List Char) :
    cut sep (c :: cs) =
      if c = sep then some ([], cs) else (cut sep cs).map fun p => (c :: p.1, p.2) := by
  rw [cut.eq_def]
  split
  · contradiction
  · rename_i heq
    exact absurd (List.cons.inj heq).1 hc
  · rename_i heq
    obtain ⟨rfl, rfl⟩ := List.cons.inj heq
    rfl

theorem unescape_bare {c : Char} (hc : c ≠ '\\') (cs : List Char) :
    unescape meaning (c :: cs) = c :: unescape meaning cs := by
  rw [unescape.eq_def]
  split
  · contradiction
  · rename_i heq
    exact absurd (List.cons.inj heq).1 hc
  · rename_i heq
    obtain ⟨rfl, rfl⟩ := List.cons.inj heq
    rfl

theorem pieces_bare {c : Char} (hc : c ≠ '\\') (cs : List Char) :
    pieces sep (c :: cs) =
      if c = sep then [] :: pieces sep cs else prepend [c] (pieces sep cs) := by
  rw [pieces.eq_def]
  split
  · contradiction
  · rename_i heq
    exact absurd (List.cons.inj heq).1 hc
  · rename_i heq
    obtain ⟨rfl, rfl⟩ := List.cons.inj heq
    rfl

theorem cut_escape (h : ReadsBack sep escapes meaning) (s rest : List Char) :
    cut sep (escape escapes s ++ sep :: rest) = some (escape escapes s, rest) := by
  induction s with
  | nil => rw [escape, List.flatMap_nil, List.nil_append, cut_bare h.ne, if_pos rfl]
  | cons c s ih =>
      rw [escape, List.flatMap_cons, ← escape, escapeChar]
      cases hc : escapes c with
      | some d => exact congrArg (Option.map fun p => ('\\' :: d :: p.1, p.2)) ih
      | none =>
          obtain ⟨hslash, hsep⟩ := h.bare hc
          exact (cut_bare hslash _).trans ((if_neg hsep).trans
            (congrArg (Option.map fun p => (c :: p.1, p.2)) ih))

theorem unescape_escape (h : ReadsBack sep escapes meaning) (s : List Char) :
    unescape meaning (escape escapes s) = s := by
  induction s with
  | nil => rfl
  | cons c s ih =>
      rw [escape, List.flatMap_cons, ← escape, escapeChar]
      cases hc : escapes c with
      | some d =>
          show unescape meaning ('\\' :: d :: escape escapes s) = c :: s
          rw [unescape, h.meaning c d hc, ih]
      | none =>
          show unescape meaning (c :: escape escapes s) = c :: s
          rw [unescape_bare (h.bare hc).1, ih]

theorem readField_escape (h : ReadsBack sep escapes meaning) (s rest : List Char) :
    readField sep meaning (escape escapes s ++ sep :: rest) = some (s, rest) := by
  rw [readField, cut_escape h, Option.map_some, unescape_escape h]

theorem readFields_escape_iff (h : ReadsBack sep escapes meaning) {s rest r : List Char} {n : Nat}
    {fields : List (List Char)} :
    readFields sep meaning (n + 1) (escape escapes s ++ sep :: rest) = some (s :: fields, r) ↔
      readFields sep meaning n rest = some (fields, r) := by
  rw [readFields, readField_escape h, Option.bind_some, Option.map_eq_some_iff]
  constructor
  · rintro ⟨p, hp, heq⟩
    obtain ⟨hfields, hr⟩ := Prod.mk.inj heq
    exact hp.trans (congrArg some (Prod.ext (List.cons.inj hfields).2 hr))
  · exact fun hrest => ⟨_, hrest, rfl⟩

theorem prepend_prepend (s t : List Char) (l : List (List Char)) :
    prepend s (prepend t l) = prepend (s ++ t) l := by
  cases l with
  | nil => rfl
  | cons piece rest => rw [prepend, prepend, prepend, List.append_assoc]

theorem prepend_ne_nil (s : List Char) (l : List (List Char)) : prepend s l ≠ [] := by
  cases l <;> exact List.cons_ne_nil _ _

theorem pieces_ne_nil (s : List Char) : pieces sep s ≠ [] := by
  rw [pieces.eq_def]
  split
  · exact List.cons_ne_nil _ _
  · exact prepend_ne_nil _ _
  · split
    · exact List.cons_ne_nil _ _
    · exact prepend_ne_nil _ _

theorem prepend_nil {l : List (List Char)} (hl : l ≠ []) : prepend [] l = l := by
  cases l with
  | nil => contradiction
  | cons piece rest => rfl

theorem pieces_escape (h : ReadsBack sep escapes meaning) (s rest : List Char) :
    pieces sep (escape escapes s ++ rest) = prepend (escape escapes s) (pieces sep rest) := by
  induction s with
  | nil =>
      rw [escape, List.flatMap_nil, List.nil_append]
      exact (prepend_nil (pieces_ne_nil rest)).symm
  | cons c s ih =>
      rw [escape, List.flatMap_cons, ← escape, escapeChar]
      cases hc : escapes c with
      | some d =>
          have hcut : pieces sep ('\\' :: d :: (escape escapes s ++ rest)) =
              prepend ['\\', d] (pieces sep (escape escapes s ++ rest)) := by
            rw [pieces]
          exact hcut.trans ((congrArg _ ih).trans (prepend_prepend _ _ _))
      | none =>
          obtain ⟨hslash, hsep⟩ := h.bare hc
          have hcut : pieces sep (c :: (escape escapes s ++ rest)) =
              prepend [c] (pieces sep (escape escapes s ++ rest)) := by
            rw [pieces_bare hslash, if_neg hsep]
          exact hcut.trans ((congrArg _ ih).trans (prepend_prepend _ _ _))

theorem pieces_word {word : List Char} (hslash : '\\' ∉ word) (hsep : sep ∉ word)
    (rest : List Char) : pieces sep (word ++ rest) = prepend word (pieces sep rest) := by
  induction word with
  | nil => exact (prepend_nil (pieces_ne_nil rest)).symm
  | cons c word ih =>
      have hc : c ≠ '\\' := fun h => hslash (h ▸ List.mem_cons_self)
      have hc' : c ≠ sep := fun h => hsep (h ▸ List.mem_cons_self)
      have htail := ih (fun h => hslash (List.mem_cons_of_mem _ h))
        (fun h => hsep (List.mem_cons_of_mem _ h))
      rw [List.cons_append, pieces_bare hc, if_neg hc', htail, prepend_prepend,
        List.singleton_append]

/-! ## Pairs -/

theorem ne_space_of_mem {word : List Char} (hword : ' ' ∉ word) :
    ∀ c ∈ word.reverse, (c != ' ') = true := by
  intro c hc
  refine bne_iff_ne.2 fun h => hword ?_
  rw [← h]
  exact List.mem_reverse.1 hc

theorem lastWord_of_word {word : List Char} (hword : ' ' ∉ word) : lastWord word = word := by
  have htake : (word.reverse ++ []).takeWhile (· != ' ') =
      word.reverse ++ [].takeWhile (· != ' ') :=
    List.takeWhile_append_of_pos (ne_space_of_mem hword)
  rw [List.append_nil, List.takeWhile_nil, List.append_nil] at htake
  rw [lastWord, htake, List.reverse_reverse]

theorem lastWord_append {word : List Char} (hword : ' ' ∉ word) (s : List Char) :
    lastWord (s ++ ' ' :: word) = word := by
  rw [lastWord, List.reverse_append, List.reverse_cons, List.append_assoc,
    List.takeWhile_append_of_pos (ne_space_of_mem hword)]
  simp

theorem beforeLastWord_append {word : List Char} (hword : ' ' ∉ word) (s : List Char) :
    beforeLastWord (s ++ ' ' :: word) = s := by
  have hdrop : ((s ++ ' ' :: word).reverse.dropWhile (· != ' ')) = ' ' :: s.reverse := by
    rw [List.reverse_append, List.reverse_cons, List.append_assoc,
      List.dropWhile_append_of_pos (ne_space_of_mem hword)]
    rfl
  rw [beforeLastWord, hdrop, List.drop_one, List.tail_cons, List.reverse_reverse]

/-- A key and its escaped value. -/
def spellPair (sep : Char) (escapes : Escapes) (p : List Char × List Char) : List Char :=
  p.1 ++ sep :: escape escapes p.2

/-- A key that is one word and needs no escape. -/
structure Key (sep : Char) (key : List Char) : Prop where
  space : ' ' ∉ key
  slash : '\\' ∉ key
  separator : sep ∉ key

instance (sep : Char) (key : List Char) : Decidable (Key sep key) :=
  decidable_of_iff (' ' ∉ key ∧ '\\' ∉ key ∧ sep ∉ key)
    ⟨fun h => ⟨h.1, h.2.1, h.2.2⟩, fun h => ⟨h.space, h.slash, h.separator⟩⟩

/-- The pieces after the first key. -/
def valuePieces (escapes : Escapes) (value : List Char) :
    List (List Char × List Char) → List (List Char)
  | [] => [escape escapes value]
  | p :: rest => (escape escapes value ++ ' ' :: p.1) :: valuePieces escapes p.2 rest

theorem pairsFrom_valuePieces (h : ReadsBack sep escapes meaning) (key value : List Char)
    (ps : List (List Char × List Char)) (hkeys : ∀ p ∈ ps, Key sep p.1) :
    pairsFrom meaning key (valuePieces escapes value ps) = (key, value) :: ps := by
  induction ps generalizing key value with
  | nil => rw [valuePieces, pairsFrom, unescape_escape h]
  | cons p ps ih =>
      have hp := hkeys p List.mem_cons_self
      have hrest := ih p.1 p.2 fun q hq => hkeys q (List.mem_cons_of_mem _ hq)
      -- the piece before the next key ends in a space and that key
      have hstep : ∀ l, l ≠ [] →
          pairsFrom meaning key ((escape escapes value ++ ' ' :: p.1) :: l) =
            (key, value) :: pairsFrom meaning p.1 l := by
        intro l hl
        cases l with
        | nil => contradiction
        | cons piece l =>
            rw [pairsFrom, beforeLastWord_append hp.space, lastWord_append hp.space,
              unescape_escape h]
            exact List.cons_ne_nil _ _
      rw [valuePieces, hstep _ (by cases ps <;> exact List.cons_ne_nil _ _), hrest]

theorem pieces_spellPair (h : ReadsBack sep escapes meaning) {p : List Char × List Char}
    (hp : Key sep p.1) (rest : List Char) :
    pieces sep (spellPair sep escapes p ++ rest) =
      p.1 :: prepend (escape escapes p.2) (pieces sep rest) := by
  rw [spellPair, List.append_assoc, pieces_word hp.slash hp.separator, List.cons_append,
    pieces_bare h.ne, if_pos rfl, pieces_escape h, prepend, List.append_nil]

theorem pieces_spelled (h : ReadsBack sep escapes meaning) (hsep : sep ≠ ' ')
    (p : List Char × List Char) (ps : List (List Char × List Char))
    (hkeys : ∀ q ∈ p :: ps, Key sep q.1) :
    pieces sep (List.intercalate [' '] ((p :: ps).map (spellPair sep escapes))) =
      p.1 :: valuePieces escapes p.2 ps := by
  induction ps generalizing p with
  | nil =>
      have hend := pieces_spellPair h (hkeys p List.mem_cons_self) []
      rw [List.append_nil] at hend
      rw [List.map_singleton, List.intercalate_singleton, hend, valuePieces, pieces, prepend,
        List.append_nil]
  | cons q ps ih =>
      have hrest := ih q fun r hr => hkeys r (List.mem_cons_of_mem _ hr)
      rw [List.map_cons] at hrest
      rw [List.map_cons, List.map_cons, List.intercalate_cons_cons, List.append_assoc,
        pieces_spellPair h (hkeys p List.mem_cons_self), List.singleton_append,
        pieces_bare (by decide), if_neg hsep.symm, hrest]
      rfl

/-- Keys and values are read back from the text that spells them. -/
theorem pairs_spell (h : ReadsBack sep escapes meaning) (hsep : sep ≠ ' ')
    (ps : List (List Char × List Char)) (hkeys : ∀ p ∈ ps, Key sep p.1) :
    pairs sep meaning (List.intercalate [' '] (ps.map (spellPair sep escapes))) = ps := by
  cases ps with
  | nil => rfl
  | cons p ps =>
      have hkey := hkeys p List.mem_cons_self
      rw [pairs, pieces_spelled h hsep p ps hkeys]
      show pairsFrom meaning (lastWord p.1) (valuePieces escapes p.2 ps) = p :: ps
      rw [lastWord_of_word hkey.space,
        pairsFrom_valuePieces h p.1 p.2 ps fun q hq => hkeys q (List.mem_cons_of_mem _ hq)]

end Written

/-! ## Backslashes that are not escaped -/

section Bare

variable {sep : Char}

/-- Only the separator is escaped. -/
def separatorOnly (sep : Char) : Escapes := fun c => if c = sep then some sep else none

/-- An escaped backslash and an escaped separator stand for themselves. -/
def itself (sep : Char) : Escapes := fun c => if c = '\\' ∨ c = sep then some c else none

/-- Every backslash stands before a character that is neither a backslash nor the separator. -/
def lonelySlashes (sep : Char) : List Char → Bool
  | [] => true
  | ['\\'] => false
  | '\\' :: c :: cs => c != '\\' && c != sep && lonelySlashes sep cs
  | _ :: cs => lonelySlashes sep cs

theorem readField_separator (meaning : Escapes) (hsep : sep ≠ '\\') (rest : List Char) :
    readField sep meaning (sep :: rest) = some ([], rest) := by
  rw [readField, cut_bare hsep, if_pos rfl]
  rfl

theorem readField_bare {meaning : Escapes} {c : Char} (hslash : c ≠ '\\') (hsep : c ≠ sep)
    (cs : List Char) :
    readField sep meaning (c :: cs) =
      (readField sep meaning cs).map fun p => (c :: p.1, p.2) := by
  rw [readField, readField, cut_bare hslash, if_neg hsep, Option.map_map, Option.map_map]
  exact congrFun (congrArg Option.map (funext fun p => by
    rw [Function.comp_apply, Function.comp_apply, unescape_bare hslash])) _

theorem readField_escaped {meaning : Escapes} {c d : Char} (hc : meaning c = some d)
    (cs : List Char) :
    readField sep meaning ('\\' :: c :: cs) =
      (readField sep meaning cs).map fun p => (d :: p.1, p.2) := by
  rw [readField, readField, cut, Option.map_map, Option.map_map]
  exact congrFun (congrArg Option.map (funext fun p => by
    rw [Function.comp_apply, Function.comp_apply, unescape, hc])) _

theorem readField_kept {meaning : Escapes} {c : Char} (hc : meaning c = none) (cs : List Char) :
    readField sep meaning ('\\' :: c :: cs) =
      (readField sep meaning cs).map fun p => ('\\' :: c :: p.1, p.2) := by
  rw [readField, readField, cut, Option.map_map, Option.map_map]
  exact congrFun (congrArg Option.map (funext fun p => by
    rw [Function.comp_apply, Function.comp_apply, unescape, hc])) _

theorem itself_slash : itself sep '\\' = some '\\' := if_pos (Or.inl rfl)

theorem itself_separator : itself sep sep = some sep := if_pos (Or.inr rfl)

theorem itself_of_ne {c : Char} (hslash : c ≠ '\\') (hsep : c ≠ sep) : itself sep c = none :=
  if_neg fun h => h.elim hslash hsep

theorem escape_separator (s : List Char) :
    escape (separatorOnly sep) (sep :: s) = '\\' :: sep :: escape (separatorOnly sep) s := by
  rw [escape, List.flatMap_cons, ← escape, escapeChar, separatorOnly, if_pos rfl]
  rfl

theorem escape_of_ne {c : Char} (hsep : c ≠ sep) (s : List Char) :
    escape (separatorOnly sep) (c :: s) = c :: escape (separatorOnly sep) s := by
  rw [escape, List.flatMap_cons, ← escape, escapeChar, separatorOnly, if_neg hsep]
  rfl

theorem lonelySlashes_bare {c : Char} (hslash : c ≠ '\\') (cs : List Char) :
    lonelySlashes sep (c :: cs) = lonelySlashes sep cs := by
  rw [lonelySlashes]
  · exact fun h => absurd h hslash
  · exact fun _ _ h => absurd h hslash

theorem slash_of_next {c : Char} {cs : List Char} (hlast : c = '\\' → cs = [] → False)
    (hnext : ∀ d ds, c = '\\' → cs = d :: ds → False) : c ≠ '\\' := by
  intro hc
  cases cs with
  | nil => exact hlast hc rfl
  | cons d ds => exact hnext d ds hc rfl

/-- A field whose backslashes stand alone is read back. -/
theorem readField_of_lonely (hsep : sep ≠ '\\') {s : List Char} (h : lonelySlashes sep s = true)
    (rest : List Char) :
    readField sep (itself sep) (escape (separatorOnly sep) s ++ sep :: rest) = some (s, rest) := by
  induction s using lonelySlashes.induct with
  | case1 => exact readField_separator _ hsep rest
  | case2 => exact absurd h Bool.false_ne_true
  | case3 c cs ih =>
      rw [lonelySlashes, Bool.and_eq_true, Bool.and_eq_true, bne_iff_ne, bne_iff_ne] at h
      obtain ⟨⟨hslash, hc⟩, hcs⟩ := h
      rw [escape_of_ne hsep.symm, escape_of_ne hc, List.cons_append, List.cons_append,
        readField_kept (itself_of_ne hslash hc), ih hcs]
      rfl
  | case4 c cs hlast hnext ih =>
      have hslash := slash_of_next hlast hnext
      rw [lonelySlashes_bare hslash] at h
      by_cases hc : c = sep
      · subst hc
        rw [escape_separator, List.cons_append, List.cons_append,
          readField_escaped itself_separator, ih h]
        rfl
      · rw [escape_of_ne hc, List.cons_append, readField_bare hslash hc, ih h]
        rfl

theorem replicate_append_cons (c : Char) (k : Nat) (s : List Char) :
    List.replicate k c ++ c :: s = List.replicate (k + 1) c ++ s := by
  rw [List.replicate_succ', List.append_assoc]
  rfl

/-- Once a backslash is lost, a field is never read back: what is read has one too few. -/
theorem readField_ne_slashes (hsep : sep ≠ '\\') (s : List Char) (k : Nat) (rest r : List Char) :
    readField sep (itself sep) (escape (separatorOnly sep) s ++ sep :: rest) ≠
      some (List.replicate (k + 1) '\\' ++ s, r) := by
  intro h
  induction s using lonelySlashes.induct generalizing k with
  | case1 =>
      rw [escape, List.flatMap_nil, List.nil_append, readField_separator _ hsep] at h
      exact absurd (Prod.mk.inj (Option.some.inj h)).1 (by simp)
  | case2 =>
      rw [escape_of_ne hsep.symm, List.cons_append, escape, List.flatMap_nil, List.nil_append,
        readField_escaped itself_separator, List.replicate_succ, Option.map_eq_some_iff] at h
      obtain ⟨p, -, hp⟩ := h
      exact hsep (List.cons.inj (Prod.mk.inj hp).1).1
  | case3 c cs ih =>
      rw [escape_of_ne hsep.symm, List.replicate_succ, List.cons_append, List.cons_append] at h
      by_cases hslash : c = '\\'
      · -- two backslashes are read as one
        subst hslash
        rw [escape_of_ne hsep.symm, List.cons_append, readField_escaped itself_slash,
          Option.map_eq_some_iff] at h
        obtain ⟨p, hp, heq⟩ := h
        obtain ⟨htail, hr⟩ := Prod.mk.inj heq
        refine ih (k + 1) (hp.trans (congrArg some (Prod.ext ?_ hr)))
        rw [(List.cons.inj htail).2, replicate_append_cons, replicate_append_cons]
      by_cases hc : c = sep
      · -- the separator's own escape is taken for a backslash, and the field ends there
        subst hc
        rw [escape_separator, List.cons_append, readField_escaped itself_slash, List.cons_append,
          readField_separator _ hsep] at h
        have htail := (List.cons.inj (Prod.mk.inj (Option.some.inj h)).1).2
        exact absurd htail (by simp)
      · rw [escape_of_ne hc, List.cons_append, readField_kept (itself_of_ne hslash hc),
          Option.map_eq_some_iff] at h
        obtain ⟨p, -, hp⟩ := h
        have htail := (List.cons.inj (Prod.mk.inj hp).1).2
        rw [replicate_append_cons, List.replicate_succ, List.cons_append] at htail
        exact hslash (List.cons.inj htail).1
  | case4 c cs hlast hnext ih =>
      have hslash := slash_of_next hlast hnext
      rw [List.replicate_succ, List.cons_append] at h
      by_cases hc : c = sep
      · subst hc
        rw [escape_separator, List.cons_append, List.cons_append,
          readField_escaped itself_separator, Option.map_eq_some_iff] at h
        obtain ⟨p, -, hp⟩ := h
        exact hslash (List.cons.inj (Prod.mk.inj hp).1).1
      · rw [escape_of_ne hc, List.cons_append, readField_bare hslash hc,
          Option.map_eq_some_iff] at h
        obtain ⟨p, -, hp⟩ := h
        exact hslash (List.cons.inj (Prod.mk.inj hp).1).1

/-- A field that is read back has only backslashes that stand alone. -/
theorem lonely_of_readField (hsep : sep ≠ '\\') {s rest r : List Char}
    (h : readField sep (itself sep) (escape (separatorOnly sep) s ++ sep :: rest) = some (s, r)) :
    lonelySlashes sep s = true := by
  induction s using lonelySlashes.induct with
  | case1 => rfl
  | case2 =>
      rw [escape_of_ne hsep.symm, List.cons_append, escape, List.flatMap_nil, List.nil_append,
        readField_escaped itself_separator, Option.map_eq_some_iff] at h
      obtain ⟨p, -, hp⟩ := h
      exact absurd (List.cons.inj (Prod.mk.inj hp).1).1 hsep
  | case3 c cs ih =>
      rw [escape_of_ne hsep.symm, List.cons_append] at h
      by_cases hslash : c = '\\'
      · subst hslash
        rw [escape_of_ne hsep.symm, List.cons_append, readField_escaped itself_slash,
          Option.map_eq_some_iff] at h
        obtain ⟨p, hp, heq⟩ := h
        obtain ⟨htail, hr⟩ := Prod.mk.inj heq
        refine absurd (hp.trans (congrArg some (Prod.ext ?_ hr)))
          (readField_ne_slashes hsep cs 0 _ r)
        exact (List.cons.inj htail).2
      by_cases hc : c = sep
      · subst hc
        rw [escape_separator, List.cons_append, readField_escaped itself_slash, List.cons_append,
          readField_separator _ hsep] at h
        exact absurd (List.cons.inj (Prod.mk.inj (Option.some.inj h)).1).2 (by simp)
      · rw [escape_of_ne hc, List.cons_append, readField_kept (itself_of_ne hslash hc),
          Option.map_eq_some_iff] at h
        obtain ⟨p, hp, heq⟩ := h
        obtain ⟨htail, hr⟩ := Prod.mk.inj heq
        have hcs := ih (hp.trans (congrArg some (Prod.ext
          (List.cons.inj (List.cons.inj htail).2).2 hr)))
        rw [lonelySlashes, bne_iff_ne.2 hslash, bne_iff_ne.2 hc, hcs]
        rfl
  | case4 c cs hlast hnext ih =>
      have hslash := slash_of_next hlast hnext
      rw [lonelySlashes_bare hslash]
      by_cases hc : c = sep
      · subst hc
        rw [escape_separator, List.cons_append, List.cons_append,
          readField_escaped itself_separator, Option.map_eq_some_iff] at h
        obtain ⟨p, hp, heq⟩ := h
        obtain ⟨htail, hr⟩ := Prod.mk.inj heq
        exact ih (hp.trans (congrArg some (Prod.ext (List.cons.inj htail).2 hr)))
      · rw [escape_of_ne hc, List.cons_append, readField_bare hslash hc,
          Option.map_eq_some_iff] at h
        obtain ⟨p, hp, heq⟩ := h
        obtain ⟨htail, hr⟩ := Prod.mk.inj heq
        exact ih (hp.trans (congrArg some (Prod.ext (List.cons.inj htail).2 hr)))

theorem readFields_bare_iff (hsep : sep ≠ '\\') {s rest r : List Char} {n : Nat}
    {fields : List (List Char)} :
    readFields sep (itself sep) (n + 1) (escape (separatorOnly sep) s ++ sep :: rest) =
        some (s :: fields, r) ↔
      lonelySlashes sep s = true ∧ readFields sep (itself sep) n rest = some (fields, r) := by
  rw [readFields, Option.bind_eq_some_iff]
  constructor
  · rintro ⟨field, hfield, hrest⟩
    obtain ⟨p, hp, heq⟩ := Option.map_eq_some_iff.1 hrest
    obtain ⟨hfields, hr⟩ := Prod.mk.inj heq
    obtain ⟨hs, hfields⟩ := List.cons.inj hfields
    -- the field is the one that was written, so the rest is what was written after it
    have hread : readField sep (itself sep) (escape (separatorOnly sep) s ++ sep :: rest) =
        some (s, field.2) := by rw [hfield, ← hs]
    have hlonely := lonely_of_readField hsep hread
    rw [readField_of_lonely hsep hlonely] at hread
    have hafter : field.2 = rest := (Prod.mk.inj (Option.some.inj hread)).2.symm
    rw [hafter] at hp
    exact ⟨hlonely, hp.trans (congrArg some (Prod.ext hfields hr))⟩
  · rintro ⟨hlonely, hrest⟩
    exact ⟨(s, rest), readField_of_lonely hsep hlonely rest,
      Option.map_eq_some_iff.2 ⟨_, hrest, rfl⟩⟩

end Bare

end IllumioOps.Text
