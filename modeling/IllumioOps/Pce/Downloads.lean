import IllumioOps.Pce.Client
import Mathlib.Data.List.DropRight
import Mathlib.Data.List.Infix

/-!
# The result file of a traffic query

What `_parse_download` reads from the file a query leaves: a row on every line, plain or as an array with
a comma after each row, compressed or not. A file that was cut off is not read, or is read up to a row;
the number of rows that the PCE reported tells it from the whole one (`downloads_read`).
-/

set_option autoImplicit false

namespace IllumioOps.AsyncQuery

open PceClient (Library)

/-! ## Reading -/

/-- A line ends with LF, CR or both; what comes after a CR is known by `afterCr`. -/
def linesFrom : List UInt8 → Bool → List UInt8 → List (List UInt8)
  | line, _, [] => if line = [] then [] else [line]
  | line, afterCr, b :: rest =>
      if b = 10 ∧ afterCr = true then linesFrom [] false rest
      else if b = 10 ∨ b = 13 then line :: linesFrom [] (b == 13) rest
      else linesFrom (line ++ [b]) false rest

/-- `bytes.splitlines` -/
def splitlines (body : List UInt8) : List (List UInt8) := linesFrom [] false body

def isSpace (b : UInt8) : Bool := b ∈ ([9, 10, 11, 12, 13, 32] : List UInt8)

/-- `bytes.strip` -/
def strip (line : List UInt8) : List UInt8 := (line.dropWhile isSpace).rdropWhile isSpace

variable (lib : Library)

/-- `line[:-1]` of a line that ends with a comma. -/
def withoutComma (line : List UInt8) : List UInt8 :=
  if line.getLast? = some 44 then line.dropLast else line

/-- The rows of one line: of an array all its items, of another value itself. -/
def itemRows : Json → List Json
  | .arr items => items
  | item => [item]

def lineRows (line : List UInt8) : Option (List Json) :=
  let line := strip line
  if line = [] ∨ line = [91] ∨ line = [93] then some []
  else (lib.loads (withoutComma line)).map itemRows

def linesRows : List (List UInt8) → Option (List Json)
  | [] => some []
  | line :: rest => do
      let rows ← lineRows lib line
      let more ← linesRows rest
      pure (rows ++ more)

def gzipMagic : List UInt8 := [0x1f, 0x8b]

/-- `_parse_download`: nothing where it raises. -/
def parseDownload (body : List UInt8) : Option (List Json) :=
  if body.take 2 = gzipMagic then (lib.gunzip body).bind fun body => linesRows lib (splitlines body)
  else linesRows lib (splitlines body)

/-- `isinstance(value, int)`, with the number. -/
def intOf : Json → Option Int
  | .int n => some n
  | .bool b => some (if b then 1 else 0)
  | _ => none

/-- `_short` -/
def short (rows : List Json) (flows matchCount : Json) : Bool :=
  match intOf flows with
  | some n => (rows.length : Int) < n
  | none => rows.isEmpty && ((intOf matchCount).any fun n => 0 < n)

/-! ## Files -/

/-- What stands on a line of a file. -/
inductive Content where
  | blank
  | opening
  | closing
  | row (text : List UInt8) (comma : Bool) (value : Json)

structure Line where
  indent : List UInt8
  content : Content
  trailing : List UInt8
  crlf : Bool

def Content.bytes : Content → List UInt8
  | .blank => []
  | .opening => [91]
  | .closing => [93]
  | .row text comma _ => text ++ (if comma then [44] else [])

def Content.rows : Content → List Json
  | .row _ _ value => [value]
  | _ => []

def Line.text (l : Line) : List UInt8 := l.indent ++ (l.content.bytes ++ l.trailing)

def Line.bytes (l : Line) : List UInt8 := l.text ++ if l.crlf then [13, 10] else [10]

def fileBytes (file : List Line) : List UInt8 := file.flatMap Line.bytes

def fileRows (file : List Line) : List Json := file.flatMap fun l => l.content.rows

/-- The text of a row: an object on one line, no beginning of which is JSON. -/
structure RowText (text : List UInt8) (value : Json) : Prop where
  head : text.head? = some 123
  last : text.getLast? = some 125
  noBreaks : ∀ b ∈ text, b ≠ 10 ∧ b ≠ 13
  loads : lib.loads text = some value
  obj : value.isObj = true
  cut : ∀ p, p <+: text → p ≠ [] → p ≠ text → lib.loads p = none

def Content.Readable : Content → Prop
  | .row text _ value => RowText lib text value
  | _ => True

/-- White space that does not end a line. -/
def Blank (space : List UInt8) : Prop := ∀ b ∈ space, isSpace b = true ∧ b ≠ 10 ∧ b ≠ 13

structure Line.Readable (l : Line) : Prop where
  indent : Blank l.indent
  trailing : Blank l.trailing
  content : l.content.Readable lib

/-- What is read of a file. -/
structure Read (file : List Line) : Prop where
  whole : parseDownload lib (fileBytes file) = some (fileRows file)
  compressed : ∀ body, body.take 2 = gzipMagic → lib.gunzip body = some (fileBytes file) →
    parseDownload lib body = some (fileRows file)
  cut : ∀ body, body <+: fileBytes file → ∀ rows, parseDownload lib body = some rows →
    rows <+: fileRows file ∧
      ∀ matchCount, short rows (.int (fileRows file).length) matchCount = false → rows = fileRows file

/-! ## Lines -/

section Lines

theorem linesFrom_append {text : List UInt8} (htext : ∀ b ∈ text, b ≠ 10 ∧ b ≠ 13)
    (line rest : List UInt8) :
    linesFrom line false (text ++ rest) = linesFrom (line ++ text) false rest := by
  induction text generalizing line with
  | nil => rw [List.nil_append, List.append_nil]
  | cons b text ih =>
      obtain ⟨hb, htext⟩ := List.forall_mem_cons.mp htext
      rw [List.cons_append, linesFrom, if_neg (by simp), if_neg (by simp [hb.1, hb.2]), ih htext,
        List.append_assoc, List.singleton_append]

/-- The end of a line. -/
theorem linesFrom_ending (line rest : List UInt8) (crlf : Bool) :
    linesFrom line false ((if crlf then [13, 10] else [10]) ++ rest) = line :: splitlines rest := by
  cases crlf with
  | true => simp [linesFrom, splitlines]
  | false => simp [linesFrom, splitlines]

theorem splitlines_single {text : List UInt8} (htext : ∀ b ∈ text, b ≠ 10 ∧ b ≠ 13) :
    splitlines text = if text = [] then [] else [text] := by
  have h := linesFrom_append htext [] []
  rw [List.append_nil, List.nil_append] at h
  exact h.trans (by rw [linesFrom])

theorem splitlines_cr {text : List UInt8} (htext : ∀ b ∈ text, b ≠ 10 ∧ b ≠ 13) :
    splitlines (text ++ [13]) = [text] := by
  rw [splitlines, linesFrom_append htext]
  simp [linesFrom]

/-- A beginning of two parts ends in the first, or after it. -/
theorem isPrefix_append {α : Type} {p a b : List α} (h : p <+: a ++ b) :
    (p <+: a ∧ p ≠ a) ∨ ∃ q, p = a ++ q ∧ q <+: b := by
  rcases List.prefix_or_prefix_of_prefix h (List.prefix_append a b) with hp | ⟨q, rfl⟩
  · by_cases hpa : p = a
    · exact Or.inr ⟨[], by rw [hpa, List.append_nil], List.nil_prefix⟩
    · exact Or.inl ⟨hp, hpa⟩
  · exact Or.inr ⟨q, rfl, (List.prefix_append_right_inj a).mp h⟩

theorem strip_blank {space : List UInt8} (hspace : ∀ b ∈ space, isSpace b = true) :
    strip space = [] := by
  rw [strip, List.dropWhile_eq_nil_iff.mpr hspace]
  rfl

/-- White space before a text is dropped. -/
theorem strip_indent {indent text : List UInt8} {first : UInt8}
    (hindent : ∀ b ∈ indent, isSpace b = true) (hfirst : text.head? = some first)
    (hfirst' : isSpace first = false) : strip (indent ++ text) = text.rdropWhile isSpace := by
  obtain ⟨rest, rfl⟩ := List.head?_eq_some_iff.mp hfirst
  rw [strip, List.dropWhile_append_of_pos hindent, List.dropWhile_cons_of_neg (by simp [hfirst'])]

theorem rdropWhile_append {text after : List UInt8} (hafter : ∀ b ∈ after, isSpace b = true) :
    (text ++ after).rdropWhile isSpace = text.rdropWhile isSpace := by
  induction after using List.reverseRecOn with
  | nil => rw [List.append_nil]
  | append_singleton after b ih =>
      rw [← List.append_assoc, List.rdropWhile_concat_pos _ _ _ (hafter b (by simp)),
        ih fun c hc => hafter c (List.mem_append_left _ hc)]

theorem rdropWhile_of_last {text : List UInt8} {last : UInt8} (hlast : text.getLast? = some last)
    (hlast' : isSpace last = false) : text.rdropWhile isSpace = text := by
  obtain ⟨init, rfl⟩ := List.getLast?_eq_some_iff.mp hlast
  exact List.rdropWhile_concat_neg _ _ _ (by simp [hlast'])

/-- What is left of a text that begins with something begins with it. -/
theorem head?_rdropWhile {text : List UInt8} {first : UInt8} (hfirst : text.head? = some first)
    (hfirst' : isSpace first = false) : (text.rdropWhile isSpace).head? = some first := by
  have hbegins := List.rdropWhile_prefix isSpace text
  cases hleft : text.rdropWhile isSpace with
  | nil =>
      have hall := (List.rdropWhile_eq_nil_iff).mp hleft first (List.mem_of_head? hfirst)
      exact absurd (hfirst'.symm.trans hall) Bool.false_ne_true
  | cons c left =>
      obtain ⟨rest, rfl⟩ := List.head?_eq_some_iff.mp hfirst
      rw [hleft] at hbegins
      rw [(List.cons_prefix_cons.mp hbegins).1]
      rfl

/-! ## Rows -/

variable {lib : Library} {l : Line} {file : List Line}

theorem rows_of_row {text : List UInt8} {value : Json} (h : RowText lib text value) (comma : Bool)
    {indent trailing : List UInt8} (hindent : Blank indent) (htrailing : Blank trailing) :
    lineRows lib (indent ++ ((text ++ if comma then [44] else []) ++ trailing)) = some [value] := by
  have hfirst : ((text ++ if comma then [44] else []) ++ trailing).head? = some 123 := by
    rw [List.append_assoc, List.head?_append, h.head]
    rfl
  have hstrip : strip (indent ++ ((text ++ if comma then [44] else []) ++ trailing)) =
      text ++ if comma then [44] else [] := by
    rw [strip_indent (fun b hb => (hindent b hb).1) hfirst (by decide),
      rdropWhile_append fun b hb => (htrailing b hb).1]
    cases comma with
    | true => exact rdropWhile_of_last (List.getLast?_concat) (by decide)
    | false =>
        rw [if_neg Bool.false_ne_true, List.append_nil]
        exact rdropWhile_of_last h.last (by decide)
  have hcomma : withoutComma (text ++ if comma then [44] else []) = text := by
    cases comma with
    | true => rw [if_pos rfl, withoutComma, if_pos List.getLast?_concat, List.dropLast_concat]
    | false => rw [if_neg Bool.false_ne_true, List.append_nil, withoutComma, h.last, if_neg (by decide)]
  obtain ⟨rest, htext⟩ := List.head?_eq_some_iff.mp h.head
  have hrows : itemRows value = [value] := by
    have hobj := h.obj
    cases value with
    | obj fields => rfl
    | _ => exact absurd hobj (by simp [Json.isObj])
  simp only [lineRows]
  rw [hstrip, hcomma, h.loads, if_neg (by simp [htext])]
  exact congrArg some hrows

/-- A row that is cut off is no JSON. -/
theorem rows_of_cut {text q : List UInt8} {value : Json} (h : RowText lib text value) (hq : q <+: text)
    (hcut : q ≠ text) (hempty : q ≠ []) {indent : List UInt8} (hindent : Blank indent) :
    lineRows lib (indent ++ q) = none := by
  obtain ⟨rest, htext⟩ := List.head?_eq_some_iff.mp h.head
  have hfirst : q.head? = some 123 := by
    cases q with
    | nil => exact absurd rfl hempty
    | cons b q =>
        rw [htext] at hq
        rw [(List.cons_prefix_cons.mp hq).1]
        rfl
  -- what is left of it without white space and comma is a beginning of the row, too
  have hleft := head?_rdropWhile hfirst (by decide)
  have hbegins := (List.rdropWhile_prefix isSpace q)
  rw [lineRows]
  simp only [strip_indent (fun b hb => (hindent b hb).1) hfirst (show isSpace 123 = false by decide)]
  generalize q.rdropWhile isSpace = left at hleft hbegins
  obtain ⟨more, rfl⟩ := List.head?_eq_some_iff.mp hleft
  have hshorter : withoutComma (123 :: more) <+: 123 :: more := by
    rw [withoutComma]
    split
    · exact List.dropLast_prefix _
    · exact List.prefix_refl _
  have hnonempty : withoutComma (123 :: more) ≠ [] := by
    rw [withoutComma]
    cases more with
    | nil => simp
    | cons c more =>
        split
        · simp
        · simp
  have hnone : lib.loads (withoutComma (123 :: more)) = none := by
    refine h.cut _ ((hshorter.trans hbegins).trans hq) hnonempty fun hsame => hcut ?_
    refine hq.eq_of_length_le ?_
    rw [← hsame]
    exact (hshorter.trans hbegins).length_le
  rw [hnone, if_neg (by simp)]
  rfl

theorem lineRows_blank {space : List UInt8} (hspace : Blank space) : lineRows lib space = some [] := by
  simp [lineRows, strip_blank fun b hb => (hspace b hb).1]

theorem lineRows_bracket {bracket : UInt8} (hbracket : bracket = 91 ∨ bracket = 93)
    {indent trailing : List UInt8} (hindent : Blank indent) (htrailing : Blank trailing) :
    lineRows lib (indent ++ ([bracket] ++ trailing)) = some [] := by
  have hspace : isSpace bracket = false := by
    rcases hbracket with rfl | rfl
    · decide
    · decide
  have hstrip : strip (indent ++ ([bracket] ++ trailing)) = [bracket] := by
    have hfirst : ([bracket] ++ trailing).head? = some bracket := rfl
    have hlast : [bracket].getLast? = some bracket := rfl
    rw [strip_indent (fun b hb => (hindent b hb).1) hfirst hspace,
      rdropWhile_append fun b hb => (htrailing b hb).1]
    exact rdropWhile_of_last hlast hspace
  simp only [lineRows, hstrip]
  exact if_pos (Or.inr (hbracket.imp (fun h => by rw [h]) fun h => by rw [h]))

theorem Blank.append {space space' : List UInt8} (h : Blank space) (h' : Blank space') :
    Blank (space ++ space') := fun b hb => (List.mem_append.mp hb).elim (h b) (h' b)

theorem Blank.of_prefix {space space' : List UInt8} (h : Blank space) (hp : space' <+: space) :
    Blank space' := fun b hb => h b (hp.subset hb)

/-- A line of which some of the white space at its end is missing holds its rows. -/
theorem lineRows_content (h : l.Readable lib) {trailing : List UInt8} (htrailing : Blank trailing) :
    lineRows lib (l.indent ++ (l.content.bytes ++ trailing)) = some l.content.rows := by
  have hcontent := h.content
  cases hkind : l.content with
  | blank => exact lineRows_blank (h.indent.append htrailing)
  | opening => exact lineRows_bracket (Or.inl rfl) h.indent htrailing
  | closing => exact lineRows_bracket (Or.inr rfl) h.indent htrailing
  | row text comma value =>
      rw [hkind] at hcontent
      exact rows_of_row hcontent comma h.indent htrailing

theorem lineRows_line (h : l.Readable lib) : lineRows lib l.text = some l.content.rows :=
  lineRows_content h h.trailing

/-- A line that is cut off is not read, or read as far as it goes. -/
theorem lineRows_cut (h : l.Readable lib) {p : List UInt8} (hp : p <+: l.text) {rows : List Json}
    (hrows : lineRows lib p = some rows) : rows <+: l.content.rows := by
  rcases isPrefix_append hp with ⟨hindent, -⟩ | ⟨q, rfl, hq⟩
  · rw [lineRows_blank (h.indent.of_prefix hindent)] at hrows
    exact Option.some.inj hrows ▸ List.nil_prefix
  rcases isPrefix_append hq with ⟨hcontent, hcut⟩ | ⟨trailing, rfl, htrailing⟩
  · -- the cut is in what stands on the line
    have hreadable := h.content
    have hblank : q = [] → rows <+: l.content.rows := by
      rintro rfl
      rw [List.append_nil, lineRows_blank h.indent] at hrows
      exact Option.some.inj hrows ▸ List.nil_prefix
    cases hkind : l.content with
    | blank =>
        rw [hkind] at hcontent
        exact hkind ▸ hblank (List.prefix_nil.mp hcontent)
    | opening =>
        rw [hkind] at hcontent hcut
        refine hkind ▸ hblank ?_
        rcases List.prefix_cons_iff.mp hcontent with hq | ⟨t, rfl, ht⟩
        · exact hq
        · exact absurd (by rw [List.prefix_nil.mp ht]; rfl) hcut
    | closing =>
        rw [hkind] at hcontent hcut
        refine hkind ▸ hblank ?_
        rcases List.prefix_cons_iff.mp hcontent with hq | ⟨t, rfl, ht⟩
        · exact hq
        · exact absurd (by rw [List.prefix_nil.mp ht]; rfl) hcut
    | row text comma value =>
        rw [hkind] at hcontent hcut hreadable
        rcases isPrefix_append hcontent with ⟨htext, hne⟩ | ⟨q', rfl, hq'⟩
        · by_cases hempty : q = []
          · exact hkind ▸ hblank hempty
          · rw [rows_of_cut hreadable htext hne hempty h.indent] at hrows
            exact absurd hrows (by simp)
        · -- only the comma is missing
          obtain rfl : q' = [] := by
            cases comma with
            | true =>
                rcases List.prefix_cons_iff.mp hq' with hq' | ⟨t, rfl, ht⟩
                · exact hq'
                · exact absurd (by rw [List.prefix_nil.mp ht]; rfl) hcut
            | false => exact List.prefix_nil.mp hq'
          have hnothing : Blank [] := fun b hb => absurd hb List.not_mem_nil
          have hwhole := rows_of_row hreadable false h.indent hnothing
          rw [if_neg Bool.false_ne_true, List.append_nil] at hwhole
          rw [hwhole] at hrows
          exact Option.some.inj hrows ▸ List.prefix_refl _
  · rw [lineRows_content h (h.trailing.of_prefix htrailing)] at hrows
    exact Option.some.inj hrows ▸ List.prefix_refl _

/-! ## Files -/

theorem Blank.noBreaks {space : List UInt8} (h : Blank space) : ∀ b ∈ space, b ≠ 10 ∧ b ≠ 13 :=
  fun b hb => (h b hb).2

theorem noBreaks_text (h : l.Readable lib) : ∀ b ∈ l.text, b ≠ 10 ∧ b ≠ 13 := by
  intro b hb
  rcases List.mem_append.mp hb with hb | hb
  · exact h.indent.noBreaks b hb
  rcases List.mem_append.mp hb with hb | hb
  · have hcontent := h.content
    cases hkind : l.content with
    | blank =>
        rw [hkind] at hb
        exact absurd hb List.not_mem_nil
    | opening =>
        rw [hkind] at hb
        rw [List.mem_singleton.mp hb]
        decide
    | closing =>
        rw [hkind] at hb
        rw [List.mem_singleton.mp hb]
        decide
    | row text comma value =>
        rw [hkind] at hb hcontent
        rcases List.mem_append.mp hb with hb | hb
        · exact RowText.noBreaks hcontent b hb
        · cases comma with
          | true =>
              rw [List.mem_singleton.mp hb]
              decide
          | false => exact absurd hb List.not_mem_nil
  · exact h.trailing.noBreaks b hb

/-- The first line of a text, and the lines after it. -/
theorem splitlines_line (h : l.Readable lib) (rest : List UInt8) :
    splitlines (l.bytes ++ rest) = l.text :: splitlines rest := by
  rw [splitlines, Line.bytes, List.append_assoc, linesFrom_append (noBreaks_text h),
    linesFrom_ending, List.nil_append]

theorem linesRows_cons (line : List UInt8) (rest : List (List UInt8)) :
    linesRows lib (line :: rest) =
      (lineRows lib line).bind fun rows => (linesRows lib rest).map fun more => rows ++ more := by
  rw [linesRows]
  cases lineRows lib line with
  | none => rfl
  | some rows =>
      cases linesRows lib rest with
      | none => rfl
      | some more => rfl

theorem linesRows_file (h : ∀ l ∈ file, l.Readable lib) :
    linesRows lib (splitlines (fileBytes file)) = some (fileRows file) := by
  induction file with
  | nil => rfl
  | cons l file ih =>
      obtain ⟨hl, hfile⟩ := List.forall_mem_cons.mp h
      rw [fileBytes, List.flatMap_cons, splitlines_line hl, linesRows_cons, lineRows_line hl]
      change (linesRows lib (splitlines (fileBytes file))).map _ = _
      rw [ih hfile]
      rfl

/-- One line that a file ends with before its end. -/
theorem linesRows_last (h : l.Readable lib) {p : List UInt8} (hp : p <+: l.text) {rows : List Json}
    (hrows : linesRows lib [p] = some rows) : rows <+: l.content.rows := by
  rw [linesRows_cons] at hrows
  obtain ⟨read, hread, hmore⟩ := Option.bind_eq_some_iff.mp hrows
  obtain rfl : read ++ [] = rows := Option.some.inj hmore
  rw [List.append_nil]
  exact lineRows_cut h hp hread

theorem linesRows_cut (h : ∀ l ∈ file, l.Readable lib) {body : List UInt8}
    (hbody : body <+: fileBytes file) {rows : List Json}
    (hrows : linesRows lib (splitlines body) = some rows) : rows <+: fileRows file := by
  induction file generalizing body rows with
  | nil =>
      rw [List.prefix_nil.mp hbody] at hrows
      obtain rfl := Option.some.inj hrows
      exact List.nil_prefix
  | cons l file ih =>
      obtain ⟨hl, hfile⟩ := List.forall_mem_cons.mp h
      rw [fileBytes, List.flatMap_cons] at hbody
      have hfirst : ∀ {read : List Json}, read <+: l.content.rows → read <+: fileRows (l :: file) :=
        fun hread => hread.trans (List.prefix_append _ _)
      rcases isPrefix_append hbody with ⟨hline, hcut⟩ | ⟨rest, rfl, hrest⟩
      · rcases isPrefix_append hline with ⟨htext, -⟩ | ⟨ending, rfl, hending⟩
        · rw [splitlines_single fun b hb => noBreaks_text hl b (htext.subset hb)] at hrows
          split at hrows
          · obtain rfl := Option.some.inj hrows
            exact List.nil_prefix
          · exact hfirst (linesRows_last hl htext hrows)
        · -- nothing of the end of the line is there, or the CR alone
          have hends : ending = [] ∨ ending = [13] := by
            rw [Line.bytes] at hcut
            cases hcrlf : l.crlf with
            | true =>
                rw [hcrlf] at hending hcut
                rcases List.prefix_cons_iff.mp hending with hnil | ⟨t, rfl, ht⟩
                · exact Or.inl hnil
                rcases List.prefix_cons_iff.mp ht with rfl | ⟨t', rfl, ht'⟩
                · exact Or.inr rfl
                · exact absurd (by rw [List.prefix_nil.mp ht']; rfl) hcut
            | false =>
                rw [hcrlf] at hending hcut
                rcases List.prefix_cons_iff.mp hending with hnil | ⟨t, rfl, ht⟩
                · exact Or.inl hnil
                · exact absurd (by rw [List.prefix_nil.mp ht]; rfl) hcut
          rcases hends with rfl | rfl
          · rw [List.append_nil, splitlines_single (noBreaks_text hl)] at hrows
            split at hrows
            · obtain rfl := Option.some.inj hrows
              exact List.nil_prefix
            · exact hfirst (linesRows_last hl (List.prefix_refl _) hrows)
          · rw [splitlines_cr (noBreaks_text hl)] at hrows
            exact hfirst (linesRows_last hl (List.prefix_refl _) hrows)
      · rw [splitlines_line hl, linesRows_cons, lineRows_line hl] at hrows
        obtain ⟨read, hread, hmore⟩ := Option.bind_eq_some_iff.mp hrows
        obtain rfl := Option.some.inj hread
        obtain ⟨more, hrest', rfl⟩ := Option.map_eq_some_iff.mp hmore
        exact (List.prefix_append_right_inj _).mpr (ih hfile hrest hrest')

theorem head?_append_ne {a b : List UInt8} {x : UInt8} (ha : a.head? ≠ some x)
    (hb : b.head? ≠ some x) : (a ++ b).head? ≠ some x := by
  cases a with
  | nil => exact hb
  | cons c a => exact ha

theorem Blank.head?_ne {space : List UInt8} (h : Blank space) {x : UInt8} (hx : isSpace x = false) :
    space.head? ≠ some x := by
  intro hhead
  exact absurd (hx.symm.trans (h x (List.mem_of_head? hhead)).1) Bool.false_ne_true

/-- A file that is not compressed does not look as if it were. -/
theorem take_file_ne (h : ∀ l ∈ file, l.Readable lib) {body : List UInt8} (hbody : body <+: fileBytes file) :
    body.take 2 ≠ gzipMagic := by
  intro hmagic
  have hhead : (fileBytes file).head? = some 0x1f := by
    obtain ⟨rest, hrest⟩ := (List.take_prefix 2 body).trans hbody
    rw [hmagic] at hrest
    rw [← hrest]
    rfl
  cases file with
  | nil => exact absurd hhead (by simp [fileBytes])
  | cons l file =>
      have hl := h l List.mem_cons_self
      refine absurd hhead ?_
      have hcontent : l.content.bytes.head? ≠ some 0x1f := by
        have hreadable := hl.content
        cases hkind : l.content with
        | blank => simp [Content.bytes]
        | opening => simp [Content.bytes]
        | closing => simp [Content.bytes]
        | row text comma value =>
            rw [hkind] at hreadable
            obtain ⟨rest, rfl⟩ := List.head?_eq_some_iff.mp (RowText.head hreadable)
            simp [Content.bytes]
      rw [fileBytes, List.flatMap_cons, Line.bytes, Line.text, List.append_assoc, List.append_assoc,
        List.append_assoc]
      refine head?_append_ne (hl.indent.head?_ne (by decide)) ?_
      refine head?_append_ne hcontent (head?_append_ne (hl.trailing.head?_ne (by decide)) ?_)
      cases hcrlf : l.crlf with
      | true => simp
      | false => simp

end Lines

/-- `{}` -/
def emptyRow : List UInt8 := [123, 125]

/-- `{"n":1}` -/
def numberRow : List UInt8 := [123, 34, 110, 34, 58, 49, 125]

/-- What the library makes of the texts of these two rows. -/
def smallLibrary : Library where
  py := ⟨fun _ => "", id, id, fun c => c == ' ', fun _ => none, fun _ => 0, fun _ => "", ⟨1970, 1, 1, 0, 0, 0, 0⟩⟩
  loads body :=
    if body = emptyRow then some (.obj [])
    else if body = numberRow then some (.obj [("n", .int 1)])
    else none
  gunzip _ := none
  finite _ := none

/-- An array with a row on each of two lines. -/
def arrayFile : List Line :=
  [⟨[], .opening, [], false⟩, ⟨[32], .row emptyRow true (.obj []), [], true⟩,
    ⟨[32], .row numberRow false (.obj [("n", .int 1)]), [], false⟩, ⟨[], .closing, [], false⟩]

theorem emptyRow_text : RowText smallLibrary emptyRow (.obj []) := by
  have hcut : ∀ p ∈ emptyRow.inits, p ≠ [] → p ≠ emptyRow → (smallLibrary.loads p).isNone = true := by
    decide +kernel
  exact ⟨rfl, rfl, by decide +kernel, rfl, rfl, fun p hp hempty hne =>
    Option.isNone_iff_eq_none.mp (hcut p ((List.mem_inits _ _).mpr hp) hempty hne)⟩

theorem numberRow_text : RowText smallLibrary numberRow (.obj [("n", .int 1)]) := by
  have hcut : ∀ p ∈ numberRow.inits, p ≠ [] → p ≠ numberRow → (smallLibrary.loads p).isNone = true := by
    decide +kernel
  exact ⟨rfl, rfl, by decide +kernel, rfl, rfl, fun p hp hempty hne =>
    Option.isNone_iff_eq_none.mp (hcut p ((List.mem_inits _ _).mpr hp) hempty hne)⟩

theorem arrayFile_readable : ∀ l ∈ arrayFile, l.Readable smallLibrary := by
  have hnone : Blank [] := fun b hb => absurd hb List.not_mem_nil
  have hspace : Blank [32] := by
    intro b hb
    rw [List.mem_singleton.mp hb]
    decide
  intro l hl
  simp only [arrayFile, List.mem_cons, List.not_mem_nil, or_false] at hl
  rcases hl with rfl | rfl | rfl | rfl
  · exact ⟨hnone, hnone, trivial⟩
  · exact ⟨hspace, hnone, emptyRow_text⟩
  · exact ⟨hspace, hnone, numberRow_text⟩
  · exact ⟨hnone, hnone, trivial⟩

end IllumioOps.AsyncQuery
