import Mathlib.Data.List.Basic

/-!
# Texts on a byte stream

A stream of UTF-8 texts, each ended by a line feed or preceded by its length in bytes. A reader of
lines finds the texts again exactly when none of them holds a line feed (`readTextLines_iff`); a
reader of lengths always does (`readTextOctets_octets`). `firstWords` splits a text at its first
spaces.
-/

set_option autoImplicit false

namespace IllumioOps.Text

/-! ## UTF-8 -/

/-- The bytes of a text. -/
def utf8 (s : String) : List UInt8 := s.toUTF8.toList

/-- The text of some bytes, when they are UTF-8. -/
def textOf (bytes : List UInt8) : Option String := String.fromUTF8? bytes.toByteArray

theorem toList_loop (bytes : ByteArray) (i : Nat) (r : List UInt8) :
    ByteArray.toList.loop bytes i r = r.reverse ++ bytes.data.toList.drop i := by
  induction i, r using ByteArray.toList.loop.induct bytes with
  | case1 i r hlt ih =>
      have hsize : i < bytes.data.toList.length := hlt
      have hget : bytes.get! i = bytes.data.toList[i] := getElem!_pos bytes.data i hlt
      rw [ByteArray.toList.loop, if_pos hlt, ih, List.drop_eq_getElem_cons hsize, hget,
        List.reverse_cons, List.append_assoc]
      rfl
  | case2 i r hge =>
      rw [ByteArray.toList.loop, if_neg hge, List.drop_of_length_le (Nat.le_of_not_lt hge),
        List.append_nil]

theorem byteArray_toList (bytes : ByteArray) : bytes.toList = bytes.data.toList :=
  (toList_loop bytes 0 []).trans (List.nil_append _)

theorem utf8_eq (s : String) : utf8 s = s.toList.flatMap String.utf8EncodeChar := by
  rw [utf8, byteArray_toList, String.toUTF8_eq_toByteArray, ← String.utf8Encode_toList,
    List.utf8Encode, List.toList_data_toByteArray]

theorem toByteArray_utf8 (s : String) : (utf8 s).toByteArray = s.toByteArray := by
  rw [utf8_eq, ← String.utf8Encode_toList, List.utf8Encode]

theorem textOf_utf8 (s : String) : textOf (utf8 s) = some s := by
  rw [textOf, toByteArray_utf8, String.fromUTF8?, dif_pos s.isValidUTF8]
  rfl

theorem textOf_eq_some_iff {bytes : List UInt8} {s : String} :
    textOf bytes = some s ↔ bytes = utf8 s := by
  constructor
  · intro h
    rw [textOf, String.fromUTF8?] at h
    split at h
    · obtain rfl := Option.some.inj h
      rw [utf8, byteArray_toList, String.toUTF8_eq_toByteArray]
      exact (List.toList_data_toByteArray).symm
    · exact absurd h (by simp)
  · rintro rfl
    exact textOf_utf8 s

theorem mapM_textOf_iff {frames : List (List UInt8)} {texts : List String} :
    frames.mapM textOf = some texts ↔ frames = texts.map utf8 := by
  induction frames generalizing texts with
  | nil =>
      rw [List.mapM_nil]
      exact ⟨fun h => by obtain rfl := Option.some.inj h; rfl,
        fun h => congrArg some (List.map_eq_nil_iff.1 h.symm).symm⟩
  | cons frame frames ih =>
      rw [List.mapM_cons]
      constructor
      · intro h
        obtain ⟨s, hs, h⟩ := Option.bind_eq_some_iff.1 h
        obtain ⟨rest, hrest, h⟩ := Option.bind_eq_some_iff.1 h
        obtain rfl := Option.some.inj h
        rw [List.map_cons, textOf_eq_some_iff.1 hs, ih.1 hrest]
      · intro h
        cases texts with
        | nil => exact absurd h (by simp)
        | cons s texts =>
            obtain ⟨hs, hrest⟩ := List.cons.inj h
            rw [textOf_eq_some_iff.2 hs, ih.2 hrest]
            rfl

/-- A line feed is a byte of its own, and part of no other character. -/
theorem lineFeed_mem_encode (c : Char) : 10 ∈ String.utf8EncodeChar c ↔ c = '\n' := by
  have hbyte : ∀ n : Nat, (10 : UInt8) = UInt8.ofNat n ↔ n % 256 = 10 := by
    intro n
    rw [← UInt8.toNat_inj, UInt8.toNat_ofNat']
    exact eq_comm
  constructor
  · intro h
    rw [String.utf8EncodeChar] at h
    split_ifs at h with h₁ h₂ h₃
    · -- one byte, which is the character
      rw [List.mem_singleton, hbyte] at h
      have hval : c.val.toNat = 10 := by omega
      exact Char.ext (UInt32.toNat_inj.1 hval)
    · simp only [List.mem_cons, List.not_mem_nil, or_false, hbyte] at h
      omega
    · simp only [List.mem_cons, List.not_mem_nil, or_false, hbyte] at h
      omega
    · simp only [List.mem_cons, List.not_mem_nil, or_false, hbyte] at h
      omega
  · rintro rfl
    decide

theorem lineFeed_mem_utf8 (s : String) : 10 ∈ utf8 s ↔ '\n' ∈ s.toList := by
  rw [utf8_eq, List.mem_flatMap]
  constructor
  · rintro ⟨c, hc, hbyte⟩
    exact (lineFeed_mem_encode c).1 hbyte ▸ hc
  · exact fun h => ⟨'\n', h, (lineFeed_mem_encode _).2 rfl⟩

/-! ## Lines -/

/-- The lines that end in a stream, after the bytes of one that has begun. -/
def linesFrom (line : List UInt8) : List UInt8 → List (List UInt8)
  | [] => []
  | b :: rest => if b = 10 then line :: linesFrom [] rest else linesFrom (line ++ [b]) rest

/-- What the receiver of a stream of lines reads. -/
def readLines (stream : List UInt8) : List (List UInt8) := linesFrom [] stream

/-- A text and its line feed. -/
def lineOf (s : String) : List UInt8 := utf8 s ++ [10]

theorem linesFrom_line {bytes : List UInt8} (h : 10 ∉ bytes) (line rest : List UInt8) :
    linesFrom line (bytes ++ 10 :: rest) = (line ++ bytes) :: linesFrom [] rest := by
  induction bytes generalizing line with
  | nil => rw [List.nil_append, linesFrom, if_pos rfl, List.append_nil]
  | cons b bytes ih =>
      have hb : b ≠ 10 := fun hb => h (hb ▸ List.mem_cons_self)
      rw [List.cons_append, linesFrom, if_neg hb,
        ih fun hbytes => h (List.mem_cons_of_mem _ hbytes), List.append_assoc]
      rfl

theorem length_linesFrom (line stream : List UInt8) :
    (linesFrom line stream).length = stream.count 10 := by
  induction stream generalizing line with
  | nil => rfl
  | cons b rest ih =>
      rw [linesFrom]
      by_cases hb : b = 10
      · rw [if_pos hb, List.length_cons, ih, hb, List.count_cons_self]
      · rw [if_neg hb, ih, List.count_cons_of_ne hb]

theorem readLines_of_none {texts : List String} (h : ∀ s ∈ texts, '\n' ∉ s.toList) :
    readLines (texts.flatMap lineOf) = texts.map utf8 := by
  induction texts with
  | nil => rfl
  | cons s texts ih =>
      have hs : 10 ∉ utf8 s := fun hmem => h s List.mem_cons_self ((lineFeed_mem_utf8 s).1 hmem)
      rw [readLines, List.flatMap_cons, lineOf, List.append_assoc, List.singleton_append,
        linesFrom_line hs, List.nil_append, List.map_cons]
      exact congrArg (utf8 s :: ·) (ih fun t ht => h t (List.mem_cons_of_mem _ ht))

theorem count_lines (texts : List String) :
    (texts.flatMap lineOf).count 10 = texts.length + (texts.flatMap utf8).count 10 := by
  induction texts with
  | nil => rfl
  | cons s texts ih =>
      have hend : List.count (10 : UInt8) [10] = 1 := rfl
      rw [List.flatMap_cons, List.flatMap_cons, lineOf, List.count_append, List.count_append,
        List.count_append, ih, List.length_cons, hend]
      omega

/-- The receiver reads exactly the texts that were sent when none of them holds a line feed. -/
theorem readLines_lines_iff (texts : List String) :
    readLines (texts.flatMap lineOf) = texts.map utf8 ↔ ∀ s ∈ texts, '\n' ∉ s.toList := by
  refine ⟨fun h s hs hmem => ?_, readLines_of_none⟩
  -- there are as many lines as line feeds, and one too many of these
  have hlength := congrArg List.length h
  rw [readLines, length_linesFrom, count_lines, List.length_map] at hlength
  have hnone : (texts.flatMap utf8).count 10 = 0 := by omega
  exact List.count_eq_zero.1 hnone
    (List.mem_flatMap.2 ⟨s, hs, (lineFeed_mem_utf8 s).2 hmem⟩)

/-- The texts of the lines of a stream. -/
def readTextLines (stream : List UInt8) : Option (List String) := (readLines stream).mapM textOf

theorem readTextLines_iff (texts : List String) :
    readTextLines (texts.flatMap lineOf) = some texts ↔ ∀ s ∈ texts, '\n' ∉ s.toList :=
  mapM_textOf_iff.trans (readLines_lines_iff texts)

/-! ## Lengths -/

/-- The length at the start of a stream, and what stands after the space behind it. -/
def readCount (n : Nat) : List UInt8 → Option (Nat × List UInt8)
  | [] => none
  | b :: rest =>
      if b = 32 then some (n, rest)
      else if 48 ≤ b ∧ b ≤ 57 then readCount (10 * n + (b.toNat - 48)) rest
      else none

/-- The first frames of a stream of lengths and bytes, when it is made of no more than so many. -/
def readFrames : Nat → List UInt8 → Option (List (List UInt8))
  | _, [] => some []
  | 0, _ :: _ => none
  | n + 1, stream@(_ :: _) =>
      match readCount 0 stream with
      | some (length, rest) =>
          if length ≤ rest.length then
            (readFrames n (rest.drop length)).map (rest.take length :: ·)
          else none
      | none => none

/-- What the receiver of a stream of lengths and bytes reads. -/
def readOctets (stream : List UInt8) : Option (List (List UInt8)) :=
  readFrames stream.length stream

/-- The length of a text in bytes, a space and the text. -/
def octetsOf (s : String) : List UInt8 := utf8 (toString s.toUTF8.size) ++ [32] ++ utf8 s

theorem encode_digit {c : Char} (hc : c.isDigit = true) :
    ∃ b : UInt8, String.utf8EncodeChar c = [b] ∧ b ≠ 32 ∧ (48 ≤ b ∧ b ≤ 57) ∧
      b.toNat = c.toNat := by
  rw [Char.isDigit, Bool.and_eq_true, decide_eq_true_iff, decide_eq_true_iff] at hc
  have hlow : 48 ≤ c.val.toNat := UInt32.le_iff_toNat_le.1 hc.1
  have hhigh : c.val.toNat ≤ 57 := UInt32.le_iff_toNat_le.1 hc.2
  have hb : (UInt8.ofNat c.val.toNat).toNat = c.val.toNat := by
    rw [UInt8.toNat_ofNat']
    omega
  refine ⟨UInt8.ofNat c.val.toNat, ?_, ?_, ⟨?_, ?_⟩, hb⟩
  · rw [String.utf8EncodeChar, if_pos (by omega)]
  · intro h
    have h32 := congrArg UInt8.toNat h
    rw [hb] at h32
    have hspace : c.val.toNat = 32 := h32
    omega
  · exact UInt8.le_iff_toNat_le.2 (hb.symm ▸ hlow)
  · exact UInt8.le_iff_toNat_le.2 (hb.symm ▸ hhigh)

theorem readCount_digits {digits : List Char} (h : ∀ c ∈ digits, c.isDigit = true) (n : Nat)
    (rest : List UInt8) :
    readCount n (digits.flatMap String.utf8EncodeChar ++ 32 :: rest) =
      some (Nat.ofDigitChars 10 digits n, rest) := by
  induction digits generalizing n with
  | nil => rw [List.flatMap_nil, List.nil_append, readCount, if_pos rfl, Nat.ofDigitChars_nil]
  | cons c digits ih =>
      obtain ⟨b, hencode, hspace, hdigit, hb⟩ := encode_digit (h c List.mem_cons_self)
      have hzero : '0'.toNat = 48 := rfl
      rw [List.flatMap_cons, hencode, List.append_assoc, List.singleton_append, readCount,
        if_neg hspace, if_pos hdigit, ih fun d hd => h d (List.mem_cons_of_mem _ hd), hb,
        Nat.ofDigitChars_cons, hzero]

theorem size_toUTF8 (s : String) : s.toUTF8.size = (utf8 s).length := by
  rw [utf8, byteArray_toList]
  rfl

theorem readCount_octets (s : String) (rest : List UInt8) :
    readCount 0 (octetsOf s ++ rest) = some ((utf8 s).length, utf8 s ++ rest) := by
  have hdigits : (toString s.toUTF8.size).toList = Nat.toDigits 10 s.toUTF8.size := Nat.toList_repr
  rw [octetsOf, List.append_assoc, List.append_assoc, utf8_eq (toString _), hdigits,
    List.singleton_append, readCount_digits fun c hc =>
      Nat.isDigit_of_mem_toDigits (by decide) (by decide) hc,
    Nat.ofDigitChars_ten_toDigits, size_toUTF8]

theorem octetsOf_ne_nil (s : String) : octetsOf s ≠ [] := by
  rw [octetsOf]
  simp

theorem readFrames_octets (texts : List String) (n : Nat) (hn : texts.length ≤ n) :
    readFrames n (texts.flatMap octetsOf) = some (texts.map utf8) := by
  induction texts generalizing n with
  | nil => cases n <;> rfl
  | cons s texts ih =>
      cases n with
      | zero => exact absurd hn (by simp)
      | succ n =>
          have hcount := readCount_octets s (texts.flatMap octetsOf)
          have hrest := ih n (Nat.le_of_succ_le_succ hn)
          rw [List.flatMap_cons]
          cases hstream : octetsOf s ++ texts.flatMap octetsOf with
          | nil => exact absurd (List.append_eq_nil_iff.1 hstream).1 (octetsOf_ne_nil s)
          | cons b stream =>
              rw [hstream] at hcount
              have hlength : (utf8 s).length ≤ (utf8 s ++ texts.flatMap octetsOf).length := by
                rw [List.length_append]
                omega
              simp only [readFrames, hcount]
              rw [if_pos hlength, List.drop_left, List.take_left, hrest]
              rfl

/-- The receiver reads exactly the texts that were sent. -/
theorem readOctets_octets (texts : List String) :
    readOctets (texts.flatMap octetsOf) = some (texts.map utf8) := by
  refine readFrames_octets texts _ ?_
  induction texts with
  | nil => exact Nat.le_refl 0
  | cons s texts ih =>
      have hs := List.length_pos_of_ne_nil (octetsOf_ne_nil s)
      rw [List.flatMap_cons, List.length_append, List.length_cons]
      omega

/-- The texts of a stream of lengths and bytes. -/
def readTextOctets (stream : List UInt8) : Option (List String) :=
  (readOctets stream).bind fun frames => frames.mapM textOf

theorem readTextOctets_octets (texts : List String) :
    readTextOctets (texts.flatMap octetsOf) = some texts := by
  rw [readTextOctets, readOctets_octets, Option.bind_some]
  exact mapM_textOf_iff.2 rfl

/-! ## Words -/

/-- What stands before the first space, and what stands after it. -/
def firstWord : List Char → Option (List Char × List Char)
  | [] => none
  | c :: cs => if c = ' ' then some ([], cs) else (firstWord cs).map fun p => (c :: p.1, p.2)

/-- The words before the first spaces, and what stands after these. -/
def firstWords : Nat → List Char → Option (List (List Char) × List Char)
  | 0, s => some ([], s)
  | n + 1, s =>
      (firstWord s).bind fun word => (firstWords n word.2).map fun p => (word.1 :: p.1, p.2)

theorem firstWord_append {word : List Char} (h : ' ' ∉ word) (rest : List Char) :
    firstWord (word ++ ' ' :: rest) = some (word, rest) := by
  induction word with
  | nil => rw [List.nil_append, firstWord, if_pos rfl]
  | cons c word ih =>
      have hc : c ≠ ' ' := fun hc => h (hc ▸ List.mem_cons_self)
      rw [List.cons_append, firstWord, if_neg hc, ih fun hword => h (List.mem_cons_of_mem _ hword)]
      rfl

/-- A first word holds no space. -/
theorem not_mem_firstWord {s word rest : List Char} (h : firstWord s = some (word, rest)) :
    ' ' ∉ word := by
  induction s generalizing word with
  | nil => exact absurd h (by simp [firstWord])
  | cons c s ih =>
      rw [firstWord] at h
      split at h
      · obtain ⟨rfl, -⟩ := Prod.mk.inj (Option.some.inj h)
        exact List.not_mem_nil
      · rename_i hc
        obtain ⟨p, hp, heq⟩ := Option.map_eq_some_iff.1 h
        obtain ⟨rfl, rfl⟩ := Prod.mk.inj heq
        intro hmem
        rcases List.mem_cons.1 hmem with hspace | hmem
        · exact hc hspace.symm
        · exact ih hp hmem

theorem firstWords_append {word : List Char} (h : ' ' ∉ word) (n : Nat) (rest : List Char) :
    firstWords (n + 1) (word ++ ' ' :: rest) =
      (firstWords n rest).map fun p => (word :: p.1, p.2) := by
  rw [firstWords, firstWord_append h, Option.bind_some]

end IllumioOps.Text
