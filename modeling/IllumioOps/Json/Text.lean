import IllumioOps.Json.Value
import IllumioOps.Text.Escaped

/-!
# The text of a JSON value

`dumps` is the compact text of a value with every character beyond ASCII kept. It holds no control
character, whatever the texts in the value are (`not_mem_dumps`).
-/

set_option autoImplicit false

namespace IllumioOps.Json

def hexDigit (n : Nat) : Char := if n < 10 then Char.ofNat (48 + n) else Char.ofNat (87 + n)

/-- A character between the quotes of a text. -/
def quotedChar (c : Char) : List Char :=
  if c = '"' then ['\\', '"']
  else if c = '\\' then ['\\', '\\']
  else if c = '\n' then ['\\', 'n']
  else if c = '\r' then ['\\', 'r']
  else if c = '\t' then ['\\', 't']
  else if c = '\x08' then ['\\', 'b']
  else if c = '\x0c' then ['\\', 'f']
  else if c.toNat < 0x20 then
    ['\\', 'u', '0', '0', hexDigit (c.toNat / 16), hexDigit (c.toNat % 16)]
  else [c]

def quoted (s : String) : List Char := '"' :: s.toList.flatMap quotedChar ++ ['"']

/-- A float, with the names JSON texts have for what is no number. -/
def floatText (x : FloatText) : List Char :=
  if x.text = "nan" then "NaN".toList
  else if x.text = "inf" then "Infinity".toList
  else if x.text = "-inf" then "-Infinity".toList
  else x.text.toList

mutual

def dumpsChars : Json → List Char
  | null => "null".toList
  | bool true => "true".toList
  | bool false => "false".toList
  | int n => (toString n).toList
  | float x => floatText x
  | str s => quoted s
  | arr items => '[' :: [','].intercalate (dumpsItems items) ++ [']']
  | obj fields => '\x7b' :: [','].intercalate (dumpsFields fields) ++ ['\x7d']

def dumpsItems : List Json → List (List Char)
  | [] => []
  | j :: rest => dumpsChars j :: dumpsItems rest

def dumpsFields : List (String × Json) → List (List Char)
  | [] => []
  | (k, v) :: rest => (quoted k ++ ':' :: dumpsChars v) :: dumpsFields rest

end

/-- `json.dumps(obj, ensure_ascii=False, separators=(",", ":"))` -/
def dumps (j : Json) : String := String.ofList (dumpsChars j)

/-! ## No control characters -/

/-- No character is a control character of ASCII. -/
def Printable (cs : List Char) : Prop := ∀ c ∈ cs, 0x20 ≤ c.toNat

instance (cs : List Char) : Decidable (Printable cs) :=
  List.decidableBAll _ cs

theorem Printable.cons {c : Char} {cs : List Char} (hc : 0x20 ≤ c.toNat) (h : Printable cs) :
    Printable (c :: cs) := by
  intro d hd
  rcases List.mem_cons.1 hd with rfl | hd
  · exact hc
  · exact h d hd

theorem Printable.append {cs ds : List Char} (h : Printable cs) (h' : Printable ds) :
    Printable (cs ++ ds) := by
  intro c hc
  rcases List.mem_append.1 hc with hc | hc
  · exact h c hc
  · exact h' c hc

theorem Printable.intercalate {sep : List Char} (hsep : Printable sep) {l : List (List Char)}
    (h : ∀ cs ∈ l, Printable cs) : Printable (sep.intercalate l) := by
  intro c hc
  rcases Text.mem_of_mem_intercalate hc with hc | ⟨cs, hcs, hc⟩
  · exact hsep c hc
  · exact h cs hcs c hc

theorem printable_hexDigit : ∀ n < 16, 0x20 ≤ (hexDigit n).toNat := by decide

theorem printable_quotedChar (c : Char) : Printable (quotedChar c) := by
  have hslash : ∀ {d : Char}, 0x20 ≤ d.toNat → Printable ['\\', d] := fun hd =>
    Printable.cons (by decide) (Printable.cons hd fun _ h => absurd h List.not_mem_nil)
  rw [quotedChar]
  split_ifs with h₁ h₂ h₃ h₄ h₅ h₆ h₇ h₈
  · exact hslash (by decide)
  · exact hslash (by decide)
  · exact hslash (by decide)
  · exact hslash (by decide)
  · exact hslash (by decide)
  · exact hslash (by decide)
  · exact hslash (by decide)
  · -- two digits, of a number below 32
    intro d hd
    simp only [List.mem_cons, List.not_mem_nil, or_false] at hd
    rcases hd with rfl | rfl | rfl | rfl | rfl | rfl
    · decide
    · decide
    · decide
    · decide
    · exact printable_hexDigit _ (by omega)
    · exact printable_hexDigit _ (by omega)
  · intro d hd
    obtain rfl := List.mem_singleton.1 hd
    exact Nat.le_of_not_lt h₈

theorem printable_quoted (s : String) : Printable (quoted s) := by
  refine Printable.append (Printable.cons (by decide) fun c hc => ?_) ?_
  · obtain ⟨d, -, hd⟩ := List.mem_flatMap.1 hc
    exact printable_quotedChar d c hd
  · exact Printable.cons (by decide) fun c hc => absurd hc List.not_mem_nil

theorem le_of_isFloatChar {c : Char} (h : isFloatChar c = true) : 0x20 ≤ c.toNat := by
  have hnone : ∀ n < 0x20, isFloatChar (Char.ofNat n) = false := by decide
  refine Nat.le_of_not_lt fun hlt => ?_
  have hc := hnone c.toNat hlt
  rw [Char.ofNat_toNat, h] at hc
  exact absurd hc (by decide)

theorem printable_floatText (x : FloatText) : Printable (floatText x) := by
  rw [floatText]
  split_ifs
  · decide
  · decide
  · decide
  · exact fun c hc => le_of_isFloatChar (List.all_eq_true.1 x.plain c hc)

theorem isFloatChar_of_mem_nat {n : Nat} {c : Char} (h : c ∈ (toString n).toList) :
    isFloatChar c = true := by
  have hc : c ∈ Nat.toDigits 10 n := Nat.toList_repr ▸ h
  have hdigit := Nat.isDigit_of_mem_toDigits (by decide) (by decide) hc
  simp [isFloatChar, Char.isAlphanum, hdigit]

theorem isFloatChar_of_mem_int {n : Int} {c : Char} (h : c ∈ (toString n).toList) :
    isFloatChar c = true := by
  cases n with
  | ofNat n => exact isFloatChar_of_mem_nat h
  | negSucc n =>
      have hc : c ∈ ("-" ++ toString (n + 1)).toList := h
      rw [String.toList_append] at hc
      rcases List.mem_append.1 hc with hc | hc
      · obtain rfl := List.mem_singleton.1 hc
        decide
      · exact isFloatChar_of_mem_nat hc

theorem printable_int (n : Int) : Printable (toString n).toList :=
  fun _ hc => le_of_isFloatChar (isFloatChar_of_mem_int hc)

theorem dumpsItems_eq (items : List Json) : dumpsItems items = items.map dumpsChars := by
  induction items with
  | nil => rfl
  | cons j rest ih => rw [dumpsItems, List.map_cons, ih]

theorem dumpsFields_eq (fields : List (String × Json)) :
    dumpsFields fields = fields.map fun f => quoted f.1 ++ ':' :: dumpsChars f.2 := by
  induction fields with
  | nil => rfl
  | cons f rest ih => rw [dumpsFields, List.map_cons, ih]

theorem printable_dumpsChars (j : Json) : Printable (dumpsChars j) := by
  have hone : ∀ {c : Char}, 0x20 ≤ c.toNat → Printable [c] := fun hc =>
    Printable.cons hc fun _ h => absurd h List.not_mem_nil
  induction j using induction_members with
  | null => decide
  | bool b => cases b <;> decide
  | int n => exact printable_int n
  | float x => exact printable_floatText x
  | str s => exact printable_quoted s
  | arr items ih =>
      rw [dumpsChars, dumpsItems_eq]
      refine Printable.append (Printable.cons (by decide) ?_) (hone (by decide))
      refine Printable.intercalate (hone (by decide)) fun cs hcs => ?_
      obtain ⟨j, hj, rfl⟩ := List.mem_map.1 hcs
      exact ih j hj
  | obj fields ih =>
      rw [dumpsChars, dumpsFields_eq]
      refine Printable.append (Printable.cons (by decide) ?_) (hone (by decide))
      refine Printable.intercalate (hone (by decide)) fun cs hcs => ?_
      obtain ⟨f, hf, rfl⟩ := List.mem_map.1 hcs
      exact (printable_quoted f.1).append (Printable.cons (by decide) (ih f hf))

theorem not_mem_dumps {c : Char} (hc : c.toNat < 0x20) (j : Json) : c ∉ (dumps j).toList := by
  intro h
  rw [dumps, String.toList_ofList] at h
  exact absurd (printable_dumpsChars j c h) (Nat.not_le_of_lt hc)

end IllumioOps.Json
