import IllumioOps.Ranges.Blocks
import Mathlib.Data.List.Induction
import Mathlib.Data.List.Nodup
import Mathlib.Tactic.IntervalCases

/-!
# Addresses and networks as texts

Python's `ipaddress`: the texts of IPv4 and IPv6 addresses and of networks, how they are read
(`ipAddress`, `ipNetwork`) and how they are written (`Address.text`, `Network.text`). What is
written is read back (`ipNetwork_text`). A network is a block of addresses of one family. Zones of
IPv6 addresses are not part of the model: a text with one is not an address here.
-/

set_option autoImplicit false

namespace IllumioOps.Ipaddress

open Ranges

/-! ## Numbers in digits -/

/-- `int(digits, base)` of digits; hexadecimal ones in either case. -/
def digitValue (c : Char) : Nat :=
  if c.isDigit then c.toNat - '0'.toNat
  else if 'a'.toNat ≤ c.toNat then c.toNat - 'a'.toNat + 10
  else c.toNat - 'A'.toNat + 10

def number (base : Nat) (digits : List Char) : Nat :=
  digits.foldl (fun n c => n * base + digitValue c) 0

/-- The digits of a fixed number of places, the first place first. -/
def places (base : Nat) : Nat → Nat → List Nat
  | 0, _ => []
  | count + 1, n => places base count (n / base) ++ [n % base]

/-- The number that digits of places stand for. -/
def value (base : Nat) (digits : List Nat) : Nat := digits.foldl (fun n d => n * base + d) 0

theorem digitValue_digitChar {n : Nat} (h : n < 16) : digitValue n.digitChar = n := by
  interval_cases n <;> decide

theorem number_toDigits {base : Nat} (hone : 1 < base) (hle : base ≤ 16) (n : Nat) :
    number base (Nat.toDigits base n) = n := by
  induction n using Nat.strong_induction_on with
  | _ n ih =>
      rcases Nat.lt_or_ge n base with h | h
      · rw [Nat.toDigits_of_lt_base h]
        simp [number, digitValue_digitChar (h.trans_le hle)]
      · have hmod : n % base < 16 := (Nat.mod_lt _ (by omega)).trans_le hle
        have hrest := ih (n / base) (Nat.div_lt_self (by omega) hone)
        unfold number at hrest
        rw [Nat.toDigits_of_base_le hone h, number, List.foldl_append, hrest]
        simp [digitValue_digitChar hmod, Nat.div_add_mod']

/-- Only zero begins with a zero. -/
theorem head?_toDigits {n : Nat} (h : 0 < n) : (Nat.toDigits 10 n).head? ≠ some '0' := by
  induction n using Nat.strong_induction_on with
  | _ n ih =>
      rcases Nat.lt_or_ge n 10 with hlt | hle
      · rw [Nat.toDigits_of_lt_base hlt]
        simp only [List.head?_cons, ne_eq, Option.some.injEq, Nat.digitChar_eq_zero]
        omega
      · have hrest := ih (n / 10) (by omega) (by omega)
        rw [Nat.toDigits_of_base_le (by omega) hle, List.head?_append_of_ne_nil _ Nat.toDigits_ne_nil]
        exact hrest

theorem length_places (base count n : Nat) : (places base count n).length = count := by
  induction count generalizing n with
  | zero => rfl
  | succ count ih => rw [places, List.length_append, ih, List.length_singleton]

theorem lt_of_mem_places {base count n d : Nat} (hpos : 0 < base) (h : d ∈ places base count n) :
    d < base := by
  induction count generalizing n with
  | zero => exact absurd h List.not_mem_nil
  | succ count ih =>
      rcases List.mem_append.1 h with h | h
      · exact ih h
      · exact List.mem_singleton.1 h ▸ Nat.mod_lt _ hpos

theorem value_places {base count n : Nat} (h : n < base ^ count) :
    value base (places base count n) = n := by
  induction count generalizing n with
  | zero =>
      obtain rfl : n = 0 := by simpa using h
      rfl
  | succ count ih =>
      have hrest := ih (Nat.div_lt_of_lt_mul (by rwa [Nat.pow_succ, Nat.mul_comm] at h))
      unfold value at hrest
      rw [places, value, List.foldl_append, hrest]
      simp [Nat.div_add_mod']

/-! ## IPv4 -/

/-- `_parse_octet` -/
def parseOctet (octet : List Char) : Option Nat :=
  if octet = [] ∨ ¬ octet.all Char.isDigit then none
  else if 3 < octet.length then none
  else if octet ≠ ['0'] ∧ octet.head? = some '0' then none
  else if 255 < number 10 octet then none
  else some (number 10 octet)

/-- `IPv4Address._ip_int_from_string` -/
def ipv4Int (text : List Char) : Option Nat :=
  let octets := text.splitOn '.'
  if octets.length ≠ 4 then none else (octets.mapM parseOctet).map (value 256)

/-- `IPv4Address._string_from_ip_int` -/
def ipv4Text (n : Nat) : List Char := ['.'].intercalate ((places 256 4 n).map (Nat.toDigits 10))

theorem mapM_eq_some {α β : Type} {f : α → Option β} {g : β → α} {xs : List β}
    (h : ∀ x ∈ xs, f (g x) = some x) : (xs.map g).mapM f = some xs := by
  induction xs with
  | nil => rfl
  | cons x xs ih =>
      have hrest := ih fun y hy => h y (List.mem_cons_of_mem _ hy)
      simp [List.mapM_cons, h x List.mem_cons_self, hrest]

theorem parseOctet_toDigits {n : Nat} (h : n < 256) : parseOctet (Nat.toDigits 10 n) = some n := by
  have hdigits : ∀ c ∈ Nat.toDigits 10 n, c.isDigit = true := fun c hc =>
    Nat.isDigit_of_mem_toDigits (by omega) (by omega) hc
  have hlength : (Nat.toDigits 10 n).length ≤ 3 :=
    (Nat.length_toDigits_le_iff (by omega) (by omega)).2 (by omega)
  have hzero : ¬ (Nat.toDigits 10 n ≠ ['0'] ∧ (Nat.toDigits 10 n).head? = some '0') := by
    rintro ⟨hne, hhead⟩
    rcases Nat.eq_zero_or_pos n with rfl | hpos
    · exact hne (Nat.toDigits_zero 10)
    · exact head?_toDigits hpos hhead
  unfold parseOctet
  rw [if_neg (by simpa using hdigits), if_neg (by omega), if_neg hzero,
    number_toDigits (by omega) (by omega), if_neg (by omega)]

theorem mem_intercalate {c sep : Char} {parts : List (List Char)}
    (h : c ∈ [sep].intercalate parts) : c = sep ∨ ∃ part ∈ parts, c ∈ part := by
  induction parts with
  | nil => exact absurd h (by simp)
  | cons part parts ih =>
      cases parts with
      | nil => exact Or.inr ⟨part, List.mem_cons_self, by simpa using h⟩
      | cons next parts =>
          rw [List.intercalate_cons_cons, List.mem_append, List.mem_append] at h
          rcases h with (h | h) | h
          · exact Or.inr ⟨part, List.mem_cons_self, h⟩
          · exact Or.inl (List.mem_singleton.1 h)
          · exact (ih h).imp_right fun ⟨part', hpart, hc⟩ => ⟨part', List.mem_cons_of_mem _ hpart, hc⟩

theorem of_mem_ipv4Text {n : Nat} {c : Char} (h : c ∈ ipv4Text n) : c.isDigit = true ∨ c = '.' := by
  rcases mem_intercalate h with rfl | ⟨part, hpart, hc⟩
  · exact Or.inr rfl
  · obtain ⟨octet, -, rfl⟩ := List.mem_map.1 hpart
    exact Or.inl (Nat.isDigit_of_mem_toDigits (by omega) (by omega) hc)

theorem ipv4Int_ipv4Text {n : Nat} (h : n < 256 ^ 4) : ipv4Int (ipv4Text n) = some n := by
  have hsplit : (ipv4Text n).splitOn '.' = (places 256 4 n).map (Nat.toDigits 10) := by
    refine List.splitOn_intercalate '.' ?_ (by simp [places])
    intro part hpart hdot
    obtain ⟨octet, -, rfl⟩ := List.mem_map.1 hpart
    exact absurd (Nat.isDigit_of_mem_toDigits (by omega) (by omega) hdot) (by decide)
  have hparsed : ((places 256 4 n).map (Nat.toDigits 10)).mapM parseOctet =
      some (places 256 4 n) :=
    mapM_eq_some fun octet hoctet => parseOctet_toDigits (lt_of_mem_places (by omega) hoctet)
  unfold ipv4Int
  simp only [hsplit]
  rw [if_neg (by simp [length_places]), hparsed, Option.map_some, value_places h]

/-! ## IPv6 -/

/-- `_parse_hextet`; `int` does not read an empty text. -/
def parseHextet (hextet : List Char) : Option Nat :=
  if ¬ hextet.all Char.isHexDigit then none
  else if 4 < hextet.length then none
  else if hextet = [] then none
  else some (number 16 hextet)

/-- An IPv4 suffix as two hextets. -/
def widenSuffix (parts : List (List Char)) : Option (List (List Char)) :=
  match parts.getLast? with
  | none => some parts
  | some suffix =>
      if '.' ∈ suffix then
        (ipv4Int suffix).map fun n =>
          parts.dropLast ++ [Nat.toDigits 16 (n / 65536), Nat.toDigits 16 (n % 65536)]
      else some parts

/-- The places of the empty parts, the two ends apart. -/
def skipIndexes (parts : List (List Char)) : List Nat :=
  (List.range parts.length).filter fun i => 0 < i ∧ i + 1 < parts.length ∧ parts[i]? = some []

/-- The hextets of the first `hi` and the last `lo` parts, and zeros between them. -/
def fillZeros (parts : List (List Char)) (hi lo : Nat) : Option (List Nat) :=
  if 8 < hi + lo + 1 then none
  else do
    let high ← (parts.take hi).mapM parseHextet
    let low ← (parts.drop (parts.length - lo)).mapM parseHextet
    some (high ++ List.replicate (8 - (hi + lo)) 0 ++ low)

/-- The eight hextets that the parts stand for. -/
def hextetsOf (parts : List (List Char)) : Option (List Nat) :=
  let openFront := parts.head? = some []
  let openBack := parts.getLast? = some []
  match skipIndexes parts with
  | [] =>
      if parts.length ≠ 8 ∨ openFront ∨ openBack then none else parts.mapM parseHextet
  | [skip] =>
      -- an empty part at an end is allowed next to the skipped ones only
      let hi := if openFront then skip - 1 else skip
      let lo := if openBack then parts.length - skip - 1 - 1 else parts.length - skip - 1
      if openFront ∧ hi ≠ 0 ∨ openBack ∧ lo ≠ 0 then none else fillZeros parts hi lo
  | _ => none

/-- `IPv6Address._ip_int_from_string` -/
def ipv6Int (text : List Char) : Option Nat :=
  let parts := text.splitOn ':'
  if parts.length < 3 then none
  else
    (widenSuffix parts).bind fun parts =>
      if 9 < parts.length then none else (hextetsOf parts).map (value 65536)

/-- Some of the hextets in a row. -/
structure Run where
  start : Nat
  length : Nat
  deriving DecidableEq, Repr

/-- One more zero, at `index`; the run begins there when it was empty. -/
def Run.grow (run : Run) (index : Nat) : Run :=
  if run.length = 0 then ⟨index, 1⟩ else ⟨run.start, run.length + 1⟩

/-- The first of the longest runs of zeros, from `index` on; `current` is the one before it. -/
def longestZeros : List (List Char) → Nat → Run → Run → Run
  | [], _, best, _ => best
  | hextet :: rest, index, best, current =>
      if hextet = ['0'] then
        let grown := current.grow index
        longestZeros rest (index + 1) (if best.length < grown.length then grown else best) grown
      else longestZeros rest (index + 1) best ⟨index, 0⟩

/-- `_compress_hextets` -/
def compressHextets (hextets : List (List Char)) : List (List Char) :=
  let best := longestZeros hextets 0 ⟨0, 0⟩ ⟨0, 0⟩
  if 1 < best.length then
    let stop := best.start + best.length
    let closed := if stop = hextets.length then hextets ++ [[]] else hextets
    let replaced := closed.take best.start ++ [[]] ++ closed.drop stop
    if best.start = 0 then [] :: replaced else replaced
  else hextets

/-- `IPv6Address._string_from_ip_int` -/
def ipv6Text (n : Nat) : List Char :=
  [':'].intercalate (compressHextets ((places 65536 8 n).map (Nat.toDigits 16)))

/-! ### What is compressed -/

/-- The run lies before `index` and holds zeros only. -/
def Run.Zeros (run : Run) (hextets : List (List Char)) (index : Nat) : Prop :=
  run.start + run.length ≤ index ∧
    ∀ i, run.start ≤ i → i < run.start + run.length → hextets[i]? = some ['0']

/-- The run ends at `index`, or is empty. -/
def Run.EndsAt (run : Run) (index : Nat) : Prop :=
  run.length ≠ 0 → run.start + run.length = index

theorem Run.EndsAt.grow {run : Run} {index : Nat} (h : run.EndsAt index) :
    (run.grow index).EndsAt (index + 1) := by
  intro _
  unfold Run.grow
  split
  · rfl
  · rename_i hsome
    have hend := h hsome
    change run.start + (run.length + 1) = index + 1
    omega

theorem Run.Zeros.grow {run : Run} {hextets : List (List Char)} {index : Nat}
    (h : run.Zeros hextets index) (hends : run.EndsAt index) (hzero : hextets[index]? = some ['0']) :
    (run.grow index).Zeros hextets (index + 1) := by
  unfold Run.grow
  split
  · refine ⟨Nat.le_refl _, fun i hstart hstop => ?_⟩
    change index ≤ i at hstart
    change i < index + 1 at hstop
    obtain rfl : i = index := by omega
    exact hzero
  · rename_i hsome
    have hend := hends hsome
    refine ⟨?_, fun i hstart hstop => ?_⟩
    · change run.start + (run.length + 1) ≤ index + 1
      omega
    · change run.start ≤ i at hstart
      change i < run.start + (run.length + 1) at hstop
      rcases Nat.lt_or_ge i (run.start + run.length) with hlt | hge
      · exact h.2 i hstart hlt
      · obtain rfl : i = index := by omega
        exact hzero

theorem Run.Zeros.later {run : Run} {hextets : List (List Char)} {index later : Nat}
    (h : run.Zeros hextets index) (hle : index ≤ later) : run.Zeros hextets later :=
  ⟨h.1.trans hle, h.2⟩

theorem Run.zeros_nil (start : Nat) (hextets : List (List Char)) :
    (⟨start, 0⟩ : Run).Zeros hextets start :=
  ⟨Nat.le_refl _, fun _ hstart hstop => absurd hstop (Nat.not_lt.2 hstart)⟩

theorem longestZeros_zeros (done rest : List (List Char)) {best current : Run}
    (hbest : best.Zeros (done ++ rest) done.length)
    (hcurrent : current.Zeros (done ++ rest) done.length) (hends : current.EndsAt done.length) :
    (longestZeros rest done.length best current).Zeros (done ++ rest) (done ++ rest).length := by
  induction rest generalizing done best current with
  | nil =>
      rw [List.append_nil] at hbest ⊢
      exact hbest
  | cons hextet rest ih =>
      have hsnoc : done ++ hextet :: rest = (done ++ [hextet]) ++ rest := by simp
      have hlength : (done ++ [hextet]).length = done.length + 1 := by simp
      unfold longestZeros
      split
      · rename_i hzero
        have hgrown := hcurrent.grow hends (by simp [hzero])
        have hbest' : (if best.length < (current.grow done.length).length
            then current.grow done.length else best).Zeros (done ++ hextet :: rest)
              (done.length + 1) := by
          split
          · exact hgrown
          · exact hbest.later (Nat.le_succ _)
        rw [hsnoc, ← hlength] at hgrown hbest' ⊢
        exact ih _ hbest' hgrown (hlength ▸ hends.grow)
      · have hbest' := hbest.later (Nat.le_succ _)
        rw [hsnoc] at hbest' ⊢
        rw [← hlength]
        refine ih _ (hlength ▸ hbest') ?_ fun h => absurd rfl h
        exact (Run.zeros_nil _ _).later (by omega)

/-- The hextets before, within and after a run of zeros that is left out. -/
theorem compressHextets_cases (hextets : List (List Char)) :
    compressHextets hextets = hextets ∨
      ∃ hi k lo, hextets = hi ++ List.replicate k ['0'] ++ lo ∧ 2 ≤ k ∧
        compressHextets hextets =
          (if hi = [] then [[]] else hi) ++ [[]] ++ (if lo = [] then [[]] else lo) := by
  have hrun := longestZeros_zeros [] hextets (Run.zeros_nil 0 _) (Run.zeros_nil 0 _)
    fun h => absurd rfl h
  unfold compressHextets
  generalize hlongest : longestZeros hextets 0 ⟨0, 0⟩ ⟨0, 0⟩ = best
  rw [List.nil_append, List.length_nil, hlongest] at hrun
  obtain ⟨start, k⟩ := best
  obtain ⟨hle, hzeros⟩ := hrun
  dsimp only at hle hzeros ⊢
  by_cases hk : 1 < k
  · right
    refine ⟨hextets.take start, k, hextets.drop (start + k), ?_, hk, ?_⟩
    · have hmiddle : (hextets.drop start).take k = List.replicate k ['0'] := by
        refine List.eq_replicate_iff.2 ⟨by rw [List.length_take, List.length_drop]; omega, ?_⟩
        intro hextet hmem
        obtain ⟨i, hi, rfl⟩ := List.mem_iff_getElem.1 hmem
        rw [List.length_take, List.length_drop] at hi
        have hzero := hzeros (start + i) (by omega) (by omega)
        rw [List.getElem_take, List.getElem_drop]
        exact (List.getElem?_eq_some_iff.1 hzero).2
      rw [← hmiddle, ← List.take_add, List.take_append_drop]
    · have htake : hextets.take start = [] ↔ start = 0 := by
        rw [List.take_eq_nil_iff]
        refine or_iff_left fun hnil => ?_
        rw [hnil, List.length_nil] at hle
        omega
      have hback : (if start + k = hextets.length then hextets ++ [[]] else hextets).drop (start + k) =
          if hextets.drop (start + k) = [] then [[]] else hextets.drop (start + k) := by
        by_cases hstop : start + k = hextets.length
        · simp [hstop]
        · have hrest : hextets.drop (start + k) ≠ [] := by
            rw [ne_eq, List.drop_eq_nil_iff]
            omega
          rw [if_neg hstop, if_neg hrest]
      have hfront : (if start + k = hextets.length then hextets ++ [[]] else hextets).take start =
          hextets.take start := by
        split
        · exact List.take_append_of_le_length (by omega)
        · rfl
      rw [if_pos hk, hback, hfront]
      by_cases hstart : start = 0
      · rw [if_pos hstart, if_pos (htake.2 hstart), htake.2 hstart]
        rfl
      · rw [if_neg hstart, if_neg (mt htake.1 hstart)]
  · exact Or.inl (if_neg hk)

/-! ### What is read back -/

theorem isHexDigit_of_mem_toDigits {n : Nat} {c : Char} (h : c ∈ Nat.toDigits 16 n) :
    c.isHexDigit = true := by
  have hdigit : ∀ d < 16, d.digitChar.isHexDigit = true := by decide
  induction n using Nat.strong_induction_on with
  | _ n ih =>
      rcases Nat.lt_or_ge n 16 with hlt | hle
      · rw [Nat.toDigits_of_lt_base hlt, List.mem_singleton] at h
        exact h ▸ hdigit n hlt
      · rw [Nat.toDigits_of_base_le (by omega) hle, List.mem_append, List.mem_singleton] at h
        rcases h with h | rfl
        · exact ih (n / 16) (by omega) h
        · exact hdigit _ (Nat.mod_lt _ (by omega))

theorem parseHextet_toDigits {n : Nat} (h : n < 65536) :
    parseHextet (Nat.toDigits 16 n) = some n := by
  have hdigits : (Nat.toDigits 16 n).all Char.isHexDigit = true :=
    List.all_eq_true.2 fun c => isHexDigit_of_mem_toDigits
  have hlength : (Nat.toDigits 16 n).length ≤ 4 :=
    (Nat.length_toDigits_le_iff (by omega) (by omega)).2 (by omega)
  unfold parseHextet
  rw [if_neg (not_not.2 hdigits), if_neg (by omega), if_neg Nat.toDigits_ne_nil,
    number_toDigits (by omega) (by omega)]

/-- Texts of hextets. -/
def Hextets (parts : List (List Char)) (values : List Nat) : Prop :=
  parts = values.map (Nat.toDigits 16) ∧ ∀ n ∈ values, n < 65536

theorem Hextets.mapM {parts : List (List Char)} {values : List Nat} (h : Hextets parts values) :
    parts.mapM parseHextet = some values := by
  rw [h.1]
  exact mapM_eq_some fun n hn => parseHextet_toDigits (h.2 n hn)

theorem Hextets.ne_nil {parts : List (List Char)} {values : List Nat} (h : Hextets parts values) :
    ∀ part ∈ parts, part ≠ [] := by
  intro part hpart
  rw [h.1] at hpart
  obtain ⟨n, -, rfl⟩ := List.mem_map.1 hpart
  exact Nat.toDigits_ne_nil

/-- One place of a range. -/
theorem filter_range_eq_singleton {n k : Nat} {p : Nat → Bool} (hk : k < n)
    (h : ∀ i < n, p i = true ↔ i = k) : (List.range n).filter p = [k] := by
  have hsame : (List.range n).filter p = (List.range n).filter (· == k) :=
    List.filter_congr fun i hi => by
      rw [Bool.eq_iff_iff, h i (List.mem_range.1 hi), beq_iff_eq]
  rw [hsame, List.filter_beq, List.count_eq_one_of_mem List.nodup_range (List.mem_range.2 hk)]
  rfl

theorem hextetsOf_all {parts : List (List Char)} {values : List Nat} (h : Hextets parts values)
    (hlength : parts.length = 8) : hextetsOf parts = some values := by
  have hskip : skipIndexes parts = [] := by
    refine List.filter_eq_nil_iff.2 fun i _ hi => ?_
    simp only [decide_eq_true_eq] at hi
    exact h.ne_nil _ (List.mem_of_getElem? hi.2.2) rfl
  have hfront : parts.head? ≠ some [] := fun hhead => h.ne_nil _ (List.mem_of_head? hhead) rfl
  have hback : parts.getLast? ≠ some [] := fun hlast =>
    h.ne_nil _ (List.mem_of_getLast? hlast) rfl
  unfold hextetsOf
  rw [hskip]
  simp only [hlength, hfront, hback, ne_eq, not_true_eq_false, or_self, if_false]
  exact h.mapM

/-- The parts around `::`; an end without parts is empty. -/
def around (hi lo : List (List Char)) : List (List Char) :=
  (if hi = [] then [[]] else hi) ++ [[]] ++ (if lo = [] then [[]] else lo)

section

variable {hi lo : List (List Char)}

theorem length_end (parts : List (List Char)) :
    (if parts = [] then [[]] else parts).length = max 1 parts.length := by
  cases parts with
  | nil => rfl
  | cons part parts =>
      rw [if_neg (List.cons_ne_nil _ _), List.length_cons]
      omega

/-- An empty part of an end is its only one. -/
theorem getElem?_end {parts : List (List Char)} (h : ∀ part ∈ parts, part ≠ []) {i : Nat}
    (hi : (if parts = [] then [[]] else parts)[i]? = some []) : i = 0 ∧ parts = [] := by
  cases parts with
  | nil =>
      rw [if_pos rfl] at hi
      cases i with
      | zero => exact ⟨rfl, rfl⟩
      | succ i => simp at hi
  | cons part parts =>
      rw [if_neg (List.cons_ne_nil _ _)] at hi
      exact absurd rfl (h _ (List.mem_of_getElem? hi))

theorem length_around :
    (around hi lo).length = max 1 hi.length + 1 + max 1 lo.length := by
  rw [around, List.length_append, List.length_append, length_end, length_end]
  rfl

theorem head?_around (hhi : ∀ part ∈ hi, part ≠ []) :
    (around hi lo).head? = some [] ↔ hi = [] := by
  cases hi with
  | nil => simp [around]
  | cons part hi => simpa [around] using hhi part List.mem_cons_self

theorem getLast?_around (hlo : ∀ part ∈ lo, part ≠ []) :
    (around hi lo).getLast? = some [] ↔ lo = [] := by
  rcases List.eq_nil_or_concat lo with rfl | ⟨lo, part, rfl⟩
  · simp [around]
  · rw [List.concat_eq_append] at hlo ⊢
    rw [around, if_neg (List.append_ne_nil_of_right_ne_nil lo (List.cons_ne_nil part [])),
      ← List.append_assoc, List.getLast?_concat]
    simpa using hlo part (by simp)

/-- The only empty part that is not at an end is the one that stands for the zeros. -/
theorem skipIndexes_around (hhi : ∀ part ∈ hi, part ≠ []) (hlo : ∀ part ∈ lo, part ≠ []) :
    skipIndexes (around hi lo) = [max 1 hi.length] := by
  have hlength := @length_around hi lo
  refine filter_range_eq_singleton (by omega) fun i _ => ?_
  rw [decide_eq_true_eq, hlength]
  constructor
  · rintro ⟨hpos, hlast, hempty⟩
    rw [around, List.append_assoc] at hempty
    rcases Nat.lt_trichotomy i (max 1 hi.length) with hlt | heq | hgt
    · rw [List.getElem?_append_left (by rwa [length_end])] at hempty
      have hzero := (getElem?_end hhi hempty).1
      omega
    · exact heq
    · rw [List.getElem?_append_right (by rw [length_end]; omega),
        List.getElem?_append_right (by rw [length_end, List.length_singleton]; omega)] at hempty
      obtain ⟨hplace, rfl⟩ := getElem?_end hlo hempty
      rw [length_end, List.length_singleton] at hplace
      rw [List.length_nil] at hlast
      omega
  · rintro rfl
    refine ⟨by omega, by omega, ?_⟩
    rw [around, List.append_assoc, List.getElem?_append_right (by rw [length_end]), length_end,
      Nat.sub_self]
    rfl

/-- What is left of the ends when the empty ones are taken off. -/
theorem hextetsOf_around {high low : List Nat} (hhi : Hextets hi high) (hlo : Hextets lo low)
    (hlength : hi.length + lo.length < 8) :
    hextetsOf (around hi lo) =
      some (high ++ List.replicate (8 - (hi.length + lo.length)) 0 ++ low) := by
  have hfront : (if (around hi lo).head? = some [] then max 1 hi.length - 1 else max 1 hi.length) =
      hi.length := by
    simp only [head?_around hhi.ne_nil]
    cases hi with
    | nil => rfl
    | cons part hi =>
        rw [if_neg (List.cons_ne_nil _ _), List.length_cons]
        omega
  have hback : (if (around hi lo).getLast? = some []
        then (around hi lo).length - max 1 hi.length - 1 - 1
        else (around hi lo).length - max 1 hi.length - 1) = lo.length := by
    simp only [getLast?_around hlo.ne_nil, length_around]
    cases lo with
    | nil =>
        rw [if_pos rfl, List.length_nil]
        omega
    | cons part lo =>
        rw [if_neg (List.cons_ne_nil _ _), List.length_cons]
        omega
  have hopenFront : ¬ ((around hi lo).head? = some [] ∧ hi.length ≠ 0) := by
    rw [head?_around hhi.ne_nil]
    rintro ⟨rfl, h⟩
    exact h rfl
  have hopenBack : ¬ ((around hi lo).getLast? = some [] ∧ lo.length ≠ 0) := by
    rw [getLast?_around hlo.ne_nil]
    rintro ⟨rfl, h⟩
    exact h rfl
  have htake : (around hi lo).take hi.length = hi := by
    cases hi with
    | nil => rfl
    | cons part hi => simp [around]
  have hdrop : (around hi lo).drop ((around hi lo).length - lo.length) = lo := by
    cases lo with
    | nil => simp
    | cons part lo =>
        rw [around, if_neg (List.cons_ne_nil _ _), List.length_append, Nat.add_sub_cancel,
          List.drop_left]
  unfold hextetsOf
  rw [skipIndexes_around hhi.ne_nil hlo.ne_nil]
  simp only [hfront, hback, hopenFront, hopenBack, or_self, if_false]
  rw [fillZeros, if_neg (by omega), htake, hdrop, hhi.mapM, hlo.mapM]
  rfl

end

theorem hextets_places (n : Nat) :
    Hextets ((places 65536 8 n).map (Nat.toDigits 16)) (places 65536 8 n) :=
  ⟨rfl, fun _ h => lt_of_mem_places (by omega) h⟩

/-- The parts that are written are read as the hextets they were written for. -/
theorem hextetsOf_compressHextets {parts : List (List Char)} {values : List Nat}
    (h : Hextets parts values) (hlength : parts.length = 8) :
    hextetsOf (compressHextets parts) = some values := by
  rcases compressHextets_cases parts with hsame | ⟨hi, k, lo, hparts, hk, hcompress⟩
  · rw [hsame]
    exact hextetsOf_all h hlength
  · obtain ⟨hvalues, hlt⟩ := h
    rw [hparts] at hvalues
    obtain ⟨front, low, rfl, hfront, hlow⟩ := List.append_eq_map_iff.1 hvalues
    obtain ⟨high, zeros, rfl, hhigh, hzeros⟩ := List.append_eq_map_iff.1 hfront.symm
    have hzero : zeros = List.replicate k 0 := by
      refine List.eq_replicate_iff.2 ⟨?_, fun n hn => ?_⟩
      · rw [← List.length_map (Nat.toDigits 16), hzeros, List.length_replicate]
      · have hdigits : Nat.toDigits 16 n ∈ List.replicate k ['0'] :=
          hzeros ▸ List.mem_map_of_mem hn
        rw [← number_toDigits (by omega) (Nat.le_refl 16) n, List.eq_of_mem_replicate hdigits]
        rfl
    have hcount : k = 8 - (hi.length + lo.length) := by
      rw [hparts, List.length_append, List.length_append, List.length_replicate] at hlength
      omega
    rw [hcompress, hzero, hcount]
    refine hextetsOf_around ⟨hhigh.symm, fun n hn => hlt n ?_⟩ ⟨hlow.symm, fun n hn => hlt n ?_⟩
      (by omega)
    · exact List.mem_append_left _ (List.mem_append_left _ hn)
    · exact List.mem_append_right _ hn

/-- What a part that is written consists of. -/
theorem of_mem_compressHextets {parts : List (List Char)} {part : List Char}
    (h : part ∈ compressHextets parts) : part = [] ∨ part ∈ parts := by
  rcases compressHextets_cases parts with hsame | ⟨hi, k, lo, hparts, -, hcompress⟩
  · exact Or.inr (hsame ▸ h)
  · have hend : ∀ ends : List (List Char), part ∈ (if ends = [] then [[]] else ends) →
        part = [] ∨ part ∈ ends := by
      intro ends hmem
      split at hmem
      · exact Or.inl (List.mem_singleton.1 hmem)
      · exact Or.inr hmem
    rw [hcompress, List.mem_append, List.mem_append, List.mem_singleton] at h
    rw [hparts]
    rcases h with (h | h) | h
    · exact (hend hi h).imp_right fun hmem =>
        List.mem_append_left _ (List.mem_append_left _ hmem)
    · exact Or.inl h
    · exact (hend lo h).imp_right fun hmem => List.mem_append_right _ hmem

theorem of_mem_ipv6Text {n : Nat} {c : Char} (h : c ∈ ipv6Text n) :
    c.isHexDigit = true ∨ c = ':' := by
  rcases mem_intercalate h with rfl | ⟨part, hpart, hc⟩
  · exact Or.inr rfl
  · rcases of_mem_compressHextets hpart with rfl | hmem
    · exact absurd hc List.not_mem_nil
    · obtain ⟨d, -, rfl⟩ := List.mem_map.1 hmem
      exact Or.inl (isHexDigit_of_mem_toDigits hc)

theorem length_compressHextets {parts : List (List Char)} (hlength : parts.length = 8) :
    3 ≤ (compressHextets parts).length ∧ (compressHextets parts).length ≤ 9 := by
  rcases compressHextets_cases parts with hsame | ⟨hi, k, lo, hparts, hk, hcompress⟩
  · rw [hsame]
    omega
  · have hlen := @length_around hi lo
    rw [hparts, List.length_append, List.length_append, List.length_replicate] at hlength
    rw [hcompress]
    change 3 ≤ (around hi lo).length ∧ (around hi lo).length ≤ 9
    omega

theorem ipv6Int_ipv6Text {n : Nat} (h : n < 65536 ^ 8) : ipv6Int (ipv6Text n) = some n := by
  have hparts : ((places 65536 8 n).map (Nat.toDigits 16)).length = 8 := by
    rw [List.length_map, length_places]
  obtain ⟨hthree, hnine⟩ := length_compressHextets hparts
  have hsplit : (ipv6Text n).splitOn ':' =
      compressHextets ((places 65536 8 n).map (Nat.toDigits 16)) := by
    refine List.splitOn_intercalate ':' ?_ (List.ne_nil_of_length_pos (by omega))
    intro part hpart hcolon
    rcases of_mem_compressHextets hpart with rfl | hmem
    · exact absurd hcolon List.not_mem_nil
    · obtain ⟨d, -, rfl⟩ := List.mem_map.1 hmem
      exact absurd (isHexDigit_of_mem_toDigits hcolon) (by decide)
  have hsuffix : widenSuffix (compressHextets ((places 65536 8 n).map (Nat.toDigits 16))) =
      some (compressHextets ((places 65536 8 n).map (Nat.toDigits 16))) := by
    unfold widenSuffix
    split
    · rfl
    · rename_i suffix hlast
      refine if_neg fun hdot => ?_
      rcases of_mem_compressHextets (List.mem_of_getLast? hlast) with rfl | hmem
      · exact absurd hdot List.not_mem_nil
      · obtain ⟨d, -, rfl⟩ := List.mem_map.1 hmem
        exact absurd (isHexDigit_of_mem_toDigits hdot) (by decide)
  unfold ipv6Int
  simp only [hsplit]
  rw [if_neg (by omega), hsuffix, Option.bind_some, if_neg (by omega),
    hextetsOf_compressHextets (hextets_places n) hparts, Option.map_some, value_places h]

/-! ## Addresses -/

theorem value_lt {base : Nat} {digits : List Nat} (h : ∀ d ∈ digits, d < base) :
    value base digits < base ^ digits.length := by
  induction digits using List.reverseRecOn with
  | nil => exact Nat.one_pos
  | append_singleton digits d ih =>
      have hrest := ih fun d' hd' => h d' (List.mem_append_left _ hd')
      have hd : d < base := h d (List.mem_append_right _ List.mem_cons_self)
      rw [value, List.foldl_append, List.length_append, List.length_singleton, Nat.pow_succ]
      change value base digits * base + d < _
      calc
        value base digits * base + d < (value base digits + 1) * base := by
          rw [Nat.add_mul, Nat.one_mul]
          omega
        _ ≤ base ^ digits.length * base := Nat.mul_le_mul_right _ hrest

theorem number_lt {base : Nat} {digits : List Char} (h : ∀ c ∈ digits, digitValue c < base) :
    number base digits < base ^ digits.length := by
  have hvalue : number base digits = value base (digits.map digitValue) := by
    rw [value, List.foldl_map]
    rfl
  rw [hvalue, ← List.length_map digitValue]
  refine value_lt fun d hd => ?_
  obtain ⟨c, hc, rfl⟩ := List.mem_map.1 hd
  exact h c hc

theorem digitValue_lt_ten {c : Char} (h : c.isDigit = true) : digitValue c < 10 := by
  rw [digitValue, if_pos h]
  rw [Char.isDigit_iff_toNat] at h
  change '0'.toNat ≤ c.toNat ∧ c.toNat ≤ 57 at h
  change c.toNat - 48 < 10
  omega

theorem digitValue_lt {c : Char} (h : c.isHexDigit = true) : digitValue c < 16 := by
  by_cases hdigit : c.isDigit = true
  · exact (digitValue_lt_ten hdigit).trans (by omega)
  · simp only [Char.isHexDigit, hdigit, Bool.false_or, Bool.or_eq_true, Bool.and_eq_true,
      decide_eq_true_eq, ge_iff_le, UInt32.le_iff_toNat_le] at h
    change 97 ≤ c.toNat ∧ c.toNat ≤ 102 ∨ 65 ≤ c.toNat ∧ c.toNat ≤ 70 at h
    rw [digitValue, if_neg hdigit]
    change (if 97 ≤ c.toNat then c.toNat - 97 + 10 else c.toNat - 65 + 10) < 16
    split <;> omega

theorem of_mapM_eq_some {α β : Type} {f : α → Option β} {xs : List α} {ys : List β}
    (h : xs.mapM f = some ys) : ys.length = xs.length ∧ ∀ y ∈ ys, ∃ x ∈ xs, f x = some y := by
  induction xs generalizing ys with
  | nil =>
      obtain rfl : ys = [] := by simpa using h.symm
      exact ⟨rfl, fun y hy => absurd hy List.not_mem_nil⟩
  | cons x xs ih =>
      rw [List.mapM_cons] at h
      obtain ⟨y, hy, h⟩ := Option.bind_eq_some_iff.1 h
      obtain ⟨rest, hrest, hys⟩ := Option.bind_eq_some_iff.1 h
      obtain rfl : ys = y :: rest := by simpa using hys.symm
      obtain ⟨hlength, hmem⟩ := ih hrest
      refine ⟨by rw [List.length_cons, List.length_cons, hlength], fun z hz => ?_⟩
      rcases List.mem_cons.1 hz with rfl | hz
      · exact ⟨x, List.mem_cons_self, hy⟩
      · obtain ⟨x', hx', hf⟩ := hmem z hz
        exact ⟨x', List.mem_cons_of_mem _ hx', hf⟩

theorem parseOctet_lt {octet : List Char} {n : Nat} (h : parseOctet octet = some n) : n < 256 := by
  unfold parseOctet at h
  split at h
  · cases h
  split at h
  · cases h
  split at h
  · cases h
  split at h
  · cases h
  · rename_i hle
    obtain rfl := Option.some.inj h
    omega

theorem ipv4Int_lt {text : List Char} {n : Nat} (h : ipv4Int text = some n) : n < 2 ^ 32 := by
  unfold ipv4Int at h
  dsimp only at h
  split at h
  · cases h
  · rename_i hfour
    obtain ⟨octets, hoctets, rfl⟩ := Option.map_eq_some_iff.1 h
    obtain ⟨hlength, hmem⟩ := of_mapM_eq_some hoctets
    have hlt : value 256 octets < 256 ^ octets.length := by
      refine value_lt fun d hd => ?_
      obtain ⟨octet, -, hoctet⟩ := hmem d hd
      exact parseOctet_lt hoctet
    rw [hlength, not_not.1 hfour] at hlt
    exact hlt

theorem parseHextet_lt {hextet : List Char} {n : Nat} (h : parseHextet hextet = some n) :
    n < 65536 := by
  unfold parseHextet at h
  split at h
  · cases h
  rename_i hdigits
  split at h
  · cases h
  rename_i hlength
  split at h
  · cases h
  · obtain rfl := Option.some.inj h
    have hlt := number_lt fun c hc =>
      digitValue_lt (List.all_eq_true.1 (not_not.1 hdigits) c hc)
    refine hlt.trans_le ?_
    exact Nat.pow_le_pow_right (by omega) (show hextet.length ≤ 4 by omega)

theorem of_fillZeros {parts : List (List Char)} {hi lo : Nat} {values : List Nat}
    (h : fillZeros parts hi lo = some values) : values.length ≤ 8 ∧ ∀ n ∈ values, n < 65536 := by
  unfold fillZeros at h
  split at h
  · cases h
  rename_i hcount
  obtain ⟨high, hhigh, h⟩ := Option.bind_eq_some_iff.1 h
  obtain ⟨low, hlow, h⟩ := Option.bind_eq_some_iff.1 h
  obtain rfl := Option.some.inj h
  obtain ⟨hhighLength, hhighMem⟩ := of_mapM_eq_some hhigh
  obtain ⟨hlowLength, hlowMem⟩ := of_mapM_eq_some hlow
  constructor
  · rw [List.length_take] at hhighLength
    rw [List.length_drop] at hlowLength
    rw [List.length_append, List.length_append, List.length_replicate]
    omega
  · intro n hn
    rcases List.mem_append.1 hn with hn | hn
    · rcases List.mem_append.1 hn with hn | hn
      · obtain ⟨part, -, hpart⟩ := hhighMem n hn
        exact parseHextet_lt hpart
      · rw [List.eq_of_mem_replicate hn]
        omega
    · obtain ⟨part, -, hpart⟩ := hlowMem n hn
      exact parseHextet_lt hpart

/-- Eight hextets at most. -/
theorem of_hextetsOf {parts : List (List Char)} {values : List Nat}
    (h : hextetsOf parts = some values) : values.length ≤ 8 ∧ ∀ n ∈ values, n < 65536 := by
  unfold hextetsOf at h
  dsimp only at h
  split at h
  · split at h
    · cases h
    · rename_i hends
      obtain ⟨hlength, hmem⟩ := of_mapM_eq_some h
      refine ⟨by omega, fun n hn => ?_⟩
      obtain ⟨part, -, hpart⟩ := hmem n hn
      exact parseHextet_lt hpart
  · rename_i skip _
    generalize (if parts.head? = some [] then skip - 1 else skip) = hi at h
    generalize (if parts.getLast? = some [] then parts.length - skip - 1 - 1
      else parts.length - skip - 1) = lo at h
    split at h
    · cases h
    · exact of_fillZeros h
  · cases h

theorem ipv6Int_lt {text : List Char} {n : Nat} (h : ipv6Int text = some n) : n < 2 ^ 128 := by
  unfold ipv6Int at h
  dsimp only at h
  split at h
  · cases h
  obtain ⟨parts, -, h⟩ := Option.bind_eq_some_iff.1 h
  split at h
  · cases h
  obtain ⟨values, hvalues, rfl⟩ := Option.map_eq_some_iff.1 h
  obtain ⟨hlength, hlt⟩ := of_hextetsOf hvalues
  calc
    value 65536 values < 65536 ^ values.length := value_lt hlt
    _ ≤ 65536 ^ 8 := Nat.pow_le_pow_right (by omega) hlength

/-- An address of one of the two families. -/
inductive Address where
  | v4 (n : Fin (2 ^ 32))
  | v6 (n : Fin (2 ^ 128))
  deriving DecidableEq, Repr

/-- `IPv4Address` of a text. -/
def ipv4Address (text : List Char) : Option (Fin (2 ^ 32)) :=
  match h : ipv4Int text with
  | some n => some ⟨n, ipv4Int_lt h⟩
  | none => none

/-- `IPv6Address` of a text. -/
def ipv6Address (text : List Char) : Option (Fin (2 ^ 128)) :=
  match h : ipv6Int text with
  | some n => some ⟨n, ipv6Int_lt h⟩
  | none => none

/-- `ip_address` -/
def ipAddress (text : List Char) : Option Address :=
  ((ipv4Address text).map .v4).or ((ipv6Address text).map .v6)

/-- `str(address)` -/
def Address.text : Address → List Char
  | .v4 n => ipv4Text n
  | .v6 n => ipv6Text n

theorem ipv4Address_ipv4Text (n : Fin (2 ^ 32)) : ipv4Address (ipv4Text n) = some n := by
  have hread := ipv4Int_ipv4Text n.isLt
  unfold ipv4Address
  split
  · rename_i m hm
    obtain rfl := Option.some.inj (hread.symm.trans hm)
    rfl
  · rename_i hnone
    rw [hread] at hnone
    cases hnone

theorem ipv6Address_ipv6Text (n : Fin (2 ^ 128)) : ipv6Address (ipv6Text n) = some n := by
  have hread := ipv6Int_ipv6Text n.isLt
  unfold ipv6Address
  split
  · rename_i m hm
    obtain rfl := Option.some.inj (hread.symm.trans hm)
    rfl
  · rename_i hnone
    rw [hread] at hnone
    cases hnone

/-- A text without a point is not an IPv4 address. -/
theorem ipv4Address_eq_none {text : List Char} (h : '.' ∉ text) : ipv4Address text = none := by
  have hnone : ipv4Int text = none := by
    unfold ipv4Int
    rw [List.splitOn_eq_singleton h]
    rfl
  unfold ipv4Address
  split
  · rename_i n hn
    rw [hnone] at hn
    cases hn
  · rfl

theorem not_mem_ipv6Text {n : Nat} {c : Char} (hdigit : c.isHexDigit = false) (hcolon : c ≠ ':') :
    c ∉ ipv6Text n := by
  intro h
  rcases of_mem_ipv6Text h with h | h
  · rw [hdigit] at h
    cases h
  · exact hcolon h

theorem not_mem_ipv4Text {n : Nat} {c : Char} (hdigit : c.isDigit = false) (hpoint : c ≠ '.') :
    c ∉ ipv4Text n := by
  intro h
  rcases of_mem_ipv4Text h with h | h
  · rw [hdigit] at h
    cases h
  · exact hpoint h

/-! ## Networks -/

/-- A network: a block of addresses of one family. -/
inductive Network where
  | v4 (block : Block 32)
  | v6 (block : Block 128)
  deriving DecidableEq, Repr

/-- `_prefix_from_prefix_string` -/
def prefixFromPrefixString (bits : Nat) (text : List Char) : Option Nat :=
  if text = [] ∨ ¬ text.all Char.isDigit then none
  else if bits < number 10 text then none
  else some (number 10 text)

/-- `_prefix_from_ip_int` of a mask of 32 bits. -/
def prefixFromIpInt (n : Nat) : Option Nat :=
  let zeros := Block.rightZeros n 32
  if n / 2 ^ zeros ≠ 2 ^ (32 - zeros) - 1 then none else some (32 - zeros)

/-- `IPv4Network._make_netmask` of a text: a length, a netmask or a hostmask. -/
def ipv4Prefix (mask : List Char) : Option Nat :=
  (prefixFromPrefixString 32 mask).or
    ((ipv4Int mask).bind fun n => (prefixFromIpInt n).or (prefixFromIpInt (2 ^ 32 - 1 - n)))

/-- `_split_addr_prefix`: the address, and the mask where there is one. -/
def splitAddrPrefix (text : List Char) : Option (List Char × Option (List Char)) :=
  match text.splitOn '/' with
  | [address] => some (address, none)
  | [address, mask] => some (address, some mask)
  | _ => none

/-- The network of a length that the address is in: its host bits are taken off. -/
def networkOf (bits : Nat) (n : Fin (2 ^ bits)) (prefixlen : Nat) : Block bits :=
  Block.around n (bits - prefixlen) (Nat.sub_le _ _) n.isLt

/-- `IPv4Network(text, strict=False)` -/
def ipv4Network (text : List Char) : Option (Block 32) := do
  let (address, mask) ← splitAddrPrefix text
  let n ← ipv4Address address
  let prefixlen ← mask.elim (some 32) ipv4Prefix
  some (networkOf 32 n prefixlen)

/-- `IPv6Network(text, strict=False)` -/
def ipv6Network (text : List Char) : Option (Block 128) := do
  let (address, mask) ← splitAddrPrefix text
  let n ← ipv6Address address
  let prefixlen ← mask.elim (some 128) (prefixFromPrefixString 128)
  some (networkOf 128 n prefixlen)

/-- `ip_network(text, strict=False)` -/
def ipNetwork (text : List Char) : Option Network :=
  ((ipv4Network text).map .v4).or ((ipv6Network text).map .v6)

namespace Network

/-- `address in network` -/
def Has : Network → Address → Prop
  | .v4 block, .v4 n => block.Has n
  | .v6 block, .v6 n => block.Has n
  | .v4 _, .v6 _ => False
  | .v6 _, .v4 _ => False

instance (n : Network) (a : Address) : Decidable (n.Has a) := by
  cases n <;> cases a <;> unfold Has <;> infer_instance

/-- `ip_network(address)`: the network of this address only. -/
def single : Address → Network
  | .v4 n => .v4 (Block.single n n.isLt)
  | .v6 n => .v6 (Block.single n n.isLt)

/-- `network_address` -/
def networkAddress : Network → Address
  | .v4 block => .v4 ⟨block.first, block.first_lt⟩
  | .v6 block => .v6 ⟨block.first, block.first_lt⟩

/-- `num_addresses == 1` -/
def isHost : Network → Bool
  | .v4 block => block.free == 0
  | .v6 block => block.free == 0

def prefixlen : Network → Nat
  | .v4 block => 32 - block.free
  | .v6 block => 128 - block.free

/-- `str(network)` -/
def text (n : Network) : List Char :=
  n.networkAddress.text ++ '/' :: Nat.toDigits 10 n.prefixlen

/-! ### What is written is read back -/

/-- The network of a block's first address and its length is the block. -/
theorem networkOf_first {bits : Nat} (b : Block bits) :
    networkOf bits ⟨b.first, b.first_lt⟩ (bits - b.free) = b := by
  have hfree : bits - (bits - b.free) = b.free := Nat.sub_sub_self b.free_le
  have hlead : b.first / 2 ^ (bits - (bits - b.free)) = b.lead := by
    rw [hfree]
    exact b.has_first
  cases b
  simp only [networkOf, Block.around, Block.mk.injEq]
  exact ⟨hlead, hfree⟩

theorem networkOf_all {bits : Nat} (n : Fin (2 ^ bits)) :
    networkOf bits n bits = Block.single n n.isLt := by
  simp [networkOf, Block.around, Block.single]

theorem prefixFromPrefixString_toDigits {bits n : Nat} (h : n ≤ bits) :
    prefixFromPrefixString bits (Nat.toDigits 10 n) = some n := by
  have hdigits : (Nat.toDigits 10 n).all Char.isDigit = true :=
    List.all_eq_true.2 fun c hc => Nat.isDigit_of_mem_toDigits (by omega) (by omega) hc
  unfold prefixFromPrefixString
  rw [if_neg (by simp [hdigits]), number_toDigits (by omega) (by omega), if_neg (by omega)]

theorem splitAddrPrefix_address {address : List Char} (h : '/' ∉ address) :
    splitAddrPrefix address = some (address, none) := by
  rw [splitAddrPrefix, List.splitOn_eq_singleton h]

theorem splitAddrPrefix_mask {address mask : List Char} (h : '/' ∉ address) (hmask : '/' ∉ mask) :
    splitAddrPrefix (address ++ '/' :: mask) = some (address, some mask) := by
  rw [splitAddrPrefix, List.splitOn_append_cons_self_of_not_mem h, List.splitOn_eq_singleton hmask]

theorem not_mem_toDigits {n : Nat} {c : Char} (h : c.isDigit = false) :
    c ∉ Nat.toDigits 10 n := fun hc => by
  rw [Nat.isDigit_of_mem_toDigits (by omega) (by omega) hc] at h
  cases h

theorem ipNetwork_v4 {text : List Char} {block : Block 32} (h : ipv4Network text = some block) :
    ipNetwork text = some (.v4 block) := by
  rw [ipNetwork, h]
  rfl

/-- What cannot be an IPv4 network is read as an IPv6 one. -/
theorem ipNetwork_v6 {text address : List Char} {mask : Option (List Char)} {block : Block 128}
    (hsplit : splitAddrPrefix text = some (address, mask)) (hpoint : '.' ∉ address)
    (h : ipv6Network text = some block) : ipNetwork text = some (.v6 block) := by
  have hnone : ipv4Network text = none := by
    rw [ipv4Network, hsplit]
    change (ipv4Address address).bind _ = none
    rw [ipv4Address_eq_none hpoint]
    rfl
  rw [ipNetwork, hnone, h]
  rfl

theorem ipv4Network_eq {text address : List Char} {mask : Option (List Char)} {n : Fin (2 ^ 32)}
    {p : Nat} (hsplit : splitAddrPrefix text = some (address, mask))
    (haddress : ipv4Address address = some n) (hmask : mask.elim (some 32) ipv4Prefix = some p) :
    ipv4Network text = some (networkOf 32 n p) := by
  simp only [ipv4Network, hsplit, haddress, hmask, Option.bind_eq_bind, Option.bind_some]

theorem ipv6Network_eq {text address : List Char} {mask : Option (List Char)} {n : Fin (2 ^ 128)}
    {p : Nat} (hsplit : splitAddrPrefix text = some (address, mask))
    (haddress : ipv6Address address = some n)
    (hmask : mask.elim (some 128) (prefixFromPrefixString 128) = some p) :
    ipv6Network text = some (networkOf 128 n p) := by
  simp only [ipv6Network, hsplit, haddress, hmask, Option.bind_eq_bind, Option.bind_some]

/-- The text of an address is read as the network of it alone. -/
theorem ipNetwork_address (a : Address) : ipNetwork a.text = some (single a) := by
  cases a with
  | v4 n =>
      have hsplit := splitAddrPrefix_address (@not_mem_ipv4Text n '/' rfl (by decide))
      have hnetwork := ipv4Network_eq hsplit (ipv4Address_ipv4Text n) rfl
      rw [networkOf_all] at hnetwork
      exact ipNetwork_v4 hnetwork
  | v6 n =>
      have hsplit := splitAddrPrefix_address (@not_mem_ipv6Text n '/' (by decide) (by decide))
      have hnetwork := ipv6Network_eq hsplit (ipv6Address_ipv6Text n) rfl
      rw [networkOf_all] at hnetwork
      exact ipNetwork_v6 hsplit (not_mem_ipv6Text (by decide) (by decide)) hnetwork

/-- The text of a network is read as the network. -/
theorem ipNetwork_text (n : Network) : ipNetwork n.text = some n := by
  have hslash : ∀ p, '/' ∉ Nat.toDigits 10 p := fun p => not_mem_toDigits rfl
  cases n with
  | v4 block =>
      have hsplit := splitAddrPrefix_mask (@not_mem_ipv4Text block.first '/' rfl (by decide))
        (hslash (32 - block.free))
      have hmask : ipv4Prefix (Nat.toDigits 10 (32 - block.free)) = some (32 - block.free) := by
        rw [ipv4Prefix, prefixFromPrefixString_toDigits (Nat.sub_le _ _), Option.some_or]
      have hnetwork := ipv4Network_eq hsplit
        (ipv4Address_ipv4Text ⟨block.first, block.first_lt⟩) hmask
      rw [networkOf_first] at hnetwork
      exact ipNetwork_v4 hnetwork
  | v6 block =>
      have hsplit := splitAddrPrefix_mask
        (@not_mem_ipv6Text block.first '/' (by decide) (by decide)) (hslash (128 - block.free))
      have hnetwork := ipv6Network_eq hsplit
        (ipv6Address_ipv6Text ⟨block.first, block.first_lt⟩)
        (prefixFromPrefixString_toDigits (Nat.sub_le _ _))
      rw [networkOf_first] at hnetwork
      exact ipNetwork_v6 hsplit (not_mem_ipv6Text (by decide) (by decide)) hnetwork

/-- No dash is written. -/
theorem dash_not_mem_text (n : Network) : '-' ∉ n.text := by
  have haddress : '-' ∉ n.networkAddress.text := by
    cases n with
    | v4 block => exact not_mem_ipv4Text rfl (by decide)
    | v6 block => exact not_mem_ipv6Text (by decide) (by decide)
  rw [text, List.mem_append, List.mem_cons]
  rintro (h | h | h)
  · exact haddress h
  · exact absurd h (by decide)
  · exact not_mem_toDigits rfl h

theorem dash_not_mem_address (a : Address) : '-' ∉ a.text := by
  cases a with
  | v4 n => exact not_mem_ipv4Text rfl (by decide)
  | v6 n => exact not_mem_ipv6Text (by decide) (by decide)

end Network

/-! ## The characters of texts that are read -/

/-- The characters of addresses, networks and masks. -/
def IsPlain (c : Char) : Prop := c.isHexDigit = true ∨ c = '.' ∨ c = ':' ∨ c = '/'

theorem IsPlain.of_isDigit {c : Char} (h : c.isDigit = true) : IsPlain c :=
  Or.inl (by simp [Char.isHexDigit, h])

theorem mem_of_mem_splitOn {c sep : Char} {text : List Char} (h : c ∈ text) :
    c = sep ∨ ∃ part ∈ text.splitOn sep, c ∈ part :=
  mem_intercalate (by rwa [List.intercalate_splitOn])

theorem exists_of_mapM_eq_some {α β : Type} {f : α → Option β} {xs : List α} {ys : List β}
    (h : xs.mapM f = some ys) : ∀ x ∈ xs, ∃ y ∈ ys, f x = some y := by
  induction xs generalizing ys with
  | nil => exact fun x hx => absurd hx List.not_mem_nil
  | cons x xs ih =>
      rw [List.mapM_cons] at h
      obtain ⟨y, hy, h⟩ := Option.bind_eq_some_iff.1 h
      obtain ⟨rest, hrest, hys⟩ := Option.bind_eq_some_iff.1 h
      obtain rfl : ys = y :: rest := by simpa using hys.symm
      intro x' hx'
      rcases List.mem_cons.1 hx' with rfl | hx'
      · exact ⟨y, List.mem_cons_self, hy⟩
      · obtain ⟨y', hy', hf⟩ := ih hrest x' hx'
        exact ⟨y', List.mem_cons_of_mem _ hy', hf⟩

theorem isPlain_of_parseOctet {octet : List Char} {n : Nat} (h : parseOctet octet = some n) :
    ∀ c ∈ octet, IsPlain c := by
  intro c hc
  unfold parseOctet at h
  split at h
  · cases h
  · rename_i hdigits
    rw [not_or, not_not, List.all_eq_true] at hdigits
    exact .of_isDigit (hdigits.2 c hc)

theorem isPlain_of_ipv4Int {text : List Char} {n : Nat} (h : ipv4Int text = some n) :
    ∀ c ∈ text, IsPlain c := by
  intro c hc
  unfold ipv4Int at h
  dsimp only at h
  split at h
  · cases h
  · obtain ⟨octets, hoctets, -⟩ := Option.map_eq_some_iff.1 h
    rcases @mem_of_mem_splitOn c '.' text hc with rfl | ⟨part, hpart, hc⟩
    · exact Or.inr (Or.inl rfl)
    · obtain ⟨octet, -, hoctet⟩ := exists_of_mapM_eq_some hoctets part hpart
      exact isPlain_of_parseOctet hoctet c hc

theorem isPlain_of_parseHextet {hextet : List Char} {n : Nat} (h : parseHextet hextet = some n) :
    ∀ c ∈ hextet, IsPlain c := by
  intro c hc
  unfold parseHextet at h
  split at h
  · cases h
  · rename_i hdigits
    rw [not_not, List.all_eq_true] at hdigits
    exact Or.inl (hdigits c hc)

/-- Every part is among the first or the last ones, or is empty. -/
theorem isPlain_of_hextetsOf {parts : List (List Char)} {values : List Nat}
    (h : hextetsOf parts = some values) : ∀ part ∈ parts, ∀ c ∈ part, IsPlain c := by
  intro part hpart c hc
  unfold hextetsOf at h
  dsimp only at h
  split at h
  · split at h
    · cases h
    · obtain ⟨n, -, hn⟩ := exists_of_mapM_eq_some h part hpart
      exact isPlain_of_parseHextet hn c hc
  · rename_i skip hskip
    have hmem : skip ∈ skipIndexes parts := by rw [hskip]; exact List.mem_cons_self
    obtain ⟨hrange, hempty⟩ := List.mem_filter.1 hmem
    rw [decide_eq_true_eq] at hempty
    rw [List.mem_range] at hrange
    obtain ⟨i, hi, hat⟩ := List.mem_iff_getElem.1 hpart
    have hat? : parts[i]? = some part := by rw [← hat]; exact List.getElem?_eq_getElem hi
    generalize hhi : (if parts.head? = some [] then skip - 1 else skip) = hi at h
    generalize hlo : (if parts.getLast? = some [] then parts.length - skip - 1 - 1
      else parts.length - skip - 1) = lo at h
    split at h
    · cases h
    rename_i hends
    rw [not_or, not_and, not_and, not_not, not_not] at hends
    unfold fillZeros at h
    split at h
    · cases h
    obtain ⟨high, hhigh, h⟩ := Option.bind_eq_some_iff.1 h
    obtain ⟨low, hlow, -⟩ := Option.bind_eq_some_iff.1 h
    have hnonempty : part ≠ [] := List.ne_nil_of_mem hc
    have hnotSkip : i ≠ skip := by
      rintro rfl
      rw [hat?] at hempty
      exact hnonempty (Option.some.inj hempty.2.2)
    rcases Nat.lt_or_gt_of_ne hnotSkip with hlt | hgt
    · -- before the skipped ones: the front is not open, or this is its empty part
      by_cases hfront : parts.head? = some []
      · rw [if_pos hfront] at hhi
        have hzero := hends.1 hfront
        obtain rfl : i = 0 := by omega
        rw [← List.head?_eq_getElem?] at hat?
        exact absurd (Option.some.inj (hat?.symm.trans hfront)) hnonempty
      · rw [if_neg hfront] at hhi
        subst hhi
        have htake : part ∈ parts.take skip :=
          List.mem_of_getElem? (by rw [List.getElem?_take_of_lt hlt]; exact hat?)
        obtain ⟨n, -, hn⟩ := exists_of_mapM_eq_some hhigh part htake
        exact isPlain_of_parseHextet hn c hc
    · -- after them
      by_cases hback : parts.getLast? = some []
      · rw [if_pos hback] at hlo
        have hzero := hends.2 hback
        obtain rfl : i = parts.length - 1 := by omega
        rw [← List.getLast?_eq_getElem?] at hat?
        exact absurd (Option.some.inj (hat?.symm.trans hback)) hnonempty
      · rw [if_neg hback] at hlo
        subst hlo
        have hdrop : part ∈ parts.drop (parts.length - (parts.length - skip - 1)) := by
          refine List.mem_of_getElem? (i := i - (skip + 1)) ?_
          rw [List.getElem?_drop]
          have hplace : parts.length - (parts.length - skip - 1) + (i - (skip + 1)) = i := by omega
          rw [hplace]
          exact hat?
        obtain ⟨n, -, hn⟩ := exists_of_mapM_eq_some hlow part hdrop
        exact isPlain_of_parseHextet hn c hc
  · cases h

theorem isPlain_of_widenSuffix {parts widened : List (List Char)}
    (h : widenSuffix parts = some widened)
    (hplain : ∀ part ∈ widened, ∀ c ∈ part, IsPlain c) : ∀ part ∈ parts, ∀ c ∈ part, IsPlain c := by
  intro part hpart c hc
  unfold widenSuffix at h
  split at h
  · rename_i hnone
    rw [List.getLast?_eq_none_iff] at hnone
    exact absurd (hnone ▸ hpart) List.not_mem_nil
  · rename_i suffix hlast
    split at h
    · obtain ⟨n, hn, rfl⟩ := Option.map_eq_some_iff.1 h
      have hsplit := List.dropLast_append_getLast? suffix hlast
      rw [← hsplit, List.mem_append, List.mem_singleton] at hpart
      rcases hpart with hpart | rfl
      · exact hplain part (List.mem_append_left _ hpart) c hc
      · exact isPlain_of_ipv4Int hn c hc
    · obtain rfl := Option.some.inj h
      exact hplain part hpart c hc

theorem isPlain_of_ipv6Int {text : List Char} {n : Nat} (h : ipv6Int text = some n) :
    ∀ c ∈ text, IsPlain c := by
  intro c hc
  unfold ipv6Int at h
  dsimp only at h
  split at h
  · cases h
  obtain ⟨widened, hwidened, h⟩ := Option.bind_eq_some_iff.1 h
  split at h
  · cases h
  obtain ⟨values, hvalues, -⟩ := Option.map_eq_some_iff.1 h
  rcases @mem_of_mem_splitOn c ':' text hc with rfl | ⟨part, hpart, hc⟩
  · exact Or.inr (Or.inr (Or.inl rfl))
  · exact isPlain_of_widenSuffix hwidened (isPlain_of_hextetsOf hvalues) part hpart c hc

theorem isPlain_of_ipv4Address {text : List Char} {n : Fin (2 ^ 32)}
    (h : ipv4Address text = some n) : ∀ c ∈ text, IsPlain c := by
  unfold ipv4Address at h
  split at h
  · rename_i m hm
    exact isPlain_of_ipv4Int hm
  · cases h

theorem isPlain_of_ipv6Address {text : List Char} {n : Fin (2 ^ 128)}
    (h : ipv6Address text = some n) : ∀ c ∈ text, IsPlain c := by
  unfold ipv6Address at h
  split at h
  · rename_i m hm
    exact isPlain_of_ipv6Int hm
  · cases h

theorem isPlain_of_ipAddress {text : List Char} {a : Address} (h : ipAddress text = some a) :
    ∀ c ∈ text, IsPlain c := by
  rcases Option.or_eq_some_iff.1 h with h | ⟨-, h⟩
  · obtain ⟨n, hn, -⟩ := Option.map_eq_some_iff.1 h
    exact isPlain_of_ipv4Address hn
  · obtain ⟨n, hn, -⟩ := Option.map_eq_some_iff.1 h
    exact isPlain_of_ipv6Address hn

theorem isPlain_of_prefixString {bits p : Nat} {text : List Char}
    (h : prefixFromPrefixString bits text = some p) : ∀ c ∈ text, IsPlain c := by
  intro c hc
  unfold prefixFromPrefixString at h
  split at h
  · cases h
  · rename_i hdigits
    rw [not_or, not_not, List.all_eq_true] at hdigits
    exact .of_isDigit (hdigits.2 c hc)

theorem isPlain_of_ipv4Prefix {text : List Char} {p : Nat} (h : ipv4Prefix text = some p) :
    ∀ c ∈ text, IsPlain c := by
  rcases Option.or_eq_some_iff.1 h with h | ⟨-, h⟩
  · exact isPlain_of_prefixString h
  · obtain ⟨n, hn, -⟩ := Option.bind_eq_some_iff.1 h
    exact isPlain_of_ipv4Int hn

/-- The parts of a network text are plain when its address and its mask are. -/
theorem isPlain_of_splitAddrPrefix {text address : List Char} {mask : Option (List Char)}
    (h : splitAddrPrefix text = some (address, mask)) (haddress : ∀ c ∈ address, IsPlain c)
    (hmask : ∀ m, mask = some m → ∀ c ∈ m, IsPlain c) : ∀ c ∈ text, IsPlain c := by
  intro c hc
  unfold splitAddrPrefix at h
  rcases @mem_of_mem_splitOn c '/' text hc with rfl | ⟨part, hpart, hc⟩
  · exact Or.inr (Or.inr (Or.inr rfl))
  · split at h
    · rename_i hsplit
      obtain ⟨rfl, rfl⟩ := Prod.ext_iff.1 (Option.some.inj h)
      rw [hsplit, List.mem_singleton] at hpart
      exact haddress c (hpart ▸ hc)
    · rename_i hsplit
      obtain ⟨rfl, rfl⟩ := Prod.ext_iff.1 (Option.some.inj h)
      rw [hsplit, List.mem_cons, List.mem_singleton] at hpart
      rcases hpart with rfl | rfl
      · exact haddress c hc
      · exact hmask _ rfl c hc
    · cases h

theorem isPlain_of_ipNetwork {text : List Char} {n : Network} (h : ipNetwork text = some n) :
    ∀ c ∈ text, IsPlain c := by
  rcases Option.or_eq_some_iff.1 h with h | ⟨-, h⟩
  · obtain ⟨block, hblock, -⟩ := Option.map_eq_some_iff.1 h
    obtain ⟨⟨address, mask⟩, hsplit, hblock⟩ := Option.bind_eq_some_iff.1 hblock
    obtain ⟨n, hn, hblock⟩ := Option.bind_eq_some_iff.1 hblock
    obtain ⟨p, hp, -⟩ := Option.bind_eq_some_iff.1 hblock
    refine isPlain_of_splitAddrPrefix hsplit (isPlain_of_ipv4Address hn) ?_
    rintro m rfl
    exact isPlain_of_ipv4Prefix hp
  · obtain ⟨block, hblock, -⟩ := Option.map_eq_some_iff.1 h
    obtain ⟨⟨address, mask⟩, hsplit, hblock⟩ := Option.bind_eq_some_iff.1 hblock
    obtain ⟨n, hn, hblock⟩ := Option.bind_eq_some_iff.1 hblock
    obtain ⟨p, hp, -⟩ := Option.bind_eq_some_iff.1 hblock
    refine isPlain_of_splitAddrPrefix hsplit (isPlain_of_ipv6Address hn) ?_
    rintro m rfl
    exact isPlain_of_prefixString hp

example : ipNetwork "10.1.2.3/255.255.0.0".toList = ipNetwork "10.1.0.0/16".toList := by
  decide +kernel

example : (ipv6Int "2001:db8::1:0:0:1".toList).map ipv6Text = some "2001:db8::1:0:0:1".toList := by
  decide +kernel

end IllumioOps.Ipaddress
