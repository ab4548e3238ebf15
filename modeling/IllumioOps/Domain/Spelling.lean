import IllumioOps.Domain.Flows
import Mathlib.Data.Nat.Digits.Defs

/-!
# A digest without collisions

The digest behind `recordKey` is a parameter that collides on no two identities. Spelling an
identity out, word by word, is such a digest, and one that can be computed.
-/

set_option autoImplicit false

namespace IllumioOps

/-- A word with its end marked, and a point before each of its characters. -/
def spellWord (word : List Char) : List Char := word.flatMap (fun c => ['.', c]) ++ [',']

def spellWords (words : List (List Char)) : List Char := words.flatMap spellWord

/-- No spelled word is the start of another one. -/
theorem spellWord_append_inj {v w x y : List Char} (h : spellWord v ++ x = spellWord w ++ y) :
    v = w ∧ x = y := by
  unfold spellWord at h
  induction v generalizing w with
  | nil =>
      cases w with
      | nil => simpa using h
      | cons c w => simp at h
  | cons c v ih =>
      cases w with
      | nil => simp at h
      | cons d w =>
          simp only [List.flatMap_cons, List.cons_append, List.nil_append, List.cons.injEq,
            true_and] at h
          obtain ⟨hcd, hrest⟩ := h
          obtain ⟨hvw, hxy⟩ := ih hrest
          exact ⟨by rw [hcd, hvw], hxy⟩

theorem spellWords_injective : Function.Injective spellWords := by
  intro v
  induction v with
  | nil =>
      intro w h
      cases w with
      | nil => rfl
      | cons a w => simp [spellWords, spellWord] at h
  | cons a v ih =>
      intro w h
      cases w with
      | nil => simp [spellWords, spellWord] at h
      | cons b w =>
          obtain ⟨hab, hvw⟩ := spellWord_append_inj (x := spellWords v) (y := spellWords w) h
          rw [hab, ih hvw]

def natWord (n : Nat) : List Char := (Nat.digits 10 n).map fun d => Char.ofNat (48 + d)

theorem natWord_injective : Function.Injective natWord := by
  intro m n h
  have hdigit : ∀ d < 10, (Char.ofNat (48 + d)).toNat - 48 = d := by decide
  -- The digits are read back from their characters.
  have hread : ∀ k : Nat, (natWord k).map (fun c => c.toNat - 48) = Nat.digits 10 k := by
    intro k
    unfold natWord
    rw [List.map_map]
    conv_rhs => rw [← List.map_id (Nat.digits 10 k)]
    apply List.map_congr_left
    intro d hd
    exact hdigit d (Nat.digits_lt_base (by omega) hd)
  have hdigits : Nat.digits 10 m = Nat.digits 10 n := by rw [← hread, ← hread, h]
  exact Nat.digits_inj_iff.1 hdigits

def intWord : Int → List Char
  | .ofNat n => '+' :: natWord n
  | .negSucc n => '-' :: natWord n

theorem intWord_injective : Function.Injective intWord := by
  intro m n h
  cases m <;> cases n <;>
    simp only [intWord, List.cons.injEq, Char.reduceEq, false_and, true_and] at h
  · rw [natWord_injective h]
  · rw [natWord_injective h]

def optionWord : Option Int → List Char
  | none => []
  | some n => intWord n

theorem optionWord_injective : Function.Injective optionWord := by
  have hne : ∀ n : Int, intWord n ≠ [] := by
    intro n
    cases n <;> simp [intWord]
  intro m n h
  cases m with
  | none =>
      cases n with
      | none => rfl
      | some n => exact absurd h.symm (hne n)
  | some m =>
      cases n with
      | none => exact absurd h (hne m)
      | some n => rw [intWord_injective h]

/-- The words of an identity. -/
def RecordId.words (i : RecordId) : List (List Char) :=
  [i.direction.value.toList, i.srcIp.toList, i.dstIp.toList, optionWord i.port, intWord i.proto,
    intWord i.firstDetected]

def RecordId.spelled (i : RecordId) : String := String.ofList (spellWords i.words)

theorem RecordId.spelled_injective : Function.Injective RecordId.spelled := by
  intro i j h
  have hwords : i.words = j.words := spellWords_injective (String.ofList_injective h)
  simp only [words, List.cons.injEq, and_true] at hwords
  obtain ⟨hdir, hsrc, hdst, hport, hproto, hfirst⟩ := hwords
  have hdirection : i.direction = j.direction := by
    have hvalue := String.toList_injective hdir
    revert hvalue
    cases i.direction <;> cases j.direction <;> decide
  obtain ⟨_, _, _, _, _, _⟩ := i
  obtain ⟨_, _, _, _, _, _⟩ := j
  simp only [RecordId.mk.injEq]
  exact ⟨hdirection, String.toList_injective hsrc, String.toList_injective hdst,
    optionWord_injective hport, intWord_injective hproto, intWord_injective hfirst⟩

end IllumioOps
