import IllumioOps.Alerts.EventPatterns
import IllumioOps.Rules.Notes

/-!
# What an anchored pattern matches

A pattern that is a regular expression is run with `^` written before it and `$` after it. Where it has
alternatives at its top level each anchor holds one of them only: one that is not the last matches as soon
as the value begins with it, and the last one lets a line feed stand after it. A pattern matches what its
language holds if and only if one of the two never happens outside the language (`matchesAt_iff`).
-/

set_option autoImplicit false

namespace IllumioOps.Alerts

open Migrate (PyError anyPatterns looksLikeRegex)
open RuleSchedules (strip)
open Text

/-! ## Patterns in their places -/

/-- Where a pattern stands in a rule. -/
inductive Spot where
  | eventType
  | status
  | severity
  | field
  deriving DecidableEq, Repr

/-- A value of an event, or none. -/
def valueOf : Option String → Json
  | some text => .str text
  | none => .null

variable (re : Re)

/-- How `event_matches` tells whether a pattern matches a value. -/
def matchesAt : Spot → String → Option String → Except PyError Bool
  | .eventType, pattern, value => typeMatches re pattern (value.getD "")
  | .severity, pattern, value => severityMatches re pattern (valueOf value)
  | .status, pattern, value => valueMatches re pattern (valueOf value)
  | .field, pattern, value => valueMatches re pattern (valueOf value)

/-- The texts a value stands for: a severity is taken as it was sent and in its canonical form. -/
def textsAt (spot : Spot) (value : Option String) : List String :=
  match spot with
  | .severity => [value.getD "", canonSeverity re (valueOf value)]
  | _ => [value.getD ""]

/-- A pattern with or without a leading `!`. -/
def written (negated : Bool) (pattern : String) : String := if negated then "!" ++ pattern else pattern

/-- The whole text is in the language of the pattern. -/
def inLanguage (pattern text : String) : Bool := (re.regexOf pattern).matchesWhole text.toList

/-- A pattern that is treated as a regular expression in its place, and compiles as it is and as it is
saved (`_check_pattern`). -/
structure AsRegex (spot : Spot) (negated : Bool) (pattern : String) : Prop where
  regex : looksLikeRegex pattern = true
  compiles : re.py.compile pattern = .compiles
  saved : re.py.compile (anchoredText pattern) = .compiles
  type : spot = .eventType → negated = false ∧ pattern ∉ typeWildcards ∧ pattern.toList.head? ≠ some '^'
  value : spot ≠ .eventType → pattern ∉ anyPatterns ∧ pattern.toList.head? ≠ some '!'
  stripped : spot = .severity → strip pattern.toList = pattern.toList

/-- A pattern matches the values of its language, or those outside it where it is negated. -/
def MatchesLanguage (spot : Spot) (negated : Bool) (pattern : String) (value : Option String) : Prop :=
  matchesAt re spot (written negated pattern) value =
    .ok (negated ^^ (textsAt re spot value).any (inLanguage re pattern))

/-- The pattern lets go of an anchor: an alternative but the last matches a beginning of the text, or the
last one the text without its final line feed. -/
def Loose (pattern text : String) : Prop :=
  (∃ branch ∈ (re.regexOf pattern).earlier, branch.Begins text.toList) ∨
    (∃ place ∈ (re.regexOf pattern).last.leads text.toList .start,
      place.pos + 1 = text.toList.length ∧ text.toList.getLast? = some '\n')

/-! ## One text -/

/-- What the anchored pattern makes of a text. -/
def anchoredMatches (pattern text : String) : Bool :=
  (re.regexOf pattern).anchored.matchesStart text.toList

variable {re} {spot : Spot} {negated : Bool} {pattern : String}

theorem anchoredMatches_iff (pattern text : String) : anchoredMatches re pattern text = true ↔
    inLanguage re pattern text = true ∨ Loose re pattern text := by
  rw [anchoredMatches, inLanguage, Loose]
  constructor
  · intro h
    rcases matchesStart_anchored.mp h with hearlier | ⟨place, hplace, hend | hfeed⟩
    · exact .inr (.inl hearlier)
    · refine .inl (matchesWhole_iff.mpr ⟨_, ?_, place, hplace, hend⟩)
      exact List.mem_append_right _ (List.mem_singleton_self _)
    · exact .inr (.inr ⟨place, hplace, hfeed⟩)
  · rintro (hwhole | hearlier | ⟨place, hplace, hfeed⟩)
    · exact matchesStart_of_matchesWhole hwhole
    · exact matchesStart_anchored.mpr (.inl hearlier)
    · exact matchesStart_anchored.mpr (.inr ⟨place, hplace, .inr hfeed⟩)

/-- With a single alternative and no line feed at its end, a text is matched as the language says. -/
theorem anchoredMatches_of_single {text : String} (hsingle : (re.regexOf pattern).earlier = [])
    (hfeed : text.toList.getLast? ≠ some '\n') :
    anchoredMatches re pattern text = inLanguage re pattern text := by
  refine Bool.eq_iff_iff.mpr ((anchoredMatches_iff pattern text).trans ⟨fun h => h.elim id ?_, .inl⟩)
  rintro (⟨branch, hbranch, -⟩ | ⟨place, -, -, hlast⟩)
  · rw [hsingle] at hbranch
    exact absurd hbranch List.not_mem_nil
  · exact absurd hlast hfeed

theorem regexMatch_anchored (h : AsRegex re spot negated pattern) (text : String) :
    regexMatch re (anchoredText pattern) (.str text) = .ok (anchoredMatches re pattern text) := by
  simp only [regexMatch, h.saved, anchoredMatches, re.loosest pattern h.compiles h.saved]

theorem normalized_valueOf (value : Option String) : normalized (valueOf value) = .str (value.getD "") := by
  cases value <;> rfl

theorem valueMatches_plain (h : AsRegex re spot negated pattern) (hspot : spot ≠ .eventType)
    (value : Option String) :
    valueMatches re pattern (valueOf value) = .ok (anchoredMatches re pattern (value.getD "")) := by
  obtain ⟨hany, hplain⟩ := h.value hspot
  have hchars : valueMatches re pattern (valueOf value) = plainMatches re pattern (valueOf value) := by
    rw [valueMatches]
    cases hp : pattern.toList with
    | nil =>
        have hempty : pattern = String.ofList [] := by rw [← hp, String.ofList_toList]
        rw [valueMatchesChars, ← hempty]
        exact fun rest hrest => absurd hrest (by simp)
    | cons c rest =>
        have hsame : String.ofList (c :: rest) = pattern := by rw [← hp, String.ofList_toList]
        rw [valueMatchesChars, hsame]
        rintro rest' hrest
        rw [hp, hrest] at hplain
        exact hplain rfl
  rw [hchars, plainMatches, if_neg hany, h.regex, normalized_valueOf]
  simp [regexMatch_anchored h]

theorem valueMatches_not (pattern : String) (value : Json) :
    valueMatches re ("!" ++ pattern) value = (valueMatches re pattern value).map (!·) := by
  have hchars : ("!" ++ pattern).toList = '!' :: pattern.toList := by
    rw [String.toList_append]
    rfl
  rw [valueMatches, valueMatches, hchars, valueMatchesChars]
  cases valueMatchesChars re pattern.toList value <;> rfl

theorem typeMatches_regex (h : AsRegex re .eventType negated pattern) (eventType : String) :
    typeMatches re pattern eventType = .ok (anchoredMatches re pattern eventType) := by
  obtain ⟨-, hwild, hhead⟩ := h.type rfl
  rw [typeMatches, if_neg hwild, h.regex, if_neg hhead]
  simp [regexMatch_anchored h]

/-! ## A severity -/

theorem plainSeverityMatches_regex (h : AsRegex re .severity negated pattern) (value : Option String) :
    plainSeverityMatches re pattern (valueOf value) =
      .ok ((textsAt re .severity value).any (anchoredMatches re pattern)) := by
  have hsent := valueMatches_plain h (by decide) value
  have hcanon := valueMatches_plain h (by decide) (some (canonSeverity re (valueOf value)))
  rw [plainSeverityMatches, if_pos h.regex, hsent]
  cases hfound : anchoredMatches re pattern (value.getD "") with
  | true => simp [bind, Except.bind, pure, Except.pure, textsAt, hfound]
  | false =>
      rw [valueOf, Option.getD_some] at hcanon
      simp [bind, Except.bind, textsAt, hfound, hcanon]

/-- Fuel is left over: a pattern that is stripped and does not start with `!` needs one step. -/
theorem severityMatchesChars_plain {n : Nat} {value : Json} (hstrip : strip pattern.toList = pattern.toList)
    (hplain : pattern.toList.head? ≠ some '!') :
    severityMatchesChars re (n + 1) pattern.toList value = plainSeverityMatches re pattern value := by
  rw [severityMatchesChars, hstrip]
  cases hp : pattern.toList with
  | nil =>
      have hempty : String.ofList [] = pattern := by rw [← hp, String.ofList_toList]
      simp only [hempty]
  | cons c rest =>
      have hsame : String.ofList (c :: rest) = pattern := by rw [← hp, String.ofList_toList]
      have hc : c ≠ '!' := by
        rintro rfl
        rw [hp] at hplain
        exact hplain rfl
      split
      · rename_i rest' hrest
        exact absurd (List.cons.inj hrest).1 hc
      · rw [hsame]

theorem strip_not (hregex : looksLikeRegex pattern = true) (hstrip : strip pattern.toList = pattern.toList) :
    strip ('!' :: pattern.toList) = '!' :: pattern.toList := by
  have hstripped := RuleSchedules.stripped_strip pattern.toList
  rw [hstrip] at hstripped
  apply RuleSchedules.strip_eq_self
  refine ⟨?_, ?_⟩
  · intro c hc
    rw [List.head?_cons, Option.mem_some_iff] at hc
    rw [← hc]
    decide
  · intro c hc
    have hne : pattern.toList ≠ [] := by
      intro hempty
      rw [looksLikeRegex, hempty] at hregex
      exact absurd hregex (by decide)
    rw [List.getLast?_cons_of_ne_nil hne] at hc
    exact hstripped.2 c hc

theorem severityMatches_regex (h : AsRegex re .severity negated pattern) (value : Option String) :
    severityMatches re (written negated pattern) (valueOf value) =
      .ok (negated ^^ (textsAt re .severity value).any (anchoredMatches re pattern)) := by
  have hplain := (h.value (by decide)).2
  have hstrip := h.stripped rfl
  cases negated with
  | false =>
      rw [Bool.false_xor, ← plainSeverityMatches_regex h, severityMatches, written]
      exact severityMatchesChars_plain hstrip hplain
  | true =>
      have hchars : ("!" ++ pattern).toList = '!' :: pattern.toList := by
        rw [String.toList_append]
        rfl
      rw [severityMatches, written, if_pos rfl, hchars, List.length_cons, severityMatchesChars,
        strip_not h.regex hstrip]
      simp only [severityMatchesChars_plain hstrip hplain, plainSeverityMatches_regex h, bind, Except.bind,
        pure, Except.pure, Bool.true_xor]

/-! ## Every place -/

/-- What `event_matches` makes of a pattern and a value, in terms of the anchored pattern. -/
theorem matchesAt_regex (h : AsRegex re spot negated pattern) (value : Option String) :
    matchesAt re spot (written negated pattern) value =
      .ok (negated ^^ (textsAt re spot value).any (anchoredMatches re pattern)) := by
  have hvalue (hspot : spot ≠ .eventType) :
      valueMatches re (written negated pattern) (valueOf value) =
        .ok (negated ^^ anchoredMatches re pattern (value.getD "")) := by
    cases negated with
    | false =>
        rw [Bool.false_xor]
        exact valueMatches_plain h hspot value
    | true =>
        rw [written, if_pos rfl, valueMatches_not, valueMatches_plain h hspot, Bool.true_xor]
        rfl
  cases spot with
  | eventType =>
      obtain ⟨rfl, -, -⟩ := h.type rfl
      rw [matchesAt, written, if_neg (by decide), typeMatches_regex h]
      simp [textsAt]
  | status => simpa [matchesAt, textsAt] using hvalue (by decide)
  | severity => exact severityMatches_regex h value
  | field => simpa [matchesAt, textsAt] using hvalue (by decide)

/-- A pattern matches what its language holds if and only if, where it lets go of an anchor for a value, the
value is in the language all the same. -/
theorem matchesAt_iff (re : Re) (spot : Spot) (negated : Bool) (pattern : String) (value : Option String)
    (h : AsRegex re spot negated pattern) :
    MatchesLanguage re spot negated pattern value ↔
      ((∃ text ∈ textsAt re spot value, Loose re pattern text) →
        ∃ text ∈ textsAt re spot value, inLanguage re pattern text = true) := by
  rw [MatchesLanguage, matchesAt_regex h]
  have hcode : (textsAt re spot value).any (anchoredMatches re pattern) = true ↔
      (∃ text ∈ textsAt re spot value, inLanguage re pattern text = true) ∨
        ∃ text ∈ textsAt re spot value, Loose re pattern text := by
    simp only [List.any_eq_true, anchoredMatches_iff]
    constructor
    · rintro ⟨text, htext, hlanguage | hloose⟩
      · exact .inl ⟨text, htext, hlanguage⟩
      · exact .inr ⟨text, htext, hloose⟩
    · rintro (⟨text, htext, hlanguage⟩ | ⟨text, htext, hloose⟩)
      · exact ⟨text, htext, .inl hlanguage⟩
      · exact ⟨text, htext, .inr hloose⟩
  rw [← List.any_eq_true] at hcode ⊢
  constructor
  · intro hsame hloose
    have hbody := Bool.xor_right_inj.mp (Except.ok.inj hsame)
    rw [← hbody]
    exact hcode.mpr (.inr hloose)
  · intro hkeeps
    refine congrArg (fun b => Except.ok (negated ^^ b)) (Bool.eq_iff_iff.mpr (hcode.trans ?_))
    exact ⟨fun h => h.elim id hkeeps, .inl⟩

/-! ### Alternatives -/

/-- `user` or what starts with `agent`. -/
def userOrAgent : Re :=
  onePattern "user|agent.*" ⟨[literal "user"], literal "agent" ++ [manyOf (· != '\n')]⟩

theorem asRegex_userOrAgent : AsRegex userOrAgent .eventType false "user|agent.*" where
  regex := by decide +kernel
  compiles := by decide +kernel
  saved := by decide +kernel
  type _ := ⟨rfl, by decide +kernel, by decide +kernel⟩
  value h := absurd rfl h
  stripped h := absurd h (by decide)

theorem matchesLanguage_agent :
    MatchesLanguage userOrAgent .eventType false "user|agent.*" (some "agent.tampering") :=
  (matchesAt_iff userOrAgent .eventType false "user|agent.*" (some "agent.tampering")
    asRegex_userOrAgent).mpr fun _ => ⟨"agent.tampering", List.mem_singleton_self _, by decide +kernel⟩

/-- A type is matched because it begins with the first alternative. -/
theorem matches_beginning :
    matchesAt userOrAgent .eventType "user|agent.*" (some "user_local_profile.create") = .ok true ∧
      ¬ MatchesLanguage userOrAgent .eventType false "user|agent.*" (some "user_local_profile.create") := by
  have hmatch : matchesAt userOrAgent .eventType "user|agent.*" (some "user_local_profile.create") =
      .ok true := by decide +kernel
  have hlanguage : (textsAt userOrAgent .eventType (some "user_local_profile.create")).any
      (inLanguage userOrAgent "user|agent.*") = false := by decide +kernel
  refine ⟨hmatch, fun h => ?_⟩
  rw [MatchesLanguage, written, if_neg (by decide), hmatch, hlanguage] at h
  exact absurd h (by decide)

end IllumioOps.Alerts
