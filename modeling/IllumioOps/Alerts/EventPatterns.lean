import IllumioOps.Migrate.RuleChecks
import IllumioOps.Text.Regexes

/-!
# Matching events

`event_matches` of `domain.alertrules` and the functions it calls: the patterns of a rule against a raw
event. A text that is not a string makes `re.match` raise, and so do a few patterns that are no `re.error`
when they are compiled; both end the matching (`PyError`). What a pattern compiles to is Python's, and a
parameter (`Re`).
-/

set_option autoImplicit false

namespace IllumioOps.Alerts

open Migrate (Python PyError Compiled anyPatterns looksLikeRegex stripText)
open Text (Regex)

/-! ## What is Python's -/

/-- The pattern as the matcher runs it. -/
def anchoredText (pattern : String) : String := "^" ++ pattern ++ "$"

/-- `re`: `regexOf` is what a pattern that compiles is compiled to. Alternation binds loosest, so that
anchors written around a pattern join its first and its last alternative. -/
structure Re where
  py : Python
  regexOf : String → Regex
  loosest : ∀ pattern, py.compile pattern = .compiles → py.compile (anchoredText pattern) = .compiles →
    regexOf (anchoredText pattern) = (regexOf pattern).anchored

variable (re : Re)

/-! ## Patterns -/

/-- `_regex_match`: what cannot be compiled does not match, what is not a text raises. -/
def regexMatch (anchored : String) (value : Json) : Except PyError Bool :=
  match re.py.compile anchored, value with
  | .reError, _ => .ok false
  | .raises e, _ => .error e
  | .compiles, .str text => .ok ((re.regexOf anchored).matchesStart text.toList)
  | .compiles, _ => .error .type

def hasBar (pattern : String) : Bool := pattern.toList.contains '|'

/-- `pattern.split("|")` -/
def splitBars (pattern : String) : List String := (pattern.toList.splitOn '|').map String.ofList

def isText (text : String) : Json → Bool
  | .str s => s == text
  | _ => false

/-- `value if value is not None else ""` -/
def normalized : Json → Json
  | .null => .str ""
  | value => value

/-- `_value_matches` of a pattern that does not start with `!`. -/
def plainMatches (pattern : String) (value : Json) : Except PyError Bool :=
  if pattern ∈ anyPatterns then .ok true
  else if hasBar pattern && !looksLikeRegex pattern then
    .ok ((splitBars pattern).any fun text => isText text (normalized value))
  else if looksLikeRegex pattern then regexMatch re (anchoredText pattern) (normalized value)
  else .ok (isText pattern (normalized value))

/-- `_value_matches`, on the characters of the pattern; one that starts with `!` is none of `_ANY`. -/
def valueMatchesChars : List Char → Json → Except PyError Bool
  | '!' :: rest, value => do
      let matched ← valueMatchesChars rest value
      pure !matched
  | pattern, value => plainMatches re (String.ofList pattern) value

/-- `_value_matches` -/
def valueMatches (pattern : String) (value : Json) : Except PyError Bool :=
  valueMatchesChars re pattern.toList value

/-- `_canon_severity` -/
def canonSeverity (value : Json) : String :=
  let text := re.py.lower (stripText (match value with
    | .null => ""
    | value => Migrate.str re.py value))
  if text = "error" then "err" else text

/-- The alternatives of a severity pattern in their canonical form: `"|".join`. -/
def canonPattern (pattern : String) : String :=
  "|".intercalate ((splitBars pattern).map fun p => canonSeverity re (.str p))

/-- `_severity_matches` of a pattern that is stripped and does not start with `!`. -/
def plainSeverityMatches (pattern : String) (value : Json) : Except PyError Bool :=
  if looksLikeRegex pattern then do
    let asSent ← valueMatches re pattern value
    if asSent then pure true else valueMatches re pattern (.str (canonSeverity re value))
  else valueMatches re (canonPattern re pattern) (.str (canonSeverity re value))

/-- `_severity_matches`, on the characters of the pattern: at most so many are left. -/
def severityMatchesChars : Nat → List Char → Json → Except PyError Bool
  | 0, _, value => plainSeverityMatches re "" value
  | n + 1, pattern, value =>
      match RuleSchedules.strip pattern with
      | '!' :: rest => do
          let matched ← severityMatchesChars n rest value
          pure !matched
      | stripped => plainSeverityMatches re (String.ofList stripped) value

/-- `_severity_matches` -/
def severityMatches (pattern : String) (value : Json) : Except PyError Bool :=
  severityMatchesChars re (pattern.toList.length + 1) pattern.toList value

def typeWildcards : List String := ["*", ".*", ""]

/-- `_type_matches` -/
def typeMatches (pattern eventType : String) : Except PyError Bool :=
  if pattern ∈ typeWildcards then .ok true
  else if hasBar pattern && !looksLikeRegex pattern then .ok ((splitBars pattern).contains eventType)
  else if looksLikeRegex pattern then
    regexMatch re (if pattern.toList.head? = some '^' then pattern else anchoredText pattern)
      (.str eventType)
  else .ok (pattern == eventType)

/-! ## Events -/

/-- What matching reads of an `EventRule`. -/
structure EventPatterns where
  eventTypes : List String
  status : String
  eventSeverity : String
  matchFields : List (String × String)
  windowMinutes : Nat
  deriving DecidableEq, Repr

/-- `_extract`, on the parts of the path: null where there is none. -/
def extractParts : List String → Json → Json
  | [], .null => .null
  | [], .str s => .str s
  | [], value => .str (Migrate.str re.py value)
  | part :: parts, value =>
      match value.get? part with
      | some inner => extractParts parts inner
      | none => .null

/-- `_extract` -/
def extract (event : Json) (path : String) : Json :=
  extractParts re ((path.toList.splitOn '.').map String.ofList) event

/-- The types of the notifications of an event. -/
def notificationTypes (event : Json) : List String :=
  match event.get "notifications" with
  | .arr items => (items.filter Json.isObj).map fun n => Migrate.textOr re.py (n.get "notification_type")
  | _ => []

/-- `any(...)`: the first that matches ends it, and so does one that raises. -/
def anyMatches (matched : String → Except PyError Bool) : List String → Except PyError Bool
  | [] => .ok false
  | text :: texts => do
      let found ← matched text
      if found then pure true else anyMatches matched texts

/-- One of `match_fields`. -/
def fieldMatches (event : Json) (path pattern : String) : Except PyError Bool :=
  if path = "notification_type" then
    anyMatches (fun text => valueMatches re pattern (.str text)) (notificationTypes re event)
  else valueMatches re pattern (extract re event path)

def fieldsMatch (event : Json) : List (String × String) → Except PyError Bool
  | [] => .ok true
  | (path, pattern) :: fields => do
      let matched ← fieldMatches re event path pattern
      if matched then fieldsMatch event fields else pure false

/-- `str(event.get("event_type") or "")` -/
def typeOf (event : Json) : String := Migrate.textOr re.py (event.get "event_type")

/-- `event_matches` -/
def eventMatches (rule : EventPatterns) (event : Json) : Except PyError Bool := do
  let typed ← anyMatches (fun p => typeMatches re p (typeOf re event)) rule.eventTypes
  if !typed then pure false
  else do
    let status ← valueMatches re rule.status (event.get "status")
    if !status then pure false
    else do
      let severity ← severityMatches re rule.eventSeverity (event.get "severity")
      if !severity then pure false else fieldsMatch re event rule.matchFields

/-- `uses_regex` -/
def usesRegex (rule : EventPatterns) : Bool :=
  rule.eventTypes.any fun p => p ∈ typeWildcards || looksLikeRegex p

/-- `exact_types` -/
def exactTypes (rule : EventPatterns) : List String := rule.eventTypes.flatMap splitBars

/-! ## One pattern -/

theorem length_anchoredText (pattern : String) :
    (anchoredText pattern).toList.length = pattern.toList.length + 2 := by
  simp [anchoredText]

theorem ne_anchoredText (pattern : String) : anchoredText pattern ≠ pattern := by
  intro h
  have hlength := length_anchoredText pattern
  rw [h] at hlength
  omega

theorem ne_anchoredText_twice (pattern : String) : anchoredText (anchoredText pattern) ≠ pattern := by
  intro h
  have hlength := length_anchoredText (anchoredText pattern)
  rw [h, length_anchoredText pattern] at hlength
  omega

/-- Texts of ASCII letters, and one pattern that compiles, as it is and anchored. -/
def onePattern (pattern : String) (r : Regex) : Re where
  py := {
    reprOf := fun _ => ""
    float := fun _ => none
    int := fun _ => none
    isdigit := fun s => s.toList.all Char.isDigit
    lower := fun s => String.ofList (s.toList.map Char.toLower)
    compile := fun p => if p = pattern ∨ p = anchoredText pattern then .compiles else .reError }
  regexOf := fun p => if p = pattern then r else r.anchored
  loosest := by
    intro p hp hanchored
    have htable {q : String} (hq : (if q = pattern ∨ q = anchoredText pattern then Compiled.compiles
        else .reError) = .compiles) : q = pattern ∨ q = anchoredText pattern := by
      by_contra hnot
      rw [if_neg hnot] at hq
      exact absurd hq (by decide)
    rcases htable hp with rfl | rfl
    · rw [if_pos rfl, if_neg (ne_anchoredText p)]
    · rcases htable hanchored with hsame | hsame
      · exact absurd hsame (ne_anchoredText_twice pattern)
      · exact absurd hsame (ne_anchoredText _)

end IllumioOps.Alerts
