import IllumioOps.Json.Value
import IllumioOps.Policy.Networks
import IllumioOps.Rules.NextChange
import Mathlib.Data.Int.Log
import Mathlib.Data.Rat.Floor
import Mathlib.Order.Fin.Basic

/-!
# How a rule of 5.x is read

The values of a 5.x rule are whatever its file holds. A number is read as a float and cut to a whole
one, which raises for an infinity, for what is not a number and for an integer beyond the floats; a
text is read by `int` or a pattern. A label, an address or a port is a token of its key; what cannot be
read is left to the caller, but for a protocol that is digits and no number.

What `float`, `int`, `str.isdigit`, `str.lower`, `re.compile` and the `str` of a list or an object do
with a text is Python's, and a parameter here (`Python`).
-/

set_option autoImplicit false

namespace IllumioOps.Migrate

open RuleSchedules (isSpace strip)

/-! ## Floats -/

/-- A float: not a number, an infinity, or a number. -/
inductive PyFloat where
  | nan
  | inf (negative : Bool)
  | num (x : Rat)
  deriving DecidableEq, Repr

/-- The exceptions that end a migration. -/
inductive PyError where
  | attribute
  | key
  | type
  | value
  | overflow
  | validation
  deriving DecidableEq, Repr

/-- To the nearest whole number, ties to the even one. -/
def roundHalfEven (x : Rat) : Int :=
  let low := x.floor
  if x - low < 1 / 2 ∨ (x - low = 1 / 2 ∧ low % 2 = 0) then low else low + 1

namespace PyFloat

/-- The float nearest to a number: 53 bits, and no smaller step than `2 ^ -1074`. -/
def ofRat (x : Rat) : PyFloat :=
  let step : Rat := 2 ^ max (Int.log 2 |x| - 52) (-1074)
  let y := roundHalfEven (x / step) * step
  if |y| < 2 ^ 1024 then .num y else .inf (decide (y < 0))

/-- The product with a number that is not zero. -/
def times (x : PyFloat) (c : Rat) : PyFloat :=
  match x with
  | .nan => .nan
  | .inf negative => .inf (negative != decide (c < 0))
  | .num x => ofRat (x * c)

def truthy (x : PyFloat) : Bool := decide (x ≠ .num 0)

/-- `x <= 0` -/
def notPositive : PyFloat → Bool
  | .nan => false
  | .inf negative => negative
  | .num x => decide (x ≤ 0)

/-- `int(x)` -/
def toInt : PyFloat → Except PyError Int
  | .nan => .error .value
  | .inf _ => .error .overflow
  | .num x => .ok (if 0 ≤ x then x.floor else x.ceil)

/-- `round(x)` -/
def round : PyFloat → Except PyError Int
  | .nan => .error .value
  | .inf _ => .error .overflow
  | .num x => .ok (roundHalfEven x)

/-- `max(x, low)`, for a float that is a number. -/
def atLeast (x : PyFloat) (low : PyFloat) : PyFloat :=
  match x, low with
  | .num x, .num low => if x < low then .num low else .num x
  | .inf true, low => low
  | x, _ => x

/-- `x > 0` -/
def positive : PyFloat → Bool
  | .nan => false
  | .inf negative => !negative
  | .num x => decide (0 < x)

end PyFloat

/-- `float(n)` of an integer. -/
def floatOfInt (n : Int) : Except PyError PyFloat :=
  match PyFloat.ofRat n with
  | .inf _ => .error .overflow
  | x => .ok x

/-! ## What is Python's -/

/-- What comes of compiling a pattern: `re.error`, or another exception. -/
inductive Compiled where
  | compiles
  | reError
  | raises (e : PyError)
  deriving DecidableEq, Repr

structure Python where
  reprOf : Json → String
  float : String → Option PyFloat
  int : String → Option Int
  isdigit : String → Bool
  lower : String → String
  compile : String → Compiled

variable (py : Python)

/-- `str(value)` -/
def str : Json → String
  | .null => "None"
  | .bool true => "True"
  | .bool false => "False"
  | .int n => toString n
  | .float x => x.text
  | .str s => s
  | j => py.reprOf j

/-- `str(value or "")` -/
def textOr (v : Json) : String := if v.truthy then str py v else ""

def stripText (s : String) : String := String.ofList (strip s.toList)

/-- `_num`: what `float` does not take is the default; an integer beyond the floats raises. -/
def num (v : Json) (default : PyFloat) : Except PyError PyFloat :=
  match v with
  | .bool b => .ok (.num (if b then 1 else 0))
  | .int n => floatOfInt n
  | .float x => .ok ((py.float x.text).getD .nan)
  | .str s => .ok ((py.float s).getD default)
  | _ => .ok default

/-- `int(_num(value, default))` -/
def wholeNum (v : Json) (default : Int) : Except PyError Int := do
  let x ← num py v (.num default)
  x.toInt

/-- `_as_list` -/
def asList : Json → List Json
  | .null => []
  | .str s => if s = "" then [] else [.str s]
  | .arr items => items
  | v => [v]

/-! ## Throttles -/

/-- A time in minutes: whole, or a float. -/
inductive Minutes where
  | whole (n : Int)
  | float (x : PyFloat)

def Minutes.notPositive : Minutes → Bool
  | .whole n => decide (n ≤ 0)
  | .float x => x.notPositive

def Minutes.round : Minutes → Except PyError Int
  | .whole n => .ok n
  | .float x => x.round

def isDecimal (c : Char) : Bool := (PlanChanges.digit? c).isSome

/-- `_THROTTLE`: the two numbers and the unit, if there is one. -/
def throttleParts (text : List Char) : Option (String × String × Option Char) :=
  let text := text.dropWhile isSpace
  let count := text.takeWhile isDecimal
  match (text.dropWhile isDecimal).dropWhile isSpace with
  | '/' :: rest =>
      let rest := rest.dropWhile isSpace
      let period := rest.takeWhile isDecimal
      if count = [] ∨ period = [] then none
      else match rest.dropWhile isDecimal with
        | [] => some (String.ofList count, String.ofList period, none)
        | c :: tail =>
            -- the pattern ignores case, and takes the long s for an s
            if c ∈ ['s', 'm', 'h', 'd', 'S', 'M', 'H', 'D', 'ſ'] then
              if tail.all isSpace then some (String.ofList count, String.ofList period, some c)
              else none
            else if (c :: tail).all isSpace then
              some (String.ofList count, String.ofList period, none)
            else none
  | _ => none

/-- The number of minutes of a period with its unit (`_UNIT`). -/
def unitMinutes (n : Int) : Option Char → Except PyError Minutes
  | none => .ok (.whole n)
  | some c =>
      if c = 's' ∨ c = 'S' then do
        let x ← floatOfInt n
        .ok (.float (match PyFloat.ofRat (1 / 60) with
          | .num unit => x.times unit
          | _ => .nan))
      else if c = 'm' ∨ c = 'M' then .ok (.whole n)
      else if c = 'h' ∨ c = 'H' then .ok (.whole (n * 60))
      else if c = 'd' ∨ c = 'D' then .ok (.whole (n * 1440))
      else .error .key

/-- `int(text)` of digits. -/
def intOfText (s : String) : Except PyError Int :=
  match py.int s with
  | some n => .ok n
  | none => .error .value

/-- The count and the period of a throttle that is given, none where it is not one. -/
def throttleGiven (v : Json) : Except PyError (Option (Int × Minutes)) := do
  if v.isObj then
    let count ← wholeNum py (v.get "count") 0
    let seconds ← num py (v.get "period_seconds") (.num 0)
    let seconds ← if seconds.truthy then pure seconds else do
      let period ← num py (v.get "period_minutes") (.num 0)
      pure (period.times 60)
    pure (some (max 1 count, .float (seconds.times (1 / 60))))
  else
    match throttleParts (str py v).toList with
    | none => pure none
    | some (count, period, unit) => do
        let count ← intOfText py count
        let period ← intOfText py period
        let minutes ← unitMinutes (max 1 period) unit
        pure (some (max 1 count, minutes))

def maxThrottleMinutes : Int := 10080

/-- `_throttle`: the count and the minutes, and whether it was cut to the seven days. -/
def throttle (v : Json) : Except PyError (Option (Int × Int) × Bool) := do
  if !v.truthy then pure (none, false)
  else
    let given ← throttleGiven py v
    match given with
    | none => pure (none, false)
    | some (count, minutes) =>
        if minutes.notPositive then pure (none, false)
        else do
          let rounded ← minutes.round
          let whole := max 1 rounded
          pure (some (count, min whole maxThrottleMinutes), decide (maxThrottleMinutes < whole))

/-! ## Tokens of a filter -/

/-- Where a character stands first, the very start apart. -/
def findAfterStart (c : Char) (text : List Char) : Option Nat :=
  (text.idxOf? c).filter fun i => decide (0 < i)

/-- `_label`: `key=value` or `key:value`, split at whichever comes first. -/
def label (token : Json) : Option (String × String) :=
  let text := strip (textOr py token).toList
  let cuts := [findAfterStart '=' text, findAfterStart ':' text].filterMap id
  match cuts.min? with
  | none => none
  | some i =>
      let key := strip (text.take i)
      let value := strip (text.drop (i + 1))
      if key = [] ∨ value = [] then none else some (String.ofList key, String.ofList value)

/-- The text before the first such character, and the text behind it. -/
def splitFirst (c : Char) (text : List Char) : List Char × List Char :=
  (text.takeWhile (· ≠ c), (text.dropWhile (· ≠ c)).drop 1)

open Ipaddress in
/-- `_ips`: an address, a network, or an IPv4 range as networks. -/
def ips (token : Json) : Option (List String) :=
  let text := strip (textOr py token).toList
  if '-' ∈ text ∧ '/' ∉ text then do
    let a ← ipv4Address (strip (splitFirst '-' text).1)
    let b ← ipv4Address (strip (splitFirst '-' text).2)
    let nets ← Policy.summarizeAddressRange (.v4 (min a b)) (.v4 (max a b))
    some (nets.map fun n => String.ofList n.text)
  else if '/' ∈ text then (ipNetwork text).map fun n => [String.ofList n.text]
  else (ipAddress text).map fun a => [String.ofList a.text]

/-- A port, a range of ports or a protocol, as a condition is given it. -/
structure RawPort where
  port : Option Int
  toPort : Option Int
  proto : Option Int
  deriving DecidableEq, Repr

/-- The protocol after the slash of a port. -/
def protoOfText (s : String) : Except PyError (Option Int) := do
  let name := py.lower (stripText s)
  let number ← if py.isdigit (stripText s) then (intOfText py s).map some else pure none
  if name = "tcp" then pure (some 6)
  else if name = "udp" then pure (some 17)
  else pure number

/-- `_port`: none for what is no port. -/
def port (token : Json) (defaultProto : Option Int) : Except PyError (Option RawPort) :=
  let text := strip (str py token).toList
  let number := if '/' ∈ text then (splitFirst '/' text).1 else text
  let ports : Option (Int × Option Int) :=
    if '-' ∈ number then do
      let a ← py.int (String.ofList (splitFirst '-' number).1)
      let b ← py.int (String.ofList (splitFirst '-' number).2)
      some (min a b, some (max a b))
    else (py.int (String.ofList number)).map fun n => (n, none)
  match ports with
  | none => .ok none
  | some (first, last) =>
      if '/' ∈ text then do
        let proto ← protoOfText py (String.ofList (splitFirst '/' text).2)
        pure (some ⟨some first, last, proto⟩)
      else .ok (some ⟨some first, last, defaultProto⟩)

/-- The protocol of a rule. -/
def ruleProto (v : Json) : Except PyError (Option Int) :=
  match v with
  | .bool b => .ok (some (if b then 1 else 0))
  | .int n => .ok (some n)
  | .float x => (((py.float x.text).getD .nan).toInt).map some
  | .str s => if py.isdigit s then (intOfText py s).map some else .ok none
  | _ => .ok none

/-- The decision number of a rule: none is one that is not given, or that `int` does not take. -/
def decisionNumber (v : Json) : Except PyError (Option Int) :=
  match v with
  | .bool b => .ok (some (if b then 1 else 0))
  | .int n => .ok (some n)
  | .float x => match ((py.float x.text).getD .nan) with
      | .inf _ => .error .overflow
      | .nan => .ok none
      | .num x => .ok (some (if 0 ≤ x then x.floor else x.ceil))
  | .str s => .ok (py.int s)
  | _ => .ok none

/-- Whether a decision number is given: it is neither null nor blank. -/
def decisionGiven : Json → Bool
  | .null => false
  | .str s => decide (strip s.toList ≠ [])
  | _ => true

end IllumioOps.Migrate
