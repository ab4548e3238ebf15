import Mathlib.Data.List.Basic

/-!
# JSON values

What a decoded JSON document is: the fields of an object stand in the order of the document, and
a value under a key is found by its first field. A float is kept by its text, of the characters a
float is written with. `induction_members` is the induction over a value through the members of its
arrays and objects.
-/

set_option autoImplicit false

namespace IllumioOps

/-- A character of the text of a float, `nan` and `inf` included. -/
def isFloatChar (c : Char) : Bool := c.isAlphanum || c == '.' || c == '-' || c == '+'

/-- A float, by the shortest text that reads back as it. -/
structure FloatText where
  text : String
  plain : text.toList.all isFloatChar = true
  deriving DecidableEq, Repr

inductive Json where
  | null
  | bool (b : Bool)
  | int (n : Int)
  | float (x : FloatText)
  | str (s : String)
  | arr (items : List Json)
  | obj (fields : List (String × Json))
  deriving Repr

namespace Json

/-- A value that an `if` takes: not null, false, zero or empty. -/
def truthy : Json → Bool
  | null => false
  | bool b => b
  | int n => n != 0
  | float x => x.text != "0.0" && x.text != "-0.0"
  | str s => s != ""
  | arr items => !items.isEmpty
  | obj fields => !fields.isEmpty

def isObj : Json → Bool
  | obj _ => true
  | _ => false

/-- The value under a key, if there is one. -/
def get? (j : Json) (key : String) : Option Json :=
  match j with
  | obj fields => (fields.find? fun f => f.1 == key).map Prod.snd
  | _ => none

/-- The value under a key, null where there is none. -/
def get (j : Json) (key : String) : Json := (j.get? key).getD null

/-- The first of two values that is not empty, or the second. -/
def orElse (v w : Json) : Json := if v.truthy then v else w

/-- Changes the value under a key, where there is one. -/
def update (key : String) (f : Json → Json) : Json → Json
  | obj fields => obj (fields.map fun p => (p.1, if p.1 == key then f p.2 else p.2))
  | j => j

/-- Changes the members of an array. -/
def updateItems (f : Json → Json) : Json → Json
  | arr items => arr (items.map f)
  | j => j

/-! ## Induction over the members -/

/-- What holds of every array and object whose members it holds of, and of everything else,
holds of every value. -/
theorem induction_members {p : Json → Prop} (null : p null) (bool : ∀ b, p (bool b))
    (int : ∀ n, p (int n)) (float : ∀ x, p (float x)) (str : ∀ s, p (str s))
    (arr : ∀ items, (∀ j ∈ items, p j) → p (arr items))
    (obj : ∀ fields, (∀ f ∈ fields, p f.2) → p (obj fields)) (j : Json) : p j := by
  refine @Json.rec p (fun items => ∀ j ∈ items, p j) (fun fields => ∀ f ∈ fields, p f.2)
    (fun f => p f.2) null bool int float str arr obj ?_ ?_ ?_ ?_ ?_ j
  · exact fun j h => absurd h List.not_mem_nil
  · rintro head tail hhead htail j hj
    rcases List.mem_cons.1 hj with rfl | hj
    · exact hhead
    · exact htail j hj
  · exact fun f h => absurd h List.not_mem_nil
  · rintro head tail hhead htail f hf
    rcases List.mem_cons.1 hf with rfl | hf
    · exact hhead
    · exact htail f hf
  · exact fun key v h => h

end Json

end IllumioOps
