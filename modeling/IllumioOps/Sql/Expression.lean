import Mathlib.Data.List.Basic
import Mathlib.Data.List.Dedup

/-!
# SQL expressions with positional parameters

A small language of `WHERE` clauses: terms, three-valued conditions and
sub-selects, with `?` placeholders. Its semantics follows SQLite: a condition is
true, false or unknown (`Truth`), `AND` / `OR` / `NOT` are strong Kleene,
`x IN (..)` is the disjunction of the equalities, `lower` and `LIKE` fold ASCII
letters only, and the placeholders are numbered from left to right.

Numbering is explicit: `marks` counts the placeholders of an expression, and an
operator evaluates its second operand with the parameters that the first one
leaves (`ps.drop a.marks`). The rows in scope have a name (the table's alias); a
sub-select adds the name of the row it scans.
-/

set_option autoImplicit false

namespace IllumioOps.Sql

/-! ## Values and truth values -/

/-- A stored value. -/
inductive Value where
  | null
  | int (i : Int)
  | text (s : String)
  deriving DecidableEq, Repr

/-- `NULL` for a missing value. -/
def Value.ofText : Option String → Value
  | none => .null
  | some s => .text s

/-- `NULL` for a missing value. -/
def Value.ofInt : Option Int → Value
  | none => .null
  | some i => .int i

/-- True, false, or unknown (`none`, SQL's `NULL` read as a condition). -/
abbrev Truth := Option Bool

namespace Truth

def not : Truth → Truth
  | some b => some (!b)
  | none => none

def and : Truth → Truth → Truth
  | some false, _ => some false
  | _, some false => some false
  | some true, some true => some true
  | _, _ => none

def or : Truth → Truth → Truth
  | some true, _ => some true
  | _, some true => some true
  | some false, some false => some false
  | _, _ => none

@[simp] theorem and_some_some (a b : Bool) : and (some a) (some b) = some (a && b) := by
  cases a <;> cases b <;> rfl

@[simp] theorem or_some_some (a b : Bool) : or (some a) (some b) = some (a || b) := by
  cases a <;> cases b <;> rfl

@[simp] theorem not_some (a : Bool) : not (some a) = some (!a) := rfl

/-- A conjunction is true exactly when both conjuncts are. -/
@[simp] theorem and_eq_true (a b : Truth) :
    and a b = some true ↔ a = some true ∧ b = some true := by
  rcases a with _ | _ | _ <;> rcases b with _ | _ | _ <;> simp [and]

/-- A disjunction is true exactly when one of the disjuncts is. -/
@[simp] theorem or_eq_true (a b : Truth) :
    or a b = some true ↔ a = some true ∨ b = some true := by
  rcases a with _ | _ | _ <;> rcases b with _ | _ | _ <;> simp [or]

end Truth

/-- Lower-case ASCII letters only, as SQLite's `lower()` does. -/
def asciiLower (s : String) : String := String.ofList (s.toList.map Char.toLower)

@[simp] theorem asciiLower_toList (s : String) :
    (asciiLower s).toList = s.toList.map Char.toLower := by
  simp [asciiLower]

/-- SQLite's `LIKE .. ESCAPE '\'` on character lists: `%` is any run, `_` one
character, an escaped character stands for itself, letters fold ASCII case. -/
def likeMatch : List Char → List Char → Bool
  | [], s => s.isEmpty
  | '%' :: p, s => s.tails.any (likeMatch p)
  | '_' :: _, [] => false
  | '_' :: p, _ :: s => likeMatch p s
  | '\\' :: c :: p, d :: s => c.toLower == d.toLower && likeMatch p s
  | '\\' :: _, _ => false
  | _ :: _, [] => false
  | c :: p, d :: s => c.toLower == d.toLower && likeMatch p s

/-- Position (from 1) of the first occurrence, 0 without one: SQLite's `instr`. -/
def instrChars (needle : List Char) : List Char → Nat
  | [] => if needle = [] then 1 else 0
  | c :: s =>
      if needle.isPrefixOf (c :: s) then 1
      else match instrChars needle s with
        | 0 => 0
        | k + 1 => k + 2

theorem instrChars_singleton_pos (c : Char) (s : List Char) : 0 < instrChars [c] s ↔ c ∈ s := by
  induction s with
  | nil => simp [instrChars]
  | cons d s ih =>
      by_cases h : c = d
      · subst h
        simp [instrChars]
      · cases hk : instrChars [c] s with
        | zero => simp_all [instrChars]
        | succ k => simp_all [instrChars]

namespace Value

/-- Text form of a value that is not `NULL`. -/
def asText : Value → Option String
  | null => none
  | int i => some (toString i)
  | text s => some s

/-- `a = b`, unknown when one is `NULL`. -/
def eq3 : Value → Value → Truth
  | null, _ => none
  | _, null => none
  | a, b => some (decide (a = b))

/-- `a <= b`: numbers before texts, unknown when one is `NULL`. -/
def le3 : Value → Value → Truth
  | null, _ => none
  | _, null => none
  | int i, int j => some (decide (i ≤ j))
  | text s, text t => some (decide (s ≤ t))
  | int _, text _ => some true
  | text _, int _ => some false

def coalesce : Value → Value → Value
  | null, b => b
  | a, _ => a

def lower : Value → Value
  | null => null
  | int i => text (toString i)
  | text s => text (asciiLower s)

def instr : Value → Value → Value
  | null, _ => null
  | _, null => null
  | a, b => int (instrChars ((asText b).getD "").toList ((asText a).getD "").toList)

def like3 : Value → Value → Truth
  | null, _ => none
  | _, null => none
  | a, p => some (likeMatch ((asText p).getD "").toList ((asText a).getD "").toList)

end Value

/-- Row values are equal when all their components are. -/
def rowEq3 : List Value → List Value → Truth
  | [], [] => some true
  | a :: as, b :: bs => (a.eq3 b).and (rowEq3 as bs)
  | _, _ => some false

/-- `x IN (rows)`: the disjunction of the equalities, false over no row. -/
def in3 (x : List Value) : List (List Value) → Truth
  | [] => some false
  | r :: rows => (rowEq3 x r).or (in3 x rows)

/-- Distinct values that are not `NULL`, as `COUNT(DISTINCT ..)` counts them. -/
def countDistinct (vs : List Value) : Nat := (vs.filter (· ≠ .null)).dedup.length

/-! ## Expressions -/

mutual
/-- A scalar expression. -/
inductive Term where
  | param
  | lit (v : Value)
  | col (row column : String)
  | coalesce (t u : Term)
  | lower (t : Term)
  | instr (t u : Term)
  | caseWhen (c : Cond) (t u : Term)
  | apply (f : String) (t : Term)
  | apply₂ (f : String) (t u : Term)
/-- A condition. `inMarks t n` is `t IN (?, .., ?)` with `n` placeholders. -/
inductive Cond where
  | one
  | eq (t u : Term)
  | gt (t u : Term)
  | ge (t u : Term)
  | le (t u : Term)
  | isNull (t : Term)
  | between (t lo hi : Term)
  | inMarks (t : Term) (n : Nat)
  | like (t u : Term)
  | not (c : Cond)
  | and (c d : Cond)
  | or (c d : Cond)
  | coalesceZero (c : Cond)
  | inQuery (t : Term) (q : Query)
  | inQueryPair (t u : Term) (q : Query)
  | existsRow (q : Query)
  | countEq (q : Query) (n : Nat)
/-- A select. `having g c table scan w total` keeps the groups `g` of the rows of
`table` under `w` with as many distinct `c` as `total` has distinct values. -/
inductive Query where
  | select (out : Term) (table scan : String) (w : Cond)
  | selectPair (out out' : Term) (table scan : String) (w : Cond)
  | row (t : Term)
  | rowPair (t u : Term)
  | unionAll (q r : Query)
  | union (q r : Query)
  | having (group counted : Term) (table scan : String) (w : Cond) (total : Query)
end

mutual
/-- Number of placeholders, in the order they are written. -/
def Term.marks : Term → Nat
  | .param => 1
  | .lit _ => 0
  | .col _ _ => 0
  | .coalesce t u => t.marks + u.marks
  | .lower t => t.marks
  | .instr t u => t.marks + u.marks
  | .caseWhen c t u => c.marks + t.marks + u.marks
  | .apply _ t => t.marks
  | .apply₂ _ t u => t.marks + u.marks
def Cond.marks : Cond → Nat
  | .one => 0
  | .eq t u => t.marks + u.marks
  | .gt t u => t.marks + u.marks
  | .ge t u => t.marks + u.marks
  | .le t u => t.marks + u.marks
  | .isNull t => t.marks
  | .between t lo hi => t.marks + lo.marks + hi.marks
  | .inMarks t n => t.marks + n
  | .like t u => t.marks + u.marks
  | .not c => c.marks
  | .and c d => c.marks + d.marks
  | .or c d => c.marks + d.marks
  | .coalesceZero c => c.marks
  | .inQuery t q => t.marks + q.marks
  | .inQueryPair t u q => t.marks + u.marks + q.marks
  | .existsRow q => q.marks
  | .countEq q _ => q.marks
def Query.marks : Query → Nat
  | .select out _ _ w => out.marks + w.marks
  | .selectPair out out' _ _ w => out.marks + out'.marks + w.marks
  | .row t => t.marks
  | .rowPair t u => t.marks + u.marks
  | .unionAll q r => q.marks + r.marks
  | .union q r => q.marks + r.marks
  | .having group counted _ _ w total => group.marks + w.marks + counted.marks + total.marks
end

/-! ## Evaluation -/

/-- A row, by column name. -/
abbrev Row := String → Value

/-- Tables by name, and the functions registered on the connection. -/
structure Database where
  table : String → List Row
  fn : String → Value → Value
  fn₂ : String → Value → Value → Value

/-- The rows in scope, by alias. -/
abbrev Env := String → Row

/-- Scope with `row` under the alias `scan`. -/
def Env.bind (env : Env) (scan : String) (row : Row) : Env :=
  fun a => if a = scan then row else env a

mutual
def Term.eval (db : Database) (env : Env) (ps : List Value) : Term → Value
  | .param => ps.headD .null
  | .lit v => v
  | .col a c => env a c
  | .coalesce t u => (t.eval db env ps).coalesce (u.eval db env (ps.drop t.marks))
  | .lower t => (t.eval db env ps).lower
  | .instr t u => (t.eval db env ps).instr (u.eval db env (ps.drop t.marks))
  | .caseWhen c t u =>
      if c.eval db env ps = some true then t.eval db env (ps.drop c.marks)
      else u.eval db env (ps.drop (c.marks + t.marks))
  | .apply f t => db.fn f (t.eval db env ps)
  | .apply₂ f t u => db.fn₂ f (t.eval db env ps) (u.eval db env (ps.drop t.marks))
def Cond.eval (db : Database) (env : Env) (ps : List Value) : Cond → Truth
  | .one => some true
  | .eq t u => (t.eval db env ps).eq3 (u.eval db env (ps.drop t.marks))
  | .gt t u => ((t.eval db env ps).le3 (u.eval db env (ps.drop t.marks))).not
  | .ge t u => (u.eval db env (ps.drop t.marks)).le3 (t.eval db env ps)
  | .le t u => (t.eval db env ps).le3 (u.eval db env (ps.drop t.marks))
  | .isNull t => some (decide (t.eval db env ps = .null))
  | .between t lo hi =>
      ((lo.eval db env (ps.drop t.marks)).le3 (t.eval db env ps)).and
        ((t.eval db env ps).le3 (hi.eval db env (ps.drop (t.marks + lo.marks))))
  | .inMarks t n => in3 [t.eval db env ps] (((ps.drop t.marks).take n).map fun v => [v])
  | .like t u => (t.eval db env ps).like3 (u.eval db env (ps.drop t.marks))
  | .not c => (c.eval db env ps).not
  | .and c d => (c.eval db env ps).and (d.eval db env (ps.drop c.marks))
  | .or c d => (c.eval db env ps).or (d.eval db env (ps.drop c.marks))
  | .coalesceZero c => some ((c.eval db env ps).getD false)
  | .inQuery t q => in3 [t.eval db env ps] (q.eval db env (ps.drop t.marks))
  | .inQueryPair t u q =>
      in3 [t.eval db env ps, u.eval db env (ps.drop t.marks)]
        (q.eval db env (ps.drop (t.marks + u.marks)))
  | .existsRow q => some (!(q.eval db env ps).isEmpty)
  | .countEq q n => some (decide ((q.eval db env ps).length = n))
def Query.eval (db : Database) (env : Env) (ps : List Value) : Query → List (List Value)
  | .select out table scan w =>
      ((db.table table).filter fun r =>
        w.eval db (env.bind scan r) (ps.drop out.marks) = some true).map fun r =>
          [out.eval db (env.bind scan r) ps]
  | .selectPair out out' table scan w =>
      ((db.table table).filter fun r =>
        w.eval db (env.bind scan r) (ps.drop (out.marks + out'.marks)) = some true).map fun r =>
          [out.eval db (env.bind scan r) ps,
            out'.eval db (env.bind scan r) (ps.drop out.marks)]
  | .row t => [[t.eval db env ps]]
  | .rowPair t u => [[t.eval db env ps, u.eval db env (ps.drop t.marks)]]
  | .unionAll q r => q.eval db env ps ++ r.eval db env (ps.drop q.marks)
  | .union q r => (q.eval db env ps ++ r.eval db env (ps.drop q.marks)).dedup
  | .having group counted table scan w total =>
      let rows := (db.table table).filter fun r =>
        w.eval db (env.bind scan r) (ps.drop group.marks) = some true
      let groupOf := fun r => group.eval db (env.bind scan r) ps
      let countedOf := fun r =>
        counted.eval db (env.bind scan r) (ps.drop (group.marks + w.marks))
      let wanted := countDistinct
        (((total.eval db env (ps.drop (group.marks + w.marks + counted.marks))).map
          fun r => r.headD .null))
      (((rows.map groupOf).dedup).filter fun g =>
        countDistinct ((rows.filter fun r => groupOf r = g).map countedOf) = wanted).map
          fun g => [g]
end

end IllumioOps.Sql
