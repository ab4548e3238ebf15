import IllumioOps.Sql.Expression
import Mathlib.Data.List.Forall2
import Mathlib.Data.Finset.Card

/-!
# What clauses built with their parameters mean

A query builder writes a clause and appends the values of its placeholders to
one parameter list. A piece is an expression with its own values; the operators
on pieces write both. Four relations say what a piece means in a scope, whatever
parameters follow its own:

- `Denotes t v`: the term has the value `v`;
- `Decides p b`: the clause is never unknown, its truth value is `b`;
- `Selects p P`: the clause is true exactly when `P` holds (it may be unknown
  when `P` fails), which is all a `WHERE` looks at;
- `Yields q rows`: the select returns these rows.

Only a decided clause can be negated. The rules below compose the relations along
every operator, and along the joins of a list of pieces (`Clauses`).
-/

set_option autoImplicit false

namespace IllumioOps.Sql

/-- A term and the values of its placeholders, from left to right. -/
abbrev TermPiece := Term × List Value

/-- A clause and the values of its placeholders, from left to right. -/
abbrev Piece := Cond × List Value

/-- A select and the values of its placeholders, from left to right. -/
abbrev QueryPiece := Query × List Value

namespace TermPiece

def param (v : Value) : TermPiece := (.param, [v])

def lit (v : Value) : TermPiece := (.lit v, [])

def col (row column : String) : TermPiece := (.col row column, [])

def coalesce (t u : TermPiece) : TermPiece := (.coalesce t.1 u.1, t.2 ++ u.2)

def lower (t : TermPiece) : TermPiece := (.lower t.1, t.2)

def instr (t u : TermPiece) : TermPiece := (.instr t.1 u.1, t.2 ++ u.2)

def caseWhen (c : Piece) (t u : TermPiece) : TermPiece :=
  (.caseWhen c.1 t.1 u.1, c.2 ++ t.2 ++ u.2)

def apply (f : String) (t : TermPiece) : TermPiece := (.apply f t.1, t.2)

def apply₂ (f : String) (t u : TermPiece) : TermPiece := (.apply₂ f t.1 u.1, t.2 ++ u.2)

end TermPiece

/-- `" AND ".join(..)`. -/
def joinAnd : List Cond → Cond
  | [] => .one
  | [c] => c
  | c :: d :: cs => .and c (joinAnd (d :: cs))

/-- `" OR ".join(..)` of at least one condition. -/
def joinOr : List Cond → Cond
  | [] => .not .one
  | [c] => c
  | c :: d :: cs => .or c (joinOr (d :: cs))

namespace Piece

/-- The clause `1`. -/
def one : Piece := (.one, [])

def eq (t u : TermPiece) : Piece := (.eq t.1 u.1, t.2 ++ u.2)

def gt (t u : TermPiece) : Piece := (.gt t.1 u.1, t.2 ++ u.2)

def ge (t u : TermPiece) : Piece := (.ge t.1 u.1, t.2 ++ u.2)

def le (t u : TermPiece) : Piece := (.le t.1 u.1, t.2 ++ u.2)

def isNull (t : TermPiece) : Piece := (.isNull t.1, t.2)

def between (t lo hi : TermPiece) : Piece := (.between t.1 lo.1 hi.1, t.2 ++ lo.2 ++ hi.2)

/-- `t IN (?, .., ?)` with its values. -/
def oneOf (t : TermPiece) (vs : List Value) : Piece := (.inMarks t.1 vs.length, t.2 ++ vs)

def like (t u : TermPiece) : Piece := (.like t.1 u.1, t.2 ++ u.2)

def inQuery (t : TermPiece) (q : QueryPiece) : Piece := (.inQuery t.1 q.1, t.2 ++ q.2)

def inQueryPair (t u : TermPiece) (q : QueryPiece) : Piece :=
  (.inQueryPair t.1 u.1 q.1, t.2 ++ u.2 ++ q.2)

def existsRow (q : QueryPiece) : Piece := (.existsRow q.1, q.2)

/-- `(SELECT COUNT(*) ..) = n`. -/
def countEq (q : QueryPiece) (n : Nat) : Piece := (.countEq q.1 n, q.2)

def not (p : Piece) : Piece := (.not p.1, p.2)

def and (p q : Piece) : Piece := (.and p.1 q.1, p.2 ++ q.2)

def or (p q : Piece) : Piece := (.or p.1 q.1, p.2 ++ q.2)

def coalesceZero (p : Piece) : Piece := (.coalesceZero p.1, p.2)

/-- The conjunction of the pieces, with their values in order. -/
def all (ps : List Piece) : Piece := (joinAnd (ps.map Prod.fst), ps.flatMap Prod.snd)

/-- The disjunction of the pieces, with their values in order. -/
def any (ps : List Piece) : Piece := (joinOr (ps.map Prod.fst), ps.flatMap Prod.snd)

end Piece

namespace QueryPiece

def select (out : TermPiece) (table scan : String) (w : Piece) : QueryPiece :=
  (.select out.1 table scan w.1, out.2 ++ w.2)

def selectPair (out out' : TermPiece) (table scan : String) (w : Piece) : QueryPiece :=
  (.selectPair out.1 out'.1 table scan w.1, out.2 ++ out'.2 ++ w.2)

/-- `SELECT ?`. -/
def row (v : Value) : QueryPiece := (.row .param, [v])

/-- `SELECT ?, ?`. -/
def rowPair (v w : Value) : QueryPiece := (.rowPair .param .param, [v, w])

def unionAll (q r : QueryPiece) : QueryPiece := (.unionAll q.1 r.1, q.2 ++ r.2)

def union (q r : QueryPiece) : QueryPiece := (.union q.1 r.1, q.2 ++ r.2)

/-- `SELECT group .. WHERE w GROUP BY group HAVING COUNT(DISTINCT counted) = (..)`. -/
def having (group counted : TermPiece) (table scan : String) (w : Piece) (total : QueryPiece) :
    QueryPiece :=
  (.having group.1 counted.1 table scan w.1 total.1, group.2 ++ w.2 ++ counted.2 ++ total.2)

end QueryPiece

/-! ## Comparisons -/

theorem Value.eq3_eq_true {v w : Value} : v.eq3 w = some true ↔ v ≠ .null ∧ v = w := by
  cases v <;> cases w <;> simp [Value.eq3]

theorem Value.eq3_of_ne_null {v w : Value} (hv : v ≠ .null) (hw : w ≠ .null) :
    v.eq3 w = some (decide (v = w)) := by
  cases v <;> cases w <;> simp_all [Value.eq3]

theorem in3_eq_true {x : List Value} {rows : List (List Value)} :
    in3 x rows = some true ↔ ∃ r ∈ rows, rowEq3 x r = some true := by
  induction rows with
  | nil => simp [in3]
  | cons r rows ih => simp [in3, ih]

theorem rowEq3_single_eq_true {v w : Value} :
    rowEq3 [v] [w] = some true ↔ v ≠ .null ∧ v = w := by
  simp [rowEq3, Value.eq3_eq_true]

theorem rowEq3_pair_eq_true {v v' w w' : Value} :
    rowEq3 [v, v'] [w, w'] = some true ↔ (v ≠ .null ∧ v = w) ∧ v' ≠ .null ∧ v' = w' := by
  simp [rowEq3, Value.eq3_eq_true]

/-- A value that is not `NULL` is decided against a list without `NULL`. -/
theorem in3_single_of_ne_null {v : Value} (hv : v ≠ .null) :
    ∀ {vs : List Value}, (∀ w ∈ vs, w ≠ .null) →
      in3 [v] (vs.map fun w => [w]) = some (decide (v ∈ vs))
  | [], _ => rfl
  | w :: ws, h => by
      have htail : in3 [v] (ws.map fun w => [w]) = some (decide (v ∈ ws)) :=
        in3_single_of_ne_null hv fun x hx => h x (by simp [hx])
      show ((v.eq3 w).and (some true)).or (in3 [v] (ws.map fun x => [x])) = _
      rw [htail, Value.eq3_of_ne_null hv (h w (by simp))]
      simp [Bool.decide_or]

/-- `IN` over a list without `NULL` selects membership. -/
theorem in3_single_eq_true {v : Value} {vs : List Value} (h : ∀ w ∈ vs, w ≠ .null) :
    in3 [v] (vs.map fun w => [w]) = some true ↔ v ∈ vs := by
  rw [in3_eq_true]
  constructor
  · rintro ⟨r, hr, heq⟩
    obtain ⟨w, hw, rfl⟩ := List.mem_map.1 hr
    exact (rowEq3_single_eq_true.1 heq).2 ▸ hw
  · intro hv
    exact ⟨[v], List.mem_map_of_mem hv, rowEq3_single_eq_true.2 ⟨h v hv, rfl⟩⟩

/-- A pair is `IN` a list of pairs without `NULL` exactly when it is one of them. -/
theorem in3_pair_eq_true {v w : Value} {vs : List (Value × Value)}
    (h : ∀ p ∈ vs, p.1 ≠ .null ∧ p.2 ≠ .null) :
    in3 [v, w] (vs.map fun p => [p.1, p.2]) = some true ↔ (v, w) ∈ vs := by
  rw [in3_eq_true]
  constructor
  · rintro ⟨r, hr, heq⟩
    obtain ⟨p, hp, rfl⟩ := List.mem_map.1 hr
    obtain ⟨⟨_, rfl⟩, _, rfl⟩ := rowEq3_pair_eq_true.1 heq
    exact hp
  · intro hv
    exact ⟨[v, w], List.mem_map_of_mem (f := fun p : Value × Value => [p.1, p.2]) hv,
      rowEq3_pair_eq_true.2 ⟨⟨(h _ hv).1, rfl⟩, (h _ hv).2, rfl⟩⟩

/-! ## Counting distinct values -/

/-- Of two lists, the first with values of the second only, the counts of distinct
values are equal exactly when both have the same values. -/
theorem countDistinct_eq_iff {vs ws : List Value} (h : ∀ v ∈ vs, v ≠ .null → v ∈ ws) :
    countDistinct vs = countDistinct ws ↔ ∀ w ∈ ws, w ≠ .null → w ∈ vs := by
  have hcard : ∀ l : List Value,
      countDistinct l = (l.filter fun v => decide (v ≠ .null)).toFinset.card :=
    fun l => (List.card_toFinset _).symm
  have hsub : (vs.filter fun v => decide (v ≠ .null)).toFinset ⊆
      (ws.filter fun v => decide (v ≠ .null)).toFinset := by
    intro v hv
    rw [List.mem_toFinset, List.mem_filter] at hv ⊢
    exact ⟨h v hv.1 (of_decide_eq_true hv.2), hv.2⟩
  rw [hcard, hcard]
  constructor
  · intro heq w hw hne
    have hmem : w ∈ (ws.filter fun v => decide (v ≠ .null)).toFinset :=
      List.mem_toFinset.2 (List.mem_filter.2 ⟨hw, decide_eq_true hne⟩)
    rw [← Finset.eq_of_subset_of_card_le hsub heq.ge] at hmem
    exact (List.mem_filter.1 (List.mem_toFinset.1 hmem)).1
  · intro hall
    refine congrArg Finset.card (Finset.Subset.antisymm hsub fun w hw => ?_)
    rw [List.mem_toFinset, List.mem_filter] at hw ⊢
    exact ⟨hall w hw.1 (of_decide_eq_true hw.2), hw.2⟩

section Meaning

variable (db : Database) (env : Env)

/-- The term has the value `v` under its own parameters. -/
structure Denotes (t : TermPiece) (v : Value) : Prop where
  marks_eq : t.1.marks = t.2.length
  eval_eq : ∀ rest, t.1.eval db env (t.2 ++ rest) = v

/-- The select returns these rows under its own parameters. -/
structure Yields (q : QueryPiece) (rows : List (List Value)) : Prop where
  marks_eq : q.1.marks = q.2.length
  eval_eq : ∀ rest, q.1.eval db env (q.2 ++ rest) = rows

/-- The clause has the truth value `b` under its own parameters. -/
structure Decides (p : Piece) (b : Bool) : Prop where
  marks_eq : p.1.marks = p.2.length
  eval_eq : ∀ rest, p.1.eval db env (p.2 ++ rest) = some b

/-- The clause is true under its own parameters exactly when `P` holds. -/
structure Selects (p : Piece) (P : Prop) : Prop where
  marks_eq : p.1.marks = p.2.length
  eval_iff : ∀ rest, p.1.eval db env (p.2 ++ rest) = some true ↔ P

variable {db env}

theorem Decides.selects {p : Piece} {b : Bool} (h : Decides db env p b) :
    Selects db env p (b = true) :=
  ⟨h.marks_eq, fun rest => by rw [h.eval_eq rest]; simp⟩

theorem Selects.of_iff {p : Piece} {P Q : Prop} (h : Selects db env p P) (hPQ : P ↔ Q) :
    Selects db env p Q :=
  ⟨h.marks_eq, fun rest => (h.eval_iff rest).trans hPQ⟩

theorem Decides.of_eq {p : Piece} {b c : Bool} (h : Decides db env p b) (hbc : b = c) :
    Decides db env p c := hbc ▸ h

/-! ## Operators -/

theorem Decides.not {p : Piece} {b : Bool} (h : Decides db env p b) :
    Decides db env p.not (!b) :=
  ⟨h.marks_eq, fun rest => by
    show Truth.not (p.1.eval db env (p.2 ++ rest)) = some (!b)
    rw [h.eval_eq rest]; rfl⟩

/-- The second operand of a binary operator is read after the values of the first. -/
theorem drop_marks {n : Nat} {ps : List Value} (hp : n = ps.length) (qs rest : List Value) :
    (ps ++ qs ++ rest).drop n = qs ++ rest := by
  rw [hp, List.append_assoc, List.drop_left]

/-- The third operand is read after the values of the first two. -/
theorem drop_marks₂ {m n : Nat} {ps qs : List Value} (hp : m = ps.length) (hq : n = qs.length)
    (rs rest : List Value) : (ps ++ qs ++ rs ++ rest).drop (m + n) = rs ++ rest := by
  rw [hp, hq, List.append_assoc, ← List.length_append, List.drop_left]

theorem Decides.and {p q : Piece} {b c : Bool} (hp : Decides db env p b)
    (hq : Decides db env q c) : Decides db env (p.and q) (b && c) where
  marks_eq := by
    show p.1.marks + q.1.marks = (p.2 ++ q.2).length
    rw [hp.marks_eq, hq.marks_eq, List.length_append]
  eval_eq rest := by
    show Truth.and (p.1.eval db env (p.2 ++ q.2 ++ rest))
      (q.1.eval db env ((p.2 ++ q.2 ++ rest).drop p.1.marks)) = some (b && c)
    rw [drop_marks hp.marks_eq, hq.eval_eq, List.append_assoc, hp.eval_eq]
    simp

theorem Decides.or {p q : Piece} {b c : Bool} (hp : Decides db env p b)
    (hq : Decides db env q c) : Decides db env (p.or q) (b || c) where
  marks_eq := by
    show p.1.marks + q.1.marks = (p.2 ++ q.2).length
    rw [hp.marks_eq, hq.marks_eq, List.length_append]
  eval_eq rest := by
    show Truth.or (p.1.eval db env (p.2 ++ q.2 ++ rest))
      (q.1.eval db env ((p.2 ++ q.2 ++ rest).drop p.1.marks)) = some (b || c)
    rw [drop_marks hp.marks_eq, hq.eval_eq, List.append_assoc, hp.eval_eq]
    simp

theorem Selects.and {p q : Piece} {P Q : Prop} (hp : Selects db env p P)
    (hq : Selects db env q Q) : Selects db env (p.and q) (P ∧ Q) where
  marks_eq := by
    show p.1.marks + q.1.marks = (p.2 ++ q.2).length
    rw [hp.marks_eq, hq.marks_eq, List.length_append]
  eval_iff rest := by
    show Truth.and (p.1.eval db env (p.2 ++ q.2 ++ rest))
      (q.1.eval db env ((p.2 ++ q.2 ++ rest).drop p.1.marks)) = some true ↔ P ∧ Q
    rw [drop_marks hp.marks_eq, List.append_assoc, Truth.and_eq_true, hp.eval_iff, hq.eval_iff]

theorem Selects.or {p q : Piece} {P Q : Prop} (hp : Selects db env p P)
    (hq : Selects db env q Q) : Selects db env (p.or q) (P ∨ Q) where
  marks_eq := by
    show p.1.marks + q.1.marks = (p.2 ++ q.2).length
    rw [hp.marks_eq, hq.marks_eq, List.length_append]
  eval_iff rest := by
    show Truth.or (p.1.eval db env (p.2 ++ q.2 ++ rest))
      (q.1.eval db env ((p.2 ++ q.2 ++ rest).drop p.1.marks)) = some true ↔ P ∨ Q
    rw [drop_marks hp.marks_eq, List.append_assoc, Truth.or_eq_true, hp.eval_iff, hq.eval_iff]

/-- `COALESCE(c, 0)` turns a clause that may be unknown into a decided one. -/
theorem Selects.coalesceZero {p : Piece} {P : Prop} [Decidable P] (h : Selects db env p P) :
    Decides db env p.coalesceZero (decide P) where
  marks_eq := h.marks_eq
  eval_eq rest := by
    show some ((p.1.eval db env (p.2 ++ rest)).getD false) = some (decide P)
    have hiff := h.eval_iff rest
    cases hv : p.1.eval db env (p.2 ++ rest) with
    | none =>
        rw [hv] at hiff
        have hP : ¬ P := fun hP => by simpa using hiff.2 hP
        simp [hP]
    | some b =>
        rw [hv] at hiff
        cases b with
        | false =>
            have hP : ¬ P := fun hP => by simpa using hiff.2 hP
            simp [hP]
        | true => simp [hiff.1 rfl]

/-! ## Terms -/

theorem Denotes.of_eq {t : TermPiece} {v w : Value} (h : Denotes db env t v) (hvw : v = w) :
    Denotes db env t w := hvw ▸ h

theorem Denotes.param (v : Value) : Denotes db env (.param v) v := ⟨rfl, fun _ => rfl⟩

theorem Denotes.lit (v : Value) : Denotes db env (.lit v) v := ⟨rfl, fun _ => rfl⟩

theorem Denotes.col (row column : String) : Denotes db env (.col row column) (env row column) :=
  ⟨rfl, fun _ => rfl⟩

/-- A binary operator on terms applies to the values of both. -/
theorem Denotes.binary {t u : TermPiece} {v w : Value} (ht : Denotes db env t v)
    (hu : Denotes db env u w) (rest : List Value) :
    t.1.eval db env (t.2 ++ u.2 ++ rest) = v ∧
      u.1.eval db env ((t.2 ++ u.2 ++ rest).drop t.1.marks) = w := by
  rw [drop_marks ht.marks_eq, List.append_assoc]
  exact ⟨ht.eval_eq _, hu.eval_eq _⟩

theorem Denotes.coalesce {t u : TermPiece} {v w : Value} (ht : Denotes db env t v)
    (hu : Denotes db env u w) : Denotes db env (t.coalesce u) (v.coalesce w) where
  marks_eq := by
    show t.1.marks + u.1.marks = (t.2 ++ u.2).length
    rw [ht.marks_eq, hu.marks_eq, List.length_append]
  eval_eq rest := by
    obtain ⟨h₁, h₂⟩ := ht.binary hu rest
    show (t.1.eval db env (t.2 ++ u.2 ++ rest)).coalesce
      (u.1.eval db env ((t.2 ++ u.2 ++ rest).drop t.1.marks)) = _
    rw [h₁, h₂]

theorem Denotes.lower {t : TermPiece} {v : Value} (ht : Denotes db env t v) :
    Denotes db env t.lower v.lower :=
  ⟨ht.marks_eq, fun rest => congrArg Value.lower (ht.eval_eq rest)⟩

theorem Denotes.instr {t u : TermPiece} {v w : Value} (ht : Denotes db env t v)
    (hu : Denotes db env u w) : Denotes db env (t.instr u) (v.instr w) where
  marks_eq := by
    show t.1.marks + u.1.marks = (t.2 ++ u.2).length
    rw [ht.marks_eq, hu.marks_eq, List.length_append]
  eval_eq rest := by
    obtain ⟨h₁, h₂⟩ := ht.binary hu rest
    show (t.1.eval db env (t.2 ++ u.2 ++ rest)).instr
      (u.1.eval db env ((t.2 ++ u.2 ++ rest).drop t.1.marks)) = _
    rw [h₁, h₂]

theorem Denotes.apply (f : String) {t : TermPiece} {v : Value} (ht : Denotes db env t v) :
    Denotes db env (.apply f t) (db.fn f v) :=
  ⟨ht.marks_eq, fun rest => congrArg (db.fn f) (ht.eval_eq rest)⟩

theorem Denotes.apply₂ (f : String) {t u : TermPiece} {v w : Value} (ht : Denotes db env t v)
    (hu : Denotes db env u w) : Denotes db env (.apply₂ f t u) (db.fn₂ f v w) where
  marks_eq := by
    show t.1.marks + u.1.marks = (t.2 ++ u.2).length
    rw [ht.marks_eq, hu.marks_eq, List.length_append]
  eval_eq rest := by
    obtain ⟨h₁, h₂⟩ := ht.binary hu rest
    show db.fn₂ f (t.1.eval db env (t.2 ++ u.2 ++ rest))
      (u.1.eval db env ((t.2 ++ u.2 ++ rest).drop t.1.marks)) = _
    rw [h₁, h₂]

theorem Denotes.caseWhen {c : Piece} {P : Prop} [Decidable P] {t u : TermPiece} {v w : Value}
    (hc : Selects db env c P) (ht : Denotes db env t v) (hu : Denotes db env u w) :
    Denotes db env (.caseWhen c t u) (if P then v else w) where
  marks_eq := by
    show c.1.marks + t.1.marks + u.1.marks = (c.2 ++ t.2 ++ u.2).length
    rw [hc.marks_eq, ht.marks_eq, hu.marks_eq]
    simp [Nat.add_assoc]
  eval_eq rest := by
    show (if c.1.eval db env (c.2 ++ t.2 ++ u.2 ++ rest) = some true
      then t.1.eval db env ((c.2 ++ t.2 ++ u.2 ++ rest).drop c.1.marks)
      else u.1.eval db env ((c.2 ++ t.2 ++ u.2 ++ rest).drop (c.1.marks + t.1.marks))) = _
    have hthen : (c.2 ++ t.2 ++ u.2 ++ rest).drop c.1.marks = t.2 ++ (u.2 ++ rest) := by
      rw [List.append_assoc, drop_marks hc.marks_eq]
    rw [drop_marks₂ hc.marks_eq ht.marks_eq, hthen, ht.eval_eq, hu.eval_eq,
      List.append_assoc, List.append_assoc]
    exact if_congr (hc.eval_iff _) rfl rfl

/-! ## Conditions on terms -/

theorem Decides.one : Decides db env .one true := ⟨rfl, fun _ => rfl⟩

theorem Selects.eq {t u : TermPiece} {v w : Value} (ht : Denotes db env t v)
    (hu : Denotes db env u w) : Selects db env (.eq t u) (v ≠ .null ∧ v = w) where
  marks_eq := by
    show t.1.marks + u.1.marks = (t.2 ++ u.2).length
    rw [ht.marks_eq, hu.marks_eq, List.length_append]
  eval_iff rest := by
    obtain ⟨h₁, h₂⟩ := ht.binary hu rest
    show (t.1.eval db env (t.2 ++ u.2 ++ rest)).eq3
      (u.1.eval db env ((t.2 ++ u.2 ++ rest).drop t.1.marks)) = some true ↔ _
    rw [h₁, h₂, Value.eq3_eq_true]

theorem Decides.eq {t u : TermPiece} {v w : Value} (ht : Denotes db env t v)
    (hu : Denotes db env u w) (hv : v ≠ .null) (hw : w ≠ .null) :
    Decides db env (.eq t u) (decide (v = w)) where
  marks_eq := (Selects.eq ht hu).marks_eq
  eval_eq rest := by
    obtain ⟨h₁, h₂⟩ := ht.binary hu rest
    show (t.1.eval db env (t.2 ++ u.2 ++ rest)).eq3
      (u.1.eval db env ((t.2 ++ u.2 ++ rest).drop t.1.marks)) = _
    rw [h₁, h₂, Value.eq3_of_ne_null hv hw]

theorem Selects.gt {t u : TermPiece} {v w : Value} (ht : Denotes db env t v)
    (hu : Denotes db env u w) : Selects db env (.gt t u) (v.le3 w = some false) where
  marks_eq := by
    show t.1.marks + u.1.marks = (t.2 ++ u.2).length
    rw [ht.marks_eq, hu.marks_eq, List.length_append]
  eval_iff rest := by
    obtain ⟨h₁, h₂⟩ := ht.binary hu rest
    show Truth.not ((t.1.eval db env (t.2 ++ u.2 ++ rest)).le3
      (u.1.eval db env ((t.2 ++ u.2 ++ rest).drop t.1.marks))) = some true ↔ _
    rw [h₁, h₂]
    rcases v.le3 w with _ | _ | _ <;> simp [Truth.not]

theorem Decides.ge {t u : TermPiece} {i j : Int} (ht : Denotes db env t (.int i))
    (hu : Denotes db env u (.int j)) : Decides db env (.ge t u) (decide (j ≤ i)) where
  marks_eq := by
    show t.1.marks + u.1.marks = (t.2 ++ u.2).length
    rw [ht.marks_eq, hu.marks_eq, List.length_append]
  eval_eq rest := by
    obtain ⟨h₁, h₂⟩ := ht.binary hu rest
    show (u.1.eval db env ((t.2 ++ u.2 ++ rest).drop t.1.marks)).le3
      (t.1.eval db env (t.2 ++ u.2 ++ rest)) = _
    rw [h₁, h₂]
    rfl

theorem Decides.le {t u : TermPiece} {i j : Int} (ht : Denotes db env t (.int i))
    (hu : Denotes db env u (.int j)) : Decides db env (.le t u) (decide (i ≤ j)) where
  marks_eq := by
    show t.1.marks + u.1.marks = (t.2 ++ u.2).length
    rw [ht.marks_eq, hu.marks_eq, List.length_append]
  eval_eq rest := by
    obtain ⟨h₁, h₂⟩ := ht.binary hu rest
    show (t.1.eval db env (t.2 ++ u.2 ++ rest)).le3
      (u.1.eval db env ((t.2 ++ u.2 ++ rest).drop t.1.marks)) = _
    rw [h₁, h₂]
    rfl

theorem Decides.isNull {t : TermPiece} {v : Value} (ht : Denotes db env t v) :
    Decides db env (.isNull t) (decide (v = .null)) :=
  ⟨ht.marks_eq, fun rest => by
    show some (decide (t.1.eval db env (t.2 ++ rest) = .null)) = _
    rw [ht.eval_eq]⟩

/-- `BETWEEN` selects by both bounds, whatever the values are. -/
theorem Selects.between {t lo hi : TermPiece} {v l h : Value} (ht : Denotes db env t v)
    (hl : Denotes db env lo l) (hh : Denotes db env hi h) :
    Selects db env (.between t lo hi) (l.le3 v = some true ∧ v.le3 h = some true) where
  marks_eq := by
    show t.1.marks + lo.1.marks + hi.1.marks = (t.2 ++ lo.2 ++ hi.2).length
    rw [ht.marks_eq, hl.marks_eq, hh.marks_eq]
    simp [Nat.add_assoc]
  eval_iff rest := by
    show Truth.and
      ((lo.1.eval db env ((t.2 ++ lo.2 ++ hi.2 ++ rest).drop t.1.marks)).le3
        (t.1.eval db env (t.2 ++ lo.2 ++ hi.2 ++ rest)))
      ((t.1.eval db env (t.2 ++ lo.2 ++ hi.2 ++ rest)).le3
        (hi.1.eval db env ((t.2 ++ lo.2 ++ hi.2 ++ rest).drop (t.1.marks + lo.1.marks)))) =
      some true ↔ _
    have hsecond : (t.2 ++ lo.2 ++ hi.2 ++ rest).drop t.1.marks = lo.2 ++ (hi.2 ++ rest) := by
      rw [List.append_assoc, drop_marks ht.marks_eq]
    rw [drop_marks₂ ht.marks_eq hl.marks_eq, hsecond, hl.eval_eq, hh.eval_eq, List.append_assoc,
      List.append_assoc, ht.eval_eq, Truth.and_eq_true]

theorem Decides.between {t lo hi : TermPiece} {i l h : Int} (ht : Denotes db env t (.int i))
    (hl : Denotes db env lo (.int l)) (hh : Denotes db env hi (.int h)) :
    Decides db env (.between t lo hi) (decide (l ≤ i) && decide (i ≤ h)) where
  marks_eq := (Selects.between ht hl hh).marks_eq
  eval_eq rest := by
    show Truth.and
      ((lo.1.eval db env ((t.2 ++ lo.2 ++ hi.2 ++ rest).drop t.1.marks)).le3
        (t.1.eval db env (t.2 ++ lo.2 ++ hi.2 ++ rest)))
      ((t.1.eval db env (t.2 ++ lo.2 ++ hi.2 ++ rest)).le3
        (hi.1.eval db env ((t.2 ++ lo.2 ++ hi.2 ++ rest).drop (t.1.marks + lo.1.marks)))) = _
    have hsecond : (t.2 ++ lo.2 ++ hi.2 ++ rest).drop t.1.marks = lo.2 ++ (hi.2 ++ rest) := by
      rw [List.append_assoc, drop_marks ht.marks_eq]
    rw [drop_marks₂ ht.marks_eq hl.marks_eq, hsecond, hl.eval_eq, hh.eval_eq, List.append_assoc,
      List.append_assoc, ht.eval_eq]
    exact Truth.and_some_some _ _

/-- The values of an `IN` list are read after the ones of its term. -/
theorem eval_oneOf {t : TermPiece} {v : Value} (ht : Denotes db env t v) (vs rest : List Value) :
    (Piece.oneOf t vs).1.eval db env ((Piece.oneOf t vs).2 ++ rest) =
      in3 [v] (vs.map fun w => [w]) := by
  show in3 [t.1.eval db env (t.2 ++ vs ++ rest)]
    ((((t.2 ++ vs ++ rest).drop t.1.marks).take vs.length).map fun w => [w]) = _
  rw [drop_marks ht.marks_eq, List.take_left, List.append_assoc, ht.eval_eq]

theorem Selects.oneOf {t : TermPiece} {v : Value} {vs : List Value} (ht : Denotes db env t v)
    (hvs : ∀ w ∈ vs, w ≠ .null) : Selects db env (.oneOf t vs) (v ∈ vs) where
  marks_eq := by
    show t.1.marks + vs.length = (t.2 ++ vs).length
    rw [ht.marks_eq, List.length_append]
  eval_iff rest := by rw [eval_oneOf ht, in3_single_eq_true hvs]

theorem Decides.oneOf {t : TermPiece} {v : Value} {vs : List Value} (ht : Denotes db env t v)
    (hv : v ≠ .null) (hvs : ∀ w ∈ vs, w ≠ .null) :
    Decides db env (.oneOf t vs) (decide (v ∈ vs)) where
  marks_eq := (Selects.oneOf ht hvs).marks_eq
  eval_eq rest := by rw [eval_oneOf ht, in3_single_of_ne_null hv hvs]

theorem Selects.like {t u : TermPiece} {v w : Value} (ht : Denotes db env t v)
    (hu : Denotes db env u w) : Selects db env (.like t u) (v.like3 w = some true) where
  marks_eq := by
    show t.1.marks + u.1.marks = (t.2 ++ u.2).length
    rw [ht.marks_eq, hu.marks_eq, List.length_append]
  eval_iff rest := by
    obtain ⟨h₁, h₂⟩ := ht.binary hu rest
    show (t.1.eval db env (t.2 ++ u.2 ++ rest)).like3
      (u.1.eval db env ((t.2 ++ u.2 ++ rest).drop t.1.marks)) = some true ↔ _
    rw [h₁, h₂]

/-! ## Conditions on selects -/

theorem Decides.inQuery {t : TermPiece} {v : Value} {q : QueryPiece} {vs : List Value}
    (ht : Denotes db env t v) (hq : Yields db env q (vs.map fun w => [w])) (hv : v ≠ .null)
    (hvs : ∀ w ∈ vs, w ≠ .null) : Decides db env (.inQuery t q) (decide (v ∈ vs)) where
  marks_eq := by
    show t.1.marks + q.1.marks = (t.2 ++ q.2).length
    rw [ht.marks_eq, hq.marks_eq, List.length_append]
  eval_eq rest := by
    show in3 [t.1.eval db env (t.2 ++ q.2 ++ rest)]
      (q.1.eval db env ((t.2 ++ q.2 ++ rest).drop t.1.marks)) = _
    rw [drop_marks ht.marks_eq, hq.eval_eq, List.append_assoc, ht.eval_eq,
      in3_single_of_ne_null hv hvs]

theorem Selects.inQueryPair {t u : TermPiece} {v w : Value} {q : QueryPiece}
    {vs : List (Value × Value)} (ht : Denotes db env t v) (hu : Denotes db env u w)
    (hq : Yields db env q (vs.map fun p => [p.1, p.2]))
    (hvs : ∀ p ∈ vs, p.1 ≠ .null ∧ p.2 ≠ .null) :
    Selects db env (.inQueryPair t u q) ((v, w) ∈ vs) where
  marks_eq := by
    show t.1.marks + u.1.marks + q.1.marks = (t.2 ++ u.2 ++ q.2).length
    rw [ht.marks_eq, hu.marks_eq, hq.marks_eq]
    simp [Nat.add_assoc]
  eval_iff rest := by
    show in3 [t.1.eval db env (t.2 ++ u.2 ++ q.2 ++ rest),
        u.1.eval db env ((t.2 ++ u.2 ++ q.2 ++ rest).drop t.1.marks)]
      (q.1.eval db env ((t.2 ++ u.2 ++ q.2 ++ rest).drop (t.1.marks + u.1.marks))) =
      some true ↔ _
    have hsecond : (t.2 ++ u.2 ++ q.2 ++ rest).drop t.1.marks = u.2 ++ (q.2 ++ rest) := by
      rw [List.append_assoc, drop_marks ht.marks_eq]
    rw [drop_marks₂ ht.marks_eq hu.marks_eq, hsecond, hq.eval_eq, hu.eval_eq, List.append_assoc,
      List.append_assoc, ht.eval_eq, in3_pair_eq_true hvs]

theorem Decides.existsRow {q : QueryPiece} {rows : List (List Value)}
    (hq : Yields db env q rows) : Decides db env (.existsRow q) (!rows.isEmpty) :=
  ⟨hq.marks_eq, fun rest => by
    show some (!(q.1.eval db env (q.2 ++ rest)).isEmpty) = _
    rw [hq.eval_eq]⟩

theorem Decides.countEq {q : QueryPiece} {rows : List (List Value)} (n : Nat)
    (hq : Yields db env q rows) : Decides db env (.countEq q n) (decide (rows.length = n)) :=
  ⟨hq.marks_eq, fun rest => by
    show some (decide ((q.1.eval db env (q.2 ++ rest)).length = n)) = _
    rw [hq.eval_eq]⟩

/-! ## Selects -/

theorem Yields.of_eq {q : QueryPiece} {rows rows' : List (List Value)} (h : Yields db env q rows)
    (heq : rows = rows') : Yields db env q rows' := heq ▸ h

theorem Yields.select (table scan : String) {out : TermPiece} {w : Piece} {f : Row → Value}
    {P : Row → Prop} [DecidablePred P] (hout : ∀ r, Denotes db (env.bind scan r) out (f r))
    (hw : ∀ r, Selects db (env.bind scan r) w (P r)) :
    Yields db env (.select out table scan w)
      (((db.table table).filter fun r => decide (P r)).map fun r => [f r]) where
  marks_eq := by
    show out.1.marks + w.1.marks = (out.2 ++ w.2).length
    rw [(hout fun _ => .null).marks_eq, (hw fun _ => .null).marks_eq, List.length_append]
  eval_eq rest := by
    show ((db.table table).filter fun r =>
      w.1.eval db (env.bind scan r) ((out.2 ++ w.2 ++ rest).drop out.1.marks) = some true).map
        (fun r => [out.1.eval db (env.bind scan r) (out.2 ++ w.2 ++ rest)]) = _
    rw [drop_marks (hout fun _ => .null).marks_eq, List.append_assoc]
    simp only [(hw _).eval_iff, (hout _).eval_eq]

theorem Yields.selectPair (table scan : String) {out out' : TermPiece} {w : Piece}
    {f f' : Row → Value} {P : Row → Prop} [DecidablePred P]
    (hout : ∀ r, Denotes db (env.bind scan r) out (f r))
    (hout' : ∀ r, Denotes db (env.bind scan r) out' (f' r))
    (hw : ∀ r, Selects db (env.bind scan r) w (P r)) :
    Yields db env (.selectPair out out' table scan w)
      (((db.table table).filter fun r => decide (P r)).map fun r => [f r, f' r]) where
  marks_eq := by
    show out.1.marks + out'.1.marks + w.1.marks = (out.2 ++ out'.2 ++ w.2).length
    rw [(hout fun _ => .null).marks_eq, (hout' fun _ => .null).marks_eq,
      (hw fun _ => .null).marks_eq]
    simp [Nat.add_assoc]
  eval_eq rest := by
    show ((db.table table).filter fun r =>
      w.1.eval db (env.bind scan r)
        ((out.2 ++ out'.2 ++ w.2 ++ rest).drop (out.1.marks + out'.1.marks)) = some true).map
        (fun r => [out.1.eval db (env.bind scan r) (out.2 ++ out'.2 ++ w.2 ++ rest),
          out'.1.eval db (env.bind scan r)
            ((out.2 ++ out'.2 ++ w.2 ++ rest).drop out.1.marks)]) = _
    have hsecond : (out.2 ++ out'.2 ++ w.2 ++ rest).drop out.1.marks =
        out'.2 ++ (w.2 ++ rest) := by
      rw [List.append_assoc, drop_marks (hout fun _ => .null).marks_eq]
    rw [drop_marks₂ (hout fun _ => .null).marks_eq (hout' fun _ => .null).marks_eq, hsecond,
      List.append_assoc, List.append_assoc]
    simp only [(hw _).eval_iff, (hout _).eval_eq, (hout' _).eval_eq]

theorem Yields.row (v : Value) : Yields db env (.row v) [[v]] := ⟨rfl, fun _ => rfl⟩

theorem Yields.rowPair (v w : Value) : Yields db env (.rowPair v w) [[v, w]] :=
  ⟨rfl, fun _ => rfl⟩

theorem Yields.unionAll {q r : QueryPiece} {qs rs : List (List Value)} (hq : Yields db env q qs)
    (hr : Yields db env r rs) : Yields db env (q.unionAll r) (qs ++ rs) where
  marks_eq := by
    show q.1.marks + r.1.marks = (q.2 ++ r.2).length
    rw [hq.marks_eq, hr.marks_eq, List.length_append]
  eval_eq rest := by
    show q.1.eval db env (q.2 ++ r.2 ++ rest) ++
      r.1.eval db env ((q.2 ++ r.2 ++ rest).drop q.1.marks) = _
    rw [drop_marks hq.marks_eq, hr.eval_eq, List.append_assoc, hq.eval_eq]

theorem Yields.union {q r : QueryPiece} {qs rs : List (List Value)} (hq : Yields db env q qs)
    (hr : Yields db env r rs) : Yields db env (q.union r) (qs ++ rs).dedup where
  marks_eq := (Yields.unionAll hq hr).marks_eq
  eval_eq rest := congrArg List.dedup ((Yields.unionAll hq hr).eval_eq rest)

/-- `UNION ALL SELECT ?, ?` once for each pair. -/
theorem Yields.foldl_unionAll (pairs : List (Value × Value)) {q : QueryPiece}
    {rows : List (List Value)} (hq : Yields db env q rows) :
    Yields db env (pairs.foldl (fun q p => q.unionAll (.rowPair p.1 p.2)) q)
      (rows ++ pairs.map fun p => [p.1, p.2]) := by
  induction pairs generalizing q rows with
  | nil => exact hq.of_eq (by simp)
  | cons p pairs ih =>
      exact (ih (hq.unionAll (Yields.rowPair p.1 p.2))).of_eq (by simp)

/-- `UNION SELECT ?` once for each value: the same rows and the values. -/
theorem Yields.foldl_union (vs : List Value) {q : QueryPiece} {rows : List (List Value)}
    (hq : Yields db env q rows) :
    ∃ rows', Yields db env (vs.foldl (fun q v => q.union (.row v)) q) rows' ∧
      ∀ r, r ∈ rows' ↔ r ∈ rows ∨ ∃ v ∈ vs, r = [v] := by
  induction vs generalizing q rows with
  | nil => exact ⟨rows, hq, fun r => by simp⟩
  | cons v vs ih =>
      obtain ⟨rows', hrows', hmem⟩ := ih (hq.union (Yields.row v))
      refine ⟨rows', hrows', fun r => ?_⟩
      rw [hmem, List.mem_dedup, List.mem_append, List.mem_singleton, or_assoc]
      simp

/-- The groups that hold as many distinct values as the total has. -/
theorem Yields.having (table scan : String) {group counted : TermPiece} {w : Piece}
    {total : QueryPiece} {g c : Row → Value} {P : Row → Prop} [DecidablePred P]
    {totals : List (List Value)}
    (hgroup : ∀ r, Denotes db (env.bind scan r) group (g r))
    (hcounted : ∀ r, Denotes db (env.bind scan r) counted (c r))
    (hw : ∀ r, Selects db (env.bind scan r) w (P r)) (htotal : Yields db env total totals) :
    Yields db env (.having group counted table scan w total)
      (((((db.table table).filter fun r => decide (P r)).map g).dedup.filter fun x =>
        countDistinct ((((db.table table).filter fun r => decide (P r)).filter
          fun r => g r = x).map c) = countDistinct (totals.map fun r => r.headD .null)).map
            fun x => [x]) where
  marks_eq := by
    show group.1.marks + w.1.marks + counted.1.marks + total.1.marks =
      (group.2 ++ w.2 ++ counted.2 ++ total.2).length
    rw [(hgroup fun _ => .null).marks_eq, (hcounted fun _ => .null).marks_eq,
      (hw fun _ => .null).marks_eq, htotal.marks_eq]
    simp [Nat.add_assoc]
  eval_eq rest := by
    have hmg := (hgroup fun _ => .null).marks_eq
    have hmw := (hw fun _ => .null).marks_eq
    have hmc := (hcounted fun _ => .null).marks_eq
    have hps : group.2 ++ w.2 ++ counted.2 ++ total.2 ++ rest =
        group.2 ++ (w.2 ++ (counted.2 ++ (total.2 ++ rest))) := by
      simp only [List.append_assoc]
    have h₁ : (group.2 ++ (w.2 ++ (counted.2 ++ (total.2 ++ rest)))).drop group.1.marks =
        w.2 ++ (counted.2 ++ (total.2 ++ rest)) := by
      rw [hmg, List.drop_left]
    have h₂ : (group.2 ++ (w.2 ++ (counted.2 ++ (total.2 ++ rest)))).drop
        (group.1.marks + w.1.marks) = counted.2 ++ (total.2 ++ rest) := by
      rw [← List.drop_drop, h₁, hmw, List.drop_left]
    have h₃ : (group.2 ++ (w.2 ++ (counted.2 ++ (total.2 ++ rest)))).drop
        (group.1.marks + w.1.marks + counted.1.marks) = total.2 ++ rest := by
      rw [← List.drop_drop, h₂, hmc, List.drop_left]
    show Query.eval db env (group.2 ++ w.2 ++ counted.2 ++ total.2 ++ rest)
      (.having group.1 counted.1 table scan w.1 total.1) = _
    simp only [Query.eval, hps, h₁, h₂, h₃, (hgroup _).eval_eq, (hcounted _).eval_eq,
      (hw _).eval_iff, htotal.eval_eq]

/-! ## Joined lists of clauses -/

theorem Piece.all_cons_cons (p q : Piece) (ps : List Piece) :
    Piece.all (p :: q :: ps) = p.and (Piece.all (q :: ps)) := rfl

theorem Piece.any_cons_cons (p q : Piece) (ps : List Piece) :
    Piece.any (p :: q :: ps) = p.or (Piece.any (q :: ps)) := rfl

theorem Piece.all_singleton (p : Piece) : Piece.all [p] = p := by
  simp [Piece.all, joinAnd]

theorem Piece.any_singleton (p : Piece) : Piece.any [p] = p := by
  simp [Piece.any, joinOr]

variable (db env) in
/-- The conjunction of the pieces is true exactly when `P` holds, piece by piece. -/
inductive Clauses : List Piece → Prop → Prop
  | nil {P : Prop} (hP : P) : Clauses [] P
  | cons {p : Piece} {ps : List Piece} {P Q R : Prop} (hp : Selects db env p Q)
      (hps : Clauses ps R) (hP : P ↔ Q ∧ R) : Clauses (p :: ps) P

theorem Clauses.of_iff {ps : List Piece} {P Q : Prop} (h : Clauses db env ps P) (hPQ : P ↔ Q) :
    Clauses db env ps Q := by
  cases h with
  | nil hP => exact .nil (hPQ.1 hP)
  | cons hp hps hP => exact .cons hp hps (hPQ.symm.trans hP)

theorem Clauses.single {p : Piece} {P : Prop} (h : Selects db env p P) :
    Clauses db env [p] P :=
  .cons h (.nil trivial) (and_true P).symm.to_iff

theorem Clauses.append {ps qs : List Piece} {P Q : Prop} (hp : Clauses db env ps P)
    (hq : Clauses db env qs Q) : Clauses db env (ps ++ qs) (P ∧ Q) := by
  induction hp with
  | nil hP => exact hq.of_iff ⟨fun h => ⟨hP, h⟩, fun h => h.2⟩
  | cons hp hps hP ih => exact .cons hp ih (by rw [hP, and_assoc])

/-- Joined lists of clauses that select by tests select by both tests. -/
theorem Clauses.and {ps qs : List Piece} {a b : Bool} (hp : Clauses db env ps (a = true))
    (hq : Clauses db env qs (b = true)) : Clauses db env (ps ++ qs) ((a && b) = true) :=
  (hp.append hq).of_iff (Bool.and_eq_true a b).symm.to_iff

/-- A clause written only when `c` holds constrains nothing otherwise. -/
theorem Clauses.when {c : Prop} [Decidable c] {ps : List Piece} {P : Prop}
    (h : c → Clauses db env ps P) : Clauses db env (if c then ps else []) (c → P) := by
  by_cases hc : c
  · rw [if_pos hc]
    exact (h hc).of_iff ⟨fun hP _ => hP, fun hP => hP hc⟩
  · rw [if_neg hc]
    exact .nil fun hc' => absurd hc' hc

/-- The joined clause selects what its pieces select together. -/
theorem Clauses.selects_all {ps : List Piece} {P : Prop} (h : Clauses db env ps P) :
    Selects db env (Piece.all ps) P := by
  induction h with
  | nil hP => exact ⟨rfl, fun rest => ⟨fun _ => hP, fun _ => rfl⟩⟩
  | cons hp hps hP ih =>
      cases hps with
      | nil hR =>
          rw [Piece.all_singleton]
          exact hp.of_iff (by rw [hP]; exact ⟨fun hQ => ⟨hQ, hR⟩, fun hQR => hQR.1⟩)
      | cons hq hqs hR =>
          rw [Piece.all_cons_cons]
          exact (hp.and ih).of_iff hP.symm

/-- A conjunction of decided clauses is decided. -/
theorem Decides.all {ps : List Piece} {bs : List Bool} (h : List.Forall₂ (Decides db env) ps bs) :
    Decides db env (Piece.all ps) (bs.all id) := by
  induction h with
  | nil => exact ⟨rfl, fun _ => rfl⟩
  | @cons p b ps bs hp hps ih =>
      cases hps with
      | nil =>
          rw [Piece.all_singleton]
          exact hp.of_eq (by simp)
      | cons hq hqs => exact (hp.and ih).of_eq (by simp)

/-- A disjunction of decided clauses is decided. -/
theorem Decides.any {ps : List Piece} {bs : List Bool} (h : List.Forall₂ (Decides db env) ps bs) :
    Decides db env (Piece.any ps) (bs.any id) := by
  induction h with
  | nil => exact ⟨rfl, fun _ => rfl⟩
  | @cons p b ps bs hp hps ih =>
      cases hps with
      | nil =>
          rw [Piece.any_singleton]
          exact hp.of_eq (by simp)
      | cons hq hqs => exact (hp.or ih).of_eq (by simp)

/-- One decided clause for each element. -/
theorem Decides.map {α : Type} {f : α → Piece} {b : α → Bool} {as : List α}
    (h : ∀ a ∈ as, Decides db env (f a) (b a)) :
    List.Forall₂ (Decides db env) (as.map f) (as.map b) := by
  rw [List.forall₂_map_left_iff, List.forall₂_map_right_iff, List.forall₂_same]
  exact h

theorem Decides.append {ps qs : List Piece} {bs cs : List Bool}
    (hp : List.Forall₂ (Decides db env) ps bs) (hq : List.Forall₂ (Decides db env) qs cs) :
    List.Forall₂ (Decides db env) (ps ++ qs) (bs ++ cs) := List.rel_append hp hq

/-- A decided clause that is written only when `c` holds, `d` saying the same. -/
theorem Decides.when_iff {p : Piece} {b : Bool} {c d : Prop} [Decidable c] [Decidable d]
    (hcd : c ↔ d) (h : Decides db env p b) :
    List.Forall₂ (Decides db env) (if c then [p] else []) (if d then [b] else []) := by
  by_cases hc : c
  · rw [if_pos hc, if_pos (hcd.1 hc)]
    exact .cons h .nil
  · rw [if_neg hc, if_neg fun hd => hc (hcd.2 hd)]
    exact .nil

theorem Decides.when {p : Piece} {b : Bool} {c : Prop} [Decidable c] (h : Decides db env p b) :
    List.Forall₂ (Decides db env) (if c then [p] else []) (if c then [b] else []) :=
  Decides.when_iff Iff.rfl h

/-- A disjunction selects what one of its clauses selects. -/
theorem Selects.any {α : Type} (f : α → Piece) (P : α → Prop) :
    ∀ {as : List α}, (∀ a ∈ as, Selects db env (f a) (P a)) →
      Selects db env (Piece.any (as.map f)) (∃ a ∈ as, P a)
  | [], _ => ⟨rfl, fun _ => by simp [Piece.any, joinOr, Cond.eval]⟩
  | [a], h => by
      rw [List.map_singleton, Piece.any_singleton]
      exact (h a (by simp)).of_iff (by simp)
  | a :: a' :: as, h => by
      have htail : Selects db env (Piece.any ((a' :: as).map f)) (∃ x ∈ a' :: as, P x) :=
        Selects.any f P fun x hx => h x (by simp [hx])
      exact ((h a (by simp)).or htail).of_iff (by simp)

end Meaning

end IllumioOps.Sql
