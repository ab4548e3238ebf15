import IllumioOps.Filter.SqlEndpoints

/-!
# When the clause and the record test agree

The clause selects a row exactly when the record passes the conditions that both read
alike (`commonHolds`), the inclusions and none of the exclusions, with label conditions
read one by one and accounts folded by ASCII case only. The record test reads the label
conditions of one key together and folds accounts by Unicode case.
`FilterSpec.sqlSelects_eq_matches_iff` says exactly when the two verdicts are the same.
-/

set_option autoImplicit false

namespace IllumioOps

open IllumioOps.Sql

/-! ## Partial matches -/

/-- Every escape character is followed by the character it escapes. -/
def wellEscaped : List Char → Bool
  | [] => true
  | ['\\'] => false
  | '\\' :: _ :: p => wellEscaped p
  | _ :: p => wellEscaped p

/-- On a well escaped pattern SQLite's `LIKE` is the compiled pattern. -/
theorem likeMatch_eq_fullmatch (p : List Char) (h : wellEscaped p = true) (s : List Char) :
    likeMatch p s = fullmatch (likeRegex p) s := by
  induction p using wellEscaped.induct generalizing s with
  | case1 => simp [likeMatch, likeRegex, fullmatch]
  | case2 => simp [wellEscaped] at h
  | case3 c p ih =>
      rw [wellEscaped] at h
      cases s with
      | nil => simp [likeMatch, likeRegex, fullmatch]
      | cons d s => simp [likeMatch, likeRegex, fullmatch, ih h]
  | case4 c p hc hc' ih =>
      have hback : c ≠ '\\' := by
        rintro rfl
        cases p with
        | nil => exact hc rfl rfl
        | cons d p => exact hc' d p rfl rfl
      have hp : wellEscaped p = true := by
        rw [wellEscaped] at h <;> assumption
      by_cases hrun : c = '%'
      · subst hrun
        simp only [likeMatch, likeRegex, fullmatch]
        exact congrArg (List.any s.tails) (funext fun tail => ih hp tail)
      · by_cases hone : c = '_'
        · subst hone
          cases s with
          | nil => simp [likeMatch, likeRegex, fullmatch]
          | cons d s => simp [likeMatch, likeRegex, fullmatch, ih hp]
        · cases s with
          | nil => simp [likeMatch, likeRegex, fullmatch]
          | cons d s => simp [likeMatch, likeRegex, fullmatch, ih hp]

theorem wellEscaped_cons {c : Char} (hc : c ≠ '\\') (p : List Char) :
    wellEscaped (c :: p) = wellEscaped p := by
  cases p with
  | nil => simp [wellEscaped, hc]
  | cons d p => simp [wellEscaped, hc]

/-- Escaping a term makes a well escaped pattern, whatever replaces the stars. -/
theorem wellEscaped_flatMap (f : Char → Char) (hback : f '\\' = '\\')
    (hf : ∀ c, c ≠ '\\' → f c ≠ '\\') (cs tail : List Char) :
    wellEscaped (((cs.flatMap fun c =>
      if c = '\\' ∨ c = '%' ∨ c = '_' then ['\\', c] else [c]).map f) ++ tail) =
      wellEscaped tail := by
  induction cs with
  | nil => rfl
  | cons c cs ih =>
      rw [List.flatMap_cons, List.map_append, List.append_assoc]
      by_cases hc : c = '\\' ∨ c = '%' ∨ c = '_'
      · rw [if_pos hc, List.map_cons, List.map_cons, List.map_nil, hback]
        show wellEscaped ('\\' :: f c :: _) = _
        rw [wellEscaped]
        exact ih
      · rw [if_neg hc]
        show wellEscaped (f c :: _) = _
        rw [wellEscaped_cons (hf c fun h => hc (Or.inl h))]
        exact ih

theorem wellEscaped_likePattern (term : String) : wellEscaped (likePattern term) = true := by
  unfold likePattern
  by_cases hstar : '*' ∈ term.toList
  · rw [if_pos hstar]
    have h := wellEscaped_flatMap (fun c => if c = '*' then '%' else c) (by decide)
      (fun c hc => by
        by_cases hs : c = '*'
        · rw [if_pos hs]
          decide
        · rw [if_neg hs]
          exact hc) term.toList []
    rw [List.append_nil] at h
    exact h
  · rw [if_neg hstar, wellEscaped_cons (by decide)]
    have h := wellEscaped_flatMap id rfl (fun _ hc => hc) term.toList ['%']
    rw [List.map_id] at h
    exact h

/-! ## One column -/

section Clauses

variable {t : LookupTables} {u : Unicode} {addr : Addresses} {row : FlowRow} {env : Env}

theorem selects_sqlLike (henv : env "f" = row.sqlRow) (db : Database) {c : String}
    {value : Option String} (hc : row.sqlRow c = .ofText value) (term : String) :
    Selects db env (sqlLike c term) (like value term = true) := by
  refine (Selects.like ((denotes_column henv db c).of_eq hc) (Denotes.param _)).of_iff ?_
  cases value with
  | none => simp [Value.ofText, Value.like3, like]
  | some s =>
      simp only [Value.ofText, Value.like3, Value.asText, Option.getD_some, String.toList_ofList,
        like, Option.some.injEq]
      rw [likeMatch_eq_fullmatch _ (wellEscaped_likePattern term)]

theorem selects_inTexts_ofText {db : Database} {tm : TermPiece} {value : Option String}
    (h : Denotes db env tm (.ofText value)) (values : List String) :
    Selects db env (inTexts tm values) (oneOf value values = true) := by
  refine (selects_inTexts h values).of_iff ?_
  cases value with
  | none => simp [Value.ofText, oneOf]
  | some s => simp [Value.ofText, oneOf]

/-- `NOT COALESCE(.. IN .., 0)` is decided: a missing value is in no list. -/
theorem decides_sqlIn_negated {db : Database} {tm : TermPiece} {value : Option String}
    (h : Denotes db env tm (.ofText value)) (values : List String) :
    Decides db env (sqlIn tm values true) (!oneOf value values) :=
  ((selects_inTexts_ofText h values).coalesceZero.not).of_eq (by simp)

theorem denotes_lower (henv : env "f" = row.sqlRow) (db : Database) {c : String}
    {value : Option String} (hc : row.sqlRow c = .ofText value) :
    Denotes db env (column c).lower (.ofText (value.map asciiLower)) := by
  refine ((denotes_column henv db c).of_eq hc).lower.of_eq ?_
  cases value <;> rfl

theorem oneOf_map_asciiLower (value : Option String) (values : List String) :
    oneOf (value.map asciiLower) (values.map asciiLower) = inCi value values := by
  cases value <;> rfl

/-! ## Accounts -/

/-- An account as the clause folds it: ASCII letters of a domain account. -/
def asciiUserKey (name : String) : String := if qualified name then asciiLower name else name

/-- `userOneOf` with the account folded as the clause does. -/
def userListed (u : Unicode) (value : Option String) (values : List String) : Bool :=
  oneOf (value.map asciiUserKey) (values.map u.userKey)

theorem qualified_iff (name : String) :
    qualified name = true ↔ '\\' ∈ name.toList ∨ '@' ∈ name.toList := by
  simp [qualified]

/-- `instr(<column>, '<c>') > 0`: the column is a text with the character. -/
theorem selects_instr {db : Database} {tm : TermPiece} {value : Option String}
    (h : Denotes db env tm (.ofText value)) {s : String} {c : Char} (hs : s.toList = [c]) :
    Selects db env (.gt (tm.instr (.lit (.text s))) (.lit (.int 0)))
      (∃ name, value = some name ∧ c ∈ name.toList) := by
  refine (Selects.gt (h.instr (Denotes.lit _)) (Denotes.lit _)).of_iff ?_
  cases value with
  | none => simp [Value.ofText, Value.instr, Value.le3]
  | some name =>
      have hpos := instrChars_singleton_pos c name.toList
      simp only [Value.ofText, Value.instr, Value.asText, Option.getD_some, hs, Value.le3,
        Option.some.injEq, decide_eq_false_iff_not, exists_eq_left']
      rw [← hpos]
      omega

theorem denotes_sqlUser (henv : env "f" = row.sqlRow) (db : Database) {c : String}
    {value : Option String} (hc : row.sqlRow c = .ofText value) :
    Denotes db env (sqlUser c) (.ofText (value.map asciiUserKey)) := by
  classical
  have hcol := (denotes_column henv db c).of_eq hc
  have hlower := denotes_lower henv db hc
  have hwhen := (selects_instr hcol (s := "\\") (c := '\\') rfl).or
    (selects_instr hcol (s := "@") (c := '@') rfl)
  refine (Denotes.caseWhen hwhen hlower hcol).of_eq ?_
  cases value with
  | none => simp [Value.ofText]
  | some name =>
      have hq : ((∃ n, some name = some n ∧ '\\' ∈ n.toList) ∨
          ∃ n, some name = some n ∧ '@' ∈ n.toList) ↔ qualified name = true := by
        simp [qualified_iff]
      by_cases h : qualified name = true
      · rw [if_pos (hq.2 h), Option.map_some, Option.map_some, asciiUserKey, if_pos h]
      · rw [if_neg fun hn => h (hq.1 hn), Option.map_some, asciiUserKey, if_neg h]

theorem Unicode.qualified_asciiLower (u : Unicode) (name : String) :
    qualified (asciiLower name) = qualified name := by
  rw [← u.qualified_lower (asciiLower name), u.lower_asciiLower, u.qualified_lower]

/-- Folding ASCII letters first changes no account key. -/
theorem Unicode.userKey_asciiUserKey (u : Unicode) (name : String) :
    u.userKey (asciiUserKey name) = u.userKey name := by
  unfold asciiUserKey Unicode.userKey
  by_cases h : qualified name = true
  · rw [if_pos h, u.qualified_asciiLower, if_pos h, if_pos h, u.lower_asciiLower]
  · rw [if_neg h]

theorem Unicode.userKey_userKey (u : Unicode) (name : String) :
    u.userKey (u.userKey name) = u.userKey name := by
  by_cases h : qualified name = true
  · have hkey : u.userKey name = u.lower name := if_pos h
    rw [hkey, Unicode.userKey, u.qualified_lower, if_pos h, u.lower_lower]
  · have hkey : u.userKey name = name := if_neg h
    rw [hkey, hkey]

/-- The clause keeps no account that the record test refuses. -/
theorem userOneOf_of_userListed {u : Unicode} {value : Option String} {values : List String}
    (h : userListed u value values = true) : userOneOf u value values = true := by
  cases value with
  | none => simp [userListed, oneOf] at h
  | some name =>
      have hmem : asciiUserKey name ∈ values.map u.userKey := by simpa [userListed, oneOf] using h
      obtain ⟨v, hv, heq⟩ := List.mem_map.1 hmem
      have hkey : u.userKey name = u.userKey v := by
        rw [← u.userKey_asciiUserKey, ← heq, u.userKey_userKey]
      simpa [userOneOf, hkey] using ⟨v, hv, rfl⟩

/-- An account without letters beyond ASCII is folded alike. -/
theorem userListed_eq_userOneOf {u : Unicode} {value : Option String}
    (h : ∀ name, value = some name → u.lower name = asciiLower name) (values : List String) :
    userListed u value values = userOneOf u value values := by
  cases value with
  | none => rfl
  | some name =>
      have hkey : asciiUserKey name = u.userKey name := by
        unfold asciiUserKey Unicode.userKey
        rw [h name rfl]
      simp [userListed, oneOf, userOneOf, hkey]

theorem decides_sqlSystem (henv : env "f" = row.sqlRow) {value : Option String}
    (hc : row.sqlRow "initiator_user" = .ofText value) :
    Decides (t.database u addr) env
      (.eq (.apply "is_system_account" (column "initiator_user")) (.lit (.int 0)))
      (!u.isSystemAccount value) := by
  have hcol := (denotes_column henv (t.database u addr) "initiator_user").of_eq hc
  refine (Decides.eq (Denotes.apply "is_system_account" hcol) (Denotes.lit _)
    Value.noConfusion (by simp)).of_eq ?_
  show decide (isSystemFn u (.ofText value) = .int 0) = _
  cases value with
  | none => simp [isSystemFn, Value.ofText, Unicode.isSystemAccount]
  | some s => cases hs : u.isSystemAccount (some s) <;> simp [isSystemFn, Value.ofText, hs]

/-! ## Ports and services -/

theorem denotes_portColumn (henv : env "f" = row.sqlRow) (db : Database) (ls : LabelSets) :
    Denotes db env portColumn (.int (portOrNone (row.view ls))) := by
  refine ((denotes_column henv db "port").coalesce (Denotes.lit (.int (-1)))).of_eq ?_
  show (Value.ofInt row.port).coalesce (.int (-1)) = .int (row.port.getD (-1))
  cases row.port <;> rfl

theorem decides_sqlProto (henv : env "f" = row.sqlRow) (db : Database) (ls : LabelSets)
    (proto : Option Int) : ∃ bs, List.Forall₂ (Decides db env) (sqlProto proto) bs ∧
      bs.all id = protoHolds proto (row.view ls) := by
  have hproto : Denotes db env (column "proto") (.int row.proto) := denotes_column henv db "proto"
  cases proto with
  | none => exact ⟨[], .nil, rfl⟩
  | some n =>
      refine ⟨_, .cons (Decides.eq hproto (Denotes.param _) (by simp) (by simp)) .nil, ?_⟩
      simp [protoHolds, FlowRow.view]

theorem decides_sqlPortRange (henv : env "f" = row.sqlRow) (db : Database) (ls : LabelSets)
    {port toPort : Option Int} (hrange : toPort.isSome → port.isSome) :
    ∃ bs, List.Forall₂ (Decides db env) (sqlPortRange port toPort) bs ∧
      bs.all id = portRangeHolds port toPort (row.view ls) := by
  have hport := denotes_portColumn henv db ls
  cases toPort with
  | none =>
      cases port with
      | none => exact ⟨[], .nil, rfl⟩
      | some n =>
          refine ⟨_, .cons (Decides.eq hport (Denotes.param _) (by simp) (by simp)) .nil, ?_⟩
          simp [portRangeHolds]
  | some hi =>
      cases port with
      | none => simp at hrange
      | some lo =>
          refine ⟨_, .cons (Decides.between hport (Denotes.param (.int lo))
            (Denotes.param (.int hi))) .nil, ?_⟩
          simp [portRangeHolds]

theorem decides_sqlPort (henv : env "f" = row.sqlRow) (db : Database) (ls : LabelSets)
    (p : PortProto) : Decides db env (sqlPort p) (portMatches p (row.view ls)) := by
  have hrange : p.toPort.isSome → p.port.isSome := by
    have hshape := p.shape
    unfold portShape at hshape
    intro hto
    cases hp : p.port with
    | none =>
        obtain ⟨hi, hhi⟩ := Option.isSome_iff_exists.1 hto
        simp [hhi, hp] at hshape
    | some _ => rfl
  obtain ⟨bs, hbs, hall⟩ := decides_sqlProto henv db ls p.proto
  obtain ⟨cs, hcs, hall'⟩ := decides_sqlPortRange henv db ls hrange
  refine (Decides.all (Decides.append hbs hcs)).of_eq ?_
  rw [List.all_append, hall, hall']
  rfl

theorem ofInt_eq_null (o : Option Int) : Value.ofInt o = .null ↔ o = none := by
  cases o <;> simp [Value.ofInt]

variable (t u addr) in
theorem decides_sqlServices (henv : env "f" = row.sqlRow) (hrefs : List String) :
    Decides (t.database u addr) env (sqlServices hrefs)
      (hrefs.any fun h => serviceMatches (t.lookups.services h) (row.view t.labelSets)) := by
  classical
  have hf : ∀ r : Row, env.bind "s" r "f" = row.sqlRow :=
    fun r => (bind_of_ne env (by decide) r).trans henv
  have hw := fun r => ((selects_inTexts
      (denotes_scan (t.database u addr) env "s" "href" r) hrefs).and
    ((Decides.isNull (denotes_scan _ _ "s" "proto" r)).selects.or
      (Selects.eq (denotes_scan _ _ "s" "proto" r) (denotes_column (hf r) _ "proto")))).and
    ((Decides.isNull (denotes_scan _ _ "s" "port" r)).selects.or
      (Selects.between (denotes_portColumn (hf r) _ t.labelSets) (denotes_scan _ _ "s" "port" r)
        ((denotes_scan _ _ "s" "to_port" r).coalesce (denotes_scan _ _ "s" "port" r))))
  refine (Decides.existsRow (Yields.select "pce_service_ports" "s"
    (fun r => Denotes.lit (.int 1)) hw)).of_eq ?_
  have hentry : ∀ e : PortEntry, (((Value.ofInt e.proto = .null ∨
      Value.ofInt e.proto ≠ .null ∧ Value.ofInt e.proto = .int row.proto) ∧
      (Value.ofInt e.port = .null ∨
        (Value.ofInt e.port).le3 (.int (portOrNone (row.view t.labelSets))) = some true ∧
        (Value.int (portOrNone (row.view t.labelSets))).le3
          ((Value.ofInt e.toPort).coalesce (Value.ofInt e.port)) = some true)) ↔
      entryMatches (row.view t.labelSets) e = true) := by
    rintro ⟨port, toPort, proto⟩
    have hp : protoHolds proto (row.view t.labelSets) = true ↔ (Value.ofInt proto = .null ∨
        Value.ofInt proto ≠ .null ∧ Value.ofInt proto = .int row.proto) := by
      cases proto with
      | none => simp [protoHolds, Value.ofInt]
      | some n => simp [protoHolds, Value.ofInt, FlowRow.view, eq_comm]
    rw [entryMatches, Bool.and_eq_true, hp]
    refine and_congr Iff.rfl ?_
    cases port with
    | none => simp [Value.ofInt]
    | some lo => cases toPort <;> simp [Value.ofInt, Value.le3, Value.coalesce]
  rw [isEmpty_map_filter, Bool.eq_iff_iff, List.any_eq_true, List.any_eq_true]
  simp only [decide_eq_true_eq]
  constructor
  · rintro ⟨r, hr, ⟨⟨h, hh, hhref⟩, hproto⟩, hport⟩
    obtain ⟨s, hs, rfl⟩ := List.mem_map.1 hr
    refine ⟨h, hh, List.any_eq_true.2 ⟨s.2, List.mem_map_of_mem (List.mem_filter.2 ⟨hs, ?_⟩),
      (hentry s.2).1 ⟨hproto, hport⟩⟩⟩
    simpa [servicePortRow] using hhref
  · rintro ⟨h, hh, hmatch⟩
    obtain ⟨e, he, hmatch⟩ := List.any_eq_true.1 hmatch
    obtain ⟨s, hs, rfl⟩ := List.mem_map.1 he
    obtain ⟨hs, hhref⟩ := List.mem_filter.1 hs
    obtain ⟨hproto, hport⟩ := (hentry s.2).2 hmatch
    refine ⟨servicePortRow s, List.mem_map_of_mem hs, ⟨⟨h, hh, ?_⟩, hproto⟩, hport⟩
    simpa [servicePortRow] using hhref

variable (t u addr) in
/-- The clause of a port set is decided. -/
theorem decides_portSet (henv : env "f" = row.sqlRow) (ports : List PortProto)
    (services : List String) :
    Decides (t.database u addr) env
      (.any (ports.map sqlPort ++ if services ≠ [] then [sqlServices services] else []))
      (serviceSet t.lookups ports services (row.view t.labelSets)) := by
  have hports := Decides.map fun p (_ : p ∈ ports) =>
    decides_sqlPort henv (t.database u addr) t.labelSets p
  have hservices := Decides.when (c := services ≠ []) (decides_sqlServices t u addr henv services)
  refine (Decides.any (Decides.append hports hservices)).of_eq ?_
  rw [List.any_append, List.any_map, serviceSet]
  cases services <;> simp

/-! ## The whole clause -/

/-- The clause of an endpoint condition selects what its test passes. -/
theorem clauses_sqlEndpoint {db : Database} {env : Env} (ep : Option EndpointFilter)
    (negate : Bool) {clause : EndpointFilter → Piece} {met : EndpointFilter → Bool}
    (h : ∀ ep, ep.isEmpty = false → Decides db env (clause ep) (met ep)) :
    Clauses db env (sqlEndpoint ep negate clause) (endpointPasses ep negate met = true) := by
  cases ep with
  | none => exact .nil rfl
  | some ep =>
      cases hempty : ep.isEmpty with
      | true =>
          have hnil : sqlEndpoint (some ep) negate clause = [] := by simp [sqlEndpoint, hempty]
          rw [hnil]
          exact .nil (by simp [endpointPasses, hempty])
      | false =>
          have hpass : endpointPasses (some ep) negate met = (met ep != negate) := by
            simp [endpointPasses, hempty]
          rw [hpass]
          cases negate with
          | false =>
              have hone : sqlEndpoint (some ep) false clause = [clause ep] := by
                simp [sqlEndpoint, hempty]
              rw [hone]
              exact Clauses.single ((h ep hempty).selects.of_iff (by simp))
          | true =>
              have hone : sqlEndpoint (some ep) true clause = [(clause ep).not] := by
                simp [sqlEndpoint, hempty]
              rw [hone]
              exact Clauses.single ((h ep hempty).not.selects.of_iff (by simp))

variable (t u addr) in
theorem clauses_portSet (henv : env "f" = row.sqlRow) (ports : List PortProto)
    (services : List String) :
    Clauses (t.database u addr) env (sqlPortSet ports services false)
      ((ports.isEmpty && services.isEmpty ||
        serviceSet t.lookups ports services (row.view t.labelSets)) = true) := by
  have hset := decides_portSet t u addr henv ports services
  unfold sqlPortSet
  by_cases hnil : (ports.map sqlPort ++ if services ≠ [] then [sqlServices services] else []) = []
  · rw [if_pos hnil]
    refine .nil ?_
    have hports : ports = [] := by simpa using (List.append_eq_nil_iff.1 hnil).1
    have hservices : services = [] := by
      have h := (List.append_eq_nil_iff.1 hnil).2
      by_contra hne
      rw [if_pos hne] at h
      simp at h
    simp [hports, hservices]
  · rw [if_neg hnil]
    refine Clauses.single (hset.selects.of_iff ?_)
    have hempty : (ports.isEmpty && services.isEmpty) = false := by
      rw [← Bool.not_eq_true]
      intro h
      simp only [Bool.and_eq_true, List.isEmpty_iff] at h
      exact hnil (by simp [h.1, h.2])
    rw [hempty, Bool.false_or]

variable (t u addr) in
theorem clauses_portSet_negated (henv : env "f" = row.sqlRow) (ports : List PortProto)
    (services : List String) :
    Clauses (t.database u addr) env (sqlPortSet ports services true)
      ((!serviceSet t.lookups ports services (row.view t.labelSets)) = true) := by
  have hset := decides_portSet t u addr henv ports services
  unfold sqlPortSet
  by_cases hnil : (ports.map sqlPort ++ if services ≠ [] then [sqlServices services] else []) = []
  · rw [if_pos hnil]
    rw [hnil] at hset
    refine .nil ?_
    have heval := hset.eval_eq []
    have hfalse : (Piece.any []).1.eval (t.database u addr) env ((Piece.any []).2 ++ []) =
        some false := rfl
    rw [hfalse, Option.some.injEq] at heval
    rw [← heval]
    rfl
  · rw [if_neg hnil]
    exact Clauses.single hset.not.selects

/-- A clause that is written only for a set that is not empty. -/
theorem clauses_set {db : Database} {env : Env} {α : Type} (xs : List α) {p : Piece} {b : Bool}
    (h : xs ≠ [] → Selects db env p (b = true)) :
    Clauses db env (if xs ≠ [] then [p] else []) ((xs.isEmpty || b) = true) := by
  refine (Clauses.when fun hne => Clauses.single (h hne)).of_iff ?_
  cases xs <;> simp

/-- A negated clause that is written only for a set that is not empty. -/
theorem clauses_set_negated {db : Database} {env : Env} {α : Type} (xs : List α) {p : Piece}
    {b : Bool} (h : Selects db env p ((!b) = true)) (hnil : xs = [] → b = false) :
    Clauses db env (if xs ≠ [] then [p] else []) ((!b) = true) := by
  refine (Clauses.when fun _ => Clauses.single h).of_iff ?_
  by_cases hxs : xs = []
  · simp [hxs, hnil hxs]
  · simp [hxs]

theorem clauses_sqlColumn (henv : env "f" = row.sqlRow) (db : Database) {c : String}
    {value : Option String} (hc : row.sqlRow c = .ofText value) (term : Option String)
    {expr : TermPiece} {shown : Option String} (hexpr : Denotes db env expr (.ofText shown))
    {values exact : List String} (hempty : values.isEmpty = exact.isEmpty) :
    Clauses db env (sqlColumn c term expr exact)
      (((decide (term.getD "" = "") || like value (term.getD "")) &&
        (values.isEmpty || oneOf shown exact)) = true) := by
  unfold sqlColumn
  refine Clauses.and ?_ ?_
  · refine (Clauses.when fun _ => Clauses.single (selects_sqlLike henv db hc _)).of_iff ?_
    by_cases h : term.getD "" = "" <;> simp [h]
  · rw [hempty]
    exact clauses_set exact fun _ => selects_inTexts_ofText hexpr exact

/-- The primary rows that the window overlaps. -/
theorem clauses_window (henv : env "f" = row.sqlRow) (db : Database) (ls : LabelSets)
    (spec : FilterSpec) :
    Clauses db env
      [.eq (column "is_primary") (.lit (.int 1)),
        .ge (column "last_detected") (.param (.int (dbTime spec.start))),
        .le (column "first_detected") (.param (.int (dbTime spec.stop)))]
      (((row.view ls).isPrimary && !(decide ((row.view ls).lastDetected < spec.start) ||
        decide (spec.stop < (row.view ls).firstDetected))) = true) := by
  have hprimary : Denotes db env (column "is_primary") (.int (if row.isPrimary then 1 else 0)) :=
    denotes_column henv db "is_primary"
  have hlast : Denotes db env (column "last_detected") (.int row.lastDetected) :=
    denotes_column henv db "last_detected"
  have hfirst : Denotes db env (column "first_detected") (.int row.firstDetected) :=
    denotes_column henv db "first_detected"
  have hone := Decides.eq hprimary (Denotes.lit (.int 1)) (by simp) (by simp)
  have hge := Decides.ge hlast (Denotes.param (.int (dbTime spec.start)))
  have hle := Decides.le hfirst (Denotes.param (.int (dbTime spec.stop)))
  have hall := (Clauses.single hone.selects).append
    ((Clauses.single hge.selects).append (Clauses.single hle.selects))
  refine hall.of_iff ?_
  rw [dbTime_of_dvd spec.start_ms, dbTime_of_dvd spec.stop_ms]
  show _ ↔ (row.isPrimary && !(decide (row.lastDetected < spec.start) ||
    decide (spec.stop < row.firstDetected))) = true
  cases row.isPrimary <;> simp

/-- A named process at either end leaves the row out. -/
theorem clauses_excludeProcesses (henv : env "f" = row.sqlRow) (db : Database) (ls : LabelSets)
    (values : List String) :
    Clauses db env
      (if values ≠ [] then
        [sqlIn (column "initiator_process") values true,
          sqlIn (column "service_process") values true] else [])
      ((!(oneOf (row.view ls).initiatorProcess values ||
        oneOf (row.view ls).serviceProcess values)) = true) := by
  have hip : Denotes db env (column "initiator_process") (.ofText (row.view ls).initiatorProcess) :=
    denotes_column henv db "initiator_process"
  have hsp : Denotes db env (column "service_process") (.ofText (row.view ls).serviceProcess) :=
    denotes_column henv db "service_process"
  have hinitiator := decides_sqlIn_negated hip values
  have hservice := decides_sqlIn_negated hsp values
  refine (Clauses.when fun _ => (Clauses.single hinitiator.selects).append
    (Clauses.single hservice.selects)).of_iff ?_
  by_cases h : values = []
  · have hnone : ∀ value, oneOf value [] = false := by
      intro value
      cases value <;> simp [oneOf]
    simp [h, hnone]
  · simp [h]

/-- The text columns, one of which matches the term. -/
theorem clauses_text (henv : env "f" = row.sqlRow) (db : Database) (ls : LabelSets)
    (text : Option String) :
    Clauses db env
      (if text.getD "" ≠ "" then
        [Piece.any (textColumns.map fun c => sqlLike c (text.getD ""))] else [])
      ((decide (text.getD "" = "") ||
        (row.view ls).texts.any fun v => like v (text.getD "")) = true) := by
  have hcolumns : ∀ p ∈ textColumns.zip (row.view ls).texts, row.sqlRow p.1 = .ofText p.2 := by
    intro p hp
    simp only [textColumns, FlowView.texts, List.zip_cons_cons, List.zip_nil_right,
      List.mem_cons, List.not_mem_nil, or_false] at hp
    rcases hp with rfl | rfl | rfl | rfl | rfl | rfl | rfl | rfl <;> rfl
  have hmap : textColumns = (textColumns.zip (row.view ls).texts).map Prod.fst := rfl
  have htexts : (row.view ls).texts = (textColumns.zip (row.view ls).texts).map Prod.snd := rfl
  have hany := Selects.any (fun p : String × Option String => sqlLike p.1 (text.getD ""))
    (fun p => like p.2 (text.getD "") = true) fun p hp =>
      selects_sqlLike henv db (hcolumns p hp) (text.getD "")
  rw [hmap, List.map_map]
  refine (Clauses.when fun _ => Clauses.single hany).of_iff ?_
  rw [Bool.or_eq_true, decide_eq_true_eq, htexts, List.any_map, List.any_eq_true]
  by_cases h : text.getD "" = ""
  · simp [h]
  · simp only [ne_eq, h, not_false_eq_true, forall_const, false_or, Function.comp]
    rw [← htexts]

end Clauses

/-! ## The verdicts -/

section Verdicts

variable (u : Unicode) (addr : Addresses) (look : Lookups)

/-- The conditions that the clause and the record test read alike. -/
def FilterSpec.commonHolds (spec : FilterSpec) (v : FlowView) : Bool :=
  v.isPrimary &&
  !(decide (v.lastDetected < spec.start) || decide (spec.stop < v.firstDetected)) &&
  (spec.ports.isEmpty && spec.services.isEmpty || serviceSet look spec.ports spec.services v) &&
  !serviceSet look spec.excludePorts spec.excludeServices v &&
  (spec.windowsServices.isEmpty || inCi v.windowsService spec.windowsServices) &&
  !inCi v.windowsService spec.excludeWindowsServices &&
  (spec.transmissions.isEmpty ||
    inCi v.transmission (spec.transmissions.map Transmission.value)) &&
  !inCi v.transmission (spec.excludeTransmissions.map Transmission.value) &&
  !(oneOf v.initiatorProcess spec.excludeProcesses ||
    oneOf v.serviceProcess spec.excludeProcesses) &&
  (spec.decisions.isEmpty || decide (v.policyDecision ∈ spec.decisions.map PolicyDecision.value)) &&
  columnPasses v.initiatorProcess spec.initiatorProcess spec.initiatorProcesses oneOf &&
  (decide (spec.initiatorUser.getD "" = "") ||
    like v.initiatorUser (spec.initiatorUser.getD "")) &&
  columnPasses v.serviceProcess spec.serviceProcess spec.serviceProcesses oneOf &&
  (decide (spec.serviceUser.getD "" = "") || like v.serviceUser (spec.serviceUser.getD "")) &&
  (decide (spec.text.getD "" = "") || v.texts.any fun t => like t (spec.text.getD "")) &&
  !(spec.excludeSystemAccounts && u.isSystemAccount v.initiatorUser)

/-- The included endpoints and accounts, under one test of an end and one of an account. -/
def FilterSpec.includesHold (side : EndpointFilter → Side → Bool)
    (isOneOf : Option String → List String → Bool) (spec : FilterSpec) (v : FlowView) : Bool :=
  endpointPasses spec.src false (fun ep => side ep .src) &&
  endpointPasses spec.dst false (fun ep => side ep .dst) &&
  endpointPasses spec.either false (fun ep => side ep .src || side ep .dst) &&
  (spec.initiatorUsers.isEmpty || isOneOf v.initiatorUser spec.initiatorUsers) &&
  (spec.serviceUsers.isEmpty || isOneOf v.serviceUser spec.serviceUsers)

/-- An excluded endpoint is met, under one test of an end. -/
def FilterSpec.excludesMet (side : EndpointFilter → Side → Bool) (spec : FilterSpec) : Bool :=
  !(endpointPasses spec.srcExclude true (fun ep => side ep .src) &&
    endpointPasses spec.dstExclude true (fun ep => side ep .dst) &&
    endpointPasses spec.eitherExclude true (fun ep => side ep .src || side ep .dst))

/-- The record test, sorted into its three groups. -/
theorem FilterSpec.matches_eq (spec : FilterSpec) (v : FlowView) :
    spec.matches u addr look v =
      (spec.commonHolds u look v &&
        spec.includesHold (fun ep side => sideMatches addr look ep v side) (userOneOf u) v &&
        !spec.excludesMet (fun ep side => sideMatches addr look ep v side)) := by
  simp only [FilterSpec.matches, FilterSpec.commonHolds, FilterSpec.includesHold,
    FilterSpec.excludesMet, columnPasses, Bool.not_not]
  ac_rfl

/-- The clause selects a row when the common conditions hold and the listed reading
includes it and does not exclude it. -/
theorem FilterSpec.sqlSelects_eq (t : LookupTables) (spec : FilterSpec) (row : FlowRow) :
    spec.sqlSelects u t addr row =
      (spec.commonHolds u t.lookups (row.view t.labelSets) &&
        spec.includesHold (fun ep side => sideListed addr t.lookups ep (row.view t.labelSets) side)
          (userListed u) (row.view t.labelSets) &&
        !spec.excludesMet
          (fun ep side => sideListed addr t.lookups ep (row.view t.labelSets) side)) := by
  have henv : row.scope "f" = row.sqlRow := bind_self _ _ _
  obtain ⟨v, hv⟩ : ∃ v, v = row.view t.labelSets := ⟨_, rfl⟩
  have hfirst := hv ▸ clauses_window henv (t.database u addr) t.labelSets spec
  have hside : ∀ side ep, EndpointFilter.isEmpty ep = false →
      Decides (t.database u addr) row.scope (sqlSide ep side)
        (sideListed addr t.lookups ep v side) :=
    fun side ep hne => hv ▸ decides_sqlSide henv ep hne side
  have heither : ∀ ep, EndpointFilter.isEmpty ep = false →
      Decides (t.database u addr) row.scope (sqlEither ep)
        (sideListed addr t.lookups ep v .src || sideListed addr t.lookups ep v .dst) :=
    fun ep hne => (hside .src ep hne).or (hside .dst ep hne)
  have hwindows : Denotes (t.database u addr) row.scope (column "windows_service").lower
      (.ofText (v.windowsService.map asciiLower)) := denotes_lower henv _ (by rw [hv]; rfl)
  have htransmission : Denotes (t.database u addr) row.scope (column "transmission").lower
      (.ofText (v.transmission.map asciiLower)) := denotes_lower henv _ (by rw [hv]; rfl)
  have hvalues : ∀ ts : List Transmission,
      (ts.map Transmission.value).map asciiLower = ts.map Transmission.value := by
    intro ts
    rw [List.map_map]
    exact List.map_congr_left fun t _ => Transmission.asciiLower_value t
  have hin : ∀ ts : List Transmission, oneOf (v.transmission.map asciiLower)
      (ts.map Transmission.value) = inCi v.transmission (ts.map Transmission.value) := by
    intro ts
    rw [← oneOf_map_asciiLower, hvalues]
  have hin_nil : ∀ value, inCi value [] = false := by
    intro value
    cases value <;> simp [inCi]
  have hwindowsIn := (selects_inTexts_ofText hwindows
    (spec.windowsServices.map asciiLower)).of_iff (by rw [oneOf_map_asciiLower])
  have hwindowsOut := (decides_sqlIn_negated hwindows
    (spec.excludeWindowsServices.map asciiLower)).selects.of_iff (by rw [oneOf_map_asciiLower])
  have htransmissionIn := (selects_inTexts_ofText htransmission
    (spec.transmissions.map Transmission.value)).of_iff (by rw [hin])
  have htransmissionOut := (decides_sqlIn_negated htransmission
    (spec.excludeTransmissions.map Transmission.value)).selects.of_iff (by rw [hin])
  have hpolicy : Denotes (t.database u addr) row.scope (column "policy_decision")
      (.text v.policyDecision) := hv ▸ denotes_column henv _ "policy_decision"
  have hdecision := (decides_inTexts hpolicy (spec.decisions.map PolicyDecision.value)).selects
  have hip : row.sqlRow "initiator_process" = .ofText v.initiatorProcess := by
    rw [hv]
    rfl
  have hiu : row.sqlRow "initiator_user" = .ofText v.initiatorUser := by
    rw [hv]
    rfl
  have hsp : row.sqlRow "service_process" = .ofText v.serviceProcess := by
    rw [hv]
    rfl
  have hsu : row.sqlRow "service_user" = .ofText v.serviceUser := by
    rw [hv]
    rfl
  have hempty : ∀ xs : List String, xs.isEmpty = (xs.map u.userKey).isEmpty := by
    intro xs
    cases xs <;> rfl
  have hcolumn : ∀ (c : String) (value : Option String) (term : Option String)
      (values : List String), row.sqlRow c = .ofText value →
      Clauses (t.database u addr) row.scope (sqlColumn c term (column c) values)
        (columnPasses value term values oneOf = true) :=
    fun c value term values hc =>
      clauses_sqlColumn henv _ hc term ((denotes_column henv _ c).of_eq hc) rfl
  have huser : ∀ (c : String) (value : Option String) (term : Option String)
      (values : List String), row.sqlRow c = .ofText value →
      Clauses (t.database u addr) row.scope (sqlColumn c term (sqlUser c) (values.map u.userKey))
        (columnPasses value term values (userListed u) = true) :=
    fun c value term values hc =>
      clauses_sqlColumn henv _ hc term (denotes_sqlUser henv _ hc) (hempty values)
  have hsystem : Clauses (t.database u addr) row.scope
      (if spec.excludeSystemAccounts then
        [.eq (.apply "is_system_account" (column "initiator_user")) (.lit (.int 0))] else [])
      ((!(spec.excludeSystemAccounts &&
        u.isSystemAccount v.initiatorUser)) = true) := by
    refine (Clauses.when fun _ => Clauses.single (decides_sqlSystem henv hiu).selects).of_iff ?_
    cases spec.excludeSystemAccounts <;> simp
  have hportsIn := hv ▸ clauses_portSet t u addr henv spec.ports spec.services
  have hportsOut := hv ▸ clauses_portSet_negated t u addr henv spec.excludePorts
    spec.excludeServices
  have hprocesses := hv ▸ clauses_excludeProcesses henv (t.database u addr) t.labelSets
    spec.excludeProcesses
  have htext := hv ▸ clauses_text henv (t.database u addr) t.labelSets spec.text
  have hends := (((((hfirst.and (clauses_sqlEndpoint spec.src false (hside .src))).and
    (clauses_sqlEndpoint spec.dst false (hside .dst))).and
    (clauses_sqlEndpoint spec.srcExclude true (hside .src))).and
    (clauses_sqlEndpoint spec.dstExclude true (hside .dst))).and
    (clauses_sqlEndpoint spec.either false heither)).and
    (clauses_sqlEndpoint spec.eitherExclude true heither)
  have hsets := (((((((hends.and hportsIn).and hportsOut).and
    (clauses_set spec.windowsServices fun _ => hwindowsIn)).and
    (clauses_set_negated spec.excludeWindowsServices hwindowsOut fun h => by rw [h, hin_nil])).and
    (clauses_set spec.transmissions fun _ => htransmissionIn)).and
    (clauses_set_negated spec.excludeTransmissions htransmissionOut
      fun h => by rw [h, List.map_nil, hin_nil])).and
    hprocesses).and
    (clauses_set spec.decisions fun _ => hdecision)
  have hall := (((((hsets.and
    (hcolumn "initiator_process" _ spec.initiatorProcess spec.initiatorProcesses hip)).and
    (huser "initiator_user" _ spec.initiatorUser spec.initiatorUsers hiu)).and
    (hcolumn "service_process" _ spec.serviceProcess spec.serviceProcesses hsp)).and
    (huser "service_user" _ spec.serviceUser spec.serviceUsers hsu)).and
    htext).and hsystem
  have hselects := (Clauses.selects_all hall).eval_iff []
  rw [List.append_nil] at hselects
  unfold FilterSpec.sqlSelects
  rw [← hv, Bool.eq_iff_iff, decide_eq_true_eq]
  refine hselects.trans (Eq.to_iff (congrArg (· = true) ?_))
  simp only [FilterSpec.commonHolds, FilterSpec.includesHold, FilterSpec.excludesMet, columnPasses,
    Bool.not_not]
  ac_rfl

/-! ## Where the two readings part -/

theorem endpointPasses_mono {ep : Option EndpointFilter} {met met' : EndpointFilter → Bool}
    (h : ∀ ep, met ep = true → met' ep = true) (hpass : endpointPasses ep false met = true) :
    endpointPasses ep false met' = true := by
  cases ep with
  | none => rfl
  | some ep =>
      have hmono := h ep
      cases hempty : ep.isEmpty <;> cases hm : met ep <;> simp_all [endpointPasses]

theorem endpointPasses_anti {ep : Option EndpointFilter} {met met' : EndpointFilter → Bool}
    (h : ∀ ep, met ep = true → met' ep = true) (hpass : endpointPasses ep true met' = true) :
    endpointPasses ep true met = true := by
  cases ep with
  | none => rfl
  | some ep =>
      have hmono := h ep
      cases hempty : ep.isEmpty <;> cases hm : met ep <;> simp_all [endpointPasses]

theorem either_mono {side side' : EndpointFilter → Side → Bool}
    (h : ∀ ep s, side ep s = true → side' ep s = true) (ep : EndpointFilter)
    (hmet : (side ep .src || side ep .dst) = true) : (side' ep .src || side' ep .dst) = true := by
  rw [Bool.or_eq_true] at hmet ⊢
  exact hmet.imp (h ep .src) (h ep .dst)

/-- A test of ends and accounts that accepts more includes more. -/
theorem FilterSpec.includesHold_mono {side side' : EndpointFilter → Side → Bool}
    {isOneOf isOneOf' : Option String → List String → Bool}
    (hside : ∀ ep s, side ep s = true → side' ep s = true)
    (hone : ∀ value values, isOneOf value values = true → isOneOf' value values = true)
    (spec : FilterSpec) (v : FlowView) (h : spec.includesHold side isOneOf v = true) :
    spec.includesHold side' isOneOf' v = true := by
  simp only [FilterSpec.includesHold, Bool.and_eq_true, Bool.or_eq_true] at h ⊢
  obtain ⟨⟨⟨⟨hsrc, hdst⟩, heither⟩, hinitiator⟩, hservice⟩ := h
  refine ⟨⟨⟨⟨endpointPasses_mono (fun ep => hside ep .src) hsrc,
    endpointPasses_mono (fun ep => hside ep .dst) hdst⟩, ?_⟩,
    hinitiator.imp id (hone _ _)⟩, hservice.imp id (hone _ _)⟩
  exact endpointPasses_mono (either_mono hside) heither

/-- A test of ends that accepts more excludes more. -/
theorem FilterSpec.excludesMet_mono {side side' : EndpointFilter → Side → Bool}
    (hside : ∀ ep s, side ep s = true → side' ep s = true) (spec : FilterSpec)
    (h : spec.excludesMet side = true) : spec.excludesMet side' = true := by
  unfold FilterSpec.excludesMet at h ⊢
  rw [Bool.not_eq_true'] at h ⊢
  rw [← Bool.not_eq_true] at h ⊢
  refine fun hpass => h ?_
  simp only [Bool.and_eq_true] at hpass ⊢
  obtain ⟨⟨hsrc, hdst⟩, heither⟩ := hpass
  exact ⟨⟨endpointPasses_anti (fun ep => hside ep .src) hsrc,
    endpointPasses_anti (fun ep => hside ep .dst) hdst⟩,
    endpointPasses_anti (either_mono hside) heither⟩

/-- The conditions read alike hold, and either the record is refused only because an
exclusion joins the values of a key listed in several conditions, or it is accepted only
because an inclusion does, or because an account is folded beyond ASCII. -/
def FilterSpec.readingsPart (spec : FilterSpec) (v : FlowView) : Prop :=
  let keyed := fun ep side => sideMatches addr look ep v side
  let listed := fun ep side => sideListed addr look ep v side
  spec.commonHolds u look v = true ∧
    ((spec.includesHold listed (userListed u) v = true ∧
        spec.excludesMet listed = false ∧ spec.excludesMet keyed = true) ∨
      (spec.includesHold keyed (userOneOf u) v = true ∧
        spec.excludesMet keyed = false ∧ spec.includesHold listed (userListed u) v = false))

/-- Two verdicts, the second including and excluding more, agree except in two cases. -/
theorem verdicts_eq_iff {c il ik xl xk : Bool} (hi : il = true → ik = true)
    (hx : xl = true → xk = true) :
    (c && il && !xl) = (c && ik && !xk) ↔
      ¬ (c = true ∧ ((il = true ∧ xl = false ∧ xk = true) ∨
        (ik = true ∧ xk = false ∧ il = false))) := by
  cases c <;> cases il <;> cases ik <;> cases xl <;> cases xk <;> simp_all

/-- The clause and the record test agree exactly when the readings do not part. -/
theorem FilterSpec.sqlSelects_eq_matches_iff (t : LookupTables) (spec : FilterSpec)
    (row : FlowRow) :
    spec.sqlSelects u t addr row =
        spec.matches u addr t.lookups (row.view t.labelSets) ↔
      ¬ spec.readingsPart u addr t.lookups (row.view t.labelSets) := by
  rw [FilterSpec.sqlSelects_eq, FilterSpec.matches_eq]
  have hside : ∀ ep side, sideListed addr t.lookups ep (row.view t.labelSets) side = true →
      sideMatches addr t.lookups ep (row.view t.labelSets) side = true :=
    fun ep side => sideMatches_of_sideListed
  exact verdicts_eq_iff
    (FilterSpec.includesHold_mono hside (fun _ _ => userOneOf_of_userListed) spec _)
    (FilterSpec.excludesMet_mono hside spec)

theorem endpointPasses_congr {ep : Option EndpointFilter} {negate : Bool}
    {met met' : EndpointFilter → Bool} (h : ∀ e, some e = ep → met e = met' e) :
    endpointPasses ep negate met = endpointPasses ep negate met' := by
  cases ep with
  | none => rfl
  | some e => simp only [endpointPasses, h e rfl]

/-- Every end's label keys are listed once, or joined with label groups. -/
def EndpointFilter.keysOnce (ep : EndpointFilter) : Prop :=
  ep.labelGroups = [] → (ep.labels.map LabelCond.key).Nodup

/-- With one condition per key and accounts in ASCII the two always agree. -/
theorem FilterSpec.sqlSelects_eq_matches_of_keysOnce (t : LookupTables) (spec : FilterSpec)
    (row : FlowRow) (hkeys : ∀ ep, some ep ∈ [spec.src, spec.dst, spec.srcExclude,
      spec.dstExclude, spec.either, spec.eitherExclude] → ep.keysOnce)
    (husers : ∀ name, some name ∈ [row.initiatorUser, row.serviceUser] →
      u.lower name.1 = asciiLower name.1) :
    spec.sqlSelects u t addr row = spec.matches u addr t.lookups (row.view t.labelSets) := by
  have hside : ∀ ep, some ep ∈ [spec.src, spec.dst, spec.srcExclude, spec.dstExclude,
      spec.either, spec.eitherExclude] → ∀ side,
      sideListed addr t.lookups ep (row.view t.labelSets) side =
        sideMatches addr t.lookups ep (row.view t.labelSets) side := by
    intro ep hep side
    unfold sideListed sideMatches
    rw [labelsListed_eq_labelsHold (hkeys ep hep)]
  have huser : ∀ o : Option Name, o ∈ [row.initiatorUser, row.serviceUser] → ∀ values,
      userListed u (o.map Subtype.val) values = userOneOf u (o.map Subtype.val) values := by
    intro o ho values
    refine userListed_eq_userOneOf (fun name hname => ?_) values
    obtain ⟨n, rfl, rfl⟩ := Option.map_eq_some_iff.1 hname
    exact husers n ho
  have hone : ∀ ep, ep ∈ [spec.src, spec.dst, spec.srcExclude, spec.dstExclude, spec.either,
      spec.eitherExclude] → ∀ negate side,
      endpointPasses ep negate
          (fun e => sideListed addr t.lookups e (row.view t.labelSets) side) =
        endpointPasses ep negate
          (fun e => sideMatches addr t.lookups e (row.view t.labelSets) side) :=
    fun ep hep negate side => endpointPasses_congr fun e he => hside e (he ▸ hep) side
  have heither : ∀ ep, ep ∈ [spec.src, spec.dst, spec.srcExclude, spec.dstExclude, spec.either,
      spec.eitherExclude] → ∀ negate,
      endpointPasses ep negate
          (fun e => sideListed addr t.lookups e (row.view t.labelSets) .src ||
            sideListed addr t.lookups e (row.view t.labelSets) .dst) =
        endpointPasses ep negate
          (fun e => sideMatches addr t.lookups e (row.view t.labelSets) .src ||
            sideMatches addr t.lookups e (row.view t.labelSets) .dst) := by
    intro ep hep negate
    refine endpointPasses_congr fun e he => ?_
    rw [hside e (he ▸ hep), hside e (he ▸ hep)]
  have hiu := huser row.initiatorUser (by simp) spec.initiatorUsers
  have hsu := huser row.serviceUser (by simp) spec.serviceUsers
  rw [FilterSpec.sqlSelects_eq, FilterSpec.matches_eq]
  unfold FilterSpec.includesHold FilterSpec.excludesMet
  rw [hone spec.src (by simp), hone spec.dst (by simp), hone spec.srcExclude (by simp),
    hone spec.dstExclude (by simp), heither spec.either (by simp),
    heither spec.eitherExclude (by simp)]
  show (_ && (_ && (_ || userListed u (row.initiatorUser.map Subtype.val) _) &&
    (_ || userListed u (row.serviceUser.map Subtype.val) _)) && _) = _
  rw [hiu, hsu]
  rfl

end Verdicts

/-! ## A row that the record test accepts and the clause leaves out -/

/-- `env=prod or env=test`, the key listed in two conditions. -/
def prodOrTest : FilterSpec where
  src := some { labels := [⟨"env", ["prod"], by decide, by decide⟩,
                           ⟨"env", ["test"], by decide, by decide⟩] }
  start := 0
  stop := seconds 60
  start_ms := by decide
  stop_ms := by decide
  window := by decide

/-- One label set, `env=prod`. -/
def prodTables : LookupTables where
  labelSets := (LabelSets.empty.labelSetId [("env", "prod")]).2
  ipListNets := []
  labelGroups := []
  labelGroupMembers := []
  servicePorts := []
  groups_unique := by decide
  members_key := by decide

/-- A flow from a host labelled `env=prod`. -/
def prodFlow : FlowRow where
  id := 1
  recordKey := "r"
  connKey := "r"
  isPrimary := true
  direction := .outbound
  srcIp := "10.0.0.1"
  dstIp := "10.0.0.2"
  srcKey := "ip:10.0.0.1"
  dstKey := "ip:10.0.0.2"
  srcHref := none
  dstHref := none
  srcHostname := none
  dstHostname := none
  srcManaged := false
  dstManaged := false
  srcMode := none
  dstMode := none
  srcLabelSet := some 1
  dstLabelSet := none
  port := some 443
  proto := 6
  initiatorProcess := none
  initiatorUser := none
  serviceProcess := none
  serviceUser := none
  windowsService := none
  policyDecision := "allowed"
  firstDetected := seconds 10
  lastDetected := seconds 20
  numConnections := 1
  bytesIn := none
  bytesOut := none
  ownBytesIn := none
  ownBytesOut := none
  state := none
  transmission := none
  networkHref := none
  origin := .ingest
  ingestedAt := 0
  countedConnections := some 0
  countedBytes := some 0

/-- The two do not agree on every filter, row and content of the tables. -/
theorem FilterSpec.sqlSelects_ne_matches :
    ¬ ∀ (u : Unicode) (addr : Addresses) (t : LookupTables) (spec : FilterSpec) (row : FlowRow),
      spec.sqlSelects u t addr row = spec.matches u addr t.lookups (row.view t.labelSets) := by
  intro h
  have hsplit := h .ascii noAddresses prodTables prodOrTest prodFlow
  revert hsplit
  decide

end IllumioOps
