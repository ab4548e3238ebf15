import IllumioOps.Migrate.Validated

/-!
# When a rule is converted

Which rules of 5.x `convert_rule` takes without an exception (`Convertible`): the numbers a rule holds
can be read and lie where this version wants them, its patterns compile or fail with `re.error`, and its
names fit. The labels, addresses and workloads of a rule never matter: what is kept of them passes its
check (`side_check`). `convertRule_endsIn_iff` says that these are the rules and no others.
-/

set_option autoImplicit false

namespace IllumioOps.Migrate

open Programs

section Condition

variable (py : Python)

/-! ## The condition -/

/-- A key of `PACK_KEYS` can be asked for. -/
def hashable : Json → Bool
  | .arr _ => false
  | .obj _ => false
  | _ => true

/-- What every kind of rule reads: a cooldown from nothing to seven days (the window where none is
given), and a throttle of at most 1000 alerts. -/
structure BaseFits (rule : Json) : Prop where
  cooldown : EndsIn (windowOf py rule) fun w => EndsIn (cooldownOf py rule w) fun n =>
    0 ≤ n ∧ n ≤ 10080
  throttle : EndsIn (throttle py (throttleValue rule)) fun t => ∀ c ∈ t.1, c.1 ≤ 1000

/-- An event rule: a window of at least a minute, a count that can be read, and patterns that compile
or are wrong. -/
structure EventFits (rule : Json) : Prop where
  window : EndsIn (windowOf py rule) fun w => 1 ≤ w
  count : EndsIn (eventCount py rule) fun _ => True
  types : EndsIn (checkTypes py (eventTypesOf py rule)) fun _ => True
  status : EndsIn (checkPattern py (stripText (orAll (textOr py (rule.get "filter_status")))))
    fun _ => True
  severity : EndsIn (checkPattern py (stripText (orAll (textOr py (rule.get "filter_severity")))))
    fun _ => True
  fields : EndsIn (checkMatchFields py (matchFieldsOf py rule)) fun _ => True

/-- A threshold that a kind of flow rules takes. -/
def FlowKind.Takes : FlowKind → PyFloat → Prop
  | .traffic, x => ∃ r, x = .num r
  | _, x => x ≠ .nan

/-- What a port of a rule is converted to is one. -/
def PortsFit (proto : Option Int) (found : List (String × Json)) : Prop :=
  ∀ t ∈ found, EndsIn (port py t.2 proto) fun p => ∀ q ∈ p, q.check = true

/-- A flow rule: a threshold and a decision that can be read, ports and protocols in their ranges, and
names that fit. -/
structure FlowFits (kind : FlowKind) (rule : Json) : Prop where
  threshold : EndsIn (thresholdNum py rule) kind.Takes
  decision : EndsIn (decision py rule) fun _ => True
  ports : EndsIn (ruleProto py (rule.get "proto")) fun proto =>
    PortsFit py proto (tokens rule ["port", "ports"]) ∧
      -- a protocol stands alone where there is no port
      ((∀ t ∈ tokens rule ["port", "ports"], port py t.2 proto = .ok none) →
        ∀ n ∈ proto, 0 ≤ n ∧ n ≤ 255)
  exPorts : PortsFit py none (tokens rule ["ex_port", "ex_ports"])
  services : ∀ name ∈ names py rule "windows_service_name", name.toList.length ≤ 255
  exServices : ∀ name ∈ names py rule "ex_windows_service_name", name.toList.length ≤ 255
  exProcesses : ∀ name ∈ names py rule "ex_process_name", name.toList.length ≤ 255 ∧
    (normalizeProcess py (stripText name)).isSome = true

/-- What the body of a rule of a kind needs. -/
def RuleKind.Fits : RuleKind → Json → Prop
  | .event, rule => EventFits py rule
  | .flow kind, rule => FlowFits py kind rule
  | .system, _ => True

/-- A rule that is converted, or reported as one that is not. -/
structure Convertible (rule : Json) : Prop where
  hashable : hashable (rule.get "name_key") = true
  fits : ∀ kind ∈ kindOf py rule, BaseFits py rule ∧ kind.Fits py rule

end Condition

variable {py : Python} {rule : Json}

/-! ## Thresholds -/

theorem positive_lowest : ∃ x, PyFloat.ofRat (1 / 1000) = .num x ∧ 0 < x :=
  ⟨1152921504606847 / 1152921504606846976, by decide +kernel, by norm_num⟩

theorem positive_atLeast {x : PyFloat} :
    (x.atLeast (.ofRat (1 / 1000))).positive = true ↔ x ≠ .nan := by
  obtain ⟨low, hlow, hpos⟩ := positive_lowest
  rw [hlow]
  cases x with
  | nan => simp [PyFloat.atLeast, PyFloat.positive]
  | inf negative => cases negative <;> simp [PyFloat.atLeast, PyFloat.positive, hpos]
  | num x =>
      simp only [PyFloat.atLeast]
      split_ifs with h
      · simp [PyFloat.positive, hpos]
      · simp [PyFloat.positive, hpos.trans_le (not_lt.mp h)]

theorem toInt_endsIn {x : PyFloat} : (EndsIn x.toInt fun _ => True) ↔ ∃ r, x = .num r := by
  cases x <;> simp [PyFloat.toInt]

theorem flowThreshold_endsIn {kind : FlowKind} {x : PyFloat} :
    (EndsIn (flowThreshold kind x) fun t => t.check = true) ↔ kind.Takes x := by
  cases kind with
  | traffic =>
      have hcheck : ∀ n, (RawThreshold.traffic (max 1 n)).check = true := fun n =>
        decide_eq_true (le_max_left 1 n)
      simp only [flowThreshold, endsIn_bind, endsIn_pure, hcheck, toInt_endsIn, FlowKind.Takes]
  | bandwidth => simp only [flowThreshold, endsIn_pure, RawThreshold.check, positive_atLeast,
      FlowKind.Takes, ne_eq]
  | volume => simp only [flowThreshold, endsIn_pure, RawThreshold.check, positive_atLeast,
      FlowKind.Takes, ne_eq]

/-! ## Ports -/

theorem ports_endsIn {proto : Option Int} {p : RawPort → Prop} (found : List (String × Json)) :
    (EndsIn (ports py proto found) fun out => ∀ q ∈ out.1, p q) ↔
      ∀ t ∈ found, EndsIn (port py t.2 proto) fun o => ∀ q ∈ o, p q := by
  induction found with
  | nil => simp [ports]
  | cons t found ih =>
      rw [List.forall_mem_cons, ← ih]
      simp only [ports, endsIn_bind, endsIn_pure]
      constructor
      · rintro ⟨o, ho, out, hout, hall⟩
        cases o with
        | none => exact ⟨⟨none, ho, by simp⟩, out, hout, hall⟩
        | some q =>
            rw [List.forall_mem_cons] at hall
            exact ⟨⟨some q, ho, by simpa using hall.1⟩, out, hout, hall.2⟩
      · rintro ⟨⟨o, ho, hq⟩, out, hout, hall⟩
        refine ⟨o, ho, out, hout, ?_⟩
        cases o with
        | none => exact hall
        | some q => exact List.forall_mem_cons.mpr ⟨hq q rfl, hall⟩

theorem ports_eq_nil {proto : Option Int} {found : List (String × Json)} {out : List RawPort × Lost}
    (h : ports py proto found = .ok out) :
    out.1 = [] ↔ ∀ t ∈ found, port py t.2 proto = .ok none := by
  induction found generalizing out with
  | nil =>
      cases h
      simp
  | cons t found ih =>
      obtain ⟨o, ho, h⟩ := bind_eq_ok.mp h
      obtain ⟨more, hmore, h⟩ := bind_eq_ok.mp h
      cases h
      rw [List.forall_mem_cons, ho]
      cases o with
      | none => simpa using ih hmore
      | some q => simp

/-- The ports of a condition pass their check. -/
theorem ports_with_proto {proto : Option Int} {found : List (String × Json)} :
    (EndsIn (ports py proto found) fun out =>
      (if out.1 = [] ∧ proto.isSome then [⟨none, none, proto⟩] else out.1).all RawPort.check = true) ↔
    PortsFit py proto found ∧
      ((∀ t ∈ found, port py t.2 proto = .ok none) → ∀ n ∈ proto, 0 ≤ n ∧ n ≤ 255) := by
  rw [show PortsFit py proto found ↔ _ from (ports_endsIn found).symm, ← endsIn_and_const]
  refine endsIn_congr fun out hout => ?_
  rw [← ports_eq_nil hout]
  by_cases hnil : out.1 = []
  · cases proto with
    | none => simp [hnil]
    | some n => simp [hnil, RawPort.check]
  · rw [if_neg (fun h => hnil h.1), List.all_eq_true]
    exact ⟨fun hall => ⟨hall, fun h => absurd h hnil⟩, fun h => h.1⟩

/-! ## Conditions -/

theorem nameFits_of_mem_names {key name : String} (h : name ∈ names py rule key) :
    nameFits name = true ↔ name.toList.length ≤ 255 := by
  have hne : name ≠ "" := by
    have hmem := List.mem_filter.mp h
    simpa using hmem.2
  have hpos : 1 ≤ name.toList.length := by
    rw [Nat.one_le_iff_ne_zero, Ne, List.length_eq_zero_iff, String.toList_eq_nil_iff]
    exact hne
  simp only [nameFits, decide_eq_true_eq, hpos, true_and]

theorem all_nameFits {key : String} : (names py rule key).all nameFits = true ↔
    ∀ name ∈ names py rule key, name.toList.length ≤ 255 := by
  rw [List.all_eq_true]
  exact forall₂_congr fun name hname => nameFits_of_mem_names hname

/-- Whether what a rule is converted to is a condition, when it is converted. -/
theorem condition_endsIn : (EndsIn (condition py rule) fun out => out.1.check py = true) ↔
    (EndsIn (decision py rule) fun _ => True) ∧
      (EndsIn (ruleProto py (rule.get "proto")) fun proto =>
        PortsFit py proto (tokens rule ["port", "ports"]) ∧
          ((∀ t ∈ tokens rule ["port", "ports"], port py t.2 proto = .ok none) →
            ∀ n ∈ proto, 0 ≤ n ∧ n ≤ 255)) ∧
      PortsFit py none (tokens rule ["ex_port", "ex_ports"]) ∧
      (∀ name ∈ names py rule "windows_service_name", name.toList.length ≤ 255) ∧
      (∀ name ∈ names py rule "ex_windows_service_name", name.toList.length ≤ 255) ∧
      ∀ name ∈ names py rule "ex_process_name", name.toList.length ≤ 255 ∧
        (normalizeProcess py (stripText name)).isSome = true := by
  have hside : ∀ keys, (side py rule keys).all RawSide.check = true := fun keys => by
    cases h : side py rule keys with
    | none => rfl
    | some s => exact side_check h
  have hprocesses : ((names py rule "ex_process_name").all fun name =>
      nameFits name && (normalizeProcess py (stripText name)).isSome) = true ↔
      ∀ name ∈ names py rule "ex_process_name", name.toList.length ≤ 255 ∧
        (normalizeProcess py (stripText name)).isSome = true := by
    rw [List.all_eq_true]
    refine forall₂_congr fun name hname => ?_
    rw [Bool.and_eq_true, nameFits_of_mem_names hname]
  simp only [condition, endsIn_bind, endsIn_pure, RawCondition.check, RawCondition.sides,
    List.all_cons, List.all_nil, hside, Bool.and_true, Bool.and_eq_true, all_nameFits,
    hprocesses]
  constructor
  · rintro ⟨pd, hpd, proto, hproto, found, hfound, excluded, hexcluded, hall⟩
    obtain ⟨⟨⟨⟨⟨-, hports⟩, hex⟩, hservices⟩, hexservices⟩, hexprocesses⟩ := hall
    exact ⟨⟨pd, hpd, trivial⟩, ⟨proto, hproto, ports_with_proto.mp ⟨found, hfound, hports⟩⟩,
      (ports_endsIn _).mp ⟨excluded, hexcluded, List.all_eq_true.mp hex⟩, hservices, hexservices,
      hexprocesses⟩
  · rintro ⟨⟨pd, hpd, -⟩, ⟨proto, hproto, hports⟩, hex, hservices, hexservices, hexprocesses⟩
    obtain ⟨found, hfound, hports⟩ := ports_with_proto.mpr hports
    obtain ⟨excluded, hexcluded, hex⟩ := (ports_endsIn _).mpr hex
    exact ⟨pd, hpd, proto, hproto, found, hfound, excluded, hexcluded,
      ⟨⟨⟨⟨by simp, hports⟩, List.all_eq_true.mpr hex⟩, hservices⟩, hexservices⟩, hexprocesses⟩

/-! ## Bodies -/

theorem flowBody_endsIn {kind : FlowKind} {b : RawBase} :
    (EndsIn (flowBody py rule kind b) fun out =>
      (EndsIn (out.1.patternErrors py) fun _ => True) ∧ bodyErrors py out.1 = []) ↔
      FlowFits py kind rule := by
  have hbody : ∀ c t, bodyErrors py (.flow c t (min (max b.window minFlowWindow) 1440)) = [] ↔
      c.check py = true ∧ t.check = true := by
    intro c t
    have hwindow : 10 ≤ min (max b.window minFlowWindow) 1440 ∧
        min (max b.window minFlowWindow) 1440 ≤ 1440 :=
      ⟨le_min (le_max_right _ _) (by decide), min_le_right _ _⟩
    simp [bodyErrors, hwindow]
  simp only [flowBody, endsIn_bind, endsIn_pure, hbody, RawBody.patternErrors, endsIn_ok, true_and]
  constructor
  · rintro ⟨x, hx, out, hout, t, ht, hcond, htake⟩
    obtain ⟨hdecision, hports, hex, hservices, hexservices, hexprocesses⟩ :=
      condition_endsIn.mp ⟨out, hout, hcond⟩
    exact ⟨⟨x, hx, flowThreshold_endsIn.mp ⟨t, ht, htake⟩⟩, hdecision, hports, hex, hservices,
      hexservices, hexprocesses⟩
  · rintro ⟨⟨x, hx, htakes⟩, hdecision, hports, hex, hservices, hexservices, hexprocesses⟩
    obtain ⟨out, hout, hcond⟩ := condition_endsIn.mpr
      ⟨hdecision, hports, hex, hservices, hexservices, hexprocesses⟩
    obtain ⟨t, ht, htake⟩ := flowThreshold_endsIn.mpr htakes
    exact ⟨x, hx, out, hout, t, ht, hcond, htake⟩

theorem patternErrors_endsIn {e : RawEvent} : (EndsIn (patternErrors py e) fun _ => True) ↔
    (EndsIn (checkTypes py e.eventTypes) fun _ => True) ∧
      (EndsIn (checkPattern py (stripText e.status)) fun _ => True) ∧
      (EndsIn (checkPattern py (stripText e.eventSeverity)) fun _ => True) ∧
      EndsIn (checkMatchFields py e.matchFields) fun _ => True := by
  simp only [patternErrors, endsIn_bind, endsIn_pure]
  constructor
  · rintro ⟨types, htypes, status, hstatus, severity, hseverity, hfields⟩
    exact ⟨⟨types, htypes, trivial⟩, ⟨status, hstatus, trivial⟩, ⟨severity, hseverity, trivial⟩,
      hfields⟩
  · rintro ⟨⟨types, htypes, -⟩, ⟨status, hstatus, -⟩, ⟨severity, hseverity, -⟩, hfields⟩
    exact ⟨types, htypes, status, hstatus, severity, hseverity, hfields⟩

theorem one_le_of_eventCount {n : Int} (h : eventCount py rule = .ok n) : 1 ≤ n := by
  obtain ⟨m, -, h⟩ := bind_eq_ok.mp h
  cases h
  exact le_max_left 1 m

theorem eventBody_endsIn {b : RawBase} (hwindow : windowOf py rule = .ok b.window) :
    (EndsIn (eventBody py rule b) fun out =>
      (EndsIn (out.1.patternErrors py) fun _ => True) ∧ bodyErrors py out.1 = []) ↔
      EventFits py rule := by
  have hbody : ∀ e : RawEvent, e.windowMinutes = min b.window 1440 → 1 ≤ e.thresholdCount →
      (bodyErrors py (.event e) = [] ↔ 1 ≤ b.window) := by
    intro e he hcount
    simp [bodyErrors, he, hcount]
  simp only [eventBody, endsIn_bind, endsIn_pure, RawBody.patternErrors, patternErrors_endsIn]
  constructor
  · rintro ⟨n, hn, ⟨htypes, hstatus, hseverity, hfields⟩, hrest⟩
    exact ⟨⟨_, hwindow, (hbody _ rfl (one_le_of_eventCount hn)).mp hrest⟩, ⟨n, hn, trivial⟩, htypes,
      hstatus, hseverity, hfields⟩
  · rintro ⟨⟨w, hw, hone⟩, ⟨n, hn, -⟩, htypes, hstatus, hseverity, hfields⟩
    obtain rfl := Except.ok.inj (hwindow.symm.trans hw)
    exact ⟨n, hn, ⟨htypes, hstatus, hseverity, hfields⟩,
      (hbody _ rfl (one_le_of_eventCount hn)).mpr hone⟩

theorem bodyOf_endsIn {kind : RuleKind} {b : RawBase} (hwindow : windowOf py rule = .ok b.window) :
    (EndsIn (bodyOf py kind rule b) fun out =>
      (EndsIn (out.1.patternErrors py) fun _ => True) ∧ bodyErrors py out.1 = []) ↔
      kind.Fits py rule := by
  cases kind with
  | event => exact eventBody_endsIn hwindow
  | flow kind => exact flowBody_endsIn
  | system => simp [bodyOf, RawBody.patternErrors, bodyErrors, RuleKind.Fits]

/-! ## Rules -/

theorem packKeyOf_endsIn : (EndsIn (packKeyOf rule) fun _ => True) ↔
    hashable (rule.get "name_key") = true := by
  unfold packKeyOf
  cases rule.get "name_key" <;> simp [hashable]

theorem mem_pack_of_packKeyOf {key : String} (h : packKeyOf rule = .ok (some key)) :
    key ∈ pack.map PackRule.key := by
  unfold packKeyOf at h
  cases hv : rule.get "name_key" <;> rw [hv] at h <;> simp only [reduceCtorEq, Except.ok.injEq] at h
  case str s =>
    split at h
    · rename_i hmem
      cases h
      exact hmem
    · cases h

theorem base_endsIn {p : RawBase → Prop} : EndsIn (base py rule) p ↔
    EndsIn (windowOf py rule) fun w => EndsIn (throttle py (throttleValue rule)) fun t =>
      EndsIn (cooldownOf py rule w) fun c => p ⟨w, c, t.1,
        (if t.2 then [("throttle", .throttleCapped)] else []) ++
          if (throttleValue rule).truthy && t.1.isNone then [("throttle", .badValue)] else []⟩ := by
  simp only [base, endsIn_bind, endsIn_pure]

theorem length_kindRule (kind : RuleKind) : (kind.text ++ " rule").toList.length ≤ 120 := by
  cases kind with
  | event => decide
  | flow kind => cases kind <;> decide
  | system => decide

theorem length_nameOf {packKey : Option String} {kind : RuleKind} :
    (nameOf py rule packKey kind.text).toList.length ≤ 120 := by
  have hshown : ∀ name : String, name.toList.length ≤ 120 →
      (if name = "" ∧ packKey.isNone then kind.text ++ " rule" else name).toList.length ≤ 120 := by
    intro name hname
    split
    · exact length_kindRule kind
    · exact hname
  refine hshown _ ?_
  split
  · exact Nat.zero_le _
  · rw [String.toList_ofList, List.length_take]
    exact Nat.min_le_left _ _

section Assembled

variable {kind : RuleKind} {id : String} {packKey : Option String} {b : RawBase} {body : RawBody}
  {lost : Lost}

@[simp] theorem assemble_id : (assemble py kind rule id packKey b body lost).id = id := rfl

@[simp] theorem assemble_cooldownMinutes :
    (assemble py kind rule id packKey b body lost).cooldownMinutes = b.cooldown := rfl

@[simp] theorem assemble_throttle :
    (assemble py kind rule id packKey b body lost).throttle = b.throttle := rfl

@[simp] theorem assemble_body : (assemble py kind rule id packKey b body lost).body = body := rfl

theorem baseErrors_assemble (hid : isId id = true) :
    baseErrors (assemble py kind rule id packKey b body lost) = [] ↔
      (0 ≤ b.cooldown ∧ b.cooldown ≤ 10080) ∧
        ∀ c ∈ b.throttle, (1 ≤ c.1 ∧ c.1 ≤ 1000) ∧ 1 ≤ c.2 ∧ c.2 ≤ 10080 := by
  have hname : (assemble py kind rule id packKey b body lost).name.toList.length ≤ 120 :=
    length_nameOf
  unfold baseErrors
  rw [assemble_id, assemble_cooldownMinutes, assemble_throttle, if_pos hid, if_pos hname]
  cases b.throttle with
  | none => simp
  | some c => simp

theorem name_or_packKey (hpack : ∀ key ∈ packKey, key ≠ "") :
    ((assemble py kind rule id packKey b body lost).name = "" &&
      (assemble py kind rule id packKey b body lost).packKey.getD "" = "") = false := by
  have hkind : kind.text ++ " rule" ≠ "" := by
    cases kind with
    | event => decide
    | flow kind => cases kind <;> decide
    | system => decide
  have hnamed : ∀ shown : Option String, (∀ key ∈ shown, key ≠ "") →
      ¬ (nameOf py rule shown kind.text = "" ∧ shown.getD "" = "") := by
    rintro shown hshown ⟨hname, hkey⟩
    cases shown with
    | some key => exact hshown key rfl hkey
    | none =>
        unfold nameOf at hname
        simp only [Option.isSome_none, Bool.false_eq_true, if_false, Option.isNone_none,
          and_true] at hname
        split at hname
        · exact hkind hname
        · rename_i hne
          exact hne hname
  have h := hnamed (if kind = .system then none else packKey) (fun key hkey => by
    split at hkey
    · cases hkey
    · exact hpack key hkey)
  rw [Bool.and_eq_false_iff]
  rcases not_and_or.mp h with hname | hkey
  · exact Or.inl (decide_eq_false hname)
  · exact Or.inr (decide_eq_false hkey)

theorem modelError_assemble {out : RawBody × Lost} (hbody : bodyOf py kind rule b = .ok out)
    (hpack : ∀ key ∈ packKey, key ≠ "") :
    modelError (assemble py kind rule id packKey b out.1 lost) = false := by
  unfold modelError
  rw [name_or_packKey hpack, Bool.false_or, assemble_body]
  cases kind with
  | event =>
      obtain ⟨n, -, h⟩ := bind_eq_ok.mp hbody
      cases h
      rfl
  | flow kind => cases out.1 <;> rfl
  | system => cases out.1 <;> rfl

end Assembled

/-- The identifiers of the rules of the pack and the new ones are identifiers. -/
theorem isId_ruleId {packRuleId : String → String} {newId : String} {packKey : Option String}
    {used : List String} (hpack : ∀ key, isId (packRuleId key) = true) (hnew : isId newId = true) :
    isId (ruleId py packRuleId newId rule packKey used) = true := by
  unfold ruleId
  simp only
  split
  · rename_i id hid
    obtain ⟨key, -, rfl⟩ := Option.map_eq_some_iff.mp hid
    split
    · exact hpack key
    · split
      · rename_i h
        exact h.1
      · exact hnew
  · split
    · rename_i h
      exact h.1
    · exact hnew

theorem ne_empty_of_mem_pack {key : String} (h : key ∈ pack.map PackRule.key) : key ≠ "" := by
  rintro rfl
  exact absurd h (by decide)

/-- `convert_rule` ends for the rules that are convertible, and for no others. -/
theorem convertRule_endsIn {packRuleId : String → String} {newId : String} {used : List String}
    (hpack : ∀ key, isId (packRuleId key) = true) (hnew : isId newId = true) :
    (EndsIn (convertRule py packRuleId newId rule used) fun _ => True) ↔ Convertible py rule := by
  have hconvertible : Convertible py rule ↔ hashable (rule.get "name_key") = true ∧
      ∀ kind ∈ kindOf py rule, BaseFits py rule ∧ kind.Fits py rule :=
    ⟨fun h => ⟨h.hashable, h.fits⟩, fun h => ⟨h.1, h.2⟩⟩
  rw [hconvertible, ← packKeyOf_endsIn, ← endsIn_and_const]
  unfold convertRule
  rw [endsIn_bind]
  refine endsIn_congr fun packKey hpackKey => ?_
  rw [true_and]
  cases hkind : kindOf py rule with
  | none => simp
  | some kind =>
      have hkey : ∀ key ∈ packKey, key ≠ "" := by
        rintro key rfl
        exact ne_empty_of_mem_pack (mem_pack_of_packKeyOf hpackKey)
      simp only [endsIn_bind, endsIn_pure, base_endsIn]
      simp only [Option.mem_def, Option.some.injEq, forall_eq']
      constructor
      · rintro ⟨w, hw, t, ht, c, hc, out, hout, valid⟩
        obtain ⟨hpatterns, hbase, hbody⟩ :=
          (validated_endsIn (modelError_assemble hout hkey)).mp valid
        rw [baseErrors_assemble (isId_ruleId hpack hnew)] at hbase
        exact ⟨⟨⟨w, hw, c, hc, hbase.1⟩, ⟨t, ht, fun d hd => (hbase.2 d hd).1.2⟩⟩,
          (bodyOf_endsIn (b := ⟨w, c, t.1, _⟩) hw).mp ⟨out, hout, hpatterns, hbody⟩⟩
      · rintro ⟨⟨⟨w, hw, c, hc, hcooldown⟩, t, ht, hthrottle⟩, hfits⟩
        obtain ⟨out, hout, hpatterns, hbody⟩ := (bodyOf_endsIn (b := ⟨w, c, t.1, _⟩) hw).mpr hfits
        refine ⟨w, hw, t, ht, c, hc, out, hout,
          (validated_endsIn (modelError_assemble hout hkey)).mpr ⟨hpatterns, ?_, hbody⟩⟩
        rw [baseErrors_assemble (isId_ruleId hpack hnew)]
        refine ⟨hcooldown, fun d hd => ?_⟩
        obtain ⟨hcount, hperiod⟩ := of_throttle ht d hd
        exact ⟨⟨hcount, hthrottle d hd⟩, hperiod⟩

end IllumioOps.Migrate
