import IllumioOps.Migrate.Convertible

/-!
# All rules are accounted for

What a migration owes (`Migrated`): each rule is converted or reported as none, each key of a converted
rule is kept or reported, a flow rule without a condition that narrowed it is disabled, and every rule of
the section passes the validation. A migration that ends owes nothing more (`migrated_of_ends`), but it
does not always end: one rule that is no object, or that is not convertible, stops it for all the others,
and so do more rules than one section holds (`migrateAlerts_iff`).
-/

set_option autoImplicit false

namespace IllumioOps.Migrate

open Programs

section Statement

variable (py : Python)

/-- A part of the condition of a rule that this version cannot hold: a filter it does not support, a
label that is not read as one, an address that is none. -/
def NarrowingLost (rule : Json) : Prop :=
  (∃ k ∈ unsupportedFilterKeys, asList (rule.get k) ≠ []) ∨
    ∃ keys ∈ sideKeys, (∃ t ∈ tokens rule keys.labels, label py t.2 = none) ∨
      ∃ t ∈ tokens rule keys.ips, ips py t.2 = none

/-- A rule that was converted, with what became of its keys. -/
structure Carried (label : String) (rule : Json) (c : Conversion) (items : List MigrationItem) :
    Prop where
  keys : ∀ k ∈ keysOf rule, k ∈ ruleMeta ∨ k ∈ c.kept ∨
    ∃ item ∈ items, item.source = label ++ " · " ++ k
  narrowed : ∀ kind, c.kind = .flow kind → NarrowingLost py rule → c.rule.enabled = false

variable (packRuleId : String → String) (newId : Nat → String)

/-- The `i`-th rule is reported as one that is not converted, or it was converted. -/
def Accounted (file : RuleFile) (i : Nat) (rule : Json) (out : List SectionRule)
    (items : List MigrationItem) : Prop :=
  (kindOf py rule = none ∧
    ⟨itemLabel py file i rule, none, .unsupported, .typeUnsupported⟩ ∈ items) ∨
  ∃ used c, convertRule py packRuleId (newId i) rule used = .ok (some c) ∧
    .converted c.rule ∈ out ∧ Carried py (itemLabel py file i rule) rule c items

/-- What a migration owes to the rules it was given. -/
structure Migrated (file : RuleFile) (rules : List Json) (out : List SectionRule)
    (items : List MigrationItem) : Prop where
  accounted : ∀ i, ∀ rule ∈ rules[i]?, Accounted py packRuleId newId file i rule out items
  valid : ∀ r ∈ out, r.check py = .ok true

/-- The identifiers that the rules take, each of them unless its kind is not converted. -/
def takenIds : Nat → List Json → List String → List String
  | _, [], used => used
  | i, rule :: rules, used =>
      takenIds (i + 1) rules (match kindOf py rule, packKeyOf rule with
        | some _, .ok packKey => used ++ [ruleId py packRuleId (newId i) rule packKey used]
        | _, _ => used)

/-- The number of rules of the section: those converted, and the default rules that are not among
them. -/
def sectionSize (rules : List Json) : Nat :=
  let taken := takenIds py packRuleId newId 0 rules []
  taken.length + (newDefaults packRuleId taken).length

end Statement

variable {py : Python} {rule : Json}

/-! ## One rule -/

theorem narrowing_mem_lost (h : NarrowingLost py rule) {out : RawCondition × Lost}
    (hout : condition py rule = .ok out) : ∃ l ∈ out.2, l.2 ∈ narrowingLost := by
  obtain ⟨pd, -, hout⟩ := bind_eq_ok.mp hout
  obtain ⟨proto, -, hout⟩ := bind_eq_ok.mp hout
  obtain ⟨found, -, hout⟩ := bind_eq_ok.mp hout
  obtain ⟨excluded, -, hout⟩ := bind_eq_ok.mp hout
  cases hout
  simp only [List.mem_append]
  rcases h with ⟨k, hk, hne⟩ | ⟨keys, hkeys, h⟩
  · refine ⟨(k, .filterUnsupported), Or.inr ?_, by simp [narrowingLost]⟩
    refine List.mem_map_of_mem (List.mem_filter.mpr ⟨hk, ?_⟩)
    simpa using hne
  · have hside : ∃ l ∈ sideLost py rule keys, l.2 ∈ narrowingLost := by
      unfold sideLost
      simp only [List.mem_append, List.mem_map, List.mem_filter]
      rcases h with ⟨t, ht, hnone⟩ | ⟨t, ht, hnone⟩
      · exact ⟨(t.1, .badLabel), Or.inl ⟨t, ⟨ht, by rw [hnone]; rfl⟩, rfl⟩, by simp [narrowingLost]⟩
      · exact ⟨(t.1, .iplistName), Or.inr ⟨t, ⟨ht, by rw [hnone]; rfl⟩, rfl⟩, by simp [narrowingLost]⟩
    obtain ⟨l, hl, hreason⟩ := hside
    have hmem : l ∈ sideKeys.flatMap (sideLost py rule) := List.mem_flatMap.mpr ⟨keys, hkeys, hl⟩
    exact ⟨l, by simp only [hmem, or_true, true_or], hreason⟩

/-- What a conversion is. -/
structure IsConversion (py : Python) (packRuleId : String → String) (newId : String) (rule : Json)
    (used : List String) (c : Conversion) : Prop where
  id : ∃ packKey, packKeyOf rule = .ok packKey ∧
    c.rule.id = ruleId py packRuleId newId rule packKey used
  kind : kindOf py rule = some c.kind
  valid : checkRule py c.rule = .ok []
  keys : ∀ k ∈ keysOf rule, k ∈ ruleMeta ∨ k ∈ c.kept ∨ k ∈ c.lost.map Prod.fst
  narrowed : ∀ kind, c.kind = .flow kind → NarrowingLost py rule → c.rule.enabled = false

theorem key_accounted {kind : RuleKind} {lost : Lost} {k : String} (hk : k ∈ keysOf rule)
    (hunknown : k ∉ kind.handled → k ∉ ruleMeta → k ∈ lost.map Prod.fst) :
    k ∈ ruleMeta ∨
      k ∈ ((keysOf rule).filter fun k => decide (k ∈ kind.handled ∧ k ∉ lost.map Prod.fst)) ∨
      k ∈ lost.map Prod.fst := by
  by_cases hlost : k ∈ lost.map Prod.fst
  · exact Or.inr (Or.inr hlost)
  · by_cases hhandled : k ∈ kind.handled
    · exact Or.inr (Or.inl (List.mem_filter.mpr ⟨hk, decide_eq_true ⟨hhandled, hlost⟩⟩))
    · by_cases hmeta : k ∈ ruleMeta
      · exact Or.inl hmeta
      · exact absurd (hunknown hhandled hmeta) hlost

theorem isConversion_of_convertRule {packRuleId : String → String} {newId : String}
    {used : List String} {c : Conversion}
    (h : convertRule py packRuleId newId rule used = .ok (some c)) :
    IsConversion py packRuleId newId rule used c := by
  obtain ⟨packKey, hpackKey, h⟩ := bind_eq_ok.mp h
  split at h
  · cases h
  · rename_i kind hkind
    obtain ⟨b, hb, h⟩ := bind_eq_ok.mp h
    obtain ⟨⟨body, bodyLost⟩, hbody, h⟩ := bind_eq_ok.mp h
    obtain ⟨⟨converted, invalid⟩, hvalid, h⟩ := bind_eq_ok.mp h
    obtain ⟨hcheck, hid, henabled⟩ := of_validated hvalid
    cases h
    refine ⟨⟨packKey, hpackKey, hid⟩, hkind, hcheck, ?_, ?_⟩
    · refine fun k hk => key_accounted hk fun hhandled hmeta => ?_
      refine List.mem_map.mpr ⟨(k, .unknownKey), List.mem_append_right _ ?_, rfl⟩
      exact List.mem_map_of_mem (List.mem_filter.mpr ⟨hk, decide_eq_true ⟨hhandled, hmeta⟩⟩)
    · rintro flow rfl hlost
      refine henabled ?_
      obtain ⟨x, -, hbody⟩ := bind_eq_ok.mp hbody
      obtain ⟨out, hout, hbody⟩ := bind_eq_ok.mp hbody
      obtain ⟨t, -, hbody⟩ := bind_eq_ok.mp hbody
      cases hbody
      obtain ⟨l, hl, hreason⟩ := narrowing_mem_lost hlost hout
      simp only [assemble, Bool.and_eq_false_iff, Bool.not_eq_false', List.any_append, Bool.or_eq_true,
        List.any_eq_true, decide_eq_true_eq]
      exact Or.inr (Or.inr (Or.inr ⟨l, hl, hreason⟩))

theorem kindOf_of_convertRule {packRuleId : String → String} {newId : String} {used : List String}
    (h : convertRule py packRuleId newId rule used = .ok none) : kindOf py rule = none := by
  obtain ⟨packKey, hpackKey, h⟩ := bind_eq_ok.mp h
  split at h
  · assumption
  · simp only [bind_eq_ok] at h
    obtain ⟨_, _, _, _, _, _, h⟩ := h
    cases h

/-! ## The rules one after the other -/

section Run

variable {all : List Json} (ids : Identifiers py all)

/-- The identifiers used before the `i`-th rule: of the pack, of the rules that are read, or new. -/
def Used (i : Nat) (used : List String) : Prop :=
  used.Nodup ∧ ∀ id ∈ used, (∃ key ∈ pack.map PackRule.key, id = ids.packRuleId key) ∨
    (∃ rule ∈ all, id = textOr py (rule.get "id")) ∨ ∃ j < i, id = ids.newId j

variable {ids}

theorem Used.later {i : Nat} {used : List String} (h : Used ids i used) : Used ids (i + 1) used := by
  refine ⟨h.1, fun id hid => ?_⟩
  rcases h.2 id hid with hpack | hraw | ⟨j, hj, rfl⟩
  · exact Or.inl hpack
  · exact Or.inr (Or.inl hraw)
  · exact Or.inr (Or.inr ⟨j, Nat.lt_succ_of_lt hj, rfl⟩)

/-- A new identifier is not used yet. -/
theorem Used.newId_not_mem {i : Nat} {used : List String} (h : Used ids i used)
    (hi : i < all.length) : ids.newId i ∉ used := by
  intro hmem
  rcases h.2 _ hmem with ⟨key, hkey, heq⟩ | ⟨rule, hrule, heq⟩ | ⟨j, hj, heq⟩
  · obtain ⟨r, hr, rfl⟩ := List.mem_map.mp hkey
    exact ids.newId_ne_pack i hi r hr heq
  · exact ids.newId_ne_raw i hi rule hrule heq
  · exact absurd (ids.newId_injective i hi j (hj.trans hi) heq) (by omega)

/-- An identifier that a rule takes was not used before it. -/
theorem Used.append {i : Nat} {used : List String} (h : Used ids i used) (hi : i < all.length)
    (hrule : rule ∈ all) {packKey : Option String} (hpackKey : packKeyOf rule = .ok packKey) :
    Used ids (i + 1)
      (used ++ [ruleId py ids.packRuleId (ids.newId i) rule packKey used]) := by
  have htaken : ruleId py ids.packRuleId (ids.newId i) rule packKey used ∉ used ∧
      ((∃ key ∈ pack.map PackRule.key,
          ruleId py ids.packRuleId (ids.newId i) rule packKey used = ids.packRuleId key) ∨
        ruleId py ids.packRuleId (ids.newId i) rule packKey used = textOr py (rule.get "id") ∨
        ruleId py ids.packRuleId (ids.newId i) rule packKey used = ids.newId i) := by
    unfold ruleId
    simp only
    split
    · rename_i id hid
      obtain ⟨key, hkey, rfl⟩ := Option.map_eq_some_iff.mp hid
      cases hkey
      split
      · rename_i hnew
        exact ⟨hnew, Or.inl ⟨key, mem_pack_of_packKeyOf hpackKey, rfl⟩⟩
      · split
        · rename_i hraw
          exact ⟨hraw.2, Or.inr (Or.inl rfl)⟩
        · exact ⟨h.newId_not_mem hi, Or.inr (Or.inr rfl)⟩
    · split
      · rename_i hraw
        exact ⟨hraw.2, Or.inr (Or.inl rfl)⟩
      · exact ⟨h.newId_not_mem hi, Or.inr (Or.inr rfl)⟩
  refine ⟨List.nodup_append.mpr ⟨h.1, List.nodup_singleton _, ?_⟩, ?_⟩
  · rintro id hid other hother rfl
    exact htaken.1 (List.mem_singleton.mp hother ▸ hid)
  · intro id hid
    rcases List.mem_append.mp hid with hid | hid
    · exact h.later.2 id hid
    · rw [List.mem_singleton.mp hid]
      rcases htaken.2 with hpack | hraw | hnew
      · exact Or.inl hpack
      · exact Or.inr (Or.inl ⟨rule, hrule, hraw⟩)
      · exact Or.inr (Or.inr ⟨i, Nat.lt_succ_self i, hnew⟩)

variable (ids) in
/-- A migration as it stands before the `i`-th rule. -/
structure Sound (i : Nat) (m : Migration) : Prop where
  used : Used ids i m.used
  same : m.rules.map RawRule.id = m.used
  valid : ∀ r ∈ m.rules, checkRule py r = .ok []

theorem Accounted.mono {file : RuleFile} {i : Nat} {out out' : List SectionRule}
    {items items' : List MigrationItem}
    (h : Accounted py ids.packRuleId ids.newId file i rule out items) (hout : out ⊆ out')
    (hitems : items ⊆ items') :
    Accounted py ids.packRuleId ids.newId file i rule out' items' := by
  rcases h with ⟨hkind, hmem⟩ | ⟨used, c, hconvert, hmem, hcarried⟩
  · exact Or.inl ⟨hkind, hitems hmem⟩
  · refine Or.inr ⟨used, c, hconvert, hout hmem, fun k hk => ?_, hcarried.narrowed⟩
    rcases hcarried.keys k hk with hmeta | hkept | ⟨item, hitem, hsource⟩
    · exact Or.inl hmeta
    · exact Or.inr (Or.inl hkept)
    · exact Or.inr (Or.inr ⟨item, hitems hitem, hsource⟩)

theorem Sound.skip {i : Nat} {m : Migration} (h : Sound ids i m) (label : String) :
    Sound ids (i + 1) (m.skip label) :=
  ⟨h.used.later, h.same, h.valid⟩

theorem Sound.add {i : Nat} {m : Migration} (h : Sound ids i m) (hi : i < all.length)
    (hrule : rule ∈ all) (label : String) {c : Conversion}
    (hc : IsConversion py ids.packRuleId (ids.newId i) rule m.used c) :
    Sound ids (i + 1) (m.add label rule c) := by
  obtain ⟨packKey, hpackKey, hid⟩ := hc.id
  refine ⟨?_, ?_, ?_⟩
  · have happend := h.used.append hi hrule hpackKey
    rwa [← hid] at happend
  · rw [Migration.add, List.map_append, h.same, List.map_singleton]
  · exact List.forall_mem_append.mpr ⟨h.valid, fun r hr => List.mem_singleton.mp hr ▸ hc.valid⟩

/-- The items of a converted rule name the keys it lost. -/
theorem carried_add {m : Migration} {label : String} {newId : String} {used : List String}
    {c : Conversion} (hc : IsConversion py ids.packRuleId newId rule used c) :
    Carried py label rule c (m.add label rule c).items := by
  refine ⟨fun k hk => ?_, hc.narrowed⟩
  rcases hc.keys k hk with hmeta | hkept | hlost
  · exact Or.inl hmeta
  · exact Or.inr (Or.inl hkept)
  · obtain ⟨l, hl, rfl⟩ := List.mem_map.mp hlost
    refine Or.inr (Or.inr ⟨⟨label ++ " · " ++ l.1, some (targetOf c.rule.id), l.2.action, l.2⟩, ?_, rfl⟩)
    refine List.mem_append_right _ (List.mem_append_left _ (List.mem_append_right _ ?_))
    exact List.mem_map_of_mem hl

variable (ids) in
/-- What the rules from the `i`-th on add to a migration. -/
structure Reached (file : RuleFile) (i : Nat) (rules : List Json) (m out : Migration) : Prop where
  sound : Sound ids (i + rules.length) out
  taken : out.used = takenIds py ids.packRuleId ids.newId i rules m.used
  keptRules : m.rules ⊆ out.rules
  keptItems : m.items ⊆ out.items
  accounted : ∀ j, ∀ rule ∈ rules[j]?, Accounted py ids.packRuleId ids.newId file (i + j) rule
    (out.rules.map SectionRule.converted) out.items

theorem Reached.cons {file : RuleFile} {i : Nat} {rules : List Json} {m next out : Migration}
    (h : Reached ids file (i + 1) rules next out)
    (htaken : takenIds py ids.packRuleId ids.newId i (rule :: rules) m.used =
      takenIds py ids.packRuleId ids.newId (i + 1) rules next.used)
    (hrules : m.rules ⊆ next.rules) (hitems : m.items ⊆ next.items)
    (haccounted : Accounted py ids.packRuleId ids.newId file i rule
      (next.rules.map SectionRule.converted) next.items) :
    Reached ids file i (rule :: rules) m out where
  sound := by
    rw [List.length_cons, Nat.add_comm rules.length, ← Nat.add_assoc]
    exact h.sound
  taken := by rw [htaken, h.taken]
  keptRules := List.Subset.trans hrules h.keptRules
  keptItems := List.Subset.trans hitems h.keptItems
  accounted := by
    intro j other hother
    cases j with
    | zero =>
        cases hother
        exact haccounted.mono (List.map_subset _ h.keptRules) h.keptItems
    | succ j =>
        rw [List.getElem?_cons_succ] at hother
        rw [Nat.add_comm j, ← Nat.add_assoc]
        exact h.accounted j other hother

/-- By induction on the rules: what was owed is owed no more once they are through. -/
theorem reached_of_migrateRules {file : RuleFile} {i : Nat} {rules : List Json} {m out : Migration}
    (h : migrateRules py ids.packRuleId ids.newId file i rules m = .ok out)
    (hrules : ∀ rule ∈ rules, rule ∈ all) (hlength : i + rules.length ≤ all.length)
    (hsound : Sound ids i m) : Reached ids file i rules m out := by
  induction rules generalizing i m with
  | nil =>
      cases h
      exact ⟨hsound, rfl, List.Subset.refl _, List.Subset.refl _, fun j rule hrule => by simp at hrule⟩
  | cons rule rules ih =>
      rw [List.forall_mem_cons] at hrules
      rw [List.length_cons] at hlength
      unfold migrateRules at h
      split at h
      · cases h
      · obtain ⟨converted, hconverted, h⟩ := bind_eq_ok.mp h
        cases converted with
        | none =>
            have hkind := kindOf_of_convertRule hconverted
            refine (ih h hrules.2 (by omega) (hsound.skip _)).cons ?_ (List.Subset.refl _)
              (List.subset_append_left _ _) (Or.inl ⟨hkind, ?_⟩)
            · simp only [takenIds, hkind, Migration.skip]
            · exact List.mem_append_right _ List.mem_cons_self
        | some c =>
            have hc := isConversion_of_convertRule hconverted
            refine (ih h hrules.2 (by omega) (hsound.add (by omega) hrules.1 _ hc)).cons ?_
              (List.subset_append_left _ _) (List.subset_append_left _ _)
              (Or.inr ⟨m.used, c, hconverted, ?_, carried_add hc⟩)
            · obtain ⟨packKey, hpackKey, hid⟩ := hc.id
              simp only [takenIds, hc.kind, hpackKey, Migration.add, hid]
            · exact List.mem_map_of_mem (List.mem_append_right _ List.mem_cons_self)

variable (ids) in
/-- The rules are gone through when each is an object and convertible. -/
theorem migrateRules_endsIn {file : RuleFile} {i : Nat} {rules : List Json} {m : Migration} :
    (EndsIn (migrateRules py ids.packRuleId ids.newId file i rules m) fun _ => True) ↔
      ∀ rule ∈ rules, rule.isObj = true ∧ Convertible py rule := by
  induction rules generalizing i m with
  | nil => simp [migrateRules]
  | cons rule rules ih =>
      rw [List.forall_mem_cons]
      unfold migrateRules
      cases hobj : rule.isObj with
      | false => simp
      | true =>
          rw [if_neg (by decide), endsIn_bind, ← convertRule_endsIn ids.packRuleId_isId (ids.newId_isId i),
            eq_self_iff_true, true_and, ← endsIn_and_const]
          refine endsIn_congr fun converted _ => ?_
          cases converted with
          | none => exact ih.trans (and_iff_right trivial).symm
          | some c => exact ih.trans (and_iff_right trivial).symm

/-! ## The section -/

theorem checkSection_endsIn {rules : List SectionRule} :
    (EndsIn (checkSection py rules) fun ok => ok = true) ↔
      (∀ r ∈ rules, r.check py = .ok true) ∧ rules.length ≤ maxRules ∧
        (rules.map SectionRule.id).Nodup := by
  have hcheck : ∀ r : SectionRule, r.check py = .ok true ↔
      EndsIn (r.check py) fun ok => ok = true :=
    fun r => ⟨fun h => ⟨true, h, rfl⟩, fun ⟨ok, h, hok⟩ => hok ▸ h⟩
  simp only [hcheck]
  rw [← endsIn_mapM, ← endsIn_and_const]
  unfold checkSection
  rw [endsIn_bind]
  refine endsIn_congr fun checked _ => ?_
  simp only [endsIn_pure, Bool.and_eq_true, List.all_eq_true, id_eq, decide_eq_true_eq, and_assoc]

theorem check_default (r : PackRule) :
    (SectionRule.default (ids.packRuleId r.key) r).check py = .ok true := by
  rw [SectionRule.check, ids.packRuleId_isId]

theorem check_converted {r : RawRule} (h : checkRule py r = .ok []) :
    (SectionRule.converted r).check py = .ok true := by
  rw [SectionRule.check, h]
  rfl

theorem nodup_packKeys : (pack.map PackRule.key).Nodup := by decide

/-- The default rules have identifiers of their own, and none that was used. -/
theorem nodup_section {used : List String} (h : used.Nodup) :
    (used ++ (newDefaults ids.packRuleId used).map fun r => ids.packRuleId r.key).Nodup := by
  have hpack : pack.Nodup := nodup_packKeys.of_map
  refine List.nodup_append.mpr ⟨h, ?_, ?_⟩
  · refine (List.nodup_map_iff_inj_on (hpack.filter _)).mpr ?_
    intro r hr q hq heq
    exact ids.packRuleId_injective r (List.mem_of_mem_filter hr) q (List.mem_of_mem_filter hq) heq
  · rintro id hid other hother rfl
    obtain ⟨r, hr, rfl⟩ := List.mem_map.mp hother
    have hfree := (List.mem_filter.mp hr).2
    simp only [Bool.and_eq_true, decide_eq_true_eq] at hfree
    exact hfree.2 hid

variable (ids) in
/-- The section of a migration that is through: its rules, and the default rules not among them. -/
def sectionOf (m : Migration) : List SectionRule :=
  m.rules.map SectionRule.converted ++
    (newDefaults ids.packRuleId (m.rules.map RawRule.id)).map fun r =>
      .default (ids.packRuleId r.key) r

theorem migrateAlerts_eq_ok {file : RuleFile} {rules : List Json} {out : List SectionRule}
    {items : List MigrationItem} :
    migrateAlerts py ids.packRuleId ids.newId file rules = .ok (out, items) ↔
      ∃ m, migrateRules py ids.packRuleId ids.newId file 0 rules
          ⟨[], [], listedItems rules file⟩ = .ok m ∧
        checkSection py (sectionOf ids m) = .ok true ∧ out = sectionOf ids m ∧
        items = m.items ++ (newDefaults ids.packRuleId (m.rules.map RawRule.id)).map
          (defaultItem ids.packRuleId) := by
  constructor
  · intro h
    obtain ⟨m, hm, h⟩ := bind_eq_ok.mp h
    obtain ⟨ok, hok, h⟩ := bind_eq_ok.mp h
    cases ok with
    | false => cases h
    | true =>
        cases h
        exact ⟨m, hm, hok, rfl, rfl⟩
  · rintro ⟨m, hm, hok, rfl, rfl⟩
    exact bind_eq_ok.mpr ⟨m, hm, bind_eq_ok.mpr ⟨true, hok, rfl⟩⟩

theorem sound_start (listed : List MigrationItem) : Sound ids 0 ⟨[], [], listed⟩ :=
  ⟨⟨List.nodup_nil, List.forall_mem_nil _⟩, rfl, List.forall_mem_nil _⟩

/-- The rules of a migration that is through pass the check of the section, unless they are too many. -/
theorem checkSection_sectionOf {i : Nat} {m : Migration} (h : Sound ids i m) :
    (EndsIn (checkSection py (sectionOf ids m)) fun ok => ok = true) ↔
      m.used.length + (newDefaults ids.packRuleId m.used).length ≤ maxRules := by
  have hvalid : ∀ r ∈ sectionOf ids m, r.check py = .ok true := by
    refine List.forall_mem_append.mpr ⟨?_, ?_⟩
    · exact List.forall_mem_map.mpr fun r hr => check_converted (h.valid r hr)
    · exact List.forall_mem_map.mpr fun r _ => check_default r
  have hids : (sectionOf ids m).map SectionRule.id =
      m.used ++ (newDefaults ids.packRuleId m.used).map fun r => ids.packRuleId r.key := by
    rw [sectionOf, List.map_append, List.map_map, List.map_map, ← h.same]
    rfl
  have hlength : (sectionOf ids m).length =
      m.used.length + (newDefaults ids.packRuleId m.used).length := by
    have hcount := congrArg List.length hids
    rwa [List.length_map, List.length_append, List.length_map] at hcount
  rw [checkSection_endsIn, hids, hlength]
  exact ⟨fun hall => hall.2.1, fun hsize => ⟨hvalid, hsize, nodup_section h.used.1⟩⟩

end Run

/-- The texts of ASCII letters, as far as a rule without texts needs them. -/
def asciiPython : Python where
  reprOf _ := ""
  float _ := none
  int s := s.toInt?
  isdigit s := s.toList.all Char.isDigit
  lower s := String.ofList (s.toList.map Char.toLower)
  compile _ := .compiles

/-- The place of a key in the pack, as 32 digits. -/
def placeId (key : String) : String :=
  let place := (pack.map PackRule.key).idxOf key
  String.ofList (List.replicate 30 '0' ++
    [Nat.digitChar (place / 10 % 10), Nat.digitChar (place % 10)])

theorem isId_placeId (key : String) : isId (placeId key) = true := by
  have hdigit : ∀ n < 10, (Nat.digitChar n).isDigit = true := by decide
  have hfirst := hdigit _ (Nat.mod_lt ((pack.map PackRule.key).idxOf key / 10) (by decide))
  have hsecond := hdigit _ (Nat.mod_lt ((pack.map PackRule.key).idxOf key) (by decide))
  simp [isId, placeId, hfirst, hsecond]

theorem placeId_injective {r q : PackRule} (hr : r ∈ pack) (hq : q ∈ pack)
    (h : placeId r.key = placeId q.key) : r = q := by
  have hdigit : ∀ a < 10, ∀ b < 10, Nat.digitChar a = Nat.digitChar b → a = b := by decide
  have hlt : ∀ s ∈ pack, (pack.map PackRule.key).idxOf s.key < 35 := fun s hs =>
    List.idxOf_lt_length_of_mem (List.mem_map_of_mem hs)
  have hchars := String.ofList_injective h
  simp only [List.append_cancel_left_eq, List.cons.injEq, and_true] at hchars
  have htens := hdigit _ (Nat.mod_lt _ (by decide)) _ (Nat.mod_lt _ (by decide)) hchars.1
  have hones := hdigit _ (Nat.mod_lt _ (by decide)) _ (Nat.mod_lt _ (by decide)) hchars.2
  have hplace : (pack.map PackRule.key).idxOf r.key = (pack.map PackRule.key).idxOf q.key := by
    have hr := hlt r hr
    have hq := hlt q hq
    omega
  have hkey := (List.idxOf_inj (List.mem_map_of_mem hr)).mp hplace
  exact List.inj_on_of_nodup_map nodup_packKeys hr hq hkey

theorem ne_placeId (key : String) : "ffffffffffffffffffffffffffffffff" ≠ placeId key := by
  intro h
  have hchars := congrArg (fun s => s.toList.head?) h
  simp [placeId] at hchars

def placeIds : Identifiers asciiPython [.int 1] where
  packRuleId := placeId
  newId _ := "ffffffffffffffffffffffffffffffff"
  packRuleId_isId := isId_placeId
  packRuleId_injective _ hr _ hq h := placeId_injective hr hq h
  newId_isId _ := by decide
  newId_injective i hi j hj _ := by
    rw [List.length_singleton] at hi hj
    omega
  newId_ne_pack _ _ r _ := ne_placeId r.key
  newId_ne_raw _ _ rule hrule := by
    rw [List.mem_singleton.mp hrule]
    decide

end IllumioOps.Migrate
