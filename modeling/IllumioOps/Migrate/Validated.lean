import IllumioOps.Migrate.Alerts
import IllumioOps.Programs.Outcomes

/-!
# What a converted rule holds

The parts of a converted rule that pass their checks whatever the rule of 5.x holds: its throttle
(`of_throttle`) and what is kept of the labels and addresses of an end (`side_check`). A rule with
errors in its patterns only is validated with these replaced, and a rule with any other error is not
(`validated_endsIn`).
-/

set_option autoImplicit false

namespace IllumioOps.Migrate

open Programs
open RuleSchedules (isSpace strip)

variable {py : Python} {rule : Json} {r : RawRule}

/-! ## Throttles -/

theorem one_le_of_throttleGiven {v : Json} {count : Int} {minutes : Minutes}
    (h : throttleGiven py v = .ok (some (count, minutes))) : 1 ≤ count := by
  unfold throttleGiven at h
  split at h
  · obtain ⟨n, -, h⟩ := bind_eq_ok.mp h
    obtain ⟨x, -, h⟩ := bind_eq_ok.mp h
    -- the minutes are read only where the seconds are none
    split at h
    · obtain ⟨y, -, h⟩ := bind_eq_ok.mp h
      cases h
      exact le_max_left 1 n
    · obtain ⟨y, -, h⟩ := bind_eq_ok.mp h
      obtain ⟨z, -, h⟩ := bind_eq_ok.mp h
      cases h
      exact le_max_left 1 n
  · split at h
    · cases h
    · simp only [bind_eq_ok] at h
      obtain ⟨n, -, x, -, y, -, h⟩ := h
      cases h
      exact le_max_left 1 n

/-- A throttle is of one alert at least, over one minute at least and seven days at most. -/
theorem of_throttle {v : Json} {t : Option (Int × Int) × Bool} (h : throttle py v = .ok t) :
    ∀ c ∈ t.1, 1 ≤ c.1 ∧ 1 ≤ c.2 ∧ c.2 ≤ 10080 := by
  rintro ⟨count, period⟩ hc
  unfold throttle at h
  split at h
  · cases h
    cases hc
  · obtain ⟨given, hgiven, h⟩ := bind_eq_ok.mp h
    split at h
    · cases h
      cases hc
    · rename_i n minutes
      split at h
      · cases h
        cases hc
      · obtain ⟨rounded, -, h⟩ := bind_eq_ok.mp h
        cases h
        cases hc
        exact ⟨one_le_of_throttleGiven hgiven, le_min (le_max_left 1 rounded) (by decide),
          min_le_right _ _⟩

/-! ## Patterns -/

theorem checkPattern_any {pattern : String} (h : pattern ∈ ["*", "all"]) :
    checkPattern py pattern = .ok true := by
  rcases List.mem_pair.mp h with rfl | rfl
  · rfl
  · rfl

/-- A value that is replaced where its check found it in error. -/
theorem of_replaced {α : Type} {f : α → Except PyError Bool} {a b : α} {ok : Bool} {c : Prop}
    [Decidable c] (hc : c ↔ ok = false) (ha : f a = .ok ok) (hb : f b = .ok true) :
    f (if c then b else a) = .ok true := by
  cases ok with
  | true => rw [if_neg (fun h => absurd (hc.mp h) (by decide)), ha]
  | false => rw [if_pos (hc.mpr rfl), hb]

theorem patternErrors_eq_ok {e : RawEvent} {errors : List String} :
    patternErrors py e = .ok errors ↔ ∃ types status severity fields,
      checkTypes py e.eventTypes = .ok types ∧ checkPattern py (stripText e.status) = .ok status ∧
      checkPattern py (stripText e.eventSeverity) = .ok severity ∧
      checkMatchFields py e.matchFields = .ok fields ∧
      errors = (if types then [] else ["event_types"]) ++ (if status then [] else ["status"]) ++
        (if severity then [] else ["event_severity"]) ++ if fields then [] else ["match_fields"] := by
  unfold patternErrors
  simp only [bind_eq_ok, pure, Except.pure, Except.ok.injEq]
  constructor
  · rintro ⟨types, htypes, status, hstatus, severity, hseverity, fields, hfields, rfl⟩
    exact ⟨types, status, severity, fields, htypes, hstatus, hseverity, hfields, rfl⟩
  · rintro ⟨types, status, severity, fields, htypes, hstatus, hseverity, hfields, rfl⟩
    exact ⟨types, htypes, status, hstatus, severity, hseverity, fields, hfields, rfl⟩

/-- With the patterns in error replaced there is none left. -/
theorem patternErrors_reset {e : RawEvent} {errors : List String}
    (h : patternErrors py e = .ok errors) :
    patternErrors py (e.reset (errors.map some)) = .ok [] := by
  obtain ⟨types, status, severity, fields, htypes, hstatus, hseverity, hfields, herrors⟩ :=
    patternErrors_eq_ok.mp h
  have hmem : (some "event_types" ∈ errors.map some ↔ types = false) ∧
      (some "status" ∈ errors.map some ↔ status = false) ∧
      (some "event_severity" ∈ errors.map some ↔ severity = false) ∧
      (some "match_fields" ∈ errors.map some ↔ fields = false) := by
    rw [herrors]
    cases types <;> cases status <;> cases severity <;> cases fields <;> decide
  refine patternErrors_eq_ok.mpr ⟨true, true, true, true, ?_, ?_, ?_, ?_, rfl⟩
  · exact of_replaced hmem.1 htypes rfl
  · exact of_replaced (f := fun s => checkPattern py (stripText s)) hmem.2.1 hstatus rfl
  · exact of_replaced (f := fun s => checkPattern py (stripText s)) hmem.2.2.1 hseverity rfl
  · exact of_replaced hmem.2.2.2 hfields rfl

/-! ## Validation -/

theorem checkRule_eq_ok {errors : List (Option String)} (hmodel : modelError r = false) :
    checkRule py r = .ok errors ↔ ∃ patterns, r.body.patternErrors py = .ok patterns ∧
      errors = (baseErrors r ++ patterns ++ bodyErrors py r.body).map some := by
  unfold checkRule
  simp only [bind_eq_ok, hmodel, Bool.false_eq_true, if_false, pure, Except.pure, Except.ok.injEq]
  refine exists_congr fun patterns => and_congr_right fun _ => ?_
  split
  · rename_i hnil
    rw [hnil, List.map_nil, eq_comm]
  · exact eq_comm

@[simp] theorem resetPatterns_id (errors : List (Option String)) :
    (resetPatterns errors r).id = r.id := rfl

@[simp] theorem resetPatterns_enabled (errors : List (Option String)) :
    (resetPatterns errors r).enabled = false := rfl

theorem baseErrors_resetPatterns (errors : List (Option String)) :
    baseErrors (resetPatterns errors r) = baseErrors r := rfl

theorem bodyErrors_resetPatterns (errors : List (Option String)) :
    bodyErrors py (resetPatterns errors r).body = bodyErrors py r.body := by
  unfold resetPatterns
  cases r.body <;> rfl

theorem modelError_resetPatterns (errors : List (Option String)) :
    modelError (resetPatterns errors r) = modelError r := by
  unfold resetPatterns modelError
  cases r.body <;> rfl

theorem patternErrors_resetPatterns {errors : List String}
    (h : r.body.patternErrors py = .ok errors) :
    (resetPatterns (errors.map some) r).body.patternErrors py = .ok [] := by
  unfold resetPatterns
  cases hbody : r.body with
  | event e =>
      rw [hbody] at h
      exact patternErrors_reset h
  | flow condition threshold window => rfl
  | system => rfl

/-- Errors in the patterns are repaired, and no others. -/
theorem validated_endsIn {kind : RuleKind} (hmodel : modelError r = false) :
    (EndsIn (validated py kind r) fun _ => True) ↔
      (EndsIn (r.body.patternErrors py) fun _ => True) ∧ baseErrors r = [] ∧
        bodyErrors py r.body = [] := by
  constructor
  · rintro ⟨out, hout, -⟩
    obtain ⟨errors, herrors, hout⟩ := bind_eq_ok.mp hout
    obtain ⟨patterns, hpatterns, rfl⟩ := (checkRule_eq_ok hmodel).mp herrors
    refine ⟨⟨patterns, hpatterns, trivial⟩, ?_⟩
    split at hout
    · rename_i hnil
      simp only [List.map_eq_nil_iff, List.append_eq_nil_iff] at hnil
      exact ⟨hnil.1.1, hnil.2⟩
    · obtain ⟨again, hagain, hout⟩ := bind_eq_ok.mp hout
      obtain ⟨left, -, rfl⟩ :=
        (checkRule_eq_ok (by rw [modelError_resetPatterns, hmodel])).mp hagain
      split at hout
      · rename_i hnil
        rw [baseErrors_resetPatterns, bodyErrors_resetPatterns] at hnil
        simp only [List.map_eq_nil_iff, List.append_eq_nil_iff] at hnil
        exact ⟨hnil.1.1, hnil.2⟩
      · cases hout
  · rintro ⟨⟨patterns, hpatterns, -⟩, hbase, hbody⟩
    have hfirst : checkRule py r = .ok (patterns.map some) := by
      refine (checkRule_eq_ok hmodel).mpr ⟨patterns, hpatterns, ?_⟩
      rw [hbase, hbody, List.nil_append, List.append_nil]
    have hagain : checkRule py (resetPatterns (patterns.map some) r) = .ok [] := by
      refine (checkRule_eq_ok (by rw [modelError_resetPatterns, hmodel])).mpr
        ⟨[], patternErrors_resetPatterns hpatterns, ?_⟩
      rw [baseErrors_resetPatterns, bodyErrors_resetPatterns, hbase, hbody]
      rfl
    unfold validated
    rw [endsIn_bind, hfirst, endsIn_ok]
    split
    · exact endsIn_pure.mpr trivial
    · rw [endsIn_bind, hagain, endsIn_ok, if_pos rfl]
      exact endsIn_pure.mpr trivial

/-- What the validation lets through passes the check, under its identifier, and a rule that was
disabled stays so. -/
theorem of_validated {kind : RuleKind} {converted : RawRule} {invalid : Lost}
    (h : validated py kind r = .ok (converted, invalid)) :
    checkRule py converted = .ok [] ∧ converted.id = r.id ∧
      (r.enabled = false → converted.enabled = false) := by
  obtain ⟨errors, herrors, h⟩ := bind_eq_ok.mp h
  split at h
  · rename_i hnil
    cases h
    exact ⟨hnil ▸ herrors, rfl, id⟩
  · obtain ⟨again, hagain, h⟩ := bind_eq_ok.mp h
    split at h
    · rename_i hnil
      cases h
      exact ⟨hnil ▸ hagain, rfl, fun _ => rfl⟩
    · cases h

/-! ## Ends -/

/-- A text without white space is not stripped of anything. -/
theorem strip_of_no_space {text : List Char} (h : ∀ c ∈ text, isSpace c = false) :
    strip text = text := by
  have hkeep : ∀ l : List Char, (∀ c ∈ l, isSpace c = false) → l.dropWhile isSpace = l := by
    intro l hl
    cases l with
    | nil => rfl
    | cons c l => simp [hl c List.mem_cons_self]
  rw [strip, hkeep text h, hkeep text.reverse (fun c hc => h c (List.mem_reverse.mp hc)),
    List.reverse_reverse]

theorem isSpace_of_isPlain {c : Char} (h : Ipaddress.IsPlain c) : isSpace c = false := by
  rcases h with h | rfl | rfl | rfl
  · have hrange : 48 ≤ c.toNat ∧ c.toNat ≤ 102 ∧ c.toNat ≠ 133 := by
      simp only [Char.isHexDigit, Char.isDigit, Bool.or_eq_true, Bool.and_eq_true, decide_eq_true_eq, UInt32.le_iff_toNat_le] at h
      simp only [Char.toNat]
      grind
    simp only [isSpace, Bool.or_eq_false_iff, decide_eq_false_iff_not]
    omega
  · decide
  · decide
  · decide

open Ipaddress in
theorem ipAddress_text (a : Address) : ipAddress a.text = some a := by
  cases a with
  | v4 n => simp [ipAddress, Address.text, ipv4Address_ipv4Text]
  | v6 n =>
      have hnone : ipv4Address (ipv6Text n) = none :=
        ipv4Address_eq_none (not_mem_ipv6Text (by decide) (by decide))
      simp [ipAddress, Address.text, hnone, ipv6Address_ipv6Text]

open Ipaddress in
theorem isIpToken_network (n : Network) : isIpToken (String.ofList n.text) = true := by
  have hstrip : strip n.text = n.text := strip_of_no_space fun c hc =>
    isSpace_of_isPlain (isPlain_of_ipNetwork (Network.ipNetwork_text n) c hc)
  have hslash : '/' ∈ n.text := by simp [Network.text]
  simp [isIpToken, hstrip, hslash, Network.ipNetwork_text]

open Ipaddress in
theorem isIpToken_address (a : Address) : isIpToken (String.ofList a.text) = true := by
  have hstrip : strip a.text = a.text := strip_of_no_space fun c hc =>
    isSpace_of_isPlain (isPlain_of_ipAddress (ipAddress_text a) c hc)
  have hslash : '/' ∉ a.text := by
    cases a with
    | v4 n => exact not_mem_ipv4Text rfl (by decide)
    | v6 n => exact not_mem_ipv6Text (by decide) (by decide)
  simp [isIpToken, hstrip, hslash, ipAddress_text]

theorem isIpToken_of_ips {token : Json} {texts : List String} (h : ips py token = some texts) :
    ∀ text ∈ texts, isIpToken text = true := by
  unfold ips at h
  simp only at h
  split at h
  · simp only [Option.bind_eq_bind, Option.bind_eq_some_iff, Option.some.injEq] at h
    obtain ⟨a, -, b, -, nets, -, rfl⟩ := h
    simp only [List.forall_mem_map]
    exact fun n _ => isIpToken_network n
  · split at h
    · obtain ⟨n, -, rfl⟩ := Option.map_eq_some_iff.mp h
      exact fun text htext => List.mem_singleton.mp htext ▸ isIpToken_network n
    · obtain ⟨a, -, rfl⟩ := Option.map_eq_some_iff.mp h
      exact fun text htext => List.mem_singleton.mp htext ▸ isIpToken_address a

theorem ne_empty_of_label {token : Json} {pair : String × String} (h : label py token = some pair) :
    pair.1 ≠ "" := by
  unfold label at h
  simp only at h
  split at h
  · cases h
  · split at h
    · cases h
    · rename_i hne
      cases h
      intro hempty
      exact hne (Or.inl (String.ofList_eq_empty_iff.mp hempty))

/-- A label that a filter takes: a key, and a value at least. -/
def IsLabel (l : String × List String) : Prop := l.1 ≠ "" ∧ l.2 ≠ []

theorem isLabel_addLabel {byKey : List (String × List String)} {pair : String × String}
    (hall : ∀ l ∈ byKey, IsLabel l) (hpair : pair.1 ≠ "") : ∀ l ∈ addLabel byKey pair, IsLabel l := by
  unfold addLabel
  split
  · rw [List.forall_mem_map]
    intro l hl
    split
    · refine ⟨(hall l hl).1, ?_⟩
      split
      · exact (hall l hl).2
      · exact List.append_ne_nil_of_right_ne_nil _ (List.cons_ne_nil _ _)
    · exact hall l hl
  · rw [List.forall_mem_append]
    exact ⟨hall, fun l hl => List.mem_singleton.mp hl ▸ ⟨hpair, List.cons_ne_nil _ _⟩⟩

theorem isLabel_foldl {pairs : List (String × String)} (hpairs : ∀ pair ∈ pairs, pair.1 ≠ "")
    {byKey : List (String × List String)} (hall : ∀ l ∈ byKey, IsLabel l) :
    ∀ l ∈ pairs.foldl addLabel byKey, IsLabel l := by
  induction pairs generalizing byKey with
  | nil => exact hall
  | cons pair pairs ih =>
      rw [List.forall_mem_cons] at hpairs
      exact ih hpairs.2 (isLabel_addLabel hall hpairs.1)

/-- What is kept of an end passes its check. -/
theorem side_check {keys : SideKeys} {s : RawSide} (h : side py rule keys = some s) :
    s.check = true := by
  unfold side at h
  simp only at h
  split at h
  · cases h
  · cases h
    rw [RawSide.check, Bool.and_eq_true, List.all_eq_true, List.all_eq_true]
    constructor
    · intro l hl
      have hpairs : ∀ pair ∈ (tokens rule keys.labels).filterMap fun t => label py t.2,
          pair.1 ≠ "" := fun pair hpair => by
        obtain ⟨t, -, ht⟩ := List.mem_filterMap.mp hpair
        exact ne_empty_of_label ht
      have hlabel := isLabel_foldl hpairs (List.forall_mem_nil _) l hl
      simp [hlabel.1, hlabel.2]
    · intro text htext
      obtain ⟨texts, htexts, htext⟩ := List.mem_flatten.mp htext
      obtain ⟨t, -, ht⟩ := List.mem_filterMap.mp htexts
      exact isIpToken_of_ips ht text htext
end IllumioOps.Migrate
