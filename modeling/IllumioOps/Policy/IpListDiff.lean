import IllumioOps.Policy.Networks
import Mathlib.Data.List.Sort
import Mathlib.Data.String.Basic

/-!
# Draft IP lists against active ones

`diff_objects` of `domain.policy_diff` for IP lists: the lists that only one version has, and in
those of both the fields that differ. A change of a member list is marked as widening when a member
was added. What a list admits is `ipListValues`, the addresses of its inclusions less those of its
exclusions (`Admits`). A draft that drops an exclusion can admit more without a new member;
`widening_reported_iff` gives the drafts whose widening is always marked.
-/

set_option autoImplicit false

namespace IllumioOps.Policy

open Ipaddress

/-! ## The comparison -/

/-- An IP list; a text that is missing is empty. -/
structure IpList where
  href : String
  name : String
  ipRanges : List IpRange
  fqdns : List String
  description : String
  deriving DecidableEq, Repr

inductive IpListField where
  | ipRanges
  | fqdns
  | description
  deriving DecidableEq, Repr

/-- The compared fields of `OBJECTS`. -/
def ipListFields : List IpListField := [.ipRanges, .fqdns, .description]

/-- `_EXPANSION`, for the fields of an IP list. -/
def IpListField.expansion : IpListField → Bool
  | .ipRanges => true
  | .fqdns => true
  | .description => false

inductive ChangeType where
  | added
  | removed
  | modified
  deriving DecidableEq, Repr

/-- A change of one IP list; `field` is missing for a list that one version does not have. -/
structure Change where
  change : ChangeType
  name : String
  ref : String
  href : String
  field : Option IpListField
  draft : String
  active : String
  scopeExpanded : Bool
  deriving DecidableEq, Repr

/-- `_id`: the last part of a reference. -/
def idOf (href : String) : String :=
  String.ofList
    ((href.toList.reverse.dropWhile (· = '/')).takeWhile (· ≠ '/')).reverse

/-- `_by_id`: the last of the lists with this id. -/
def byId (lists : List IpList) (id : String) : Option IpList :=
  lists.reverse.find? fun l => l.href ≠ "" ∧ idOf l.href = id

/-- The ids, in order. -/
def ids (lists : List IpList) : List String :=
  (((lists.filter fun l => l.href ≠ "").map fun l => idOf l.href).eraseDups).insertionSort (· ≤ ·)

/-- `_range` -/
def rangeText (r : IpRange) : String :=
  let text := if r.toIp ≠ "" then r.fromIp ++ ("-" ++ r.toIp) else r.fromIp
  if r.exclusion then "!" ++ text else text

/-- `_members` -/
def members : IpListField → IpList → List String
  | .ipRanges, l => l.ipRanges.map rangeText
  | .fqdns, l => l.fqdns
  | .description, _ => []

/-- `", ".join(sorted(tokens))` -/
def joined (tokens : List String) : String :=
  String.ofList ([',', ' '].intercalate ((tokens.insertionSort (· ≤ ·)).map String.toList))

/-- `_field`: the text of a field, and its tokens as a set. -/
def fieldOf (field : IpListField) (l : IpList) : String × List String :=
  if field.expansion then
    let tokens := members field l
    (joined tokens, tokens)
  else
    let text := String.ofList (RuleSchedules.strip l.description.toList)
    (text, [text])

/-- The change of a field, where its texts differ. -/
def fieldChange (id : String) (d a : IpList) (field : IpListField) : Option Change :=
  let (dt, ds) := fieldOf field d
  let (at', as') := fieldOf field a
  if dt ≠ at' then
    some { change := .modified
           name := d.name
           ref := id
           href := d.href
           field := some field
           draft := dt
           active := at'
           scopeExpanded := field.expansion && ds.any (· ∉ as') }
  else none

/-- `diff_objects` -/
def diffObjects (draft active : List IpList) (fields : List IpListField) : List Change :=
  let draftIds := ids draft
  let activeIds := ids active
  let added := (draftIds.filter (· ∉ activeIds)).flatMap fun id =>
    (byId draft id).toList.map fun o =>
      { change := .added, name := o.name, ref := id, href := o.href, field := none,
        draft := o.name, active := "", scopeExpanded := false }
  let removed := (activeIds.filter (· ∉ draftIds)).flatMap fun id =>
    (byId active id).toList.map fun o =>
      { change := .removed, name := o.name, ref := id, href := o.href, field := none,
        draft := "", active := o.name, scopeExpanded := false }
  let modified := (draftIds.filter (· ∈ activeIds)).flatMap fun id =>
    match byId draft id, byId active id with
    | some d, some a => fields.filterMap (fieldChange id d a)
    | _, _ => []
  added ++ removed ++ modified

/-! ## What a list admits -/

/-- The texts of the entries that are included, and of those that are excluded. -/
def inclusions (ranges : List IpRange) : List String :=
  (ranges.filter fun r => !r.exclusion).filterMap IpRange.value

def exclusions (ranges : List IpRange) : List String :=
  (ranges.filter IpRange.exclusion).filterMap IpRange.value

/-- The address is among those of the list. -/
def Admits (ranges : List IpRange) (x : Address) : Prop := DenotesAny (ipListValues ranges) x

theorem admits_iff {ranges : List IpRange} {x : Address} :
    Admits ranges x ↔ DenotesAny (inclusions ranges) x ∧ ¬ DenotesAny (exclusions ranges) x :=
  denotesAny_subtract _ _ x

/-- An entry is an address, a network or a range. -/
def IpRange.IsAddress (r : IpRange) : Prop :=
  ∃ v nets, r.value = some v ∧ network v = some nets

/-! ### The tokens of entries -/

variable {r r' : IpRange} {v : String}

theorem IpRange.IsAddress.value_eq (h : r.IsAddress) :
    r.value = some (if r.toIp ≠ "" then r.fromIp ++ ("-" ++ r.toIp) else r.fromIp) := by
  obtain ⟨v, nets, hv, -⟩ := h
  unfold value at hv ⊢
  by_cases hfrom : r.fromIp = ""
  · simp [hfrom] at hv
  · by_cases hto : r.toIp = "" <;> simp [hfrom, hto, String.append_assoc]

/-- The token of an entry is its value, marked when it is an exclusion. -/
theorem IpRange.IsAddress.rangeText_eq (h : r.IsAddress) (hv : r.value = some v) :
    rangeText r = if r.exclusion then "!" ++ v else v := by
  obtain rfl := Option.some.inj (h.value_eq.symm.trans hv)
  rfl

/-- No comma and no mark is in the value of an address. -/
theorem IpRange.IsAddress.plain (h : r.IsAddress) (hv : r.value = some v) {c : Char}
    (hc : c ∈ v.toList) : c ≠ ',' ∧ c ≠ '!' := by
  obtain ⟨v', nets, hv', hnets⟩ := h
  obtain rfl := Option.some.inj (hv.symm.trans hv')
  have hplain := isPlain_of_network hnets hc
  constructor
  · rintro rfl
    revert hplain
    unfold IsPlain
    decide
  · rintro rfl
    revert hplain
    unfold IsPlain
    decide

theorem IpRange.value_ne_empty (hv : r.value = some v) : v ≠ "" := by
  unfold value at hv
  split at hv
  · rename_i hboth
    obtain rfl := Option.some.inj hv
    simp [hboth.1]
  · split at hv
    · rename_i hfrom
      obtain rfl := Option.some.inj hv
      exact hfrom
    · cases hv

/-- The token of an entry is not empty and has no comma. -/
theorem IpRange.IsAddress.token (h : r.IsAddress) :
    rangeText r ≠ "" ∧ ',' ∉ (rangeText r).toList := by
  obtain ⟨v, nets, hv, hnets⟩ := id h
  have hcomma : ',' ∉ v.toList := fun hc => (h.plain hv hc).1 rfl
  have hne := value_ne_empty hv
  rw [h.rangeText_eq hv]
  split
  · simp [hcomma]
  · exact ⟨hne, hcomma⟩

/-- Entries with one token are both included or both excluded, and have one value. -/
theorem IpRange.IsAddress.eq_of_rangeText (h : r.IsAddress) (h' : r'.IsAddress)
    (htext : rangeText r = rangeText r') : r.exclusion = r'.exclusion ∧ r.value = r'.value := by
  obtain ⟨v, nets, hv, hnets⟩ := id h
  obtain ⟨v', nets', hv', hnets'⟩ := id h'
  rw [h.rangeText_eq hv, h'.rangeText_eq hv'] at htext
  have hmark : ∀ {w : String} {q : IpRange}, q.IsAddress → q.value = some w →
      ∀ w', w ≠ "!" ++ w' := by
    rintro w q hq hw w' rfl
    exact (hq.plain hw (c := '!') (by simp)).2 rfl
  cases hexc : r.exclusion <;> cases hexc' : r'.exclusion <;>
    simp only [hexc, hexc', if_true, if_false, Bool.false_eq_true] at htext
  · exact ⟨rfl, by rw [hv, hv', htext]⟩
  · exact absurd htext (hmark h hv _)
  · exact absurd htext.symm (hmark h' hv' _)
  · refine ⟨rfl, ?_⟩
    rw [hv, hv', (String.append_right_inj _).1 htext]

/-! ### Joined tokens -/

/-- Joined texts without a comma are cut at the commas. -/
theorem splitOn_intercalate_comma {t : List Char} {ts : List (List Char)} (ht : ',' ∉ t)
    (h : ∀ u ∈ ts, ',' ∉ u) :
    ([',', ' '].intercalate (t :: ts)).splitOn ',' = t :: ts.map (' ' :: ·) := by
  induction ts generalizing t with
  | nil =>
      rw [List.intercalate_singleton, List.splitOn_eq_singleton ht]
      rfl
  | cons u ts ih =>
      have hu : ',' ∉ u := h u List.mem_cons_self
      have hspace : ',' ∉ ' ' :: u := by simp [hu]
      have hrest := ih hspace fun w hw => h w (List.mem_cons_of_mem _ hw)
      have hcut : [',', ' '].intercalate (t :: u :: ts) =
          t ++ ',' :: [',', ' '].intercalate ((' ' :: u) :: ts) := by
        cases ts <;> simp [List.intercalate_cons_cons]
      rw [hcut, List.splitOn_append_cons_self_of_not_mem ht, hrest]
      rfl

/-- Tokens without a comma, none of them empty, are known from the joined text. -/
theorem perm_of_joined {ts ts' : List String} (h : ∀ t ∈ ts, t ≠ "" ∧ ',' ∉ t.toList)
    (h' : ∀ t ∈ ts', t ≠ "" ∧ ',' ∉ t.toList) (hjoined : joined ts = joined ts') :
    List.Perm ts ts' := by
  have hinj : ∀ us us' : List String, (∀ t ∈ us, t ≠ "" ∧ ',' ∉ t.toList) →
      (∀ t ∈ us', t ≠ "" ∧ ',' ∉ t.toList) →
      [',', ' '].intercalate (us.map String.toList) =
        [',', ' '].intercalate (us'.map String.toList) → us = us' := by
    intro us us' hus hus' heq
    have hsplit := congrArg (List.splitOn ',') heq
    have hfree : ∀ ws : List String, (∀ t ∈ ws, t ≠ "" ∧ ',' ∉ t.toList) →
        ∀ w ∈ ws.map String.toList, ',' ∉ w := by
      intro ws hws w hw
      obtain ⟨t, ht, rfl⟩ := List.mem_map.1 hw
      exact (hws t ht).2
    have hnil : ∀ (w : String) (ws : List String), w ≠ "" →
        [[]] ≠ w.toList :: (ws.map String.toList).map (' ' :: ·) := by
      intro w ws hw heq'
      refine hw (String.toList_injective ?_)
      rw [← (List.cons.inj heq').1]
      rfl
    cases us with
    | nil =>
        cases us' with
        | nil => rfl
        | cons w' ws' =>
            have hrest := hfree _ fun t ht => hus' t (List.mem_cons_of_mem _ ht)
            rw [List.map_cons, splitOn_intercalate_comma (hus' w' List.mem_cons_self).2 hrest]
              at hsplit
            exact absurd hsplit (hnil w' ws' (hus' w' List.mem_cons_self).1)
    | cons w ws =>
        have hrest := hfree _ fun t ht => hus t (List.mem_cons_of_mem _ ht)
        rw [List.map_cons, splitOn_intercalate_comma (hus w List.mem_cons_self).2 hrest] at hsplit
        cases us' with
        | nil => exact absurd hsplit.symm (hnil w ws (hus w List.mem_cons_self).1)
        | cons w' ws' =>
            have hrest' := hfree _ fun t ht => hus' t (List.mem_cons_of_mem _ ht)
            rw [List.map_cons, splitOn_intercalate_comma (hus' w' List.mem_cons_self).2 hrest']
              at hsplit
            obtain ⟨hfirst, hothers⟩ := List.cons.inj hsplit
            have hws : ws.map String.toList = ws'.map String.toList :=
              List.map_injective_iff.2 List.cons_injective hothers
            rw [String.toList_injective hfirst,
              List.map_injective_iff.2 (fun _ _ => String.toList_injective) hws]
  have hsorted := hinj (ts.insertionSort (· ≤ ·)) (ts'.insertionSort (· ≤ ·))
    (fun t ht => h t ((List.mem_insertionSort _).1 ht))
    (fun t ht => h' t ((List.mem_insertionSort _).1 ht)) (String.ofList_injective hjoined)
  exact (List.perm_insertionSort (· ≤ ·) ts).symm.trans
    (hsorted ▸ List.perm_insertionSort (· ≤ ·) ts')

/-! ## What is marked as widening -/

theorem mem_ids {lists : List IpList} {id : String} :
    id ∈ ids lists ↔ ∃ l, byId lists id = some l := by
  rw [ids, List.mem_insertionSort, List.mem_eraseDups, List.mem_map, ← Option.isSome_iff_exists,
    byId, List.find?_isSome]
  simp only [List.mem_filter, List.mem_reverse, decide_eq_true_eq, and_assoc]

/-- The tokens of a list's entries. -/
def rangeTexts (l : IpList) : List String := l.ipRanges.map rangeText

/-- The change that is reported for the ranges of two versions. -/
def rangesChange (id : String) (d a : IpList) : Option Change := fieldChange id d a .ipRanges

/-- What is reported for the ranges of a list is the change of its two versions. -/
theorem mem_diffObjects_ipRanges {draft active : List IpList} {id : String} {d a : IpList}
    (hd : byId draft id = some d) (ha : byId active id = some a) {c : Change} :
    (c ∈ diffObjects draft active ipListFields ∧ c.ref = id ∧ c.change = .modified ∧
        c.field = some .ipRanges) ↔ rangesChange id d a = some c := by
  have hfields : ∀ {id' : String} {d' a' : IpList} {f : IpListField},
      fieldChange id' d' a' f = some c → c.ref = id' ∧ c.change = .modified ∧ c.field = some f := by
    intro id' d' a' f hc
    unfold fieldChange at hc
    dsimp only at hc
    split at hc
    · obtain rfl := Option.some.inj hc
      exact ⟨rfl, rfl, rfl⟩
    · cases hc
  constructor
  · rintro ⟨hmem, href, hchange, hfield⟩
    unfold diffObjects at hmem
    simp only [List.mem_append] at hmem
    rcases hmem with (hmem | hmem) | hmem
    · obtain ⟨id', -, hc⟩ := List.mem_flatMap.1 hmem
      obtain ⟨o, -, rfl⟩ := List.mem_map.1 hc
      cases hchange
    · obtain ⟨id', -, hc⟩ := List.mem_flatMap.1 hmem
      obtain ⟨o, -, rfl⟩ := List.mem_map.1 hc
      cases hchange
    · obtain ⟨id', -, hc⟩ := List.mem_flatMap.1 hmem
      split at hc
      · rename_i d' a' hd' ha'
        obtain ⟨f, -, hc⟩ := List.mem_filterMap.1 hc
        obtain ⟨href', -, hfield'⟩ := hfields hc
        obtain rfl := href'.symm.trans href
        obtain rfl := Option.some.inj (hfield'.symm.trans hfield)
        obtain rfl := Option.some.inj (hd'.symm.trans hd)
        obtain rfl := Option.some.inj (ha'.symm.trans ha)
        exact hc
      · exact absurd hc List.not_mem_nil
  · intro hc
    obtain ⟨href, hchange, hfield⟩ := hfields hc
    refine ⟨?_, href, hchange, hfield⟩
    unfold diffObjects
    refine List.mem_append_right _ (List.mem_flatMap.2 ⟨id, ?_, ?_⟩)
    · refine List.mem_filter.2 ⟨mem_ids.2 ⟨d, hd⟩, ?_⟩
      rw [decide_eq_true_eq]
      exact mem_ids.2 ⟨a, ha⟩
    · rw [hd, ha]
      exact List.mem_filterMap.2 ⟨.ipRanges, by simp [ipListFields], hc⟩

/-- A range that the draft has and the active version has not is reported as a widening. -/
theorem rangesChange_of_added {id : String} {d a : IpList}
    (hranges : ∀ r ∈ d.ipRanges ++ a.ipRanges, r.IsAddress)
    (hadded : ∃ t ∈ rangeTexts d, t ∉ rangeTexts a) :
    ∃ c, rangesChange id d a = some c ∧ c.scopeExpanded = true := by
  obtain ⟨t, ht, hnew⟩ := hadded
  have htokens : ∀ l : IpList, (∀ r ∈ l.ipRanges, r.IsAddress) →
      ∀ t ∈ rangeTexts l, t ≠ "" ∧ ',' ∉ t.toList := by
    intro l hl t ht
    obtain ⟨r, hr, rfl⟩ := List.mem_map.1 ht
    exact (hl r hr).token
  have hdiffer : joined (rangeTexts d) ≠ joined (rangeTexts a) := by
    intro hsame
    have hperm := perm_of_joined
      (htokens d fun r hr => hranges r (List.mem_append_left _ hr))
      (htokens a fun r hr => hranges r (List.mem_append_right _ hr)) hsame
    exact hnew (hperm.mem_iff.1 ht)
  have hexpanded : (rangeTexts d).any (· ∉ rangeTexts a) = true :=
    List.any_eq_true.2 ⟨t, ht, by simpa using hnew⟩
  refine ⟨_, if_pos hdiffer, ?_⟩
  exact hexpanded

theorem not_scopeExpanded {id : String} {d a : IpList} {c : Change}
    (hc : rangesChange id d a = some c) (hnone : ∀ t ∈ rangeTexts d, t ∈ rangeTexts a) :
    c.scopeExpanded = false := by
  unfold rangesChange fieldChange at hc
  dsimp only at hc
  split at hc
  · obtain rfl := Option.some.inj hc
    change (rangeTexts d).any (· ∉ rangeTexts a) = false
    simpa using hnone
  · cases hc

/-- When every token of the draft is one of the active version, the draft's inclusions and
exclusions are among those of the active version. -/
theorem subset_of_rangeTexts {d a : List IpRange} (hranges : ∀ r ∈ d ++ a, r.IsAddress)
    (h : ∀ t ∈ d.map rangeText, t ∈ a.map rangeText) :
    (∀ v ∈ inclusions d, v ∈ inclusions a) ∧ ∀ v ∈ exclusions d, v ∈ exclusions a := by
  have hone : ∀ r ∈ d, ∃ r' ∈ a, r'.exclusion = r.exclusion ∧ r'.value = r.value := by
    intro r hr
    obtain ⟨r', hr', htext⟩ := List.mem_map.1 (h _ (List.mem_map_of_mem hr))
    exact ⟨r', hr', (hranges r' (List.mem_append_right _ hr')).eq_of_rangeText
      (hranges r (List.mem_append_left _ hr)) htext⟩
  constructor
  · intro v hv
    obtain ⟨r, hr, hvalue⟩ := List.mem_filterMap.1 hv
    rw [List.mem_filter] at hr
    obtain ⟨r', hr', hexclusion, hsame⟩ := hone r hr.1
    exact List.mem_filterMap.2
      ⟨r', List.mem_filter.2 ⟨hr', by rw [hexclusion]; exact hr.2⟩, hsame.trans hvalue⟩
  · intro v hv
    obtain ⟨r, hr, hvalue⟩ := List.mem_filterMap.1 hv
    rw [List.mem_filter] at hr
    obtain ⟨r', hr', hexclusion, hsame⟩ := hone r hr.1
    exact List.mem_filterMap.2
      ⟨r', List.mem_filter.2 ⟨hr', by rw [hexclusion]; exact hr.2⟩, hsame.trans hvalue⟩

/-- A widening of a list of addresses is always reported as one exactly when the draft has an entry
that the active version has not, or no address of its inclusions that it does not exclude is
excluded by the active version. -/
theorem widening_reported_iff (draft active : List IpList) (id : String) (d a : IpList)
    (hd : byId draft id = some d) (ha : byId active id = some a)
    (hranges : ∀ r ∈ d.ipRanges ++ a.ipRanges, r.IsAddress) :
    ((∃ x, Admits d.ipRanges x ∧ ¬ Admits a.ipRanges x) →
        ∃ c ∈ diffObjects draft active ipListFields, c.ref = id ∧ c.change = .modified ∧
          c.field = some .ipRanges ∧ c.scopeExpanded = true) ↔
      (∃ r ∈ d.ipRanges, rangeText r ∉ a.ipRanges.map rangeText) ∨
        ¬ ∃ x, DenotesAny (inclusions d.ipRanges) x ∧ ¬ DenotesAny (exclusions d.ipRanges) x ∧
          DenotesAny (exclusions a.ipRanges) x := by
  have hreport : (∃ c ∈ diffObjects draft active ipListFields, c.ref = id ∧
      c.change = .modified ∧ c.field = some .ipRanges ∧ c.scopeExpanded = true) ↔
      ∃ c, rangesChange id d a = some c ∧ c.scopeExpanded = true := by
    simp only [← mem_diffObjects_ipRanges hd ha, and_assoc]
  rw [hreport]
  by_cases hadded : ∃ r ∈ d.ipRanges, rangeText r ∉ a.ipRanges.map rangeText
  · have ⟨r, hr, hnew⟩ := hadded
    have hreported : ∃ c, rangesChange id d a = some c ∧ c.scopeExpanded = true :=
      rangesChange_of_added hranges ⟨rangeText r, List.mem_map_of_mem hr, hnew⟩
    exact iff_of_true (fun _ => hreported) (Or.inl hadded)
  · have hnone : ∀ t ∈ rangeTexts d, t ∈ rangeTexts a := by
      intro t ht
      obtain ⟨r, hr, rfl⟩ := List.mem_map.1 ht
      by_contra hnew
      exact hadded ⟨r, hr, hnew⟩
    obtain ⟨hinclusions, -⟩ := subset_of_rangeTexts hranges hnone
    have hsilent : ¬ ∃ c, rangesChange id d a = some c ∧ c.scopeExpanded = true := by
      rintro ⟨c, hc, hexpanded⟩
      rw [not_scopeExpanded hc hnone] at hexpanded
      cases hexpanded
    -- without a new entry, what is newly admitted was excluded before
    have hwidened : (∃ x, Admits d.ipRanges x ∧ ¬ Admits a.ipRanges x) ↔
        ∃ x, DenotesAny (inclusions d.ipRanges) x ∧ ¬ DenotesAny (exclusions d.ipRanges) x ∧
          DenotesAny (exclusions a.ipRanges) x := by
      refine exists_congr fun x => ?_
      rw [admits_iff, admits_iff, and_assoc]
      refine and_congr_right fun ⟨v, hv, hx⟩ => and_congr_right fun _ => ?_
      have hbefore : DenotesAny (inclusions a.ipRanges) x := ⟨v, hinclusions v hv, hx⟩
      rw [not_and, not_not]
      exact ⟨fun h => h hbefore, fun h _ => h⟩
    rw [hwidened]
    constructor
    · exact fun h => Or.inr fun hx => hsilent (h hx)
    · rintro (h | h)
      · exact absurd h hadded
      · exact fun hx => absurd hx h

/-- A list of private addresses, one network of them excluded. -/
def privateButLab : IpList where
  href := "/orgs/1/sec_policy/active/ip_lists/7"
  name := "Private"
  ipRanges := [⟨"10.0.0.0/8", "", false⟩, ⟨"10.1.0.0/16", "", true⟩]
  fqdns := []
  description := ""

/-- Its draft without the exclusion. -/
def privateWithLab : IpList :=
  { privateButLab with href := "/orgs/1/sec_policy/draft/ip_lists/7"
                       ipRanges := [⟨"10.0.0.0/8", "", false⟩] }

/-- The draft admits the network that was excluded, and its change is not marked as widening. -/
theorem dropped_exclusion_unmarked :
    byId [privateWithLab] "7" = some privateWithLab ∧ byId [privateButLab] "7" = some privateButLab ∧
      (∃ x, Admits privateWithLab.ipRanges x ∧ ¬ Admits privateButLab.ipRanges x) ∧
      ∀ c ∈ diffObjects [privateWithLab] [privateButLab] ipListFields, c.scopeExpanded = false := by
  refine ⟨by decide +kernel, by decide +kernel, ⟨.v4 0x0A010001, ?_, ?_⟩, by decide +kernel⟩
  · rw [admits_iff]
    decide +kernel
  · rw [admits_iff]
    decide +kernel

/-- An entry that is added is reported, whatever else the draft changes. -/
theorem widening_reported_added :
    (∃ r ∈ privateButLab.ipRanges, rangeText r ∉ ([] : List IpRange).map rangeText) ∧
      ((∃ x, Admits privateButLab.ipRanges x ∧ ¬ Admits ([] : List IpRange) x) →
        ∃ c ∈ diffObjects [privateButLab] [{ privateButLab with ipRanges := [] }] ipListFields,
          c.ref = "7" ∧ c.change = .modified ∧ c.field = some .ipRanges ∧
            c.scopeExpanded = true) := by
  have hadded : ∃ r ∈ privateButLab.ipRanges, rangeText r ∉ ([] : List IpRange).map rangeText := by
    decide +kernel
  refine ⟨hadded, (widening_reported_iff [privateButLab] [{ privateButLab with ipRanges := [] }] "7"
    privateButLab { privateButLab with ipRanges := [] } (by decide +kernel) (by decide +kernel)
    ?_).2 (Or.inl hadded)⟩
  have hall : ∀ r ∈ privateButLab.ipRanges ++ ([] : List IpRange),
      (r.value.bind network).isSome = true := by decide +kernel
  intro r hr
  obtain ⟨nets, hnets⟩ := Option.isSome_iff_exists.1 (hall r hr)
  obtain ⟨v, hv, hnets⟩ := Option.bind_eq_some_iff.1 hnets
  exact ⟨v, nets, hv, hnets⟩

end IllumioOps.Policy
