import IllumioOps.Tables.Distinct
import Mathlib.Algebra.Order.BigOperators.Group.List
import Mathlib.Data.List.Sort
import Mathlib.Data.String.Basic

/-!
# What a label group contains

`build_label_group_to_labels` of `domain.policy_resolver` and `label_group_values` of
`domain.policy_objects`: two readings of one family of label groups. The first follows the
sub-groups by calling itself with the set of the groups it has met; the second keeps a list of the
groups still to read. Sub-groups may form cycles, share members and refer to groups that the family
does not have.

Both are given fuel, one unit for each call or turn; `LabelGroup.expand_spec` and
`LabelGroup.gather_spec` give the fuel that is enough.
-/

set_option autoImplicit false

namespace IllumioOps.Policy

/-! ## The groups -/

/-- A label group as the PCE gives it. An empty text stands for an `href` that is missing or empty,
of the group or of one of its items; `key` is missing or a text. -/
structure LabelGroup where
  href : String
  key : Option String
  labels : List String
  subGroups : List String
  deriving DecidableEq, Repr

/-- The references of items: those that have one. -/
def refs (items : List String) : List String := items.filter (· ≠ "")

/-- The groups by their reference, in the order they were first put. -/
structure Family where
  groups : List LabelGroup
  distinct : (groups.map LabelGroup.href).Nodup

namespace Family

def find (family : Family) (href : String) : Option LabelGroup :=
  family.groups.find? fun g => g.href = href

/-- Replaces the group of the same reference in its place, or adds the group at the end. -/
def put (family : Family) (group : LabelGroup) : Family where
  groups :=
    if family.groups.any fun g => g.href = group.href then
      family.groups.map fun g => if g.href = group.href then group else g
    else family.groups ++ [group]
  distinct := by
    split
    · have hsame : (family.groups.map fun g => if g.href = group.href then group else g).map
          LabelGroup.href = family.groups.map LabelGroup.href := by
        rw [List.map_map]
        refine List.map_congr_left fun g _ => ?_
        by_cases h : g.href = group.href <;> simp [h]
      rw [hsame]
      exact family.distinct
    · rename_i hnew
      rw [List.map_append, List.nodup_append]
      refine ⟨family.distinct, List.nodup_singleton _, ?_⟩
      intro href hmem other hother
      obtain ⟨g, hg, rfl⟩ := List.mem_map.1 hmem
      obtain rfl : other = group.href := by simpa using hother
      exact fun h => hnew (List.any_eq_true.2 ⟨g, hg, by simpa using h⟩)

/-- `by_href`: the groups that have a reference; of those with the same one, the last. -/
def byHref (groups : List LabelGroup) : Family :=
  (groups.filter fun g => g.href ≠ "").foldl put ⟨[], List.nodup_nil⟩

/-- The references of a group's labels, of none where the family does not have it. -/
def labels (family : Family) (href : String) : List String :=
  ((family.find href).map fun g => refs g.labels).getD []

/-- The references of a group's sub-groups. -/
def subGroups (family : Family) (href : String) : List String :=
  ((family.find href).map fun g => refs g.subGroups).getD []

variable {family : Family} {href : String} {group : LabelGroup}

theorem find_of_mem (h : group ∈ family.groups) : family.find group.href = some group := by
  obtain ⟨found, hfound⟩ : ∃ found, family.find group.href = some found := by
    rw [← Option.isSome_iff_exists]
    exact List.find?_isSome.2 ⟨group, h, by simp⟩
  have hhref : found.href = group.href := by simpa using List.find?_some hfound
  have hmem : found ∈ family.groups := List.mem_of_find?_eq_some hfound
  rw [hfound, List.inj_on_of_nodup_map family.distinct hmem h hhref]

theorem href_of_find (h : family.find href = some group) : group.href = href := by
  simpa using List.find?_some h

theorem mem_of_find (h : family.find href = some group) : group ∈ family.groups :=
  List.mem_of_find?_eq_some h

theorem labels_eq (h : family.find href = some group) : family.labels href = refs group.labels := by
  simp [labels, h]

theorem subGroups_eq (h : family.find href = some group) :
    family.subGroups href = refs group.subGroups := by
  simp [subGroups, h]

/-- The label is reached through the sub-groups, at any depth. -/
inductive Contains (family : Family) : String → String → Prop where
  | label {href label : String} : label ∈ family.labels href → Contains family href label
  | subGroup {href sub label : String} :
      sub ∈ family.subGroups href → Contains family sub label → Contains family href label

/-- A group that contains a label is in the family. -/
theorem Contains.found {label : String} (h : family.Contains href label) :
    ∃ group, family.find href = some group := by
  cases h with
  | label h =>
      rw [← Option.isSome_iff_exists]
      by_contra hnone
      rw [Option.not_isSome_iff_eq_none] at hnone
      simp [labels, hnone] at h
  | subGroup h _ =>
      rw [← Option.isSome_iff_exists]
      by_contra hnone
      rw [Option.not_isSome_iff_eq_none] at hnone
      simp [subGroups, hnone] at h

end Family

namespace LabelGroup

open Family

variable {family : Family}

/-! ## Following the sub-groups by recursion -/

/-- The loop over the sub-groups in `expand`; every call leaves more groups met. -/
def expandEach (expand : String → List String → Option (List String × List String)) :
    List String → List String → Option (List String × List String)
  | [], seen => some ([], seen)
  | sub :: subs, seen => do
      let (labels, seen) ← expand sub seen
      let (more, seen) ← expandEach expand subs seen
      some (labels ++ more, seen)

/-- `expand`: the labels found, and the references met by then. -/
def expand (family : Family) : Nat → String → List String → Option (List String × List String)
  | 0, _, _ => none
  | fuel + 1, href, seen =>
      if href ∈ seen then some ([], seen)
      else
        -- a reference that the family does not have is met too, and has no items
        (expandEach (expand family fuel) (family.subGroups href) (href :: seen)).map
          fun (more, seen) => ((family.labels href ++ more).eraseDups, seen)

/-- `build_label_group_to_labels` -/
def buildLabelGroupToLabels (fuel : Nat) (groups : List LabelGroup) :
    Option (List (String × List String)) :=
  let family := byHref groups
  family.groups.mapM fun g => (expand family fuel g.href []).map fun (labels, _) => (g.href, labels)

/-- A walk from `starts` that found the references of `seen` met and left those of `seen'`: it met
every start and, with a group, all its sub-groups; what it met is below a start; and it gathered the
labels of what it met. -/
structure Walked (family : Family) (starts seen labels seen' : List String) : Prop where
  grows : ∀ h ∈ seen, h ∈ seen'
  reached : ∀ h ∈ starts, h ∈ seen'
  closed : ∀ h ∈ seen', h ∉ seen → ∀ sub ∈ family.subGroups h, sub ∈ seen'
  below : ∀ h ∈ seen', h ∉ seen → ∀ l, family.Contains h l → ∃ s ∈ starts, family.Contains s l
  gathered : ∀ l, l ∈ labels ↔ ∃ h ∈ seen', h ∉ seen ∧ l ∈ family.labels h

namespace Walked

variable {href start : String} {starts seen mid seen' labels more : List String}

theorem nil : Walked family [] seen [] seen where
  grows _ h := h
  reached _ h := absurd h List.not_mem_nil
  closed _ h hnew := absurd h hnew
  below _ h hnew := absurd h hnew
  gathered _ := ⟨fun h => absurd h List.not_mem_nil, fun ⟨_, h, hnew, _⟩ => absurd h hnew⟩

/-- A group met before is left alone. -/
theorem again (h : href ∈ seen) : Walked family [href] seen [] seen :=
  { nil with reached := fun _ hstart => List.mem_singleton.1 hstart ▸ h
             below := fun _ hmem hnew => absurd hmem hnew }

/-- One walk after another. -/
theorem cons (hfirst : Walked family [start] seen labels mid)
    (hrest : Walked family starts mid more seen') :
    Walked family (start :: starts) seen (labels ++ more) seen' where
  grows h hseen := hrest.grows h (hfirst.grows h hseen)
  reached h hstart := by
    rcases List.mem_cons.1 hstart with rfl | hstart
    · exact hrest.grows h (hfirst.reached h List.mem_cons_self)
    · exact hrest.reached h hstart
  closed h hmet hnew sub hsub := by
    by_cases hmid : h ∈ mid
    · exact hrest.grows sub (hfirst.closed h hmid hnew sub hsub)
    · exact hrest.closed h hmet hmid sub hsub
  below h hmet hnew l hl := by
    by_cases hmid : h ∈ mid
    · obtain ⟨s, hs, hcontains⟩ := hfirst.below h hmid hnew l hl
      exact ⟨s, List.mem_cons.2 (Or.inl (List.mem_singleton.1 hs)), hcontains⟩
    · obtain ⟨s, hs, hcontains⟩ := hrest.below h hmet hmid l hl
      exact ⟨s, List.mem_cons_of_mem _ hs, hcontains⟩
  gathered l := by
    rw [List.mem_append, hfirst.gathered, hrest.gathered]
    constructor
    · rintro (⟨h, hmid, hnew, hl⟩ | ⟨h, hmet, hmid, hl⟩)
      · exact ⟨h, hrest.grows h hmid, hnew, hl⟩
      · exact ⟨h, hmet, fun hseen => hmid (hfirst.grows h hseen), hl⟩
    · rintro ⟨h, hmet, hnew, hl⟩
      by_cases hmid : h ∈ mid
      · exact Or.inl ⟨h, hmid, hnew, hl⟩
      · exact Or.inr ⟨h, hmet, hmid, hl⟩

/-- A group met for the first time, and then its sub-groups. -/
theorem node (hsubs : Walked family (family.subGroups href) (href :: seen) more seen')
    (hnew : href ∉ seen) :
    Walked family [href] seen (family.labels href ++ more) seen' where
  grows h hseen := hsubs.grows h (List.mem_cons_of_mem _ hseen)
  reached h hstart := hsubs.grows h (List.mem_singleton.1 hstart ▸ List.mem_cons_self)
  closed h hmet hfresh sub hsub := by
    by_cases hself : h = href
    · exact hsubs.reached sub (hself ▸ hsub)
    · exact hsubs.closed h hmet (by simp [hself, hfresh]) sub hsub
  below h hmet hfresh l hl := by
    refine ⟨href, List.mem_cons_self, ?_⟩
    by_cases hself : h = href
    · exact hself ▸ hl
    · obtain ⟨sub, hsub, hcontains⟩ := hsubs.below h hmet (by simp [hself, hfresh]) l hl
      exact .subGroup hsub hcontains
  gathered l := by
    rw [List.mem_append, hsubs.gathered]
    constructor
    · rintro (hl | ⟨h, hmet, hfresh, hl⟩)
      · exact ⟨href, hsubs.grows href List.mem_cons_self, hnew, hl⟩
      · exact ⟨h, hmet, fun hseen => hfresh (List.mem_cons_of_mem _ hseen), hl⟩
    · rintro ⟨h, hmet, hfresh, hl⟩
      by_cases hself : h = href
      · exact Or.inl (hself ▸ hl)
      · exact Or.inr ⟨h, hmet, by simp [hself, hfresh], hl⟩

theorem eraseDups (h : Walked family starts seen labels seen') :
    Walked family starts seen labels.eraseDups seen' :=
  { h with gathered := fun l => List.mem_eraseDups.trans (h.gathered l) }

/-- A walk from one group that had met nothing gathers what the group contains. -/
theorem mem_iff (h : Walked family [href] [] labels seen') (l : String) :
    l ∈ labels ↔ family.Contains href l := by
  rw [h.gathered]
  constructor
  · rintro ⟨met, hmet, hnew, hl⟩
    obtain ⟨s, hs, hcontains⟩ := h.below met hmet hnew l (.label hl)
    exact List.mem_singleton.1 hs ▸ hcontains
  · -- from one group that was met to the next, down to the label
    have hdown : ∀ top, family.Contains top l → top ∈ seen' →
        ∃ met ∈ seen', met ∉ ([] : List String) ∧ l ∈ family.labels met := by
      intro top hcontains
      induction hcontains with
      | label hl => exact fun hmet => ⟨_, hmet, List.not_mem_nil, hl⟩
      | subGroup hsub _ ih => exact fun hmet => ih (h.closed _ hmet List.not_mem_nil _ hsub)
    exact fun hcontains => hdown href hcontains (h.reached href List.mem_cons_self)

end Walked

/-- The groups of the family not met yet. -/
def unmet (family : Family) (seen : List String) : Nat :=
  family.groups.countP fun g => g.href ∉ seen

theorem unmet_le {seen seen' : List String} (h : ∀ href ∈ seen, href ∈ seen') :
    unmet family seen' ≤ unmet family seen :=
  List.countP_mono_left fun g _ hnew => by
    rw [decide_eq_true_eq] at hnew ⊢
    exact fun hmem => hnew (h _ hmem)

theorem unmet_lt {seen : List String} {href : String} {group : LabelGroup}
    (hfind : family.find href = some group) (hnew : href ∉ seen) :
    unmet family (href :: seen) < unmet family seen := by
  obtain rfl := href_of_find hfind
  have hperm := List.perm_cons_erase (mem_of_find hfind)
  have hrest : (family.groups.erase group).countP (fun g => g.href ∉ group.href :: seen) ≤
      (family.groups.erase group).countP fun g => g.href ∉ seen :=
    List.countP_mono_left fun g _ hg => by
      rw [decide_eq_true_eq] at hg ⊢
      exact fun hmem => hg (List.mem_cons_of_mem _ hmem)
  rw [unmet, unmet, hperm.countP_eq, hperm.countP_eq, List.countP_cons_of_neg (by simp),
    List.countP_cons_of_pos (by simpa using hnew)]
  omega

/-- The loop, when every call of its body walks. -/
theorem expandEach_spec {expand : String → List String → Option (List String × List String)}
    {limit : Nat}
    (hexpand : ∀ sub seen, unmet family seen < limit →
      ∃ labels seen', expand sub seen = some (labels, seen') ∧
        Walked family [sub] seen labels seen')
    (subs seen : List String) (hlimit : unmet family seen < limit) :
    ∃ labels seen', expandEach expand subs seen = some (labels, seen') ∧
      Walked family subs seen labels seen' := by
  induction subs generalizing seen with
  | nil => exact ⟨[], seen, rfl, .nil⟩
  | cons sub subs ih =>
      obtain ⟨labels, mid, hfirst, hwalked⟩ := hexpand sub seen hlimit
      have hless : unmet family mid < limit := (unmet_le hwalked.grows).trans_lt hlimit
      obtain ⟨more, seen', hrest, hwalked'⟩ := ih mid hless
      exact ⟨labels ++ more, seen', by simp [expandEach, hfirst, hrest], hwalked.cons hwalked'⟩

/-- With more fuel than there are groups left to meet, `expand` returns, and walked. -/
theorem expand_spec (fuel : Nat) (href : String) (seen : List String)
    (hfuel : unmet family seen < fuel) :
    ∃ labels seen', expand family fuel href seen = some (labels, seen') ∧
      Walked family [href] seen labels seen' := by
  induction fuel generalizing href seen with
  | zero => omega
  | succ fuel ih =>
      by_cases hseen : href ∈ seen
      · exact ⟨[], seen, by simp [expand, hseen], .again hseen⟩
      · cases hfind : family.find href with
        | none =>
            -- nothing to follow
            have hsubs : family.subGroups href = [] := by simp [Family.subGroups, hfind]
            have hwalked : Walked family (family.subGroups href) (href :: seen) [] (href :: seen) := by
              rw [hsubs]
              exact .nil
            refine ⟨_, _, ?_, (hwalked.node hseen).eraseDups⟩
            simp [expand, hseen, hsubs, expandEach]
        | some group =>
            have hless := unmet_lt hfind hseen
            obtain ⟨more, seen', heach, hwalked⟩ := expandEach_spec ih (family.subGroups href)
              (href :: seen) (by omega)
            refine ⟨_, seen', ?_, (hwalked.node hseen).eraseDups⟩
            simp [expand, hseen, heach]

/-- More fuel changes nothing. -/
theorem expand_succ (fuel : Nat) (href : String) (seen : List String)
    (out : List String × List String) (h : expand family fuel href seen = some out) :
    expand family (fuel + 1) href seen = some out := by
  induction fuel generalizing href seen out with
  | zero => simp [expand] at h
  | succ fuel ih =>
      have heach : ∀ subs seen out, expandEach (expand family fuel) subs seen = some out →
          expandEach (expand family (fuel + 1)) subs seen = some out := by
        intro subs
        induction subs with
        | nil => exact fun seen out hout => hout
        | cons sub subs ihsubs =>
            intro seen out hout
            simp only [expandEach, Option.bind_eq_bind, Option.bind_eq_some_iff] at hout ⊢
            obtain ⟨first, hfirst, rest, hrest, hout⟩ := hout
            exact ⟨first, ih _ _ _ hfirst, rest, ihsubs _ _ hrest, hout⟩
      rw [expand] at h ⊢
      by_cases hseen : href ∈ seen
      · rwa [if_pos hseen] at h ⊢
      · rw [if_neg hseen] at h ⊢
        obtain ⟨met, hmet, rfl⟩ := Option.map_eq_some_iff.1 h
        rw [heach _ _ _ hmet, Option.map_some]

/-- What `expand` returns repeats no label. -/
theorem nodup_expand {fuel : Nat} {href : String} {seen labels seen' : List String}
    (h : expand family fuel href seen = some (labels, seen')) : labels.Nodup := by
  cases fuel with
  | zero => simp [expand] at h
  | succ fuel =>
      unfold expand at h
      split at h
      · obtain ⟨rfl, -⟩ := by simpa using h
        exact List.nodup_nil
      · obtain ⟨⟨more, met⟩, -, hout⟩ := Option.map_eq_some_iff.1 h
        obtain ⟨rfl, -⟩ := Prod.ext_iff.1 hout
        exact Tables.nodup_eraseDups _

/-! ## Reading the groups from a list -/

/-- The key and the value of a label. -/
abbrev Labels : Type := String → Option (String × String)

/-- The values of the labels that have the key. -/
def valuesOfKey (labels : Labels) (key : Option String) (hrefs : List String) : List String :=
  hrefs.filterMap fun ref =>
    match labels ref with
    | some (labelKey, value) => if key = some labelKey then some value else none
    | none => none

/-- The loop of `label_group_values`: the values when nothing is left to do. The list is a stack,
its top first. -/
def gather (family : Family) (labels : Labels) (key : Option String) :
    Nat → List LabelGroup → List String → List String → Option (List String)
  | _, [], _, values => some values
  | 0, _ :: _, _, _ => none
  | fuel + 1, g :: todo, seen, values =>
      if g.href ∈ seen then gather family labels key fuel todo seen values
      else
        gather family labels key fuel (((refs g.subGroups).filterMap family.find).reverse ++ todo)
          (g.href :: seen) (valuesOfKey labels key (refs g.labels) ∪ values)

/-- `label_group_values` -/
def labelGroupValues (fuel : Nat) (group : LabelGroup) (family : Family) (labels : Labels) :
    Option (List String) :=
  (gather family labels group.key fuel [group] [] []).map (List.insertionSort (· ≤ ·))

variable {labels : Labels} {key : Option String}

theorem mem_valuesOfKey {hrefs : List String} {v : String} :
    v ∈ valuesOfKey labels key hrefs ↔
      ∃ l ∈ hrefs, ∃ k, labels l = some (k, v) ∧ key = some k := by
  rw [valuesOfKey, List.mem_filterMap]
  refine exists_congr fun l => and_congr_right fun _ => ?_
  cases hl : labels l with
  | none => simp
  | some label =>
      obtain ⟨labelKey, value⟩ := label
      by_cases hkey : key = some labelKey
      · simp [hkey, eq_comm]
      · simp only [hkey, if_false, Option.some.injEq, Prod.mk.injEq]
        constructor
        · exact fun h => absurd h (by simp)
        · rintro ⟨k, ⟨rfl, -⟩, h⟩
          exact absurd h hkey

/-- Where the loop stands: the start was met or is still to do; so is every sub-group of what was
met; all of it is below the start; and the values are those of what was met. -/
structure Gathered (family : Family) (labels : Labels) (start : LabelGroup) (todo : List LabelGroup)
    (seen values : List String) : Prop where
  known : ∀ g ∈ todo, g ∈ family.groups
  reached : start.href ∈ seen ∨ start ∈ todo
  closed : ∀ h ∈ seen, ∀ sub ∈ family.subGroups h, ∀ g, family.find sub = some g →
    sub ∈ seen ∨ g ∈ todo
  below : ∀ h, h ∈ seen ∨ h ∈ todo.map LabelGroup.href →
    ∀ l, family.Contains h l → family.Contains start.href l
  gathered : ∀ v, v ∈ values ↔
    ∃ h ∈ seen, v ∈ valuesOfKey labels start.key (family.labels h)
  nodup : values.Nodup

namespace Gathered

variable {start g : LabelGroup} {todo : List LabelGroup} {seen values : List String}

theorem initial (h : start ∈ family.groups) : Gathered family labels start [start] [] [] where
  known _ hg := List.mem_singleton.1 hg ▸ h
  reached := Or.inr List.mem_cons_self
  closed _ h := absurd h List.not_mem_nil
  below h hmem l hl := by
    obtain rfl : h = start.href := by simpa using hmem
    exact hl
  gathered v := ⟨fun h => absurd h List.not_mem_nil, fun ⟨_, h, _⟩ => absurd h List.not_mem_nil⟩
  nodup := List.nodup_nil

/-- A group met before is dropped. -/
theorem drop (h : Gathered family labels start (g :: todo) seen values) (hseen : g.href ∈ seen) :
    Gathered family labels start todo seen values where
  known k hk := h.known k (List.mem_cons_of_mem _ hk)
  reached := by
    rcases h.reached with hstart | hstart
    · exact Or.inl hstart
    · rcases List.mem_cons.1 hstart with rfl | hstart
      · exact Or.inl hseen
      · exact Or.inr hstart
  closed met hmet sub hsub k hfind := by
    rcases h.closed met hmet sub hsub k hfind with hsub | hk
    · exact Or.inl hsub
    · rcases List.mem_cons.1 hk with rfl | hk
      · exact Or.inl (href_of_find hfind ▸ hseen)
      · exact Or.inr hk
  below met hmet := h.below met (hmet.imp_right fun hmem => by simp [hmem])
  gathered := h.gathered
  nodup := h.nodup

/-- A group met for the first time is read, and its sub-groups are left to do. -/
theorem read (h : Gathered family labels start (g :: todo) seen values) :
    Gathered family labels start (((refs g.subGroups).filterMap family.find).reverse ++ todo)
      (g.href :: seen) (valuesOfKey labels start.key (refs g.labels) ∪ values) := by
  have hfind : family.find g.href = some g := find_of_mem (h.known g List.mem_cons_self)
  have hmem : ∀ sub ∈ family.subGroups g.href, ∀ k, family.find sub = some k →
      k ∈ ((refs g.subGroups).filterMap family.find).reverse := by
    intro sub hsub k hk
    rw [subGroups_eq hfind] at hsub
    exact List.mem_reverse.2 (List.mem_filterMap.2 ⟨sub, hsub, hk⟩)
  constructor
  · -- known
    intro k hk
    rcases List.mem_append.1 hk with hk | hk
    · obtain ⟨sub, -, hsub⟩ := List.mem_filterMap.1 (List.mem_reverse.1 hk)
      exact mem_of_find hsub
    · exact h.known k (List.mem_cons_of_mem _ hk)
  · -- reached
    rcases h.reached with hstart | hstart
    · exact Or.inl (List.mem_cons_of_mem _ hstart)
    · rcases List.mem_cons.1 hstart with rfl | hstart
      · exact Or.inl List.mem_cons_self
      · exact Or.inr (List.mem_append_right _ hstart)
  · -- closed
    intro met hmet sub hsub k hk
    rcases List.mem_cons.1 hmet with rfl | hmet
    · exact Or.inr (List.mem_append_left _ (hmem sub hsub k hk))
    · rcases h.closed met hmet sub hsub k hk with hsub | htodo
      · exact Or.inl (List.mem_cons_of_mem _ hsub)
      · rcases List.mem_cons.1 htodo with rfl | htodo
        · exact Or.inl (href_of_find hk ▸ List.mem_cons_self)
        · exact Or.inr (List.mem_append_right _ htodo)
  · -- below
    have hstart := h.below g.href (Or.inr (by simp))
    intro met hmet l hl
    rcases hmet with hmet | hmet
    · rcases List.mem_cons.1 hmet with rfl | hmet
      · exact hstart l hl
      · exact h.below met (Or.inl hmet) l hl
    · rw [List.map_append, List.mem_append] at hmet
      rcases hmet with hmet | hmet
      · obtain ⟨k, hk, rfl⟩ := List.mem_map.1 hmet
        obtain ⟨sub, hsub, hfound⟩ := List.mem_filterMap.1 (List.mem_reverse.1 hk)
        obtain rfl := href_of_find hfound
        exact hstart l (.subGroup (subGroups_eq hfind ▸ hsub) hl)
      · exact h.below met (Or.inr (by simp [hmet])) l hl
  · -- gathered
    intro v
    rw [List.mem_union_iff, h.gathered, ← labels_eq hfind]
    constructor
    · rintro (hv | ⟨met, hmet, hv⟩)
      · exact ⟨g.href, List.mem_cons_self, hv⟩
      · exact ⟨met, List.mem_cons_of_mem _ hmet, hv⟩
    · rintro ⟨met, hmet, hv⟩
      rcases List.mem_cons.1 hmet with rfl | hmet
      · exact Or.inl hv
      · exact Or.inr ⟨met, hmet, hv⟩
  · exact h.nodup.union _

/-- With nothing left to do, the values are those of the labels that the start contains. -/
theorem mem_iff (h : Gathered family labels start [] seen values) (v : String) :
    v ∈ values ↔
      ∃ l, family.Contains start.href l ∧ ∃ k, labels l = some (k, v) ∧ start.key = some k := by
  have hdown : ∀ top l, family.Contains top l → top ∈ seen →
      ∃ met ∈ seen, l ∈ family.labels met := by
    intro top l hcontains
    induction hcontains with
    | label hl => exact fun hmet => ⟨_, hmet, hl⟩
    | subGroup hsub hcontains ih =>
        intro hmet
        obtain ⟨g, hg⟩ := hcontains.found
        exact ih ((h.closed _ hmet _ hsub g hg).resolve_right List.not_mem_nil)
  rw [h.gathered]
  constructor
  · rintro ⟨met, hmet, hv⟩
    obtain ⟨l, hl, hvalue⟩ := mem_valuesOfKey.1 hv
    exact ⟨l, h.below met (Or.inl hmet) l (.label hl), hvalue⟩
  · rintro ⟨l, hcontains, hvalue⟩
    have hstart := h.reached.resolve_right List.not_mem_nil
    obtain ⟨met, hmet, hl⟩ := hdown start.href l hcontains hstart
    exact ⟨met, hmet, mem_valuesOfKey.2 ⟨l, hl, hvalue⟩⟩

end Gathered

/-- The sub-groups of the groups not met yet. -/
def pending (family : Family) (seen : List String) : Nat :=
  (family.groups.map fun g => if g.href ∈ seen then 0 else (refs g.subGroups).length).sum

theorem pending_cons {g : LabelGroup} {seen : List String} (hg : g ∈ family.groups)
    (hnew : g.href ∉ seen) :
    pending family (g.href :: seen) + (refs g.subGroups).length ≤ pending family seen := by
  have hperm := List.perm_cons_erase hg
  rw [pending, pending, (hperm.map _).sum_eq, (hperm.map _).sum_eq]
  have hrest : ((family.groups.erase g).map fun k =>
        if k.href ∈ g.href :: seen then 0 else (refs k.subGroups).length).sum ≤
      ((family.groups.erase g).map fun k =>
        if k.href ∈ seen then 0 else (refs k.subGroups).length).sum := by
    refine List.sum_le_sum fun k _ => ?_
    by_cases hk : k.href ∈ seen
    · simp [hk]
    · rw [if_neg hk]
      split <;> omega
  simp only [List.map_cons, List.sum_cons, List.mem_cons, true_or, if_true, if_neg hnew] at hrest ⊢
  omega

/-- With fuel for what is left to do and what may still be added to it, the loop ends. -/
theorem gather_spec {start : LabelGroup} {fuel : Nat} {todo : List LabelGroup}
    {seen values : List String} (h : Gathered family labels start todo seen values)
    (hfuel : todo.length + pending family seen ≤ fuel) :
    ∃ seen' values', gather family labels start.key fuel todo seen values = some values' ∧
      Gathered family labels start [] seen' values' := by
  induction fuel generalizing todo seen values with
  | zero =>
      obtain rfl : todo = [] := List.length_eq_zero_iff.1 (by omega)
      exact ⟨seen, values, rfl, h⟩
  | succ fuel ih =>
      cases todo with
      | nil => exact ⟨seen, values, rfl, h⟩
      | cons g todo =>
          rw [List.length_cons] at hfuel
          by_cases hseen : g.href ∈ seen
          · obtain ⟨seen', values', hloop, hdone⟩ := ih (h.drop hseen) (by omega)
            exact ⟨seen', values', by rw [gather, if_pos hseen, hloop], hdone⟩
          · have hadded := pending_cons (h.known g List.mem_cons_self) hseen
            have hfound := List.length_filterMap_le family.find (refs g.subGroups)
            obtain ⟨seen', values', hloop, hdone⟩ := ih h.read (by
              rw [List.length_append, List.length_reverse]
              omega)
            exact ⟨seen', values', by rw [gather, if_neg hseen, hloop], hdone⟩

/-- More fuel changes nothing. -/
theorem gather_succ {fuel : Nat} {todo : List LabelGroup} {seen values values' : List String}
    (h : gather family labels key fuel todo seen values = some values') :
    gather family labels key (fuel + 1) todo seen values = some values' := by
  induction fuel generalizing todo seen values with
  | zero =>
      cases todo with
      | nil => exact h
      | cons g todo => simp [gather] at h
  | succ fuel ih =>
      cases todo with
      | nil => exact h
      | cons g todo =>
          rw [gather] at h ⊢
          by_cases hseen : g.href ∈ seen
          · rw [if_pos hseen] at h ⊢
            exact ih h
          · rw [if_neg hseen] at h ⊢
            exact ih h

/-! ## The two readings agree -/

theorem gather_of_le {fuel fuel' : Nat} {todo : List LabelGroup} {seen values values' : List String}
    (hle : fuel ≤ fuel') (h : gather family labels key fuel todo seen values = some values') :
    gather family labels key fuel' todo seen values = some values' := by
  induction hle with
  | refl => exact h
  | step _ ih => exact gather_succ ih

theorem expand_of_le {fuel fuel' : Nat} {href : String} {seen : List String}
    {out : List String × List String} (hle : fuel ≤ fuel')
    (h : expand family fuel href seen = some out) : expand family fuel' href seen = some out := by
  induction hle with
  | refl => exact h
  | step _ ih => exact expand_succ _ _ _ _ ih

/-- The members that `expand` finds for a group. -/
theorem expand_members (family : Family) (href : String) :
    ∃ members, (∀ fuel, family.groups.length < fuel →
        (expand family fuel href []).map Prod.fst = some members) ∧
      members.Nodup ∧ ∀ l, l ∈ members ↔ family.Contains href l := by
  have hunmet : unmet family [] < family.groups.length + 1 :=
    Nat.lt_succ_of_le List.countP_le_length
  obtain ⟨members, seen, hexpand, hwalked⟩ := expand_spec _ href [] hunmet
  refine ⟨members, fun fuel hfuel => ?_, nodup_expand hexpand, hwalked.mem_iff⟩
  rw [expand_of_le hfuel hexpand, Option.map_some]

/-- The values that the loop finds for a group. -/
theorem labelGroupValues_members {family : Family} (labels : Labels) {g : LabelGroup}
    (hg : g ∈ family.groups) :
    ∃ values, (∀ turns, pending family [] < turns →
        labelGroupValues turns g family labels = some values) ∧
      values.Pairwise (· < ·) ∧
      ∀ v, v ∈ values ↔
        ∃ l, family.Contains g.href l ∧ ∃ k, labels l = some (k, v) ∧ g.key = some k := by
  obtain ⟨seen, values, hgather, hdone⟩ := gather_spec (.initial hg : Gathered family labels g _ _ _)
    (Nat.le_refl ([g].length + pending family []))
  refine ⟨values.insertionSort (· ≤ ·), fun turns hturns => ?_, ?_, fun v => ?_⟩
  · rw [labelGroupValues, gather_of_le _ hgather, Option.map_some]
    rw [List.length_singleton]
    omega
  · have hsorted := List.pairwise_insertionSort (· ≤ ·) values
    have hnodup := (List.perm_insertionSort (· ≤ ·) values).nodup_iff.2 hdone.nodup
    exact (hsorted.and hnodup).imp fun h => lt_of_le_of_ne h.1 h.2
  · rw [List.mem_insertionSort]
    exact hdone.mem_iff v

end LabelGroup

end IllumioOps.Policy
