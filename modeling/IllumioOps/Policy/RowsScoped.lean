import IllumioOps.Policy.RowsCounted
import Mathlib.Data.List.Dedup

/-!
# What the rows of a rule set open

What a rule set means is said apart from how it is expanded: which addresses a scope has
(`InScope`), which peers a side has (`SideHas`), and from where to where a rule opens a service
(`Opens`). A rule set is unscoped when it has no scope, or one without labels. The rows say exactly
this, and the rule set is taken as unscoped only when it is, provided no scope consists of nothing
but exclusions that resolve to no address (`rows_exact_iff`).
-/

set_option autoImplicit false

namespace IllumioOps.Policy

open Ipaddress

/-! ## Peers -/

/-- What a text of a row stands for: addresses, or itself when it is not one. -/
inductive Peer where
  | address (a : Address)
  | name (text : String)

def Stands (v : String) : Peer → Prop
  | .address a => Denotes v a
  | .name text => v = text ∧ network text = none

theorem stands_subtract (values excludes : List String) (peer : Peer) :
    (∃ v ∈ subtract values excludes, Stands v peer) ↔
      (∃ v ∈ values, Stands v peer) ∧ ¬ ∃ v ∈ excludes, Stands v peer := by
  cases peer with
  | address a => exact denotesAny_subtract values excludes a
  | name text =>
      by_cases hname : network text = none
      · have hsame : ∀ vs : List String, (∃ v ∈ vs, Stands v (.name text)) ↔ text ∈ vs := by
          intro vs
          constructor
          · rintro ⟨v, hv, rfl, -⟩
            exact hv
          · exact fun h => ⟨text, h, rfl, hname⟩
        rw [hsame, hsame, hsame]
        exact mem_subtract_of_none hname
      · have hnone : ∀ vs : List String, ¬ ∃ v ∈ vs, Stands v (.name text) := by
          rintro vs ⟨v, -, -, h⟩
          exact hname h
        exact iff_of_false (hnone _) fun h => hnone _ h.1

/-! ## Sets by key -/

theorem mem_groupByKey {entries : List (String × List String)} {s : List String} :
    s ∈ groupByKey entries ↔
      ∃ e ∈ entries, s = (entries.filter fun e' => e'.1 = e.1).flatMap Prod.snd := by
  simp only [groupByKey, List.mem_map, List.mem_eraseDups]
  constructor
  · rintro ⟨key, ⟨e, he, rfl⟩, rfl⟩
    exact ⟨e, he, rfl⟩
  · rintro ⟨e, he, rfl⟩
    exact ⟨e.1, ⟨e, he, rfl⟩, rfl⟩

theorem groupByKey_eq_nil {entries : List (String × List String)} :
    groupByKey entries = [] ↔ entries = [] := by
  cases entries with
  | nil => simp [groupByKey]
  | cons e entries => simp [groupByKey, List.eraseDups_cons]

theorem mem_intersection {sets : List (List String)} {ip : String} :
    ip ∈ intersection sets ↔ sets ≠ [] ∧ ∀ s ∈ sets, ip ∈ s := by
  cases sets with
  | nil => simp [intersection]
  | cons s rest => simp [intersection, List.mem_filter]

/-- Different keys all have the address, in one of the sets of the key. -/
theorem mem_intersection_groupByKey {entries : List (String × List String)} {ip : String} :
    ip ∈ intersection (groupByKey entries) ↔
      entries ≠ [] ∧ ∀ e ∈ entries, ∃ e' ∈ entries, e'.1 = e.1 ∧ ip ∈ e'.2 := by
  rw [mem_intersection, ne_eq, groupByKey_eq_nil]
  refine and_congr_right fun _ => ?_
  constructor
  · intro h e he
    have hip := h _ (mem_groupByKey.2 ⟨e, he, rfl⟩)
    obtain ⟨e', he', hip⟩ := List.mem_flatMap.1 hip
    rw [List.mem_filter, decide_eq_true_eq] at he'
    exact ⟨e', he'.1, he'.2, hip⟩
  · intro h s hs
    obtain ⟨e, he, rfl⟩ := mem_groupByKey.1 hs
    obtain ⟨e', he', hkey, hip⟩ := h e he
    exact List.mem_flatMap.2 ⟨e', List.mem_filter.2 ⟨he', by simpa using hkey⟩, hip⟩

/-! ## Scopes -/

/-- The entry is a label or a label group, not excluded, of the key. -/
def Actor.Includes (a : Actor) (href : String) : Prop :=
  a.exclusion = false ∧ a.ref.labelHref = some href

/-- Of one included label of every key: different keys are all required, within a key one is. -/
def AcrossKeys (lk : Lookups) (keyOf : String → String) (actors : List Actor) (ip : String) : Prop :=
  (∃ a ∈ actors, ∃ href, a.Includes href) ∧
    ∀ a ∈ actors, ∀ href, a.Includes href → ∃ b ∈ actors, ∃ href', b.Includes href' ∧
      keyOf href' = keyOf href ∧ ip ∈ lk.actorIps b

/-- A scope without labels and label groups narrows nothing. -/
def IsAll (scope : List Actor) : Prop := ∀ e ∈ scope, e.ref.labelHref = none

/-- The rule set is not scoped. -/
def Unscoped (scopes : List (List Actor)) : Prop := scopes = [] ∨ ∃ scope ∈ scopes, IsAll scope

/-- A workload address of the scope: of one label of every key that is included, and of none that is
excluded. -/
def InScope (lk : Lookups) (scope : List Actor) (ip : String) : Prop :=
  AcrossKeys lk (fun href => lk.keyOf href href) scope ip ∧
    ∀ e ∈ scope, e.exclusion = true → e.ref.labelHref.isSome = true → ip ∉ lk.actorIps e

/-- Nothing but exclusions, which resolve to no address. -/
def ExcludesNothing (lk : Lookups) (scope : List Actor) : Prop :=
  ∀ e ∈ scope, e.ref.labelHref.isSome = true → e.exclusion = true ∧ lk.actorIps e = []

variable {lk : Lookups} {rs : RuleSet} {scope actors : List Actor} {ip : String}
  {scopes : List (List Actor)} {keyOf : String → String}

/-- The included labels with their keys and addresses. -/
def labelEntries (lk : Lookups) (keyOf : String → String) (actors : List Actor) :
    List (String × List String) :=
  actors.filterMap fun a =>
    if a.exclusion then none else a.ref.labelHref.map fun href => (keyOf href, lk.actorIps a)

theorem mem_labelEntries {e : String × List String} :
    e ∈ labelEntries lk keyOf actors ↔
      ∃ a ∈ actors, ∃ href, a.Includes href ∧ e = (keyOf href, lk.actorIps a) := by
  rw [labelEntries, List.mem_filterMap]
  refine exists_congr fun a => and_congr_right fun _ => ?_
  cases hexclusion : a.exclusion <;> cases hhref : a.ref.labelHref <;>
    simp [Actor.Includes, hexclusion, hhref, eq_comm]

theorem labelEntries_eq_nil :
    labelEntries lk keyOf actors = [] ↔ ¬ ∃ a ∈ actors, ∃ href, a.Includes href := by
  rw [List.eq_nil_iff_forall_not_mem]
  constructor
  · rintro h ⟨a, ha, href, hincludes⟩
    exact h _ (mem_labelEntries.2 ⟨a, ha, href, hincludes, rfl⟩)
  · rintro h e he
    obtain ⟨a, ha, href, hincludes, -⟩ := mem_labelEntries.1 he
    exact h ⟨a, ha, href, hincludes⟩

theorem mem_intersection_labelEntries :
    ip ∈ intersection (groupByKey (labelEntries lk keyOf actors)) ↔
      AcrossKeys lk keyOf actors ip := by
  rw [mem_intersection_groupByKey, ne_eq, labelEntries_eq_nil, not_not]
  refine and_congr_right fun _ => ?_
  constructor
  · intro h a ha href hincludes
    obtain ⟨e, he, hkey, hip⟩ := h _ (mem_labelEntries.2 ⟨a, ha, href, hincludes, rfl⟩)
    obtain ⟨b, hb, href', hincludes', rfl⟩ := mem_labelEntries.1 he
    exact ⟨b, hb, href', hincludes', hkey, hip⟩
  · intro h e he
    obtain ⟨a, ha, href, hincludes, rfl⟩ := mem_labelEntries.1 he
    obtain ⟨b, hb, href', hincludes', hkey, hip⟩ := h a ha href hincludes
    exact ⟨_, mem_labelEntries.2 ⟨b, hb, href', hincludes', rfl⟩, hkey, hip⟩

theorem mem_scopeExclusions :
    ip ∈ scopeExclusions lk scope ↔
      ∃ e ∈ scope, e.exclusion = true ∧ e.ref.labelHref.isSome = true ∧ ip ∈ lk.actorIps e := by
  simp [scopeExclusions, List.mem_flatMap, List.mem_filter, and_assoc]

/-- The set of a scope has the addresses of the scope. -/
theorem mem_of_scopeSet {s : List String} (h : scopeSet lk scope = some s) :
    ip ∈ s ↔ InScope lk scope ip := by
  unfold scopeSet at h
  dsimp only at h
  split at h
  · cases h
  · obtain rfl := Option.some.inj h
    have hentries := @mem_intersection_labelEntries lk scope ip fun href => lk.keyOf href href
    rw [List.mem_filter, decide_eq_true_eq, mem_scopeExclusions, InScope, ← hentries]
    refine and_congr_right fun _ => ?_
    simp only [not_exists, not_and]

/-- A scope has no set when it is one of all, or has exclusions without addresses only. -/
theorem scopeSet_eq_none : scopeSet lk scope = none ↔ ExcludesNothing lk scope := by
  have hnone : scopeSet lk scope = none ↔
      labelEntries lk (fun href => lk.keyOf href href) scope = [] ∧ scopeExclusions lk scope = [] := by
    rw [← groupByKey_eq_nil]
    unfold scopeSet
    dsimp only
    split
    · rename_i h
      exact iff_of_true rfl h
    · rename_i h
      exact iff_of_false (by simp) h
  rw [hnone, labelEntries_eq_nil, List.eq_nil_iff_forall_not_mem]
  simp only [mem_scopeExclusions]
  constructor
  · rintro ⟨hincluded, hexcluded⟩ e he hlabel
    obtain ⟨href, hhref⟩ := Option.isSome_iff_exists.1 hlabel
    have hexclusion : e.exclusion = true := by
      by_contra h
      exact hincluded ⟨e, he, href, by simpa using h, hhref⟩
    refine ⟨hexclusion, List.eq_nil_iff_forall_not_mem.2 fun ip hip => ?_⟩
    exact hexcluded ip ⟨e, he, hexclusion, hlabel, hip⟩
  · intro h
    constructor
    · rintro ⟨e, he, href, hexclusion, hhref⟩
      have hexcluded := (h e he (by simp [hhref])).1
      rw [hexclusion] at hexcluded
      cases hexcluded
    · rintro ip ⟨e, he, -, hlabel, hip⟩
      rw [(h e he hlabel).2] at hip
      exact absurd hip List.not_mem_nil

theorem IsAll.excludesNothing (h : IsAll scope) : ExcludesNothing lk scope := fun e he hlabel => by
  rw [h e he] at hlabel
  cases hlabel

/-- A scope whose included labels resolve to no address contributes none, and only a rule set that is
not scoped is taken as such. -/
def ScopesKept (lk : Lookups) (scopes : List (List Actor)) : Prop :=
  (∀ scope ∈ scopes, (∀ e ∈ scope, ∀ href, e.Includes href → lk.actorIps e = []) →
      ∀ ip, ip ∉ (scopeSet lk scope).getD []) ∧
    (scopeSets lk scopes = none → Unscoped scopes)

theorem mapM_eq_none {α β : Type} {f : α → Option β} {xs : List α} :
    xs.mapM f = none ↔ ∃ x ∈ xs, f x = none := by
  induction xs with
  | nil => simp
  | cons x xs ih =>
      rw [List.mapM_cons]
      cases hx : f x with
      | none => simp [hx]
      | some y =>
          cases hrest : xs.mapM f with
          | none => simpa [hx, hrest] using ih.1 hrest
          | some ys =>
              have hno : ¬ ∃ x ∈ xs, f x = none := fun h => by simp [ih.2 h] at hrest
              simpa [hx, hrest] using hno

theorem scopeSets_eq_none :
    scopeSets lk scopes = none ↔ scopes = [] ∨ ∃ scope ∈ scopes, ExcludesNothing lk scope := by
  simp only [← scopeSet_eq_none]
  rw [← mapM_eq_none]
  unfold scopeSets
  cases hsets : scopes.mapM (scopeSet lk) with
  | none => simp
  | some sets =>
      have hlength := (of_mapM_eq_some hsets).1
      cases sets with
      | nil =>
          have hnil : scopes = [] := List.length_eq_zero_iff.1 hlength.symm
          simp [hnil]
      | cons s sets =>
          have hne : scopes ≠ [] := by
            rintro rfl
            cases hlength
          simp [hne]

/-- The scopes are kept exactly when one is of all, or none has exclusions without addresses
only. -/
theorem scopesKept_iff :
    ScopesKept lk scopes ↔ Unscoped scopes ∨ ∀ scope ∈ scopes, ¬ ExcludesNothing lk scope := by
  have hempty : ∀ scope ∈ scopes, (∀ e ∈ scope, ∀ href, e.Includes href → lk.actorIps e = []) →
      ∀ ip, ip ∉ (scopeSet lk scope).getD [] := by
    intro scope _ hnone ip hip
    cases hset : scopeSet lk scope with
    | none => simp [hset] at hip
    | some s =>
        rw [hset, Option.getD_some, mem_of_scopeSet hset] at hip
        obtain ⟨⟨a, ha, href, hincludes⟩, hall⟩ := hip.1
        obtain ⟨b, hb, href', hincludes', -, hmem⟩ := hall a ha href hincludes
        rw [hnone b hb href' hincludes'] at hmem
        exact absurd hmem List.not_mem_nil
  unfold ScopesKept
  rw [and_iff_right hempty, scopeSets_eq_none]
  constructor
  · intro h
    by_cases hbad : ∃ scope ∈ scopes, ExcludesNothing lk scope
    · exact Or.inl (h (Or.inr hbad))
    · exact Or.inr fun scope hscope hnothing => hbad ⟨scope, hscope, hnothing⟩
  · rintro (h | h)
    · exact fun _ => h
    · rintro (rfl | ⟨scope, hscope, hnothing⟩)
      · exact Or.inl rfl
      · exact absurd hnothing (h scope hscope)

/-- The scope in which a rule is to be expanded: none when the rule set is not scoped, else one of
its scopes. -/
def ScopeOf (lk : Lookups) (scopes : List (List Actor)) (scope : Option (String → Prop)) : Prop :=
  Unscoped scopes ∧ scope = none ∨
    ¬ Unscoped scopes ∧ ∃ entries ∈ scopes, scope = some (InScope lk entries)

theorem scopeOf_iff (h : ScopesKept lk scopes) {scope : Option (String → Prop)} :
    ScopeOf lk scopes scope ↔
      ∃ choice ∈ scopeChoices (scopeSets lk scopes), scope = choice.map fun s ip => ip ∈ s := by
  cases hsets : scopeSets lk scopes with
  | none =>
      have hunscoped := h.2 hsets
      simp [ScopeOf, scopeChoices, hunscoped]
  | some sets =>
      have hscoped : ¬ Unscoped scopes := by
        intro hunscoped
        have hnone : scopeSets lk scopes = none := scopeSets_eq_none.2
          (hunscoped.imp_right fun ⟨scope, hscope, hall⟩ => ⟨scope, hscope, hall.excludesNothing⟩)
        rw [hsets] at hnone
        cases hnone
      have hmapM : scopes.mapM (scopeSet lk) = some sets := by
        unfold scopeSets at hsets
        split at hsets
        · cases hsets
        · exact hsets
      have hset : ∀ entries s, scopeSet lk entries = some s →
          (fun ip => ip ∈ s) = InScope lk entries := fun entries s hs =>
        funext fun ip => propext (mem_of_scopeSet hs)
      simp only [ScopeOf, hscoped, false_and, not_false_eq_true, true_and, false_or, scopeChoices,
        List.mem_map, exists_exists_and_eq_and, Option.map_some]
      constructor
      · rintro ⟨entries, hentries, rfl⟩
        obtain ⟨s, hs, hentry⟩ := exists_of_mapM_eq_some hmapM entries hentries
        exact ⟨s, hs, by rw [hset entries s hentry]⟩
      · rintro ⟨s, hs, rfl⟩
        obtain ⟨entries, hentries, hentry⟩ := (of_mapM_eq_some hmapM).2 s hs
        exact ⟨entries, hentries, by rw [hset entries s hentry]⟩

/-! ## Sides -/

/-- A workload address of a side: of the labels across their keys, of a workload, or of All
Workloads, which in a scope are those of the scope; and in the scope, where there is one. -/
def InWorkloads (lk : Lookups) (actors : List Actor) (scope : Option (String → Prop))
    (ip : String) : Prop :=
  (AcrossKeys lk (fun href => lk.keyOf href "") actors ip ∨
      (∃ a ∈ actors, a.exclusion = false ∧ a.ref.kind = .workload ∧ ip ∈ lk.actorIps a) ∨
      ∃ a ∈ actors, a.exclusion = false ∧ a.ref = .ams ∧ scope.elim (ip ∈ lk.allWorkloads) (· ip)) ∧
    ∀ inScope, scope = some inScope → inScope ip

/-- What the side of a rule stands for: its workload addresses, as networks where the rule says so,
and its IP lists and literal addresses, less what its exclusions stand for. No actor is any. -/
def SideHas (lk : Lookups) (actors : List Actor) (scope : Option (String → Prop))
    (subnets : Bool) (peer : Peer) : Prop :=
  if actors = [] then peer = .name "ANY"
  else
    (∃ v, Stands v peer ∧
        ((∃ ip, InWorkloads lk actors scope ip ∧
            v = if subnets then (lk.ipToSubnet ip).getD ip else ip) ∨
          ∃ a ∈ actors, a.exclusion = false ∧ (a.ref.kind = .ipList ∨ a.ref.kind = .ipAddress) ∧
            v ∈ lk.actorIps a)) ∧
      ¬ ∃ a ∈ actors, a.exclusion = true ∧ ∃ v ∈ lk.actorIps a, Stands v peer

theorem mem_included {kinds : List ActorKind} :
    ip ∈ included lk actors kinds ↔
      ∃ a ∈ actors, a.exclusion = false ∧ a.ref.kind ∈ kinds ∧ ip ∈ lk.actorIps a := by
  simp [included, List.mem_flatMap, List.mem_filter, and_assoc]

theorem mem_workloadPart {scopeIps : Option (List String)} :
    ip ∈ workloadPart lk actors scopeIps ↔
      InWorkloads lk actors (scopeIps.map fun s ip => ip ∈ s) ip := by
  have hlabels : ip ∈ intersection (groupByKey (sideEntries lk actors)) ↔
      AcrossKeys lk (fun href => lk.keyOf href "") actors ip := mem_intersection_labelEntries
  have hkind : ∀ a : Actor, a.ref.kind = .allWorkloads ↔ a.ref = .ams := by
    intro a
    cases a.ref <;> simp [ActorRef.kind]
  unfold workloadPart InWorkloads
  cases scopeIps with
  | none =>
      have hall : (∃ a ∈ actors, a.exclusion = false ∧ a.ref = .ams ∧ ip ∈ lk.actorIps a) ↔
          ∃ a ∈ actors, a.exclusion = false ∧ a.ref = .ams ∧ ip ∈ lk.allWorkloads := by
        refine exists_congr fun a => and_congr_right fun _ => and_congr_right fun _ =>
          and_congr_right fun hams => ?_
        rw [Lookups.actorIps, hams]
      simp only [List.mem_append, hlabels, mem_included, List.mem_singleton, hkind, hall,
        Option.map_none, Option.elim_none, reduceCtorEq, false_implies, implies_true, and_true]
  | some s =>
      have hall : (ip ∈ if actors.any fun a => ¬ a.exclusion ∧ a.ref = .ams then s else []) ↔
          ∃ a ∈ actors, a.exclusion = false ∧ a.ref = .ams ∧ ip ∈ s := by
        split
        · rename_i h
          obtain ⟨a, ha, hams⟩ := List.any_eq_true.1 h
          rw [decide_eq_true_eq] at hams
          exact ⟨fun hip => ⟨a, ha, by simpa using hams.1, hams.2, hip⟩,
            fun ⟨_, _, _, _, hip⟩ => hip⟩
        · rename_i h
          refine iff_of_false List.not_mem_nil fun ⟨a, ha, hexclusion, hams, _⟩ => h ?_
          exact List.any_eq_true.2 ⟨a, ha, by simp [hexclusion, hams]⟩
      simp only [List.mem_filter, List.mem_append, hlabels, mem_included, List.mem_singleton, hall,
        decide_eq_true_eq, Option.map_some, Option.elim_some, Option.some.injEq, forall_eq']

theorem mem_sortedSet {texts : List String} {v : String} : v ∈ sortedSet texts ↔ v ∈ texts := by
  rw [sortedSet, List.mem_insertionSort, List.mem_dedup]

theorem network_any : network "ANY" = none := by decide +kernel

/-- The texts of a side stand for what the side has. -/
theorem sideHas_iff {scopeIps : Option (List String)} {subnets : Bool} {peer : Peer} :
    (∃ v ∈ (sideIps lk actors scopeIps subnets).1, Stands v peer) ↔
      SideHas lk actors (scopeIps.map fun s ip => ip ∈ s) subnets peer := by
  unfold sideIps SideHas
  by_cases hnil : actors = []
  · rw [if_pos hnil, if_pos hnil]
    simp only [List.mem_singleton, exists_eq_left]
    cases peer with
    | address a =>
        refine iff_of_false (fun h => ?_) (by simp)
        obtain ⟨nets, hnets, -⟩ := denotes_iff.1 h
        rw [network_any] at hnets
        cases hnets
    | name text =>
        constructor
        · rintro ⟨rfl, -⟩
          rfl
        · intro h
          obtain rfl : text = "ANY" := by simpa using h
          exact ⟨rfl, network_any⟩
  · rw [if_neg hnil, if_neg hnil]
    have hworkloads : ∀ v, (v ∈ if subnets then
          (workloadPart lk actors scopeIps).map fun ip => (lk.ipToSubnet ip).getD ip
          else workloadPart lk actors scopeIps) ↔
        ∃ ip, InWorkloads lk actors (scopeIps.map fun s ip => ip ∈ s) ip ∧
          v = if subnets then (lk.ipToSubnet ip).getD ip else ip := by
      intro v
      cases subnets with
      | true => simp [mem_workloadPart, eq_comm]
      | false => simp [mem_workloadPart]
    have hexplicit : ∀ v, v ∈ included lk actors [.ipList, .ipAddress, .unknown] ↔
        ∃ a ∈ actors, a.exclusion = false ∧ (a.ref.kind = .ipList ∨ a.ref.kind = .ipAddress) ∧
          v ∈ lk.actorIps a := by
      intro v
      rw [mem_included]
      refine exists_congr fun a => and_congr_right fun _ => and_congr_right fun _ => ?_
      rw [Lookups.actorIps]
      cases a.ref <;> simp [ActorRef.kind]
    have hexcluded : (∃ v ∈ excluded lk actors, Stands v peer) ↔
        ∃ a ∈ actors, a.exclusion = true ∧ ∃ v ∈ lk.actorIps a, Stands v peer := by
      simp only [excluded, List.mem_flatMap, List.mem_filter]
      constructor
      · rintro ⟨v, ⟨a, ⟨ha, hexclusion⟩, hv⟩, hstands⟩
        exact ⟨a, ha, hexclusion, v, hv, hstands⟩
      · rintro ⟨a, ha, hexclusion, v, hv, hstands⟩
        exact ⟨v, ⟨a, ⟨ha, hexclusion⟩, hv⟩, hstands⟩
    simp only [List.mem_eraseDups]
    rw [stands_subtract, hexcluded]
    refine and_congr_left fun _ => exists_congr fun v => ?_
    rw [and_comm]
    refine and_congr_right fun _ => ?_
    rw [List.mem_append, mem_sortedSet, mem_sortedSet, List.mem_filter, decide_eq_true_eq,
      hworkloads, hexplicit, or_and_left, and_iff_left (Classical.em _)]

/-! ## What is opened -/

/-- A way from peer to peer, with a port and a protocol, that a rule opens or denies. -/
structure Way where
  ruleHref : String
  action : Action
  port : Port
  portTo : Option Int
  protocol : String
  src : Peer
  dst : Peer

/-- A row stands for the way. -/
def Row.Is (row : Row) (w : Way) : Prop :=
  (row.ruleHref = w.ruleHref ∧ row.action = w.action ∧ row.port = w.port ∧ row.portTo = w.portTo ∧
      row.protocol = w.protocol) ∧ Stands row.srcIp w.src ∧ Stands row.dstIp w.dst

/-- A rule that can be expanded opens the way: from its consumers to its providers, both within one
scope of the rule set, or the consumers outside it when they are unscoped. -/
def Opens (lk : Lookups) (rs : RuleSet) (w : Way) : Prop :=
  rs.enabled = true ∧ ∃ rule, (rule, w.action) ∈ rs.actions ∧ rule.enabled = true ∧
    issueOf lk (rs.scopes.any fun scope => scope.any lk.isUnknown) rule = none ∧
    rule.href = w.ruleHref ∧
    (∃ svc ∈ services lk rule, svc.port = w.port ∧ svc.portTo = w.portTo ∧
      svc.protocol = w.protocol) ∧
    ∃ scope, ScopeOf lk rs.scopes scope ∧
      SideHas lk rule.consumers (if rule.unscopedConsumers then none else scope)
        ("consumers" ∈ rule.useWorkloadSubnets) w.src ∧
      SideHas lk rule.providers scope ("providers" ∈ rule.useWorkloadSubnets) w.dst

variable {p : Product} {w : Way} {limit : Option Nat}

theorem exists_mem_rows {name : String} :
    (∃ row ∈ p.rows name, row.Is w) ↔ p.ruleHref = w.ruleHref ∧ p.action = w.action ∧
      (∃ svc ∈ p.services, svc.port = w.port ∧ svc.portTo = w.portTo ∧
        svc.protocol = w.protocol) ∧
      (∃ v ∈ p.srcs, Stands v w.src) ∧ ∃ v ∈ p.dsts, Stands v w.dst := by
  constructor
  · rintro ⟨row, hrow, hkey, hsrc, hdst⟩
    obtain ⟨svc, hsvc, hrow⟩ := List.mem_flatMap.1 hrow
    obtain ⟨src, hsrcs, hrow⟩ := List.mem_flatMap.1 hrow
    obtain ⟨dst, hdsts, rfl⟩ := List.mem_map.1 hrow
    exact ⟨hkey.1, hkey.2.1, ⟨svc, hsvc, hkey.2.2⟩, ⟨src, hsrcs, hsrc⟩, dst, hdsts, hdst⟩
  · rintro ⟨hhref, haction, ⟨svc, hsvc, hservice⟩, ⟨src, hsrcs, hsrc⟩, dst, hdsts, hdst⟩
    refine ⟨_, List.mem_flatMap.2 ⟨svc, hsvc, List.mem_flatMap.2 ⟨src, hsrcs,
      List.mem_map.2 ⟨dst, hdsts, rfl⟩⟩⟩, ⟨hhref, haction, hservice⟩, hsrc, hdst⟩

/-- When nothing is omitted, the rows are those of all products. -/
theorem exists_row_iff (hlimit : (resolveRulesetWithin lk rs limit).omitted = 0) :
    (∃ row ∈ (resolveRulesetWithin lk rs limit).rows, row.Is w) ↔
      ∃ p ∈ expandedProducts lk rs, ∃ row ∈ p.rows rs.name, row.Is w := by
  obtain ⟨built, counted, hsplit, hkeys, hmade, homitted, -⟩ :=
    accounted_resolveRulesetWithin lk rs limit
  constructor
  · rintro ⟨row, hrow, his⟩
    obtain ⟨p, hp, hmem⟩ := hmade row hrow
    exact ⟨p, hsplit.mem_iff.1 (List.mem_append_left _ hp), row, hmem, his⟩
  · rintro ⟨p, hp, row, hrow, his⟩
    have hbuilt : p ∈ built := by
      refine (List.mem_append.1 (hsplit.mem_iff.2 hp)).resolve_right fun hcounted => ?_
      rw [hlimit] at homitted
      have hzero : p.size = 0 :=
        List.sum_eq_zero_iff_forall_eq_nat.1 homitted.symm _ (List.mem_map_of_mem hcounted)
      rw [← Product.length_rows rs.name, List.length_eq_zero_iff] at hzero
      rw [hzero] at hrow
      exact absurd hrow List.not_mem_nil
    have hkey : row.key ∈ (resolveRulesetWithin lk rs limit).rows.map Row.key := by
      rw [hkeys, List.mem_eraseDups]
      exact List.mem_map_of_mem (List.mem_flatMap.2 ⟨p, hbuilt, hrow⟩)
    obtain ⟨row', hrow', hsame⟩ := List.mem_map.1 hkey
    refine ⟨row', hrow', ?_⟩
    obtain ⟨hhref, haction, hsrc, hdst, hport, hportTo, hprotocol⟩ := RowKey.mk.inj hsame
    unfold Row.Is
    rw [hhref, haction, hsrc, hdst, hport, hportTo, hprotocol]
    exact his

/-- Without a cap, a rule in a scope opens what its sides have. -/
theorem exists_productIn_iff (rs : RuleSet) {rule : Rule} {action : Action} {choice : Option (List String)}
    (hcap : ∀ p, productIn lk rule action choice = some p → p.truncated = []) :
    (∃ p, productIn lk rule action choice = some p ∧ ∃ row ∈ p.rows rs.name, row.Is w) ↔
      rule.href = w.ruleHref ∧ action = w.action ∧
        (∃ svc ∈ services lk rule, svc.port = w.port ∧ svc.portTo = w.portTo ∧
          svc.protocol = w.protocol) ∧
        SideHas lk rule.consumers
          (if rule.unscopedConsumers then none else choice.map fun s ip => ip ∈ s)
          ("consumers" ∈ rule.useWorkloadSubnets) w.src ∧
        SideHas lk rule.providers (choice.map fun s ip => ip ∈ s)
          ("providers" ∈ rule.useWorkloadSubnets) w.dst := by
  have hconsumers : (∃ v ∈ (consumerSide lk rule choice).1, Stands v w.src) ↔
      SideHas lk rule.consumers
        (if rule.unscopedConsumers then none else choice.map fun s ip => ip ∈ s)
        ("consumers" ∈ rule.useWorkloadSubnets) w.src := by
    unfold consumerSide
    rw [sideHas_iff]
    cases rule.unscopedConsumers <;> rfl
  have hproviders : (∃ v ∈ (providerSide lk rule choice).1, Stands v w.dst) ↔
      SideHas lk rule.providers (choice.map fun s ip => ip ∈ s)
        ("providers" ∈ rule.useWorkloadSubnets) w.dst := sideHas_iff
  rw [← hconsumers, ← hproviders]
  constructor
  · rintro ⟨p, hproduct, hrow⟩
    obtain ⟨-, -, hhref, haction, hservices, hcapped⟩ := capped_productIn hproduct
    have huncapped := hcap p hproduct
    have hsrc := hcapped.src
    have hdst := hcapped.dst
    simp only [huncapped, List.not_mem_nil, if_false] at hsrc hdst
    rw [exists_mem_rows, hhref, haction, hservices, hsrc, hdst] at hrow
    exact hrow
  · rintro ⟨hhref, haction, hservice, hsrcs, hdsts⟩
    have hboth : ¬ ((consumerSide lk rule choice).1 = [] ∨ (providerSide lk rule choice).1 = []) := by
      rintro (h | h)
      · obtain ⟨v, hv, -⟩ := hsrcs
        exact absurd (h ▸ hv) List.not_mem_nil
      · obtain ⟨v, hv, -⟩ := hdsts
        exact absurd (h ▸ hv) List.not_mem_nil
    obtain ⟨p, hproduct⟩ : ∃ p, productIn lk rule action choice = some p := by
      simp only [productIn, if_neg hboth]
      exact ⟨_, rfl⟩
    obtain ⟨-, -, hhref', haction', hservices, hcapped⟩ := capped_productIn hproduct
    have huncapped := hcap p hproduct
    have hsrc := hcapped.src
    have hdst := hcapped.dst
    simp only [huncapped, List.not_mem_nil, if_false] at hsrc hdst
    refine ⟨p, hproduct, exists_mem_rows.2 ?_⟩
    rw [hhref', haction', hservices, hsrc, hdst]
    exact ⟨hhref, haction, hservice, hsrcs, hdsts⟩

/-- When the scopes are kept and neither the limit nor the cap is reached, the rows are exactly what
the rules open. -/
theorem exists_row_iff_opens (hlimit : (resolveRulesetWithin lk rs limit).omitted = 0)
    (hcap : ∀ p ∈ expandedProducts lk rs, p.truncated = []) (hkept : ScopesKept lk rs.scopes) :
    (∃ row ∈ (resolveRulesetWithin lk rs limit).rows, row.Is w) ↔ Opens lk rs w := by
  rw [exists_row_iff hlimit]
  constructor
  · rintro ⟨p, hp, hrow⟩
    obtain ⟨henabled, rule, action, hrule, hon, hissue, choice, hchoice, hproduct⟩ :=
      mem_expandedProducts.1 hp
    have huncapped : ∀ p, productIn lk rule action choice = some p → p.truncated = [] :=
      fun q hq => hcap q (mem_expandedProducts.2
        ⟨henabled, rule, action, hrule, hon, hissue, choice, hchoice, hq⟩)
    obtain ⟨hhref, rfl, hservice, hsrc, hdst⟩ :=
      (exists_productIn_iff rs huncapped).1 ⟨p, hproduct, hrow⟩
    exact ⟨henabled, rule, hrule, hon, hissue, hhref, hservice, _,
      (scopeOf_iff hkept).2 ⟨choice, hchoice, rfl⟩, hsrc, hdst⟩
  · rintro ⟨henabled, rule, hrule, hon, hissue, hhref, hservice, scope, hscope, hsrc, hdst⟩
    obtain ⟨choice, hchoice, rfl⟩ := (scopeOf_iff hkept).1 hscope
    have huncapped : ∀ p, productIn lk rule w.action choice = some p → p.truncated = [] :=
      fun q hq => hcap q (mem_expandedProducts.2
        ⟨henabled, rule, w.action, hrule, hon, hissue, choice, hchoice, hq⟩)
    obtain ⟨p, hproduct, hrow⟩ := (exists_productIn_iff rs huncapped).2
      ⟨hhref, rfl, hservice, hsrc, hdst⟩
    exact ⟨p, mem_expandedProducts.2
      ⟨henabled, rule, w.action, hrule, hon, hissue, choice, hchoice, hproduct⟩, hrow⟩

/-! ### What is disclosed -/

/-- Why an enabled rule cannot be expanded faithfully, if so. -/
def disclosure (lk : Lookups) (rs : RuleSet) (rule : Rule × Action) : Option (String × Issue) :=
  if ¬ rule.1.enabled then none
  else (issueOf lk (rs.scopes.any fun scope => scope.any lk.isUnknown) rule.1).map
    fun issue => (rule.1.href, issue)

def disclosed (lk : Lookups) (rs : RuleSet) : List (String × Issue) :=
  if ¬ rs.enabled then [] else rs.actions.filterMap (disclosure lk rs)

theorem notExpanded_foldl_build (name : String) (limit : Option Nat) (made : List Product)
    (r : Resolution) : (made.foldl (build name limit) r).notExpanded = r.notExpanded := by
  induction made generalizing r with
  | nil => rfl
  | cons p made ih =>
      rw [List.foldl_cons, ih]
      unfold build
      split <;> rfl

theorem notExpanded_resolveRulesetWithin (lk : Lookups) (rs : RuleSet) (limit : Option Nat) :
    (resolveRulesetWithin lk rs limit).notExpanded = disclosed lk rs := by
  have hone : ∀ (r : Resolution) (rule : Rule × Action),
      (expandRule lk rs limit r rule).notExpanded =
        r.notExpanded ++ (disclosure lk rs rule).toList := by
    intro r rule
    unfold expandRule disclosure
    by_cases hon : ¬ rule.1.enabled
    · simp [hon]
    · rw [if_neg hon, if_neg hon]
      cases issueOf lk (rs.scopes.any fun scope => scope.any lk.isUnknown) rule.1 with
      | some issue => simp
      | none =>
          have hsame := notExpanded_foldl_build rs.name limit
            (products lk (scopeSets lk rs.scopes) rule.1 rule.2) r
          dsimp only
          split <;> simp [hsame]
  have hall : ∀ (rules : List (Rule × Action)) (r : Resolution),
      (rules.foldl (expandRule lk rs limit) r).notExpanded =
        r.notExpanded ++ rules.filterMap (disclosure lk rs) := by
    intro rules
    induction rules with
    | nil => exact fun r => (List.append_nil _).symm
    | cons rule rules ih =>
        intro r
        rw [List.foldl_cons, ih, hone, List.append_assoc, List.filterMap_cons]
        cases disclosure lk rs rule <;> rfl
  unfold resolveRulesetWithin disclosed
  split
  · rfl
  · rw [hall]
    rfl

/-! ### The rows of a rule set -/

/-- The rows open exactly what the rules that are not disclosed open, and the rule set is taken as
unscoped only when it is, if and only if it is unscoped or none of its scopes consists of nothing
but exclusions that resolve to no address. -/
theorem rows_exact_iff (lk : Lookups) (rs : RuleSet) (limit : Option Nat)
    (hlimit : (resolveRulesetWithin lk rs limit).omitted = 0)
    (hcap : ∀ p ∈ expandedProducts lk rs, p.truncated = []) :
    ((∀ w, (∃ row ∈ (resolveRulesetWithin lk rs limit).rows, row.Is w) ↔ Opens lk rs w) ∧
        (resolveRulesetWithin lk rs limit).notExpanded = disclosed lk rs ∧
        ScopesKept lk rs.scopes) ↔
      Unscoped rs.scopes ∨ ∀ scope ∈ rs.scopes, ¬ ExcludesNothing lk scope := by
  rw [← scopesKept_iff]
  constructor
  · exact fun h => h.2.2
  · intro hkept
    exact ⟨fun w => exists_row_iff_opens hlimit hcap hkept,
      notExpanded_resolveRulesetWithin lk rs limit, hkept⟩

/-- One workload, and a label that no workload has. -/
def oneHost : Lookups where
  labelToIps := fun _ => []
  labelGroupToLabels := fun _ => []
  iplistToCidrs := fun _ => []
  workloadToIps := [("/orgs/1/workloads/a", ["10.0.0.1"])]
  labelKeys := none
  known := none
  ipToSubnet := fun _ => none
  serviceToPorts := fun _ => []
  serviceToNames := fun _ => none

/-- All workloads to all workloads. -/
def allToAll : Rule where
  href := "/orgs/1/sec_policy/active/rule_sets/3/sec_rules/4"
  enabled := true
  override := false
  consumers := [⟨.ams, false⟩]
  providers := [⟨.ams, false⟩]
  unscopedConsumers := false
  ingressServices := []
  servicePorts := []
  useWorkloadSubnets := []
  resolveProvidersAs := []
  resolveConsumersAs := []

/-- The rule in the scope of all but the label. -/
def allButLabel : RuleSet where
  name := "All but legacy"
  enabled := true
  scopes := [[⟨.label "/orgs/1/labels/9", true⟩]]
  rules := [allToAll]
  denyRules := []

/-- The scope excludes a label without addresses; the rule set is taken as unscoped, and a row
opens what no scope has. -/
theorem excluded_label_unscopes :
    (resolveRulesetWithin oneHost allButLabel none).omitted = 0 ∧
      (∀ p ∈ expandedProducts oneHost allButLabel, p.truncated = []) ∧
      (∃ w, (∃ row ∈ (resolveRulesetWithin oneHost allButLabel none).rows, row.Is w) ∧
        ¬ Opens oneHost allButLabel w) ∧
      scopeSets oneHost allButLabel.scopes = none ∧ ¬ Unscoped allButLabel.scopes := by
  have hscoped : ¬ Unscoped allButLabel.scopes := by
    rintro (h | ⟨scope, hscope, hall⟩)
    · cases h
    · obtain rfl := List.mem_singleton.1 hscope
      exact absurd (hall _ List.mem_cons_self) (by decide)
  have hrows : (resolveRulesetWithin oneHost allButLabel none).rows =
      [⟨"All but legacy", allToAll.href, .allow, "10.0.0.1", "10.0.0.1", .any, none, "ANY",
        .allWorkloads, .allWorkloads, "", []⟩] := by
    decide +kernel
  have hdenotes : Denotes "10.0.0.1" (.v4 0x0A000001) := by decide +kernel
  refine ⟨by decide +kernel, by decide +kernel, ⟨⟨allToAll.href, .allow, .any, none, "ANY",
    .address (.v4 0x0A000001), .address (.v4 0x0A000001)⟩, ?_, ?_⟩, by decide +kernel, hscoped⟩
  · rw [hrows]
    exact ⟨_, List.mem_cons_self, ⟨rfl, rfl, rfl, rfl, rfl⟩, hdenotes, hdenotes⟩
  · rintro ⟨-, rule, hrule, -, -, -, -, scope, hscope, -, hdst⟩
    obtain ⟨hunscoped, -⟩ | ⟨-, entries, hentries, rfl⟩ := hscope
    · exact hscoped hunscoped
    · -- no label is included, so the scope has no address
      obtain rfl := List.mem_singleton.1 hentries
      have hrule : rule = allToAll := by simpa [RuleSet.actions, allButLabel] using hrule
      subst hrule
      obtain ⟨v, -, ⟨ip, hip, -⟩ | ⟨a, ha, -, hkind, -⟩⟩ := hdst.1
      · obtain ⟨⟨e, he, href, hexclusion, -⟩, -⟩ := (hip.2 _ rfl).1
        obtain rfl := List.mem_singleton.1 he
        cases hexclusion
      · obtain rfl := List.mem_singleton.1 ha
        rcases hkind with hkind | hkind <;> cases hkind

/-- The same rule in a rule set that is not scoped. -/
theorem rows_exact_unscoped :
    (∀ w, (∃ row ∈ (resolveRulesetWithin oneHost { allButLabel with scopes := [] } none).rows,
        row.Is w) ↔ Opens oneHost { allButLabel with scopes := [] } w) ∧
      (resolveRulesetWithin oneHost { allButLabel with scopes := [] } none).notExpanded =
        disclosed oneHost { allButLabel with scopes := [] } ∧
      ScopesKept oneHost [] :=
  (rows_exact_iff oneHost { allButLabel with scopes := [] } none (by decide +kernel)
    (by decide +kernel)).2 (Or.inl (Or.inl rfl))

end IllumioOps.Policy
