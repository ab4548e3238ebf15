import IllumioOps.Filter.SqlAgrees

/-!
# The filter split between a PCE query and a residual

`toPcePayload` puts what the PCE can filter into an async traffic query and returns the
rest as a residual filter for the caller to apply record by record. `TrafficQuery.selects`
is how the PCE evaluates a query: overlapping flows, includes as unions of AND-groups,
excludes by any entry, port ranges, decisions by membership.

Query and residual together never accept a record that the filter refuses.
`FilterSpec.toPcePayload_agrees_iff` says exactly which accepted records the split loses:
those that begin in the cut off part of the window's last second, and those that an
endpoint accepts only by joining the values of a key listed twice or by an empty href.
-/

set_option autoImplicit false

namespace IllumioOps

/-! ## The query -/

/-- An entry of an include or exclude list. -/
inductive Actor where
  | label (href : String)
  | workload (href : String)
  | ipAddress (ip : String)
  deriving DecidableEq

structure PcePort where
  port : Option Int
  toPort : Option Int
  proto : Option Int
  deriving DecidableEq

structure TrafficQuery where
  queryName : String
  startDate : Int
  endDate : Int
  policyDecisions : List String
  maxResults : Nat
  sourcesInclude : List (List Actor)
  sourcesExclude : List Actor
  destinationsInclude : List (List Actor)
  destinationsExclude : List Actor
  servicesInclude : List PcePort
  servicesExclude : List PcePort
  deriving DecidableEq

/-- Label hrefs by `(key, value)`; each stands for the label it was found under. -/
structure LabelHrefs where
  hrefOf : String × String → Option String
  labelOf : String → Option (String × String)
  label_href : ∀ l h, hrefOf l = some h → labelOf h = some l

/-! ## How the PCE evaluates a query -/

def Actor.met (labels : LabelHrefs) (e : EndView) : Actor → Bool
  | .label h =>
      match labels.labelOf h with
      | none => false
      | some (key, value) => e.labels key = some value
  | .workload h => e.href = some h
  | .ipAddress ip => e.ip = ip

/-- A union of AND-groups; an empty group is everything. -/
def includeMet (labels : LabelHrefs) (groups : List (List Actor)) (e : EndView) : Bool :=
  groups.any fun g => g.all (Actor.met labels e)

def excludeMet (labels : LabelHrefs) (entries : List Actor) (e : EndView) : Bool :=
  entries.any (Actor.met labels e)

/-- A port entry, on a flow that may have no port. -/
def PcePort.met (v : FlowView) (p : PcePort) : Bool :=
  (match p.proto with
    | none => true
    | some proto => v.proto = proto) &&
    match p.port with
    | none => true
    | some lo => (match v.port with
        | none => false
        | some port => lo ≤ port && port ≤ p.toPort.getD lo)

def TrafficQuery.selects (labels : LabelHrefs) (q : TrafficQuery) (v : FlowView) : Bool :=
  q.startDate ≤ v.lastDetected && v.firstDetected ≤ q.endDate &&
  includeMet labels q.sourcesInclude v.src && !excludeMet labels q.sourcesExclude v.src &&
  includeMet labels q.destinationsInclude v.dst &&
  !excludeMet labels q.destinationsExclude v.dst &&
  (q.servicesInclude.isEmpty || q.servicesInclude.any (PcePort.met v)) &&
  !q.servicesExclude.any (PcePort.met v) &&
  (q.policyDecisions.isEmpty || v.policyDecision ∈ q.policyDecisions)

/-! ## The split -/

/-- `itertools.product`: one element of each list. -/
def product {α : Type} : List (List α) → List (List α)
  | [] => [[]]
  | xs :: rest => xs.flatMap fun x => (product rest).map fun c => x :: c

/-- The label actors of one condition; none when a label has no known href. -/
def labelActors (hrefOf : String × String → Option String) (c : LabelCond) :
    Option (List Actor) :=
  c.values.mapM fun v => (hrefOf (c.key, v)).map Actor.label

/-- `_pce_side`: the include list of one side, or none when part of the union cannot
go to the PCE. -/
def pceSide (hrefOf : String × String → Option String) (ep : Option EndpointFilter) :
    Option (List (List Actor)) :=
  match ep with
  | none => some [[]]
  | some ep =>
      if ep.isEmpty then some [[]]
      else if ep.intersects then none
      else if ep.netIps ≠ [] ∨ ep.isPublic = true ∨ ep.ipLists ≠ [] ∨ ep.labelGroups ≠ [] then none
      else (ep.labels.mapM (labelActors hrefOf)).map fun perKey =>
        (if ep.labels ≠ [] then product perKey else []) ++
          ep.hrefs.map (fun h => [.workload h]) ++ ep.exactIps.map fun ip => [.ipAddress ip]

/-- `_pce_exclude`: excluding part of the set at the PCE is safe. -/
def pceExclude (hrefOf : String × String → Option String) (ep : Option EndpointFilter) :
    List Actor :=
  match ep with
  | none => []
  | some ep =>
      if ep.intersects then []
      else (match ep.labels with
          | [c] =>
              if ep.labelGroups = [] then
                c.values.filterMap fun v =>
                  (hrefOf (c.key, v)).bind fun h => if h = "" then none else some (.label h)
              else []
          | _ => []) ++
        ep.hrefs.map .workload ++ ep.exactIps.map .ipAddress

def pcePort (p : PortProto) : PcePort := { port := p.port, toPort := p.toPort, proto := p.proto }

/-- "No port" has no PCE form, nor do named services. -/
def noportIn (spec : FilterSpec) : Bool :=
  (spec.ports.any fun p => p.port = some (-1)) || !spec.services.isEmpty

def noportEx (spec : FilterSpec) : Bool := spec.excludePorts.any fun p => p.port = some (-1)

/-- `to_pce_payload`: the query, and what is left to test on each record. -/
def FilterSpec.toPcePayload (spec : FilterSpec) (maxResults : Nat) (queryName : String)
    (hrefOf : String × String → Option String) : TrafficQuery × FilterSpec :=
  let srcInc := pceSide hrefOf spec.src
  let dstInc := pceSide hrefOf spec.dst
  ({ queryName := queryName
     startDate := pceTime spec.start
     endDate := pceTime spec.stop
     policyDecisions := spec.decisions.map PolicyDecision.value
     maxResults := maxResults
     sourcesInclude := srcInc.getD [[]]
     sourcesExclude := pceExclude hrefOf spec.srcExclude
     destinationsInclude := dstInc.getD [[]]
     destinationsExclude := pceExclude hrefOf spec.dstExclude
     servicesInclude := if noportIn spec then [] else spec.ports.map pcePort
     servicesExclude := if noportEx spec then [] else spec.excludePorts.map pcePort },
   { spec with
     src := if srcInc.isNone then spec.src else none
     dst := if dstInc.isNone then spec.dst else none
     ports := if noportIn spec then spec.ports else []
     excludePorts := if noportEx spec then spec.excludePorts else []
     decisions := [] })

/-! ## Endpoints at the PCE -/

theorem any_product {α : Type} (p : α → Bool) (ls : List (List α)) :
    ((product ls).any fun c => c.all p) = ls.all fun l => l.any p := by
  induction ls with
  | nil => rfl
  | cons xs rest ih =>
      rw [Bool.eq_iff_iff] at ih ⊢
      simp only [product, List.any_flatMap, List.any_map, List.all_cons, Function.comp,
        Bool.and_eq_true, ← ih, List.any_eq_true]
      constructor
      · rintro ⟨x, hx, c, hc, hp, hall⟩
        exact ⟨⟨x, hx, hp⟩, c, hc, hall⟩
      · rintro ⟨⟨x, hx, hp⟩, c, hc, hall⟩
        exact ⟨x, hx, c, hc, hp, hall⟩

/-- What the pushed groups of an endpoint accept. -/
def pushedMet (ep : EndpointFilter) (e : EndView) : Bool :=
  (!ep.labels.isEmpty && ep.labels.all (labelListed e.labels)) ||
    (ep.hrefs.any fun h => e.href = some h) || (e.ip ∈ ep.exactIps)

/-- The label actors of a condition are met when the end holds one of its values. -/
theorem any_labelActors (labels : LabelHrefs) (e : EndView) (c : LabelCond) {actors : List Actor}
    (h : labelActors labels.hrefOf c = some actors) :
    actors.any (Actor.met labels e) = labelListed e.labels c := by
  have hvalues : ∀ (values : List String) (actors : List Actor),
      (values.mapM fun v => (labels.hrefOf (c.key, v)).map Actor.label) = some actors →
      actors.any (Actor.met labels e) = values.any fun v => decide (e.labels c.key = some v) := by
    intro values
    induction values with
    | nil =>
        intro actors hactors
        simp only [List.mapM_nil, Option.pure_def, Option.some.injEq] at hactors
        subst hactors
        rfl
    | cons v values ih =>
        intro actors hactors
        simp only [List.mapM_cons, Option.pure_def, Option.bind_eq_bind, Option.bind_eq_some_iff,
          Option.map_eq_some_iff, Option.some.injEq] at hactors
        obtain ⟨_, ⟨href, hhref, rfl⟩, rest, hrest, rfl⟩ := hactors
        rw [List.any_cons, List.any_cons, ih rest hrest]
        simp [Actor.met, labels.label_href _ _ hhref]
  rw [hvalues c.values actors h]
  unfold labelListed
  cases e.labels c.key with
  | none => simp
  | some value =>
      rw [Bool.eq_iff_iff]
      simp only [List.any_eq_true, decide_eq_true_eq, Option.some.injEq]
      exact ⟨fun ⟨v, hv, heq⟩ => heq ▸ hv, fun hv => ⟨value, hv, rfl⟩⟩

theorem includeMet_append (labels : LabelHrefs) (gs hs : List (List Actor)) (e : EndView) :
    includeMet labels (gs ++ hs) e = (includeMet labels gs e || includeMet labels hs e) :=
  List.any_append

theorem all_any_labelActors (labels : LabelHrefs) (e : EndView) :
    ∀ (cs : List LabelCond) {perKey : List (List Actor)},
      cs.mapM (labelActors labels.hrefOf) = some perKey →
      (perKey.all fun l => l.any (Actor.met labels e)) = cs.all (labelListed e.labels)
  | [], perKey, h => by
      simp only [List.mapM_nil, Option.pure_def, Option.some.injEq] at h
      subst h
      rfl
  | c :: cs, perKey, h => by
      simp only [List.mapM_cons, Option.pure_def, Option.bind_eq_bind, Option.bind_eq_some_iff,
        Option.some.injEq] at h
      obtain ⟨actors, hactors, rest, hrest, rfl⟩ := h
      rw [List.all_cons, List.all_cons, any_labelActors labels e c hactors,
        all_any_labelActors labels e cs hrest]

/-- All the listed labels have an href and nothing in the endpoint is for the caller only. -/
def goesToPce (hrefOf : String × String → Option String) (ep : EndpointFilter) : Bool :=
  !ep.intersects && ep.netIps.isEmpty && !ep.isPublic && ep.ipLists.isEmpty &&
    ep.labelGroups.isEmpty &&
    ep.labels.all fun c => c.values.all fun v => (hrefOf (c.key, v)).isSome

theorem mapM_isSome {α β : Type} (f : α → Option β) (as : List α) :
    (as.mapM f).isSome = as.all fun a => (f a).isSome := by
  induction as with
  | nil => rfl
  | cons a as ih =>
      rw [List.mapM_cons, List.all_cons, ← ih]
      cases f a <;> cases as.mapM f <;> rfl

/-- The groups that an endpoint goes to the PCE with. -/
theorem pceSide_of_not_isEmpty {hrefOf : String × String → Option String} {ep : EndpointFilter}
    (hne : ep.isEmpty = false) :
    pceSide hrefOf (some ep) =
      if goesToPce hrefOf ep then
        (ep.labels.mapM (labelActors hrefOf)).map fun perKey =>
          (if ep.labels ≠ [] then product perKey else []) ++
            ep.hrefs.map (fun h => [.workload h]) ++ ep.exactIps.map fun ip => [.ipAddress ip]
      else none := by
  have hmap : (ep.labels.mapM (labelActors hrefOf)).isSome =
      ep.labels.all fun c => c.values.all fun v => (hrefOf (c.key, v)).isSome := by
    rw [mapM_isSome]
    congr 1
    funext c
    rw [labelActors, mapM_isSome]
    congr 1
    funext v
    exact Option.isSome_map
  unfold pceSide goesToPce
  simp only [hne, Bool.false_eq_true, if_false]
  rw [← hmap]
  cases ep.intersects with
  | true => simp
  | false =>
      by_cases hlocal : ep.netIps ≠ [] ∨ ep.isPublic = true ∨ ep.ipLists ≠ [] ∨
          ep.labelGroups ≠ []
      · rw [if_neg Bool.false_ne_true, if_pos hlocal, if_neg]
        intro h
        simp only [Bool.not_false, Bool.true_and, Bool.and_eq_true, Bool.not_eq_true',
          List.isEmpty_iff] at h
        simp [h.1.1.1.1, h.1.1.1.2, h.1.1.2, h.1.2] at hlocal
      · rw [if_neg Bool.false_ne_true, if_neg hlocal]
        simp only [not_or, not_not, Bool.not_eq_true] at hlocal
        obtain ⟨hnets, hpublic, hlists, hgroups⟩ := hlocal
        cases hm : ep.labels.mapM (labelActors hrefOf) <;>
          simp [hnets, hpublic, hlists, hgroups]

/-- The groups of an endpoint that goes to the PCE accept what `pushedMet` says. -/
theorem includeMet_pceSide (labels : LabelHrefs) {ep : EndpointFilter} (hne : ep.isEmpty = false)
    {groups : List (List Actor)} (h : pceSide labels.hrefOf (some ep) = some groups) (e : EndView) :
    goesToPce labels.hrefOf ep = true ∧ includeMet labels groups e = pushedMet ep e := by
  rw [pceSide_of_not_isEmpty hne] at h
  by_cases hgo : goesToPce labels.hrefOf ep = true
  · refine ⟨hgo, ?_⟩
    rw [if_pos hgo, Option.map_eq_some_iff] at h
    obtain ⟨perKey, hperKey, rfl⟩ := h
    rw [includeMet_append, includeMet_append, pushedMet]
    congr 1
    · congr 1
      · by_cases hl : ep.labels = []
        · simp [hl, includeMet]
        · rw [if_pos hl, includeMet, any_product, all_any_labelActors labels e _ hperKey]
          simp [hl]
      · simp [includeMet, List.any_map, Function.comp_def, Actor.met]
    · rw [Bool.eq_iff_iff]
      simp [includeMet, List.any_map, Function.comp_def, Actor.met]
  · rw [if_neg hgo] at h
    simp at h

/-- The hosts part of an endpoint that goes to the PCE. -/
theorem hostsHold_of_goesToPce {hrefOf : String × String → Option String} {ep : EndpointFilter}
    (hgo : goesToPce hrefOf ep = true) (addr : Addresses) (look : Lookups) (e : EndView) :
    hostsHold addr look ep e = (decide (e.href.getD "" ∈ ep.hrefs) || decide (e.ip ∈ ep.exactIps))
    := by
  simp only [goesToPce, Bool.and_eq_true, Bool.not_eq_true', List.isEmpty_iff] at hgo
  obtain ⟨⟨⟨⟨⟨_, hnets⟩, hpublic⟩, hlists⟩, _⟩, _⟩ := hgo
  simp [hostsHold, hnets, hpublic, hlists]

/-- Without an intersection an endpoint accepts what one of its parts accepts. -/
theorem sideMatches_of_not_intersects {ep : EndpointFilter} (hint : ep.intersects = false)
    (hne : ep.isEmpty = false) (addr : Addresses) (look : Lookups) (v : FlowView) (side : Side) :
    sideMatches addr look ep v side =
      (ep.hasLabels && labelsHold look ep (v.side side).labels ||
        ep.hasHosts && hostsHold addr look ep (v.side side)) := by
  unfold sideMatches
  unfold EndpointFilter.intersects at hint
  unfold EndpointFilter.isEmpty at hne
  cases hm : ep.matchMode <;> cases hl : ep.hasLabels <;> cases hh : ep.hasHosts <;>
    simp_all [combineParts]

/-- What the pushed groups accept, the endpoint accepts. -/
theorem sideMatches_of_pushedMet {hrefOf : String × String → Option String} {ep : EndpointFilter}
    (hne : ep.isEmpty = false) (hgo : goesToPce hrefOf ep = true) (addr : Addresses)
    (look : Lookups) {v : FlowView} {side : Side} (h : pushedMet ep (v.side side) = true) :
    sideMatches addr look ep v side = true := by
  have hgo' := hgo
  simp only [goesToPce, Bool.and_eq_true, Bool.not_eq_true', List.isEmpty_iff] at hgo'
  obtain ⟨⟨⟨⟨⟨hint, _⟩, _⟩, _⟩, hgroups⟩, _⟩ := hgo'
  rw [sideMatches_of_not_intersects hint hne, hostsHold_of_goesToPce hgo]
  simp only [pushedMet, Bool.or_eq_true, Bool.and_eq_true, List.any_eq_true,
    decide_eq_true_eq] at h ⊢
  rcases h with (⟨hlabels, hlisted⟩ | ⟨h, hh, heq⟩) | hip
  · refine Or.inl ⟨?_, labelsHold_of_labelsListed ?_⟩
    · rw [EndpointFilter.hasLabels, hlabels, Bool.true_or]
    · rw [labelsListed, if_neg (by simp [hgroups])]
      exact hlisted
  · refine Or.inr ⟨?_, Or.inl ?_⟩
    · cases hhrefs : ep.hrefs with
      | nil => simp [hhrefs] at hh
      | cons x xs => simp [EndpointFilter.hasHosts, hhrefs]
    · rw [heq]
      exact hh
  · refine Or.inr ⟨?_, Or.inr hip⟩
    cases hips : ep.ips with
    | nil => simp [EndpointFilter.exactIps, hips] at hip
    | cons x xs => simp [EndpointFilter.hasHosts, hips]

/-- An end that an endpoint accepts and no pushed group does: it joins the values of a key
listed in several conditions, or it has no href and the endpoint lists the empty one. -/
def lostEnd (hrefOf : String × String → Option String) (look : Lookups)
    (ep : Option EndpointFilter) (e : EndView) : Bool :=
  match ep with
  | none => false
  | some ep =>
      goesToPce hrefOf ep && !pushedMet ep e &&
        (ep.hasLabels && labelsHold look ep e.labels || e.href.isNone && "" ∈ ep.hrefs)

/-- An endpoint that goes to the PCE accepts what its pushed groups do and the lost ends. -/
theorem sideMatches_of_goesToPce {hrefOf : String × String → Option String} {ep : EndpointFilter}
    (hne : ep.isEmpty = false) (hgo : goesToPce hrefOf ep = true) (addr : Addresses)
    (look : Lookups) (v : FlowView) (side : Side) :
    sideMatches addr look ep v side =
      (pushedMet ep (v.side side) || lostEnd hrefOf look (some ep) (v.side side)) := by
  cases hpushed : pushedMet ep (v.side side) with
  | true => rw [sideMatches_of_pushedMet hne hgo addr look hpushed, Bool.true_or]
  | false =>
      have hint : ep.intersects = false := by
        simp only [goesToPce, Bool.and_eq_true, Bool.not_eq_true'] at hgo
        exact hgo.1.1.1.1.1
      have hparts := hpushed
      simp only [pushedMet, Bool.or_eq_false_iff] at hparts
      obtain ⟨⟨_, hhrefs⟩, hips⟩ := hparts
      rw [sideMatches_of_not_intersects hint hne, hostsHold_of_goesToPce hgo, hips, Bool.or_false]
      simp only [lostEnd, hgo, hpushed, Bool.not_false, Bool.and_true, Bool.true_and,
        Bool.false_or]
      congr 1
      cases hhref : (v.side side).href with
      | some h =>
          have hout : h ∉ ep.hrefs := by
            intro hin
            have hany := List.any_eq_false.1 hhrefs h hin
            simp [hhref] at hany
          simp [hout]
      | none =>
          cases hl : ep.hrefs with
          | nil => simp
          | cons x xs => simp [EndpointFilter.hasHosts, hl]

/-- One side: the pushed include and the residual condition together. -/
theorem pceSide_and_residual (labels : LabelHrefs) (ep : Option EndpointFilter)
    (addr : Addresses) (look : Lookups) (v : FlowView) (side : Side) :
    (includeMet labels ((pceSide labels.hrefOf ep).getD [[]]) (v.side side) &&
      endpointPasses (if (pceSide labels.hrefOf ep).isNone then ep else none) false
        (fun ep => sideMatches addr look ep v side)) =
    (endpointPasses ep false (fun ep => sideMatches addr look ep v side) &&
      !lostEnd labels.hrefOf look ep (v.side side)) := by
  cases ep with
  | none => simp [pceSide, includeMet, endpointPasses, lostEnd]
  | some ep =>
      cases hne : ep.isEmpty with
      | true =>
          have hempty := hne
          simp only [EndpointFilter.isEmpty, EndpointFilter.hasHosts, Bool.not_eq_true',
            Bool.or_eq_false_iff, Bool.not_eq_false', List.isEmpty_iff] at hempty
          obtain ⟨hlabels, ⟨⟨hhrefs, _⟩, _⟩, _⟩ := hempty
          have hlost : lostEnd labels.hrefOf look (some ep) (v.side side) = false := by
            simp [lostEnd, hlabels, hhrefs]
          simp [pceSide, hne, includeMet, endpointPasses, hlost]
      | false =>
          have hpass : endpointPasses (some ep) false
              (fun ep => sideMatches addr look ep v side) = sideMatches addr look ep v side := by
            simp [endpointPasses, hne]
          cases hside : pceSide labels.hrefOf (some ep) with
          | none =>
              have hstays : goesToPce labels.hrefOf ep = false := by
                rw [pceSide_of_not_isEmpty hne] at hside
                cases hgo : goesToPce labels.hrefOf ep with
                | false => rfl
                | true =>
                    rw [if_pos hgo, Option.map_eq_none_iff] at hside
                    have hmap : (ep.labels.mapM (labelActors labels.hrefOf)).isSome = true := by
                      simp only [goesToPce, Bool.and_eq_true] at hgo
                      rw [mapM_isSome, ← hgo.2]
                      congr 1
                      funext c
                      rw [labelActors, mapM_isSome]
                      congr 1
                      funext value
                      exact Option.isSome_map
                    rw [hside] at hmap
                    simp at hmap
              simp [includeMet, hpass, lostEnd, hstays]
          | some groups =>
              obtain ⟨hgo, hmet⟩ := includeMet_pceSide labels hne hside (v.side side)
              rw [Option.getD_some, hmet, hpass, sideMatches_of_goesToPce hne hgo addr look]
              simp only [Option.isNone_some, Bool.false_eq_true, if_false, endpointPasses,
                Bool.and_true]
              cases hp : pushedMet ep (v.side side) with
              | true => simp [lostEnd, hp]
              | false => simp

/-- What the PCE leaves out, the endpoint's exclusion does too. -/
theorem sideMatches_of_pceExclude (labels : LabelHrefs) {ep : EndpointFilter} (addr : Addresses)
    (look : Lookups) {v : FlowView} {side : Side}
    (h : excludeMet labels (pceExclude labels.hrefOf (some ep)) (v.side side) = true) :
    ep.isEmpty = false ∧ sideMatches addr look ep v side = true := by
  unfold pceExclude at h
  cases hint : ep.intersects with
  | true => simp [hint, excludeMet] at h
  | false =>
      simp only [hint, Bool.false_eq_true, if_false, excludeMet, List.any_append,
        Bool.or_eq_true] at h
      -- Either part of the endpoint makes it set, and holds.
      have hparts : (ep.hasLabels && labelsHold look ep (v.side side).labels) = true ∨
          (ep.hasHosts && hostsHold addr look ep (v.side side)) = true := by
        rcases h with (hlabel | hhref) | hip
        · refine Or.inl ?_
          split at hlabel
          next c hc =>
            by_cases hgroups : ep.labelGroups = []
            · rw [if_pos hgroups] at hlabel
              obtain ⟨actor, hactor, hmet⟩ := List.any_eq_true.1 hlabel
              obtain ⟨value, hvalue, hbind⟩ := List.mem_filterMap.1 hactor
              obtain ⟨href, hhref, hsome⟩ := Option.bind_eq_some_iff.1 hbind
              by_cases hempty : href = ""
              · rw [if_pos hempty] at hsome
                simp at hsome
              · rw [if_neg hempty, Option.some.injEq] at hsome
                subst hsome
                simp only [Actor.met, labels.label_href _ _ hhref, decide_eq_true_eq] at hmet
                rw [Bool.and_eq_true]
                refine ⟨by simp [EndpointFilter.hasLabels, hc], labelsHold_of_labelsListed ?_⟩
                rw [labelsListed, if_neg (by simp [hgroups]), hc, List.all_cons, List.all_nil,
                  Bool.and_true, labelListed, hmet]
                exact decide_eq_true hvalue
            · rw [if_neg hgroups] at hlabel
              simp at hlabel
          next => simp at hlabel
        · refine Or.inr ?_
          rw [List.any_map, List.any_eq_true] at hhref
          obtain ⟨href, hin, hmet⟩ := hhref
          simp only [Function.comp, Actor.met, decide_eq_true_eq] at hmet
          have hset : ep.hasHosts = true := by
            cases hl : ep.hrefs with
            | nil => simp [hl] at hin
            | cons x xs => simp [EndpointFilter.hasHosts, hl]
          simp [hset, hostsHold, hmet, hin]
        · refine Or.inr ?_
          rw [List.any_map, List.any_eq_true] at hip
          obtain ⟨ip, hin, hmet⟩ := hip
          simp only [Function.comp, Actor.met, decide_eq_true_eq] at hmet
          have hset : ep.hasHosts = true := by
            cases hl : ep.ips with
            | nil => simp [EndpointFilter.exactIps, hl] at hin
            | cons x xs => simp [EndpointFilter.hasHosts, hl]
          simp [hset, hostsHold, hmet, hin]
      have hne : ep.isEmpty = false := by
        unfold EndpointFilter.isEmpty
        cases hl : ep.hasLabels <;> cases hh : ep.hasHosts <;> simp_all
      refine ⟨hne, ?_⟩
      rw [sideMatches_of_not_intersects hint hne, Bool.or_eq_true]
      exact hparts

/-- An exclusion that the residual makes leaves nothing for the PCE to leave out. -/
theorem pceExclude_and_residual (labels : LabelHrefs) (ep : Option EndpointFilter)
    (addr : Addresses) (look : Lookups) (v : FlowView) (side : Side) :
    (!excludeMet labels (pceExclude labels.hrefOf ep) (v.side side) &&
      endpointPasses ep true (fun ep => sideMatches addr look ep v side)) =
    endpointPasses ep true (fun ep => sideMatches addr look ep v side) := by
  cases ep with
  | none => rfl
  | some ep =>
      cases hmet : excludeMet labels (pceExclude labels.hrefOf (some ep)) (v.side side) with
      | false => rfl
      | true =>
          obtain ⟨hne, hholds⟩ := sideMatches_of_pceExclude labels addr look hmet
          simp [endpointPasses, hne, hholds]

/-! ## Services at the PCE -/

/-- A port entry at the PCE is the port condition, unless it asks for no port. -/
theorem pcePort_met {p : PortProto} (hp : p.port ≠ some (-1)) (v : FlowView) :
    PcePort.met v (pcePort p) = portMatches p v := by
  have hshape := p.shape
  unfold portShape at hshape
  unfold PcePort.met portMatches pcePort
  congr 1
  cases hport : p.port with
  | none =>
      cases hto : p.toPort with
      | none => simp [portRangeHolds]
      | some hi => simp [hport, hto] at hshape
  | some lo =>
      rw [hport] at hp
      cases hto : p.toPort with
      | none =>
          have hlo : lo ≠ -1 := fun h => hp (by rw [h])
          cases hv : v.port with
          | none =>
              simp only [portRangeHolds, portOrNone, hv, Option.getD_none]
              exact (decide_eq_false fun h => hlo h.symm).symm
          | some port =>
              simp only [portRangeHolds, portOrNone, hv, Option.getD_some, Option.getD_none,
                ← Bool.decide_and]
              refine decide_eq_decide.2 ⟨fun h => ?_, fun h => ?_⟩ <;> omega
      | some hi =>
          simp only [hport, hto, Bool.and_eq_true, decide_eq_true_eq] at hshape
          cases hv : v.port with
          | none =>
              simp only [portRangeHolds, portOrNone, hv, Option.getD_none]
              rw [decide_eq_false (by omega), Bool.false_and]
          | some port => simp [portRangeHolds, portOrNone, hv]

theorem any_pcePort {ports : List PortProto} (h : (ports.any fun p => p.port = some (-1)) = false)
    (v : FlowView) :
    (ports.map pcePort).any (PcePort.met v) = ports.any fun p => portMatches p v := by
  rw [List.any_map, Bool.eq_iff_iff, List.any_eq_true, List.any_eq_true]
  refine exists_congr fun p => and_congr_right fun hp => ?_
  rw [Function.comp, pcePort_met (by simpa using List.any_eq_false.1 h p hp)]

/-- The pushed services and the residual's. -/
theorem servicesInclude_and_residual (spec : FilterSpec) (look : Lookups) (v : FlowView) :
    (((if noportIn spec then [] else spec.ports.map pcePort).isEmpty ||
        (if noportIn spec then [] else spec.ports.map pcePort).any (PcePort.met v)) &&
      ((if noportIn spec then spec.ports else []).isEmpty && spec.services.isEmpty ||
        serviceSet look (if noportIn spec then spec.ports else []) spec.services v)) =
    (spec.ports.isEmpty && spec.services.isEmpty ||
      serviceSet look spec.ports spec.services v) := by
  cases hno : noportIn spec with
  | true => simp
  | false =>
      have hparts := hno
      simp only [noportIn, Bool.or_eq_false_iff, Bool.not_eq_false', List.isEmpty_iff] at hparts
      obtain ⟨hports, hservices⟩ := hparts
      rw [if_neg Bool.false_ne_true, if_neg Bool.false_ne_true, any_pcePort hports]
      simp [serviceSet, hservices]

/-- The services that the PCE leaves out and those that the residual does. -/
theorem servicesExclude_and_residual (spec : FilterSpec) (look : Lookups) (v : FlowView) :
    (!(if noportEx spec then [] else spec.excludePorts.map pcePort).any (PcePort.met v) &&
      !serviceSet look (if noportEx spec then spec.excludePorts else []) spec.excludeServices v) =
    !serviceSet look spec.excludePorts spec.excludeServices v := by
  cases hno : noportEx spec with
  | true => simp
  | false =>
      rw [if_neg Bool.false_ne_true, if_neg Bool.false_ne_true, any_pcePort hno]
      simp [serviceSet, Bool.not_or]

/-! ## Query and residual together -/

variable (u : Unicode) (addr : Addresses) (look : Lookups) (labels : LabelHrefs)

/-- The record passes the filter, and it begins in the cut off part of the window's last
second or an end of it is lost. -/
def FilterSpec.lostAtPce (spec : FilterSpec) (v : FlowView) : Prop :=
  let keyed := fun ep side => sideMatches addr look ep v side
  (spec.commonHolds u look v = true ∧ spec.includesHold keyed (userOneOf u) v = true ∧
    spec.excludesMet keyed = false) ∧
    (pceTime spec.stop < v.firstDetected ∨
      lostEnd labels.hrefOf look spec.src v.src = true ∨
      lostEnd labels.hrefOf look spec.dst v.dst = true)

/-- The query and the residual accept what the filter accepts, less what is lost. -/
theorem FilterSpec.selects_and_residual (spec : FilterSpec) (maxResults : Nat)
    (queryName : String) (r : FlowRecord) :
    let split := spec.toPcePayload maxResults queryName labels.hrefOf
    (split.1.selects labels r.view && split.2.matches u addr look r.view) =
      (spec.matches u addr look r.view &&
        (decide (r.view.firstDetected ≤ pceTime spec.stop) &&
          !lostEnd labels.hrefOf look spec.src r.view.src &&
          !lostEnd labels.hrefOf look spec.dst r.view.dst)) := by
  obtain ⟨v, hv⟩ : ∃ v, v = r.view := ⟨_, rfl⟩
  have hsrc := pceSide_and_residual labels spec.src addr look v .src
  have hdst := pceSide_and_residual labels spec.dst addr look v .dst
  have hsrcOut := pceExclude_and_residual labels spec.srcExclude addr look v .src
  have hdstOut := pceExclude_and_residual labels spec.dstExclude addr look v .dst
  have hin := servicesInclude_and_residual spec look v
  have hout := servicesExclude_and_residual spec look v
  have hdecisions : (((spec.decisions.map PolicyDecision.value).isEmpty ||
      decide (v.policyDecision ∈ spec.decisions.map PolicyDecision.value))) =
      (spec.decisions.isEmpty ||
        decide (v.policyDecision ∈ spec.decisions.map PolicyDecision.value)) := by
    cases spec.decisions <;> rfl
  have hwindow : (decide (pceTime spec.start ≤ v.lastDetected) &&
      decide (v.firstDetected ≤ pceTime spec.stop) &&
      !(decide (v.lastDetected < spec.start) || decide (spec.stop < v.firstDetected))) =
      (!(decide (v.lastDetected < spec.start) || decide (spec.stop < v.firstDetected)) &&
        decide (v.firstDetected ≤ pceTime spec.stop)) := by
    have hle := pceTime_le spec.start
    rw [Bool.eq_iff_iff]
    simp only [Bool.and_eq_true, Bool.not_eq_true', Bool.or_eq_false_iff, decide_eq_true_eq,
      decide_eq_false_iff_not]
    omega
  simp only [← hv, FilterSpec.toPcePayload, TrafficQuery.selects, FilterSpec.matches]
  rw [hdecisions]
  simp only [FlowView.side] at hsrc hdst hsrcOut hdstOut
  rw [Bool.eq_iff_iff] at hsrc hdst hsrcOut hdstOut hin hout hwindow ⊢
  simp only [Bool.and_eq_true, and_assoc] at hsrc hdst hsrcOut hdstOut hin hout hwindow ⊢
  constructor
  · rintro ⟨hstart, hbegin, hsi, hso, hdi, hdo, hpi, hpo, hd, hprimary, hover, hsr, hdr, hsx, hdx,
      hei, heix, hpr, hpxr, hws, hwsx, htr, htrx, hproc, _, hip, hiu, hsp, hsu, htext, hsys⟩
    obtain ⟨hover, hbegin⟩ := hwindow.1 ⟨hstart, hbegin, hover⟩
    obtain ⟨hs, hsl⟩ := hsrc.1 ⟨hsi, hsr⟩
    obtain ⟨hdest, hdl⟩ := hdst.1 ⟨hdi, hdr⟩
    exact ⟨hprimary, hover, hs, hdest, hsx, hdx, hei, heix, hin.1 ⟨hpi, hpr⟩, hout.1 ⟨hpo, hpxr⟩,
      hws, hwsx, htr, htrx, hproc, hd, hip, hiu, hsp, hsu, htext, hsys, hbegin, hsl, hdl⟩
  · rintro ⟨hprimary, hover, hs, hdest, hsx, hdx, hei, heix, hp, hpx, hws, hwsx, htr, htrx, hproc,
      hd, hip, hiu, hsp, hsu, htext, hsys, hbegin, hsl, hdl⟩
    obtain ⟨hstart, hbegin, hover⟩ := hwindow.2 ⟨hover, hbegin⟩
    obtain ⟨hsi, hsr⟩ := hsrc.2 ⟨hs, hsl⟩
    obtain ⟨hdi, hdr⟩ := hdst.2 ⟨hdest, hdl⟩
    obtain ⟨hpi, hpr⟩ := hin.2 hp
    obtain ⟨hpo, hpxr⟩ := hout.2 hpx
    exact ⟨hstart, hbegin, hsi, (hsrcOut.2 hsx).1, hdi, (hdstOut.2 hdx).1, hpi, hpo, hd, hprimary,
      hover, hsr, hdr, hsx, hdx, hei, heix, hpr, hpxr, hws, hwsx, htr, htrx, hproc, rfl, hip, hiu,
      hsp, hsu, htext, hsys⟩

/-- Query and residual agree with the filter exactly on the records that are not lost. -/
theorem FilterSpec.toPcePayload_agrees_iff (spec : FilterSpec) (maxResults : Nat)
    (queryName : String) (r : FlowRecord) :
    let split := spec.toPcePayload maxResults queryName labels.hrefOf
    (split.1.selects labels r.view && split.2.matches u addr look r.view) =
        spec.matches u addr look r.view ↔
      ¬ spec.lostAtPce u addr look labels r.view := by
  intro split
  rw [FilterSpec.selects_and_residual, FilterSpec.matches_eq]
  simp only [FilterSpec.lostAtPce]
  cases spec.commonHolds u look r.view <;>
    cases spec.includesHold (fun ep side => sideMatches addr look ep r.view side) (userOneOf u)
      r.view <;>
    cases spec.excludesMet (fun ep side => sideMatches addr look ep r.view side) <;>
    cases lostEnd labels.hrefOf look spec.src r.view.src <;>
    cases lostEnd labels.hrefOf look spec.dst r.view.dst <;>
    simp

/-! ## A record that the split loses -/

/-- The hrefs of two labels. -/
def envHrefs : LabelHrefs where
  hrefOf := fun l =>
    if l = ("env", "prod") then some "/labels/1"
    else if l = ("env", "test") then some "/labels/2" else none
  labelOf := fun h =>
    if h = "/labels/1" then some ("env", "prod")
    else if h = "/labels/2" then some ("env", "test") else none
  label_href := by
    intro l h
    split
    next hl =>
      rintro ⟨⟩
      simp [hl]
    next =>
      split
      next hl =>
        rintro ⟨⟩
        simp [hl]
      next => simp

/-- A live flow from a host labelled `env=prod`. -/
def prodRecord : FlowRecord where
  direction := .outbound
  srcIp := "10.0.0.1"
  dstIp := "10.0.0.2"
  srcHref := none
  dstHref := none
  srcHostname := none
  dstHostname := none
  srcManaged := false
  dstManaged := false
  srcMode := none
  dstMode := none
  srcLabels := [("env", "prod")]
  dstLabels := []
  port := some 443
  proto := 6
  ownProcess := none
  ownUser := none
  windowsService := none
  policyDecision := "allowed"
  firstDetected := seconds 10
  lastDetected := seconds 20
  numConnections := 1
  bytesIn := none
  bytesOut := none
  state := none
  transmission := none
  networkHref := none

/-- The split loses a record that `env=prod or env=test` accepts. -/
theorem FilterSpec.toPcePayload_loses :
    ¬ ∀ (u : Unicode) (addr : Addresses) (look : Lookups) (labels : LabelHrefs)
      (spec : FilterSpec) (maxResults : Nat) (queryName : String) (r : FlowRecord),
      let split := spec.toPcePayload maxResults queryName labels.hrefOf
      (split.1.selects labels r.view && split.2.matches u addr look r.view) =
        spec.matches u addr look r.view := by
  intro h
  have hsplit := h .ascii noAddresses prodTables.lookups envHrefs prodOrTest 10 "q" prodRecord
  revert hsplit
  decide

end IllumioOps
