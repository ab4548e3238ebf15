import IllumioOps.Filter.ToSql

/-!
# What the endpoint clauses mean

The clause of one endpoint is never unknown, and its truth value is `sideListed`: the
test of `sideMatches` with every listed label condition read on its own. With label
groups the counting of keys is the test of `labelsHold`; without them the two label
readings differ exactly when one key is listed in several conditions.
-/

set_option autoImplicit false

namespace IllumioOps

open IllumioOps.Sql

/-! ## The label part, condition by condition -/

/-- The end holds one of the values that one condition lists. -/
def labelListed (labels : String → Option String) (c : LabelCond) : Bool :=
  match labels c.key with
  | none => false
  | some value => value ∈ c.values

/-- The labels part as the clause tests it. -/
def labelsListed (look : Lookups) (ep : EndpointFilter) (labels : String → Option String) : Bool :=
  if ep.labelGroups ≠ [] then labelsHold look ep labels else ep.labels.all (labelListed labels)

/-- `sideMatches` with the labels part as the clause tests it. -/
def sideListed (addr : Addresses) (look : Lookups) (ep : EndpointFilter) (v : FlowView)
    (side : Side) : Bool :=
  combineParts ep.matchMode
    [(ep.hasLabels, ep.hasLabels && labelsListed look ep (v.side side).labels),
      (ep.hasHosts, hostsHold addr look ep (v.side side))]

theorem labelsHold_iff {look : Lookups} {ep : EndpointFilter} {labels : String → Option String} :
    labelsHold look ep labels = true ↔
      (∀ h ∈ ep.labelGroups, (look.labelGroups h).isSome) ∧
        ∀ k ∈ allowedKeys look ep, ∃ value, labels k = some value ∧
          value ∈ allowedValues look ep k := by
  unfold labelsHold
  rw [Bool.and_eq_true, List.all_eq_true, List.all_eq_true]
  refine and_congr Iff.rfl (forall_congr' fun k => imp_congr Iff.rfl ?_)
  cases labels k with
  | none => simp
  | some value => simp

theorem labelListed_iff {labels : String → Option String} {c : LabelCond} :
    labelListed labels c = true ↔ ∃ value, labels c.key = some value ∧ value ∈ c.values := by
  unfold labelListed
  cases labels c.key with
  | none => simp
  | some value => simp

/-- Meeting every listed condition meets every key. -/
theorem labelsHold_of_labelsListed {look : Lookups} {ep : EndpointFilter}
    {labels : String → Option String} (h : labelsListed look ep labels = true) :
    labelsHold look ep labels = true := by
  by_cases hg : ep.labelGroups ≠ []
  · rwa [labelsListed, if_pos hg] at h
  · rw [labelsListed, if_neg hg, List.all_eq_true] at h
    rw [ne_eq, not_not] at hg
    rw [labelsHold_iff]
    refine ⟨fun x hx => by simp [hg] at hx, fun k hk => ?_⟩
    rw [allowedKeys, hg, List.filterMap_nil, List.append_nil, List.mem_map] at hk
    obtain ⟨c, hc, rfl⟩ := hk
    obtain ⟨value, hlabel, hvalue⟩ := labelListed_iff.1 (h c hc)
    refine ⟨value, hlabel, ?_⟩
    rw [allowedValues, List.mem_append]
    exact Or.inl (List.mem_flatMap.2 ⟨c, List.mem_filter.2 ⟨hc, by simp⟩, hvalue⟩)

/-- With one condition per key, or with label groups, the two label readings agree. -/
theorem labelsListed_eq_labelsHold {look : Lookups} {ep : EndpointFilter}
    (hkeys : ep.labelGroups = [] → (ep.labels.map LabelCond.key).Nodup)
    (labels : String → Option String) :
    labelsListed look ep labels = labelsHold look ep labels := by
  refine Bool.eq_iff_iff.2 ⟨labelsHold_of_labelsListed, fun h => ?_⟩
  by_cases hg : ep.labelGroups ≠ []
  · rwa [labelsListed, if_pos hg]
  · rw [labelsListed, if_neg hg, List.all_eq_true]
    rw [ne_eq, not_not] at hg
    intro c hc
    obtain ⟨-, hall⟩ := labelsHold_iff.1 h
    have hkey : c.key ∈ allowedKeys look ep :=
      List.mem_append_left _ (List.mem_map_of_mem hc)
    obtain ⟨value, hlabel, hvalue⟩ := hall c.key hkey
    rw [allowedValues, hg, List.flatMap_nil, List.append_nil, List.mem_flatMap] at hvalue
    obtain ⟨d, hd, hvalue⟩ := hvalue
    obtain ⟨hd, hdk⟩ := List.mem_filter.1 hd
    have hdc : d = c := List.inj_on_of_nodup_map (hkeys hg) hd hc (by simpa using hdk)
    exact labelListed_iff.2 ⟨value, hlabel, hdc ▸ hvalue⟩

theorem combineParts_mono {mode : MatchMode} {a b labels labels' hosts : Bool}
    (h : labels = true → labels' = true)
    (hheld : combineParts mode [(a, labels), (b, hosts)] = true) :
    combineParts mode [(a, labels'), (b, hosts)] = true := by
  cases mode <;> cases a <;> cases b <;> cases labels <;> cases labels' <;> cases hosts <;>
    simp_all [combineParts]

/-- The clause of an endpoint accepts no end that the record test refuses. -/
theorem sideMatches_of_sideListed {addr : Addresses} {look : Lookups} {ep : EndpointFilter}
    {v : FlowView} {side : Side} (h : sideListed addr look ep v side = true) :
    sideMatches addr look ep v side = true := by
  refine combineParts_mono (fun hl => ?_) h
  rw [Bool.and_eq_true] at hl ⊢
  exact ⟨hl.1, labelsHold_of_labelsListed hl.2⟩

/-! ## Scopes and columns -/

@[simp] theorem bind_self (env : Env) (scan : String) (r : Row) : env.bind scan r scan = r :=
  if_pos rfl

theorem bind_of_ne (env : Env) {a scan : String} (h : a ≠ scan) (r : Row) :
    env.bind scan r a = env a := if_neg h

section Clauses

variable {t : LookupTables} {u : Unicode} {addr : Addresses} {row : FlowRow} {env : Env}

theorem denotes_column (henv : env "f" = row.sqlRow) (db : Database) (c : String) :
    Denotes db env (column c) (row.sqlRow c) :=
  (Denotes.col "f" c).of_eq (congrFun henv c)

theorem denotes_scan (db : Database) (env : Env) (scan c : String) (r : Row) :
    Denotes db (env.bind scan r) (.col scan c) (r c) :=
  (Denotes.col scan c).of_eq (congrFun (bind_self env scan r) c)

/-- `COALESCE(<set>, -1)`. -/
def setValue (set : Option Nat) : Value := (Value.ofInt (set.map Int.ofNat)).coalesce (.int (-1))

@[simp] theorem setValue_ne_null (set : Option Nat) : setValue set ≠ .null := by
  cases set <;> simp [setValue, Value.ofInt, Value.coalesce]

/-- The label set of one end. -/
def rowLabelSet (row : FlowRow) : Side → Option Nat
  | .src => row.srcLabelSet
  | .dst => row.dstLabelSet

@[simp] theorem view_side_labels (row : FlowRow) (ls : LabelSets) (side : Side) :
    ((row.view ls).side side).labels = ls.labelsOf (rowLabelSet row side) := by
  cases side <;> rfl

theorem denotes_labelSet (henv : env "f" = row.sqlRow) (db : Database) (side : Side) :
    Denotes db env (labelSetColumn side) (setValue (rowLabelSet row side)) := by
  have h := (denotes_column henv db side.labelSet).coalesce (Denotes.lit (.int (-1)))
  cases side <;> exact h

theorem ofText_texts_ne_null (values : List String) : ∀ w ∈ values.map Value.text, w ≠ .null := by
  intro w hw
  obtain ⟨s, _, rfl⟩ := List.mem_map.1 hw
  simp

theorem selects_inTexts {db : Database} {tm : TermPiece} {v : Value} (h : Denotes db env tm v)
    (values : List String) : Selects db env (inTexts tm values) (∃ s ∈ values, v = .text s) :=
  (Selects.oneOf h (ofText_texts_ne_null values)).of_iff (by
    rw [List.mem_map]
    exact exists_congr fun s => and_congr Iff.rfl eq_comm)

theorem decides_inTexts {db : Database} {tm : TermPiece} {s : String}
    (h : Denotes db env tm (.text s)) (values : List String) :
    Decides db env (inTexts tm values) (decide (s ∈ values)) :=
  (Decides.oneOf h (by simp) (ofText_texts_ne_null values)).of_eq (by simp)

/-! ## Label sets -/

/-- The row's set is among the sets that have a member with `q`. -/
theorem setValue_mem_map (ls : LabelSets) (q : LabelSetMember → Bool) (set : Option Nat) :
    setValue set ∈ (ls.members.filter q).map (fun m => Value.int m.setId) ↔
      ∃ id, set = some id ∧ ∃ m ∈ ls.members, m.setId = id ∧ q m = true := by
  simp only [List.mem_map, List.mem_filter]
  cases set with
  | none =>
      constructor
      · rintro ⟨m, _, hm⟩
        simp only [setValue, Option.map_none, Value.ofInt, Value.coalesce, Value.int.injEq] at hm
        omega
      · rintro ⟨id, hid, _⟩
        simp at hid
  | some id =>
      constructor
      · rintro ⟨m, ⟨hm, hq⟩, hid⟩
        simp only [setValue, Option.map_some, Value.ofInt, Value.coalesce, Value.int.injEq] at hid
        exact ⟨id, rfl, m, hm, Int.ofNat_inj.1 hid, hq⟩
      · rintro ⟨id', hid, m, hm, hmid, hq⟩
        cases hid
        subst hmid
        exact ⟨m, ⟨hm, hq⟩, rfl⟩

theorem decides_sqlLabelCond (henv : env "f" = row.sqlRow) (side : Side) (c : LabelCond) :
    Decides (t.database u addr) env (sqlLabelCond side c)
      (labelListed (t.labelSets.labelsOf (rowLabelSet row side)) c) := by
  have hw : ∀ r : Row, Selects (t.database u addr) (env.bind "m" r)
      ((Piece.eq (.col "m" "key") (.param (.text c.key))).and
        (inTexts (.col "m" "value") c.values))
      ((r "key" ≠ .null ∧ r "key" = .text c.key) ∧ ∃ s ∈ c.values, r "value" = .text s) :=
    fun r => (Selects.eq (denotes_scan _ _ "m" "key" r) (Denotes.param _)).and
      (selects_inTexts (denotes_scan _ _ "m" "value" r) c.values)
  classical
  have hrows := (Yields.select "label_set_members" "m"
    (fun r => denotes_scan _ _ "m" "set_id" r) hw).of_eq
    (show _ = (((t.labelSets.members.filter fun m => m.key = c.key ∧ m.value ∈ c.values).map
      fun m => Value.int m.setId).map fun w => [w]) by
        show ((t.labelSets.members.map LabelSetMember.sqlRow).filter _).map _ = _
        rw [List.filter_map, List.map_map, List.map_map]
        refine congrArg (List.map _) (List.filter_congr fun m _ => ?_)
        simp [LabelSetMember.sqlRow])
  refine (Decides.inQuery (denotes_labelSet henv _ side) hrows (setValue_ne_null _) ?_).of_eq ?_
  · intro w hw
    obtain ⟨m, _, rfl⟩ := List.mem_map.1 hw
    simp
  · rw [Bool.eq_iff_iff, decide_eq_true_eq, setValue_mem_map, labelListed_iff]
    constructor
    · rintro ⟨id, hset, m, hm, rfl, hq⟩
      simp only [decide_eq_true_eq] at hq
      refine ⟨m.value, ?_, hq.2⟩
      rw [hset, LabelSets.labelsOf_eq_some, ← hq.1]
      exact hm
    · rintro ⟨value, hlabel, hvalue⟩
      cases hset : rowLabelSet row side with
      | none => simp [hset, LabelSets.labelsOf] at hlabel
      | some id =>
          rw [hset, LabelSets.labelsOf_eq_some] at hlabel
          exact ⟨id, rfl, _, hlabel, rfl, by simpa using hvalue⟩

/-! ## Label groups -/

theorem mem_sortedSet {xs : List String} {x : String} : x ∈ sortedSet xs ↔ x ∈ xs := by
  rw [sortedSet, List.mem_insertionSort, List.mem_dedup]

theorem sortedSet_nodup (xs : List String) : (sortedSet xs).Nodup :=
  (List.perm_insertionSort _ _).nodup_iff.2 (List.nodup_dedup xs)

namespace LookupTables

theorem lookups_labelGroups_eq_some {t : LookupTables} {h key : String}
    {members : List String} :
    t.lookups.labelGroups h = some (key, members) ↔
      (∃ g ∈ t.labelGroups, g.href = h ∧ g.key = key) ∧
        members = (t.labelGroupMembers.filter fun m => m.href = h).map
          LabelGroupMember.value := by
  show (t.labelGroups.find? fun g => g.href = h).map _ = _ ↔ _
  rw [Option.map_eq_some_iff]
  constructor
  · rintro ⟨g, hg, heq⟩
    obtain ⟨rfl, rfl⟩ := Prod.mk.injEq .. ▸ heq
    have hhref := List.find?_some hg
    exact ⟨⟨g, List.mem_of_find?_eq_some hg, by simpa using hhref, rfl⟩, rfl⟩
  · rintro ⟨⟨g, hg, rfl, rfl⟩, rfl⟩
    refine ⟨g, ?_, rfl⟩
    cases hfind : t.labelGroups.find? fun g' => g'.href = g.href with
    | none => exact absurd (List.find?_eq_none.1 hfind g hg) (by simp)
    | some g' =>
        have hhref := List.find?_some hfind
        rw [List.inj_on_of_nodup_map t.groups_unique (List.mem_of_find?_eq_some hfind) hg
          (by simpa using hhref)]

theorem lookups_labelGroups_isSome {t : LookupTables} {h : String} :
    (t.lookups.labelGroups h).isSome ↔ ∃ g ∈ t.labelGroups, g.href = h := by
  rw [Option.isSome_iff_exists]
  constructor
  · rintro ⟨⟨key, members⟩, hsome⟩
    obtain ⟨⟨g, hg, hh, _⟩, _⟩ := lookups_labelGroups_eq_some.1 hsome
    exact ⟨g, hg, hh⟩
  · rintro ⟨g, hg, hh⟩
    exact ⟨_, lookups_labelGroups_eq_some.2 ⟨⟨g, hg, hh, rfl⟩, rfl⟩⟩

end LookupTables

/-- The `(key, value)` pairs that the clause allows. -/
def allowedPairs (t : LookupTables) (ep : EndpointFilter) : List (String × String) :=
  ((t.labelGroupMembers.filter fun m => m.href ∈ ep.labelGroups).map fun m => (m.key, m.value)) ++
    labelPairs ep

theorem mem_labelPairs {ep : EndpointFilter} {key value : String} :
    (key, value) ∈ labelPairs ep ↔ ∃ c ∈ ep.labels, c.key = key ∧ value ∈ c.values := by
  simp only [labelPairs, List.mem_flatMap, List.mem_map, Prod.mk.injEq]
  constructor
  · rintro ⟨c, hc, v, hv, rfl, rfl⟩
    exact ⟨c, hc, rfl, hv⟩
  · rintro ⟨c, hc, rfl, hv⟩
    exact ⟨c, hc, value, hv, rfl, rfl⟩

/-- When every named group exists, the allowed pairs are the allowed values by key. -/
theorem mem_allowedPairs {ep : EndpointFilter}
    (hexist : ∀ h ∈ ep.labelGroups, ∃ g ∈ t.labelGroups, g.href = h) {key value : String} :
    (key, value) ∈ allowedPairs t ep ↔ value ∈ allowedValues t.lookups ep key := by
  rw [allowedPairs, List.mem_append, mem_labelPairs, allowedValues, List.mem_append]
  refine or_comm.trans (or_congr ?_ ?_)
  · simp only [List.mem_flatMap, List.mem_filter, decide_eq_true_eq, and_assoc]
  · simp only [List.mem_map, List.mem_filter, decide_eq_true_eq, List.mem_flatMap, Prod.mk.injEq]
    constructor
    · rintro ⟨m, ⟨hm, hhref⟩, rfl, rfl⟩
      obtain ⟨g, hg, hgh⟩ := hexist m.href hhref
      refine ⟨m.href, hhref, ?_⟩
      rw [LookupTables.lookups_labelGroups_eq_some.2
        ⟨⟨g, hg, hgh, (t.members_key g hg m hm hgh.symm).symm⟩, rfl⟩]
      simp only [if_pos]
      exact List.mem_map_of_mem (List.mem_filter.2 ⟨hm, by simp⟩)
    · rintro ⟨h, hh, hvalue⟩
      cases hlook : t.lookups.labelGroups h with
      | none => simp [hlook] at hvalue
      | some entry =>
          obtain ⟨key', members⟩ := entry
          obtain ⟨⟨g, hg, hgh, hgk⟩, rfl⟩ := LookupTables.lookups_labelGroups_eq_some.1 hlook
          simp only [hlook] at hvalue
          by_cases hkey : key' = key
          · rw [if_pos hkey] at hvalue
            obtain ⟨m, hm, rfl⟩ := List.mem_map.1 hvalue
            obtain ⟨hm, hmh⟩ := List.mem_filter.1 hm
            have hmh' : m.href = h := by simpa using hmh
            refine ⟨m, ⟨hm, hmh' ▸ hh⟩, ?_, rfl⟩
            rw [t.members_key g hg m hm (hmh'.trans hgh.symm), hgk, hkey]
          · rw [if_neg hkey] at hvalue
            simp at hvalue

theorem mem_allowedKeys {ep : EndpointFilter} {key : String} :
    key ∈ allowedKeys t.lookups ep ↔
      (∃ g ∈ t.labelGroups, g.href ∈ ep.labelGroups ∧ g.key = key) ∨
        ∃ c ∈ ep.labels, c.key = key := by
  rw [allowedKeys, List.mem_append, List.mem_map, List.mem_filterMap, or_comm]
  refine or_congr ?_ Iff.rfl
  constructor
  · rintro ⟨h, hh, hkey⟩
    obtain ⟨⟨key', members⟩, hlook, rfl⟩ := Option.map_eq_some_iff.1 hkey
    obtain ⟨⟨g, hg, hgh, hgk⟩, _⟩ := LookupTables.lookups_labelGroups_eq_some.1 hlook
    exact ⟨g, hg, hgh ▸ hh, hgk⟩
  · rintro ⟨g, hg, hgh, hgk⟩
    refine ⟨g.href, hgh, ?_⟩
    rw [LookupTables.lookups_labelGroups_eq_some.2 ⟨⟨g, hg, rfl, hgk⟩, rfl⟩]
    rfl

/-- An allowed pair's key is one of the part's keys. -/
theorem key_mem_of_mem_allowedPairs {ep : EndpointFilter}
    (hexist : ∀ h ∈ ep.labelGroups, ∃ g ∈ t.labelGroups, g.href = h) {key value : String}
    (hmem : (key, value) ∈ allowedPairs t ep) : key ∈ allowedKeys t.lookups ep := by
  rw [mem_allowedKeys]
  rw [allowedPairs, List.mem_append, mem_labelPairs] at hmem
  rcases hmem with hmem | ⟨c, hc, hck, _⟩
  · obtain ⟨m, hm, heq⟩ := List.mem_map.1 hmem
    obtain ⟨rfl, rfl⟩ := Prod.mk.injEq .. ▸ heq
    obtain ⟨hm, hmh⟩ := List.mem_filter.1 hm
    obtain ⟨g, hg, hgh⟩ := hexist m.href (by simpa using hmh)
    refine Or.inl ⟨g, hg, ?_, (t.members_key g hg m hm hgh.symm).symm⟩
    rw [hgh]
    simpa using hmh
  · exact Or.inr ⟨c, hc, hck⟩

theorem yields_sqlAllowed (db : Database) (hdb : db = t.database u addr) (env : Env)
    (ep : EndpointFilter) :
    Yields db env (sqlAllowed ep)
      (((allowedPairs t ep).map fun p => (Value.text p.1, Value.text p.2)).map
        fun p => [p.1, p.2]) := by
  classical
  subst hdb
  have hselect := Yields.selectPair "label_group_members" "g"
    (fun r => denotes_scan (t.database u addr) env "g" "key" r)
    (fun r => denotes_scan _ _ "g" "value" r)
    (fun r => selects_inTexts (denotes_scan _ _ "g" "href" r) (sortedSet ep.labelGroups))
  have hfold := hselect.foldl_unionAll
    ((labelPairs ep).map fun p => (Value.text p.1, Value.text p.2))
  rw [List.foldl_map] at hfold
  refine hfold.of_eq ?_
  show ((t.labelGroupMembers.map LabelGroupMember.sqlRow).filter _).map _ ++ _ = _
  rw [allowedPairs, List.map_append, List.map_append]
  congr 1
  rw [List.filter_map, List.map_map, List.map_map, List.map_map]
  refine congrArg (List.map _) (List.filter_congr fun m _ => ?_)
  simp [LabelGroupMember.sqlRow, mem_sortedSet]

theorem yields_sqlKeys (u : Unicode) (addr : Addresses) (env : Env) (ep : EndpointFilter) :
    ∃ rows, Yields (t.database u addr) env (sqlKeys ep) rows ∧
      ∀ v, v ∈ (rows.map fun r => r.headD .null) ↔
        ∃ k ∈ allowedKeys t.lookups ep, v = .text k := by
  classical
  have hselect := Yields.select "label_groups" "g"
    (fun r => denotes_scan (t.database u addr) env "g" "key" r)
    (fun r => selects_inTexts (denotes_scan _ _ "g" "href" r) (sortedSet ep.labelGroups))
  obtain ⟨rows, hrows, hmem⟩ := hselect.foldl_union
    ((sortedSet (ep.labels.map LabelCond.key)).map Value.text)
  rw [List.foldl_map] at hrows
  refine ⟨rows, hrows, fun v => ?_⟩
  have hgroups : ∀ r, r ∈ ((((t.database u addr).table "label_groups").filter fun r =>
      decide (∃ s ∈ sortedSet ep.labelGroups, r "href" = .text s)).map fun r => [r "key"]) ↔
      ∃ g ∈ t.labelGroups, g.href ∈ ep.labelGroups ∧ r = [.text g.key] := by
    intro r
    show r ∈ ((t.labelGroups.map LabelGroup.sqlRow).filter _).map _ ↔ _
    rw [List.filter_map, List.map_map, List.mem_map]
    constructor
    · rintro ⟨g, hg, rfl⟩
      obtain ⟨hg, hh⟩ := List.mem_filter.1 hg
      exact ⟨g, hg, by simpa [LabelGroup.sqlRow, mem_sortedSet] using hh, rfl⟩
    · rintro ⟨g, hg, hh, rfl⟩
      exact ⟨g, List.mem_filter.2 ⟨hg, by simpa [LabelGroup.sqlRow, mem_sortedSet] using hh⟩, rfl⟩
  rw [List.mem_map]
  constructor
  · rintro ⟨r, hr, rfl⟩
    rcases (hmem r).1 hr with hr | ⟨w, hw, rfl⟩
    · obtain ⟨g, hg, hh, rfl⟩ := (hgroups r).1 hr
      exact ⟨g.key, mem_allowedKeys.2 (Or.inl ⟨g, hg, hh, rfl⟩), rfl⟩
    · obtain ⟨k, hk, rfl⟩ := List.mem_map.1 hw
      obtain ⟨c, hc, rfl⟩ := List.mem_map.1 (mem_sortedSet.1 hk)
      exact ⟨c.key, mem_allowedKeys.2 (Or.inr ⟨c, hc, rfl⟩), rfl⟩
  · rintro ⟨k, hk, rfl⟩
    rcases mem_allowedKeys.1 hk with ⟨g, hg, hh, rfl⟩ | ⟨c, hc, rfl⟩
    · exact ⟨[.text g.key], (hmem _).2 (Or.inl ((hgroups _).2 ⟨g, hg, hh, rfl⟩)), rfl⟩
    · refine ⟨[.text c.key], (hmem _).2 (Or.inr ⟨_, ?_, rfl⟩), rfl⟩
      exact List.mem_map_of_mem (mem_sortedSet.2 (List.mem_map_of_mem hc))

/-- The count of the named groups is their number exactly when all of them exist. -/
theorem length_filter_eq_iff {hrefs named : List String} (hhrefs : hrefs.Nodup)
    (hnamed : named.Nodup) :
    (hrefs.filter fun h => h ∈ named).length = named.length ↔ ∀ h ∈ named, h ∈ hrefs := by
  have hsub : (hrefs.filter fun h => h ∈ named).Subperm named :=
    (hhrefs.filter _).subperm fun h hh => by simpa using (List.mem_filter.1 hh).2
  constructor
  · intro hlen h hh
    have hperm := hsub.perm_of_length_le hlen.ge
    exact (List.mem_filter.1 (hperm.mem_iff.2 hh)).1
  · intro hall
    refine le_antisymm hsub.length_le (List.Nodup.subperm hnamed fun h hh => ?_).length_le
    exact List.mem_filter.2 ⟨hall h hh, by simpa using hh⟩

theorem decides_groups_exist (t : LookupTables) (u : Unicode) (addr : Addresses) (env : Env)
    (ep : EndpointFilter) :
    Decides (t.database u addr) env
      (Piece.countEq
        (.select (.lit (.int 1)) "label_groups" "g"
          (inTexts (.col "g" "href") (sortedSet ep.labelGroups)))
        (sortedSet ep.labelGroups).length)
      (ep.labelGroups.all fun h => (t.lookups.labelGroups h).isSome) := by
  classical
  have hselect := Yields.select "label_groups" "g" (fun r => Denotes.lit (.int 1))
    (fun r => selects_inTexts (denotes_scan (t.database u addr) env "g" "href" r)
      (sortedSet ep.labelGroups))
  refine (Decides.countEq _ hselect).of_eq ?_
  have hlen : ((((t.database u addr).table "label_groups").filter fun r =>
      decide (∃ s ∈ sortedSet ep.labelGroups, r "href" = .text s)).map
        fun _ => [Value.int 1]).length =
      ((t.labelGroups.map LabelGroup.href).filter fun h => h ∈ sortedSet ep.labelGroups).length := by
    show (((t.labelGroups.map LabelGroup.sqlRow).filter _).map _).length = _
    rw [List.length_map, List.filter_map, List.filter_map, List.length_map, List.length_map]
    refine congrArg List.length (List.filter_congr fun g _ => ?_)
    simp [LabelGroup.sqlRow]
  rw [hlen, Bool.eq_iff_iff, decide_eq_true_eq,
    length_filter_eq_iff t.groups_unique (sortedSet_nodup _), List.all_eq_true]
  refine forall_congr' fun h => imp_congr mem_sortedSet ?_
  rw [LookupTables.lookups_labelGroups_isSome, List.mem_map]

local instance lawfulBEq_pair : LawfulBEq (String × String) := inferInstance

/-- The members that the clause allows. -/
def allowedMembers (t : LookupTables) (ep : EndpointFilter) : List LabelSetMember :=
  t.labelSets.members.filter fun m => (m.key, m.value) ∈ allowedPairs t ep

theorem allowedMembers_rows (t : LookupTables) (u : Unicode) (addr : Addresses) (ep : EndpointFilter) {P : Row → Prop} [DecidablePred P]
    (hP : ∀ m : LabelSetMember, P m.sqlRow ↔ (m.key, m.value) ∈ allowedPairs t ep) :
    (((t.database u addr).table "label_set_members").filter fun r => decide (P r)) =
      (allowedMembers t ep).map LabelSetMember.sqlRow := by
  show (t.labelSets.members.map LabelSetMember.sqlRow).filter _ = _
  rw [List.filter_map, allowedMembers]
  refine congrArg (List.map _) (List.filter_congr fun m _ => ?_)
  exact decide_eq_decide.2 (hP m)

/-- Counting keys is testing every key: the group of a set has as many distinct allowed
keys as the part has keys exactly when each key holds an allowed value. -/
theorem countDistinct_keys_iff {ep : EndpointFilter} {totals : List Value}
    (hexist : ∀ h ∈ ep.labelGroups, ∃ g ∈ t.labelGroups, g.href = h)
    (htotals : ∀ v, v ∈ totals ↔ ∃ k ∈ allowedKeys t.lookups ep, v = .text k) (id : Nat) :
    countDistinct (((allowedMembers t ep).filter fun m => m.setId = id).map
        fun m => Value.text m.key) = countDistinct totals ↔
      ∀ k ∈ allowedKeys t.lookups ep, ∃ value, t.labelSets.labelsOf (some id) k = some value ∧
        value ∈ allowedValues t.lookups ep k := by
  rw [countDistinct_eq_iff]
  · constructor
    · intro h k hk
      obtain ⟨m, hm, heq⟩ := List.mem_map.1 (h (.text k) ((htotals _).2 ⟨k, hk, rfl⟩) (by simp))
      obtain ⟨hm, hid⟩ := List.mem_filter.1 hm
      obtain ⟨hm, hallowed⟩ := List.mem_filter.1 hm
      have hkey : m.key = k := by simpa using heq
      have hset : m.setId = id := by simpa using hid
      refine ⟨m.value, ?_, ?_⟩
      · rw [LabelSets.labelsOf_eq_some, ← hkey, ← hset]
        exact hm
      · rw [← mem_allowedPairs hexist, ← hkey]
        simpa using hallowed
    · intro h w hw _
      obtain ⟨k, hk, rfl⟩ := (htotals w).1 hw
      obtain ⟨value, hlabel, hvalue⟩ := h k hk
      rw [LabelSets.labelsOf_eq_some] at hlabel
      refine List.mem_map.2 ⟨_, List.mem_filter.2 ⟨List.mem_filter.2 ⟨hlabel, ?_⟩, by simp⟩, rfl⟩
      simpa using (mem_allowedPairs hexist).2 hvalue
  · intro v hv _
    obtain ⟨m, hm, rfl⟩ := List.mem_map.1 hv
    obtain ⟨hm, _⟩ := List.mem_filter.1 hm
    obtain ⟨_, hallowed⟩ := List.mem_filter.1 hm
    exact (htotals _).2 ⟨m.key, key_mem_of_mem_allowedPairs hexist (by simpa using hallowed), rfl⟩

/-- The counted part is decided, and right when every named group exists. -/
theorem decides_groups_hold (t : LookupTables) (u : Unicode) (addr : Addresses)
    (henv : env "f" = row.sqlRow) (ep : EndpointFilter) (side : Side) (hne : ep.labelGroups ≠ []) :
    ∃ b, Decides (t.database u addr) env
      (.inQuery (labelSetColumn side)
        (.having (.col "m" "set_id") (.col "m" "key") "label_set_members" "m"
          (.inQueryPair (.col "m" "key") (.col "m" "value") (sqlAllowed ep)) (sqlKeys ep))) b ∧
      ((∀ h ∈ ep.labelGroups, ∃ g ∈ t.labelGroups, g.href = h) →
        b = labelsHold t.lookups ep (t.labelSets.labelsOf (rowLabelSet row side))) := by
  classical
  obtain ⟨totals, htotals, htotals_mem⟩ := yields_sqlKeys (t := t) u addr env ep
  have hw : ∀ r : Row, Selects (t.database u addr) (env.bind "m" r)
      (.inQueryPair (.col "m" "key") (.col "m" "value") (sqlAllowed ep))
      ((r "key", r "value") ∈ (allowedPairs t ep).map fun p => (Value.text p.1, Value.text p.2)) :=
    fun r => Selects.inQueryPair (denotes_scan _ _ "m" "key" r) (denotes_scan _ _ "m" "value" r)
      (yields_sqlAllowed _ rfl _ ep) (by
        intro p hp
        obtain ⟨q, _, rfl⟩ := List.mem_map.1 hp
        simp)
  have hrows := allowedMembers_rows t u addr ep
    (P := fun r => (r "key", r "value") ∈
      (allowedPairs t ep).map fun p => (Value.text p.1, Value.text p.2)) (by
      intro m
      simp [LabelSetMember.sqlRow])
  have hhaving := Yields.having "label_set_members" "m" (fun r => denotes_scan _ _ "m" "set_id" r)
    (fun r => denotes_scan _ _ "m" "key" r) hw htotals
  rw [hrows] at hhaving
  refine ⟨_, Decides.inQuery (denotes_labelSet henv _ side) hhaving (setValue_ne_null _) ?_, ?_⟩
  · intro w hw
    obtain ⟨hw, _⟩ := List.mem_filter.1 hw
    obtain ⟨r, hr, rfl⟩ := List.mem_map.1 (List.mem_dedup.1 hw)
    obtain ⟨m, _, rfl⟩ := List.mem_map.1 hr
    simp [LabelSetMember.sqlRow]
  intro hexist
  -- the group of one set, as members
  have hgroup : ∀ id : Nat, ((((allowedMembers t ep).map LabelSetMember.sqlRow).filter
      fun r => decide (r "set_id" = .int id)).map fun r => r "key") =
      ((allowedMembers t ep).filter fun m => m.setId = id).map fun m => Value.text m.key := by
    intro id
    rw [List.filter_map, List.map_map]
    refine congrArg (List.map _) (List.filter_congr fun m _ => ?_)
    simp only [Function.comp, LabelSetMember.sqlRow, Value.int.injEq, Int.ofNat_inj]
  have hkey_exists : ∃ k, k ∈ allowedKeys t.lookups ep := by
    obtain ⟨h, hh⟩ := List.exists_mem_of_ne_nil _ hne
    obtain ⟨g, hg, hgh⟩ := hexist h hh
    exact ⟨g.key, mem_allowedKeys.2 (Or.inl ⟨g, hg, hgh ▸ hh, rfl⟩)⟩
  have hgroups : ∀ h ∈ ep.labelGroups, (t.lookups.labelGroups h).isSome = true :=
    fun h hh => LookupTables.lookups_labelGroups_isSome.2 (hexist h hh)
  rw [Bool.eq_iff_iff, decide_eq_true_eq, labelsHold_iff, List.mem_filter, List.mem_dedup,
    List.map_map, decide_eq_true_eq]
  cases hset : rowLabelSet row side with
  | none =>
      constructor
      · rintro ⟨hmem, _⟩
        obtain ⟨m, _, hm⟩ := List.mem_map.1 hmem
        simp only [Function.comp, LabelSetMember.sqlRow, setValue, Option.map_none, Value.ofInt,
          Value.coalesce, Value.int.injEq] at hm
        omega
      · rintro ⟨_, hall⟩
        obtain ⟨k, hk⟩ := hkey_exists
        obtain ⟨value, hlabel, _⟩ := hall k hk
        simp [LabelSets.labelsOf] at hlabel
  | some id =>
      rw [show setValue (some id) = .int id from rfl, hgroup id,
        countDistinct_keys_iff hexist htotals_mem id]
      refine ⟨fun h => ⟨hgroups, h.2⟩, fun h => ⟨?_, h.2⟩⟩
      obtain ⟨k, hk⟩ := hkey_exists
      obtain ⟨value, hlabel, hvalue⟩ := h.2 k hk
      rw [LabelSets.labelsOf_eq_some] at hlabel
      refine List.mem_map.2 ⟨_, List.mem_filter.2 ⟨hlabel, ?_⟩, rfl⟩
      simpa using (mem_allowedPairs hexist).2 hvalue

/-- The labels part with label groups tests what the record test does. -/
theorem decides_sqlLabelsWithGroups (henv : env "f" = row.sqlRow) (ep : EndpointFilter)
    (side : Side) (hne : ep.labelGroups ≠ []) :
    Decides (t.database u addr) env (sqlLabelsWithGroups ep side)
      (labelsHold t.lookups ep (t.labelSets.labelsOf (rowLabelSet row side))) := by
  have hcount := decides_groups_exist t u addr env ep
  obtain ⟨b, hb, hright⟩ := decides_groups_hold t u addr henv ep side hne
  refine (hcount.and hb).of_eq ?_
  by_cases hexist : ∀ h ∈ ep.labelGroups, ∃ g ∈ t.labelGroups, g.href = h
  · have hall : (ep.labelGroups.all fun h => (t.lookups.labelGroups h).isSome) = true :=
      List.all_eq_true.2 fun h hh => LookupTables.lookups_labelGroups_isSome.2 (hexist h hh)
    rw [hall, Bool.true_and, hright hexist]
  · -- a group is missing: both sides are false
    have hmissing : (ep.labelGroups.all fun h => (t.lookups.labelGroups h).isSome) = false := by
      rw [← Bool.not_eq_true, List.all_eq_true]
      exact fun hall => hexist fun h hh => LookupTables.lookups_labelGroups_isSome.1 (hall h hh)
    rw [labelsHold, hmissing, Bool.false_and, Bool.false_and]

/-! ## Host parts -/

variable (t u addr) in
/-- The label parts of an endpoint, each decided. -/
theorem decides_sqlLabels (henv : env "f" = row.sqlRow) (ep : EndpointFilter) (side : Side) :
    List.Forall₂ (Decides (t.database u addr) env) (sqlLabels ep side)
      (if ep.hasLabels then
        [labelsListed t.lookups ep (t.labelSets.labelsOf (rowLabelSet row side))] else []) := by
  unfold sqlLabels labelsListed EndpointFilter.hasLabels
  by_cases hg : ep.labelGroups ≠ []
  · rw [if_pos hg, if_pos hg, if_pos (by simp [hg])]
    exact .cons (decides_sqlLabelsWithGroups henv ep side hg) .nil
  · rw [if_neg hg, if_neg hg]
    by_cases hl : ep.labels ≠ []
    · rw [if_pos hl, if_pos (by simp [hl])]
      refine .cons ((Decides.all (Decides.map fun c _ =>
        decides_sqlLabelCond henv side c)).of_eq ?_) .nil
      rw [List.all_map]
      rfl
    · rw [if_neg hl, if_neg (by simp_all)]
      exact .nil

theorem sqlRow_ip (row : FlowRow) (ls : LabelSets) (side : Side) :
    row.sqlRow side.ip = .text ((row.view ls).side side).ip := by
  cases side <;> rfl

theorem sqlRow_href (row : FlowRow) (ls : LabelSets) (side : Side) :
    row.sqlRow side.href = .ofText ((row.view ls).side side).href := by
  cases side <;> rfl

@[simp] theorem ipInNetFn_eq_one (addr : Addresses) (ip net : String) :
    ipInNetFn addr (.text ip) (.text net) = .int 1 ↔ addr.ipInNet ip net = true := by
  cases h : addr.ipInNet ip net <;> simp [ipInNetFn, h]

@[simp] theorem isOutsideFn_eq_one (addr : Addresses) (ip : String) (href : Option String) :
    isOutsideFn addr (.text ip) (.ofText href) = .int 1 ↔ addr.outside ip href = true := by
  cases href with
  | none => cases h : addr.outside ip none <;> simp [isOutsideFn, Value.ofText, h]
  | some s => cases h : addr.outside ip (some s) <;> simp [isOutsideFn, Value.ofText, h]

variable (t u addr) in
theorem decides_sqlInNet (henv : env "f" = row.sqlRow) (side : Side) (net : String) :
    Decides (t.database u addr) env (sqlInNet side net)
      (addr.ipInNet ((row.view t.labelSets).side side).ip net) := by
  have hip := (denotes_column henv (t.database u addr) side.ip).of_eq
    (sqlRow_ip row t.labelSets side)
  refine (Decides.eq (Denotes.apply₂ "ip_in_net" hip (Denotes.param (.text net)))
    (Denotes.lit (.int 1)) Value.noConfusion (by simp)).of_eq ?_
  rw [Bool.eq_iff_iff, decide_eq_true_eq]
  exact ipInNetFn_eq_one addr _ net

variable (t u addr) in
theorem decides_sqlOutside (henv : env "f" = row.sqlRow) (side : Side) :
    Decides (t.database u addr) env (sqlOutside side)
      (addr.outside ((row.view t.labelSets).side side).ip
        ((row.view t.labelSets).side side).href) := by
  have hip := (denotes_column henv (t.database u addr) side.ip).of_eq
    (sqlRow_ip row t.labelSets side)
  have hhref := (denotes_column henv (t.database u addr) side.href).of_eq
    (sqlRow_href row t.labelSets side)
  refine (Decides.eq (Denotes.apply₂ "is_outside" hip hhref)
    (Denotes.lit (.int 1)) Value.noConfusion (by simp)).of_eq ?_
  rw [Bool.eq_iff_iff, decide_eq_true_eq]
  exact isOutsideFn_eq_one addr _ _

theorem isEmpty_map_filter {α β : Type} (l : List α) (p : α → Bool) (f : α → β) :
    (!((l.filter p).map f).isEmpty) = l.any p := by
  rw [Bool.eq_iff_iff]
  simp [List.any_eq_true]

variable (t u addr) in
theorem decides_sqlIpLists (henv : env "f" = row.sqlRow) (side : Side) (hrefs : List String) :
    Decides (t.database u addr) env (sqlIpLists side hrefs)
      ((hrefs.flatMap t.lookups.ipLists).any fun n =>
        addr.ipInNet ((row.view t.labelSets).side side).ip n) := by
  classical
  have hip : ∀ r : Row, Denotes (t.database u addr) (env.bind "n" r) (column side.ip)
      (.text ((row.view t.labelSets).side side).ip) :=
    fun r => (denotes_column ((bind_of_ne env (by decide) r).trans henv) _ side.ip).of_eq
      (sqlRow_ip row t.labelSets side)
  have hselect := Yields.select "ip_list_nets" "n"
    (fun r => Denotes.lit (.int 1)) (fun r =>
      (selects_inTexts (denotes_scan (t.database u addr) env "n" "href" r) hrefs).and
        (Selects.eq (Denotes.apply₂ "ip_in_net" (hip r) (denotes_scan _ _ "n" "net" r))
          (Denotes.lit (.int 1))))
  refine (Decides.existsRow hselect).of_eq ?_
  rw [isEmpty_map_filter, Bool.eq_iff_iff, List.any_eq_true, List.any_eq_true]
  simp only [decide_eq_true_eq]
  constructor
  · rintro ⟨r, hr, ⟨h, hh, hhref⟩, _, hone⟩
    obtain ⟨n, hn, rfl⟩ := List.mem_map.1 hr
    refine ⟨n.2, List.mem_flatMap.2 ⟨h, hh, List.mem_map_of_mem (List.mem_filter.2 ⟨hn, ?_⟩)⟩, ?_⟩
    · simpa [ipListNetRow] using hhref
    · exact (ipInNetFn_eq_one addr _ n.2).1 hone
  · rintro ⟨net, hnet, hin⟩
    obtain ⟨h, hh, hnet⟩ := List.mem_flatMap.1 hnet
    obtain ⟨n, hn, rfl⟩ := List.mem_map.1 hnet
    obtain ⟨hn, hhref⟩ := List.mem_filter.1 hn
    refine ⟨ipListNetRow n, List.mem_map_of_mem hn, ⟨h, hh, ?_⟩, Value.noConfusion,
      (ipInNetFn_eq_one addr _ n.2).2 hin⟩
    simpa [ipListNetRow] using hhref

variable (t u addr) in
/-- The host parts of an endpoint, each decided. -/
theorem decides_sqlAddresses (henv : env "f" = row.sqlRow) (ep : EndpointFilter) (side : Side) :
    ∃ bs, List.Forall₂ (Decides (t.database u addr) env) (sqlAddresses ep side) bs ∧
      bs.any id = hostsHold addr t.lookups ep ((row.view t.labelSets).side side) := by
  have hip := (denotes_column henv (t.database u addr) side.ip).of_eq
    (sqlRow_ip row t.labelSets side)
  have hhref : Denotes (t.database u addr) env
      ((column side.href).coalesce (.lit (.text "")))
      (.text (((row.view t.labelSets).side side).href.getD "")) := by
    refine (((denotes_column henv (t.database u addr) side.href).of_eq
      (sqlRow_href row t.labelSets side)).coalesce (Denotes.lit (.text ""))).of_eq ?_
    cases ((row.view t.labelSets).side side).href <;> rfl
  have hhrefs := Decides.when (c := ep.hrefs ≠ []) (decides_inTexts hhref ep.hrefs)
  have hexact := Decides.when (c := ep.exactIps ≠ []) (decides_inTexts hip ep.exactIps)
  have hnets := Decides.map fun n (_ : n ∈ ep.netIps) =>
    decides_sqlInNet t u addr henv side n
  have hlists := Decides.when (c := ep.ipLists ≠ [])
    (decides_sqlIpLists t u addr henv side ep.ipLists)
  have hpublic := Decides.when (c := ep.isPublic = true)
    (decides_sqlOutside t u addr henv side)
  refine ⟨_, Decides.append (Decides.append (Decides.append (Decides.append hhrefs hexact) hnets)
    hlists) hpublic, ?_⟩
  have hwhen : ∀ (c : Prop) [Decidable c] (b : Bool),
      ((if c then [b] else []).any id) = (decide c && b) := by
    intro c _ b
    by_cases hc : c <;> simp [hc]
  have hmem : ∀ (x : String) (xs : List String),
      (decide (xs ≠ []) && decide (x ∈ xs)) = decide (x ∈ xs) := by
    intro x xs
    cases xs <;> simp
  have hlists_any : (decide (ep.ipLists ≠ []) && (ep.ipLists.flatMap t.lookups.ipLists).any
      fun n => addr.ipInNet ((row.view t.labelSets).side side).ip n) =
      (ep.ipLists.flatMap t.lookups.ipLists).any
        fun n => addr.ipInNet ((row.view t.labelSets).side side).ip n := by
    cases ep.ipLists <;> simp
  simp only [List.any_append, hwhen, List.any_map, hmem, hlists_any, hostsHold, Bool.decide_eq_true]
  rw [Bool.or_assoc _ ((List.flatMap _ _).any _), Bool.or_comm ((List.flatMap _ _).any _),
    ← Bool.or_assoc]
  rfl

theorem sqlAddresses_ne_nil (ep : EndpointFilter) (side : Side) :
    sqlAddresses ep side ≠ [] ↔ ep.hasHosts = true := by
  have hips : ep.ips ≠ [] ↔ ep.exactIps ≠ [] ∨ ep.netIps ≠ [] := by
    unfold EndpointFilter.exactIps EndpointFilter.netIps
    cases ep.ips with
    | nil => simp
    | cons ip ips => by_cases h : '/' ∈ ip.toList <;> simp [h]
  unfold sqlAddresses EndpointFilter.hasHosts
  simp only [ne_eq, List.append_eq_nil_iff, ite_eq_right_iff, List.cons_ne_nil, imp_false, not_not,
    List.map_eq_nil_iff, Bool.or_eq_true, Bool.not_eq_true', List.isEmpty_eq_false_iff]
  rw [show (¬ ep.ips = []) = (ep.ips ≠ []) from rfl, hips]
  tauto

/-- The clause of an endpoint is decided: it is the test of `sideListed`. -/
theorem decides_sqlSide (henv : env "f" = row.sqlRow) (ep : EndpointFilter)
    (hne : ep.isEmpty = false) (side : Side) :
    Decides (t.database u addr) env (sqlSide ep side)
      (sideListed addr t.lookups ep (row.view t.labelSets) side) := by
  obtain ⟨bs, hbs, hany⟩ := decides_sqlAddresses t u addr henv ep side
  have hparts := Decides.append (decides_sqlLabels t u addr henv ep side)
    (Decides.when_iff (sqlAddresses_ne_nil ep side) ((Decides.any hbs).of_eq hany))
  have hset : ep.hasLabels = true ∨ ep.hasHosts = true := by
    rw [← Bool.or_eq_true]
    simpa only [EndpointFilter.isEmpty, Bool.not_eq_false'] using hne
  have hnonempty : sqlLabels ep side ++
      (if sqlAddresses ep side ≠ [] then [Piece.any (sqlAddresses ep side)] else []) ≠ [] := by
    intro hnil
    rw [hnil, List.forall₂_nil_left_iff] at hparts
    rcases hset with h | h <;> simp [h] at hparts
  unfold sqlSide sideListed
  rw [if_neg hnonempty, view_side_labels]
  cases ep.matchMode with
  | any =>
      refine (Decides.any hparts).of_eq ?_
      cases ep.hasLabels <;> cases ep.hasHosts <;> simp [combineParts]
  | all =>
      refine (Decides.all hparts).of_eq ?_
      cases ep.hasLabels <;> cases ep.hasHosts <;> simp [combineParts]

end Clauses

end IllumioOps
