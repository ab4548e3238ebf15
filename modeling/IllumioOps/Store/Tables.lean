import IllumioOps.Filter.Spec

/-!
# Tables of the flow store that a filter reads

A row of `flows` with its columns, the label sets that rows refer to, and the
tables that IP lists, label groups and services are looked up in. The structures
carry what the schema and the only writers guarantee: one value per key and label
set (`PRIMARY KEY (set_id, key)`), one row per label group, members written under
their group's key (`replace_label_groups`).

Names, timestamps of the last fetch and the columns that no modelled function reads
are left out.
-/

set_option autoImplicit false

namespace IllumioOps

open IllumioOps.Sql (Value)

/-! ## flows -/

/-- A row of `flows`. -/
structure FlowRow where
  id : Nat
  recordKey : String
  connKey : String
  isPrimary : Bool
  direction : FlowDirection
  srcIp : String
  dstIp : String
  srcKey : String
  dstKey : String
  srcHref : Option String
  dstHref : Option String
  srcHostname : Option String
  dstHostname : Option String
  srcManaged : Bool
  dstManaged : Bool
  srcMode : Option String
  dstMode : Option String
  srcLabelSet : Option Nat
  dstLabelSet : Option Nat
  port : Option Int
  proto : Int
  initiatorProcess : Option Name
  initiatorUser : Option Name
  serviceProcess : Option Name
  serviceUser : Option Name
  windowsService : Option String
  policyDecision : String
  firstDetected : Int
  lastDetected : Int
  numConnections : Nat
  bytesIn : Option Int
  bytesOut : Option Int
  ownBytesIn : Option Int
  ownBytesOut : Option Int
  state : Option String
  transmission : Option String
  networkHref : Option String
  origin : DataOrigin
  ingestedAt : Int
  countedConnections : Option Nat
  countedBytes : Option Int
  deriving DecidableEq

/-- The row by column name, for the columns that a filter reads. -/
def FlowRow.sqlRow (r : FlowRow) : Sql.Row
  | "is_primary" => .int (if r.isPrimary then 1 else 0)
  | "src_ip" => .text r.srcIp
  | "dst_ip" => .text r.dstIp
  | "src_href" => .ofText r.srcHref
  | "dst_href" => .ofText r.dstHref
  | "src_hostname" => .ofText r.srcHostname
  | "dst_hostname" => .ofText r.dstHostname
  | "src_label_set" => .ofInt (r.srcLabelSet.map Int.ofNat)
  | "dst_label_set" => .ofInt (r.dstLabelSet.map Int.ofNat)
  | "port" => .ofInt r.port
  | "proto" => .int r.proto
  | "initiator_process" => .ofText (r.initiatorProcess.map Subtype.val)
  | "initiator_user" => .ofText (r.initiatorUser.map Subtype.val)
  | "service_process" => .ofText (r.serviceProcess.map Subtype.val)
  | "service_user" => .ofText (r.serviceUser.map Subtype.val)
  | "windows_service" => .ofText r.windowsService
  | "policy_decision" => .text r.policyDecision
  | "first_detected" => .int r.firstDetected
  | "last_detected" => .int r.lastDetected
  | "transmission" => .ofText r.transmission
  | _ => .null

/-! ## Label sets -/

/-- A row of `label_set_members`. -/
structure LabelSetMember where
  setId : Nat
  key : String
  value : String
  deriving DecidableEq

def LabelSetMember.sqlRow (m : LabelSetMember) : Sql.Row
  | "set_id" => .int m.setId
  | "key" => .text m.key
  | "value" => .text m.value
  | _ => .null

/-- `label_sets` and `label_set_members`. -/
structure LabelSets where
  /-- `(id, signature)` -/
  sets : List (Nat × String)
  members : List LabelSetMember
  member_set : ∀ m ∈ members, m.setId ∈ sets.map Prod.fst
  set_pos : ∀ s ∈ sets, 0 < s.1
  keys_unique : (members.map fun m => (m.setId, m.key)).Nodup

/-- `dict(pairs).items()`: every key once, with its last value. -/
def dictItems (pairs : List (String × String)) : List (String × String) :=
  (pairs.map Prod.fst).dedup.filterMap fun k => (dictGet pairs k).map fun v => (k, v)

theorem dictItems_keys_nodup (pairs : List (String × String)) :
    ((dictItems pairs).map Prod.fst).Nodup := by
  have hsub : ((dictItems pairs).map Prod.fst).Sublist (pairs.map Prod.fst).dedup := by
    unfold dictItems
    generalize (pairs.map Prod.fst).dedup = ks
    induction ks with
    | nil => exact List.Sublist.refl _
    | cons k ks ih =>
        cases h : dictGet pairs k with
        | none => simpa [h] using ih.trans (List.sublist_cons_self k ks)
        | some v => simpa [h] using ih
  exact (List.nodup_dedup _).sublist hsub

/-- `sorted(set(labels))`. -/
def sortedLabels (labels : List (String × String)) : List (String × String) :=
  labels.dedup.insertionSort fun a b => a.1 < b.1 ∨ a.1 = b.1 ∧ a.2 ≤ b.2

/-- The text that identifies a label combination. -/
def labelSignature (pairs : List (String × String)) : String :=
  "\n".intercalate (pairs.map fun p => p.1 ++ "=" ++ p.2)

namespace LabelSets

def empty : LabelSets :=
  { sets := [], members := [], member_set := by simp, set_pos := by simp, keys_unique := by simp }

/-- The next row id: one more than the largest. -/
def nextId (ls : LabelSets) : Nat := (ls.sets.map Prod.fst).foldr max 0 + 1

theorem le_foldr_max {n : Nat} {ns : List Nat} (h : n ∈ ns) : n ≤ ns.foldr max 0 := by
  induction ns with
  | nil => simp at h
  | cons m ns ih =>
      rcases List.mem_cons.1 h with rfl | h
      · exact le_max_left _ _
      · exact (ih h).trans (le_max_right _ _)

/-- A new label combination gets a set of its own. -/
def add (ls : LabelSets) (signature : String) (pairs : List (String × String)) : LabelSets where
  sets := ls.sets ++ [(ls.nextId, signature)]
  members := ls.members ++ (dictItems pairs).map fun p =>
    { setId := ls.nextId, key := p.1, value := p.2 }
  member_set := by
    intro m hm
    rw [List.map_append, List.mem_append]
    rcases List.mem_append.1 hm with hm | hm
    · exact Or.inl (ls.member_set m hm)
    · obtain ⟨p, _, rfl⟩ := List.mem_map.1 hm
      exact Or.inr (by simp)
  set_pos := by
    intro s hs
    rcases List.mem_append.1 hs with hs | hs
    · exact ls.set_pos s hs
    · rw [List.mem_singleton] at hs
      subst hs
      exact Nat.succ_pos _
  keys_unique := by
    rw [List.map_append, List.nodup_append]
    refine ⟨ls.keys_unique, ?_, ?_⟩
    · rw [List.map_map]
      have hnodup := dictItems_keys_nodup pairs
      rw [← List.nodup_map_iff (f := fun k => (ls.nextId, k)) (fun a b h => by simpa using h),
        List.map_map] at hnodup
      exact hnodup
    · rintro a ha b hb rfl
      obtain ⟨m, hm, hma⟩ := List.mem_map.1 ha
      obtain ⟨n, hn, hna⟩ := List.mem_map.1 hb
      obtain ⟨p, _, rfl⟩ := List.mem_map.1 hn
      have hid : m.setId = ls.nextId := congrArg Prod.fst (hma.trans hna.symm)
      have hle := le_foldr_max (ls.member_set m hm)
      rw [hid] at hle
      exact absurd hle (by simp [nextId])

/-- `label_set_id`: the set of a label combination, made when it is new. -/
def labelSetId (ls : LabelSets) (labels : List (String × String)) : Option Nat × LabelSets :=
  if labels = [] then (none, ls)
  else
    let pairs := sortedLabels labels
    let signature := labelSignature pairs
    match ls.sets.find? fun s => s.2 = signature with
    | some s => (some s.1, ls)
    | none => (some ls.nextId, ls.add signature pairs)

/-- The labels of a set; none for a row without one. -/
def labelsOf (ls : LabelSets) (set : Option Nat) (key : String) : Option String :=
  match set with
  | none => none
  | some id => (ls.members.find? fun m => m.setId = id ∧ m.key = key).map LabelSetMember.value

theorem labelsOf_eq_some {ls : LabelSets} {id : Nat} {key value : String} :
    ls.labelsOf (some id) key = some value ↔
      { setId := id, key := key, value := value } ∈ ls.members := by
  change (ls.members.find? fun m => m.setId = id ∧ m.key = key).map LabelSetMember.value =
    some value ↔ _
  constructor
  · intro h
    obtain ⟨m, hm, hv⟩ := Option.map_eq_some_iff.1 h
    have hkey := List.find?_some hm
    simp only [decide_eq_true_eq] at hkey
    obtain ⟨rfl, rfl⟩ := hkey
    subst hv
    exact List.mem_of_find?_eq_some hm
  · intro hmem
    cases hfind : ls.members.find? fun m => m.setId = id ∧ m.key = key with
    | none =>
        have hnone := List.find?_eq_none.1 hfind _ hmem
        simp at hnone
    | some m =>
        have hkey := List.find?_some hfind
        simp only [decide_eq_true_eq] at hkey
        have heq : m = { setId := id, key := key, value := value } :=
          List.inj_on_of_nodup_map ls.keys_unique (List.mem_of_find?_eq_some hfind) hmem
            (by simp [hkey.1, hkey.2])
        rw [heq]
        rfl

end LabelSets

/-! ## IP lists, label groups, services -/

/-- A row of `label_groups`. -/
structure LabelGroup where
  href : String
  key : String
  deriving DecidableEq

def LabelGroup.sqlRow (g : LabelGroup) : Sql.Row
  | "href" => .text g.href
  | "key" => .text g.key
  | _ => .null

/-- A row of `label_group_members`. -/
structure LabelGroupMember where
  href : String
  key : String
  value : String
  deriving DecidableEq

def LabelGroupMember.sqlRow (m : LabelGroupMember) : Sql.Row
  | "href" => .text m.href
  | "key" => .text m.key
  | "value" => .text m.value
  | _ => .null

/-- A row of `ip_list_nets`: `(href, net)`. -/
def ipListNetRow (n : String × String) : Sql.Row
  | "href" => .text n.1
  | "net" => .text n.2
  | _ => .null

/-- A row of `pce_service_ports`: `(href, ports)`. -/
def servicePortRow (s : String × PortEntry) : Sql.Row
  | "href" => .text s.1
  | "port" => .ofInt s.2.port
  | "to_port" => .ofInt s.2.toPort
  | "proto" => .ofInt s.2.proto
  | _ => .null

/-- `_is_system`, as registered on a connection. -/
def isSystemFn (u : Unicode) (user : Value) : Value :=
  .int (match user with
    | .text s => if u.isSystemAccount (some s) then 1 else 0
    | _ => 0)

/-- `ip_in_net`, as registered on a connection; no number names an address. -/
def ipInNetFn (addr : Addresses) (ip net : Value) : Value :=
  .int (match ip, net with
    | .text ip, .text net => if addr.ipInNet ip net then 1 else 0
    | _, _ => 0)

/-- `_is_outside`, as registered on a connection. -/
def isOutsideFn (addr : Addresses) (ip href : Value) : Value :=
  .int (match ip, href with
    | .text ip, .text h => if addr.outside ip (some h) then 1 else 0
    | .text ip, _ => if addr.outside ip none then 1 else 0
    | _, _ => 0)

/-- What a filter's hrefs are looked up in. -/
structure LookupTables where
  labelSets : LabelSets
  /-- `(href, net)` rows of `ip_list_nets` -/
  ipListNets : List (String × String)
  labelGroups : List LabelGroup
  labelGroupMembers : List LabelGroupMember
  /-- `(href, ports)` rows of `pce_service_ports` -/
  servicePorts : List (String × PortEntry)
  groups_unique : (labelGroups.map LabelGroup.href).Nodup
  members_key : ∀ g ∈ labelGroups, ∀ m ∈ labelGroupMembers, m.href = g.href → m.key = g.key

/-- `LabelGroupRow`: a group with the values of its member labels. -/
structure LabelGroupRow where
  href : String
  key : String
  values : List String

namespace LookupTables

/-- `replace_label_groups`: all groups and members are written anew. -/
def replaceLabelGroups (t : LookupTables) (rows : List LabelGroupRow)
    (hnodup : (rows.map LabelGroupRow.href).Nodup) : LookupTables :=
  { t with
    labelGroups := rows.map fun r => { href := r.href, key := r.key }
    labelGroupMembers := rows.flatMap fun r =>
      (r.values.dedup.insertionSort (· ≤ ·)).map fun v => { href := r.href, key := r.key, value := v }
    groups_unique := by
      rw [List.map_map]
      exact hnodup
    members_key := by
      intro g hg m hm heq
      obtain ⟨r, hr, rfl⟩ := List.mem_map.1 hg
      obtain ⟨r', hr', hm⟩ := List.mem_flatMap.1 hm
      obtain ⟨v, _, rfl⟩ := List.mem_map.1 hm
      have hrr : r' = r := List.inj_on_of_nodup_map hnodup hr' hr heq
      rw [hrr] }

/-- The readings that the test on one record is given: `ip_lists.networks`,
`policy_objects.label_groups` and `policy_objects.service_ports`. -/
def lookups (t : LookupTables) : Lookups where
  ipLists h := (t.ipListNets.filter fun n => n.1 = h).map Prod.snd
  labelGroups h := (t.labelGroups.find? fun g => g.href = h).map fun g =>
    (g.key, (t.labelGroupMembers.filter fun m => m.href = h).map LabelGroupMember.value)
  services h := (t.servicePorts.filter fun s => s.1 = h).map Prod.snd

/-- The tables and the registered functions, as a query sees them. -/
def database (t : LookupTables) (u : Unicode) (addr : Addresses) : Sql.Database where
  table
    | "label_set_members" => t.labelSets.members.map LabelSetMember.sqlRow
    | "ip_list_nets" => t.ipListNets.map ipListNetRow
    | "label_groups" => t.labelGroups.map LabelGroup.sqlRow
    | "label_group_members" => t.labelGroupMembers.map LabelGroupMember.sqlRow
    | "pce_service_ports" => t.servicePorts.map servicePortRow
    | _ => []
  fn
    | "is_system_account" => isSystemFn u
    | _ => fun _ => .null
  fn₂
    | "ip_in_net" => ipInNetFn addr
    | "is_outside" => isOutsideFn addr
    | _ => fun _ _ => .null

end LookupTables

/-! ## The record a row stands for -/

/-- One end of a stored row, with the labels of its set. -/
def FlowRow.endView (r : FlowRow) (ls : LabelSets) : Side → EndView
  | .src => { ip := r.srcIp, href := r.srcHref, hostname := r.srcHostname,
              labels := ls.labelsOf r.srcLabelSet }
  | .dst => { ip := r.dstIp, href := r.dstHref, hostname := r.dstHostname,
              labels := ls.labelsOf r.dstLabelSet }

/-- `_view` of a stored row. -/
def FlowRow.view (r : FlowRow) (ls : LabelSets) : FlowView where
  isPrimary := r.isPrimary
  src := r.endView ls .src
  dst := r.endView ls .dst
  port := r.port
  proto := r.proto
  policyDecision := r.policyDecision
  initiatorProcess := r.initiatorProcess.map Subtype.val
  initiatorUser := r.initiatorUser.map Subtype.val
  serviceProcess := r.serviceProcess.map Subtype.val
  serviceUser := r.serviceUser.map Subtype.val
  windowsService := r.windowsService
  transmission := r.transmission
  firstDetected := r.firstDetected
  lastDetected := r.lastDetected

end IllumioOps
