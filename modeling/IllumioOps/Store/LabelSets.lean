import IllumioOps.Store.Tables
import IllumioOps.Tables.Keyed
import IllumioOps.Text.Pairs
import Mathlib.Data.List.Induction
import Mathlib.Data.String.Basic

/-!
# Label sets by their ids

`label_set_id` finds a label combination by its signature, the sorted pairs joined as `key=value` lines.
As long as no key holds `=` and no value a line break, two calls return the same id exactly for the same
pairs, and `label_sets` gives the pairs back (`faithful_of_readable`). The characters are not escaped, so
otherwise two combinations can share a set (`label_sets_collide`).
-/

set_option autoImplicit false

namespace IllumioOps.LabelSets

open Tables (alter lookup_alter_self lookup_alter_of_ne)

/-! ## Calls -/

/-- `label_sets`: the pairs of the sets asked for, or of every set. -/
def labelSets (ls : LabelSets) (ids : Option (List Nat)) : List (Nat × List (String × String)) :=
  let rows := match ids with
    | none => ls.members
    | some ids => ls.members.filter fun m => decide (m.setId ∈ ids)
  rows.foldl (fun out m =>
    alter m.setId (fun labels => alter m.key (fun _ => m.value) (labels.getD [])) out) []

/-- One call of `label_set_id` after the other: the ids returned, and the tables at the end. -/
def callAll : List (List (String × String)) → LabelSets → List (Option Nat) × LabelSets
  | [], ls => ([], ls)
  | labels :: calls, ls =>
      let r := ls.labelSetId labels
      let rest := callAll calls r.2
      (r.1 :: rest.1, rest.2)

/-- Labels as a workload has them: some, and one value for each key. -/
structure IsLabelTuple (labels : List (String × String)) : Prop where
  nonempty : labels ≠ []
  oneValue : ∀ p ∈ labels, ∀ q ∈ labels, p.1 = q.1 → p.2 = q.2

/-- The signature can be read back: no key holds the sign that ends it, and no value holds the separator
of the pairs. -/
structure Readable (labels : List (String × String)) : Prop where
  keys : ∀ p ∈ labels, '=' ∉ p.1.toList
  values : ∀ p ∈ labels, '\n' ∉ p.2.toList

/-- Over these calls an id stands for one combination, and its labels are given back. -/
structure Faithful (calls : List (List (String × String))) : Prop where
  same : ∀ x ∈ calls.zip (callAll calls empty).1, ∀ y ∈ calls.zip (callAll calls empty).1,
    x.2 = y.2 ↔ ∀ p, p ∈ x.1 ↔ p ∈ y.1
  back : ∀ x ∈ calls.zip (callAll calls empty).1, ∃ id, x.2 = some id ∧
    ∀ ids : Option (List Nat), (∀ asked ∈ ids, id ∈ asked) →
      ∃ labels, ((callAll calls empty).2.labelSets ids).lookup id = some labels ∧
        ∀ k v, labels.lookup k = some v ↔ (k, v) ∈ x.1

/-! ## Signatures -/

section Signature

variable {labels labels' : List (String × String)}

theorem mem_sortedLabels {p : String × String} : p ∈ sortedLabels labels ↔ p ∈ labels := by
  rw [sortedLabels, List.mem_insertionSort, List.mem_dedup]

/-- The order of the pairs of a signature. -/
abbrev PairLe (a b : String × String) : Prop := a.1 < b.1 ∨ a.1 = b.1 ∧ a.2 ≤ b.2

instance : Std.Total PairLe where
  total a b := by
    rcases lt_trichotomy a.1 b.1 with h | h | h
    · exact Or.inl (Or.inl h)
    · rcases le_total a.2 b.2 with h' | h'
      · exact Or.inl (Or.inr ⟨h, h'⟩)
      · exact Or.inr (Or.inr ⟨h.symm, h'⟩)
    · exact Or.inr (Or.inl h)

instance : IsTrans (String × String) PairLe where
  trans a b c h h' := by
    rcases h with h | ⟨h, hle⟩
    · rcases h' with h' | ⟨h', -⟩
      · exact Or.inl (h.trans h')
      · exact Or.inl (h' ▸ h)
    · rcases h' with h' | ⟨h', hle'⟩
      · exact Or.inl (h ▸ h')
      · exact Or.inr ⟨h.trans h', hle.trans hle'⟩

instance : Std.Antisymm PairLe where
  antisymm a b h h' := by
    rcases h with h | ⟨h, hle⟩
    · rcases h' with h' | ⟨h', -⟩
      · exact absurd h' h.asymm
      · exact absurd h (h' ▸ lt_irrefl _)
    · rcases h' with h' | ⟨-, hle'⟩
      · exact absurd h' (h ▸ lt_irrefl _)
      · exact Prod.ext h (le_antisymm hle hle')

/-- The sorted pairs say which pairs there are and nothing else. -/
theorem sortedLabels_eq_iff :
    sortedLabels labels = sortedLabels labels' ↔ ∀ p, p ∈ labels ↔ p ∈ labels' := by
  constructor
  · intro h p
    rw [← mem_sortedLabels, h, mem_sortedLabels]
  · intro h
    have hperm : (sortedLabels labels).Perm (sortedLabels labels') :=
      ((List.perm_insertionSort _ _).trans ((List.perm_ext_iff_of_nodup (List.nodup_dedup _)
        (List.nodup_dedup _)).mpr fun p => by rw [List.mem_dedup, List.mem_dedup, h p])).trans
        (List.perm_insertionSort _ _).symm
    exact hperm.eq_of_pairwise' (List.pairwise_insertionSort PairLe _)
      (List.pairwise_insertionSort PairLe _)

/-- Readable pairs have a signature of their own. -/
theorem labelSignature_inj {ps qs : List (String × String)} (hps : Readable ps) (hqs : Readable qs)
    (h : labelSignature ps = labelSignature qs) : ps = qs := by
  let chars := fun p : String × String => (p.1.toList, p.2.toList)
  have hjoin : ∀ rs : List (String × String),
      (labelSignature rs).toList = Text.joinPairs '=' '\n' (rs.map chars) := by
    intro rs
    rw [labelSignature, String.toList_intercalate, Text.joinPairs_eq_intercalate, List.map_map,
      List.map_map]
    simp [chars, Function.comp_def]
  have hchars : Function.Injective chars := by
    intro p q heq
    obtain ⟨hkey, hvalue⟩ := Prod.mk.inj heq
    exact Prod.ext (String.toList_inj.mp hkey) (String.toList_inj.mp hvalue)
  have hboth : ∀ p ∈ ps.map chars ++ qs.map chars, '=' ∉ p.1 ∧ '\n' ∉ p.2 := by
    intro p hp
    rcases List.mem_append.mp hp with hp | hp
    · obtain ⟨r, hr, rfl⟩ := List.mem_map.mp hp
      exact ⟨hps.keys r hr, hps.values r hr⟩
    · obtain ⟨r, hr, rfl⟩ := List.mem_map.mp hp
      exact ⟨hqs.keys r hr, hqs.values r hr⟩
  refine List.map_injective_iff.mpr hchars (Text.joinPairs_inj (fun p hp => (hboth p hp).1)
    (fun p hp => (hboth p hp).2) ?_)
  rw [← hjoin, ← hjoin, h]

theorem Readable.sorted (h : Readable labels) : Readable (sortedLabels labels) :=
  ⟨fun p hp => h.keys p (mem_sortedLabels.mp hp), fun p hp => h.values p (mem_sortedLabels.mp hp)⟩

/-- Two readable combinations have one signature exactly when they are the same. -/
theorem signature_eq_iff (h : Readable labels) (h' : Readable labels') :
    labelSignature (sortedLabels labels) = labelSignature (sortedLabels labels') ↔
      ∀ p, p ∈ labels ↔ p ∈ labels' := by
  rw [← sortedLabels_eq_iff]
  exact ⟨labelSignature_inj h.sorted h'.sorted, congrArg labelSignature⟩

end Signature

/-! ## Members -/

theorem keys_nodup {labels : List (String × String)} (h : IsLabelTuple labels) :
    ((sortedLabels labels).map Prod.fst).Nodup := by
  have hnodup : (sortedLabels labels).Nodup :=
    (List.perm_insertionSort _ _).nodup_iff.mpr (List.nodup_dedup _)
  refine hnodup.map_on fun p hp q hq hkey => Prod.ext hkey ?_
  exact h.oneValue p (mem_sortedLabels.mp hp) q (mem_sortedLabels.mp hq) hkey

/-- The rows written for a new set are the labels. -/
theorem mem_dictItems {labels : List (String × String)} (h : IsLabelTuple labels) {k v : String} :
    (k, v) ∈ dictItems (sortedLabels labels) ↔ (k, v) ∈ labels := by
  have hget : dictGet (sortedLabels labels) k = some v ↔ (k, v) ∈ labels := by
    have hkeys : ((sortedLabels labels).reverse.map Prod.fst).Nodup := by
      rw [List.map_reverse, List.nodup_reverse]
      exact keys_nodup h
    rw [dictGet, Tables.lookup_eq_some_iff_mem hkeys, List.mem_reverse, mem_sortedLabels]
  rw [dictItems, List.mem_filterMap]
  constructor
  · rintro ⟨key, -, heq⟩
    obtain ⟨value, hvalue, hpair⟩ := Option.map_eq_some_iff.mp heq
    obtain ⟨rfl, rfl⟩ := Prod.mk.inj hpair
    exact hget.mp hvalue
  · intro hmem
    refine ⟨k, List.mem_dedup.mpr (List.mem_map.mpr ⟨(k, v), mem_sortedLabels.mpr hmem, rfl⟩), ?_⟩
    rw [hget.mpr hmem]
    rfl

/-- The labels read from a set of rows are those of its members. -/
theorem lookup_labels {rows : List LabelSetMember}
    (hunique : (rows.map fun m => (m.setId, m.key)).Nodup) (id : Nat) (k v : String) :
    (((rows.foldl (fun out m => alter m.setId
        (fun labels => alter m.key (fun _ => m.value) (labels.getD [])) out) []).lookup id).bind
          fun labels => labels.lookup k) = some v ↔ ⟨id, k, v⟩ ∈ rows := by
  induction rows using List.reverseRecOn with
  | nil => simp
  | append_singleton rows m ih =>
      rw [List.map_append, List.nodup_append] at hunique
      have hnew : ∀ value, (⟨m.setId, m.key, value⟩ : LabelSetMember) ∉ rows := by
        intro value hmem
        exact hunique.2.2 _ (List.mem_map.mpr ⟨_, hmem, rfl⟩) _ (List.mem_singleton.mpr rfl) rfl
      rw [List.foldl_append, List.foldl_cons, List.foldl_nil, List.mem_append, List.mem_singleton]
      have hmember : ∀ value, (⟨id, k, value⟩ : LabelSetMember) = m ↔
          id = m.setId ∧ k = m.key ∧ value = m.value := by
        intro value
        cases m
        simp
      by_cases hid : id = m.setId
      · subst hid
        rw [lookup_alter_self, Option.bind_some]
        by_cases hkey : k = m.key
        · subst hkey
          rw [lookup_alter_self, hmember, Option.some_inj]
          constructor
          · exact fun hv => Or.inr ⟨rfl, rfl, hv.symm⟩
          · rintro (hold | ⟨-, -, hv⟩)
            · exact absurd hold (hnew v)
            · exact hv.symm
        · rw [lookup_alter_of_ne hkey, hmember, or_iff_left fun h => hkey h.2.1, ← ih hunique.1]
          -- a set without rows so far has no labels
          cases (rows.foldl (fun out m => alter m.setId
            (fun labels => alter m.key (fun _ => m.value) (labels.getD [])) out) []).lookup m.setId with
          | none => simp
          | some labels => rfl
      · rw [lookup_alter_of_ne hid, ih hunique.1, hmember, or_iff_left fun h => hid h.1]

/-! ## The tables over the calls -/

/-- Every set was made for a readable combination, of which its members are the labels, and has an id and
a signature of its own. -/
structure Named (ls : LabelSets) : Prop where
  ids : (ls.sets.map Prod.fst).Nodup
  signatures : (ls.sets.map Prod.snd).Nodup
  labels : ∀ s ∈ ls.sets, ∃ labels, IsLabelTuple labels ∧ Readable labels ∧
    s.2 = labelSignature (sortedLabels labels) ∧
    ∀ k v, (⟨s.1, k, v⟩ : LabelSetMember) ∈ ls.members ↔ (k, v) ∈ labels

theorem named_empty : Named empty :=
  ⟨List.nodup_nil, List.nodup_nil, fun _ h => absurd h List.not_mem_nil⟩

theorem nextId_not_mem (ls : LabelSets) : ls.nextId ∉ ls.sets.map Prod.fst := fun h =>
  Nat.not_succ_le_self _ (le_foldr_max h)

/-- A call returns the set of its combination, which it makes when there is none. -/
theorem labelSetId_spec {ls : LabelSets} {labels : List (String × String)} (h : Named ls)
    (htuple : IsLabelTuple labels) (hread : Readable labels) :
    Named (ls.labelSetId labels).2 ∧ ls.sets <+: (ls.labelSetId labels).2.sets ∧
      ∃ id, (ls.labelSetId labels).1 = some id ∧
        (id, labelSignature (sortedLabels labels)) ∈ (ls.labelSetId labels).2.sets := by
  cases hfind : ls.sets.find? fun s => s.2 = labelSignature (sortedLabels labels) with
  | some s =>
      have hsignature : s.2 = labelSignature (sortedLabels labels) := by
        simpa using List.find?_some hfind
      have hcall : ls.labelSetId labels = (some s.1, ls) := by
        simp only [labelSetId, if_neg htuple.nonempty, hfind]
      rw [hcall]
      refine ⟨h, List.prefix_rfl, s.1, rfl, ?_⟩
      rw [← hsignature]
      exact List.mem_of_find?_eq_some hfind
  | none =>
      have hcall : ls.labelSetId labels =
          (some ls.nextId, ls.add (labelSignature (sortedLabels labels)) (sortedLabels labels)) := by
        simp only [labelSetId, if_neg htuple.nonempty, hfind]
      rw [hcall]
      have hfresh : labelSignature (sortedLabels labels) ∉ ls.sets.map Prod.snd := by
        intro hmem
        obtain ⟨s, hs, hsignature⟩ := List.mem_map.mp hmem
        simpa [hsignature] using List.find?_eq_none.mp hfind s hs
      have hnext := ls.nextId_not_mem
      refine ⟨⟨?_, ?_, ?_⟩, List.prefix_append _ _, ls.nextId, rfl,
        List.mem_append_right _ (List.mem_singleton.mpr rfl)⟩
      · rw [add, List.map_append, List.map_singleton]
        exact h.ids.append (List.nodup_singleton _) (by simpa using hnext)
      · rw [add, List.map_append, List.map_singleton]
        exact h.signatures.append (List.nodup_singleton _) (by simpa using hfresh)
      · intro s hs
        rcases List.mem_append.mp hs with hs | hs
        · obtain ⟨old, htuple', hread', hsignature, hmembers⟩ := h.labels s hs
          refine ⟨old, htuple', hread', hsignature, fun k v => ?_⟩
          rw [add, List.mem_append, ← hmembers k v]
          refine or_iff_left fun hmem => ?_
          -- the members written now are those of the new set
          obtain ⟨p, -, heq⟩ := List.mem_map.mp hmem
          have hid : s.1 = ls.nextId := (congrArg LabelSetMember.setId heq).symm
          exact hnext (hid ▸ List.mem_map.mpr ⟨s, hs, rfl⟩)
        · obtain rfl := List.mem_singleton.mp hs
          refine ⟨labels, htuple, hread, rfl, fun k v => ?_⟩
          rw [add, List.mem_append, ← mem_dictItems htuple]
          constructor
          · rintro (hold | hmem)
            · exact absurd (ls.member_set _ hold) hnext
            · obtain ⟨p, hp, heq⟩ := List.mem_map.mp hmem
              obtain ⟨-, hk, hv⟩ := LabelSetMember.mk.inj heq
              rwa [← hk, ← hv]
          · exact fun hmem => Or.inr (List.mem_map.mpr ⟨(k, v), hmem, rfl⟩)

/-- By induction on the calls: each returned the id of the set with its signature. -/
theorem callAll_spec {calls : List (List (String × String))} {ls : LabelSets} (h : Named ls)
    (htuple : ∀ c ∈ calls, IsLabelTuple c) (hread : ∀ c ∈ calls, Readable c) :
    Named (callAll calls ls).2 ∧ ls.sets <+: (callAll calls ls).2.sets ∧
      ∀ x ∈ calls.zip (callAll calls ls).1, ∃ id, x.2 = some id ∧
        (id, labelSignature (sortedLabels x.1)) ∈ (callAll calls ls).2.sets := by
  induction calls generalizing ls with
  | nil => exact ⟨h, List.prefix_rfl, fun x hx => absurd hx List.not_mem_nil⟩
  | cons c calls ih =>
      obtain ⟨hnamed, hgrows, id, hid, hset⟩ :=
        labelSetId_spec h (htuple c List.mem_cons_self) (hread c List.mem_cons_self)
      obtain ⟨hend, hgrows', hrest⟩ := ih hnamed (fun d hd => htuple d (List.mem_cons_of_mem c hd))
        fun d hd => hread d (List.mem_cons_of_mem c hd)
      refine ⟨hend, hgrows.trans hgrows', ?_⟩
      intro x hx
      rw [callAll, List.zip_cons_cons] at hx
      rcases List.mem_cons.mp hx with rfl | hx
      · exact ⟨id, hid, hgrows'.subset hset⟩
      · exact hrest x hx

/-- **Readable combinations have sets of their own**: two calls return the same id exactly for the same
pairs, and the labels of an id are the pairs it was returned for. -/
theorem faithful_of_readable {calls : List (List (String × String))}
    (htuple : ∀ c ∈ calls, IsLabelTuple c) (hread : ∀ c ∈ calls, Readable c) : Faithful calls := by
  obtain ⟨hnamed, -, hcalls⟩ := callAll_spec named_empty htuple hread
  constructor
  · intro x hx y hy
    obtain ⟨id, hid, hset⟩ := hcalls x hx
    obtain ⟨id', hid', hset'⟩ := hcalls y hy
    rw [hid, hid', Option.some_inj, ← signature_eq_iff (hread x.1 (List.of_mem_zip hx).1)
      (hread y.1 (List.of_mem_zip hy).1)]
    constructor
    · rintro rfl
      exact congrArg Prod.snd (List.inj_on_of_nodup_map hnamed.ids hset hset' rfl)
    · intro hsignature
      exact congrArg Prod.fst (List.inj_on_of_nodup_map hnamed.signatures hset hset' hsignature)
  · intro x hx
    obtain ⟨id, hid, hset⟩ := hcalls x hx
    have hin := (List.of_mem_zip hx).1
    obtain ⟨labels, -, hread', hsignature, hmembers⟩ := hnamed.labels _ hset
    have hsame := (signature_eq_iff (hread x.1 hin) hread').mp hsignature
    refine ⟨id, hid, fun ids hasked => ?_⟩
    -- the rows read are those of the sets asked for
    obtain ⟨rows, hrows, hfold, hsub⟩ : ∃ rows : List LabelSetMember,
        (∀ k v, (⟨id, k, v⟩ : LabelSetMember) ∈ rows ↔
          (⟨id, k, v⟩ : LabelSetMember) ∈ (callAll calls empty).2.members) ∧
        (callAll calls empty).2.labelSets ids = rows.foldl (fun out m => alter m.setId
          (fun labels => alter m.key (fun _ => m.value) (labels.getD [])) out) [] ∧
        rows.Sublist (callAll calls empty).2.members := by
      cases ids with
      | none => exact ⟨_, fun _ _ => Iff.rfl, rfl, List.Sublist.refl _⟩
      | some asked =>
          refine ⟨_, fun k v => ?_, rfl, List.filter_sublist⟩
          rw [List.mem_filter]
          exact and_iff_left (decide_eq_true (hasked asked rfl))
    have hlookup := lookup_labels
      ((callAll calls empty).2.keys_unique.sublist (hsub.map _)) id
    rw [hfold]
    have hpairs : ∀ k v, _ ↔ (k, v) ∈ x.1 := fun k v =>
      (hlookup k v).trans ((hrows k v).trans ((hmembers k v).trans (hsame (k, v)).symm))
    obtain ⟨⟨k, v⟩, hpair⟩ := List.exists_mem_of_ne_nil _ (htuple x.1 hin).nonempty
    obtain ⟨found, hfound, -⟩ := Option.bind_eq_some_iff.mp ((hpairs k v).mpr hpair)
    refine ⟨found, hfound, fun k v => ?_⟩
    rw [← hpairs k v, hfound]
    rfl

/-- A value may hold the sign that ends a key. -/
theorem faithful_of_readable_two :
    Faithful [[("env", "prod"), ("app", "a=b")], [("app", "a=b"), ("env", "prod")], [("app", "a")]] := by
  refine faithful_of_readable ?_ ?_
  · intro c hc
    rcases List.mem_cons.mp hc with rfl | hc
    · exact ⟨by decide, by decide⟩
    · rcases List.mem_pair.mp hc with rfl | rfl <;> exact ⟨by decide, by decide⟩
  · intro c hc
    rcases List.mem_cons.mp hc with rfl | hc
    · exact ⟨by decide, by decide⟩
    · rcases List.mem_pair.mp hc with rfl | rfl <;> exact ⟨by decide, by decide⟩

/-- Two labels, and one whose value goes on as the other's pair: one signature, so one set. -/
theorem label_sets_collide :
    ¬ ∀ calls : List (List (String × String)), (∀ c ∈ calls, IsLabelTuple c) → Faithful calls := by
  intro h
  have hfaithful := h [[("env", "prod"), ("role", "web")], [("env", "prod\nrole=web")]] (by
    intro c hc
    rcases List.mem_pair.mp hc with rfl | rfl <;> exact ⟨by decide, by decide⟩)
  have hids : (callAll [[("env", "prod"), ("role", "web")], [("env", "prod\nrole=web")]] empty).1 =
      [some 1, some 1] := by decide +kernel
  have hsame := (hfaithful.same ([("env", "prod"), ("role", "web")], some 1) (by simp [hids])
    ([("env", "prod\nrole=web")], some 1) (by simp [hids])).mp rfl ("role", "web")
  exact absurd (hsame.mp (by decide)) (by decide)

end IllumioOps.LabelSets
