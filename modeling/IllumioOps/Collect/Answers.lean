import IllumioOps.Store.Pairing
import IllumioOps.Tables.Keyed

/-!
# The records of an answer

`normalize_all`: the rows of an answer that are records, each once with its copies joined. A store that such an
answer is written to holds the sightings of the answer's rows (`PairedStore.answer`), and its connections are those of
one pairing of all rows it was given, however they came (`PairedStore.placed`).
-/

set_option autoImplicit false

namespace IllumioOps.Answers

open Tables

variable {digest : RecordId → String} {rs seen : List FlowRecord} {d : List (String × FlowRecord)}
  {rows : List (Option FlowRecord)}

/-- A record joins the copy that is known of it. -/
def joinCopy (digest : RecordId → String) (d : List (String × FlowRecord)) (r : FlowRecord) :
    List (String × FlowRecord) :=
  alter (recordKey digest r) (fun prev => prev.elim r fun q => mergeSightings q r) d

/-- `normalize_all`: the records, and how many rows could not be read. A row is `none` where `normalize_flow`
raises. -/
def normalizeAll (digest : RecordId → String) (rows : List (Option FlowRecord)) : List FlowRecord × Nat :=
  (((rows.filterMap id).foldl (joinCopy digest) []).map Prod.snd, rows.count none)

/-- The records whose copies were joined stand under their keys, each with the counts of its copies. -/
structure Joined (digest : RecordId → String) (rs : List FlowRecord) (d : List (String × FlowRecord)) : Prop where
  keys : (d.map Prod.fst).Nodup
  known : ∀ k m, d.lookup k = some m → recordKey digest m = k ∧ ∃ r ∈ rs, m.recordId = r.recordId
  counts : ∀ k, (d.lookup k).elim ⊥ (fun m => (m.counts : WithBot Counts)) = countsIn digest rs k

theorem joined_nil (digest : RecordId → String) : Joined digest [] [] where
  keys := List.nodup_nil
  known _ _ h := by cases h
  counts _ := rfl

theorem countsIn_snoc (r : FlowRecord) (k : String) :
    countsIn digest (rs ++ [r]) k = countsIn digest (r :: rs) k :=
  countsIn_congr digest (fun q => by simp only [List.mem_append, List.mem_cons, List.not_mem_nil]; tauto) k

theorem countsIn_append (a b : List FlowRecord) (k : String) :
    countsIn digest (a ++ b) k = countsIn digest a k ⊔ countsIn digest b k := by
  unfold countsIn
  rw [List.toFinset_append, Finset.filter_union, Finset.sup_union]

/-- What puts a record beside the copy that is known of it, and counts what both do. -/
theorem Joined.alter (hd : Function.Injective digest) (h : Joined digest rs d) (r : FlowRecord)
    {f : Option FlowRecord → FlowRecord} (hnew : f none = r)
    (hcopy : ∀ q : FlowRecord, r.recordId = q.recordId →
      (f (some q)).recordId = r.recordId ∧ (f (some q)).counts = q.counts ⊔ r.counts) :
    Joined digest (rs ++ [r]) (alter (recordKey digest r) f d) where
  keys := nodup_keys_alter h.keys
  known k m hm := by
    by_cases hk : k = recordKey digest r
    · subst hk
      rw [lookup_alter_self] at hm
      obtain rfl := Option.some.inj hm
      cases hold : d.lookup (recordKey digest r) with
      | none => exact ⟨congrArg (recordKey digest) hnew, r, by simp, congrArg FlowRecord.recordId hnew⟩
      | some q =>
        -- the copy under the key has the identity of the record
        obtain ⟨hid, -⟩ := hcopy q (hd (h.known _ _ hold).1.symm)
        exact ⟨congrArg digest hid, r, by simp, hid⟩
    · rw [lookup_alter_of_ne hk] at hm
      obtain ⟨hkey, q, hq, hid⟩ := h.known k m hm
      exact ⟨hkey, q, List.mem_append_left _ hq, hid⟩
  counts k := by
    rw [countsIn_snoc, countsIn_cons]
    by_cases hk : k = recordKey digest r
    · subst hk
      rw [lookup_alter_self, if_pos rfl, ← h.counts]
      cases hold : d.lookup (recordKey digest r) with
      | none => simp [hnew]
      | some q =>
        obtain ⟨-, hcounts⟩ := hcopy q (hd (h.known _ _ hold).1.symm)
        simp only [Option.elim_some, hcounts, WithBot.coe_sup]
        exact sup_comm _ _
    · rw [lookup_alter_of_ne hk, if_neg (Ne.symm hk)]
      exact h.counts k

theorem Joined.join (hd : Function.Injective digest) (h : Joined digest rs d) (r : FlowRecord) :
    Joined digest (rs ++ [r]) (joinCopy digest d r) := by
  refine h.alter hd r rfl fun q hid => ⟨?_, counts_mergeSightings q r⟩
  exact (recordId_mergeSightings hid).trans hid.symm

theorem joined_foldl (hd : Function.Injective digest) (rs : List FlowRecord) :
    Joined digest rs (rs.foldl (joinCopy digest) []) := by
  have hrun : ∀ (before : List FlowRecord) (d : List (String × FlowRecord)), Joined digest before d →
      Joined digest (before ++ rs) (rs.foldl (joinCopy digest) d) := by
    induction rs with
    | nil => exact fun before d h => (List.append_nil before).symm ▸ h
    | cons r rs ih =>
      intro before d h
      have hstep := ih _ _ (h.join hd r)
      rwa [List.append_assoc, List.singleton_append] at hstep
  exact hrun [] [] (joined_nil digest)

/-- What the joined records count is what all the copies do. -/
theorem Joined.countsIn_eq (h : Joined digest rs d) (k : String) :
    countsIn digest (d.map Prod.snd) k = countsIn digest rs k := by
  rw [← h.counts k]
  have hkey : ∀ e ∈ d, recordKey digest e.2 = e.1 := fun e he =>
    (h.known _ _ ((lookup_eq_some_iff_mem h.keys).2 he)).1
  have hkeys := h.keys
  clear h
  induction d with
  | nil => rfl
  | cons e d ih =>
    rw [List.map_cons, List.nodup_cons] at hkeys
    have hrest := ih (fun e' he' => hkey e' (List.mem_cons_of_mem _ he')) hkeys.2
    rw [List.map_cons, countsIn_cons, hkey e List.mem_cons_self, hrest, lookup_cons_eq]
    by_cases hk : e.1 = k
    · have hnone : d.lookup k = none := by
        refine Option.eq_none_iff_forall_ne_some.2 fun m hm => hkeys.1 ?_
        exact List.mem_map.2 ⟨_, (lookup_eq_some_iff_mem hkeys.2).1 hm, hk.symm⟩
      rw [if_pos hk, if_pos (beq_iff_eq.2 hk.symm), hnone]
      exact sup_bot_eq _
    · rw [if_neg hk, if_neg (by simpa using Ne.symm hk)]

/-- Sightings of the joined records are sightings of the records. -/
theorem Joined.collected (h : Joined digest rs d) {s : List Sighting}
    (hs : Collected digest (seen ++ d.map Prod.snd) s) : Collected digest (seen ++ rs) s where
  keys := hs.keys
  reported x hx := by
    obtain ⟨r, hr, heq⟩ := hs.reported x hx
    rcases List.mem_append.1 hr with hr | hr
    · exact ⟨r, List.mem_append_left _ hr, heq⟩
    · obtain ⟨e, he, rfl⟩ := List.mem_map.1 hr
      obtain ⟨-, q, hq, hid⟩ := h.known _ _ ((lookup_eq_some_iff_mem h.keys).2 he)
      refine ⟨q, List.mem_append_right _ hq, ?_⟩
      rw [heq, sighting_of_recordId hid]
  counts k := by rw [hs.counts, countsIn_append, countsIn_append, h.countsIn_eq]

/-- What holds of all records, and of two copies joined where it holds of both, holds of the joined records. -/
theorem forall_normalizeAll {P : FlowRecord → Prop} (hjoin : ∀ a b, P a → P b → P (mergeSightings a b))
    (hrows : ∀ r, some r ∈ rows → P r) : ∀ r ∈ (normalizeAll digest rows).1, P r := by
  have hrun : ∀ (rs : List FlowRecord) (d : List (String × FlowRecord)), (∀ r ∈ rs, P r) →
      (∀ e ∈ d, P e.2) → ∀ e ∈ rs.foldl (joinCopy digest) d, P e.2 := by
    intro rs
    induction rs with
    | nil => exact fun d _ hd => hd
    | cons r rs ih =>
      intro d hrs hd
      refine ih _ (fun q hq => hrs q (List.mem_cons_of_mem _ hq)) ?_
      have hr := hrs r List.mem_cons_self
      clear ih hrs
      induction d with
      | nil => simpa [joinCopy, alter] using hr
      | cons e d ihd =>
        have hrest := ihd fun e' he' => hd e' (List.mem_cons_of_mem _ he')
        have he := hd e List.mem_cons_self
        unfold joinCopy alter
        split
        · rw [List.forall_mem_cons]
          exact ⟨hjoin _ _ he hr, fun e' he' => hd e' (List.mem_cons_of_mem _ he')⟩
        · rw [List.forall_mem_cons]
          exact ⟨he, hrest⟩
  intro r hr
  obtain ⟨e, he, rfl⟩ := List.mem_map.1 hr
  refine hrun (rows.filterMap id) [] (fun q hq => hrows q ?_) (fun _ he => absurd he List.not_mem_nil) e he
  simpa using hq

theorem wholeMilliseconds_mergeSightings {a b : FlowRecord} (ha : a.WholeMilliseconds) (hb : b.WholeMilliseconds) :
    (mergeSightings a b).WholeMilliseconds := by
  unfold mergeSightings
  split
  · exact ⟨hb.first, hb.last⟩
  · exact ⟨ha.first, ha.last⟩

/-- No answer becomes longer. -/
theorem length_normalizeAll (digest : RecordId → String) (rows : List (Option FlowRecord)) :
    (normalizeAll digest rows).1.length ≤ rows.length := by
  have hstep : ∀ (d : List (String × FlowRecord)) (r : FlowRecord), (joinCopy digest d r).length ≤ d.length + 1 := by
    intro d r
    induction d with
    | nil => exact le_rfl
    | cons e d ih =>
      unfold joinCopy alter
      split
      · simp
      · simpa [joinCopy] using ih
  have hrun : ∀ (rs : List FlowRecord) (d : List (String × FlowRecord)),
      (rs.foldl (joinCopy digest) d).length ≤ d.length + rs.length := by
    intro rs
    induction rs with
    | nil => exact fun d => le_rfl
    | cons r rs ih =>
      intro d
      have h := ih (joinCopy digest d r)
      have := hstep d r
      rw [List.foldl_cons, List.length_cons]
      omega
  have h := hrun (rows.filterMap id) []
  have hfilter := List.length_filterMap_le id rows
  simp only [normalizeAll, List.length_map, List.length_nil] at h ⊢
  omega

end IllumioOps.Answers

namespace IllumioOps

/-! ## Answers written to a store -/

variable {p : Primitives} {seen : List FlowRecord} {t : FlowTable}

/-- An answer of whole milliseconds, written: the store has the sightings of its rows. -/
theorem PairedStore.answer {db : FlowDb} (h : PairedStore p seen db.flows) (o : UpsertOptions)
    {rows : List (Option FlowRecord)} (hms : ∀ r, some r ∈ rows → r.WholeMilliseconds) :
    PairedStore p (seen ++ rows.filterMap id)
      (upsertFlows p o db (Answers.normalizeAll p.digest rows).1).1.flows := by
  have hkept : ∀ r ∈ (Answers.normalizeAll p.digest rows).1, r.WholeMilliseconds :=
    Answers.forall_normalizeAll (fun _ _ => Answers.wholeMilliseconds_mergeSightings) hms
  have hwritten := h.upsert (o := o) hkept
  exact ⟨hwritten.sound, hwritten.paired, (Answers.joined_foldl p.digest_injective _).collected hwritten.collected⟩

/-- The rows of a store are those of one pairing of all records that it has the sightings of. -/
theorem PairedStore.placed (h : PairedStore p seen t) :
    (t.rows.map FlowRow.placed).Perm (placedOnce p.digest seen) := by
  have hplaced : t.rows.map FlowRow.placed = t.sightings.map fun s => s.placed (wantedIn t.sightings s) := by
    conv_rhs => rw [FlowTable.sightings, List.map_map]
    exact List.map_congr_left fun r hr => placed_eq h.sound h.paired hr
  have hperm := h.collected.perm_mergeAll p.digest_injective
  rw [hplaced]
  -- the sightings are those of the joined records, so pairing wants the same of both
  have hwanted : (fun s : Sighting => s.placed (wantedIn t.sightings s)) = fun s =>
      s.placed (wantedIn ((mergeAll p.digest seen).map (FlowRecord.sighting p.digest)) s) := by
    funext s
    rw [wantedIn_perm hperm t.sightings_keys_nodup]
  rw [hwanted]
  exact (hperm.map _).trans (placed_groupPairs (mergeAll_keys_nodup p.digest_injective seen)).symm

/-- A record that the store has the sighting of is one of its rows, with no more than the row counts. -/
theorem PairedStore.row_of_mem (h : PairedStore p seen t) {r : FlowRecord} (hr : r ∈ seen) :
    ∃ q ∈ t.rows, q.recordKey = recordKey p.digest r ∧ r.counts ≤ q.counts := by
  have hle : (r.counts : WithBot Counts) ≤ countsIn p.digest seen (recordKey p.digest r) := by
    apply Finset.le_sup (f := fun r : FlowRecord => (r.counts : WithBot Counts))
    simp [hr]
  rw [← h.collected.counts] at hle
  have hmem : recordKey p.digest r ∈ t.sightings.map Sighting.recordKey := by
    by_contra hnot
    rw [countsOf_of_not_mem hnot] at hle
    exact WithBot.coe_ne_bot (le_bot_iff.1 hle)
  obtain ⟨s, hs, hkey⟩ := List.mem_map.1 hmem
  rw [← hkey, countsOf_of_mem h.collected.keys hs, WithBot.coe_le_coe] at hle
  obtain ⟨q, hq, rfl⟩ := List.mem_map.1 hs
  exact ⟨q, hq, hkey, hle⟩

/-- A row of the store is of a record that it has the sighting of. -/
theorem PairedStore.mem_of_row (h : PairedStore p seen t) {q : FlowRow} (hq : q ∈ t.rows) :
    ∃ r ∈ seen, q.recordKey = recordKey p.digest r := by
  obtain ⟨r, hr, heq⟩ := h.collected.reported _ (FlowTable.sighting_mem hq)
  exact ⟨r, hr, congrArg Sighting.recordKey heq⟩

end IllumioOps
