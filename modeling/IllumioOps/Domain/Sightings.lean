import IllumioOps.Domain.Flows
import IllumioOps.Tables.Distinct
import Mathlib.Data.Finset.Lattice.Fold

/-!
# Pairing on what counts for it

Pairing looks at a record's key, direction, tuple and range, and a store joins what the
copies of a record count. A `Sighting` is this much of a record. Its counts form a
semilattice, so copies join in any order and any number of times, and who is paired with
whom depends on the set of sightings only (`wantedIn_perm`). `groupPairs` pairs the records
of a list as this says (`placed_groupPairs`).
-/

set_option autoImplicit false

namespace IllumioOps

open Matching

/-! ## Counts -/

/-- What the copies of a record report of its size. -/
@[ext] structure Counts where
  lastDetected : Int
  numConnections : Nat
  bytesIn : Option Int
  bytesOut : Option Int
  deriving DecidableEq

namespace Counts

/-- Counters only grow, and an absent byte count says nothing. -/
instance : Max Counts where
  max a b :=
    { lastDetected := max a.lastDetected b.lastDetected
      numConnections := max a.numConnections b.numConnections
      bytesIn := larger a.bytesIn b.bytesIn
      bytesOut := larger a.bytesOut b.bytesOut }

theorem max_def (a b : Counts) : a ⊔ b =
    { lastDetected := max a.lastDetected b.lastDetected
      numConnections := max a.numConnections b.numConnections
      bytesIn := larger a.bytesIn b.bytesIn
      bytesOut := larger a.bytesOut b.bytesOut } := rfl

instance : SemilatticeSup Counts :=
  SemilatticeSup.mk'
    (fun a b => by simp only [max_def, max_comm, larger_comm])
    (fun a b c => by simp only [max_def, max_assoc, larger_assoc])
    (fun a => by simp only [max_def, max_self, larger_self])

end Counts

/-! ## Sightings -/

/-- A record as pairing and counting see it. -/
structure Sighting where
  recordKey : String
  direction : FlowDirection
  tuple : FlowTuple
  firstDetected : Int
  counts : Counts
  deriving DecidableEq

/-- Where a record ends up: its connection, and whether it represents it. -/
structure PlacedRow where
  recordKey : String
  connKey : String
  isPrimary : Bool
  counts : Counts
  deriving DecidableEq

namespace Sighting

def within (o i : Sighting) : Bool :=
  rangesWithin o.firstDetected o.counts.lastDetected i.firstDetected i.counts.lastDetected

/-- A record that is in its own connection represents it. -/
def placed (s : Sighting) (connKey : String) : PlacedRow :=
  { recordKey := s.recordKey, connKey := connKey, isPrimary := connKey = s.recordKey,
    counts := s.counts }

end Sighting

/-- The sightings of a tuple in the order they are paired in. -/
def tupleSightings (seen : List Sighting) (tup : FlowTuple) : List Sighting :=
  (seen.filter fun s => s.tuple = tup).insertionSort fun a b =>
    firstThenKey (a.firstDetected, a.recordKey) (b.firstDetected, b.recordKey)

def pairSightings (seen : List Sighting) : List (Sighting × Option Sighting) :=
  matchFirst Sighting.within (seen.filter fun s => s.direction = .outbound)
    (seen.filter fun s => s.direction = .inbound)

/-- The connection that pairing wants a sighting in: its taker's, or its own. -/
def wantedIn (seen : List Sighting) (s : Sighting) : String :=
  match (pairSightings (tupleSightings seen s.tuple)).find? fun pair =>
    pair.2.any fun i => i.recordKey = s.recordKey with
  | some pair => pair.1.recordKey
  | none => s.recordKey

@[simp] theorem mem_tupleSightings {seen : List Sighting} {tup : FlowTuple} {s : Sighting} :
    s ∈ tupleSightings seen tup ↔ s ∈ seen ∧ s.tuple = tup := by
  simp [tupleSightings]

theorem tupleSightings_keys_nodup {seen : List Sighting}
    (h : (seen.map Sighting.recordKey).Nodup) (tup : FlowTuple) :
    ((tupleSightings seen tup).map Sighting.recordKey).Nodup := by
  have hperm := List.perm_insertionSort (fun a b : Sighting =>
    firstThenKey (a.firstDetected, a.recordKey) (b.firstDetected, b.recordKey))
    (seen.filter fun s => s.tuple = tup)
  exact (hperm.map Sighting.recordKey).nodup_iff.2 (h.sublist (List.filter_sublist.map _))

/-- The order of a tuple's sightings is theirs alone. -/
theorem tupleSightings_perm {seen seen' : List Sighting} (h : seen.Perm seen')
    (hkeys : (seen.map Sighting.recordKey).Nodup) (tup : FlowTuple) :
    tupleSightings seen tup = tupleSightings seen' tup := by
  have htrans : IsTrans Sighting fun a b =>
      firstThenKey (a.firstDetected, a.recordKey) (b.firstDetected, b.recordKey) :=
    ⟨fun _ _ _ => firstThenKey_trans⟩
  have htotal : Std.Total fun a b : Sighting =>
      firstThenKey (a.firstDetected, a.recordKey) (b.firstDetected, b.recordKey) :=
    ⟨fun _ _ => firstThenKey_total _ _⟩
  have hperm : (tupleSightings seen tup).Perm (tupleSightings seen' tup) :=
    (List.perm_insertionSort _ _).trans
      ((h.filter fun s => s.tuple = tup).trans (List.perm_insertionSort _ _).symm)
  apply hperm.eq_of_pairwise _ (List.pairwise_insertionSort _ _)
    (List.pairwise_insertionSort _ _)
  intro a b ha hb hab hba
  -- Two sightings at the same place of the order have the same key.
  have hsame := congrArg Prod.snd (firstThenKey_antisymm hab hba)
  exact List.inj_on_of_nodup_map hkeys (mem_tupleSightings.1 ha).1
    (h.mem_iff.2 (mem_tupleSightings.1 hb).1) hsame

/-- Who is paired with whom depends on the set of sightings only. -/
theorem wantedIn_perm {seen seen' : List Sighting} (h : seen.Perm seen')
    (hkeys : (seen.map Sighting.recordKey).Nodup) (s : Sighting) :
    wantedIn seen s = wantedIn seen' s := by
  unfold wantedIn
  rw [tupleSightings_perm h hkeys]

/-- Sightings of other tuples do not matter. -/
theorem wantedIn_congr {seen seen' : List Sighting} {s : Sighting}
    (h : (seen.filter fun q => q.tuple = s.tuple) = seen'.filter fun q => q.tuple = s.tuple) :
    wantedIn seen s = wantedIn seen' s := by
  unfold wantedIn tupleSightings
  rw [h]

section Wanted

variable {seen : List Sighting} (hkeys : (seen.map Sighting.recordKey).Nodup)

include hkeys

/-- A sighting that was taken is wanted with its taker. -/
theorem wantedIn_of_taken {o s : Sighting}
    (h : (o, some s) ∈ pairSightings (tupleSightings seen s.tuple)) :
    wantedIn seen s = o.recordKey := by
  have hnodup := tupleSightings_keys_nodup hkeys s.tuple
  have hs := (List.mem_filter.1 (matchFirst_mem h).2.1).1
  unfold wantedIn
  cases hfind : (pairSightings (tupleSightings seen s.tuple)).find? fun pair =>
      pair.2.any fun i => i.recordKey = s.recordKey with
  | none =>
      have hnone := List.find?_eq_none.1 hfind _ h
      simp at hnone
  | some pair =>
      obtain ⟨q, partner⟩ := pair
      have hkey := List.find?_some hfind
      have hmem := List.mem_of_find?_eq_some hfind
      cases partner with
      | none => simp at hkey
      | some i =>
          have hi := (List.mem_filter.1 (matchFirst_mem hmem).2.1).1
          have his : i = s := List.inj_on_of_nodup_map hnodup hi hs (by simpa using hkey)
          rw [his] at hmem
          have hins := (List.Nodup.of_map _ hnodup).filter fun q : Sighting =>
            decide (q.direction = .inbound)
          rw [matchFirst_taker_unique hins hmem h]

/-- A sighting that was not taken is wanted on its own. -/
theorem wantedIn_of_free {s : Sighting} (hs : s ∈ seen)
    (h : ∀ o, (o, some s) ∉ pairSightings (tupleSightings seen s.tuple)) :
    wantedIn seen s = s.recordKey := by
  have hnodup := tupleSightings_keys_nodup hkeys s.tuple
  unfold wantedIn
  cases hfind : (pairSightings (tupleSightings seen s.tuple)).find? fun pair =>
      pair.2.any fun i => i.recordKey = s.recordKey with
  | none => rfl
  | some pair =>
      obtain ⟨q, partner⟩ := pair
      have hkey := List.find?_some hfind
      have hmem := List.mem_of_find?_eq_some hfind
      cases partner with
      | none => simp at hkey
      | some i =>
          have hi := (List.mem_filter.1 (matchFirst_mem hmem).2.1).1
          have his : i = s := List.inj_on_of_nodup_map hnodup hi
            (mem_tupleSightings.2 ⟨hs, rfl⟩) (by simpa using hkey)
          exact absurd (his ▸ hmem) (h q)

/-- An outbound sighting is wanted on its own. -/
theorem wantedIn_of_outbound {s : Sighting} (hs : s ∈ seen) (hout : s.direction = .outbound) :
    wantedIn seen s = s.recordKey := by
  apply wantedIn_of_free hkeys hs
  intro o h
  have hin : s.direction = .inbound := by
    simpa using (List.mem_filter.1 (matchFirst_mem h).2.1).2
  rw [hout] at hin
  exact absurd hin (by decide)

end Wanted

/-! ## Records as sightings -/

namespace FlowRecord

def counts (r : FlowRecord) : Counts :=
  { lastDetected := r.lastDetected, numConnections := r.numConnections, bytesIn := r.bytesIn,
    bytesOut := r.bytesOut }

def sighting (digest : RecordId → String) (r : FlowRecord) : Sighting :=
  { recordKey := recordKey digest r, direction := r.direction, tuple := r.tuple,
    firstDetected := r.firstDetected, counts := r.counts }

end FlowRecord

/-- Copies of a record join their counts. -/
theorem counts_mergeSightings (a b : FlowRecord) :
    (mergeSightings a b).counts = a.counts ⊔ b.counts := by
  rw [Counts.max_def]
  unfold mergeSightings FlowRecord.counts
  by_cases h : a.lastDetected ≤ b.lastDetected
  · simp only [h, if_true, max_eq_right]
  · simp only [h, if_false, max_eq_left (not_le.1 h).le]

/-- A copy of a record joined to it is still that record. -/
theorem recordId_mergeSightings {a b : FlowRecord} (h : b.recordId = a.recordId) :
    (mergeSightings a b).recordId = a.recordId := by
  unfold mergeSightings
  by_cases hlast : a.lastDetected ≤ b.lastDetected
  · simp only [hlast, if_true]
    exact h
  · simp only [hlast, if_false]
    rfl

/-- Two records with one identity differ, as sightings, in their counts only. -/
theorem sighting_of_recordId {digest : RecordId → String} {a b : FlowRecord}
    (h : a.recordId = b.recordId) :
    a.sighting digest = { b.sighting digest with counts := a.counts } := by
  have hdirection : a.direction = b.direction := congrArg RecordId.direction h
  have hfirst : a.firstDetected = b.firstDetected := congrArg RecordId.firstDetected h
  have htuple : a.tuple = b.tuple := by
    have heq := congrArg (fun i : RecordId =>
      ({ srcIp := i.srcIp, dstIp := i.dstIp, port := i.port, proto := i.proto } : FlowTuple)) h
    exact heq
  simp only [FlowRecord.sighting, recordKey, h, hdirection, hfirst, htuple]

/-! ## What all copies of a record count -/

/-- The counts of all copies of a record, nothing when there is none. -/
def countsIn (digest : RecordId → String) (records : List FlowRecord) (key : String) :
    WithBot Counts :=
  (records.toFinset.filter fun r => recordKey digest r = key).sup fun r =>
    (r.counts : WithBot Counts)

theorem countsIn_nil (digest : RecordId → String) (key : String) :
    countsIn digest [] key = ⊥ := rfl

/-- What one record adds. -/
theorem countsIn_cons (digest : RecordId → String) (r : FlowRecord) (records : List FlowRecord)
    (key : String) : countsIn digest (r :: records) key =
      if recordKey digest r = key then (r.counts : WithBot Counts) ⊔ countsIn digest records key
      else countsIn digest records key := by
  unfold countsIn
  rw [List.toFinset_cons, Finset.filter_insert]
  split
  · rw [Finset.sup_insert]
  · rfl

/-- Neither the order nor the repeats of the records matter. -/
theorem countsIn_congr (digest : RecordId → String) {records records' : List FlowRecord}
    (h : ∀ r, r ∈ records ↔ r ∈ records') (key : String) :
    countsIn digest records key = countsIn digest records' key := by
  have hset : records.toFinset = records'.toFinset := by
    ext r
    rw [List.mem_toFinset, List.mem_toFinset, h r]
  unfold countsIn
  rw [hset]

/-- A sighting of one of the records that counts what all its copies do. -/
structure Sighting.IsTotal (digest : RecordId → String) (records : List FlowRecord)
    (s : Sighting) : Prop where
  reported : ∃ r ∈ records, s = { r.sighting digest with counts := s.counts }
  counts : countsIn digest records s.recordKey = (s.counts : WithBot Counts)

/-- A record that is among the records has counts. -/
theorem countsIn_of_mem {digest : RecordId → String} {records : List FlowRecord} {r : FlowRecord}
    (hr : r ∈ records) : ∃ c : Counts, countsIn digest records (recordKey digest r) = c := by
  have hle : (r.counts : WithBot Counts) ≤ countsIn digest records (recordKey digest r) := by
    apply Finset.le_sup (f := fun r : FlowRecord => (r.counts : WithBot Counts))
    simp [hr]
  cases hcounts : countsIn digest records (recordKey digest r) with
  | bot =>
      rw [hcounts] at hle
      exact absurd (WithBot.coe_le_iff.1 hle) (by simp)
  | coe c => exact ⟨c, rfl⟩

/-! ## Collecting sightings one by one -/

/-- What a list of sightings counts for a key. -/
def countsOf (seen : List Sighting) (key : String) : WithBot Counts :=
  match seen.find? fun s => s.recordKey = key with
  | none => ⊥
  | some s => s.counts

/-- A sighting joins the one with its key, or is added. -/
def addSighting (seen : List Sighting) (s : Sighting) : List Sighting :=
  if s.recordKey ∈ seen.map Sighting.recordKey then
    seen.map fun q => if q.recordKey = s.recordKey then { q with counts := q.counts ⊔ s.counts }
      else q
  else seen ++ [s]

/-- The sightings of some records, each key once and counting what all its copies do. -/
structure Collected (digest : RecordId → String) (records : List FlowRecord)
    (seen : List Sighting) : Prop where
  keys : (seen.map Sighting.recordKey).Nodup
  reported : ∀ s ∈ seen, ∃ r ∈ records, s = { r.sighting digest with counts := s.counts }
  counts : ∀ key, countsOf seen key = countsIn digest records key

theorem countsOf_of_mem {seen : List Sighting} (h : (seen.map Sighting.recordKey).Nodup)
    {s : Sighting} (hs : s ∈ seen) : countsOf seen s.recordKey = (s.counts : WithBot Counts) := by
  unfold countsOf
  cases hfind : seen.find? fun q => q.recordKey = s.recordKey with
  | none =>
      have hnone := List.find?_eq_none.1 hfind s hs
      simp at hnone
  | some q =>
      have hkey : q.recordKey = s.recordKey := by simpa using List.find?_some hfind
      rw [List.inj_on_of_nodup_map h (List.mem_of_find?_eq_some hfind) hs hkey]

theorem countsOf_of_not_mem {seen : List Sighting} {key : String}
    (h : key ∉ seen.map Sighting.recordKey) : countsOf seen key = ⊥ := by
  unfold countsOf
  rw [List.find?_eq_none.2]
  intro s hs
  rw [decide_eq_true_eq]
  rintro rfl
  exact h (List.mem_map_of_mem hs)

/-- What one more sighting counts. -/
theorem countsOf_addSighting (seen : List Sighting) (s : Sighting) (key : String) :
    countsOf (addSighting seen s) key =
      if s.recordKey = key then (s.counts : WithBot Counts) ⊔ countsOf seen key
      else countsOf seen key := by
  unfold addSighting
  by_cases hmem : s.recordKey ∈ seen.map Sighting.recordKey
  · rw [if_pos hmem]
    have hfind : (seen.map fun q => if q.recordKey = s.recordKey
        then { q with counts := q.counts ⊔ s.counts } else q).find? (fun q => q.recordKey = key) =
        (seen.find? fun q => q.recordKey = key).map fun q => if q.recordKey = s.recordKey
          then { q with counts := q.counts ⊔ s.counts } else q := by
      rw [List.find?_map]
      congr 2
      funext q
      simp only [Function.comp]
      split <;> rfl
    unfold countsOf
    rw [hfind]
    cases hq : seen.find? fun q => q.recordKey = key with
    | none =>
        have hne : s.recordKey ≠ key := by
          rintro rfl
          obtain ⟨q, hqs, hqkey⟩ := List.mem_map.1 hmem
          have hnone := List.find?_eq_none.1 hq q hqs
          simp [hqkey] at hnone
        rw [if_neg hne]
        rfl
    | some q =>
        have hqkey : q.recordKey = key := by simpa using List.find?_some hq
        simp only [Option.map_some, hqkey]
        by_cases hkey : s.recordKey = key
        · rw [if_pos hkey.symm, if_pos hkey, sup_comm]
          rfl
        · rw [if_neg (fun h => hkey h.symm), if_neg hkey]
  · rw [if_neg hmem]
    by_cases hkey : s.recordKey = key
    · rw [if_pos hkey, ← hkey, countsOf_of_not_mem hmem, sup_bot_eq]
      have hnone : seen.find? (fun q => q.recordKey = s.recordKey) = none := by
        apply List.find?_eq_none.2
        intro q hq
        rw [decide_eq_true_eq]
        intro h
        exact hmem (h ▸ List.mem_map_of_mem hq)
      unfold countsOf
      rw [List.find?_append, hnone]
      simp
    · rw [if_neg hkey]
      unfold countsOf
      rw [List.find?_append]
      cases seen.find? fun q => q.recordKey = key with
      | none => simp [hkey]
      | some q => rfl

theorem keys_addSighting {seen : List Sighting} (h : (seen.map Sighting.recordKey).Nodup)
    (s : Sighting) : ((addSighting seen s).map Sighting.recordKey).Nodup := by
  unfold addSighting
  by_cases hmem : s.recordKey ∈ seen.map Sighting.recordKey
  · rw [if_pos hmem, List.map_map]
    have hsame : (Sighting.recordKey ∘ fun q : Sighting => if q.recordKey = s.recordKey
        then { q with counts := q.counts ⊔ s.counts } else q) = Sighting.recordKey := by
      funext q
      simp only [Function.comp]
      split <;> rfl
    rwa [hsame]
  · rw [if_neg hmem, List.map_append, List.nodup_append]
    refine ⟨h, by simp, ?_⟩
    rintro a ha b hb rfl
    rw [List.map_singleton, List.mem_singleton] at hb
    exact hmem (hb ▸ ha)

section Collecting

variable {digest : RecordId → String} {records records' : List FlowRecord} {seen : List Sighting}

theorem collected_nil (digest : RecordId → String) : Collected digest [] [] where
  keys := List.nodup_nil
  reported _ hs := absurd hs List.not_mem_nil
  counts _ := rfl

/-- Neither the order nor the repeats of the records matter. -/
theorem Collected.congr (h : Collected digest records seen)
    (hsame : ∀ r, r ∈ records ↔ r ∈ records') : Collected digest records' seen where
  keys := h.keys
  reported s hs := by
    obtain ⟨r, hr, heq⟩ := h.reported s hs
    exact ⟨r, (hsame r).1 hr, heq⟩
  counts key := (h.counts key).trans (countsIn_congr digest hsame key)

theorem Collected.add (h : Collected digest records seen) (r : FlowRecord) :
    Collected digest (r :: records) (addSighting seen (r.sighting digest)) where
  keys := keys_addSighting h.keys _
  reported s hs := by
    unfold addSighting at hs
    split at hs
    · obtain ⟨q, hq, rfl⟩ := List.mem_map.1 hs
      obtain ⟨r', hr', heq⟩ := h.reported q hq
      refine ⟨r', List.mem_cons_of_mem _ hr', ?_⟩
      split
      · conv_lhs => rw [heq]
      · exact heq
    · rcases List.mem_append.1 hs with hs | hs
      · obtain ⟨r', hr', heq⟩ := h.reported s hs
        exact ⟨r', List.mem_cons_of_mem _ hr', heq⟩
      · rw [List.mem_singleton] at hs
        exact ⟨r, List.mem_cons_self, by rw [hs]⟩
  counts key := by
    rw [countsOf_addSighting, countsIn_cons, h.counts key]
    rfl

/-- The collected sightings are the total ones. -/
theorem Collected.mem_iff (hd : Function.Injective digest) (h : Collected digest records seen)
    {s : Sighting} : s ∈ seen ↔ s.IsTotal digest records := by
  constructor
  · intro hs
    exact ⟨h.reported s hs, (h.counts _).symm.trans (countsOf_of_mem h.keys hs)⟩
  · rintro ⟨⟨r, hr, heq⟩, hcounts⟩
    -- The key has a sighting, of the same record and with the same counts.
    have hmem : s.recordKey ∈ seen.map Sighting.recordKey := by
      by_contra hnot
      have hbot := countsOf_of_not_mem hnot
      rw [h.counts, hcounts] at hbot
      exact absurd hbot WithBot.coe_ne_bot
    obtain ⟨q, hq, hkey⟩ := List.mem_map.1 hmem
    obtain ⟨r', hr', hqeq⟩ := h.reported q hq
    have hqcounts := countsOf_of_mem h.keys hq
    rw [hkey, h.counts, hcounts, WithBot.coe_inj] at hqcounts
    have hid : r'.recordId = r.recordId := by
      apply hd
      have hq' : q.recordKey = recordKey digest r' := by rw [hqeq]; rfl
      have hs' : s.recordKey = recordKey digest r := by rw [heq]; rfl
      exact hq'.symm.trans (hkey.trans hs')
    have hqs : q = s := by
      rw [hqeq, heq, sighting_of_recordId hid, hqcounts]
    exact hqs ▸ hq

end Collecting

/-! ## Pairing all records at once -/

/-- The copies of one record, joined in the order they come in. -/
def mergeCopies (digest : RecordId → String) (records : List FlowRecord) (key : String) :
    Option FlowRecord :=
  match records.filter fun r => recordKey digest r = key with
  | [] => none
  | r :: copies => some (copies.foldl mergeSightings r)

/-- Every record once: all its copies joined. -/
def mergeAll (digest : RecordId → String) (records : List FlowRecord) : List FlowRecord :=
  (records.map (recordKey digest)).dedup.filterMap (mergeCopies digest records)

/-- Copies of a record, joined one after another. -/
theorem foldl_mergeSightings {r : FlowRecord} {copies : List FlowRecord}
    (h : ∀ c ∈ copies, c.recordId = r.recordId) :
    (copies.foldl mergeSightings r).recordId = r.recordId ∧
      ((copies.foldl mergeSightings r).counts : WithBot Counts) =
        (r :: copies).toFinset.sup fun c => (c.counts : WithBot Counts) := by
  induction copies generalizing r with
  | nil => exact ⟨rfl, by simp⟩
  | cons c copies ih =>
      have hc := h c List.mem_cons_self
      have hid := recordId_mergeSightings hc
      obtain ⟨hrest, hcounts⟩ := ih (r := mergeSightings r c) (fun d hd => by
        rw [hid]
        exact h d (List.mem_cons_of_mem _ hd))
      refine ⟨hrest.trans hid, ?_⟩
      rw [List.foldl_cons, hcounts]
      simp only [List.toFinset_cons, Finset.sup_insert, counts_mergeSightings, WithBot.coe_sup,
        sup_assoc]

section Merging

variable {digest : RecordId → String} (hd : Function.Injective digest)
  {records : List FlowRecord}

include hd

/-- The joined copies of a key are that record, with all their counts. -/
theorem mergeCopies_some {key : String} {m : FlowRecord}
    (h : mergeCopies digest records key = some m) :
    ∃ r ∈ records, recordKey digest r = key ∧ m.recordId = r.recordId ∧
      countsIn digest records key = (m.counts : WithBot Counts) := by
  unfold mergeCopies at h
  cases hfilter : records.filter fun r => recordKey digest r = key with
  | nil => simp [hfilter] at h
  | cons r copies =>
      obtain rfl : copies.foldl mergeSightings r = m := by simpa [hfilter] using h
      have hmem : ∀ c ∈ r :: copies, c ∈ records ∧ recordKey digest c = key := by
        intro c hc
        rw [← hfilter] at hc
        simpa using hc
      obtain ⟨hr, hkey⟩ := hmem r List.mem_cons_self
      have hsame : ∀ c ∈ copies, c.recordId = r.recordId := fun c hc =>
        hd ((hmem c (List.mem_cons_of_mem _ hc)).2.trans hkey.symm)
      obtain ⟨hid, hcounts⟩ := foldl_mergeSightings hsame
      refine ⟨r, hr, hkey, hid, ?_⟩
      rw [hcounts, ← hfilter, List.toFinset_filter]
      unfold countsIn
      simp only [decide_eq_true_eq]

theorem recordKey_mergeCopies {key : String} {m : FlowRecord}
    (h : mergeCopies digest records key = some m) : recordKey digest m = key := by
  obtain ⟨r, _, hkey, hid, _⟩ := mergeCopies_some hd h
  rw [← hkey, recordKey, recordKey, hid]

/-- One record of each key, counting what all its copies do. -/
theorem mem_sightings_mergeAll {s : Sighting} :
    s ∈ (mergeAll digest records).map (FlowRecord.sighting digest) ↔
      s.IsTotal digest records := by
  unfold mergeAll
  rw [List.mem_map]
  constructor
  · rintro ⟨m, hm, rfl⟩
    obtain ⟨key, _, hm⟩ := List.mem_filterMap.1 hm
    obtain ⟨r, hr, _, hid, hcounts⟩ := mergeCopies_some hd hm
    refine ⟨⟨r, hr, sighting_of_recordId hid⟩, ?_⟩
    change countsIn digest records (recordKey digest m) = _
    rw [recordKey_mergeCopies hd hm]
    exact hcounts
  · rintro ⟨⟨r, hr, hs⟩, hcounts⟩
    have hkey : s.recordKey = recordKey digest r := by rw [hs]; rfl
    cases hm : mergeCopies digest records (recordKey digest r) with
    | none =>
        -- The record itself is among the copies.
        unfold mergeCopies at hm
        cases hfilter : records.filter fun c => recordKey digest c = recordKey digest r with
        | nil =>
            have hnone := List.filter_eq_nil_iff.1 hfilter r hr
            simp at hnone
        | cons r₀ copies => simp [hfilter] at hm
    | some m =>
        obtain ⟨r₀, _, hkey₀, hid, htotal⟩ := mergeCopies_some hd hm
        refine ⟨m, List.mem_filterMap.2 ⟨recordKey digest r, ?_, hm⟩, ?_⟩
        · exact List.mem_dedup.2 (List.mem_map_of_mem hr)
        · rw [sighting_of_recordId (hid.trans (hd hkey₀)), hs]
          rw [hkey, htotal, WithBot.coe_inj] at hcounts
          rw [hcounts]

/-- No two of the joined records have one key. -/
theorem mergeAll_keys_nodup (records : List FlowRecord) :
    ((mergeAll digest records).map (recordKey digest)).Nodup := by
  have hsub : ∀ keys : List String,
      ((keys.filterMap (mergeCopies digest records)).map (recordKey digest)).Sublist keys := by
    intro keys
    induction keys with
    | nil => exact List.Sublist.refl _
    | cons key keys ih =>
        cases hm : mergeCopies digest records key with
        | none =>
            rw [List.filterMap_cons_none hm]
            exact ih.cons key
        | some m =>
            rw [List.filterMap_cons_some hm, List.map_cons, recordKey_mergeCopies hd hm]
            exact ih.cons_cons key
  exact (List.nodup_dedup _).sublist (hsub _)

/-- What is collected record by record is what joining all copies at once gives. -/
theorem Collected.perm_mergeAll {seen : List Sighting} (h : Collected digest records seen) :
    seen.Perm ((mergeAll digest records).map (FlowRecord.sighting digest)) := by
  have hkeys : (((mergeAll digest records).map (FlowRecord.sighting digest)).map
      Sighting.recordKey).Nodup := by
    rw [List.map_map]
    exact mergeAll_keys_nodup hd records
  apply (List.perm_ext_iff_of_nodup (List.Nodup.of_map _ h.keys) (List.Nodup.of_map _ hkeys)).2
  intro s
  exact (h.mem_iff hd).trans (mem_sightings_mergeAll hd).symm

end Merging

def placeRecord (digest : RecordId → String) (connKey : String) (isPrimary : Bool)
    (r : FlowRecord) : PlacedRow :=
  { recordKey := recordKey digest r, connKey := connKey, isPrimary := isPrimary,
    counts := r.counts }

/-- A connection by its primary record's key. -/
def placePair (digest : RecordId → String) (pair : FlowRecord × Option FlowRecord) :
    List PlacedRow :=
  placeRecord digest (recordKey digest pair.1) true pair.1 ::
    pair.2.toList.map (placeRecord digest (recordKey digest pair.1) false)

/-- `group_pairs`, applied once to all records with their copies joined. -/
def placedOnce (digest : RecordId → String) (records : List FlowRecord) : List PlacedRow :=
  (groupPairs digest (mergeAll digest records)).flatMap (placePair digest)

/-- The records of some pairs. -/
def pairRecords (pairs : List (FlowRecord × Option FlowRecord)) : List FlowRecord :=
  pairs.flatMap fun pair => pair.1 :: pair.2.toList

def recordsWithin (o i : FlowRecord) : Bool :=
  rangesWithin o.firstDetected o.lastDetected i.firstDetected i.lastDetected

/-- The pairs of a group are those of the recursion that removes what is taken, then the
inbound records that are left. -/
theorem pairGroup_eq (group : List FlowRecord) : ∃ rest : List FlowRecord,
    pairGroup group = matchFirst recordsWithin (group.filter fun r => r.direction = .outbound)
        (group.filter fun r => r.direction = .inbound) ++ rest.map (fun i => (i, none)) ∧
    (partners (matchFirst recordsWithin (group.filter fun r => r.direction = .outbound)
        (group.filter fun r => r.direction = .inbound)) ++ rest).Perm
      (group.filter fun r => r.direction = .inbound) := by
  obtain ⟨outs, houts⟩ : ∃ outs, outs = group.filter fun r => r.direction = .outbound := ⟨_, rfl⟩
  obtain ⟨ins, hins⟩ : ∃ ins, ins = group.filter fun r => r.direction = .inbound := ⟨_, rfl⟩
  obtain ⟨taken, htaken⟩ : ∃ taken, taken = firstFit
      (fun (o : FlowRecord) (i : FlowRecord × Nat) => recordsWithin o i.1) Prod.snd outs ins.zipIdx :=
    ⟨_, rfl⟩
  have hindices : (ins.zipIdx.map Prod.snd).Nodup := by
    rw [List.zipIdx_map_snd]
    exact List.nodup_range'
  have hpairs : taken.pairs.map (fun p => (p.1, p.2.map Prod.fst)) =
      matchFirst recordsWithin outs ins := by
    rw [htaken, firstFit_pairs_eq _ hindices]
    have hmap := matchFirst_map (fun o : FlowRecord => o) (Prod.fst : FlowRecord × Nat → FlowRecord)
      (fun o i => recordsWithin o i.1) recordsWithin (fun _ _ => rfl) outs ins.zipIdx
    rw [List.map_id', List.zipIdx_map_fst] at hmap
    exact hmap.symm
  have hall := (htaken ▸ firstFit_perm (fun (o : FlowRecord) (i : FlowRecord × Nat) =>
    recordsWithin o i.1) hindices outs).map Prod.fst
  have hpartners : (partners taken.pairs).map Prod.fst = partners (matchFirst recordsWithin outs ins) := by
    rw [← hpairs]
    unfold partners
    rw [List.filterMap_map, List.map_filterMap]
    rfl
  rw [List.map_append, hpartners, List.zipIdx_map_fst] at hall
  refine ⟨(untaken Prod.snd taken.used ins.zipIdx).map Prod.fst, ?_, ?_⟩
  · rw [← houts, ← hins, ← hpairs, List.map_map]
    unfold pairGroup
    rw [← houts, ← hins, htaken]
    rfl
  · rw [← houts, ← hins]
    exact hall

/-- A group's pairs hold its records. -/
theorem pairRecords_pairGroup (group : List FlowRecord) :
    (pairRecords (pairGroup group)).Perm group := by
  obtain ⟨rest, hpairs, hins⟩ := pairGroup_eq group
  rw [hpairs, pairRecords, List.flatMap_append]
  have hrest : ((rest.map fun i => ((i, none) : FlowRecord × Option FlowRecord)).flatMap
      fun pair => pair.1 :: pair.2.toList) = rest := by
    rw [List.flatMap_map]
    simp
  have hsplit : ((group.filter fun r => r.direction = .outbound) ++
      group.filter fun r => r.direction = .inbound).Perm group := by
    have hnot : (group.filter fun r => r.direction = .inbound) =
        group.filter fun r => !decide (r.direction = .outbound) := by
      apply List.filter_congr
      intro r _
      cases r.direction <;> rfl
    rw [hnot]
    exact List.filter_append_perm _ _
  rw [hrest]
  apply ((flatMap_pairs_perm _).append_right rest).trans
  rw [matchFirst_fst, List.append_assoc]
  exact (hins.append_left _).trans hsplit

variable {digest : RecordId → String}

/-- The order of the records is the order of their sightings. -/
theorem tupleSightings_map (records : List FlowRecord) (tup : FlowTuple) :
    tupleSightings (records.map (FlowRecord.sighting digest)) tup =
      (sortRecords digest (records.filter fun r => r.tuple = tup)).map
        (FlowRecord.sighting digest) := by
  unfold tupleSightings sortRecords
  rw [List.filter_map]
  refine (List.map_insertionSort
    (fun a b : FlowRecord =>
      firstThenKey (a.firstDetected, recordKey digest a) (b.firstDetected, recordKey digest b))
    (fun a b : Sighting =>
      firstThenKey (a.firstDetected, a.recordKey) (b.firstDetected, b.recordKey)) _ _ ?_).symm
  intro a _ b _
  exact Iff.rfl

/-- Records are paired as their sightings are. -/
theorem pairSightings_map (group : List FlowRecord) :
    pairSightings (group.map (FlowRecord.sighting digest)) =
      (matchFirst recordsWithin (group.filter fun r => r.direction = .outbound)
        (group.filter fun r => r.direction = .inbound)).map fun pair =>
          (pair.1.sighting digest, pair.2.map (FlowRecord.sighting digest)) := by
  unfold pairSightings
  rw [List.filter_map, List.filter_map]
  exact matchFirst_map _ _ recordsWithin Sighting.within (fun _ _ => rfl) _ _

/-- The two records of a pair are placed where pairing wants their sightings. -/
theorem placePair_eq {records : List FlowRecord}
    (hkeys : (records.map (recordKey digest)).Nodup) {tup : FlowTuple}
    {pair : FlowRecord × Option FlowRecord}
    (hpair : pair ∈ pairGroup (sortRecords digest (records.filter fun r => r.tuple = tup))) :
    placePair digest pair = (pair.1 :: pair.2.toList).map fun r =>
      (r.sighting digest).placed
        (wantedIn (records.map (FlowRecord.sighting digest)) (r.sighting digest)) := by
  obtain ⟨seen, hseen⟩ : ∃ seen, seen = records.map (FlowRecord.sighting digest) := ⟨_, rfl⟩
  obtain ⟨group, hgroup⟩ : ∃ group, group =
    sortRecords digest (records.filter fun r => r.tuple = tup) := ⟨_, rfl⟩
  have hseenKeys : (seen.map Sighting.recordKey).Nodup := by
    rw [hseen, List.map_map]
    exact hkeys
  have hmem : ∀ r ∈ group, r ∈ records ∧ r.tuple = tup := by
    intro r hr
    rw [hgroup, sortRecords, List.mem_insertionSort] at hr
    simpa using hr
  have hmemSeen : ∀ r ∈ group, r.sighting digest ∈ seen := by
    intro r hr
    rw [hseen]
    exact List.mem_map_of_mem (hmem r hr).1
  have hpairs : pairSightings (tupleSightings seen tup) =
      (matchFirst recordsWithin (group.filter fun r => r.direction = .outbound)
        (group.filter fun r => r.direction = .inbound)).map fun pair =>
          (pair.1.sighting digest, pair.2.map (FlowRecord.sighting digest)) := by
    rw [hseen, tupleSightings_map, pairSightings_map, hgroup]
  have hown : ∀ r ∈ group, wantedIn seen (r.sighting digest) = recordKey digest r →
      placeRecord digest (recordKey digest r) true r =
        (r.sighting digest).placed (wantedIn seen (r.sighting digest)) := by
    intro r _ hwanted
    rw [hwanted, Sighting.placed, placeRecord]
    congr 1
    exact (decide_eq_true rfl).symm
  have houtbound : ∀ r ∈ group, r.direction = .outbound →
      wantedIn seen (r.sighting digest) = recordKey digest r :=
    fun r hr hout => wantedIn_of_outbound hseenKeys (hmemSeen r hr) hout
  rw [← hgroup] at hpair
  rw [← hseen]
  obtain ⟨rest, hsplit, hins⟩ := pairGroup_eq group
  rw [hsplit, List.mem_append, List.mem_map] at hpair
  rcases hpair with hpair | ⟨i, hi, rfl⟩
  · -- A pair of the matching: the outbound record is the primary one.
    obtain ⟨a, partner⟩ := pair
    have ha : a ∈ group.filter fun r => r.direction = .outbound := by
      rw [← matchFirst_fst recordsWithin (group.filter fun r => r.direction = .outbound)
        (group.filter fun r => r.direction = .inbound)]
      exact List.mem_map_of_mem hpair
    obtain ⟨hag, hout⟩ := List.mem_filter.1 ha
    have hout : a.direction = .outbound := by simpa using hout
    have hplaced := hown a hag (houtbound a hag hout)
    cases partner with
    | none => simp only [placePair, Option.toList_none, List.map_nil, List.map_cons, hplaced]
    | some b =>
        obtain ⟨hbg, hin⟩ := List.mem_filter.1 (matchFirst_mem hpair).2.1
        have hin : b.direction = .inbound := by simpa using hin
        have hwanted : wantedIn seen (b.sighting digest) = recordKey digest a := by
          have htaken : (a.sighting digest, some (b.sighting digest)) ∈
              pairSightings (tupleSightings seen (b.sighting digest).tuple) := by
            change _ ∈ pairSightings (tupleSightings seen b.tuple)
            rw [(hmem b hbg).2, hpairs]
            exact List.mem_map.2 ⟨_, hpair, rfl⟩
          exact wantedIn_of_taken hseenKeys htaken
        have hne : recordKey digest a ≠ recordKey digest b := by
          intro heq
          have hab := List.inj_on_of_nodup_map hkeys (hmem a hag).1 (hmem b hbg).1 heq
          rw [hab, hin] at hout
          exact absurd hout (by decide)
        have hpartner : placeRecord digest (recordKey digest a) false b =
            (b.sighting digest).placed (wantedIn seen (b.sighting digest)) := by
          rw [hwanted, Sighting.placed, placeRecord]
          congr 1
          exact (decide_eq_false hne).symm
        simp only [placePair, Option.toList_some, List.map_nil, List.map_cons, hplaced, hpartner]
  · -- An inbound record that no outbound one took.
    have hinNodup : (group.filter fun r => r.direction = .inbound).Nodup := by
      rw [hgroup, sortRecords]
      apply List.Nodup.filter
      apply (List.perm_insertionSort _ _).nodup_iff.2
      exact (List.Nodup.of_map _ hkeys).filter _
    have hdisjoint := (List.nodup_append.1 (hins.nodup_iff.2 hinNodup)).2.2
    have hig : i ∈ group :=
      (List.mem_filter.1 (hins.mem_iff.1 (List.mem_append_right _ hi))).1
    have hwanted : wantedIn seen (i.sighting digest) = recordKey digest i := by
      apply wantedIn_of_free hseenKeys (hmemSeen i hig)
      intro o htaken
      change _ ∈ pairSightings (tupleSightings seen i.tuple) at htaken
      rw [(hmem i hig).2, hpairs, List.mem_map] at htaken
      obtain ⟨⟨a, partner⟩, hpair, heq⟩ := htaken
      cases partner with
      | none => simp at heq
      | some b =>
          have hbi : b.sighting digest = i.sighting digest := by simpa using (Prod.ext_iff.1 heq).2
          have hbg := (List.mem_filter.1 (matchFirst_mem hpair).2.1).1
          have hsame : b = i := List.inj_on_of_nodup_map hkeys (hmem b hbg).1 (hmem i hig).1
            (congrArg Sighting.recordKey hbi)
          exact hdisjoint b (mem_partners.2 ⟨a, hpair⟩) i hi hsame
    simp only [placePair, Option.toList_none, List.map_nil, List.map_cons, hown i hig hwanted]

/-- Grouped by tuple and paired, the records are those of the list. -/
theorem pairRecords_groupPairs {records : List FlowRecord} (h : records.Nodup) :
    (pairRecords (groupPairs digest records)).Perm records := by
  have hgroups : (pairRecords (groupPairs digest records)).Perm
      ((records.map FlowRecord.tuple).eraseDups.flatMap fun t =>
        records.filter fun r => r.tuple = t) := by
    unfold pairRecords groupPairs
    rw [List.flatMap_assoc]
    apply List.Perm.flatMap_left
    intro t _
    exact (pairRecords_pairGroup _).trans (List.perm_insertionSort _ _)
  apply hgroups.trans
  apply (List.perm_ext_iff_of_nodup _ h).2
  · intro r
    simp only [List.mem_flatMap, List.mem_eraseDups, List.mem_map, List.mem_filter,
      decide_eq_true_eq]
    constructor
    · rintro ⟨_, _, hr, _⟩
      exact hr
    · intro hr
      exact ⟨r.tuple, ⟨r, hr, rfl⟩, hr, rfl⟩
  · rw [List.nodup_flatMap]
    refine ⟨fun t _ => h.filter _, ?_⟩
    apply (Tables.nodup_eraseDups _).imp
    intro t t' hne r hr hr'
    simp only [List.mem_filter, decide_eq_true_eq] at hr hr'
    exact hne (hr.2.symm.trans hr'.2)

/-- `group_pairs` places every record where pairing wants its sighting. -/
theorem placed_groupPairs {records : List FlowRecord}
    (hkeys : (records.map (recordKey digest)).Nodup) :
    ((groupPairs digest records).flatMap (placePair digest)).Perm
      ((records.map (FlowRecord.sighting digest)).map fun s =>
        s.placed (wantedIn (records.map (FlowRecord.sighting digest)) s)) := by
  have heq : (groupPairs digest records).flatMap (placePair digest) =
      (pairRecords (groupPairs digest records)).map fun r =>
        (r.sighting digest).placed
          (wantedIn (records.map (FlowRecord.sighting digest)) (r.sighting digest)) := by
    unfold pairRecords
    rw [List.map_flatMap]
    apply List.flatMap_congr
    intro pair hpair
    obtain ⟨t, _, hpair⟩ := List.mem_flatMap.1 hpair
    exact placePair_eq hkeys hpair
  rw [heq, List.map_map]
  exact (pairRecords_groupPairs (List.Nodup.of_map _ hkeys)).map _

end IllumioOps
