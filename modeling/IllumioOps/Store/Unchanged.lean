import IllumioOps.Store.Marks
import IllumioOps.Store.NewConnections
import IllumioOps.Store.Pairing

/-!
# Records that add nothing

A stored record that `_adds_nothing` accepts is left out of the batch. Written all the same, it would leave
every row as it is but for the time of its last ingest, in every store whose rows are merged and are where
pairing wants them; and so is every store that batches and expiries leave (`skip_unobservable`).
-/

set_option autoImplicit false

namespace IllumioOps

open Matching Tables

/-! ## Rows that pairing placed -/

/-- What batches and expiries keep: every connection is merged, and every row is where pairing wants it. -/
structure PlacedStore (p : Primitives) (t : FlowTable) : Prop where
  sound : SoundStore p t
  paired : Paired t

section Filter

variable {seen : List Sighting} {keep : Sighting → Bool}

/-- Leaving some sightings out leaves the others in their order. -/
theorem tupleSightings_filter (hkeys : (seen.map Sighting.recordKey).Nodup) (tup : FlowTuple) :
    tupleSightings (seen.filter keep) tup = (tupleSightings seen tup).filter keep := by
  have htrans : IsTrans Sighting fun a b =>
      firstThenKey (a.firstDetected, a.recordKey) (b.firstDetected, b.recordKey) :=
    ⟨fun _ _ _ => firstThenKey_trans⟩
  have htotal : Std.Total fun a b : Sighting =>
      firstThenKey (a.firstDetected, a.recordKey) (b.firstDetected, b.recordKey) :=
    ⟨fun _ _ => firstThenKey_total _ _⟩
  have hcomm : (seen.filter keep).filter (fun s => s.tuple = tup) =
      (seen.filter fun s => s.tuple = tup).filter keep := by
    rw [List.filter_filter, List.filter_filter]
    exact List.filter_congr fun s _ => Bool.and_comm _ _
  have hperm : (tupleSightings (seen.filter keep) tup).Perm ((tupleSightings seen tup).filter keep) := by
    refine (List.perm_insertionSort _ _).trans ?_
    rw [hcomm]
    exact ((List.perm_insertionSort _ _).symm).filter keep
  apply hperm.eq_of_pairwise _ (List.pairwise_insertionSort _ _)
    ((List.pairwise_insertionSort _ _).filter _)
  intro a b ha hb hab hba
  have hsame := congrArg Prod.snd (firstThenKey_antisymm hab hba)
  exact List.inj_on_of_nodup_map hkeys (List.mem_filter.1 (mem_tupleSightings.1 ha).1).1
    (mem_tupleSightings.1 (List.mem_filter.1 hb).1).1 hsame

/-- Leaving connections out whole leaves the others as they are. -/
theorem wantedIn_filter (hkeys : (seen.map Sighting.recordKey).Nodup)
    (hwhole : ∀ s ∈ seen, ∀ q ∈ seen, wantedIn seen s = wantedIn seen q → keep s = keep q)
    {s : Sighting} (hs : s ∈ seen) (hkeep : keep s = true) :
    wantedIn (seen.filter keep) s = wantedIn seen s := by
  have hkeys' : ((seen.filter keep).map Sighting.recordKey).Nodup :=
    hkeys.sublist (List.filter_sublist.map _)
  have hpairs : pairSightings (tupleSightings (seen.filter keep) s.tuple) =
      (pairSightings (tupleSightings seen s.tuple)).filter fun pair => keep pair.1 := by
    have hswap : ∀ (d : FlowDirection) (l : List Sighting),
        (l.filter keep).filter (fun q => q.direction = d) =
          (l.filter fun q => q.direction = d).filter keep := by
      intro d l
      rw [List.filter_filter, List.filter_filter]
      exact List.filter_congr fun q _ => Bool.and_comm _ _
    rw [tupleSightings_filter hkeys]
    unfold pairSightings
    rw [hswap, hswap]
    refine matchFirst_filter fun a b hab => ?_
    obtain ⟨ha, hb, -⟩ := matchFirst_mem hab
    obtain ⟨hamem, hout⟩ := List.mem_filter.1 ha
    obtain ⟨haseen, -⟩ := mem_tupleSightings.1 hamem
    obtain ⟨hbseen, htuple⟩ := mem_tupleSightings.1 (List.mem_filter.1 hb).1
    -- the pair is one connection
    have hown := wantedIn_of_outbound hkeys haseen (by simpa using hout)
    have htaken : wantedIn seen b = a.recordKey := by
      refine wantedIn_of_taken hkeys ?_
      rw [htuple]
      exact hab
    exact hwhole a haseen b hbseen (hown.trans htaken.symm)
  by_cases htaken : ∃ o, (o, some s) ∈ pairSightings (tupleSightings seen s.tuple)
  · obtain ⟨o, ho⟩ := htaken
    have hoseen := (mem_tupleSightings.1 (List.mem_filter.1 (matchFirst_mem ho).1).1).1
    have hout := (List.mem_filter.1 (matchFirst_mem ho).1).2
    have hwanted := wantedIn_of_taken hkeys ho
    have hkeepO : keep o = true := by
      rw [← hkeep]
      exact hwhole o hoseen s hs ((wantedIn_of_outbound hkeys hoseen (by simpa using hout)).trans hwanted.symm)
    rw [hwanted]
    refine wantedIn_of_taken hkeys' ?_
    rw [hpairs]
    exact List.mem_filter.2 ⟨ho, hkeepO⟩
  · have hfree : ∀ o, (o, some s) ∉ pairSightings (tupleSightings seen s.tuple) :=
      fun o ho => htaken ⟨o, ho⟩
    rw [wantedIn_of_free hkeys hs hfree]
    refine wantedIn_of_free hkeys' (List.mem_filter.2 ⟨hs, hkeep⟩) fun o ho => ?_
    rw [hpairs] at ho
    exact hfree o (List.mem_filter.1 ho).1

end Filter

section Placed

variable {p : Primitives} {t : FlowTable}

/-- Expired connections go whole, so the rows that stay are where pairing wants them. -/
theorem paired_deleteConnectionsBefore (h : Paired t) {cutoff : Int} {connKeys : List String}
    {archivedDays : Option (Int → Bool)} :
    Paired (deleteConnectionsBefore t cutoff connKeys archivedDays).1 := by
  obtain ⟨doomed, hdoomed⟩ : ∃ doomed, doomed = connKeys.dedup.filter (expired t cutoff archivedDays) :=
    ⟨_, rfl⟩
  have hsightings : (deleteConnectionsBefore t cutoff connKeys archivedDays).1.sightings =
      t.sightings.filter fun s => decide (wantedIn t.sightings s ∉ doomed) := by
    unfold FlowTable.sightings deleteConnectionsBefore
    rw [FlowTable.delete_rows, ← hdoomed, List.filter_map]
    congr 1
    refine List.filter_congr fun r hr => ?_
    have hconn := h r hr
    unfold FlowTable.sightings at hconn
    simp only [Function.comp, ← hconn, decide_not]
  intro r hr
  obtain ⟨hrow, hkept⟩ := mem_deleteConnectionsBefore.1 hr
  rw [hsightings, h r hrow]
  refine (wantedIn_filter t.sightings_keys_nodup ?_ (FlowTable.sighting_mem hrow) ?_).symm
  · intro s _ q _ heq
    rw [heq]
  · rw [← h r hrow, hdoomed]
    exact decide_eq_true hkept

theorem placedStore_empty (p : Primitives) : PlacedStore p FlowTable.empty where
  sound := soundStore_empty p
  paired _ hr := absurd hr List.not_mem_nil

theorem PlacedStore.run {db : FlowDb} (h : PlacedStore p db.flows) (op : ConnectionOp) :
    PlacedStore p (op.run p db).flows := by
  refine ⟨h.sound.run op, ?_⟩
  cases op with
  | upsert o records => exact paired_upsertFlows h.sound.stored h.paired
  | deleteBefore => exact paired_deleteConnectionsBefore h.paired

theorem placedStore_storeAfter (p : Primitives) (ops : List ConnectionOp) :
    PlacedStore p (storeAfter p ops).flows := by
  apply List.foldlRecOn (motive := fun db : FlowDb => PlacedStore p db.flows)
  · exact placedStore_empty p
  · intro db h op _
    exact h.run op

end Placed

/-! ## Writing the record all the same -/

/-- `_refresh`, `_repair_tuple` and `_merge_connection`, as a batch runs them for a stored record. -/
def rewriteRecord (p : Primitives) (origin : DataOrigin) (stamp : Int) (t : FlowTable) (r : FlowRecord)
    (old : FlowRow) : FlowTable :=
  let refreshed := t.update ((refreshEdit r origin stamp).on fun row => row.id = old.id)
  let repaired := repairTuples [recordKey p.digest r] refreshed [r.tuple]
  (repaired.keys.dedup.insertionSort (· ≤ ·)).foldl mergeConnection repaired.flows

/-- A row but for `ingested_at`. -/
def FlowRow.unstamped (r : FlowRow) : FlowRow := { r with ingestedAt := 0 }

/-- The row with another `ingested_at`. -/
def FlowRow.stamped (id : Nat) (stamp : Int) (r : FlowRow) : FlowRow :=
  if r.id = id then { r with ingestedAt := stamp } else r

section Frame

variable {p : Primitives} {t : FlowTable} {r : FlowRecord} {old : FlowRow} {origin : DataOrigin}

theorem givesSame_stamped (id : Nat) (stamp : Int) (r : FlowRow) : GivesSame r (r.stamped id stamp) := by
  unfold FlowRow.stamped
  split <;> exact ⟨rfl, rfl, rfl, rfl, rfl, rfl⟩

theorem unstamped_stamped (id : Nat) (stamp : Int) (r : FlowRow) :
    (r.stamped id stamp).unstamped = r.unstamped := by
  unfold FlowRow.stamped
  split <;> rfl

theorem connKey_stamped (id : Nat) (stamp : Int) (r : FlowRow) :
    (r.stamped id stamp).connKey = r.connKey := by
  unfold FlowRow.stamped
  split <;> rfl

theorem sighting_stamped (id : Nat) (stamp : Int) (r : FlowRow) :
    (r.stamped id stamp).sighting = r.sighting := by
  unfold FlowRow.stamped
  split <;> rfl

theorem mergeRow_stamped (rows : List FlowRow) (id : Nat) (stamp : Int) (r : FlowRow) :
    mergeRow rows (r.stamped id stamp) = (mergeRow rows r).stamped id stamp := by
  unfold mergeRow
  split
  · rfl
  · unfold FlowRow.stamped mergeEdit
    dsimp only
    split <;> rfl

/-- Merging touches none of the counts recorded, so a merged row stays as it is. -/
theorem mergeRow_eq_self {rows : List FlowRow} {r : FlowRow}
    (h : (mergeRow rows r).uncounted = r.uncounted) : mergeRow rows r = r := by
  have hback : ∀ q : FlowRow, q.uncounted.withCounted q.countedConnections q.countedBytes = q :=
    fun _ => rfl
  have hmarks := marks_mergeRow rows r
  have hconnections : (mergeRow rows r).countedConnections = r.countedConnections :=
    congrArg Prod.fst hmarks
  have hbytes : (mergeRow rows r).countedBytes = r.countedBytes := congrArg Prod.snd hmarks
  rw [← hback (mergeRow rows r), h, hconnections, hbytes, hback]

/-- A row shows at least the bytes it counts itself. -/
theorem larger_shown {shown own new : Option Int} (hshown : ∀ m, own = some m → ∃ n, shown = some n ∧ m ≤ n)
    (h : moreBytes new own = false) : larger shown new = shown := by
  cases new with
  | none => exact larger_none_right shown
  | some n =>
      cases own with
      | none => simp [moreBytes] at h
      | some m =>
          obtain ⟨k, rfl, hle⟩ := hshown m rfl
          have hnm : n ≤ m := by simpa [moreBytes] using h
          rw [larger, max_eq_left (hnm.trans hle)]

theorem SoundConnection.shown_bytes {rows : List FlowRow} (h : SoundConnection rows) {q : FlowRow}
    (hq : q ∈ rows) : (∀ m, q.ownBytesIn = some m → ∃ n, q.bytesIn = some n ∧ m ≤ n) ∧
      ∀ m, q.ownBytesOut = some m → ∃ n, q.bytesOut = some n ∧ m ≤ n := by
  have hlargest : ∀ {counts : List (Option Int)} {shown : Option Int} {m : Int},
      IsLargest counts shown → some m ∈ counts → ∃ n, shown = some n ∧ m ≤ n := by
    intro counts shown m hlargest hm
    cases shown with
    | none => exact absurd (hlargest _ hm) (Option.some_ne_none m)
    | some n => exact ⟨n, rfl, hlargest.2 m hm⟩
  cases hprimary : q.isPrimary with
  | true =>
      obtain ⟨hin, hout⟩ := h.primary_bytes q hq hprimary
      exact ⟨fun m hm => hlargest hin (List.mem_map.2 ⟨q, hq, hm⟩),
        fun m hm => hlargest hout (List.mem_map.2 ⟨q, hq, hm⟩)⟩
  | false =>
      obtain ⟨hin, hout⟩ := h.other_bytes q hq hprimary
      exact ⟨fun m hm => ⟨m, hin.trans hm, le_refl _⟩, fun m hm => ⟨m, hout.trans hm, le_refl _⟩⟩

/-- The refresh of a record that adds nothing sets the time of its ingest, if anything. -/
theorem refresh_eq_stamped (hconn : SoundConnection (t.connRows old.connKey)) (hold : old ∈ t.rows)
    (hadds : addsNothing old r origin = true) (stamp : Int) :
    (t.update ((refreshEdit r origin stamp).on fun row => row.id = old.id)).rows =
      t.rows.map (FlowRow.stamped old.id (if origin = .ingest then stamp else old.ingestedAt)) := by
  rw [FlowTable.update_rows]
  refine List.map_congr_left fun row hrow => ?_
  rw [FlowTable.apply_on, FlowRow.stamped]
  by_cases hid : row.id = old.id
  · obtain rfl := FlowTable.eq_of_id hrow hold hid
    rw [if_pos rfl, if_pos (decide_eq_true rfl)]
    obtain ⟨hshownIn, hshownOut⟩ := hconn.shown_bytes (FlowTable.mem_connRows.2 ⟨hold, rfl⟩)
    unfold addsNothing at hadds
    simp only [Bool.and_eq_true, decide_eq_true_eq, Bool.not_eq_true', Bool.or_eq_true] at hadds
    obtain ⟨⟨⟨⟨⟨⟨hlast, hnum⟩, hin⟩, hout⟩, hprocess⟩, huser⟩, horigin⟩ := hadds
    have hname : ∀ {known new : Option Name}, (new.isSome && known.isNone) = false →
        known.or new = known := by
      intro known new h
      cases known <;> cases new <;> simp_all
    have hstored : (if row.origin = .ingest then .ingest else origin) = row.origin := by
      by_cases hingest : row.origin = .ingest
      · rw [if_pos hingest, hingest]
      · rw [if_neg hingest, horigin.resolve_left hingest]
    have hstate : (if row.lastDetected < dbTime r.lastDetected then r.state else row.state) = row.state :=
      if_neg (not_lt.2 hlast)
    cases hdirection : row.direction with
    | outbound =>
        simp only [hdirection, if_true] at hprocess huser
        simp only [refreshEdit, hdirection, if_true, max_eq_left hlast, max_eq_left hnum,
          larger_shown hshownIn hin, larger_shown hshownOut hout, larger_of_not_moreBytes hin,
          larger_of_not_moreBytes hout, hstate, hname hprocess, hname huser, hstored]
    | inbound =>
        have hne : (FlowDirection.inbound = FlowDirection.outbound) = False := by simp
        simp only [hdirection, hne, if_false] at hprocess huser
        simp only [refreshEdit, hdirection, hne, if_false, max_eq_left hlast, max_eq_left hnum,
          larger_shown hshownIn hin, larger_shown hshownOut hout, larger_of_not_moreBytes hin,
          larger_of_not_moreBytes hout, hstate, hname hprocess, hname huser, hstored]
  · rw [if_neg hid, if_neg (by simpa using hid)]

/-- Rows that are merged stay as they are, whatever connections are merged again. -/
theorem foldl_mergeConnection_rows {rows : List FlowRow}
    (hmerged : ∀ q ∈ rows, mergeRow (groupRows FlowRow.connKey rows q.connKey) q = q) (keys : List String)
    (t : FlowTable) (ht : t.rows = rows) : (keys.foldl mergeConnection t).rows = rows := by
  induction keys generalizing t with
  | nil => exact ht
  | cons key keys ih =>
      refine ih (mergeConnection t key) ?_
      rw [mergeConnection_rows, ht, groupUpdate]
      conv_rhs => rw [← List.map_id rows]
      refine List.map_congr_left fun q hq => ?_
      by_cases hkey : q.connKey = key
      · rw [if_pos hkey, ← hkey, hmerged q hq, id]
      · rw [if_neg hkey, id]

/-- Written all the same, the record changes no column but `ingested_at`. -/
theorem unstamped_rewriteRecord (h : PlacedStore p t) (hold : t.byKey (recordKey p.digest r) = some old)
    (hadds : addsNothing old r origin = true) (stamp : Int) :
    (rewriteRecord p origin stamp t r old).rows.map FlowRow.unstamped = t.rows.map FlowRow.unstamped := by
  obtain ⟨hmem, -⟩ := FlowTable.byKey_eq_some.1 hold
  have hconn : SoundConnection (t.connRows old.connKey) :=
    soundConnection_of_merged h.sound.connected h.sound.merged
      (List.ne_nil_of_mem (FlowTable.mem_connRows.2 ⟨hmem, rfl⟩))
  obtain ⟨at_, hat⟩ : ∃ at_, at_ = if origin = .ingest then stamp else old.ingestedAt := ⟨_, rfl⟩
  obtain ⟨refreshed, hrefreshed⟩ : ∃ refreshed, refreshed =
      t.update ((refreshEdit r origin stamp).on fun row => row.id = old.id) := ⟨_, rfl⟩
  have hrows : refreshed.rows = t.rows.map (FlowRow.stamped old.id at_) := by
    rw [hrefreshed, hat]
    exact refresh_eq_stamped hconn hmem hadds stamp
  -- pairing sees the same sightings, and leaves every row where it is
  have hsightings : refreshed.sightings = t.sightings := by
    rw [FlowTable.sightings, hrows, List.map_map]
    exact List.map_congr_left fun q _ => sighting_stamped old.id at_ q
  have hstays : ∀ q ∈ refreshed.rows, repaired refreshed [r.tuple] q = q := by
    intro q hq
    unfold repaired
    split
    · have hwanted : refreshed.wanted q = q.connKey := by
        rw [wanted_eq_wantedIn hq, hsightings]
        rw [hrows] at hq
        obtain ⟨x, hx, rfl⟩ := List.mem_map.1 hq
        rw [sighting_stamped, connKey_stamped]
        exact (h.paired x hx).symm
      rw [hwanted]
      rfl
    · rfl
  have hrepaired : (repairTuples [recordKey p.digest r] refreshed [r.tuple]).flows.rows =
      refreshed.rows := by
    rw [repairTuples_rows]
    conv_rhs => rw [← List.map_id refreshed.rows]
    exact List.map_congr_left fun q hq => hstays q hq
  -- and every row is as merging leaves it
  have hmerged : ∀ q ∈ refreshed.rows,
      mergeRow (groupRows FlowRow.connKey refreshed.rows q.connKey) q = q := by
    intro q hq
    have hgroup : groupRows FlowRow.connKey refreshed.rows q.connKey =
        (t.connRows q.connKey).map (FlowRow.stamped old.id at_) := by
      rw [hrows, groupRows, List.filter_map]
      congr 1
      refine List.filter_congr fun x _ => ?_
      simp only [Function.comp, connKey_stamped]
    rw [hgroup, mergeRow_map (givesSame_stamped old.id at_)]
    rw [hrows] at hq
    obtain ⟨x, hx, rfl⟩ := List.mem_map.1 hq
    rw [connKey_stamped, mergeRow_stamped, mergeRow_eq_self (h.sound.merged x hx)]
  have hrewritten : (rewriteRecord p origin stamp t r old).rows = refreshed.rows := by
    unfold rewriteRecord
    rw [← hrefreshed]
    exact foldl_mergeConnection_rows hmerged _ _ hrepaired
  rw [hrewritten, hrows, List.map_map]
  exact List.map_congr_left fun q _ => unstamped_stamped old.id at_ q

end Frame

/-- **Leaving out a record that adds nothing cannot be observed**: in every store that batches and expiries
leave every row is merged and where pairing wants it, and in every such store writing the record would
change no column of any row but `ingested_at`. -/
theorem skip_unobservable (p : Primitives) :
    (∀ ops : List ConnectionOp, PlacedStore p (storeAfter p ops).flows) ∧
      ∀ t : FlowTable, PlacedStore p t → ∀ (r : FlowRecord) (old : FlowRow) (origin : DataOrigin) (stamp : Int),
        t.byKey (recordKey p.digest r) = some old → addsNothing old r origin = true →
        (rewriteRecord p origin stamp t r old).rows.map FlowRow.unstamped = t.rows.map FlowRow.unstamped :=
  ⟨placedStore_storeAfter p, fun _ h _ _ _ stamp hold hadds => unstamped_rewriteRecord h hold hadds stamp⟩

/-- The row of the client's report. -/
def webRow : FlowRow :=
  { newRow webOut (recordKey Primitives.plain.digest webOut) none none .ingest (seconds 30) with id := 1 }

/-- The row of the server's report, in a connection of its own. -/
def loneRow : FlowRow :=
  { newRow webIn (recordKey Primitives.plain.digest webIn) none none .ingest (seconds 30) with id := 2 }

/-- The client's report, pulled again after the cycle that stored it. -/
theorem skip_unobservable_web :
    (rewriteRecord .plain .ingest (seconds 60) (storeAfter .plain [.upsert liveUpsert [webOut]]).flows webOut
        { webRow with countedConnections := some 1, countedBytes := some 100 }).rows.map FlowRow.unstamped =
      (storeAfter .plain [.upsert liveUpsert [webOut]]).flows.rows.map FlowRow.unstamped := by
  obtain ⟨hplaced, hskip⟩ := skip_unobservable .plain
  exact hskip _ (hplaced _) webOut _ .ingest (seconds 60) (by decide) (by decide)

/-- The two reports, each alone. -/
def unpairedTable : FlowTable where
  rows := [webRow, loneRow]
  ids_increase := by decide
  keys_unique := by decide

/-- A row alone that shows its own counts is a sound connection. -/
theorem soundConnection_lone {r : FlowRow} (hprimary : r.isPrimary = true)
    (hin : r.bytesIn = r.ownBytesIn) (hout : r.bytesOut = r.ownBytesOut)
    (hprocess : r.otherProcess = none) (huser : r.otherUser = none) : SoundConnection [r] := by
  have hone : ∀ {q}, q ∈ [r] → q = r := fun h => List.mem_singleton.1 h
  have hlargest : ∀ c : Option Int, IsLargest [c] c := by
    intro c
    cases c with
    | none => exact fun d hd => List.mem_singleton.1 hd
    | some n =>
        exact ⟨List.mem_singleton.2 rfl, fun m hm => le_of_eq (Option.some.inj (List.mem_singleton.1 hm))⟩
  refine ⟨fun q hq s hs _ => (hone hq).trans (hone hs).symm, ⟨r, List.mem_singleton.2 rfl, fun q hq => ?_, ?_⟩,
    fun q hq _ => ?_, fun q hq hnot => ?_, fun q hq s hs hne => ?_, fun q hq _ => ?_⟩
  · rw [hone hq]
    exact iff_of_true hprimary rfl
  · rintro ⟨q, hq, hdirection⟩
    rwa [hone hq] at hdirection
  · rw [hone hq, hin, hout]
    exact ⟨hlargest _, hlargest _⟩
  · rw [hone hq, hprimary] at hnot
    cases hnot
  · exact absurd (congrArg FlowRow.direction ((hone hs).trans (hone hq).symm)) hne
  · rw [hone hq]
    exact ⟨hprocess, huser⟩

/-- The two reports are one connection for pairing: a record that changes nothing itself moves the other
one's row. -/
theorem skip_moves_unpaired :
    ¬ ∀ t : FlowTable, t.Stored .plain →
      (∀ k, t.connRows k = [] ∨ SoundConnection (t.connRows k)) →
      ∀ (r : FlowRecord) (old : FlowRow) (origin : DataOrigin) (stamp : Int),
        t.byKey (recordKey Primitives.plain.digest r) = some old → addsNothing old r origin = true →
        (rewriteRecord .plain origin stamp t r old).rows.map FlowRow.unstamped =
          t.rows.map FlowRow.unstamped := by
  intro h
  have hstored : unpairedTable.Stored .plain := by
    intro r hr
    rcases List.mem_cons.1 hr with rfl | hr
    · exact ⟨webOut.recordId, rfl, rfl, rfl, rfl⟩
    · rw [List.mem_singleton.1 hr]
      exact ⟨webIn.recordId, rfl, rfl, rfl, rfl⟩
  have hsound : ∀ k, unpairedTable.connRows k = [] ∨ SoundConnection (unpairedTable.connRows k) := by
    intro k
    have hne : loneRow.connKey ≠ webRow.connKey := by decide
    have hrows : unpairedTable.connRows k = [webRow, loneRow].filter fun r => decide (r.connKey = k) := rfl
    rw [hrows]
    by_cases hweb : webRow.connKey = k
    · have hlone : loneRow.connKey ≠ k := hweb ▸ hne
      rw [List.filter_cons_of_pos (by simpa using hweb),
        List.filter_cons_of_neg (by simpa using hlone), List.filter_nil]
      exact Or.inr (soundConnection_lone rfl rfl rfl rfl rfl)
    · rw [List.filter_cons_of_neg (by simpa using hweb)]
      by_cases hlone : loneRow.connKey = k
      · rw [List.filter_cons_of_pos (by simpa using hlone), List.filter_nil]
        exact Or.inr (soundConnection_lone rfl rfl rfl rfl rfl)
      · rw [List.filter_cons_of_neg (by simpa using hlone), List.filter_nil]
        exact Or.inl rfl
  have hsame := congrArg (List.map FlowRow.connKey)
    (h unpairedTable hstored hsound webOut webRow .ingest (seconds 60) (by decide) (by decide))
  rw [List.map_map, List.map_map] at hsame
  exact absurd hsame (by decide)

end IllumioOps
