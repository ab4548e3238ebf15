import IllumioOps.Collect.Cycles

/-!
# What the coverage and the watermark say

In any run of traffic cycles and backfills, whatever becomes of their pieces: what is covered was fetched and
stored, with the windows that were truncated; the watermark moves with the records of a piece that ends at it,
and from the first cold start to it one range is covered; a failed window is resolved when one range covers it
(`cycles_sound`).
-/

set_option autoImplicit false

namespace IllumioOps.Cycles

open Collect (IngestSource GapKind CoverageTable ReadRange HoldsReads)
open CollectWindows (Fetch WindowHarvest harvest slices slice)
open Ranges (Inside Tiles Within joinRange within_joinRange within_joinRange_self within_joinRange_of_touch)

variable {R ε : Type}

/-! ## Whole seconds -/

/-- A time the store keeps as it is. -/
def Whole (t : Int) : Prop := t % milliseconds 1 = 0

theorem Whole.dbTime_eq {t : Int} (h : Whole t) : dbTime t = t := dbTime_of_dvd h

theorem whole_wholeSecond (t : Int) : Whole (wholeSecond t) := by
  simp only [Whole, wholeSecond, seconds, milliseconds]
  omega

theorem wholeSecond_mono {s t : Int} (h : s ≤ t) : wholeSecond s ≤ wholeSecond t := by
  simp only [wholeSecond, seconds, milliseconds]
  omega

theorem whole_dayStart (d : Int) : Whole (dayStart d) := by
  simp only [Whole, dayStart, days, hours, minutes, seconds, milliseconds]
  omega

theorem Whole.min {s t : Int} (hs : Whole s) (ht : Whole t) : Whole (min s t) := by
  rcases min_choice s t with h | h
  · rw [h]
    exact hs
  · rw [h]
    exact ht

theorem Whole.add_slice {t : Int} (h : Whole t) : Whole (t + slice) := by
  simp only [Whole, slice, hours, minutes, seconds, milliseconds] at h ⊢
  omega

/-- A window that is not empty, between whole times. -/
structure Piece (w : Int × Int) : Prop where
  proper : w.1 < w.2
  start : Whole w.1
  stop : Whole w.2

theorem piece_slices {cur stop : Int} (hcur : Whole cur) (hstop : Whole stop) :
    ∀ w ∈ slices cur stop, Piece w := by
  fun_induction slices cur stop with
  | case1 cur hlt ih =>
    intro w hw
    rcases List.mem_cons.1 hw with rfl | hw
    · refine ⟨lt_min ?_ hlt, hcur, hcur.add_slice.min hstop⟩
      simp only [slice, hours, minutes, seconds, milliseconds]
      omega
    · exact ih hcur.add_slice w hw
  | case2 cur hnot => exact fun w hw => absurd hw List.not_mem_nil

theorem lt_midnight (t : Int) : t < dayStart (dbDay t + 1) := by
  simp only [dayStart, dbDay, days, hours, minutes, seconds, milliseconds]
  omega

theorem piece_daysOf {cur stop : Int} (hcur : Whole cur) (hstop : Whole stop) :
    ∀ w ∈ daysOf cur stop, Piece w := by
  fun_induction daysOf cur stop with
  | case1 cur hlt ih =>
    intro w hw
    rcases List.mem_cons.1 hw with rfl | hw
    · exact ⟨lt_min (lt_midnight cur) hlt, hcur, (whole_dayStart _).min hstop⟩
    · exact ih (whole_dayStart _) w hw
  | case2 cur hnot => exact fun w hw => absurd hw List.not_mem_nil

/-! ## What is covered -/

/-- The instant is in a piece that was fetched and stored. -/
def Fetched (log : List (Landed R ε)) (source : IngestSource) (x : Int) : Prop :=
  ∃ c ∈ log, c.source = source ∧ Inside (c.start, c.stop) x

/-- The piece is what its query answered; its records are stored, and its truncated windows are gaps. -/
structure Landed.Holds (c : Landed R ε) (s : Store R) : Prop where
  harvested : ∃ windows, harvest c.query c.start c.stop = .ok ⟨c.rows, windows, c.truncated⟩
  rows : ∀ r ∈ c.rows, r ∈ s.records
  truncated : ∀ t ∈ c.truncated,
    (⟨c.source, dbTime t.1, dbTime t.2.1, .truncated, none⟩ : Gap) ∈ s.gaps

/-- A failed window that is resolved is in one covered range. -/
def Gap.Settled (coverage : CoverageTable) (g : Gap) : Prop :=
  g.kind = .failed → g.resolvedAt ≠ none → Within (coverage.ranges g.source) g.windowStart g.windowEnd

structure Covered (log : List (Landed R ε)) (s : Store R) : Prop where
  reads : ∃ reads : List ReadRange, (∀ source, HoldsReads reads s.coverage source) ∧
    ∀ r ∈ reads, ∀ x, Inside (dbTime r.start, dbTime r.stop) x → Fetched log r.source x
  settled : ∀ g ∈ s.gaps, g.Settled s.coverage
  landed : ∀ c ∈ log, c.Holds s

section Covered

variable {log : List (Landed R ε)} {s s' : Store R} {source : IngestSource} {start stop time : Int}

theorem Covered.fetched (h : Covered log s) {x : Int}
    (hx : ∃ r ∈ s.coverage.ranges source, Inside r x) : Fetched log source x := by
  obtain ⟨reads, hholds, hfetched⟩ := h.reads
  obtain ⟨r, hr, hsource, hin⟩ := ((hholds source).2 x).1 hx
  exact hsource ▸ hfetched r hr x hin

theorem Covered.addGaps (h : Covered log s) {gaps : List Gap} (hopen : ∀ g ∈ gaps, g.resolvedAt = none) :
    Covered log { s with gaps := s.gaps ++ gaps } where
  reads := h.reads
  settled g hg := by
    rcases List.mem_append.1 hg with hg | hg
    · exact h.settled g hg
    · exact fun _ hresolved => absurd (hopen g hg) hresolved
  landed c hc := ⟨(h.landed c hc).harvested, (h.landed c hc).rows,
    fun t ht => List.mem_append_left _ ((h.landed c hc).truncated t ht)⟩

theorem Covered.addRecords (h : Covered log s) (rows : List R) :
    Covered log { s with records := s.records ++ rows } where
  reads := h.reads
  settled := h.settled
  landed c hc := ⟨(h.landed c hc).harvested, fun r hr => List.mem_append_left _ ((h.landed c hc).rows r hr),
    (h.landed c hc).truncated⟩

/-- More pieces, which are stored. -/
theorem Covered.addLog (h : Covered log s) (more : List (Landed R ε)) (hmore : ∀ c ∈ more, c.Holds s) :
    Covered (more ++ log) s where
  reads := by
    obtain ⟨reads, hholds, hfetched⟩ := h.reads
    refine ⟨reads, hholds, fun r hr x hx => ?_⟩
    obtain ⟨c, hc, hin⟩ := hfetched r hr x hx
    exact ⟨c, List.mem_append_right _ hc, hin⟩
  settled := h.settled
  landed c hc := (List.mem_append.1 hc).elim (hmore c) (h.landed c)

theorem cover_eq_some (h : cover s source start stop time = some s') :
    ∃ coverage, s.coverage.addCoverage source start stop = some coverage ∧
      s' = { s with
        coverage := coverage
        gaps := s.gaps.map (resolveGap (coverage.ranges source) source time) } := by
  obtain ⟨coverage, hadd, rfl⟩ := Option.map_eq_some_iff.1 h
  exact ⟨coverage, hadd, rfl⟩

/-- What was in one range stays in one. -/
theorem within_addCoverage {t t' : CoverageTable} (h : t.addCoverage source start stop = some t')
    {other : IngestSource} {x y : Int} (hxy : Within (t.ranges other) x y) : Within (t'.ranges other) x y := by
  by_cases hother : other = source
  · subst hother
    rw [CoverageTable.ranges_addCoverage h]
    exact within_joinRange hxy _ _
  · rw [CoverageTable.ranges_addCoverage_of_ne h hother]
    exact hxy

theorem resolveGap_settled {t t' : CoverageTable} (h : t.addCoverage source start stop = some t') {g : Gap}
    (hg : g.Settled t) : (resolveGap (t'.ranges source) source time g).Settled t' := by
  unfold resolveGap
  split
  · rename_i hresolve
    obtain ⟨rfl, -, -, hwithin⟩ := hresolve
    exact fun _ _ => hwithin
  · exact fun hkind hresolved => within_addCoverage h (hg hkind hresolved)

/-- Covering a range that was fetched never fails, and covers nothing else. -/
theorem Covered.cover (h : Covered log s) (source : IngestSource) (time : Int) (hordered : start ≤ stop)
    (hfetched : ∀ x, Inside (dbTime start, dbTime stop) x → Fetched log source x) :
    ∃ s', cover s source start stop time = some s' ∧ Covered log s' := by
  obtain ⟨reads, hholds, hreads⟩ := h.reads
  obtain ⟨coverage, hadd, hholds'⟩ := HoldsReads.add hholds ⟨source, start, stop, hordered⟩
  refine ⟨_, by rw [Cycles.cover, hadd]; rfl, ?_⟩
  constructor
  · refine ⟨_, hholds', fun r hr => ?_⟩
    rcases List.mem_append.1 hr with hr | hr
    · exact hreads r hr
    · obtain rfl := List.mem_singleton.1 hr
      exact hfetched
  · intro g' hg'
    obtain ⟨g, hg, rfl⟩ := List.mem_map.1 hg'
    exact resolveGap_settled hadd (h.settled g hg)
  · intro c hc
    refine ⟨(h.landed c hc).harvested, (h.landed c hc).rows, fun t ht => ?_⟩
    -- only failed windows are resolved
    exact List.mem_map.2 ⟨_, (h.landed c hc).truncated t ht, if_neg fun hresolve => nomatch hresolve.2.1⟩

end Covered

/-! ## A piece of a cycle -/

section Traffic

variable {log : List (Landed R ε)} {s : Store R}

theorem Covered.recordTruncated (h : Covered log s) (source : IngestSource)
    (truncated : List (Int × Int × Nat)) : Covered log (recordTruncated s source truncated) := by
  refine h.addGaps fun g hg => ?_
  obtain ⟨t, -, rfl⟩ := List.mem_map.1 hg
  rfl

theorem mem_recordTruncated {source : IngestSource} {truncated : List (Int × Int × Nat)}
    {t : Int × Int × Nat} (ht : t ∈ truncated) :
    (⟨source, dbTime t.1, dbTime t.2.1, .truncated, none⟩ : Gap) ∈ (recordTruncated s source truncated).gaps :=
  List.mem_append_right _ (List.mem_map_of_mem ht)

/-- What a piece of a cycle does, once it lands. -/
structure LandsTraffic (log : List (Landed R ε)) (s s' : Store R) (c : Landed R ε) : Prop where
  covered : Covered (c :: log) s'
  watermark : s'.watermark = some c.stop
  coldStartFrom : s'.coldStartFrom = none
  records : s'.records = s.records ++ c.rows
  plans : s'.plans = s.plans
  ranges : s'.coverage.ranges .traffic = joinRange (s.coverage.ranges .traffic) c.start c.stop

theorem landTraffic_lands (h : Covered log s) (time : Int) {piece : Int × Int} (hpiece : Piece piece)
    {query : Fetch R ε} {got : WindowHarvest R} (hgot : harvest query piece.1 piece.2 = .ok got) :
    ∃ s', landTraffic s time piece got = some s' ∧
      LandsTraffic log s s' ⟨.traffic, piece.1, piece.2, query, got.rows, got.truncated⟩ := by
  set c : Landed R ε := ⟨.traffic, piece.1, piece.2, query, got.rows, got.truncated⟩
  have hnoted : Covered log
      (recordTruncated { s with records := s.records ++ got.rows } .traffic got.truncated) :=
    (h.addRecords got.rows).recordTruncated .traffic got.truncated
  have hc : c.Holds (recordTruncated { s with records := s.records ++ got.rows } .traffic got.truncated) :=
    ⟨⟨got.windows, hgot⟩, fun r hr => List.mem_append_right _ hr, fun t ht => mem_recordTruncated ht⟩
  have hlogged := hnoted.addLog [c] fun c' hc' => by
    obtain rfl := List.mem_singleton.1 hc'
    exact hc
  obtain ⟨s', hcover, hcovered⟩ := hlogged.cover .traffic time hpiece.proper.le
    fun x hx => ⟨c, List.mem_cons_self, rfl, by rwa [hpiece.start.dbTime_eq, hpiece.stop.dbTime_eq] at hx⟩
  obtain ⟨coverage, hadd, rfl⟩ := cover_eq_some hcover
  refine ⟨_, by rw [landTraffic, hcover]; rfl, ?_⟩
  constructor
  · exact ⟨hcovered.reads, hcovered.settled, fun c' hc' =>
      ⟨(hcovered.landed c' hc').harvested, (hcovered.landed c' hc').rows, (hcovered.landed c' hc').truncated⟩⟩
  · exact congrArg some hpiece.stop.dbTime_eq
  · rfl
  · rfl
  · rfl
  · have hranges := CoverageTable.ranges_addCoverage hadd
    rwa [hpiece.start.dbTime_eq, hpiece.stop.dbTime_eq] at hranges

end Traffic

/-! ## The progress of the cycles -/

/-- Without a watermark the first cold start is remembered; with one, one range is covered from it to the
watermark. -/
structure Progress (w : World R ε) : Prop where
  remembered : w.store.watermark = none → w.remembered = w.store.coldStartFrom
  whole : ∀ start, w.store.coldStartFrom = some start → Whole start
  reached : ∀ watermark, w.store.watermark = some watermark → Whole watermark ∧
    watermark ≤ wholeSecond w.now ∧ w.store.coldStartFrom = none ∧
      ∃ start, w.remembered = some start ∧ start ≤ watermark ∧
        Within (w.store.coverage.ranges .traffic) start watermark

/-- The pieces to come begin at the remembered cold start, or not after the watermark; and the first of them
ends not before it. -/
structure TrafficRun.Follows (w : World R ε) (run : TrafficRun) : Prop where
  time : run.time ≤ wholeSecond w.now
  whole : Whole run.time
  pieces : ∃ cur, Whole cur ∧ run.pieces = slices cur run.time ∧
    (w.store.watermark = none → w.remembered = some cur) ∧
    ∀ watermark, w.store.watermark = some watermark →
      watermark ≤ run.time ∧ cur ≤ watermark ∧ watermark ≤ cur + slice

theorem slices_cons {cur stop : Int} {piece : Int × Int} {rest : List (Int × Int)}
    (h : slices cur stop = piece :: rest) :
    cur < stop ∧ piece = (cur, min (cur + slice) stop) ∧ rest = slices (cur + slice) stop := by
  rw [slices] at h
  split at h
  · rename_i hlt
    obtain ⟨rfl, rfl⟩ := List.cons.inj h
    exact ⟨hlt, rfl, rfl⟩
  · cases h

/-- After the piece that ends where the next one begins, or at the end. -/
theorem slices_rest (cur stop : Int) :
    slices (cur + slice) stop = slices (min (cur + slice) stop) stop := by
  rcases le_total (cur + slice) stop with h | h
  · rw [min_eq_left h]
  · rw [min_eq_right h, slices, if_neg (not_lt.2 h), slices, if_neg (lt_irrefl _)]

section Progress

variable {w : World R ε}

theorem whole_sub_overlap {t : Int} (h : Whole t) : Whole (t - overlap) := by
  simp only [Whole, overlap, minutes, seconds, milliseconds] at h ⊢
  omega

theorem whole_sub_coldStart {t : Int} (h : Whole t) : Whole (t - coldStart) := by
  simp only [Whole, coldStart, hours, minutes, seconds, milliseconds] at h ⊢
  omega

/-- A cycle begins where it may, and the first cold start is remembered. -/
theorem beginTraffic_progress (h : Progress w) :
    Progress (beginTraffic w) ∧ ∀ run, (beginTraffic w).traffic = some run → run.Follows (beginTraffic w) := by
  cases hmark : w.store.watermark with
  | some watermark =>
    obtain ⟨hwhole, hle, hcold, start, hstart, hreached⟩ := h.reached watermark hmark
    have hbegin : beginTraffic w =
        { w with traffic := some ⟨wholeSecond w.now, slices (watermark - overlap) (wholeSecond w.now)⟩ } := by
      simp [beginTraffic, beginCycle, hmark, hcold]
    rw [hbegin]
    refine ⟨⟨h.remembered, h.whole, h.reached⟩, fun run hrun => ?_⟩
    obtain rfl := Option.some.inj hrun
    refine ⟨le_rfl, whole_wholeSecond _, watermark - overlap, whole_sub_overlap hwhole, rfl, ?_, ?_⟩
    · intro hnone
      rw [hmark] at hnone
      cases hnone
    · intro watermark' hmark'
      obtain rfl := Option.some.inj (hmark.symm.trans hmark')
      refine ⟨hle, ?_, ?_⟩ <;>
        simp only [overlap, slice, hours, minutes, seconds, milliseconds] <;> omega
  | none =>
    have hremembered := h.remembered hmark
    -- the remembered cold start, or one from now on
    obtain ⟨start, hwhole, hbegin⟩ : ∃ start, Whole start ∧ beginTraffic w =
        { w with
          store := { w.store with coldStartFrom := some start }
          remembered := some start
          traffic := some ⟨wholeSecond w.now, slices start (wholeSecond w.now)⟩ } := by
      cases hcold : w.store.coldStartFrom with
      | some start =>
        have hstore : w.store = { w.store with coldStartFrom := some start } := by rw [← hcold]
        refine ⟨start, h.whole start hcold, ?_⟩
        rw [← hstore]
        simp [beginTraffic, beginCycle, hmark, hcold, hremembered]
      | none =>
        refine ⟨wholeSecond w.now - coldStart, whole_sub_coldStart (whole_wholeSecond _), ?_⟩
        simp [beginTraffic, beginCycle, hmark, hcold, hremembered]
    rw [hbegin]
    have hnone : ∀ {watermark}, w.store.watermark ≠ some watermark := fun hsome => by
      rw [hmark] at hsome
      cases hsome
    refine ⟨⟨fun _ => rfl, fun start' hstart' => Option.some.inj hstart' ▸ hwhole,
      fun watermark hsome => absurd hsome hnone⟩, fun run hrun => ?_⟩
    obtain rfl := Option.some.inj hrun
    exact ⟨le_rfl, whole_wholeSecond _, start, hwhole, rfl, fun _ => rfl,
      fun watermark hsome => absurd hsome hnone⟩

end Progress

/-! ## The pieces of a backfill -/

/-- The traffic of the day is fetched up to the pieces to come, and these tile the rest of it. -/
structure BackfillRun.Follows (log : List (Landed R ε)) (run : BackfillRun) : Prop where
  stop : Whole run.stop
  days : ∀ day ∈ run.days, Piece day
  pieces : ∀ piece ∈ run.pieces, Piece piece
  whole : run.pieces ≠ [] → Piece run.day
  single : run.reads.traffic = false → run.pieces.length ≤ 1
  tiles : run.pieces = [] ∨ ∃ begun, Tiles begun run.day.2 run.pieces ∧
    (begun = run.day.1 ∨ run.day.1 ≤ begun ∧ ∀ x, Inside (run.day.1, begun) x → Fetched log .traffic x)

/-- A plan is left between whole times. -/
def PlansWhole (s : Store R) : Prop := ∀ plan row, s.plans plan = some row → Whole row.doneThrough

/-- What every step keeps. -/
structure Sound (w : World R ε) : Prop where
  covered : Covered w.log w.store
  plans : PlansWhole w.store
  progress : Progress w
  traffic : ∀ run, w.traffic = some run → run.Follows w
  backfill : ∀ run, w.backfill = some run → run.Follows w.log

theorem Fetched.mono {log : List (Landed R ε)} {source : IngestSource} {x : Int} (h : Fetched log source x)
    (more : List (Landed R ε)) : Fetched (more ++ log) source x := by
  obtain ⟨c, hc, hx⟩ := h
  exact ⟨c, List.mem_append_right _ hc, hx⟩

theorem BackfillRun.Follows.mono {log : List (Landed R ε)} {run : BackfillRun} (h : run.Follows log)
    (more : List (Landed R ε)) : run.Follows (more ++ log) where
  stop := h.stop
  days := h.days
  pieces := h.pieces
  whole := h.whole
  single := h.single
  tiles := h.tiles.imp_right fun ⟨begun, htiles, hbegun⟩ =>
    ⟨begun, htiles, hbegun.imp_right fun ⟨hle, hfetched⟩ => ⟨hle, fun x hx => (hfetched x hx).mono more⟩⟩

/-! ## Every step -/

/-- The watermark stays, or moves on with the records of a piece that ends at it. -/
def WatermarkMoves (w w' : World R ε) : Prop :=
  w'.store.watermark = w.store.watermark ∨
    ∃ c, w'.log = c :: w.log ∧ c.source = .traffic ∧ w'.store.watermark = some c.stop ∧
      w'.store.records = w.store.records ++ c.rows ∧
        ∀ watermark, w.store.watermark = some watermark → watermark ≤ c.stop

section Steps

variable {w : World R ε}

/-- A cycle that ends, with gaps that are not resolved. -/
theorem Sound.endTraffic (h : Sound w) {gaps : List Gap} (hopen : ∀ g ∈ gaps, g.resolvedAt = none) :
    Sound { w with store := { w.store with gaps := w.store.gaps ++ gaps }, traffic := none } where
  covered := h.covered.addGaps hopen
  plans := h.plans
  progress := ⟨h.progress.remembered, h.progress.whole, h.progress.reached⟩
  traffic _ hrun := nomatch hrun
  backfill := h.backfill

theorem Sound.failTraffic (h : Sound w) (run : TrafficRun) (piece : Int × Int) : Sound (failTraffic w run piece) :=
  h.endTraffic fun g hg => by
    obtain rfl := List.mem_singleton.1 hg
    rfl

theorem Sound.dropTraffic (h : Sound w) : Sound { w with traffic := none } where
  covered := h.covered
  plans := h.plans
  progress := ⟨h.progress.remembered, h.progress.whole, h.progress.reached⟩
  traffic _ hrun := nomatch hrun
  backfill := h.backfill

/-- A piece of a cycle that lands. -/
theorem Sound.landTraffic (h : Sound w) {run : TrafficRun} (hrun : w.traffic = some run) {piece : Int × Int}
    {rest : List (Int × Int)} (hpieces : run.pieces = piece :: rest) {c : Landed R ε} {store : Store R}
    (hc : c.start = piece.1 ∧ c.stop = piece.2 ∧ c.source = .traffic)
    (hlands : LandsTraffic w.log w.store store c) :
    Sound { w with store := store, traffic := some { run with pieces := rest }, log := c :: w.log } ∧
      ∀ watermark, w.store.watermark = some watermark → watermark ≤ c.stop := by
  obtain ⟨htime, hwhole, cur, hcur, hslices, hfirst, hlater⟩ := h.traffic run hrun
  obtain ⟨hlt, rfl, rfl⟩ := slices_cons (hslices ▸ hpieces)
  obtain ⟨hstart, hstop, hsource⟩ := hc
  simp only at hstart hstop
  have hslice : cur < cur + slice := by
    simp only [slice, hours, minutes, seconds, milliseconds]
    omega
  have hend : cur < c.stop := by
    rw [hstop]
    exact lt_min hslice hlt
  have hmoves : ∀ watermark, w.store.watermark = some watermark → watermark ≤ c.stop := fun watermark hmark => by
    rw [hstop]
    exact le_min (hlater watermark hmark).2.2 (hlater watermark hmark).1
  have hstopWhole : Whole c.stop := by
    rw [hstop]
    exact hcur.add_slice.min hwhole
  -- one range from the first cold start to the end of the piece
  have hreached : ∃ start, w.remembered = some start ∧ start ≤ c.stop ∧
      Within (store.coverage.ranges .traffic) start c.stop := by
    rw [hlands.ranges, hstart]
    cases hmark : w.store.watermark with
    | none => exact ⟨cur, hfirst hmark, hend.le, within_joinRange_self _ _ _⟩
    | some watermark =>
      obtain ⟨-, -, -, start, hremembered, hle, hwithin⟩ := h.progress.reached watermark hmark
      have hlow : start ≤ c.stop := hle.trans (hmoves watermark hmark)
      refine ⟨start, hremembered, hlow, ?_⟩
      exact (within_joinRange_of_touch hwithin hlow (hlater watermark hmark).2.1).mono (min_le_left _ _)
        (le_max_right _ _)
  have hplans : PlansWhole store := fun plan row hrow => h.plans plan row (hlands.plans ▸ hrow)
  refine ⟨⟨hlands.covered, hplans, ⟨fun hnone => ?_, fun start hsome => ?_, fun watermark hmark => ?_⟩, fun run' hrun' => ?_,
    fun run' hrun' => (h.backfill run' hrun').mono [c]⟩, hmoves⟩
  · rw [hlands.watermark] at hnone
    cases hnone
  · rw [hlands.coldStartFrom] at hsome
    cases hsome
  · obtain rfl := Option.some.inj (hlands.watermark.symm.trans hmark)
    have hbound : c.stop ≤ run.time := by
      rw [hstop]
      exact min_le_right _ _
    exact ⟨hstopWhole, hbound.trans htime, hlands.coldStartFrom, hreached⟩
  · obtain rfl := Option.some.inj hrun'
    refine ⟨htime, hwhole, c.stop, hstopWhole, ?_, fun hnone => ?_, fun watermark hmark => ?_⟩
    · rw [hstop]
      exact slices_rest cur run.time
    · rw [hlands.watermark] at hnone
      cases hnone
    · obtain rfl := Option.some.inj (hlands.watermark.symm.trans hmark)
      refine ⟨?_, le_rfl, ?_⟩
      · rw [hstop]
        exact min_le_right _ _
      · simp only [slice, hours, minutes, seconds, milliseconds]
        omega

/-- The next piece of a cycle. -/
theorem Sound.trafficStep (h : Sound w) {run : TrafficRun} (hrun : w.traffic = some run) (query : Fetch R ε)
    (fate : Fate) : Sound (trafficStep w run query fate) ∧ WatermarkMoves w (trafficStep w run query fate) := by
  unfold Cycles.trafficStep
  split
  · exact ⟨h.dropTraffic, Or.inl rfl⟩
  rename_i piece rest hpieces
  split
  · exact ⟨h.dropTraffic, Or.inl rfl⟩
  · exact ⟨h.failTraffic run piece, Or.inl rfl⟩
  · exact ⟨h.dropTraffic, Or.inl rfl⟩
  · exact ⟨h.failTraffic run piece, Or.inl rfl⟩
  · rename_i got hgot
    have hpiece : Piece piece := by
      obtain ⟨-, hwhole, cur, hcur, hslices, -⟩ := h.traffic run hrun
      exact piece_slices hcur hwhole piece (hslices ▸ hpieces ▸ List.mem_cons_self)
    obtain ⟨store, hstore, hlands⟩ := landTraffic_lands h.covered run.time hpiece hgot
    rw [hstore]
    obtain ⟨hsound, hmoves⟩ := h.landTraffic hrun hpieces ⟨rfl, rfl, rfl⟩ hlands
    exact ⟨hsound, Or.inr ⟨_, rfl, rfl, hlands.watermark, hlands.records, hmoves⟩⟩

/-! ## A piece of a backfill -/

theorem Sound.dropBackfill (h : Sound w) : Sound { w with backfill := none } where
  covered := h.covered
  plans := h.plans
  progress := ⟨h.progress.remembered, h.progress.whole, h.progress.reached⟩
  traffic run hrun := ⟨(h.traffic run hrun).time, (h.traffic run hrun).whole, (h.traffic run hrun).pieces⟩
  backfill _ hrun := nomatch hrun

theorem Sound.failBackfill (h : Sound w) (run : BackfillRun) (piece : Int × Int) :
    Sound (failBackfill w run piece) where
  covered := h.covered.addGaps fun g hg => by
    obtain ⟨source, -, rfl⟩ := List.mem_map.1 hg
    rfl
  plans := h.plans
  progress := ⟨h.progress.remembered, h.progress.whole, h.progress.reached⟩
  traffic run hrun := ⟨(h.traffic run hrun).time, (h.traffic run hrun).whole, (h.traffic run hrun).pieces⟩
  backfill _ hrun := nomatch hrun

/-- What covering leaves as it is. -/
structure Keeps (s s' : Store R) : Prop where
  watermark : s'.watermark = s.watermark
  coldStartFrom : s'.coldStartFrom = s.coldStartFrom
  plans : s'.plans = s.plans
  within : ∀ source x y, Within (s.coverage.ranges source) x y → Within (s'.coverage.ranges source) x y

theorem Keeps.trans {s s' s'' : Store R} (h : Keeps s s') (h' : Keeps s' s'') : Keeps s s'' where
  watermark := h'.watermark.trans h.watermark
  coldStartFrom := h'.coldStartFrom.trans h.coldStartFrom
  plans := h'.plans.trans h.plans
  within source x y hxy := h'.within source x y (h.within source x y hxy)

theorem keeps_cover {s s' : Store R} {source : IngestSource} {start stop time : Int}
    (h : cover s source start stop time = some s') : Keeps s s' := by
  obtain ⟨coverage, hadd, rfl⟩ := cover_eq_some h
  exact ⟨rfl, rfl, rfl, fun _ _ _ => within_addCoverage hadd⟩

/-- One source of a piece. -/
theorem Covered.coverRead {log : List (Landed R ε)} {s : Store R} (h : Covered log s) {run : BackfillRun}
    {piece : Int × Int} (source : IngestSource) (hday : Piece run.day) (hstop : Whole piece.2)
    (hle : run.day.1 ≤ piece.2)
    (htraffic : source = .traffic → ∀ x, Inside (run.day.1, piece.2) x → Fetched log .traffic x)
    (hevents : source ≠ .traffic → piece.1 = run.day.1 → ∀ x, Inside run.day x → Fetched log source x) :
    ∃ s', coverRead run piece s source = some s' ∧ Covered log s' ∧ Keeps s s' := by
  unfold Cycles.coverRead
  split
  · rename_i hsource
    obtain ⟨s', hcover, hcovered⟩ := h.cover source run.time hle fun x hx => by
      rw [hday.start.dbTime_eq, hstop.dbTime_eq] at hx
      exact hsource ▸ htraffic hsource x hx
    exact ⟨s', hcover, hcovered, keeps_cover hcover⟩
  · rename_i hsource
    split
    · rename_i hfirst
      obtain ⟨s', hcover, hcovered⟩ := h.cover source run.time hday.proper.le fun x hx => by
        rw [hday.start.dbTime_eq, hday.stop.dbTime_eq] at hx
        exact hevents hsource hfirst x hx
      exact ⟨s', hcover, hcovered, keeps_cover hcover⟩
    · exact ⟨s, rfl, h, rfl, rfl, rfl, fun _ _ _ hxy => hxy⟩

/-- All sources of a piece. -/
theorem Covered.coverReads {log : List (Landed R ε)} {run : BackfillRun} {piece : Int × Int}
    (sources : List IngestSource) (hday : Piece run.day) (hstop : Whole piece.2) (hle : run.day.1 ≤ piece.2)
    (htraffic : .traffic ∈ sources → ∀ x, Inside (run.day.1, piece.2) x → Fetched log .traffic x)
    (hevents : ∀ source ∈ sources, source ≠ .traffic → piece.1 = run.day.1 →
      ∀ x, Inside run.day x → Fetched log source x) {s : Store R} (h : Covered log s) :
    ∃ s', sources.foldlM (Cycles.coverRead run piece) s = some s' ∧ Covered log s' ∧ Keeps s s' := by
  induction sources generalizing s with
  | nil => exact ⟨s, rfl, h, rfl, rfl, rfl, fun _ _ _ hxy => hxy⟩
  | cons source sources ih =>
    obtain ⟨s₁, hread, hcovered, hkeeps⟩ := h.coverRead source hday hstop hle
      (fun hsource => htraffic (hsource ▸ List.mem_cons_self)) (hevents source List.mem_cons_self)
    obtain ⟨s', hrest, hcovered', hkeeps'⟩ := ih (fun hmem => htraffic (List.mem_cons_of_mem _ hmem))
      (fun source' hmem => hevents source' (List.mem_cons_of_mem _ hmem)) hcovered
    refine ⟨s', ?_, hcovered', hkeeps.trans hkeeps'⟩
    rw [List.foldlM_cons, hread]
    exact hrest

theorem fetchBackfill_ok {run : BackfillRun} {piece : Int × Int} {traffic events : Fetch R ε}
    {h h' : WindowHarvest R} (hok : fetchBackfill run piece traffic events = .ok (h, h')) :
    (run.reads.traffic = true → harvest traffic piece.1 piece.2 = .ok h) ∧
      (piece.1 = run.day.1 → harvest events run.day.1 run.day.2 = .ok h') := by
  unfold fetchBackfill at hok
  split at hok
  · cases hok
  rename_i got htraffic
  split at hok
  · cases hok
  rename_i got' hevents
  cases hok
  refine ⟨fun hreads => ?_, fun hfirst => ?_⟩
  · rwa [harvestIf, if_pos hreads] at htraffic
  · rwa [harvestIf, if_pos (by simpa using hfirst)] at hevents

theorem traffic_of_mem {reads : Reads} (h : .traffic ∈ reads.sources) : reads.traffic = true := by
  rcases List.mem_append.1 h with h | h
  · split at h
    · assumption
    · cases h
  · split at h
    · cases List.mem_singleton.1 h
    · cases h

theorem events_of_mem {reads : Reads} {source : IngestSource} (h : source ∈ reads.sources)
    (hsource : source ≠ .traffic) : source = .events := by
  rcases List.mem_append.1 h with h | h
  · split at h
    · exact absurd (List.mem_singleton.1 h) hsource
    · cases h
  · split at h
    · exact List.mem_singleton.1 h
    · cases h

/-- The first of the pieces to come begins where they do, and the others where it ends. -/
theorem tiles_cons {begun stop : Int} {piece : Int × Int} {rest : List (Int × Int)}
    (h : Tiles begun stop (piece :: rest)) :
    piece.1 = begun ∧ (rest = [] ∨ Tiles piece.2 stop rest) := by
  cases h with
  | last _ => exact ⟨rfl, Or.inl rfl⟩
  | cons _ hrest => exact ⟨rfl, Or.inr hrest⟩

section LandBackfill

variable {log : List (Landed R ε)} {run : BackfillRun} {piece : Int × Int} {rest : List (Int × Int)}
  {traffic events : Fetch R ε} {got got' : WindowHarvest R}

/-- With the piece, the traffic of the day is fetched up to its end. -/
theorem fetched_traffic (hrun : run.Follows log) (hpieces : run.pieces = piece :: rest)
    (hreads : run.reads.traffic = true) {x : Int} (hx : Inside (run.day.1, piece.2) x) :
    Fetched (landedBackfill run piece traffic events got got' ++ log) .traffic x := by
  have hlanded : Inside piece x → Fetched (landedBackfill run piece traffic events got got' ++ log) .traffic x :=
    fun hin => ⟨⟨.traffic, piece.1, piece.2, traffic, got.rows, got.truncated⟩,
      List.mem_append_left _ (List.mem_append_left _ (by simp [hreads])), rfl, hin⟩
  rcases hrun.tiles with hnil | ⟨begun, htiles, hbegun⟩
  · rw [hpieces] at hnil
    cases hnil
  · obtain ⟨rfl, -⟩ := tiles_cons (hpieces ▸ htiles)
    rcases hbegun with hfirst | ⟨-, hfetched⟩
    · exact hlanded ⟨hfirst ▸ hx.1, hx.2⟩
    · -- the part before the piece was fetched with the pieces before it
      rcases lt_or_ge x piece.1 with hlt | hge
      · exact (hfetched x ⟨hx.1, hlt⟩).mono _
      · exact hlanded ⟨hge, hx.2⟩

theorem fetched_events (hfirst : piece.1 = run.day.1) {x : Int} (hx : Inside run.day x) :
    Fetched (landedBackfill run piece traffic events got got' ++ log) .events x :=
  ⟨⟨.events, run.day.1, run.day.2, events, got'.rows, got'.truncated⟩,
    List.mem_append_left _ (List.mem_append_right _ (by simp [hfirst])), rfl, hx⟩

theorem start_le_stop (hrun : run.Follows log) (hpieces : run.pieces = piece :: rest) :
    run.day.1 ≤ piece.2 := by
  have hpiece : Piece piece := hrun.pieces piece (hpieces ▸ List.mem_cons_self)
  rcases hrun.tiles with hnil | ⟨begun, htiles, hbegun⟩
  · rw [hpieces] at hnil
    cases hnil
  · obtain ⟨rfl, -⟩ := tiles_cons (hpieces ▸ htiles)
    rcases hbegun with hfirst | ⟨hle, -⟩
    · exact hfirst ▸ hpiece.proper.le
    · exact hle.trans hpiece.proper.le

/-- A piece of a backfill that lands. -/
theorem landBackfill_lands {s : Store R} (h : Covered log s) (hrun : run.Follows log)
    (hpieces : run.pieces = piece :: rest)
    (hok : fetchBackfill run piece traffic events = .ok (got, got')) :
    ∃ s', landBackfill s run piece got got' =
        some (setPlan s' run.plan fun row => { row with doneThrough := piece.2 }) ∧
      Covered (landedBackfill run piece traffic events got got' ++ log) s' ∧ Keeps s s' := by
  obtain ⟨htraffic, hevents⟩ := fetchBackfill_ok hok
  have hpiece : Piece piece := hrun.pieces piece (hpieces ▸ List.mem_cons_self)
  have hday : Piece run.day := hrun.whole (by simp [hpieces])
  set stored : Store R := { s with records := s.records ++ got.rows ++ got'.rows }
  set noted := recordTruncated (recordTruncated stored .traffic got.truncated) .events got'.truncated
  have hnoted : Covered log noted :=
    ((((h.addRecords got.rows).addRecords got'.rows).recordTruncated .traffic got.truncated).recordTruncated
      .events got'.truncated)
  have hlogged : Covered (landedBackfill run piece traffic events got got' ++ log) noted := by
    refine hnoted.addLog _ fun c hc => ?_
    rcases List.mem_append.1 hc with hc | hc
    · split at hc
      · rename_i hreads
        obtain rfl := List.mem_singleton.1 hc
        exact ⟨⟨got.windows, htraffic hreads⟩,
          fun r hr => List.mem_append_left _ (List.mem_append_right _ hr),
          fun t ht => List.mem_append_left _ (mem_recordTruncated ht)⟩
      · cases hc
    · split at hc
      · rename_i hfirst
        obtain rfl := List.mem_singleton.1 hc
        exact ⟨⟨got'.windows, hevents hfirst⟩, fun r hr => List.mem_append_right _ hr,
          fun t ht => mem_recordTruncated ht⟩
      · cases hc
  obtain ⟨s', hreads, hcovered, hkeeps⟩ := Covered.coverReads run.reads.sources hday hpiece.stop (start_le_stop hrun hpieces)
    (fun hmem x hx => fetched_traffic hrun hpieces (traffic_of_mem hmem) hx)
    (fun source hmem hsource hfirst x hx => events_of_mem hmem hsource ▸ fetched_events hfirst hx) hlogged
  refine ⟨s', ?_, hcovered, hkeeps.watermark, hkeeps.coldStartFrom, hkeeps.plans, hkeeps.within⟩
  rw [landBackfill, hreads]
  rfl

end LandBackfill

theorem PlansWhole.setPlan {s : Store R} (h : PlansWhole s) (plan : Plan) {f : PlanRow → PlanRow}
    (hf : ∀ row, Whole (f row).doneThrough) : PlansWhole (setPlan s plan f) := by
  intro plan' row hrow
  by_cases hplan : plan' = plan
  · subst hplan
    simp only [Cycles.setPlan, Function.update_self] at hrow
    obtain ⟨row', -, rfl⟩ := Option.map_eq_some_iff.1 hrow
    exact hf row'
  · simp only [Cycles.setPlan, Function.update_of_ne hplan] at hrow
    exact h plan' row hrow

theorem Sound.landBackfill (h : Sound w) {run : BackfillRun} (hrun : w.backfill = some run)
    {piece : Int × Int} {rest : List (Int × Int)} (hpieces : run.pieces = piece :: rest)
    {traffic events : Fetch R ε} {got got' : WindowHarvest R} {s : Store R}
    (hcovered : Covered (landedBackfill run piece traffic events got got' ++ w.log) s)
    (hkeeps : Keeps w.store s) :
    Sound { w with
      store := setPlan s run.plan fun row => { row with doneThrough := piece.2 }
      backfill := some { run with pieces := rest }
      log := landedBackfill run piece traffic events got got' ++ w.log } := by
  have hfollows : run.Follows w.log := h.backfill run hrun
  have hpiece : Piece piece := hfollows.pieces piece (hpieces ▸ List.mem_cons_self)
  have hmark {watermark : Int} (hmark : s.watermark = some watermark) : w.store.watermark = some watermark :=
    hkeeps.watermark ▸ hmark
  constructor
  · exact ⟨hcovered.reads, hcovered.settled, fun c hc => ⟨(hcovered.landed c hc).harvested,
      (hcovered.landed c hc).rows, (hcovered.landed c hc).truncated⟩⟩
  · have hplans : PlansWhole s := fun plan row hrow => h.plans plan row (hkeeps.plans ▸ hrow)
    exact hplans.setPlan run.plan fun _ => hpiece.stop
  · refine ⟨fun hnone => ?_, fun start hstart => ?_, fun watermark hsome => ?_⟩
    · exact (h.progress.remembered (hkeeps.watermark ▸ hnone)).trans hkeeps.coldStartFrom.symm
    · exact h.progress.whole start (hkeeps.coldStartFrom ▸ hstart)
    · obtain ⟨hwhole, hle, hcold, start, hstart, hlow, hwithin⟩ := h.progress.reached watermark (hmark hsome)
      exact ⟨hwhole, hle, hkeeps.coldStartFrom.trans hcold, start, hstart, hlow, hkeeps.within _ _ _ hwithin⟩
  · intro run' hrun'
    obtain ⟨htime, hwhole, cur, hcur, hslices, hfirst, hlater⟩ := h.traffic run' hrun'
    exact ⟨htime, hwhole, cur, hcur, hslices, fun hnone => hfirst (hkeeps.watermark ▸ hnone),
      fun watermark hsome => hlater watermark (hmark hsome)⟩
  · intro run' hrun'
    obtain rfl := Option.some.inj hrun'
    refine ⟨hfollows.stop, hfollows.days, fun p hp => hfollows.pieces p (hpieces ▸ List.mem_cons_of_mem _ hp),
      fun _ => hfollows.whole (by simp [hpieces]), fun hreads => ?_, ?_⟩
    · have hsingle := hfollows.single hreads
      rw [hpieces, List.length_cons] at hsingle
      exact Nat.le_of_succ_le hsingle
    · rcases hfollows.tiles with hnil | ⟨begun, htiles, -⟩
      · rw [hpieces] at hnil
        cases hnil
      · refine (tiles_cons (hpieces ▸ htiles)).2.imp_right fun hrest => ⟨piece.2, hrest, Or.inr ?_⟩
        have hle : run.day.1 ≤ piece.2 := start_le_stop hfollows hpieces
        refine ⟨hle, fun x hx => fetched_traffic hfollows hpieces ?_ hx⟩
        -- without traffic the day is one piece, and none comes after it
        cases hreads : run.reads.traffic with
        | true => rfl
        | false =>
          have hsingle := hfollows.single hreads
          rw [hpieces] at hsingle
          cases rest with
          | nil => cases hrest
          | cons _ _ => simp at hsingle

/-- The next day. -/
theorem follows_nextDay {log : List (Landed R ε)} {run : BackfillRun} (h : run.Follows log) {day : Int × Int}
    {days : List (Int × Int)} (hdays : run.days = day :: days) :
    BackfillRun.Follows log { run with day := day, pieces := piecesOf run.reads day, days := days } := by
  have hday : Piece day := h.days day (hdays ▸ List.mem_cons_self)
  refine ⟨h.stop, fun d hd => h.days d (hdays ▸ List.mem_cons_of_mem _ hd), fun p hp => ?_, fun _ => hday,
    fun hreads => ?_, Or.inr ⟨day.1, ?_, Or.inl rfl⟩⟩
  · simp only [piecesOf] at hp
    split at hp
    · exact piece_slices hday.start hday.stop p hp
    · exact List.mem_singleton.1 hp ▸ hday
  · have hoff : run.reads.traffic = false := hreads
    simp [piecesOf, hoff]
  · simp only [piecesOf]
    split
    · exact CollectWindows.tiles_slices hday.proper
    · exact Tiles.last hday.proper

/-- The next piece of a backfill, or the next day. -/
theorem Sound.backfillStep (h : Sound w) {run : BackfillRun} (hrun : w.backfill = some run)
    (traffic events : Fetch R ε) (fate : Fate) :
    Sound (backfillStep w run traffic events fate) ∧
      (backfillStep w run traffic events fate).store.watermark = w.store.watermark := by
  have hfollows : run.Follows w.log := h.backfill run hrun
  unfold Cycles.backfillStep
  split
  · refine ⟨⟨⟨h.covered.reads, h.covered.settled, fun c hc => ⟨(h.covered.landed c hc).harvested,
      (h.covered.landed c hc).rows, (h.covered.landed c hc).truncated⟩⟩, ?_, ?_, ?_, fun _ hrun' => nomatch hrun'⟩,
      rfl⟩
    · exact h.plans.setPlan run.plan fun _ => hfollows.stop
    · exact ⟨h.progress.remembered, h.progress.whole, h.progress.reached⟩
    · exact fun run' hrun' =>
        ⟨(h.traffic run' hrun').time, (h.traffic run' hrun').whole, (h.traffic run' hrun').pieces⟩
  · rename_i day days hpieces hdays
    refine ⟨⟨h.covered, h.plans, ⟨h.progress.remembered, h.progress.whole, h.progress.reached⟩,
      fun run' hrun' => ?_, fun run' hrun' => ?_⟩, rfl⟩
    · exact ⟨(h.traffic run' hrun').time, (h.traffic run' hrun').whole, (h.traffic run' hrun').pieces⟩
    · obtain rfl := Option.some.inj hrun'
      exact follows_nextDay hfollows hdays
  rename_i piece rest hpieces
  split
  · exact ⟨h.dropBackfill, rfl⟩
  · exact ⟨h.failBackfill run piece, rfl⟩
  · exact ⟨h.dropBackfill, rfl⟩
  · exact ⟨h.failBackfill run piece, rfl⟩
  · rename_i got got' hok
    obtain ⟨s, hland, hcovered, hkeeps⟩ := landBackfill_lands h.covered hfollows hpieces hok
    rw [hland]
    exact ⟨h.landBackfill hrun hpieces hcovered hkeeps, hkeeps.watermark⟩

theorem whole_max {s t : Int} (hs : Whole s) (ht : Whole t) : Whole (max s t) := by
  rcases max_choice s t with h | h
  · rw [h]
    exact hs
  · rw [h]
    exact ht

theorem whole_fromMidnight {start resume frozen : Int} (hstart : Whole start) (hresume : Whole resume) :
    Whole (fromMidnight start resume frozen) := by
  unfold fromMidnight
  split
  · exact whole_max hstart (whole_dayStart _)
  · exact hresume

/-- A backfill goes on where its plan was left, or pins a new one. -/
theorem resumeFrom_cases (s : Store R) (plan : Plan) (start stop : Int) (reads : Reads) :
    (∃ row, s.plans plan = some row ∧ resumeFrom s plan start stop reads = (row.doneThrough, s)) ∨
      resumeFrom s plan start stop reads =
        (start, { s with plans := Function.update s.plans plan (some ⟨start, stop, start, false, reads⟩) }) := by
  unfold resumeFrom
  dsimp only
  split
  · rename_i row hrow
    split
    · exact Or.inl ⟨row, hrow, rfl⟩
    · exact Or.inr rfl
  · exact Or.inr rfl

theorem Sound.beginBackfill (h : Sound w) (plan : Plan) (start stop : Int) (reads : Reads) (flowDays : Nat) :
    Sound (beginBackfill w plan start stop reads flowDays) := by
  have hstart : Whole (wholeSecond start) := whole_wholeSecond start
  have hstop : Whole (wholeSecond stop) := whole_wholeSecond stop
  -- the store changes in its plans only
  obtain ⟨plans, resume, heq, hplans, hresume⟩ : ∃ plans resume,
      resumeFrom w.store plan (wholeSecond start) (wholeSecond stop) reads =
        (resume, { w.store with plans := plans }) ∧ PlansWhole { w.store with plans := plans } ∧
        Whole resume := by
    rcases resumeFrom_cases w.store plan (wholeSecond start) (wholeSecond stop) reads with
      ⟨row, hrow, heq⟩ | heq
    · exact ⟨w.store.plans, row.doneThrough, heq, h.plans, h.plans plan row hrow⟩
    · refine ⟨_, _, heq, fun plan' row hrow => ?_, hstart⟩
      by_cases hplan : plan' = plan
      · subst hplan
        simp only [Function.update_self] at hrow
        cases hrow
        exact hstart
      · simp only [Function.update_of_ne hplan] at hrow
        exact h.plans plan' row hrow
  unfold Cycles.beginBackfill
  rw [heq]
  refine ⟨⟨h.covered.reads, h.covered.settled, fun c hc => ⟨(h.covered.landed c hc).harvested,
    (h.covered.landed c hc).rows, (h.covered.landed c hc).truncated⟩⟩, hplans,
    ⟨h.progress.remembered, h.progress.whole, h.progress.reached⟩, fun run' hrun' => ?_, fun run' hrun' => ?_⟩
  · exact ⟨(h.traffic run' hrun').time, (h.traffic run' hrun').whole, (h.traffic run' hrun').pieces⟩
  · obtain rfl := Option.some.inj hrun'
    exact ⟨hstop, piece_daysOf (whole_fromMidnight hstart hresume) hstop, fun p hp => absurd hp List.not_mem_nil,
      fun hne => absurd rfl hne, fun _ => Nat.zero_le _, Or.inl rfl⟩

theorem Sound.beginTraffic (h : Sound w) : Sound (beginTraffic w) ∧
    (beginTraffic w).store.watermark = w.store.watermark := by
  obtain ⟨hprogress, htraffic⟩ := beginTraffic_progress h.progress
  obtain ⟨coldStartFrom, hstore⟩ : ∃ coldStartFrom,
      (Cycles.beginTraffic w).store = { w.store with coldStartFrom := coldStartFrom } := by
    simp only [Cycles.beginTraffic, beginCycle]
    split
    · exact ⟨_, rfl⟩
    · split <;> exact ⟨_, rfl⟩
  refine ⟨⟨?_, ?_, hprogress, htraffic, h.backfill⟩, by rw [hstore]⟩
  · rw [hstore]
    exact ⟨h.covered.reads, h.covered.settled, fun c hc => ⟨(h.covered.landed c hc).harvested,
      (h.covered.landed c hc).rows, (h.covered.landed c hc).truncated⟩⟩
  · rw [hstore]
    exact h.plans

theorem Sound.passes (h : Sound w) (time : Nat) : Sound { w with now := w.now + time } := by
  have hnow : wholeSecond w.now ≤ wholeSecond (w.now + time) := wholeSecond_mono (by omega)
  refine ⟨h.covered, h.plans, ⟨h.progress.remembered, h.progress.whole, fun watermark hmark => ?_⟩,
    fun run hrun => ?_, h.backfill⟩
  · obtain ⟨hwhole, hle, hrest⟩ := h.progress.reached watermark hmark
    exact ⟨hwhole, hle.trans hnow, hrest⟩
  · exact ⟨(h.traffic run hrun).time.trans hnow, (h.traffic run hrun).whole, (h.traffic run hrun).pieces⟩

theorem Sound.step (h : Sound w) (a : Action R ε) : Sound (a.apply w) ∧ WatermarkMoves w (a.apply w) := by
  cases a with
  | passes time => exact ⟨h.passes time, Or.inl rfl⟩
  | trafficBegins =>
    simp only [Action.apply]
    split
    · exact ⟨h.beginTraffic.1, Or.inl h.beginTraffic.2⟩
    · exact ⟨h, Or.inl rfl⟩
  | traffic query fate =>
    simp only [Action.apply]
    split
    · exact ⟨h, Or.inl rfl⟩
    · exact h.trafficStep ‹_› query fate
  | trafficDies => exact ⟨h.dropTraffic, Or.inl rfl⟩
  | backfillBegins plan start stop reads flowDays =>
    simp only [Action.apply]
    split
    · refine ⟨h.beginBackfill plan start stop reads flowDays, Or.inl ?_⟩
      simp only [Cycles.beginBackfill]
      rcases resumeFrom_cases w.store plan (wholeSecond start) (wholeSecond stop) reads with
        ⟨row, -, heq⟩ | heq <;> rw [heq]
    · exact ⟨h, Or.inl rfl⟩
  | backfill ofTraffic ofEvents fate =>
    simp only [Action.apply]
    split
    · exact ⟨h, Or.inl rfl⟩
    · rename_i run hrun
      exact ⟨(h.backfillStep hrun ofTraffic ofEvents fate).1,
        Or.inl (h.backfillStep hrun ofTraffic ofEvents fate).2⟩
  | backfillDies => exact ⟨h.dropBackfill, Or.inl rfl⟩

end Steps

theorem sound_installed (now : Int) : Sound (installed now : World R ε) where
  covered := by
    obtain ⟨t, ht, hholds⟩ := Collect.addAll_holds []
    obtain rfl := Option.some.inj ht
    exact ⟨⟨[], hholds, fun r hr => absurd hr List.not_mem_nil⟩, fun g hg => absurd hg List.not_mem_nil,
      fun c hc => absurd hc List.not_mem_nil⟩
  plans _ _ hrow := nomatch hrow
  progress := ⟨fun _ => rfl, fun _ hstart => (nomatch hstart), fun _ hmark => nomatch hmark⟩
  traffic _ hrun := nomatch hrun
  backfill _ hrun := nomatch hrun

theorem sound_after (now : Int) (actions : List (Action R ε)) : Sound (after (installed now) actions) :=
  List.foldlRecOn actions _ (sound_installed now) fun _ hw a _ => (hw.step a).1

/-- In every run of cycles and backfills, whatever becomes of their pieces: the watermark moves only with the
records of a piece that ends at it, and never back; what is covered was fetched and stored; the windows that
were truncated are recorded with the piece they belong to; one range is covered from the first cold start to
the watermark; and a failed window is resolved only if one covered range holds it. -/
theorem cycles_sound (now : Int) (actions : List (Action R ε)) :
    (∀ a : Action R ε, WatermarkMoves (after (installed now) actions) (a.apply (after (installed now) actions))) ∧
      (∀ source x, (∃ r ∈ (after (installed now) actions).store.coverage.ranges source, Inside r x) →
        Fetched (after (installed now) actions).log source x) ∧
      (∀ c ∈ (after (installed now) actions).log, c.Holds (after (installed now) actions).store) ∧
      (∀ watermark, (after (installed now) actions).store.watermark = some watermark →
        ∃ start, (after (installed now) actions).remembered = some start ∧
          Within ((after (installed now) actions).store.coverage.ranges .traffic) start watermark) ∧
      ∀ g ∈ (after (installed now) actions).store.gaps,
        g.Settled (after (installed now) actions).store.coverage := by
  have h := sound_after now actions
  refine ⟨fun a => (h.step a).2, fun source x hx => h.covered.fetched hx, h.covered.landed, ?_, h.covered.settled⟩
  intro watermark hmark
  obtain ⟨-, -, -, start, hstart, -, hwithin⟩ := h.progress.reached watermark hmark
  exact ⟨start, hstart, hwithin⟩

end IllumioOps.Cycles
