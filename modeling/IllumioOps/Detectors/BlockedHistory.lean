import IllumioOps.Detectors.WindowCounts
import IllumioOps.Filter.Spec
import IllumioOps.Tables.Grouped

/-!
# The history of blocked traffic

`services.analysis.blocked_history`: the most distinct targets that each source was blocked from in any
window of the seven days before a run. An hourly step keeps the counts by hour; a run takes from them the
whole hours whose windows lie in both its own seven days and those of the step, and reads the two edges. What
it gets is what reading all seven days gives (`historyFor_cached_eq_live`).
-/

set_option autoImplicit false

namespace IllumioOps.Detectors

open Tables

/-! ## Reading the observations -/

def history : Int := days 7
def maxAge : Int := hours 2
def exactRecent : Int := hours 3

/-- The blocked `observations` of a period; a period without a whole millisecond is refused. -/
def observations (stored : List Obs) (start stop : Int) : Option (List Obs) :=
  if startMs start < endMs stop then
    some (stored.filter fun o => decide (o.decision = "blocked") &&
      decide (startMs start ≤ o.last ∧ o.first ≤ endMs stop))
  else none

/-- `by_src.setdefault(o.src_key, []).append(o)` -/
def bySource (rows : List Obs) : List (String × List Obs) :=
  rows.foldl (fun d o => alter o.srcKey (fun old => old.getD [] ++ [o]) d) []

/-- `_max_per_source` -/
def maxPerSource (rows : List Obs) (window : Nat) (until_ : Int) (only : List String) :
    List (String × Nat) :=
  (bySource (rows.filter fun o => decide (o.last ≤ until_) && decide (o.srcKey ∈ only))).map
    fun e => (e.1, maxWindowTargets e.2 window)

/-! ## The hourly step -/

/-- One hour, from the latest back: what is kept, and the greatest count of the older hours. -/
def thinTurn (recent : Int) (st : List (Int × Nat) × Nat) (e : Int × Nat) : List (Int × Nat) × Nat :=
  if recent ≤ e.1 then (st.1 ++ [e], st.2)
  else if st.2 < e.2 then (st.1 ++ [e], e.2)
  else st

/-- `_thin` -/
def thin (byHour : List (Int × Nat)) (through : Int) : List (Int × Nat) :=
  ((byHour.insertionSort fun a b => b.1 ≤ a.1).foldl
    (thinTurn (hourStart through - exactRecent)) ([], 0)).1

structure CachedHistory where
  through : Int
  byHour : List (String × List (Int × Nat))
  deriving DecidableEq, Repr

/-- The row that the hourly step writes: the window it was made for, and when. -/
structure CacheRow where
  windowMinutes : Nat
  computedAt : Int
  history : CachedHistory
  deriving DecidableEq, Repr

/-- The length of a window of some minutes. -/
def windowOf (windowMinutes : Nat) : Nat := (minutes windowMinutes).toNat

/-- `build_blocked_history`, up to the traffic watermark. -/
def buildBlockedHistory (stored : List Obs) (windowMinutes : Nat) (through now : Int) :
    Option CacheRow := do
  let rows ← observations stored (through - history) through
  let found := (bySource (rows.filter fun o => decide (o.last ≤ through))).map fun e =>
    (e.1, thin (windowTargetsByHour e.2 (windowOf windowMinutes)) through)
  pure ⟨windowMinutes, dbTime now, ⟨through, found⟩⟩

/-! ## A run -/

/-- `cached_history` -/
def cachedHistory (row : Option CacheRow) (windowMinutes : Nat) (now : Int) : Option CachedHistory :=
  row.bind fun row =>
    if row.windowMinutes ≠ windowMinutes ∨ row.computedAt < now - maxAge then none else some row.history

def ceilHour (t : Int) : Int := if hourStart t = t then hourStart t else hourStart t + hours 1

/-- `_cached_hours`: from the first whole hour on, up to an hour. -/
def cachedHours (cache : CachedHistory) (window : Nat) (lo : Int) : Option (Int × Int) :=
  let first := ceilHour (max (lo - history) (cache.through - history) + window)
  let stop := hourStart (min lo cache.through)
  if stop ≤ first ∨ stop < hourStart cache.through - exactRecent then none else some (first, stop)

inductive HistoryMode where
  | cached
  | live
  deriving DecidableEq, Repr

/-- All seven days are read. -/
def liveHistory (stored : List Obs) (sources : List String) (windowMinutes : Nat) (lo : Int) :
    Option (List (String × Nat)) := do
  let rows ← observations stored (lo - history) lo
  let found := maxPerSource rows (windowOf windowMinutes) lo sources
  pure (sources.map fun src => (src, (found.lookup src).getD 0))

/-- The greatest count of the cached hours of a source. -/
def cachedMax (cache : CachedHistory) (hours : Int × Int) (src : String) : Nat :=
  ((((cache.byHour.lookup src).getD []).filter fun e =>
    decide (hours.1 ≤ e.1 ∧ e.1 < hours.2)).map Prod.snd).foldr max 0

/-- `history_for` -/
def historyFor (stored : List Obs) (row : Option CacheRow) (sources : List String)
    (windowMinutes : Nat) (lo now : Int) : Option (List (String × Nat) × HistoryMode) :=
  let window := windowOf windowMinutes
  let live := (liveHistory stored sources windowMinutes lo).map fun out => (out, .live)
  match cachedHistory row windowMinutes now with
  | none => live
  | some cache =>
      match cachedHours cache window lo with
      | none => live
      | some (first, stop) => do
          let head ← observations stored (lo - history) first
          let tail ← observations stored (stop - window) lo
          let head := maxPerSource head window first sources
          let tail := maxPerSource tail window lo sources
          pure (sources.map fun src =>
            (src, max (cachedMax cache (first, stop) src)
              (max ((head.lookup src).getD 0) ((tail.lookup src).getD 0))), .cached)

/-! ## By source -/

section Sources

variable {rows : List Obs} {s : String}

theorem lookup_bySource :
    (bySource rows).lookup s =
      if rows.filter (fun o => decide (o.srcKey = s)) = [] then none
      else some (rows.filter fun o => decide (o.srcKey = s)) :=
  lookup_grouped rows

theorem maxWindowTargets_le_iff {window m : Nat} :
    maxWindowTargets rows window ≤ m ↔
      ∀ o ∈ rows, countAt rows window Obs.dstKey o.last ≤ m := by
  obtain ⟨hnil, hmax⟩ := maxWindowTargets_spec rows window
  by_cases hrows : rows = []
  · rw [hnil hrows, hrows]
    simp
  · have hgreatest := hmax hrows
    constructor
    · exact fun h o ho => (hgreatest.2 ⟨o, ho, rfl, rfl⟩).trans h
    · intro h
      obtain ⟨o, ho, -, heq⟩ := hgreatest.1
      exact heq ▸ h o ho

/-- A count depends on the rows of the window alone. -/
theorem countAt_le_of_subset {rows' : List Obs} {window : Nat} {key : Obs → String} {t : Int}
    (h : ∀ o ∈ rows, t - window ≤ o.last → o.last ≤ t → o ∈ rows') :
    countAt rows window key t ≤ countAt rows' window key t := by
  refine Finset.card_le_card fun k hk => ?_
  rw [List.mem_toFinset, List.mem_map] at hk ⊢
  obtain ⟨o, ho, rfl⟩ := hk
  obtain ⟨hin, hlo, hhi⟩ := mem_rowsAt.1 ho
  exact ⟨o, mem_rowsAt.2 ⟨h o hin hlo hhi, hlo, hhi⟩, rfl⟩

end Sources

/-! ## The peaks of a source -/

section Peaks

variable {stored : List Obs} {s : String} {window : Nat}

/-- The blocked observations of a source from a time on. -/
def since (stored : List Obs) (s : String) (a : Int) : List Obs :=
  stored.filter fun o => decide (o.decision = "blocked" ∧ o.srcKey = s ∧ a ≤ o.last)

/-- The targets that the source was blocked from in the window that ends at a time, of the observations
from `a` on. -/
def peak (stored : List Obs) (s : String) (window : Nat) (a t : Int) : Nat :=
  countAt (since stored s a) window Obs.dstKey t

theorem mem_since {a : Int} {o : Obs} :
    o ∈ since stored s a ↔ o ∈ stored ∧ o.decision = "blocked" ∧ o.srcKey = s ∧ a ≤ o.last := by
  rw [since, List.mem_filter, decide_eq_true_iff]

/-- A later start loses targets only where the window reaches back over it. -/
theorem peak_mono {a b t : Int} (hab : a ≤ b) : peak stored s window b t ≤ peak stored s window a t := by
  refine countAt_le_of_subset fun o ho _ _ => ?_
  obtain ⟨hin, hblocked, hs, hlast⟩ := mem_since.1 ho
  exact mem_since.2 ⟨hin, hblocked, hs, hab.trans hlast⟩

theorem peak_congr {a b t : Int} (ha : a ≤ t - window) (hb : b ≤ t - window) :
    peak stored s window a t = peak stored s window b t := by
  refine Nat.le_antisymm ?_ ?_ <;> refine countAt_le_of_subset fun o ho hlo _ => ?_ <;>
    obtain ⟨hin, hblocked, hs, -⟩ := mem_since.1 ho
  · exact mem_since.2 ⟨hin, hblocked, hs, hb.trans hlo⟩
  · exact mem_since.2 ⟨hin, hblocked, hs, ha.trans hlo⟩

/-- What is stored of an observation: it starts no later than it ends, and ends at a whole millisecond. -/
structure Stored (o : Obs) : Prop where
  ordered : o.first ≤ o.last
  ms : o.last % milliseconds 1 = 0

/-- What is read of a period, up to its end. -/
theorem mem_observations (hstored : ∀ o ∈ stored, Stored o) {start stop : Int} {rows : List Obs}
    (h : observations stored start stop = some rows) {o : Obs} (hstop : o.last ≤ stop) :
    o ∈ rows ↔ o ∈ stored ∧ o.decision = "blocked" ∧ start ≤ o.last := by
  rw [observations] at h
  split at h
  · obtain rfl := Option.some.inj h
    rw [List.mem_filter, Bool.and_eq_true, decide_eq_true_iff, decide_eq_true_iff]
    constructor
    · rintro ⟨hin, hblocked, hlo, -⟩
      refine ⟨hin, hblocked, ?_⟩
      simp only [startMs, dbTime, milliseconds] at hlo
      omega
    · rintro ⟨hin, hblocked, hlo⟩
      have ho := hstored o hin
      have hms := ho.ms
      have hordered := ho.ordered
      refine ⟨hin, hblocked, ?_⟩
      simp only [startMs, endMs, dbTime, milliseconds] at *
      omega
  · cases h

/-- What an edge, or a live reading, has for a source. -/
theorem lookup_maxPerSource_le_iff (hstored : ∀ o ∈ stored, Stored o) {start stop : Int}
    {rows : List Obs} (h : observations stored start stop = some rows) {sources : List String}
    (hs : s ∈ sources) {m : Nat} :
    ((maxPerSource rows window stop sources).lookup s).getD 0 ≤ m ↔
      ∀ o ∈ since stored s start, o.last ≤ stop → peak stored s window start o.last ≤ m := by
  have hvalue : ((maxPerSource rows window stop sources).lookup s).getD 0 =
      maxWindowTargets ((rows.filter fun o => decide (o.last ≤ stop) && decide (o.srcKey ∈ sources)).filter
        fun o => decide (o.srcKey = s)) window := by
    rw [maxPerSource, lookup_map_snd fun found => maxWindowTargets found window, lookup_bySource]
    split
    · rename_i hnil
      rw [hnil]
      rfl
    · rfl
  have hmem : ∀ o, (o ∈ (rows.filter fun o => decide (o.last ≤ stop) && decide (o.srcKey ∈ sources)).filter
      fun o => decide (o.srcKey = s)) ↔ o ∈ since stored s start ∧ o.last ≤ stop := by
    intro o
    simp only [List.mem_filter, Bool.and_eq_true, decide_eq_true_iff, mem_since]
    constructor
    · rintro ⟨⟨hin, hstop, -⟩, hsrc⟩
      obtain ⟨h1, h2, h3⟩ := (mem_observations hstored h hstop).1 hin
      exact ⟨⟨h1, h2, hsrc, h3⟩, hstop⟩
    · rintro ⟨⟨h1, h2, hsrc, h3⟩, hstop⟩
      exact ⟨⟨(mem_observations hstored h hstop).2 ⟨h1, h2, h3⟩, hstop, hsrc ▸ hs⟩, hsrc⟩
  rw [hvalue, maxWindowTargets_le_iff]
  -- the rows after the end do not lie in a window that ends before it
  have hcount : ∀ t ≤ stop, countAt ((rows.filter fun o => decide (o.last ≤ stop) &&
      decide (o.srcKey ∈ sources)).filter fun o => decide (o.srcKey = s)) window Obs.dstKey t =
        peak stored s window start t := by
    intro t ht
    refine Nat.le_antisymm ?_ ?_ <;> refine countAt_le_of_subset fun o ho _ hhi => ?_
    · exact ((hmem o).1 ho).1
    · exact (hmem o).2 ⟨ho, hhi.trans ht⟩
  constructor
  · intro hall o ho hstop
    rw [← hcount _ hstop]
    exact hall o ((hmem o).2 ⟨ho, hstop⟩)
  · intro hall o ho
    obtain ⟨hin, hstop⟩ := (hmem o).1 ho
    rw [hcount _ hstop]
    exact hall o hin hstop

end Peaks

/-! ## The cached hours -/

section Hours

theorem hour_length : hours 1 = 3600000000 := rfl

theorem le_ceilHour (t : Int) : t ≤ ceilHour t := by
  rw [ceilHour]
  split
  · rename_i h
    exact h.ge
  · simp only [hourStart, hour_length]
    omega

theorem hourStart_ceilHour (t : Int) : hourStart (ceilHour t) = ceilHour t := by
  rw [ceilHour]
  split <;> simp only [hourStart, hour_length] <;> omega

/-- A time lies between two whole hours when its hour does. -/
theorem hour_between_iff {a b t : Int} (ha : hourStart a = a) (hb : hourStart b = b) :
    a ≤ hourStart t ∧ hourStart t < b ↔ a ≤ t ∧ t < b := by
  simp only [hourStart, hour_length] at *
  omega

theorem foldr_max_le_iff {ns : List Nat} {m : Nat} : ns.foldr max 0 ≤ m ↔ ∀ n ∈ ns, n ≤ m := by
  induction ns with
  | nil => simp
  | cons n ns ih =>
    rw [List.foldr_cons, Nat.max_le, ih]
    simp

variable {rows : List Obs} {window : Nat}

theorem nodup_keys_windowTargetsByHour :
    ((windowTargetsByHour rows window).map Prod.fst).Nodup := by
  rw [windowTargetsByHour, sweep_eq (sorted_byLast rows)]
  have hall : ∀ (ps : List (Obs × Nat)) (out : List (Int × Nat)), (out.map Prod.fst).Nodup →
      ((ps.foldl (fun out p => alter (hourStart p.1.last) (fun old => max (old.getD 0)
        ((rowsIn Obs.last window (byLast rows) p.2 p.1).map Obs.dstKey).toFinset.card) out) out).map
          Prod.fst).Nodup := by
    intro ps
    induction ps with
    | nil => exact fun out h => h
    | cons p ps ih => exact fun out h => ih _ (nodup_keys_alter h)
  exact hall _ [] List.nodup_nil

/-- An hour has a count no less than that of any window that ends in it. -/
theorem exists_windowTargetsByHour (window : Nat) {o : Obs} (ho : o ∈ rows) :
    ∃ n, (hourStart o.last, n) ∈ windowTargetsByHour rows window ∧
      countAt rows window Obs.dstKey o.last ≤ n := by
  obtain ⟨p, hp, hmax⟩ :=
    (rows.filter fun q => decide (hourStart q.last = hourStart o.last)).toFinset.exists_max_image
      (fun q => countAt rows window Obs.dstKey q.last) ⟨o, by simp [ho]⟩
  simp only [List.mem_toFinset, List.mem_filter, decide_eq_true_eq] at hp hmax
  have hgreatest : IsGreatest (closingCounts rows window Obs.dstKey
      fun q => decide (hourStart q.last = hourStart o.last))
        (countAt rows window Obs.dstKey p.last) := by
    refine ⟨⟨p, hp.1, decide_eq_true hp.2, rfl⟩, ?_⟩
    rintro n ⟨q, hq, hhour, rfl⟩
    exact hmax q ⟨hq, of_decide_eq_true hhour⟩
  have hlookup := (windowTargetsByHour_spec rows window _ _).2 hgreatest
  exact ⟨_, (lookup_eq_some_iff_mem nodup_keys_windowTargetsByHour).1 hlookup, hmax o ⟨ho, rfl⟩⟩

/-- What an hour has is the count of a window that ends in it. -/
theorem exists_of_mem_windowTargetsByHour {e : Int × Nat} (he : e ∈ windowTargetsByHour rows window) :
    ∃ o ∈ rows, hourStart o.last = e.1 ∧ e.2 = countAt rows window Obs.dstKey o.last := by
  have hlookup := (lookup_eq_some_iff_mem nodup_keys_windowTargetsByHour).2 he
  obtain ⟨o, ho, hhour, heq⟩ := ((windowTargetsByHour_spec rows window _ _).1 hlookup).1
  exact ⟨o, ho, of_decide_eq_true hhour, heq⟩

/-- Thinning, from the latest hour back. What is kept was seen, and of every hour that was seen one is kept
that is no earlier and has no less: the hour itself, or an older one than the recent. -/
structure Thinned (recent : Int) (seen : List (Int × Nat)) (st : List (Int × Nat) × Nat) : Prop where
  kept : ∀ e ∈ st.1, e ∈ seen
  covered : ∀ e ∈ seen, 0 < e.2 →
    ∃ e' ∈ st.1, e.1 ≤ e'.1 ∧ e.2 ≤ e'.2 ∧ (e' = e ∨ e'.1 < recent)
  best : st.2 = 0 ∨ ∃ e ∈ st.1, e.2 = st.2 ∧ e.1 < recent

theorem Thinned.snoc {recent : Int} {seen : List (Int × Nat)} {st : List (Int × Nat) × Nat}
    {e : Int × Nat} (h : Thinned recent seen st) (n : Nat)
    (hbest : n = 0 ∨ ∃ q ∈ st.1 ++ [e], q.2 = n ∧ q.1 < recent) :
    Thinned recent (seen ++ [e]) (st.1 ++ [e], n) where
  kept q hq := by
    rcases List.mem_append.1 hq with hq | hq
    · exact List.mem_append_left _ (h.kept q hq)
    · exact List.mem_append_right _ hq
  covered q hq hpos := by
    rcases List.mem_append.1 hq with hq | hq
    · obtain ⟨q', hq', hcover⟩ := h.covered q hq hpos
      exact ⟨q', List.mem_append_left _ hq', hcover⟩
    · exact ⟨q, List.mem_append_right _ hq, Int.le_refl _, Nat.le_refl _, Or.inl rfl⟩
  best := hbest

theorem Thinned.turn {recent : Int} {seen : List (Int × Nat)} {st : List (Int × Nat) × Nat}
    {e : Int × Nat} (h : Thinned recent seen st) (hearlier : ∀ q ∈ seen, e.1 ≤ q.1) :
    Thinned recent (seen ++ [e]) (thinTurn recent st e) := by
  rw [thinTurn]
  split
  · refine h.snoc _ (h.best.imp_right ?_)
    rintro ⟨q, hq, hbest⟩
    exact ⟨q, List.mem_append_left _ hq, hbest⟩
  · rename_i hold
    split
    · exact h.snoc _ (Or.inr ⟨e, List.mem_append_right _ (List.mem_singleton_self e), rfl, by omega⟩)
    · rename_i hless
      refine ⟨fun q hq => List.mem_append_left _ (h.kept q hq), fun q hq hpos => ?_, h.best⟩
      rcases List.mem_append.1 hq with hq | hq
      · exact h.covered q hq hpos
      · -- the best of the older hours covers the hour
        obtain rfl := List.mem_singleton.1 hq
        rcases h.best with hzero | ⟨b, hb, hbest, hrecent⟩
        · omega
        · exact ⟨b, hb, hearlier b (h.kept b hb), by omega, Or.inr hrecent⟩

theorem Thinned.foldl {recent : Int} {es seen : List (Int × Nat)} {st : List (Int × Nat) × Nat}
    (h : Thinned recent seen st) (hsorted : (seen ++ es).Pairwise fun a b => b.1 ≤ a.1) :
    Thinned recent (seen ++ es) (es.foldl (thinTurn recent) st) := by
  induction es generalizing seen st with
  | nil => rwa [List.append_nil]
  | cons e es ih =>
    have hsplit : seen ++ e :: es = (seen ++ [e]) ++ es := by rw [List.append_assoc]; rfl
    rw [hsplit] at hsorted ⊢
    refine ih (h.turn fun q hq => ?_) hsorted
    have hseen := (List.pairwise_append.1 (List.pairwise_append.1 hsorted).1).2.2
    exact hseen q hq e (List.mem_singleton_self e)

theorem thinned_thin (byHour : List (Int × Nat)) (through : Int) :
    (∀ e ∈ thin byHour through, e ∈ byHour) ∧
      ∀ e ∈ byHour, 0 < e.2 → ∃ e' ∈ thin byHour through,
        e.1 ≤ e'.1 ∧ e.2 ≤ e'.2 ∧ (e' = e ∨ e'.1 < hourStart through - exactRecent) := by
  have hperm := List.perm_insertionSort (fun a b : Int × Nat => b.1 ≤ a.1) byHour
  have h : Thinned (hourStart through - exactRecent)
      ([] ++ byHour.insertionSort fun a b => b.1 ≤ a.1)
      ((byHour.insertionSort fun a b => b.1 ≤ a.1).foldl
        (thinTurn (hourStart through - exactRecent)) ([], 0)) :=
    Thinned.foldl ⟨fun _ he => he, fun e he => absurd he List.not_mem_nil, Or.inl rfl⟩
      (List.pairwise_insertionSort _ _)
  rw [List.nil_append] at h
  exact ⟨fun e he => hperm.mem_iff.1 (h.kept e he), fun e he => h.covered e (hperm.mem_iff.2 he)⟩

end Hours

/-! ## Cached and live -/

section Cached

variable {before stored : List Obs} {s : String} {window : Nat} {through at_ : Int}

/-- The cached hours of a source hold the peaks of the windows that end in them, as they were when the
cache was made. -/
theorem cachedMax_le_iff (hbefore : ∀ o ∈ before, Stored o) {windowMinutes : Nat} {row : CacheRow}
    (hrow : buildBlockedHistory before windowMinutes through at_ = some row) {first stop : Int}
    (hfirst : hourStart first = first) (hstop : hourStart stop = stop)
    (hexact : hourStart through - exactRecent ≤ stop) (hthrough : stop ≤ through) {m : Nat} :
    cachedMax row.history (first, stop) s ≤ m ↔
      ∀ o ∈ since before s (through - history), first ≤ o.last → o.last < stop →
        peak before s (windowOf windowMinutes) (through - history) o.last ≤ m := by
  obtain ⟨rows, hrows, hrow⟩ := Option.bind_eq_some_iff.1 hrow
  obtain rfl := Option.some.inj hrow
  -- the observations of the source that the cache was made of
  obtain ⟨found, hfound⟩ : ∃ found, found =
      (rows.filter fun o => decide (o.last ≤ through)).filter fun o => decide (o.srcKey = s) := ⟨_, rfl⟩
  have hmem : ∀ o, o ∈ found ↔ o ∈ since before s (through - history) ∧ o.last ≤ through := by
    intro o
    rw [hfound, List.mem_filter, List.mem_filter, decide_eq_true_iff, decide_eq_true_iff, mem_since]
    constructor
    · rintro ⟨⟨hin, hle⟩, hs⟩
      obtain ⟨h1, h2, h3⟩ := (mem_observations hbefore hrows hle).1 hin
      exact ⟨⟨h1, h2, hs, h3⟩, hle⟩
    · rintro ⟨⟨h1, h2, hs, h3⟩, hle⟩
      exact ⟨⟨(mem_observations hbefore hrows hle).2 ⟨h1, h2, h3⟩, hle⟩, hs⟩
  have hcount : ∀ t ≤ through, countAt found (windowOf windowMinutes) Obs.dstKey t =
      peak before s (windowOf windowMinutes) (through - history) t := by
    intro t ht
    refine Nat.le_antisymm ?_ ?_ <;> refine countAt_le_of_subset fun o ho _ hhi => ?_
    · exact ((hmem o).1 ho).1
    · exact (hmem o).2 ⟨ho, hhi.trans ht⟩
  have hentries : cachedMax ⟨through, (bySource (rows.filter fun o => decide (o.last ≤ through))).map
      fun e => (e.1, thin (windowTargetsByHour e.2 (windowOf windowMinutes)) through)⟩ (first, stop) s ≤ m ↔
      ∀ e ∈ thin (windowTargetsByHour found (windowOf windowMinutes)) through,
        first ≤ e.1 → e.1 < stop → e.2 ≤ m := by
    rw [cachedMax, foldr_max_le_iff,
      lookup_map_snd fun found => thin (windowTargetsByHour found (windowOf windowMinutes)) through,
      lookup_bySource, ← hfound]
    by_cases hnil : found = []
    · simp [hnil, thin, windowTargetsByHour, byLast, sweep, sweepFrom]
    · rw [if_neg hnil]
      simp only [Option.map_some, Option.getD_some, List.mem_map, List.mem_filter, decide_eq_true_eq,
        forall_exists_index, and_imp]
      exact ⟨fun h e he hlo hhi => h _ e he hlo hhi rfl, fun h n e he hlo hhi heq => heq ▸ h e he hlo hhi⟩
  obtain ⟨hkept, hcovered⟩ :=
    thinned_thin (windowTargetsByHour found (windowOf windowMinutes)) through
  refine hentries.trans ⟨fun hall o ho hlo hhi => ?_, fun hall e he hlo hhi => ?_⟩
  · -- the hour of the window is kept, or covered by one that is
    have hin : o ∈ found := (hmem o).2 ⟨ho, by omega⟩
    obtain ⟨n, hn, hle⟩ := exists_windowTargetsByHour (windowOf windowMinutes) hin
    rw [← hcount o.last (by omega)]
    rcases Nat.eq_zero_or_pos n with rfl | hpos
    · omega
    · obtain ⟨e, he, hhour, hge, hsame⟩ := hcovered _ hn hpos
      have hbetween := (hour_between_iff hfirst hstop).2 ⟨hlo, hhi⟩
      have hstop' : e.1 < stop := by
        rcases hsame with rfl | hrecent
        · exact hbetween.2
        · omega
      exact hle.trans (hge.trans (hall e he (hbetween.1.trans hhour) hstop'))
  · obtain ⟨o, ho, hhour, heq⟩ := exists_of_mem_windowTargetsByHour (hkept e he)
    obtain ⟨hin, hle⟩ := (hmem o).1 ho
    have hbetween := (hour_between_iff (t := o.last) hfirst hstop).1 ⟨hhour ▸ hlo, hhour ▸ hhi⟩
    rw [heq, hcount _ hle]
    exact hall o hin hbetween.1 hbetween.2

/-- The peaks up to a time are of the observations up to it. -/
theorem peak_eq_of_unchanged (hsame : ∀ o, o.last ≤ through → (o ∈ before ↔ o ∈ stored)) {a t : Int}
    (ht : t ≤ through) : peak before s window a t = peak stored s window a t := by
  refine Nat.le_antisymm ?_ ?_ <;> refine countAt_le_of_subset fun o ho _ hhi => ?_ <;>
    obtain ⟨hin, hrest⟩ := mem_since.1 ho
  · exact mem_since.2 ⟨(hsame o (hhi.trans ht)).1 hin, hrest⟩
  · exact mem_since.2 ⟨(hsame o (hhi.trans ht)).2 hin, hrest⟩

/-- A source's count from the cache and the two edges is its count over all seven days. -/
theorem cached_count_eq_live (hbefore : ∀ o ∈ before, Stored o) (hstored : ∀ o ∈ stored, Stored o)
    (hsame : ∀ o, o.last ≤ through → (o ∈ before ↔ o ∈ stored)) {windowMinutes : Nat} {row : CacheRow}
    (hrow : buildBlockedHistory before windowMinutes through at_ = some row) {lo first stop : Int}
    (hhours : cachedHours row.history (windowOf windowMinutes) lo = some (first, stop))
    {head tail live : List Obs} (hhead : observations stored (lo - history) first = some head)
    (htail : observations stored (stop - windowOf windowMinutes) lo = some tail)
    (hlive : observations stored (lo - history) lo = some live) {sources : List String}
    (hs : s ∈ sources) :
    max (cachedMax row.history (first, stop) s)
        (max (((maxPerSource head (windowOf windowMinutes) first sources).lookup s).getD 0)
          (((maxPerSource tail (windowOf windowMinutes) lo sources).lookup s).getD 0)) =
      ((maxPerSource live (windowOf windowMinutes) lo sources).lookup s).getD 0 := by
  have hthrough : row.history.through = through := by
    obtain ⟨rows, -, hrow⟩ := Option.bind_eq_some_iff.1 hrow
    obtain rfl := Option.some.inj hrow
    rfl
  -- where the cached hours lie
  rw [cachedHours, hthrough] at hhours
  split at hhours
  · cases hhours
  rename_i hin
  rw [not_or, Int.not_le, Int.not_lt] at hin
  obtain ⟨rfl, rfl⟩ := Prod.mk.inj (Option.some.inj hhours)
  have hreach := le_ceilHour (max (lo - history) (through - history) + windowOf windowMinutes)
  have hfirst := hourStart_ceilHour (max (lo - history) (through - history) + windowOf windowMinutes)
  generalize ceilHour (max (lo - history) (through - history) + windowOf windowMinutes) = first at *
  have hstop : hourStart (hourStart (min lo through)) = hourStart (min lo through) := by
    simp only [hourStart, hour_length]
    omega
  have hle : hourStart (min lo through) ≤ min lo through := by
    simp only [hourStart, hour_length]
    omega
  generalize hourStart (min lo through) = stop at *
  refine eq_of_forall_ge_iff fun m => ?_
  rw [Nat.max_le, Nat.max_le, cachedMax_le_iff hbefore hrow hfirst hstop hin.2 (by omega),
    lookup_maxPerSource_le_iff hstored hhead hs, lookup_maxPerSource_le_iff hstored htail hs,
    lookup_maxPerSource_le_iff hstored hlive hs]
  -- between the edges, windows reach back over neither start
  have hmiddle : ∀ o, first ≤ o.last → o.last < stop →
      ((o ∈ since before s (through - history) ↔ o ∈ since stored s (lo - history)) ∧
        peak before s (windowOf windowMinutes) (through - history) o.last =
          peak stored s (windowOf windowMinutes) (lo - history) o.last) := by
    intro o hlo hhi
    constructor
    · rw [mem_since, mem_since, hsame o (by omega)]
      refine and_congr_right fun _ => and_congr_right fun _ => and_congr_right fun _ => ?_
      omega
    · rw [peak_eq_of_unchanged hsame (by omega)]
      exact peak_congr (by omega) (by omega)
  constructor
  · rintro ⟨hmid, hfront, hback⟩ o ho hlast
    by_cases hlo : o.last ≤ first
    · exact hfront o ho hlo
    · by_cases hhi : o.last < stop
      · obtain ⟨hmem, hpeak⟩ := hmiddle o (by omega) hhi
        rw [← hpeak]
        exact hmid o (hmem.2 ho) (by omega) hhi
      · rw [peak_congr (b := stop - windowOf windowMinutes) (by omega) (by omega)]
        refine hback o ?_ hlast
        obtain ⟨h1, h2, h3, -⟩ := mem_since.1 ho
        exact mem_since.2 ⟨h1, h2, h3, by omega⟩
  · intro hall
    refine ⟨fun o ho hlo hhi => ?_, fun o ho hlo => ?_, fun o ho hlast => ?_⟩
    · obtain ⟨hmem, hpeak⟩ := hmiddle o hlo hhi
      rw [hpeak]
      exact hall o (hmem.1 ho) (by omega)
    · exact hall o ho (by omega)
    · refine (peak_mono (a := lo - history) (by omega)).trans (hall o ?_ hlast)
      obtain ⟨h1, h2, h3, h4⟩ := mem_since.1 ho
      exact mem_since.2 ⟨h1, h2, h3, by omega⟩

/-- What a run gets from the cache is what it gets by reading all seven days. -/
theorem historyFor_cached_eq_live (before stored : List Obs) (through at_ : Int) (windowMinutes : Nat)
    (row : CacheRow) (sources : List String) (runMinutes : Nat) (lo now : Int)
    (out : List (String × Nat)) (hbefore : ∀ o ∈ before, Stored o) (hstored : ∀ o ∈ stored, Stored o)
    (hsame : ∀ o, o.last ≤ through → (o ∈ before ↔ o ∈ stored))
    (hrow : buildBlockedHistory before windowMinutes through at_ = some row)
    (hcached : historyFor stored (some row) sources runMinutes lo now = some (out, .cached)) :
    liveHistory stored sources runMinutes lo = some out := by
  have hlive : ∃ live, observations stored (lo - history) lo = some live := by
    refine ⟨_, if_pos ?_⟩
    simp only [startMs, endMs, dbTime, history, days, hours, minutes, seconds, milliseconds]
    omega
  obtain ⟨live, hlive⟩ := hlive
  have hminutes : row.windowMinutes = windowMinutes := by
    obtain ⟨rows, -, hrow⟩ := Option.bind_eq_some_iff.1 hrow
    obtain rfl := Option.some.inj hrow
    rfl
  simp only [historyFor, cachedHistory, Option.bind_some] at hcached
  split at hcached
  · -- the cache is not used
    simp at hcached
  · rename_i cache hcache
    split at hcache
    · cases hcache
    rename_i hmade
    obtain rfl := Option.some.inj hcache
    obtain rfl : windowMinutes = runMinutes := by
      rw [← hminutes]
      exact not_not.1 fun hne => hmade (Or.inl hne)
    split at hcached
    · simp at hcached
    · rename_i first stop hhours
      obtain ⟨head, hhead, hcached⟩ := Option.bind_eq_some_iff.1 hcached
      obtain ⟨tail, htail, hcached⟩ := Option.bind_eq_some_iff.1 hcached
      obtain ⟨rfl, -⟩ := Prod.mk.inj (Option.some.inj hcached)
      rw [liveHistory, hlive]
      refine congrArg some (List.map_congr_left fun s hs => ?_)
      exact congrArg (Prod.mk s)
        (cached_count_eq_live hbefore hstored hsame hrow hhours hhead htail hlive hs).symm

/-- Two targets within an hour, and one of them again. -/
def blockedBurst : List Obs :=
  [⟨"a", "b", hours 100, hours 100, "blocked", "ingest"⟩,
    ⟨"a", "c", hours 100, hours 100 + minutes 30, "blocked", "ingest"⟩,
    ⟨"a", "b", hours 150, hours 150, "blocked", "ingest"⟩]

theorem historyFor_cached_eq_live_burst :
    liveHistory blockedBurst ["a"] 60 (hours 200) = some [("a", 2)] := by
  refine historyFor_cached_eq_live blockedBurst blockedBurst (hours 200) (hours 200) 60
    ⟨60, hours 200, ⟨hours 200, [("a", [(hours 150, 1), (hours 100, 2)])]⟩⟩ ["a"] 60 (hours 200)
    (hours 200) [("a", 2)] ?_ ?_ (fun _ _ => Iff.rfl) (by decide +kernel) (by decide +kernel)
  all_goals
    intro o ho
    simp only [blockedBurst, List.mem_cons, List.not_mem_nil, or_false] at ho
    rcases ho with rfl | rfl | rfl <;> exact ⟨by decide, by decide⟩

end Cached

end IllumioOps.Detectors
