import IllumioOps.Domain.Values
import IllumioOps.Ranges.Joined

/-!
# What of a window the store can answer

`services.coverage` and the table of `store.flowdb.ingest_state` under it. Every source keeps the
ranges it has read (`addCoverage`); the parts of a window outside them, below the floor of the
retention, or in a gap that was recorded, are reported with a reason (`storeCoverage`), joined where
gaps of one reason overlap or touch (`mergeGaps`). Times are microseconds; the stored ones are whole
milliseconds.
-/

set_option autoImplicit false

namespace IllumioOps.Collect

open Ranges

/-! ## Gaps -/

inductive GapReason where
  | beforeRetention
  | collectionOff
  | ingestFailed
  | notYetCollected
  | truncated
  deriving DecidableEq, Repr

namespace GapReason

def text : GapReason → String
  | beforeRetention => "before_retention"
  | collectionOff => "collection_off"
  | ingestFailed => "ingest_failed"
  | notYetCollected => "not_yet_collected"
  | truncated => "truncated"

/-- The place of a reason in the order of the texts. -/
def place : GapReason → Nat
  | beforeRetention => 0
  | collectionOff => 1
  | ingestFailed => 2
  | notYetCollected => 3
  | truncated => 4

theorem place_lt_iff (a b : GapReason) : a.place < b.place ↔ a.text < b.text := by
  cases a <;> cases b <;> decide +kernel

theorem place_injective : Function.Injective place := by
  intro a b h
  cases a <;> cases b <;> first | rfl | exact absurd h (by decide)

instance : LinearOrder GapReason := LinearOrder.lift' place place_injective

end GapReason

abbrev ReportedGap : Type := Marked Int GapReason

inductive GapKind where
  | failed
  | truncated
  deriving DecidableEq, Repr

def GapKind.reason : GapKind → GapReason
  | .failed => .ingestFailed
  | .truncated => .truncated

/-- A row of `ingest_gaps` that is not resolved. -/
structure OpenGap where
  windowStart : Int
  windowEnd : Int
  kind : GapKind
  deriving DecidableEq, Repr

def OpenGap.window (g : OpenGap) : Int × Int := (g.windowStart, g.windowEnd)

/-- `merge_gaps` -/
def mergeGaps (gaps : List ReportedGap) : List ReportedGap := mergeMarked gaps

/-! ## The coverage of a window -/

structure StoreCoverage where
  gaps : List ReportedGap
  storeFrom : Option Int
  storeTo : Option Int
  coversAny : Bool

/-- The covered ranges from the floor on. -/
def clippedRanges (coverage : List (Int × Int)) (floor : Int) : List (Int × Int) :=
  (coverage.filter fun r => floor < r.2).map fun r => (max r.1 floor, r.2)

/-- The open gaps that meet the window, within it. -/
def recordedGaps (openGaps : List OpenGap) (window : Int × Int) : List ReportedGap :=
  (openGaps.filter fun g => g.windowStart < window.2 && window.1 < g.windowEnd).map fun g =>
    ⟨max g.windowStart window.1, min g.windowEnd window.2, g.kind.reason⟩

/-- The reason of what was not read: collection is on or off. -/
def notCollected (collected : Bool) : GapReason :=
  if collected then .notYetCollected else .collectionOff

/-- The gaps of an uncovered part, below the floor and from it on. -/
def partGaps (floor : Int) (collected : Bool) (part : Int × Int) : List ReportedGap :=
  (if part.1 < floor then [⟨part.1, min part.2 floor, .beforeRetention⟩] else []) ++
    if floor < part.2 then [⟨max part.1 floor, part.2, notCollected collected⟩] else []

/-- The parts of the window that are neither covered nor in a recorded gap. -/
def missingParts (ranges : List (Int × Int)) (recorded : List ReportedGap)
    (window : Int × Int) : List (Int × Int) :=
  (subtract window ranges).flatMap fun part => subtract part (recorded.map Marked.span)

/-- `store_coverage` -/
def storeCoverage (coverage : List (Int × Int)) (openGaps : List OpenGap) (window : Int × Int)
    (floor : Int) (collected : Bool) : StoreCoverage :=
  let ranges := clippedRanges coverage floor
  let recorded := recordedGaps openGaps window
  { gaps := mergeGaps
      (recorded ++ (missingParts ranges recorded window).flatMap (partGaps floor collected))
    storeFrom := (ranges.map Prod.fst).min?
    storeTo := (ranges.map Prod.snd).max?
    coversAny := ranges.any fun r => r.1 < window.2 && window.1 < r.2 }

/-! ## What is reported -/

section

variable {coverage : List (Int × Int)} {openGaps : List OpenGap} {window : Int × Int}
  {floor : Int} {collected : Bool} {t : Int}

/-- From the floor on, and read. -/
theorem inside_clippedRanges :
    (∃ r ∈ clippedRanges coverage floor, Inside r t) ↔
      floor ≤ t ∧ ∃ r ∈ coverage, Inside r t := by
  unfold clippedRanges
  constructor
  · rintro ⟨q, hq, hin⟩
    obtain ⟨r, hr, rfl⟩ := List.mem_map.1 hq
    obtain ⟨hstart, hstop⟩ := hin
    exact ⟨(le_max_right _ _).trans hstart, r, (List.mem_filter.1 hr).1,
      (le_max_left _ _).trans hstart, hstop⟩
  · rintro ⟨hfloor, r, hr, hstart, hstop⟩
    refine ⟨_, List.mem_map.2 ⟨r, List.mem_filter.2 ⟨hr, ?_⟩, rfl⟩, max_le hstart hfloor, hstop⟩
    simpa using hfloor.trans_lt hstop

/-- Within the window, a recorded gap is reported with its reason. -/
theorem holds_recordedGaps (ht : Inside window t) (reason : GapReason) :
    Holds (recordedGaps openGaps window) reason t ↔
      ∃ g ∈ openGaps, g.kind.reason = reason ∧ Inside g.window t := by
  unfold recordedGaps Holds
  obtain ⟨hfrom, hto⟩ := ht
  constructor
  · rintro ⟨q, hq, hreason, hstart, hstop⟩
    obtain ⟨g, hg, rfl⟩ := List.mem_map.1 hq
    exact ⟨g, (List.mem_filter.1 hg).1, hreason, (le_max_left _ _).trans hstart,
      hstop.trans_le (min_le_left _ _)⟩
  · rintro ⟨g, hg, hreason, hstart, hstop⟩
    simp only [OpenGap.window] at hstart hstop
    refine ⟨_, List.mem_map.2 ⟨g, List.mem_filter.2 ⟨hg, ?_⟩, rfl⟩, hreason,
      max_le hstart hfrom, lt_min hstop hto⟩
    rw [Bool.and_eq_true, decide_eq_true_eq, decide_eq_true_eq]
    exact ⟨hstart.trans_lt hto, hfrom.trans_lt hstop⟩

/-- A missing part is outside the ranges and the recorded gaps. -/
theorem inside_missingParts {ranges : List (Int × Int)} {recorded : List ReportedGap} :
    (∃ p ∈ missingParts ranges recorded window, Inside p t) ↔
      Inside window t ∧ (∀ r ∈ ranges, ¬ Inside r t) ∧ ∀ g ∈ recorded, ¬ Inside g.span t := by
  unfold missingParts
  constructor
  · rintro ⟨p, hp, hin⟩
    obtain ⟨part, hpart, hp⟩ := List.mem_flatMap.1 hp
    obtain ⟨hleft, hfree⟩ := (inside_subtract part _).1 ⟨p, hp, hin⟩
    obtain ⟨hwindow, huncovered⟩ := (inside_subtract window ranges).1 ⟨part, hpart, hleft⟩
    exact ⟨hwindow, huncovered, fun g hg => hfree g.span (List.mem_map_of_mem hg)⟩
  · rintro ⟨hwindow, huncovered, hfree⟩
    obtain ⟨part, hpart, hleft⟩ := (inside_subtract window ranges).2 ⟨hwindow, huncovered⟩
    have hfree' : ∀ cut ∈ recorded.map Marked.span, ¬ Inside cut t := by
      intro cut hcut
      obtain ⟨g, hg, rfl⟩ := List.mem_map.1 hcut
      exact hfree g hg
    obtain ⟨p, hp, hin⟩ := (inside_subtract part _).2 ⟨hleft, hfree'⟩
    exact ⟨p, List.mem_flatMap.2 ⟨part, hpart, hp⟩, hin⟩

/-- A missing part is reported below the floor, and from it on, with the two reasons. -/
theorem holds_partGaps (part : Int × Int) (reason : GapReason) :
    Holds (partGaps floor collected part) reason t ↔ Inside part t ∧
      (t < floor ∧ reason = .beforeRetention ∨
        floor ≤ t ∧ reason = notCollected collected) := by
  have hbelow : Holds (if part.1 < floor then
      [(⟨part.1, min part.2 floor, .beforeRetention⟩ : ReportedGap)] else []) reason t ↔
      Inside part t ∧ t < floor ∧ reason = .beforeRetention := by
    split
    · simp only [Holds, List.mem_singleton, exists_eq_left, Inside, Marked.span, lt_min_iff]
      tauto
    · next hfloor =>
      simp only [Holds, List.not_mem_nil, false_and, exists_false, Inside, false_iff]
      rintro ⟨⟨hstart, -⟩, hlt, -⟩
      omega
  have hfrom : Holds (if floor < part.2 then
      [(⟨max part.1 floor, part.2, notCollected collected⟩ : ReportedGap)] else []) reason t ↔
      Inside part t ∧ floor ≤ t ∧ reason = notCollected collected := by
    split
    · simp only [Holds, List.mem_singleton, exists_eq_left, Inside, Marked.span, max_le_iff]
      tauto
    · next hfloor =>
      simp only [Holds, List.not_mem_nil, false_and, exists_false, Inside, false_iff]
      rintro ⟨⟨-, hstop⟩, hle, -⟩
      omega
  unfold partGaps
  rw [holds_append, hbelow, hfrom]
  tauto

/-- What is reported of an instant of the window: the reasons of the recorded gaps it is in, or,
where it is in none and not covered, one of the two others. -/
theorem holds_storeCoverage (ht : Inside window t) (reason : GapReason) :
    Holds (storeCoverage coverage openGaps window floor collected).gaps reason t ↔
      (∃ g ∈ openGaps, g.kind.reason = reason ∧ Inside g.window t) ∨
        (∀ g ∈ openGaps, ¬ Inside g.window t) ∧
          (t < floor ∧ reason = .beforeRetention ∨
            (floor ≤ t ∧ (∀ r ∈ coverage, ¬ Inside r t)) ∧ reason = notCollected collected) := by
  have hfree : (∀ g ∈ recordedGaps openGaps window, ¬ Inside g.span t) ↔
      ∀ g ∈ openGaps, ¬ Inside g.window t := by
    constructor
    · intro h g hg hin
      obtain ⟨q, hq, -, hqin⟩ := (holds_recordedGaps ht g.kind.reason).2 ⟨g, hg, rfl, hin⟩
      exact h q hq hqin
    · intro h q hq hin
      obtain ⟨g, hg, -, hgin⟩ := (holds_recordedGaps ht q.mark).1 ⟨q, hq, rfl, hin⟩
      exact h g hg hgin
  have huncovered : (∀ r ∈ clippedRanges coverage floor, ¬ Inside r t) ↔
      (floor ≤ t → ∀ r ∈ coverage, ¬ Inside r t) := by
    have hclipped : (∃ r ∈ clippedRanges coverage floor, Inside r t) ↔
        floor ≤ t ∧ ∃ r ∈ coverage, Inside r t := inside_clippedRanges
    constructor
    · intro h hfloor r hr hin
      obtain ⟨q, hq, hqin⟩ := hclipped.2 ⟨hfloor, r, hr, hin⟩
      exact h q hq hqin
    · intro h q hq hin
      obtain ⟨hfloor, r, hr, hrin⟩ := hclipped.1 ⟨q, hq, hin⟩
      exact h hfloor r hr hrin
  have hparts : Holds ((missingParts (clippedRanges coverage floor)
        (recordedGaps openGaps window) window).flatMap (partGaps floor collected)) reason t ↔
      (∃ p ∈ missingParts (clippedRanges coverage floor) (recordedGaps openGaps window) window,
        Inside p t) ∧ (t < floor ∧ reason = .beforeRetention ∨
          floor ≤ t ∧ reason = notCollected collected) := by
    constructor
    · rintro ⟨g, hg, hreason, hin⟩
      obtain ⟨p, hp, hg⟩ := List.mem_flatMap.1 hg
      obtain ⟨hpin, hcase⟩ := (holds_partGaps p reason).1 ⟨g, hg, hreason, hin⟩
      exact ⟨⟨p, hp, hpin⟩, hcase⟩
    · rintro ⟨⟨p, hp, hpin⟩, hcase⟩
      obtain ⟨g, hg, hreason, hin⟩ := (holds_partGaps p reason).2 ⟨hpin, hcase⟩
      exact ⟨g, List.mem_flatMap.2 ⟨p, hp, hg⟩, hreason, hin⟩
  unfold storeCoverage mergeGaps
  dsimp only
  rw [inside_mergeMarked, holds_append, holds_recordedGaps ht, hparts, inside_missingParts,
    hfree, huncovered]
  constructor
  · rintro (hrecorded | ⟨⟨-, huncovered, hfree⟩, hcase⟩)
    · exact Or.inl hrecorded
    · refine Or.inr ⟨hfree, hcase.imp_right ?_⟩
      rintro ⟨hfloor, hreason⟩
      exact ⟨⟨hfloor, huncovered hfloor⟩, hreason⟩
  · rintro (hrecorded | ⟨hfree, ⟨hlt, hreason⟩ | ⟨⟨hfloor, huncovered⟩, hreason⟩⟩)
    · exact Or.inl hrecorded
    · exact Or.inr ⟨⟨ht, fun hfloor => absurd hfloor (not_le_of_gt hlt), hfree⟩,
        Or.inl ⟨hlt, hreason⟩⟩
    · exact Or.inr ⟨⟨ht, fun _ => huncovered, hfree⟩, Or.inr ⟨hfloor, hreason⟩⟩

/-- An instant of the window is in none of the gaps exactly when it is from the floor on, read, and
in no gap that was recorded. -/
theorem answered_iff (ht : Inside window t) :
    (∀ g ∈ (storeCoverage coverage openGaps window floor collected).gaps, ¬ Inside g.span t) ↔
      floor ≤ t ∧ (∃ r ∈ coverage, Inside r t) ∧ ∀ g ∈ openGaps, ¬ Inside g.window t := by
  have hnone : (∀ g ∈ (storeCoverage coverage openGaps window floor collected).gaps,
      ¬ Inside g.span t) ↔ ∀ reason,
        ¬ Holds (storeCoverage coverage openGaps window floor collected).gaps reason t := by
    constructor
    · rintro h reason ⟨g, hg, -, hin⟩
      exact h g hg hin
    · intro h g hg hin
      exact h g.mark ⟨g, hg, rfl, hin⟩
  rw [hnone]
  simp only [holds_storeCoverage ht]
  constructor
  · intro h
    have hfree : ∀ g ∈ openGaps, ¬ Inside g.window t :=
      fun g hg hin => h g.kind.reason (Or.inl ⟨g, hg, rfl, hin⟩)
    have hfloor : floor ≤ t := by
      by_contra hlt
      exact h .beforeRetention (Or.inr ⟨hfree, Or.inl ⟨not_le.1 hlt, rfl⟩⟩)
    refine ⟨hfloor, ?_, hfree⟩
    by_contra hread
    refine h (notCollected collected) (Or.inr ⟨hfree, Or.inr ⟨⟨hfloor, ?_⟩, rfl⟩⟩)
    exact fun r hr hin => hread ⟨r, hr, hin⟩
  · rintro ⟨hfloor, ⟨r, hr, hin⟩, hfree⟩ reason
    rintro (⟨g, hg, -, hgin⟩ | ⟨-, ⟨hlt, -⟩ | ⟨⟨-, huncovered⟩, -⟩⟩)
    · exact hfree g hg hgin
    · omega
    · exact huncovered r hr hin

end

/-! ## The ranges that a source has read -/

inductive IngestSource where
  | traffic
  | events
  | inventory
  | ransomware
  | readiness
  | backfill
  deriving DecidableEq, Repr

/-- A row of `ingest_coverage`. -/
structure CoverageRow where
  source : IngestSource
  start : Int
  stop : Int
  deriving DecidableEq, Repr

/-- The primary key. -/
def CoverageRow.key (r : CoverageRow) : IngestSource × Int := (r.source, r.start)

/-- The table `ingest_coverage`. -/
structure CoverageTable where
  rows : List CoverageRow
  keys_nodup : (rows.map CoverageRow.key).Nodup

namespace CoverageTable

def empty : CoverageTable := ⟨[], List.nodup_nil⟩

/-- `coverage`, in the order of the rows. -/
def ranges (t : CoverageTable) (source : IngestSource) : List (Int × Int) :=
  (t.rows.filter fun r => r.source = source).map fun r => (r.start, r.stop)

/-- The rows of a source that overlap or touch the range. -/
def met (t : CoverageTable) (source : IngestSource) (lo hi : Int) : List CoverageRow :=
  t.rows.filter fun r => r.source = source && r.start ≤ hi && lo ≤ r.stop

/-- The rows that stay: the ones that were met are deleted by their keys. -/
def unmet (t : CoverageTable) (source : IngestSource) (lo hi : Int) : List CoverageRow :=
  t.rows.filter fun r => r.key ∉ (t.met source lo hi).map CoverageRow.key

/-- `add_coverage`; none when the insert violates the primary key. -/
def addCoverage (t : CoverageTable) (source : IngestSource) (start stop : Int) :
    Option CoverageTable :=
  let lo := dbTime start
  let hi := dbTime stop
  let found := (t.met source lo hi).map fun r => (r.start, r.stop)
  let row : CoverageRow := ⟨source, leastStart found lo, greatestEnd found hi⟩
  if h : row.key ∈ (t.unmet source lo hi).map CoverageRow.key then none
  else some
    { rows := t.unmet source lo hi ++ [row]
      keys_nodup := by
        rw [List.map_append, List.nodup_append]
        have hkept : ((t.unmet source lo hi).map CoverageRow.key).Nodup :=
          t.keys_nodup.sublist (List.filter_sublist.map _)
        refine ⟨hkept, List.nodup_singleton _, fun k hk k' hk' heq => h ?_⟩
        rw [List.map_singleton, List.mem_singleton] at hk'
        exact hk' ▸ heq ▸ hk }

variable {t t' : CoverageTable} {source other : IngestSource} {lo hi : Int}

theorem mem_met {r : CoverageRow} : r ∈ t.met source lo hi ↔
    r ∈ t.rows ∧ r.source = source ∧ r.start ≤ hi ∧ lo ≤ r.stop := by
  simp [met, and_assoc]

/-- The key of a row that was met is the row's own. -/
theorem key_mem_met {r : CoverageRow} (hr : r ∈ t.rows) :
    r.key ∈ (t.met source lo hi).map CoverageRow.key ↔
      r.source = source ∧ r.start ≤ hi ∧ lo ≤ r.stop := by
  constructor
  · intro hkey
    obtain ⟨q, hq, hkey⟩ := List.mem_map.1 hkey
    obtain ⟨hqr, hmet⟩ := mem_met.1 hq
    exact List.inj_on_of_nodup_map t.keys_nodup hqr hr hkey ▸ hmet
  · exact fun hmet => List.mem_map_of_mem (mem_met.2 ⟨hr, hmet⟩)

/-- A row is deleted exactly when it was met. -/
theorem mem_unmet {r : CoverageRow} : r ∈ t.unmet source lo hi ↔
    r ∈ t.rows ∧ ¬ (r.source = source ∧ r.start ≤ hi ∧ lo ≤ r.stop) := by
  unfold unmet
  rw [List.mem_filter, decide_eq_true_eq]
  exact and_congr_right fun hr => not_congr (key_mem_met hr)

theorem ranges_unmet : ((t.unmet source lo hi).filter fun r => r.source = source).map
      (fun r => (r.start, r.stop)) =
    (t.ranges source).filter fun r => !(r.1 ≤ hi && lo ≤ r.2) := by
  unfold ranges unmet
  rw [List.filter_map, List.filter_filter, List.filter_filter]
  congr 1
  apply List.filter_congr
  intro r hr
  have hdeleted : r.key ∈ (t.met source lo hi).map CoverageRow.key ↔
      r.source = source ∧ r.start ≤ hi ∧ lo ≤ r.stop := key_mem_met hr
  rw [Bool.eq_iff_iff, Bool.and_eq_true, Bool.and_eq_true, decide_eq_true_eq, decide_eq_true_eq,
    hdeleted]
  simp only [Function.comp, Bool.not_eq_true', Bool.and_eq_false_iff, decide_eq_false_iff_not]
  tauto

theorem touching_ranges : touching (t.ranges source) lo hi =
    (t.met source lo hi).map fun r => (r.start, r.stop) := by
  unfold touching ranges met
  rw [List.filter_map, List.filter_filter]
  congr 1
  apply List.filter_congr
  intro r _
  by_cases hsource : r.source = source <;> simp [hsource]

/-- For its source, a call joins its range, in whole milliseconds, with the ones that it overlaps or
touches. -/
theorem ranges_addCoverage {start stop : Int} (h : t.addCoverage source start stop = some t') :
    t'.ranges source = joinRange (t.ranges source) (dbTime start) (dbTime stop) := by
  unfold addCoverage at h
  dsimp only at h
  split at h
  · exact absurd h (by simp)
  · obtain rfl := Option.some.inj h
    unfold joinRange
    rw [touching_ranges, ← ranges_unmet]
    simp [ranges]

/-- Other sources keep their ranges. -/
theorem ranges_addCoverage_of_ne {start stop : Int}
    (h : t.addCoverage source start stop = some t') (hne : other ≠ source) :
    t'.ranges other = t.ranges other := by
  unfold addCoverage at h
  dsimp only at h
  split at h
  · exact absurd h (by simp)
  · obtain rfl := Option.some.inj h
    have hsource : ¬ source = other := fun heq => hne heq.symm
    unfold ranges
    dsimp only
    rw [List.filter_append, List.filter_cons_of_neg (by simpa using hsource), List.filter_nil,
      List.append_nil]
    congr 1
    unfold unmet
    rw [List.filter_filter]
    apply List.filter_congr
    intro r hr
    by_cases hr' : r.source = other
    · have hkept : r ∈ t.unmet source (dbTime start) (dbTime stop) :=
        mem_unmet.2 ⟨hr, fun hmet => hne (hr'.symm.trans hmet.1)⟩
      have hkey := (List.mem_filter.1 hkept).2
      rw [hkey, Bool.and_true]
    · simp [hr']

/-- The insert never violates the primary key. -/
theorem addCoverage_isSome {start stop : Int} (htable : TouchFree (t.ranges source))
    (hordered : dbTime start ≤ dbTime stop) :
    ∃ t', t.addCoverage source start stop = some t' := by
  unfold addCoverage
  dsimp only
  split
  · next hkey =>
    obtain ⟨r, hr, hkey⟩ := List.mem_map.1 hkey
    obtain ⟨hr, hfree⟩ := mem_unmet.1 hr
    simp only [CoverageRow.key, Prod.mk.injEq] at hkey
    obtain ⟨hsource, hstart⟩ := hkey
    have hrange : (r.start, r.stop) ∈ t.ranges source :=
      List.mem_map.2 ⟨r, List.mem_filter.2 ⟨hr, by simpa using hsource⟩, rfl⟩
    have hproper : r.start ≤ r.stop := htable.proper _ hrange
    have hside := htable.joined_apart hrange fun hmet => hfree ⟨hsource, hmet⟩
    rw [touching_ranges] at hside
    -- a row that starts where the joined range does is on neither side of it
    have hle := leastStart_le ((t.met source (dbTime start) (dbTime stop)).map
      fun r => (r.start, r.stop)) (dbTime start)
    have hge := le_greatestEnd ((t.met source (dbTime start) (dbTime stop)).map
      fun r => (r.start, r.stop)) (dbTime stop)
    rcases hside with hlt | hlt
    · exact absurd (hstart ▸ hproper) (not_le_of_gt hlt)
    · have hbegin := hle.trans (hordered.trans hge)
      exact absurd (hstart ▸ hlt) (not_lt_of_ge hbegin)
  · exact ⟨_, rfl⟩

end CoverageTable

/-- A range that was read and stored, of a source. -/
structure ReadRange where
  source : IngestSource
  start : Int
  stop : Int
  ordered : start ≤ stop

/-- Calls of `add_coverage`, one after the other. -/
def addAll (reads : List ReadRange) (t : CoverageTable) : Option CoverageTable :=
  reads.foldlM (fun t r => t.addCoverage r.source r.start r.stop) t

theorem dbTime_mono {a b : Int} (h : a ≤ b) : dbTime a ≤ dbTime b := by
  unfold dbTime milliseconds
  omega

/-- The ranges a source keeps hold what was read, in whole milliseconds, and nothing else. -/
def HoldsReads (reads : List ReadRange) (t : CoverageTable) (source : IngestSource) : Prop :=
  TouchFree (t.ranges source) ∧ ∀ x, (∃ r ∈ t.ranges source, Inside r x) ↔
    ∃ r ∈ reads, r.source = source ∧ Inside (dbTime r.start, dbTime r.stop) x

/-- One call. -/
theorem HoldsReads.add {reads : List ReadRange} {t : CoverageTable}
    (h : ∀ source, HoldsReads reads t source) (r : ReadRange) :
    ∃ t', t.addCoverage r.source r.start r.stop = some t' ∧
      ∀ source, HoldsReads (reads ++ [r]) t' source := by
  have hordered := dbTime_mono r.ordered
  obtain ⟨t', ht'⟩ := CoverageTable.addCoverage_isSome (h r.source).1 hordered
  refine ⟨t', ht', fun source => ?_⟩
  obtain ⟨htouch, hunion⟩ := h source
  by_cases hsource : source = r.source
  · subst hsource
    unfold HoldsReads
    rw [CoverageTable.ranges_addCoverage ht']
    refine ⟨touchFree_joinRange htouch hordered, fun x => ?_⟩
    rw [inside_joinRange, hunion]
    simp [or_and_right, exists_or]
  · unfold HoldsReads
    rw [CoverageTable.ranges_addCoverage_of_ne ht' hsource]
    refine ⟨htouch, fun x => ?_⟩
    rw [hunion]
    have hne : ¬ r.source = source := fun heq => hsource heq.symm
    simp [hne, or_and_right, exists_or]

/-- Any calls. -/
theorem addAll_holds (reads : List ReadRange) :
    ∃ t, addAll reads .empty = some t ∧ ∀ source, HoldsReads reads t source := by
  have hempty : ∀ source, HoldsReads [] .empty source :=
    fun source => ⟨⟨fun _ h => absurd h List.not_mem_nil, List.Pairwise.nil⟩, fun x => by
      simp [CoverageTable.ranges, CoverageTable.empty]⟩
  have hrun : ∀ (more before : List ReadRange) (t : CoverageTable),
      (∀ source, HoldsReads before t source) →
        ∃ t', addAll more t = some t' ∧ ∀ source, HoldsReads (before ++ more) t' source := by
    intro more
    induction more with
    | nil => exact fun before t h => ⟨t, rfl, fun source => by rw [List.append_nil]; exact h source⟩
    | cons r more ih =>
        intro before t h
        obtain ⟨t', ht', hadd⟩ := HoldsReads.add h r
        obtain ⟨t'', ht'', hmore⟩ := ih (before ++ [r]) t' hadd
        refine ⟨t'', ?_, fun source => by simpa using hmore source⟩
        unfold addAll at ht'' ⊢
        rw [List.foldlM_cons, ht']
        exact ht''
  exact hrun reads [] .empty hempty

/-! ## One denotation -/

/-- The three computations agree with the instants they are about: of a window, of merged gaps, and
of the ranges kept, the last in whole milliseconds. -/
theorem coverage_denotes :
    (∀ (coverage : List (Int × Int)) (openGaps : List OpenGap) (window : Int × Int) (floor : Int)
        (collected : Bool) (t : Int), Inside window t →
      ((∀ g ∈ (storeCoverage coverage openGaps window floor collected).gaps,
          ¬ Inside g.span t) ↔
        floor ≤ t ∧ (∃ r ∈ coverage, Inside r t) ∧ ∀ g ∈ openGaps, ¬ Inside g.window t) ∧
      ∀ reason, Holds (storeCoverage coverage openGaps window floor collected).gaps reason t ↔
        (∃ g ∈ openGaps, g.kind.reason = reason ∧ Inside g.window t) ∨
          (∀ g ∈ openGaps, ¬ Inside g.window t) ∧
            (t < floor ∧ reason = .beforeRetention ∨
              (floor ≤ t ∧ (∀ r ∈ coverage, ¬ Inside r t)) ∧ reason = notCollected collected)) ∧
    (∀ gaps : List ReportedGap,
      (∀ reason t, Holds (mergeGaps gaps) reason t ↔ Holds gaps reason t) ∧
        (mergeGaps gaps).Pairwise Marked.Apart ∧ (mergeGaps gaps).Pairwise Marked.atMost ∧
          mergeGaps (mergeGaps gaps) = mergeGaps gaps) ∧
    ∀ reads : List ReadRange,
      ∃ t, addAll reads .empty = some t ∧ ∀ source, HoldsReads reads t source := by
  refine ⟨fun coverage openGaps window floor collected t ht => ?_, fun gaps => ?_, addAll_holds⟩
  · exact ⟨answered_iff ht, holds_storeCoverage ht⟩
  · exact ⟨inside_mergeMarked gaps, apart_mergeMarked gaps, sorted_mergeMarked gaps,
      mergeMarked_idem gaps⟩

/-- A range that ends within a millisecond is kept up to the millisecond. -/
theorem read_millisecond :
    ¬ ∀ reads : List ReadRange, ∀ t, addAll reads .empty = some t → ∀ source x,
      (∃ r ∈ t.ranges source, Inside r x) ↔
        ∃ r ∈ reads, r.source = source ∧ Inside (r.start, r.stop) x := by
  intro h
  obtain ⟨t, ht, hholds⟩ := addAll_holds [⟨.events, 0, 1500, by decide⟩]
  have hread := (h _ t ht .events 1200).2 ⟨_, List.mem_cons_self, rfl, by decide⟩
  obtain ⟨r, hr, -, hin⟩ := (((hholds .events).2 1200).1 hread)
  obtain rfl := List.mem_singleton.1 hr
  exact absurd hin (by decide)

end IllumioOps.Collect
