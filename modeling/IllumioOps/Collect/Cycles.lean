import IllumioOps.Collect.Coverage
import IllumioOps.Collect.Windows

/-!
# Traffic cycles and backfills

`run_traffic_cycle` and `_run_backfill`, piece by piece: every piece is fetched, and written in one transaction
with its truncated windows, its coverage and the progress of its collector. A cycle, a backfill and the clock go
on independently of each other, and each piece can fail, be refused or be the last thing its collector does. Of
the cycles one runs at a time, and of the backfills.
-/

set_option autoImplicit false

namespace IllumioOps.Cycles

open Collect (IngestSource GapKind CoverageTable)
open CollectWindows (Fetch WindowHarvest harvest slices slice)
open Ranges (Within)

variable {R ε : Type}

/-! ## The store -/

/-- A row of `ingest_gaps`. -/
structure Gap where
  source : IngestSource
  windowStart : Int
  windowEnd : Int
  kind : GapKind
  resolvedAt : Option Int
  deriving DecidableEq, Repr

inductive Plan where
  | initial
  | manual
  deriving DecidableEq, Repr

/-- What a backfill reads. -/
structure Reads where
  traffic : Bool
  events : Bool
  deriving DecidableEq, Repr

def Reads.sources (reads : Reads) : List IngestSource :=
  (if reads.traffic then [.traffic] else []) ++ if reads.events then [.events] else []

/-- The progress of a plan. -/
structure PlanRow where
  start : Int
  stop : Int
  doneThrough : Int
  finished : Bool
  reads : Reads
  deriving DecidableEq, Repr

/-- The watermark and the remembered cold start of the traffic collection, and what both collectors write. The
records are as they were fetched. -/
structure Store (R : Type) where
  watermark : Option Int
  coldStartFrom : Option Int
  coverage : CoverageTable
  gaps : List Gap
  records : List R
  plans : Plan → Option PlanRow

def recordGap (s : Store R) (source : IngestSource) (start stop : Int) (kind : GapKind) : Store R :=
  { s with gaps := s.gaps ++ [⟨source, dbTime start, dbTime stop, kind, none⟩] }

def recordTruncated (s : Store R) (source : IngestSource) (truncated : List (Int × Int × Nat)) : Store R :=
  { s with gaps := s.gaps ++ truncated.map fun t => ⟨source, dbTime t.1, dbTime t.2.1, .truncated, none⟩ }

/-- `resolve_covered_gaps` on one row. -/
def resolveGap (ranges : List (Int × Int)) (source : IngestSource) (time : Int) (g : Gap) : Gap :=
  if g.source = source ∧ g.kind = .failed ∧ g.resolvedAt = none ∧ Within ranges g.windowStart g.windowEnd then
    { g with resolvedAt := some (dbTime time) }
  else g

/-- `add_coverage`, then `resolve_covered_gaps`; none when the insert fails. -/
def cover (s : Store R) (source : IngestSource) (start stop time : Int) : Option (Store R) :=
  (s.coverage.addCoverage source start stop).map fun coverage =>
    { s with coverage := coverage, gaps := s.gaps.map (resolveGap (coverage.ranges source) source time) }

/-! ## A traffic cycle -/

def overlap : Int := minutes 30
def coldStart : Int := hours 24

/-- `replace(microsecond=0)` -/
def wholeSecond (t : Int) : Int := t / seconds 1 * seconds 1

/-- A piece that was fetched and stored, with the query that answered. -/
structure Landed (R ε : Type) where
  source : IngestSource
  start : Int
  stop : Int
  query : Fetch R ε
  rows : List R
  truncated : List (Int × Int × Nat)

structure TrafficRun where
  time : Int
  pieces : List (Int × Int)

/-- `begin`: where the window starts; the first cold start is remembered until a cycle succeeds. -/
def beginCycle (s : Store R) (time : Int) : Int × Store R :=
  match s.watermark with
  | some watermark => (watermark - overlap, s)
  | none =>
      match s.coldStartFrom with
      | some start => (start, s)
      | none => (time - coldStart, { s with coldStartFrom := some (time - coldStart) })

/-- The transaction of a piece: the records, its truncated windows, the coverage and the watermark. -/
def landTraffic (s : Store R) (time : Int) (piece : Int × Int) (h : WindowHarvest R) : Option (Store R) :=
  (cover (recordTruncated { s with records := s.records ++ h.rows } .traffic h.truncated) .traffic piece.1
    piece.2 time).map fun s => { s with watermark := some (dbTime piece.2), coldStartFrom := none }

/-! ## A backfill -/

/-- `_days` -/
def daysOf (cur stop : Int) : List (Int × Int) :=
  if cur < stop then
    (cur, min (dayStart (dbDay cur + 1)) stop) :: daysOf (dayStart (dbDay cur + 1)) stop
  else []
termination_by (stop - cur).toNat
decreasing_by
  simp only [dayStart, dbDay, days, hours, minutes, seconds, milliseconds]
  omega

/-- A backfill that runs: the day it is at with the pieces to come, and the days after it. -/
structure BackfillRun where
  plan : Plan
  reads : Reads
  time : Int
  stop : Int
  day : Int × Int
  pieces : List (Int × Int)
  days : List (Int × Int)

/-- Where the plan was left, if it is the same and not finished; else it is pinned and begins. -/
def resumeFrom (s : Store R) (plan : Plan) (start stop : Int) (reads : Reads) : Int × Store R :=
  let fresh : Int × Store R :=
    (start, { s with plans := Function.update s.plans plan (some ⟨start, stop, start, false, reads⟩) })
  match s.plans plan with
  | some row =>
      if row.finished = false ∧ row.start = start ∧ row.stop = stop ∧ row.reads = reads then (row.doneThrough, s)
      else fresh
  | none => fresh

/-- A day past the raw cutoff is written whole in one run. -/
def fromMidnight (start resume frozen : Int) : Int :=
  if dbDay resume ≤ frozen then max start (dayStart (dbDay resume)) else resume

/-- `pieces` -/
def piecesOf (reads : Reads) (day : Int × Int) : List (Int × Int) :=
  if reads.traffic then slices day.1 day.2 else [day]

def nothing : WindowHarvest R := ⟨[], 0, []⟩

/-- The coverage of one source in a piece: the traffic of the day up to its end, the events of the whole day with
its first. -/
def coverRead (run : BackfillRun) (piece : Int × Int) (s : Store R) (source : IngestSource) :
    Option (Store R) :=
  if source = .traffic then cover s source run.day.1 piece.2 run.time
  else if piece.1 = run.day.1 then cover s source run.day.1 run.day.2 run.time
  else some s

def setPlan (s : Store R) (plan : Plan) (f : PlanRow → PlanRow) : Store R :=
  { s with plans := Function.update s.plans plan ((s.plans plan).map f) }

/-- The transaction of a piece. -/
def landBackfill (s : Store R) (run : BackfillRun) (piece : Int × Int) (traffic events : WindowHarvest R) :
    Option (Store R) :=
  let stored := { s with records := s.records ++ traffic.rows ++ events.rows }
  let noted := recordTruncated (recordTruncated stored .traffic traffic.truncated) .events events.truncated
  (run.reads.sources.foldlM (coverRead run piece) noted).map fun s =>
    setPlan s run.plan fun row => { row with doneThrough := piece.2 }

/-- `_record_failure` -/
def recordFailure (s : Store R) (run : BackfillRun) (piece : Int × Int) : Store R :=
  let sources := if piece.1 = run.day.1 then run.reads.sources else [.traffic]
  { s with gaps := s.gaps ++
      sources.map fun source => ⟨source, dbTime piece.1, dbTime run.day.2, .failed, none⟩ }

/-! ## The system -/

/-- What becomes of a piece: it is stored, refused because the store belongs to another PCE, fails and is noted,
or its collector dies with nothing written. -/
inductive Fate where
  | lands
  | refused
  | fails
  | dies
  deriving DecidableEq, Repr

/-- The clock, the store, and the collectors in flight. `log` has the pieces stored, the newest first, and
`remembered` the first cold start that was. -/
structure World (R ε : Type) where
  now : Int
  store : Store R
  traffic : Option TrafficRun
  backfill : Option BackfillRun
  log : List (Landed R ε)
  remembered : Option Int

inductive Action (R ε : Type) where
  | passes (time : Nat)
  | trafficBegins
  | traffic (query : Fetch R ε) (fate : Fate)
  | trafficDies
  | backfillBegins (plan : Plan) (start stop : Int) (reads : Reads) (flowDays : Nat)
  | backfill (ofTraffic ofEvents : Fetch R ε) (fate : Fate)
  | backfillDies

def beginTraffic (w : World R ε) : World R ε :=
  let time := wholeSecond w.now
  let begun := beginCycle w.store time
  { w with
    store := begun.2
    remembered := w.remembered.or begun.2.coldStartFrom
    traffic := some ⟨time, slices begun.1 time⟩ }

/-- `fail`, and the end of the cycle. -/
def failTraffic (w : World R ε) (run : TrafficRun) (piece : Int × Int) : World R ε :=
  { w with store := recordGap w.store .traffic piece.1 run.time .failed, traffic := none }

/-- The next piece of the cycle. -/
def trafficStep (w : World R ε) (run : TrafficRun) (query : Fetch R ε) (fate : Fate) : World R ε :=
  match run.pieces with
  | [] => { w with traffic := none }
  | piece :: rest =>
      match fate, harvest query piece.1 piece.2 with
      | .dies, _ => { w with traffic := none }
      | _, .error _ => failTraffic w run piece
      | .refused, .ok _ => { w with traffic := none }
      | .fails, .ok _ => failTraffic w run piece
      | .lands, .ok h =>
          match landTraffic w.store run.time piece h with
          | none => failTraffic w run piece
          | some store =>
              { w with
                store := store
                traffic := some { run with pieces := rest }
                log := ⟨.traffic, piece.1, piece.2, query, h.rows, h.truncated⟩ :: w.log }

def beginBackfill (w : World R ε) (plan : Plan) (start stop : Int) (reads : Reads) (flowDays : Nat) :
    World R ε :=
  let time := wholeSecond w.now
  let resumed := resumeFrom w.store plan (wholeSecond start) (wholeSecond stop) reads
  let resume := fromMidnight (wholeSecond start) resumed.1 (dbDay (time - days flowDays))
  { w with
    store := resumed.2
    backfill := some ⟨plan, reads, time, wholeSecond stop, (resume, resume), [],
      daysOf resume (wholeSecond stop)⟩ }

def failBackfill (w : World R ε) (run : BackfillRun) (piece : Int × Int) : World R ε :=
  { w with store := recordFailure w.store run piece, backfill := none }

/-- Where the progress of a plan is kept: all of it was read. -/
def finishBackfill (w : World R ε) (run : BackfillRun) : World R ε :=
  { w with
    store := setPlan w.store run.plan fun row => { row with doneThrough := run.stop, finished := true }
    backfill := none }

/-- The pieces of a backfill that landed: the traffic of the piece where it is read, and the events of the day
with its first. -/
def landedBackfill (run : BackfillRun) (piece : Int × Int) (traffic events : Fetch R ε)
    (h h' : WindowHarvest R) : List (Landed R ε) :=
  (if run.reads.traffic then [⟨.traffic, piece.1, piece.2, traffic, h.rows, h.truncated⟩] else []) ++
    if piece.1 = run.day.1 then [⟨.events, run.day.1, run.day.2, events, h'.rows, h'.truncated⟩] else []

def harvestIf (wanted : Bool) (fetch : Fetch R ε) (start stop : Int) : Except ε (WindowHarvest R) :=
  if wanted then harvest fetch start stop else .ok nothing

/-- What a piece of a backfill fetches: the traffic where it is read, the events of the day with its first. -/
def fetchBackfill (run : BackfillRun) (piece : Int × Int) (traffic events : Fetch R ε) :
    Except ε (WindowHarvest R × WindowHarvest R) :=
  match harvestIf run.reads.traffic traffic piece.1 piece.2 with
  | .error e => .error e
  | .ok h =>
      match harvestIf (piece.1 = run.day.1) events run.day.1 run.day.2 with
      | .error e => .error e
      | .ok h' => .ok (h, h')

/-- The next piece of the backfill, or the next day. -/
def backfillStep (w : World R ε) (run : BackfillRun) (traffic events : Fetch R ε) (fate : Fate) :
    World R ε :=
  match run.pieces, run.days with
  | [], [] => finishBackfill w run
  | [], day :: days =>
      { w with backfill := some { run with day := day, pieces := piecesOf run.reads day, days := days } }
  | piece :: rest, _ =>
      match fate, fetchBackfill run piece traffic events with
      | .dies, _ => { w with backfill := none }
      | _, .error _ => failBackfill w run piece
      | .refused, .ok _ => { w with backfill := none }
      | .fails, .ok _ => failBackfill w run piece
      | .lands, .ok (h, h') =>
          match landBackfill w.store run piece h h' with
          | none => failBackfill w run piece
          | some store =>
              { w with
                store := store
                backfill := some { run with pieces := rest }
                log := landedBackfill run piece traffic events h h' ++ w.log }

def Action.apply (w : World R ε) : Action R ε → World R ε
  | .passes time => { w with now := w.now + time }
  | .trafficBegins => if w.traffic.isNone then beginTraffic w else w
  | .traffic query fate =>
      match w.traffic with
      | none => w
      | some run => trafficStep w run query fate
  | .trafficDies => { w with traffic := none }
  | .backfillBegins plan start stop reads flowDays =>
      if w.backfill.isNone then beginBackfill w plan start stop reads flowDays else w
  | .backfill ofTraffic ofEvents fate =>
      match w.backfill with
      | none => w
      | some run => backfillStep w run ofTraffic ofEvents fate
  | .backfillDies => { w with backfill := none }

def after (w : World R ε) (actions : List (Action R ε)) : World R ε := actions.foldl Action.apply w

/-- An empty store. -/
def installed (now : Int) : World R ε :=
  ⟨now, ⟨none, none, .empty, [], [], fun _ => none⟩, none, none, [], none⟩

end IllumioOps.Cycles
