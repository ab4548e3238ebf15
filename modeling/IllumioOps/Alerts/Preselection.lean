import IllumioOps.Alerts.EventPatterns
import IllumioOps.Store.Events

/-!
# Counting the events of a window

`_window_matches` of `services.alerts.evaluate` and `events_in_window` of `services.eventsource`: a rule
whose event types are no patterns reads only the events of those types, and counts those it matches. The
events are read with the hosts their senders belong to (`EVENT_FROM`), once for each of them. The count is
the one over all collected events of the window if and only if no event it counts was sent by the VEN of
several hosts (`preselects_iff`).
-/

set_option autoImplicit false

namespace IllumioOps.Alerts.EventWindow

open Migrate (PyError looksLikeRegex)

/-! ## The stored events -/

/-- An event as `normalize_event` leaves it: it has a type, the one its raw JSON names. `loads` is
`json.loads`. -/
structure SentEvent (loads : String → Json) where
  record : EventRecord
  typed : (loads record.rawJson).get "event_type" = .str record.eventType
  named : record.eventType ≠ ""

/-- What changes the table: `upsert_events` and `delete_events_before`. -/
inductive EventChange (loads : String → Json) where
  | stored (events : List (SentEvent loads)) (origin : DataOrigin) (now : Int)
  | expired (cutoff : Int) (archivedDays : Option (Int → Bool))

def EventChange.apply {loads : String → Json} (t : EventTable) : EventChange loads → EventTable
  | .stored events origin now =>
      (events.map SentEvent.record).foldl (fun t r => t.insertOrIgnore r origin (dbTime now)) t
  | .expired cutoff archivedDays => (deleteEventsBefore t cutoff archivedDays).1

/-- The table after a run of changes. -/
def eventsAfterChanges {loads : String → Json} (changes : List (EventChange loads)) : EventTable :=
  changes.foldl EventChange.apply .empty

/-! ## The window -/

/-- `workloads`: the host of a VEN. -/
structure HostRow where
  href : String
  venHref : Option String
  deriving DecidableEq, Repr

/-- An event with the host it is about. -/
structure NewEvent where
  event : EventRow
  hostKey : Option String

/-- `w.ven_href = e.created_by_href` -/
def hostsOf (hosts : List HostRow) (e : EventRow) : List HostRow :=
  hosts.filter fun h => h.venHref.isSome && h.venHref == e.createdByHref

/-- `EVENT_FROM`: the left join with the hosts. -/
def joined (hosts : List HostRow) (e : EventRow) : List NewEvent :=
  match hostsOf hosts e with
  | [] => [⟨e, e.workloadHref⟩]
  | found => found.map fun h => ⟨e, e.workloadHref <|> some h.href⟩

/-- `events_in_window`; what is done with the events does not depend on their order. -/
def eventsInWindow (t : EventTable) (hosts : List HostRow) (start stop : Int)
    (exactTypes : Option (List String)) : List NewEvent :=
  (t.rows.filter fun r => decide (dbTime start < r.timestamp) && decide (r.timestamp ≤ dbTime stop) &&
    decide (r.origin = .ingest) && exactTypes.all fun types => decide (r.eventType ∈ types)).flatMap
      (joined hosts)

variable {α β : Type}

/-- How many are matched; nothing where one of them raises. -/
def countMatches (matched : α → Except PyError Bool) : List α → Option Nat
  | [] => some 0
  | x :: xs =>
      match matched x with
      | .error _ => none
      | .ok found => (countMatches matched xs).map (· + if found then 1 else 0)

variable (re : Re) (loads : String → Json)

/-- `_window_matches` -/
def windowMatches (t : EventTable) (hosts : List HostRow) (rule : EventPatterns) (now : Int) :
    Option Nat :=
  let types := if usesRegex rule then none else some (exactTypes rule)
  countMatches (fun e => eventMatches re rule (loads e.event.rawJson))
    (eventsInWindow t hosts (now - minutes rule.windowMinutes) now types)

/-! ## What is counted -/

/-- A collected event of the window. -/
def inWindow (rule : EventPatterns) (now : Int) (r : EventRow) : Bool :=
  decide (now - minutes rule.windowMinutes < r.timestamp) && decide (r.timestamp ≤ now) &&
    decide (r.origin = .ingest)

/-- The collected events of the window that the rule matches. -/
def collectedMatches (t : EventTable) (rule : EventPatterns) (now : Int) : Option Nat :=
  countMatches (fun e => eventMatches re rule (loads e.rawJson)) (t.rows.filter (inWindow rule now))

/-- The preselection loses nothing: what a rule without a pattern matches is of its types, and the count
through it is the count of all. -/
structure Preselects (t : EventTable) (hosts : List HostRow) (rule : EventPatterns) (now : Int) : Prop
    where
  typed : usesRegex rule = false → ∀ event, eventMatches re rule event = .ok true →
    typeOf re event ∈ exactTypes rule
  counted : windowMatches re loads t hosts rule now = collectedMatches re loads t rule now

/-! ## Types -/

variable {re loads}

theorem splitBars_of_not_hasBar {pattern : String} (h : hasBar pattern = false) :
    splitBars pattern = [pattern] := by
  have hnone : '|' ∉ pattern.toList := by simpa [hasBar] using h
  rw [splitBars, List.splitOn_eq_singleton hnone, List.map_singleton, String.ofList_toList]

/-- A type that is no pattern matches its alternatives. -/
theorem typeMatches_exact {pattern : String} (eventType : String)
    (hexact : (decide (pattern ∈ typeWildcards) || looksLikeRegex pattern) = false) :
    typeMatches re pattern eventType = .ok (decide (eventType ∈ splitBars pattern)) := by
  obtain ⟨hwild, hregex⟩ := Bool.or_eq_false_iff.mp hexact
  have hwild : pattern ∉ typeWildcards := by simpa using hwild
  rw [typeMatches, if_neg hwild, hregex]
  cases hbar : hasBar pattern with
  | true => simp
  | false =>
      rw [splitBars_of_not_hasBar hbar]
      by_cases hsame : pattern = eventType
      · simp [hsame]
      · simp [hsame, Ne.symm hsame]

theorem anyMatches_exact {patterns : List String} (eventType : String)
    (hexact : patterns.any (fun p => p ∈ typeWildcards || looksLikeRegex p) = false) :
    anyMatches (fun p => typeMatches re p eventType) patterns =
      .ok (decide (eventType ∈ patterns.flatMap splitBars)) := by
  induction patterns with
  | nil => rfl
  | cons pattern patterns ih =>
      obtain ⟨hfirst, hrest⟩ := Bool.or_eq_false_iff.mp hexact
      rw [anyMatches, typeMatches_exact eventType hfirst, ih hrest]
      by_cases hfound : eventType ∈ splitBars pattern
      · simp only [hfound, decide_true, List.flatMap_cons, List.mem_append, true_or]
        rfl
      · simp only [hfound, decide_false, List.flatMap_cons, List.mem_append, false_or]
        rfl

/-- A rule without patterns matches events of its types only, and raises over no other. -/
theorem eventMatches_of_untyped {rule : EventPatterns} (hexact : usesRegex rule = false) {event : Json}
    (h : typeOf re event ∉ exactTypes rule) : eventMatches re rule event = .ok false := by
  have htyped : decide (typeOf re event ∈ rule.eventTypes.flatMap splitBars) = false := decide_eq_false h
  rw [eventMatches, anyMatches_exact _ hexact, htyped]
  rfl

/-! ## Counts -/

variable {matched : α → Except PyError Bool} {xs : List α}

/-- Matched, and not raising. -/
def accepts (matched : α → Except PyError Bool) (x : α) : Bool :=
  match matched x with
  | .ok found => found
  | .error _ => false

theorem accepts_iff {x : α} : accepts matched x = true ↔ matched x = .ok true := by
  rw [accepts]
  cases hx : matched x with
  | error e => simp
  | ok found => simp

/-- One of them raises. -/
def Raises (matched : α → Except PyError Bool) (xs : List α) : Prop :=
  ∃ x ∈ xs, ∃ e, matched x = .error e

theorem countMatches_eq_none : countMatches matched xs = none ↔ Raises matched xs := by
  induction xs with
  | nil => simp [countMatches, Raises]
  | cons x xs ih =>
      rw [Raises] at ih
      cases hx : matched x with
      | error e => simp [countMatches, Raises, hx]
      | ok found => simp [countMatches, Raises, hx, ih]

theorem countMatches_of_not_raises (h : ¬ Raises matched xs) :
    countMatches matched xs = some (xs.countP (accepts matched)) := by
  induction xs with
  | nil => rfl
  | cons x xs ih =>
      have hrest : ¬ Raises matched xs := fun ⟨y, hy, hraises⟩ =>
        h ⟨y, List.mem_cons_of_mem _ hy, hraises⟩
      cases hx : matched x with
      | error e => exact absurd ⟨x, List.mem_cons_self, e, hx⟩ h
      | ok found =>
          simp only [countMatches, hx, ih hrest, Option.map_some, List.countP_cons, accepts]

/-- What is left out and not matched is not missed. -/
theorem countMatches_filter {keep : α → Bool}
    (h : ∀ x ∈ xs, keep x = false → matched x = .ok false) :
    countMatches matched (xs.filter keep) = countMatches matched xs := by
  induction xs with
  | nil => rfl
  | cons x xs ih =>
      have hrest := ih fun y hy => h y (List.mem_cons_of_mem _ hy)
      cases hkeep : keep x with
      | true => rw [List.filter_cons_of_pos hkeep, countMatches, countMatches, hrest]
      | false =>
          have hx := h x List.mem_cons_self hkeep
          rw [List.filter_cons_of_neg (by simp [hkeep]), countMatches, hx, hrest]
          simp

/-! ## The join -/

variable {hosts : List HostRow} {e : EventRow}

theorem event_of_mem_joined {n : NewEvent} (h : n ∈ joined hosts e) : n.event = e := by
  rw [joined] at h
  split at h
  · rw [List.mem_singleton.mp h]
  · obtain ⟨host, -, rfl⟩ := List.mem_map.mp h
    rfl

theorem length_joined : (joined hosts e).length = max 1 (hostsOf hosts e).length := by
  rw [joined]
  split
  · rename_i hnone
    simp [hnone]
  · rename_i hsome
    have hpos : 0 < (hostsOf hosts e).length := List.length_pos_iff.mpr hsome
    rw [List.length_map, Nat.max_eq_right hpos]

variable {m : EventRow → Except PyError Bool} {rows : List EventRow}

theorem raises_joined (hosts : List HostRow) :
    Raises (fun n : NewEvent => m n.event) (rows.flatMap (joined hosts)) ↔ Raises m rows := by
  constructor
  · rintro ⟨n, hn, err, hraises⟩
    obtain ⟨e, he, hjoined⟩ := List.mem_flatMap.mp hn
    have hsame := event_of_mem_joined hjoined
    exact ⟨e, he, err, hsame ▸ hraises⟩
  · rintro ⟨e, he, err, hraises⟩
    have hpos : 0 < (joined hosts e).length := by
      rw [length_joined]
      exact Nat.lt_of_lt_of_le Nat.zero_lt_one (Nat.le_max_left _ _)
    obtain ⟨n, hn⟩ := List.exists_mem_of_length_pos hpos
    have hsame : m n.event = .error err := by rw [event_of_mem_joined hn, hraises]
    exact ⟨n, List.mem_flatMap.mpr ⟨e, he, hn⟩, err, hsame⟩

theorem countP_joined : (joined hosts e).countP (accepts fun n : NewEvent => m n.event) =
    if accepts m e then max 1 (hostsOf hosts e).length else 0 := by
  have hsame : ∀ n ∈ joined hosts e, accepts (fun n : NewEvent => m n.event) n = accepts m e := by
    intro n hn
    rw [accepts, accepts, event_of_mem_joined hn]
  by_cases he : accepts m e = true
  · rw [if_pos he, ← length_joined, List.countP_eq_length]
    exact fun n hn => (hsame n hn).trans he
  · rw [if_neg he, List.countP_eq_zero]
    intro n hn
    rw [hsame n hn]
    exact he

/-- Each event that is matched is counted at least once, and once only where it has one host at most. -/
theorem countP_flatMap_joined :
    rows.countP (accepts m) ≤
        (rows.flatMap (joined hosts)).countP (accepts fun n : NewEvent => m n.event) ∧
      ((rows.flatMap (joined hosts)).countP (accepts fun n : NewEvent => m n.event) =
          rows.countP (accepts m) ↔
        ∀ e ∈ rows, accepts m e = true → (hostsOf hosts e).length ≤ 1) := by
  induction rows with
  | nil => simp
  | cons e rows ih =>
      obtain ⟨hle, hiff⟩ := ih
      simp only [List.flatMap_cons, List.countP_append, countP_joined, List.countP_cons,
        List.forall_mem_cons, ← hiff]
      by_cases he : accepts m e = true
      · simp only [he, if_true, forall_const]
        omega
      · simp only [he, if_false, Bool.false_eq_true, false_implies, true_and]
        omega

/-- The count over the join is the one over the events, if and only if none raises or no event that is
matched has several hosts. -/
theorem countMatches_joined_iff :
    countMatches (fun n : NewEvent => m n.event) (rows.flatMap (joined hosts)) = countMatches m rows ↔
      Raises m rows ∨ ∀ e ∈ rows, m e = .ok true → (hostsOf hosts e).length ≤ 1 := by
  by_cases hraises : Raises m rows
  · have hnone := countMatches_eq_none.mpr hraises
    have hnone' := countMatches_eq_none.mpr ((raises_joined hosts).mpr hraises)
    rw [hnone, hnone']
    exact ⟨fun _ => .inl hraises, fun _ => rfl⟩
  · have hcount := countMatches_of_not_raises hraises
    have hcount' := countMatches_of_not_raises (mt (raises_joined hosts).mp hraises)
    rw [hcount, hcount', Option.some_inj, countP_flatMap_joined.2]
    simp only [accepts_iff, hraises, false_or]

/-! ## The stored events are as they were sent -/

/-- A row's type is the one its raw JSON names, and its time is one the store can hold. -/
structure AsSent (loads : String → Json) (r : EventRow) : Prop where
  typed : (loads r.rawJson).get "event_type" = .str r.eventType
  named : r.eventType ≠ ""
  time : dbTime r.timestamp = r.timestamp

theorem asSent_row (e : SentEvent loads) (id : Nat) (origin : DataOrigin) (stamp : Int) :
    AsSent loads (e.record.row id origin stamp) :=
  ⟨e.typed, e.named, dbTime_dbTime _⟩

theorem asSent_stored {t : EventTable} (h : ∀ r ∈ t.rows, AsSent loads r)
    (events : List (SentEvent loads)) (origin : DataOrigin) (now : Int) :
    ∀ r ∈ (EventChange.apply t (.stored events origin now)).rows, AsSent loads r := by
  simp only [EventChange.apply]
  induction events generalizing t with
  | nil => exact h
  | cons e events ih =>
      refine ih fun r hr => ?_
      rcases EventTable.mem_insertOrIgnore.mp hr with hr | ⟨-, rfl⟩
      · exact h r hr
      · exact asSent_row e _ _ _

theorem asSent_eventsAfterChanges (changes : List (EventChange loads)) :
    ∀ r ∈ (eventsAfterChanges changes).rows, AsSent loads r := by
  have hrun (t : EventTable) (h : ∀ r ∈ t.rows, AsSent loads r) :
      ∀ r ∈ (changes.foldl EventChange.apply t).rows, AsSent loads r := by
    induction changes generalizing t with
    | nil => exact h
    | cons change changes ih =>
        refine ih _ ?_
        cases change with
        | stored events origin now => exact asSent_stored h events origin now
        | expired cutoff archivedDays => exact fun r hr => h r (List.mem_of_mem_filter hr)
  exact hrun .empty fun r hr => absurd hr List.not_mem_nil

/-- At the times the store can hold, a bound and its stored text are the same. -/
theorem dbTime_lt_iff {start t : Int} (h : dbTime t = t) : dbTime start < t ↔ start < t := by
  constructor
  · intro hlt
    by_contra hnot
    have hmono := dbTime_mono (Int.not_lt.mp hnot)
    rw [h] at hmono
    exact absurd hlt (Int.not_lt.mpr hmono)
  · exact fun hlt => Int.lt_of_le_of_lt (dbTime_le start) hlt

theorem le_dbTime_iff {stop t : Int} (h : dbTime t = t) : t ≤ dbTime stop ↔ t ≤ stop := by
  constructor
  · exact fun hle => hle.trans (dbTime_le stop)
  · intro hle
    have hmono := dbTime_mono hle
    rwa [h] at hmono

/-! ## The preselection -/

/-- Whether an event is of the types asked for. -/
def ofTypes (exactTypes : Option (List String)) (r : EventRow) : Bool :=
  exactTypes.all fun types => decide (r.eventType ∈ types)

theorem eventsInWindow_eq {t : EventTable} (ht : ∀ r ∈ t.rows, AsSent loads r) (rule : EventPatterns)
    (now : Int) (types : Option (List String)) :
    eventsInWindow t hosts (now - minutes rule.windowMinutes) now types =
      ((t.rows.filter (inWindow rule now)).filter (ofTypes types)).flatMap (joined hosts) := by
  rw [eventsInWindow, List.filter_filter]
  refine congrArg (fun rows => List.flatMap (joined hosts) rows) (List.filter_congr fun r hr => ?_)
  have htime := (ht r hr).time
  simp only [dbTime_lt_iff htime, le_dbTime_iff htime, inWindow, ofTypes]
  rw [Bool.and_comm (Option.all _ types)]

theorem typeOf_row {r : EventRow} (h : AsSent loads r) : typeOf re (loads r.rawJson) = r.eventType := by
  rw [typeOf, h.typed, Migrate.textOr, Migrate.str]
  have htruthy : (Json.str r.eventType).truthy = true := by simpa [Json.truthy] using h.named
  rw [if_pos htruthy]

/-- What is not read would not be matched. -/
theorem unmatched_of_not_ofTypes {rule : EventPatterns} {r : EventRow} (h : AsSent loads r)
    (hnot : ofTypes (if usesRegex rule then none else some (exactTypes rule)) r = false) :
    eventMatches re rule (loads r.rawJson) = .ok false := by
  cases hregex : usesRegex rule with
  | true => simp [ofTypes, hregex] at hnot
  | false =>
      apply eventMatches_of_untyped hregex
      rw [typeOf_row h]
      simpa [ofTypes, hregex] using hnot

/-- The preselection loses nothing if and only if matching raises over an event of the window, or none of
those it matches was sent by the VEN of several hosts. -/
theorem preselects_iff (re : Re) (loads : String → Json) (changes : List (EventChange loads))
    (hosts : List HostRow) (rule : EventPatterns) (now : Int) :
    Preselects re loads (eventsAfterChanges changes) hosts rule now ↔
      Raises (fun e : EventRow => eventMatches re rule (loads e.rawJson))
          ((eventsAfterChanges changes).rows.filter (inWindow rule now)) ∨
        ∀ e ∈ (eventsAfterChanges changes).rows.filter (inWindow rule now),
          eventMatches re rule (loads e.rawJson) = .ok true → (hostsOf hosts e).length ≤ 1 := by
  have hsent := asSent_eventsAfterChanges changes
  generalize eventsAfterChanges changes = t at hsent ⊢
  let types := if usesRegex rule then none else some (exactTypes rule)
  let m := fun e : EventRow => eventMatches re rule (loads e.rawJson)
  have hunmatched : ∀ r ∈ t.rows.filter (inWindow rule now), ofTypes types r = false → m r = .ok false :=
    fun r hr hnot => unmatched_of_not_ofTypes (hsent r (List.mem_of_mem_filter hr)) hnot
  have hfilter := countMatches_filter hunmatched
  have hcounted : windowMatches re loads t hosts rule now = collectedMatches re loads t rule now ↔
      Raises m ((t.rows.filter (inWindow rule now)).filter (ofTypes types)) ∨
        ∀ e ∈ (t.rows.filter (inWindow rule now)).filter (ofTypes types), m e = .ok true →
          (hostsOf hosts e).length ≤ 1 := by
    rw [windowMatches, eventsInWindow_eq hsent, collectedMatches, ← hfilter]
    exact countMatches_joined_iff (m := m)
  -- what is not read neither raises nor is matched, so it may be put back
  have hraises : Raises m ((t.rows.filter (inWindow rule now)).filter (ofTypes types)) ↔
      Raises m (t.rows.filter (inWindow rule now)) := by
    rw [← countMatches_eq_none, ← countMatches_eq_none, hfilter]
  have hmatched : (∀ e ∈ (t.rows.filter (inWindow rule now)).filter (ofTypes types), m e = .ok true →
        (hostsOf hosts e).length ≤ 1) ↔
      ∀ e ∈ t.rows.filter (inWindow rule now), m e = .ok true → (hostsOf hosts e).length ≤ 1 := by
    constructor
    · intro h e he htrue
      refine h e (List.mem_filter.mpr ⟨he, Bool.of_not_eq_false fun hnot => ?_⟩) htrue
      rw [hunmatched e he hnot] at htrue
      exact absurd htrue (by simp)
    · exact fun h e he htrue => h e (List.mem_of_mem_filter he) htrue
  rw [hraises, hmatched] at hcounted
  constructor
  · exact fun h => hcounted.mp h.counted
  · refine fun h => ⟨fun hexact event htrue => ?_, hcounted.mpr h⟩
    by_contra hnot
    rw [eventMatches_of_untyped hexact hnot] at htrue
    exact absurd htrue (by simp)

/-! ### Two hosts with one VEN -/

def tamperingRaw : Json := .obj [("event_type", .str "agent.tampering"), ("severity", .str "err")]

/-- The store holds a single event. -/
def tamperingLoads : String → Json := fun _ => tamperingRaw

def tamperingEvent : SentEvent tamperingLoads where
  record := ⟨"/orgs/1/events/1", "agent.tampering", some "err", none, minutes 1, some "ven", some "db1",
    some "/orgs/1/vens/1", none, none, ""⟩
  typed := rfl
  named := by decide

def pairedTwice : List HostRow :=
  [⟨"/orgs/1/workloads/1", some "/orgs/1/vens/1"⟩, ⟨"/orgs/1/workloads/2", some "/orgs/1/vens/1"⟩]

def tamperingRule : EventPatterns := ⟨["agent.tampering"], "all", "all", [], 10⟩

def tamperingRe : Re := onePattern "agent.*" ⟨[], Text.literal "agent" ++ [Text.manyOf (· != '\n')]⟩

/-- One event is counted twice. -/
theorem counts_twice :
    windowMatches tamperingRe tamperingLoads
        (eventsAfterChanges [.stored [tamperingEvent] .ingest (minutes 2)]) pairedTwice tamperingRule
        (minutes 2) = some 2 ∧
      ¬ Preselects tamperingRe tamperingLoads
        (eventsAfterChanges [.stored [tamperingEvent] .ingest (minutes 2)]) pairedTwice tamperingRule
        (minutes 2) := by
  have hcount : windowMatches tamperingRe tamperingLoads
      (eventsAfterChanges [.stored [tamperingEvent] .ingest (minutes 2)]) pairedTwice tamperingRule
      (minutes 2) = some 2 := by decide +kernel
  have hcollected : collectedMatches tamperingRe tamperingLoads
      (eventsAfterChanges [.stored [tamperingEvent] .ingest (minutes 2)]) tamperingRule
      (minutes 2) = some 1 := by decide +kernel
  refine ⟨hcount, fun h => ?_⟩
  have hsame := h.counted
  rw [hcount, hcollected] at hsame
  exact absurd hsame (by decide)

end IllumioOps.Alerts.EventWindow
