import IllumioOps.Alerts.Events
import IllumioOps.Tables.Pages

/-!
# Every event is taken into account once

Over every sequence of evaluations, each failing or stopped anywhere, while the collector stores
events between any two steps: a batch is recorded together with its watermark or not at all, and
every collected event beyond the starting watermark and up to the current one is in exactly one
committed batch. A time floor leaves out the older events that were stored before it was read
only as long as the run that starts with it reads all of them (`events_taken_once`): a batch that
fails after another was committed loses the floor (`floor_lost`).
-/

set_option autoImplicit false

namespace IllumioOps.Alerts

open Programs

/-! ## What the collector does -/

inductive StoreChange where
  | ingest (records : List EventRecord) (origin : DataOrigin) (now : Int)
  | collected

def StoreChange.apply (s : EventStore) : StoreChange → EventStore
  | .ingest records origin now => s.ingest records origin now
  | .collected => { s with collected := true }

/-- Nobody but the collector does anything. -/
def Collects (a : Answer EventStore) : Prop :=
  ∃ changes : List StoreChange,
    a.others = fun w => { w with flow := changes.foldl StoreChange.apply w.flow }

/-- Rows were added, with ids above those given before. -/
structure Grows (s s' : EventStore) : Prop where
  rows : ∃ added, s'.events.rows = s.events.rows ++ added ∧
    ∀ r ∈ added, s.events.sequence < r.id
  sequence : s.events.sequence ≤ s'.events.sequence

section Growth

variable {s s' s'' : EventStore}

theorem Grows.refl (s : EventStore) : Grows s s :=
  ⟨⟨[], by simp, fun r hr => absurd hr List.not_mem_nil⟩, Nat.le_refl _⟩

theorem Grows.trans (h : Grows s s') (h' : Grows s' s'') : Grows s s'' := by
  obtain ⟨added, hadded, hids⟩ := h.rows
  obtain ⟨added', hadded', hids'⟩ := h'.rows
  refine ⟨⟨added ++ added', by rw [hadded', hadded, List.append_assoc], ?_⟩,
    Nat.le_trans h.sequence h'.sequence⟩
  intro r hr
  rcases List.mem_append.1 hr with hr | hr
  · exact hids r hr
  · exact Nat.lt_of_le_of_lt h.sequence (hids' r hr)

theorem Grows.mem (h : Grows s s') {r : EventRow} (hr : r ∈ s.events.rows) :
    r ∈ s'.events.rows := by
  obtain ⟨added, hadded, -⟩ := h.rows
  rw [hadded]
  exact List.mem_append_left _ hr

/-- The rows up to an id that was given before are the same. -/
theorem Grows.filter (h : Grows s s') {hi : Nat} (hhi : hi ≤ s.events.sequence)
    (p : EventRow → Bool) :
    (s'.events.rows.filter fun r => p r && decide (r.id ≤ hi)) =
      s.events.rows.filter fun r => p r && decide (r.id ≤ hi) := by
  obtain ⟨added, hadded, hids⟩ := h.rows
  have hnone : (added.filter fun r => p r && decide (r.id ≤ hi)) = [] := by
    refine List.filter_eq_nil_iff.2 fun r hr hp => ?_
    simp only [Bool.and_eq_true, decide_eq_true_eq] at hp
    have hlt := hids r hr
    omega
  rw [hadded, List.filter_append, hnone, List.append_nil]

theorem grows_insertOrIgnore {t : EventTable} {records : List EventRecord} {origin : DataOrigin}
    {stamp : Int} :
    let stored := records.foldl (fun t r => t.insertOrIgnore r origin stamp) t
    (∃ added, stored.rows = t.rows ++ added ∧ ∀ r ∈ added, t.sequence < r.id) ∧
      t.sequence ≤ stored.sequence := by
  induction records generalizing t with
  | nil => exact ⟨⟨[], by simp, fun r hr => absurd hr List.not_mem_nil⟩, Nat.le_refl _⟩
  | cons record records ih =>
      obtain ⟨⟨added, hadded, hids⟩, hsequence⟩ := ih (t := t.insertOrIgnore record origin stamp)
      simp only [List.foldl_cons]
      by_cases hmem : record.href ∈ t.hrefs
      · have hsame : t.insertOrIgnore record origin stamp = t := dif_pos hmem
        rw [hsame] at hadded hids hsequence ⊢
        exact ⟨⟨added, hadded, hids⟩, hsequence⟩
      · have hrows : (t.insertOrIgnore record origin stamp).rows =
            t.rows ++ [record.row (t.sequence + 1) origin stamp] := by
          simp [EventTable.insertOrIgnore, hmem]
        have hnext : (t.insertOrIgnore record origin stamp).sequence = t.sequence + 1 := by
          simp [EventTable.insertOrIgnore, hmem]
        rw [hrows] at hadded
        rw [hnext] at hids hsequence
        refine ⟨⟨record.row (t.sequence + 1) origin stamp :: added, by simpa using hadded, ?_⟩,
          by omega⟩
        intro r hr
        rcases List.mem_cons.1 hr with rfl | hr
        · exact Nat.lt_succ_self _
        · have hlt := hids r hr
          omega

theorem grows_apply (s : EventStore) (c : StoreChange) : Grows s (StoreChange.apply s c) := by
  cases c with
  | ingest records origin now => exact ⟨grows_insertOrIgnore.1, grows_insertOrIgnore.2⟩
  | collected => exact ⟨(Grows.refl s).rows, Nat.le_refl _⟩

theorem grows_foldl (changes : List StoreChange) (s : EventStore) :
    Grows s (changes.foldl StoreChange.apply s) := by
  induction changes generalizing s with
  | nil => exact Grows.refl s
  | cons c changes ih => exact (grows_apply s c).trans (ih _)

end Growth

/-- Events were stored, and nothing else changed. -/
structure Later (w w' : EventState) : Prop where
  pce : w'.world.pce = w.world.pce
  app : w'.world.app = w.world.app
  batches : w'.batches = w.batches
  flow : Grows w.world.flow w'.world.flow

theorem Collects.later {a : Answer EventStore} (ha : Collects a) (w : EventState) :
    Later w (w.after a) := by
  obtain ⟨changes, ha⟩ := ha
  simp only [State.after, ha]
  exact ⟨rfl, rfl, rfl, grows_foldl changes _⟩

/-! ## All or nothing -/

/-- The watermark of the events. -/
def eventMark (w : EventState) : Option Watermark :=
  w.world.app.evalWatermark .events w.world.pce

/-- A step: events were stored, and then nothing was written, or a whole batch, its alerts and
rule states with the watermark, or the first watermark. -/
def AllOrNothing (w w' : EventState) : Prop :=
  ∃ w1, Later w w1 ∧ (w' = w1 ∨
    (∃ (r : Recorder) (last : Nat) (facts : List EventRow),
      r.pce = w1.world.pce ∧ w' = w1.committed facts (r.change .events (some (.id last)))) ∨
    eventMark w1 = none ∧ ∃ n, w' = { w1 with world := { w1.world with
      app := w1.world.app.setEvalWatermark .events w1.world.pce (.id n) } })

/-! ## The events between two ids -/

namespace EventStore

/-- The collected events after an id. -/
def collectedAfter (s : EventStore) (lo : Nat) : List EventRow :=
  s.events.rows.filter fun r => decide (lo < r.id) && decide (r.origin = .ingest)

/-- Those that are kept, up to another one. -/
def between (s : EventStore) (keep : EventRow → Bool) (lo hi : Nat) : List EventRow :=
  s.events.rows.filter fun r =>
    (decide (lo < r.id) && decide (r.origin = .ingest) && keep r) && decide (r.id ≤ hi)

variable {s s' : EventStore} {keep keep' : EventRow → Bool} {lo after hi limit : Nat}
  {rows : List EventRow} {more : Bool} {last e : EventRow}

theorem mem_between : e ∈ s.between keep lo hi ↔
    e ∈ s.events.rows ∧ lo < e.id ∧ e.origin = .ingest ∧ keep e = true ∧ e.id ≤ hi := by
  simp [between, and_assoc]

theorem between_self (s : EventStore) (keep : EventRow → Bool) (lo : Nat) :
    s.between keep lo lo = [] := by
  refine List.filter_eq_nil_iff.2 fun r _ hr => ?_
  simp only [Bool.and_eq_true, decide_eq_true_eq] at hr
  omega

theorem between_congr (h : ∀ r : EventRow, r.id ≤ hi → keep r = keep' r) :
    s.between keep lo hi = s.between keep' lo hi := by
  refine List.filter_congr fun r _ => ?_
  by_cases hr : r.id ≤ hi
  · rw [h r hr]
  · simp [hr]

theorem nodup_between : (s.between keep lo hi).Nodup := by
  have hnodup : s.events.rows.Nodup := s.ordered.imp fun {a b} hab heq => by
    rw [heq] at hab
    exact Nat.lt_irrefl _ hab
  exact hnodup.sublist List.filter_sublist

theorem between_grows (h : Grows s s') (hhi : hi ≤ s.events.sequence) :
    s'.between keep lo hi = s.between keep lo hi :=
  h.filter hhi _

theorem ordered_collectedAfter (s : EventStore) (lo : Nat) :
    Pages.Ordered EventRow.id (s.collectedAfter lo) :=
  Pages.Ordered.filter s.ordered _

/-- A page is the first of the events after the id. -/
theorem eventsAfter_eq (s : EventStore) (after limit : Nat) :
    s.eventsAfter after limit =
      ((s.collectedAfter after).take limit, decide (limit < (s.collectedAfter after).length)) := by
  refine Prod.ext ?_ ?_
  · exact (List.take_take ..).trans (congrArg (fun n => List.take n (s.collectedAfter after))
      (Nat.min_eq_left (Nat.le_succ limit)))
  · have hmore : limit < ((s.collectedAfter after).take (limit + 1)).length ↔
        limit < (s.collectedAfter after).length := by
      rw [List.length_take]
      omega
    exact decide_eq_decide.2 hmore

theorem page_last (hlast : ((s.collectedAfter after).take limit).getLast? = some last) :
    after < last.id ∧ last.id ≤ s.events.sequence := by
  have hmem := List.mem_of_mem_take (List.mem_of_getLast? hlast)
  have hrow := List.mem_filter.1 hmem
  simp only [Bool.and_eq_true, decide_eq_true_eq] at hrow
  exact ⟨hrow.2.1, s.bounded last hrow.1⟩

/-- What a page adds to the events taken so far. -/
theorem between_append (hlo : lo ≤ after)
    (hkeep : ∀ r : EventRow, after < r.id → keep r = keep' r)
    (hlast : ((s.collectedAfter after).take limit).getLast? = some last) :
    s.between keep lo after ++ ((s.collectedAfter after).take limit).filter keep' =
      s.between keep lo last.id := by
  have hordered : Pages.Ordered EventRow.id (s.events.rows.filter fun r =>
      decide (lo < r.id) && decide (r.origin = .ingest) && keep r) :=
    Pages.Ordered.filter s.ordered _
  have hle := Nat.le_of_lt (page_last hlast).1
  have happend := Pages.filter_le_append hordered hle
  simp only [List.filter_filter] at happend
  have hpage : ((s.collectedAfter after).take limit).filter keep' =
      s.events.rows.filter fun r => (decide (after < r.id) && decide (r.id ≤ last.id)) &&
        (decide (lo < r.id) && decide (r.origin = .ingest) && keep r) := by
    rw [Pages.take_eq_filter (s.ordered_collectedAfter after) hlast, collectedAfter,
      List.filter_filter, List.filter_filter]
    refine List.filter_congr fun r _ => ?_
    by_cases hafter : after < r.id
    · have hlt : lo < r.id := Nat.lt_of_le_of_lt hlo hafter
      simp only [hkeep r hafter, hafter, hlt, decide_true, Bool.true_and]
      ac_rfl
    · simp [hafter]
  simp only [between]
  rw [hpage]
  simpa only [Bool.and_comm] using happend

/-- How many of the collected events are after an id. -/
def remaining (s : EventStore) (id : Nat) : Nat := (s.collectedAfter id).length

theorem remaining_mono (h : lo ≤ hi) : s.remaining hi ≤ s.remaining lo := by
  refine List.Sublist.length_le (List.monotone_filter_right _ fun r hr => ?_)
  simp only [Bool.and_eq_true, decide_eq_true_eq] at hr ⊢
  exact ⟨Nat.lt_of_le_of_lt h hr.1, hr.2⟩

theorem le_of_remaining (h : s.remaining hi = 0) (he : e ∈ s.events.rows)
    (horigin : e.origin = .ingest) : e.id ≤ hi := by
  by_contra hlt
  have hmem : e ∈ s.collectedAfter hi := by simp [collectedAfter, he, horigin]; omega
  rw [remaining, List.length_eq_zero_iff] at h
  exact absurd (h ▸ hmem) List.not_mem_nil

/-- A page takes its share of the events that were there before. -/
theorem remaining_page (h : Grows s s')
    (hlast : ((s'.collectedAfter after).take limit).getLast? = some last) :
    s.remaining last.id ≤ s.remaining after - limit := by
  obtain ⟨added, hadded, -⟩ := h.rows
  have hsplit : s'.collectedAfter after = s.collectedAfter after ++ added.filter fun r =>
      decide (after < r.id) && decide (r.origin = .ingest) := by
    rw [collectedAfter, hadded, List.filter_append]
    rfl
  have hordered := s'.ordered_collectedAfter after
  have hle := page_last hlast
  rw [hsplit] at hordered hlast
  have hshare := Pages.length_filter_gt_le hordered hlast
  refine Nat.le_trans (Nat.le_of_eq ?_) hshare
  rw [remaining, collectedAfter, collectedAfter, List.filter_filter]
  refine congrArg List.length (List.filter_congr fun r _ => ?_)
  by_cases hr : last.id < r.id
  · have hafter : after < r.id := Nat.lt_trans hle.1 hr
    simp [hr, hafter]
  · simp [hr]

/-- Nothing is left when a page is empty. -/
theorem remaining_empty (h : Grows s s') (hlimit : 0 < limit)
    (hlast : ((s'.collectedAfter after).take limit).getLast? = none) : s.remaining after = 0 := by
  obtain ⟨added, hadded, -⟩ := h.rows
  have hnone : s'.collectedAfter after = [] := by
    have htake := List.getLast?_eq_none_iff.1 hlast
    rcases List.take_eq_nil_iff.1 htake with hzero | hnil
    · omega
    · exact hnil
  rw [remaining, List.length_eq_zero_iff]
  rw [collectedAfter, hadded, List.filter_append] at hnone
  exact (List.append_eq_nil_iff.1 hnone).1

end EventStore

/-! ## A run -/

/-- Since the base, the batches took the kept events between two ids; the watermark is `mk`. -/
structure Taking (base : EventState) (keep : EventRow → Bool) (lo hi : Nat) (mk : Watermark)
    (w : EventState) : Prop where
  pce : w.world.pce = base.world.pce
  flow : Grows base.world.flow w.world.flow
  mark : eventMark w = some mk
  bounded : hi ≤ w.world.flow.events.sequence
  taken : ∃ more, w.batches = base.batches ++ more ∧
    more.flatten = w.world.flow.between keep lo hi

section Run

variable {base w w' : EventState} {keep : EventRow → Bool} {lo hi after : Nat} {mk : Watermark}
  {s0 : EventStore} {q : EventRun}

theorem Taking.later (h : Taking base keep lo hi mk w) (hlater : Later w w') :
    Taking base keep lo hi mk w' := by
  obtain ⟨more, hbatches, hflatten⟩ := h.taken
  refine ⟨hlater.pce.trans h.pce, h.flow.trans hlater.flow, ?_,
    Nat.le_trans h.bounded hlater.flow.sequence, more, hlater.batches.trans hbatches, ?_⟩
  · rw [eventMark, hlater.app, hlater.pce]
    exact h.mark
  · rw [hflatten, EventStore.between_grows hlater.flow h.bounded]

/-- A run that read from `after` under the watermark `mk` has got to `m`. Once it committed, few
events that the store `s0` held are all behind it. -/
structure Passed (base : EventState) (keep : EventRow → Bool) (lo after : Nat) (mk : Watermark)
    (s0 : EventStore) (m : Nat) (mk' : Watermark) (w : EventState) : Prop where
  taking : Taking base keep lo m mk' w
  le : after ≤ m
  mark : mk' = .id m ∨ mk' = mk ∧ m = after
  share : s0.remaining after ≤ eventBatch → mk' ≠ mk → s0.remaining m = 0

/-- The relation of the steps of a run. -/
def RunStep (base : EventState) (keep : EventRow → Bool) (lo after : Nat) (mk : Watermark)
    (s0 : EventStore) (w w' : EventState) : Prop :=
  AllOrNothing w w' ∧ ∃ m mk', Passed base keep lo after mk s0 m mk' w'

/-- Where a run, or what is left of it, starts. -/
structure From (base : EventState) (keep : EventRow → Bool) (lo after : Nat) (mk : Watermark)
    (s0 : EventStore) (w : EventState) : Prop where
  taking : Taking base keep lo after mk w
  store : Grows s0 w.world.flow

theorem From.later (h : From base keep lo after mk s0 w) (hlater : Later w w') :
    From base keep lo after mk s0 w' :=
  ⟨h.taking.later hlater, h.store.trans hlater.flow⟩

theorem From.passed (h : From base keep lo after mk s0 w) :
    Passed base keep lo after mk s0 after mk w :=
  ⟨h.taking, Nat.le_refl _, Or.inr ⟨rfl, rfl⟩, fun _ hne => absurd rfl hne⟩

/-- What is known where a run starts, and stays true as events are stored, is stable. -/
theorem stable_of_later {K : EventState → Prop}
    (hfrom : ∀ w, K w → From base keep lo after mk s0 w)
    (hlater : ∀ w w', K w → Later w w' → K w') :
    Stable Collects (RunStep base keep lo after mk s0) K := by
  intro w a ha hw
  have hstep := ha.later w
  have hk := hlater w _ hw hstep
  exact ⟨⟨⟨_, hstep, Or.inl rfl⟩, after, mk, (hfrom _ hk).passed⟩, hk⟩

theorem safe_recordRules {K : EventState → Prop} {ok : Answer EventStore → Prop}
    {R : EventState → EventState → Prop} (hstable : Stable ok R K) (facts : List EventRow)
    (rules : List EventRule) (r : Recorder) :
    Program.Safe ok R K (recordRules q facts rules r) fun found w =>
      K w ∧ ∀ r', found = .ok r' → r'.pce = r.pce := by
  induction rules generalizing r with
  | nil =>
      refine Program.safe_pure fun w hw => ⟨hw, fun r' hr => ?_⟩
      rw [Except.ok.inj hr]
  | cons rule rules ih =>
      rw [recordRules]
      simp only
      split
      · exact ih r
      · have hcount : Program.Safe ok R K (windowMatches q rule) fun _ => K := by
          rw [windowMatches.eq_def]
          split
          · exact Program.safe_pure fun w hw => hw
          · exact Program.safe_weaken (safe_look hstable _) (fun _ h => h) fun _ _ h => h.1
        refine Program.safe_bind hcount ?_
        rintro (e | count)
        · exact Program.safe_pure fun w hw => ⟨hw, fun r' hr => absurd hr (by simp)⟩
        · refine Program.safe_bind (safe_look hstable _) ?_
          rintro (e | hosts)
          · exact Program.safe_pure fun w hw => ⟨hw.1, fun r' hr => absurd hr (by simp)⟩
          · refine Program.safe_weaken (ih _) (fun w hw => hw.1) fun found w hw => ⟨hw.1, ?_⟩
            intro r' hr
            rw [hw.2 r' hr, Recorder.record]
            split <;> rfl

/-- A page was read and evaluated: its events come next. -/
structure Read (base : EventState) (keep : EventRow → Bool) (lo after : Nat) (mk : Watermark)
    (s0 : EventStore) (facts : List EventRow) (last : Nat) (w : EventState) : Prop where
  start : From base keep lo after mk s0 w
  bounded : last ≤ w.world.flow.events.sequence
  next : w.world.flow.between keep lo after ++ facts = w.world.flow.between keep lo last

theorem Read.later {facts : List EventRow} {last : Nat}
    (h : Read base keep lo after mk s0 facts last w) (hlater : Later w w') :
    Read base keep lo after mk s0 facts last w' := by
  refine ⟨h.start.later hlater, Nat.le_trans h.bounded hlater.flow.sequence, ?_⟩
  rw [EventStore.between_grows hlater.flow h.start.taking.bounded,
    EventStore.between_grows hlater.flow h.bounded]
  exact h.next

/-- The commit of a batch moves the watermark to the last id of its page. -/
theorem Read.committed {facts : List EventRow} {last : Nat} {r : Recorder}
    (h : Read base keep lo after mk s0 facts last w) (hpce : r.pce = base.world.pce) :
    From base keep lo last (.id last) s0
      (w.committed facts (r.change .events (some (.id last)))) := by
  obtain ⟨more, hbatches, hflatten⟩ := h.start.taking.taken
  refine ⟨⟨h.start.taking.pce, h.start.taking.flow, ?_, h.bounded, more ++ [facts], ?_, ?_⟩,
    h.start.store⟩
  · have hw : w.world.pce = r.pce := h.start.taking.pce.trans hpce.symm
    rw [eventMark, State.committed, hw]
    exact evalWatermark_change _
  · rw [State.committed, hbatches, List.append_assoc]
  · simp only [State.committed, List.flatten_append, hflatten, List.flatten_cons,
      List.flatten_nil, List.append_nil]
    exact h.next

/-- What a page that was read comes to: it takes its share of the events of `s0`, and the last
one leaves none. -/
theorem From.page (h : From base keep lo after mk s0 w) {rows : List EventRow} {more : Bool}
    {last : EventRow} {floor : Option Int}
    (hpage : (rows, more) = w.world.flow.eventsAfter after eventBatch)
    (hlast : rows.getLast? = some last) (hlo : lo ≤ after)
    (hkeep : ∀ r : EventRow, after < r.id →
      keep r = floor.all fun t => decide (t < r.timestamp)) :
    (after < last.id ∧ s0.remaining last.id ≤ s0.remaining after - eventBatch ∧
        (more = false → s0.remaining last.id = 0)) ∧
      Read base keep lo after mk s0
        (rows.filter fun e => floor.all fun t => decide (t < e.timestamp)) last.id w := by
  rw [EventStore.eventsAfter_eq] at hpage
  obtain ⟨rfl, hmore⟩ := Prod.mk.inj hpage
  have hshare := EventStore.remaining_page h.store hlast
  refine ⟨⟨(EventStore.page_last hlast).1, hshare, fun hnone => ?_⟩, h,
    (EventStore.page_last hlast).2, EventStore.between_append hlo hkeep hlast⟩
  have hall : (w.world.flow.collectedAfter after).length ≤ eventBatch := by
    have hle := of_decide_eq_false (hmore.symm.trans hnone)
    omega
  have hless : s0.remaining after ≤ (w.world.flow.collectedAfter after).length := by
    obtain ⟨added, hadded, -⟩ := h.store.rows
    rw [EventStore.remaining, EventStore.collectedAfter, EventStore.collectedAfter, hadded,
      List.filter_append, List.length_append]
    omega
  omega

theorem Passed.of_next {m last : Nat} {mk' : Watermark}
    (h : Passed base keep lo last (.id last) s0 m mk' w) (hle : after ≤ last)
    (hshare : s0.remaining last ≤ s0.remaining after - eventBatch) :
    Passed base keep lo after mk s0 m mk' w := by
  refine ⟨h.taking, Nat.le_trans hle h.le, Or.inl ?_, fun hfew _ => ?_⟩
  · rcases h.mark with hmark | ⟨hmark, rfl⟩
    · exact hmark
    · exact hmark
  · have hmono := EventStore.remaining_mono (s := s0) h.le
    omega

theorem safe_evaluateBatches {pce : Pce} (hpce : pce = base.world.pce) {generation : Nat}
    {floor : Option Int} (n : Nat) (run : EvalRun) (hlo : lo ≤ after)
    (hkeep : ∀ r : EventRow, after < r.id →
      keep r = floor.all fun t => decide (t < r.timestamp)) :
    Program.Safe Collects (RunStep base keep lo after mk s0) (From base keep lo after mk s0)
      (evaluateBatches q pce generation floor n after run) fun r w =>
        ∃ m mk', Passed base keep lo after mk s0 m mk' w ∧
          ∀ x, r = .ok x → s0.remaining after ≤ n * eventBatch → s0.remaining m = 0 := by
  induction n generalizing after mk run with
  | zero =>
      refine Program.safe_pure fun w hw => ⟨after, mk, hw.passed, fun x _ hfew => ?_⟩
      omega
  | succ n ih =>
      have hstable := stable_of_later (K := From base keep lo after mk s0) (fun _ h => h)
        fun _ _ h hlater => h.later hlater
      have herror : ∀ w e, From base keep lo after mk s0 w → ∃ m mk',
          Passed base keep lo after mk s0 m mk' w ∧ ∀ x, (.error e : Except EvalError EvalRun) =
            .ok x → s0.remaining after ≤ (n + 1) * eventBatch → s0.remaining m = 0 :=
        fun w e hw => ⟨after, mk, hw.passed, fun x hx => absurd hx (by simp)⟩
      rw [evaluateBatches]
      refine Program.safe_bind (safe_look hstable _) ?_
      rintro (e | ⟨rows, more⟩)
      · exact Program.safe_pure fun w hw => herror w e hw.1
      · -- the page is the first of the events after the id, in the store as it was read
        simp only
        split
        · rename_i hlast
          refine Program.safe_pure fun w hw => ⟨after, mk, hw.1.passed, fun x _ _ => ?_⟩
          have hpage := hw.2 _ rfl
          rw [EventStore.eventsAfter_eq] at hpage
          rw [(Prod.mk.inj hpage).1] at hlast
          exact EventStore.remaining_empty hw.1.store (by decide) hlast
        · rename_i last hlast
          refine Program.safe_fact (c := after < last.id ∧
            s0.remaining last.id ≤ s0.remaining after - eventBatch ∧
            (more = false → s0.remaining last.id = 0))
            (fun w hw => (hw.1.page (hw.2 _ rfl) hlast hlo hkeep).1) ?_
          · rintro ⟨hlt, hshare, hdone⟩
            have hread := stable_of_later (K := Read base keep lo after mk s0
              (rows.filter fun e => floor.all fun t => decide (t < e.timestamp)) last.id)
              (fun _ h => h.start) fun _ _ h hlater => h.later hlater
            refine Program.safe_bind (Program.safe_weaken (safe_recordRules hread _ q.rules _)
              (fun w hw => (hw.1.page (hw.2 _ rfl) hlast hlo hkeep).2) fun _ _ h => h) ?_
            rintro (e | found)
            · exact Program.safe_pure fun w hw => herror w e hw.1.start
            · refine Program.safe_fact (c := found.pce = pce) (fun w hw => hw.2 found rfl) ?_
              intro hfound
              refine Program.safe_bind (Program.safe_weaken
                (safe_commit (Q := From base keep lo last.id (.id last.id) s0) hread
                  fun w a ha hw => ?_) (fun w hw => hw.1) fun _ _ h => h) ?_
              · have hlater := ha.later w
                have hnext := (hw.later hlater).committed (hfound.trans hpce)
                refine ⟨⟨⟨_, hlater, Or.inr (Or.inl ⟨found, last.id, _, ?_, rfl⟩)⟩, last.id, .id last.id,
                  hnext.passed.of_next (Nat.le_of_lt hlt) hshare⟩, hnext⟩
                exact (hfound.trans hpce).trans (hw.later hlater).start.taking.pce.symm
              · rintro (e | ⟨fired, suppressed⟩)
                · exact Program.safe_pure fun w hw => herror w e hw.start
                · simp only
                  split
                  · have hrest := @ih last.id (.id last.id)
                      ⟨run.evaluated + (rows.filter fun e =>
                          floor.all fun t => decide (t < e.timestamp)).length,
                        run.fired + fired, run.suppressed + suppressed⟩
                      (Nat.le_trans hlo (Nat.le_of_lt hlt))
                      (fun r hr => hkeep r (Nat.lt_trans hlt hr))
                    refine Program.safe_mono ?_ (Program.safe_weaken hrest (fun _ h => h) ?_)
                    · rintro w w' ⟨hall, m, mk', hpassed⟩
                      exact ⟨hall, m, mk', hpassed.of_next (Nat.le_of_lt hlt) hshare⟩
                    · rintro r w ⟨m, mk', hpassed, hend⟩
                      refine ⟨m, mk', hpassed.of_next (Nat.le_of_lt hlt) hshare, ?_⟩
                      intro x hx hfew
                      refine hend x hx ?_
                      have hsucc : (n + 1) * eventBatch = n * eventBatch + eventBatch :=
                        Nat.succ_mul _ _
                      omega
                  · rename_i hmore
                    refine Program.safe_pure fun w hw => ⟨last.id, .id last.id,
                      hw.passed.of_next (Nat.le_of_lt hlt) hshare, fun x _ _ => ?_⟩
                    exact hdone (by simpa using hmore)

/-- A run from a watermark. -/
theorem safe_evaluateEvents {floor : Option Int} (hfrom : mk.eventsFrom = some (after, floor))
    (hlo : lo ≤ after)
    (hkeep : ∀ r : EventRow, after < r.id →
      keep r = floor.all fun t => decide (t < r.timestamp)) :
    Program.Safe Collects (RunStep base keep lo after mk s0) (From base keep lo after mk s0)
      (evaluateEvents q) fun r w =>
        ∃ m mk', Passed base keep lo after mk s0 m mk' w ∧
          ∀ x, r = .ok x → s0.remaining after ≤ eventBatches * eventBatch →
            s0.remaining m = 0 := by
  have hstable := stable_of_later (K := From base keep lo after mk s0) (fun _ h => h)
    fun _ _ h hlater => h.later hlater
  have herror : ∀ w e, From base keep lo after mk s0 w → ∃ m mk',
      Passed base keep lo after mk s0 m mk' w ∧ ∀ x, (.error e : Except EvalError EvalRun) =
        .ok x → s0.remaining after ≤ eventBatches * eventBatch → s0.remaining m = 0 :=
    fun w e hw => ⟨after, mk, hw.passed, fun x hx => absurd hx (by simp)⟩
  rw [evaluateEvents]
  refine Program.safe_bind (safe_look hstable _) ?_
  rintro (e | pce)
  · exact Program.safe_pure fun w hw => herror w e hw.1
  · refine Program.safe_fact (c := pce = base.world.pce)
      (fun w hw => (hw.2 pce rfl).trans hw.1.taking.pce) fun hpce => ?_
    refine Program.safe_bind (Program.safe_weaken (safe_look hstable _) (fun w hw => hw.1)
      fun _ _ h => h) ?_
    rintro (e | found)
    · exact Program.safe_pure fun w hw => herror w e hw.1
    · refine Program.safe_fact (c := found = some mk) (fun w hw => ?_) ?_
      · have hfound := hw.2 found rfl
        rw [hpce, ← hw.1.taking.pce] at hfound
        exact hfound.trans hw.1.taking.mark
      rintro rfl
      refine Program.safe_bind (Program.safe_weaken (safe_look hstable _) (fun w hw => hw.1)
        fun _ _ h => h) ?_
      rintro (e | generation)
      · exact Program.safe_pure fun w hw => herror w e hw.1
      · simp only [hfrom]
        exact Program.safe_weaken (safe_evaluateBatches hpce eventBatches _ hlo hkeep)
          (fun w hw => hw.1) fun _ _ h => h

end Run

/-! ## Every sequence of runs -/

/-- Runs one after the other, each with its answers and stopped where these end: the states gone
through. -/
def evaluations (rounds : List (EventRun × List (Answer EventStore))) (w : EventState) :
    List EventState :=
  Program.runs (rounds.map fun r => (evaluateEvents r.1, r.2)) w

/-- A watermark as the evaluation of events has it: an id that was given, or a time floor. -/
def ValidMark (s : EventStore) : Watermark → Prop
  | .id m => m ≤ s.events.sequence
  | .floor _ => True
  | _ => False

/-- The watermark, where there is one, is such. -/
def ValidState (w : EventState) : Prop :=
  ∀ mk, eventMark w = some mk → ValidMark w.world.flow mk

/-- The event is beyond the starting watermark. -/
def Watermark.beyond (e : EventRow) : Watermark → Bool
  | .id m => decide (m < e.id)
  | .floor t => decide (t < e.timestamp)
  | _ => false

/-- What the batches committed since took into account. -/
def takenSince (w0 w : EventState) : List EventRow :=
  (w.batches.drop w0.batches.length).flatten

/-- Every collected event beyond the starting watermark and up to the current one is in exactly
one batch, once; and nothing but collected events is, each once, up to the watermark. -/
structure TakenOnce (start : Watermark) (w0 w : EventState) : Prop where
  kept : w0.batches <+: w.batches
  mark : eventMark w = some start ∧ takenSince w0 w = [] ∨ ∃ m, eventMark w = some (.id m) ∧
    (∀ e ∈ w.world.flow.events.rows, e.origin = .ingest → start.beyond e = true → e.id ≤ m →
      (takenSince w0 w).count e = 1) ∧
    ∀ e ∈ takenSince w0 w, e.id ≤ m
  only : ∀ e ∈ takenSince w0 w, (takenSince w0 w).count e = 1 ∧
    e ∈ w.world.flow.events.rows ∧ e.origin = .ingest

/-- No event at or before the time floor, stored before the first evaluation, is taken. -/
def FloorKept (start : Watermark) (w0 w : EventState) : Prop :=
  ∀ t, start = .floor t → ∀ e ∈ takenSince w0 w, e ∈ w0.world.flow.events.rows → t < e.timestamp

/-- A run that starts with the floor in place: its first batch holds all events stored by then,
or its batches do and it is neither failed nor stopped, or it ends with the floor in place. -/
def ReadsFloor (r : EventRun × List (Answer EventStore)) (w : EventState) : Prop :=
  ∀ t, eventMark w = some (.floor t) →
    w.world.flow.remaining 0 ≤ eventBatch ∨
    (w.world.flow.remaining 0 ≤ eventBatches * eventBatch ∧
      ∃ x rest, (evaluateEvents r.1 w r.2).2 = some (.ok x, rest)) ∨
    eventMark (lastState w (evaluateEvents r.1 w r.2).1) = some (.floor t)

/-- Every run that starts with the floor in place does so. -/
def FloorsRead : List (EventRun × List (Answer EventStore)) → EventState → Prop
  | [], _ => True
  | r :: rounds, w => ReadsFloor r w ∧ FloorsRead rounds (lastState w (evaluateEvents r.1 w r.2).1)

section Runs

variable {w0 w : EventState} {keep : EventRow → Bool} {lo after m : Nat} {mk start : Watermark}
  {s0 : EventStore} {c : Prop}

theorem Taking.since (h : Taking w0 keep lo m mk w) :
    w0.batches <+: w.batches ∧ takenSince w0 w = w.world.flow.between keep lo m := by
  obtain ⟨more, hbatches, hflatten⟩ := h.taken
  refine ⟨⟨more, hbatches.symm⟩, ?_⟩
  rw [takenSince, hbatches, List.drop_left, hflatten]

/-- What was taken, each event once. -/
theorem Taking.takenOnce (h : Taking w0 keep lo m mk w)
    (hmark : mk = start ∧ m = lo ∨ mk = .id m)
    (hbeyond : ∀ e : EventRow, e ∈ w.world.flow.events.rows → start.beyond e = true →
      lo < e.id ∧ keep e = true) : TakenOnce start w0 w := by
  obtain ⟨hkept, hsince⟩ := h.since
  have hcount : ∀ e ∈ takenSince w0 w, (takenSince w0 w).count e = 1 := by
    intro e he
    rw [hsince] at he ⊢
    exact List.count_eq_one_of_mem EventStore.nodup_between he
  refine ⟨hkept, ?_, fun e he => ⟨hcount e he, ?_⟩⟩
  · rcases hmark with ⟨rfl, rfl⟩ | rfl
    · refine Or.inl ⟨h.mark, ?_⟩
      rw [hsince, EventStore.between_self]
    · refine Or.inr ⟨m, h.mark, fun e he horigin hstart hle => hcount e ?_, fun e he => ?_⟩
      · obtain ⟨hlo, hkeep⟩ := hbeyond e he hstart
        rw [hsince]
        exact EventStore.mem_between.2 ⟨he, hlo, horigin, hkeep, hle⟩
      · rw [hsince] at he
        exact (EventStore.mem_between.1 he).2.2.2.2
  · rw [hsince] at he
    exact ⟨(EventStore.mem_between.1 he).1, (EventStore.mem_between.1 he).2.2.1⟩

/-- One run: every state it goes through, and where it ends. -/
theorem round_passed {r : EventRun × List (Answer EventStore)} (floor : Option Int)
    (hfrom : mk.eventsFrom = some (after, floor)) (hlo : lo ≤ after)
    (hkeep : ∀ e : EventRow, after < e.id →
      keep e = floor.all fun t => decide (t < e.timestamp))
    (hanswers : ∀ a ∈ r.2, Collects a) (hw : Taking w0 keep lo after mk w) :
    List.IsChain AllOrNothing (w :: (evaluateEvents r.1 w r.2).1) ∧
      (∀ w' ∈ w :: (evaluateEvents r.1 w r.2).1,
        ∃ m mk', Passed w0 keep lo after mk w.world.flow m mk' w') ∧
      ∀ x rest, (evaluateEvents r.1 w r.2).2 = some (.ok x, rest) →
        w.world.flow.remaining after ≤ eventBatches * eventBatch →
        ∃ m mk', Passed w0 keep lo after mk w.world.flow m mk'
            (lastState w (evaluateEvents r.1 w r.2).1) ∧
          w.world.flow.remaining m = 0 := by
  have hstart : From w0 keep lo after mk w.world.flow w := ⟨hw, Grows.refl _⟩
  obtain ⟨hchain, hend⟩ := safe_evaluateEvents (q := r.1) hfrom hlo hkeep w r.2 hanswers hstart
  refine ⟨hchain.imp fun _ _ h => h.1, ?_, ?_⟩
  · refine Program.inv_of_isChain (R := RunStep w0 keep lo after mk w.world.flow) ?_ ?_ hchain
    · exact fun _ _ _ h => h.2
    · exact ⟨after, mk, hstart.passed⟩
  · intro x rest hresult hfew
    obtain ⟨-, m, mk', hpassed, hall⟩ := hend (.ok x) rest hresult
    exact ⟨m, mk', hpassed, hall x rfl hfew⟩

theorem maxEventId_le (s : EventStore) : s.maxEventId ≤ s.events.sequence := by
  have hfold : ∀ (ids : List Nat) (m : Nat), m ≤ s.events.sequence →
      (∀ id ∈ ids, id ≤ s.events.sequence) → ids.foldl max m ≤ s.events.sequence := by
    intro ids
    induction ids with
    | nil => exact fun m hm _ => hm
    | cons id ids ih =>
        intro m hm hids
        exact ih _ (Nat.max_le.2 ⟨hm, hids id List.mem_cons_self⟩)
          fun i hi => hids i (List.mem_cons_of_mem id hi)
  refine hfold _ 0 (Nat.zero_le _) fun id hid => ?_
  obtain ⟨r, hr, rfl⟩ := List.mem_map.1 hid
  exact s.bounded r hr

/-- A first evaluation sets a valid watermark, or none. -/
theorem safe_firstEvaluation {q : EventRun} :
    Program.Safe Collects (fun w w' => AllOrNothing w w' ∧ ValidState w')
      (fun w => eventMark w = none) (evaluateEvents q) fun _ _ => True := by
  have hnone : ∀ w w', eventMark w = none → Later w w' → eventMark w' = none := by
    intro w w' hw hlater
    rw [eventMark, hlater.app, hlater.pce]
    exact hw
  have hvalid : ∀ w : EventState, eventMark w = none → ValidState w :=
    fun w hw mk hmk => absurd (hw.symm.trans hmk) (by simp)
  have hstable : ∀ K : EventState → Prop, (∀ w w', K w → Later w w' → K w') →
      (∀ w, K w → eventMark w = none) →
      Stable Collects (fun w w' => AllOrNothing w w' ∧ ValidState w') K := by
    intro K hlater hk w a ha hw
    have hstep := hlater w _ hw (ha.later w)
    exact ⟨⟨⟨_, ha.later w, Or.inl rfl⟩, hvalid _ (hk _ hstep)⟩, hstep⟩
  have hlook := hstable (fun w => eventMark w = none) hnone fun _ h => h
  have hpce : ∀ pce, Stable Collects (fun w w' => AllOrNothing w w' ∧ ValidState w')
      fun w => eventMark w = none ∧ w.world.pce = pce := fun pce =>
    hstable _ (fun w w' h hlater => ⟨hnone w w' h.1 hlater, hlater.pce.trans h.2⟩) fun _ h => h.1
  rw [evaluateEvents]
  refine Program.safe_bind (safe_look hlook _) ?_
  rintro (e | pce)
  · exact Program.safe_pure fun _ _ => trivial
  · refine Program.safe_bind (Program.safe_weaken (safe_look (hpce pce) _)
      (fun w hw => ⟨hw.1, (hw.2 pce rfl).symm⟩) fun _ _ h => h) ?_
    rintro (e | found)
    · exact Program.safe_pure fun _ _ => trivial
    · refine Program.safe_fact (c := found = none) (fun w hw => ?_) ?_
      · have hfound := hw.2 found rfl
        rw [← hw.1.2] at hfound
        exact hfound.trans hw.1.1
      rintro rfl
      rw [startEvents]
      refine Program.safe_bind (Program.safe_weaken (safe_look (hpce pce) _) (fun _ h => h.1)
        fun _ _ h => h) ?_
      rintro (e | _ | _)
      · exact Program.safe_pure fun _ _ => trivial
      · exact Program.safe_pure fun _ _ => trivial
      · refine Program.safe_bind (Program.safe_weaken (safe_look (hpce pce) _) (fun _ h => h.1)
          fun _ _ h => h) ?_
        rintro (e | newest)
        · exact Program.safe_pure fun _ _ => trivial
        · have hnewest := hstable (fun w => (eventMark w = none ∧ w.world.pce = pce) ∧
            newest ≤ w.world.flow.events.sequence) (fun w w' h hlater =>
              ⟨⟨hnone w w' h.1.1 hlater, hlater.pce.trans h.1.2⟩,
                Nat.le_trans h.2 hlater.flow.sequence⟩) fun _ h => h.1.1
          refine Program.safe_bind (Program.safe_weaken (safe_write (Q := fun _ => True) hnewest
            fun w a ha hw => ?_) (fun w hw => ⟨hw.1, ?_⟩) fun _ _ _ => trivial) ?_
          · obtain ⟨⟨hmark, hpce⟩, hle⟩ := (hnewest w a ha hw).2
            refine ⟨⟨⟨_, ha.later w, Or.inr (Or.inr ⟨hmark, newest, ?_⟩)⟩, ?_⟩, trivial⟩
            · rw [hpce]
            · intro mk hmk
              simp only [eventMark, hpce, AlertDb.evalWatermark_set, Option.some.injEq] at hmk
              rw [← hmk]
              exact hle
          · rw [hw.2 newest rfl]
            exact maxEventId_le _
          · rintro (e | _)
            · exact Program.safe_pure fun _ _ => trivial
            · exact Program.safe_pure fun _ _ => trivial

/-- One run, from any watermark or none: all or nothing, and the watermark stays valid. -/
theorem round_valid {r : EventRun × List (Answer EventStore)}
    (hanswers : ∀ a ∈ r.2, Collects a) (hw : ValidState w) :
    List.IsChain AllOrNothing (w :: (evaluateEvents r.1 w r.2).1) ∧
      ∀ w' ∈ w :: (evaluateEvents r.1 w r.2).1, ValidState w' := by
  have hfrom : ∀ (mk : Watermark) (after : Nat) (floor : Option Int) (keep : EventRow → Bool),
      eventMark w = some mk → mk.eventsFrom = some (after, floor) →
      after ≤ w.world.flow.events.sequence →
      (∀ e : EventRow, after < e.id → keep e = floor.all fun t => decide (t < e.timestamp)) →
      List.IsChain AllOrNothing (w :: (evaluateEvents r.1 w r.2).1) ∧
        ∀ w' ∈ w :: (evaluateEvents r.1 w r.2).1, ValidState w' := by
    intro mk after floor keep hmark hfrom hle hkeep
    have htaking : Taking w keep after after mk w := ⟨rfl, Grows.refl _, hmark, hle, [],
      by simp, by rw [EventStore.between_self]; rfl⟩
    obtain ⟨hchain, hvisited, -⟩ := round_passed (r := r) _ hfrom (Nat.le_refl after) hkeep hanswers
      htaking
    refine ⟨hchain, fun w' hw' mk1 hmk1 => ?_⟩
    obtain ⟨m, mk', hpassed⟩ := hvisited w' hw'
    obtain rfl := Option.some.inj (hpassed.taking.mark.symm.trans hmk1)
    rcases hpassed.mark with hid | ⟨hsame, -⟩
    · rw [hid]
      exact hpassed.taking.bounded
    · rw [hsame]
      have hvalid := hw mk hmark
      cases mk with
      | id n => exact Nat.le_trans hvalid hpassed.taking.flow.sequence
      | floor t => trivial
      | stamp s n => exact hvalid.elim
      | time t => exact hvalid.elim
  cases hmark : eventMark w with
  | none =>
      obtain ⟨hchain, -⟩ := safe_firstEvaluation (q := r.1) w r.2 hanswers hmark
      refine ⟨hchain.imp fun _ _ h => h.1, ?_⟩
      refine Program.inv_of_isChain (R := fun w w' => AllOrNothing w w' ∧ ValidState w')
        (I := ValidState) ?_ hw hchain
      exact fun _ _ _ h => h.2
  | some mk =>
      have hvalid := hw mk hmark
      cases mk with
      | id n => exact hfrom (.id n) n none (fun _ => true) hmark rfl hvalid fun _ _ => rfl
      | floor t =>
          exact hfrom (.floor t) 0 (some t) (fun e => decide (t < e.timestamp)) hmark rfl
            (Nat.zero_le _) fun e _ => by simp
      | stamp s n => exact hvalid.elim
      | time t => exact hvalid.elim

theorem evaluations_cons (r : EventRun × List (Answer EventStore))
    (rounds : List (EventRun × List (Answer EventStore))) (w : EventState) :
    evaluations (r :: rounds) w = (evaluateEvents r.1 w r.2).1 ++
      evaluations rounds (lastState w (evaluateEvents r.1 w r.2).1) := rfl

/-- What holds of every state between runs is carried through them. -/
theorem evaluations_of_boundary {B : List (EventRun × List (Answer EventStore)) → EventState → Prop}
    {G : EventState → Prop} (hnil : ∀ w, B [] w → G w)
    (hcons : ∀ r rounds w, B (r :: rounds) w →
      List.IsChain AllOrNothing (w :: (evaluateEvents r.1 w r.2).1) ∧
        (∀ w' ∈ w :: (evaluateEvents r.1 w r.2).1, G w') ∧
        B rounds (lastState w (evaluateEvents r.1 w r.2).1))
    {rounds : List (EventRun × List (Answer EventStore))} (hw : B rounds w) :
    List.IsChain AllOrNothing (w :: evaluations rounds w) ∧
      ∀ w' ∈ w :: evaluations rounds w, G w' := by
  induction rounds generalizing w with
  | nil =>
      refine ⟨List.isChain_singleton w, fun w' hw' => ?_⟩
      rw [List.mem_singleton.1 hw']
      exact hnil w hw
  | cons r rounds ih =>
      obtain ⟨hchain, hvisited, hnext⟩ := hcons r rounds w hw
      obtain ⟨hrest, hlater⟩ := ih hnext
      rw [evaluations_cons]
      refine ⟨Program.isChain_append_of_last hchain hrest, fun w' hw' => ?_⟩
      rcases List.mem_append.1 (List.cons_append ▸ hw' : w' ∈ (w :: _) ++ _) with hw' | hw'
      · exact hvisited w' hw'
      · exact hlater w' (List.mem_cons_of_mem _ hw')

/-- The runs from an id. -/
theorem evaluations_from_id {m0 : Nat} (hstart : Taking w0 (fun _ => true) m0 m0 (.id m0) w0)
    {rounds : List (EventRun × List (Answer EventStore))}
    (hrounds : ∀ r ∈ rounds, ∀ a ∈ r.2, Collects a) :
    List.IsChain AllOrNothing (w0 :: evaluations rounds w0) ∧
      ∀ w ∈ w0 :: evaluations rounds w0, TakenOnce (.id m0) w0 w := by
  have htaken : ∀ m w, Taking w0 (fun _ => true) m0 m (.id m) w → TakenOnce (.id m0) w0 w :=
    fun m w h => h.takenOnce (Or.inr rfl) fun e _ hbeyond => ⟨of_decide_eq_true hbeyond, rfl⟩
  refine evaluations_of_boundary (B := fun rounds w => (∀ r ∈ rounds, ∀ a ∈ r.2, Collects a) ∧
    ∃ m, m0 ≤ m ∧ Taking w0 (fun _ => true) m0 m (.id m) w) ?_ ?_
    ⟨hrounds, m0, Nat.le_refl _, hstart⟩
  · rintro w ⟨-, m, -, hw⟩
    exact htaken m w hw
  · rintro r rounds w ⟨hrounds, m, hm, hw⟩
    obtain ⟨hchain, hvisited, -⟩ := round_passed (r := r) none rfl hm
      (fun _ _ => rfl) (hrounds r List.mem_cons_self) hw
    have hid : ∀ w' ∈ w :: (evaluateEvents r.1 w r.2).1,
        ∃ m', m0 ≤ m' ∧ Taking w0 (fun _ => true) m0 m' (.id m') w' := by
      intro w' hw'
      obtain ⟨m', mk', hpassed⟩ := hvisited w' hw'
      have htaking := hpassed.taking
      rcases hpassed.mark with rfl | ⟨rfl, rfl⟩
      · exact ⟨m', Nat.le_trans hm hpassed.le, htaking⟩
      · exact ⟨m', hm, htaking⟩
    refine ⟨hchain, fun w' hw' => ?_, fun q hq => hrounds q (List.mem_cons_of_mem r hq),
      hid _ (lastState_mem w _)⟩
    obtain ⟨m', -, htaking⟩ := hid w' hw'
    exact htaken m' w' htaking

/-- Past the floor: the events after `k` are taken, the ones before only if they are later than
the floor; where the runs read their floor, `k` is past the events of the first store. -/
structure PastFloor (w0 : EventState) (t : Int) (c : Prop) (k m : Nat) (w : EventState) :
    Prop where
  le : k ≤ m
  taking : Taking w0 (fun e => decide (t < e.timestamp) || decide (k < e.id)) 0 m (.id m) w
  read : c → ∀ e ∈ w0.world.flow.events.rows, e.origin = .ingest → e.id ≤ k

/-- The floor is in place. -/
abbrev AtFloor (w0 : EventState) (t : Int) (w : EventState) : Prop :=
  Taking w0 (fun e => decide (t < e.timestamp)) 0 0 (.floor t) w

theorem Taking.pastFloor {t : Int}
    (h : Taking w0 (fun e => decide (t < e.timestamp)) 0 m (.id m) w)
    (hread : c → ∀ e ∈ w0.world.flow.events.rows, e.origin = .ingest → e.id ≤ m) :
    PastFloor w0 t c m m w := by
  obtain ⟨more, hbatches, hflatten⟩ := h.taken
  refine ⟨Nat.le_refl _, ⟨h.pce, h.flow, h.mark, h.bounded, more, hbatches, ?_⟩, hread⟩
  rw [hflatten]
  refine EventStore.between_congr fun e he => ?_
  have hnot : ¬m < e.id := Nat.not_lt.2 he
  simp [hnot]

theorem PastFloor.good {t : Int} {k : Nat} (h : PastFloor w0 t c k m w) :
    TakenOnce (.floor t) w0 w ∧ (c → FloorKept (.floor t) w0 w) := by
  refine ⟨h.taking.takenOnce (Or.inr rfl) fun e he hbeyond => ⟨w.world.flow.positive e he, ?_⟩, ?_⟩
  · exact Bool.or_eq_true_iff.2 (Or.inl hbeyond)
  · rintro hc t' ht e he hold
    obtain rfl := Watermark.floor.inj ht
    rw [h.taking.since.2] at he
    obtain ⟨-, -, horigin, hkeep, -⟩ := EventStore.mem_between.1 he
    rcases Bool.or_eq_true_iff.1 hkeep with hkeep | hkeep
    · exact of_decide_eq_true hkeep
    · have hle := h.read hc e hold horigin
      have hlt := of_decide_eq_true hkeep
      omega

/-- Under the floor nothing before it is taken. -/
theorem Taking.floorKept {t : Int}
    (h : Taking w0 (fun e => decide (t < e.timestamp)) 0 m mk w) :
    FloorKept (.floor t) w0 w := by
  rintro t' ht e he -
  obtain rfl := Watermark.floor.inj ht
  rw [h.since.2] at he
  exact of_decide_eq_true (EventStore.mem_between.1 he).2.2.2.1

/-- A run that starts with the floor in place: it goes on under the floor, and where it reads the
floor, it ends with the floor in place or past all the events stored by then. -/
theorem floor_round {t : Int} {r : EventRun × List (Answer EventStore)}
    (hanswers : ∀ a ∈ r.2, Collects a) (hw : AtFloor w0 t w) :
    List.IsChain AllOrNothing (w :: (evaluateEvents r.1 w r.2).1) ∧
      (∀ w' ∈ w :: (evaluateEvents r.1 w r.2).1, AtFloor w0 t w' ∨
        ∃ m, Taking w0 (fun e => decide (t < e.timestamp)) 0 m (.id m) w') ∧
      (ReadsFloor r w → AtFloor w0 t (lastState w (evaluateEvents r.1 w r.2).1) ∨
        ∃ m, PastFloor w0 t True m m (lastState w (evaluateEvents r.1 w r.2).1)) := by
  obtain ⟨hchain, hvisited, hend⟩ := round_passed (r := r) (some t) rfl (Nat.le_refl 0)
    (fun e _ => by simp) hanswers hw
  refine ⟨hchain, fun w' hw' => ?_, fun hreads => ?_⟩
  · obtain ⟨m, mk', hpassed⟩ := hvisited w' hw'
    have htaking := hpassed.taking
    rcases hpassed.mark with rfl | ⟨rfl, rfl⟩
    · exact Or.inr ⟨m, htaking⟩
    · exact Or.inl htaking
  · have hpast : ∀ m mk', Passed w0 (fun e => decide (t < e.timestamp)) 0 0 (.floor t)
        w.world.flow m mk' (lastState w (evaluateEvents r.1 w r.2).1) →
        (mk' ≠ .floor t → w.world.flow.remaining m = 0) →
        AtFloor w0 t (lastState w (evaluateEvents r.1 w r.2).1) ∨
          ∃ m, PastFloor w0 t True m m (lastState w (evaluateEvents r.1 w r.2).1) := by
      intro m mk' hpassed hall
      have htaking := hpassed.taking
      rcases hpassed.mark with rfl | ⟨rfl, rfl⟩
      · refine Or.inr ⟨m, htaking.pastFloor fun _ e he horigin => ?_⟩
        exact EventStore.le_of_remaining (hall (by simp)) (hw.flow.mem he) horigin
      · exact Or.inl htaking
    rcases hreads t hw.mark with hfew | ⟨hfew, x, rest, hresult⟩ | hkept
    · obtain ⟨m, mk', hpassed⟩ := hvisited _ (lastState_mem w _)
      exact hpast m mk' hpassed fun hne => hpassed.share hfew hne
    · obtain ⟨m, mk', hpassed, hall⟩ := hend x rest hresult hfew
      exact hpast m mk' hpassed fun _ => hall
    · obtain ⟨m, mk', hpassed⟩ := hvisited _ (lastState_mem w _)
      refine hpast m mk' hpassed fun hne => absurd ?_ hne
      exact Option.some.inj (hpassed.taking.mark.symm.trans hkept)

theorem PastFloor.imp {t : Int} {k : Nat} {c' : Prop} (h : PastFloor w0 t c k m w)
    (hc : c' → c) : PastFloor w0 t c' k m w :=
  ⟨h.le, h.taking, fun hc' => h.read (hc hc')⟩

/-- A run past the floor. -/
theorem pastFloor_round {t : Int} {k : Nat} {r : EventRun × List (Answer EventStore)}
    (hanswers : ∀ a ∈ r.2, Collects a) (hw : PastFloor w0 t c k m w) :
    List.IsChain AllOrNothing (w :: (evaluateEvents r.1 w r.2).1) ∧
      ∀ w' ∈ w :: (evaluateEvents r.1 w r.2).1, ∃ m', PastFloor w0 t c k m' w' := by
  obtain ⟨hchain, hvisited, -⟩ := round_passed (r := r) none rfl (Nat.zero_le m)
    (fun e he => by simp [Nat.lt_of_le_of_lt hw.le he]) hanswers hw.taking
  refine ⟨hchain, fun w' hw' => ?_⟩
  obtain ⟨m', mk', hpassed⟩ := hvisited w' hw'
  have htaking := hpassed.taking
  rcases hpassed.mark with rfl | ⟨rfl, rfl⟩
  · exact ⟨m', Nat.le_trans hw.le hpassed.le, htaking, hw.read⟩
  · exact ⟨m', hw.le, htaking, hw.read⟩

/-- The runs from a time floor. -/
theorem evaluations_from_floor {t : Int} (hstart : AtFloor w0 t w0)
    {rounds : List (EventRun × List (Answer EventStore))}
    (hrounds : ∀ r ∈ rounds, ∀ a ∈ r.2, Collects a) :
    List.IsChain AllOrNothing (w0 :: evaluations rounds w0) ∧
      ∀ w ∈ w0 :: evaluations rounds w0, TakenOnce (.floor t) w0 w ∧
        (FloorsRead rounds w0 → FloorKept (.floor t) w0 w) := by
  have hat : ∀ w, AtFloor w0 t w → TakenOnce (.floor t) w0 w ∧ FloorKept (.floor t) w0 w :=
    fun w h => ⟨h.takenOnce (Or.inl ⟨rfl, rfl⟩) fun e he hbeyond =>
      ⟨w.world.flow.positive e he, hbeyond⟩, h.floorKept⟩
  have hunder : ∀ m w, Taking w0 (fun e => decide (t < e.timestamp)) 0 m (.id m) w →
      TakenOnce (.floor t) w0 w ∧ FloorKept (.floor t) w0 w :=
    fun m w h => ⟨h.takenOnce (Or.inr rfl) fun e he hbeyond =>
      ⟨w.world.flow.positive e he, hbeyond⟩, h.floorKept⟩
  generalize hc : FloorsRead rounds w0 = c
  refine evaluations_of_boundary (G := fun w => TakenOnce (.floor t) w0 w ∧
    (c → FloorKept (.floor t) w0 w)) (B := fun rounds w =>
      (∀ r ∈ rounds, ∀ a ∈ r.2, Collects a) ∧ (c → FloorsRead rounds w) ∧
        (AtFloor w0 t w ∨ ∃ k m, PastFloor w0 t c k m w)) ?_ ?_
    ⟨hrounds, fun h => hc ▸ h, Or.inl hstart⟩
  · rintro w ⟨-, -, hw | ⟨k, m, hw⟩⟩
    · exact ⟨(hat w hw).1, fun _ => (hat w hw).2⟩
    · exact hw.good
  · rintro r rounds w ⟨hrounds, hread, hw | ⟨k, m, hw⟩⟩
    · obtain ⟨hchain, hvisited, hend⟩ := floor_round (hrounds r List.mem_cons_self) hw
      refine ⟨hchain, fun w' hw' => ?_, fun q hq => hrounds q (List.mem_cons_of_mem r hq),
        fun h => (hread h).2, ?_⟩
      · rcases hvisited w' hw' with hw' | ⟨m, hw'⟩
        · exact ⟨(hat w' hw').1, fun _ => (hat w' hw').2⟩
        · exact ⟨(hunder m w' hw').1, fun _ => (hunder m w' hw').2⟩
      · -- where the runs read their floor, this one has
        by_cases hreads : c
        · refine (hend (hread hreads).1).imp id ?_
          rintro ⟨m, hpast⟩
          exact ⟨m, m, hpast.imp fun _ => trivial⟩
        · refine (hvisited _ (lastState_mem w _)).imp id ?_
          rintro ⟨m, hunder⟩
          exact ⟨m, m, hunder.pastFloor fun h => absurd h hreads⟩
    · obtain ⟨hchain, hvisited⟩ := pastFloor_round (hrounds r List.mem_cons_self) hw
      refine ⟨hchain, fun w' hw' => ?_, fun q hq => hrounds q (List.mem_cons_of_mem r hq),
        fun h => (hread h).2, Or.inr ?_⟩
      · obtain ⟨m', hpast⟩ := hvisited w' hw'
        exact hpast.good
      · obtain ⟨m', hpast⟩ := hvisited _ (lastState_mem w _)
        exact ⟨k, m', hpast⟩

end Runs

/-- Over every sequence of runs, each failing or stopped anywhere, while the collector stores
events: every step writes a whole batch with its watermark or nothing, and in every state the
collected events beyond the starting watermark and up to the current one are in exactly one
committed batch. Where every run that starts with the floor in place reads the events stored by
then, no event at or before the floor that was stored before is ever taken. -/
theorem events_taken_once {w0 : EventState} (hvalid : ValidState w0)
    {rounds : List (EventRun × List (Answer EventStore))}
    (hrounds : ∀ r ∈ rounds, ∀ a ∈ r.2, Collects a) :
    List.IsChain AllOrNothing (w0 :: evaluations rounds w0) ∧
      ∀ w ∈ w0 :: evaluations rounds w0, ValidState w ∧
        ∀ start, eventMark w0 = some start → TakenOnce start w0 w ∧
          (FloorsRead rounds w0 → FloorKept start w0 w) := by
  have hall : List.IsChain AllOrNothing (w0 :: evaluations rounds w0) ∧
      ∀ w ∈ w0 :: evaluations rounds w0, ValidState w := by
    refine evaluations_of_boundary (B := fun rounds w =>
      (∀ r ∈ rounds, ∀ a ∈ r.2, Collects a) ∧ ValidState w) (fun _ h => h.2) ?_ ⟨hrounds, hvalid⟩
    rintro r rounds w ⟨hrounds, hw⟩
    obtain ⟨hchain, hvisited⟩ := round_valid (hrounds r List.mem_cons_self) hw
    exact ⟨hchain, hvisited, fun q hq => hrounds q (List.mem_cons_of_mem r hq),
      hvisited _ (lastState_mem w _)⟩
  refine ⟨hall.1, fun w hw => ⟨hall.2 w hw, fun start hmark => ?_⟩⟩
  have hstart := hvalid start hmark
  have htaking : ∀ keep m, m ≤ w0.world.flow.events.sequence → Taking w0 keep m m start w0 :=
    fun keep m hm => ⟨rfl, Grows.refl _, hmark, hm, [], by simp,
      by rw [EventStore.between_self]; rfl⟩
  cases start with
  | id m =>
      have htaken := (evaluations_from_id (htaking _ m hstart) hrounds).2 w hw
      exact ⟨htaken, fun _ t ht => absurd ht (by simp)⟩
  | floor t => exact (evaluations_from_floor (htaking _ 0 (Nat.zero_le _)) hrounds).2 w hw
  | stamp s n => exact hstart.elim
  | time t => exact hstart.elim

/-! ## A floor that is lost -/

/-- The row of an event at the epoch. -/
def epochRow (i : Nat) : EventRow where
  id := i + 1
  href := String.ofList (List.replicate i 'x')
  eventType := "user.login"
  severity := none
  status := none
  timestamp := 0
  createdByKind := none
  createdByName := none
  createdByHref := none
  workloadHref := none
  tamperClassification := none
  rawJson := ""
  origin := .ingest
  ingestedAt := 0

/-- So many collected events, all of the epoch. -/
def epochEvents (n : Nat) : EventStore where
  events :=
    { rows := (List.range n).map epochRow
      sequence := n
      hrefs_unique := by
        rw [List.map_map]
        refine List.Nodup.map (fun i j hij => ?_) List.nodup_range
        have hlist := String.ofList_injective hij
        simpa using congrArg List.length hlist }
  collected := true
  hostKey := fun _ => none
  ids := by
    refine ⟨?_, ?_, ?_⟩
    · refine List.pairwise_map.2 (List.pairwise_lt_range.imp fun h => ?_)
      exact Nat.succ_lt_succ h
    · intro r hr
      obtain ⟨i, hi, rfl⟩ := List.mem_map.1 hr
      exact List.mem_range.1 hi
    · intro r hr
      obtain ⟨i, -, rfl⟩ := List.mem_map.1 hr
      exact Nat.succ_pos i

/-- After an upgrade whose earlier version evaluated the events of the epoch. -/
def upgraded (n : Nat) : EventState where
  world :=
    { pce := ("https://pce", "1")
      generation := 0
      flow := epochEvents n
      app := ⟨fun _ => none, [], 0, [], fun
        | .events => some ⟨("https://pce", "1"), .floor 0⟩
        | _ => none⟩ }
  batches := []

def noRules : EventRun := ⟨60, [], [], ⟨fun _ => .low, fun _ _ => none⟩⟩

def idle : Answer EventStore := ⟨id, false⟩

def failing : Answer EventStore := ⟨id, true⟩

theorem collects_id (fails : Bool) : Collects ⟨id, fails⟩ := ⟨[], rfl⟩

theorem validState_upgraded (n : Nat) : ValidState (upgraded n) := by
  intro mk hmk
  obtain rfl := Option.some.inj hmk
  trivial

theorem events_taken_once_upgraded :
    List.IsChain AllOrNothing
        (upgraded 2 :: evaluations [(noRules, List.replicate 7 idle)] (upgraded 2)) ∧
      ∀ w ∈ upgraded 2 :: evaluations [(noRules, List.replicate 7 idle)] (upgraded 2),
        ValidState w ∧ ∀ start, eventMark (upgraded 2) = some start →
          TakenOnce start (upgraded 2) w ∧
            (FloorsRead [(noRules, List.replicate 7 idle)] (upgraded 2) →
              FloorKept start (upgraded 2) w) := by
  refine events_taken_once (validState_upgraded 2) fun r hr a ha => ?_
  obtain rfl := List.mem_singleton.1 hr
  rw [List.eq_of_mem_replicate ha]
  exact collects_id false

/-- The second batch of the first run fails; the second run reads on from the first batch. -/
def interruptedRounds : List (EventRun × List (Answer EventStore)) :=
  [(noRules, List.replicate 7 idle ++ [failing]), (noRules, List.replicate 7 idle)]

theorem collects_interruptedRounds : ∀ r ∈ interruptedRounds, ∀ a ∈ r.2, Collects a := by
  have hidle : ∀ a ∈ List.replicate 7 idle, Collects a := by
    intro a ha
    rw [List.eq_of_mem_replicate ha]
    exact collects_id false
  intro r hr a ha
  rcases List.mem_cons.1 hr with rfl | hr
  · rcases List.mem_append.1 ha with ha | ha
    · exact hidle a ha
    · rw [List.mem_singleton.1 ha]
      exact collects_id true
  · obtain rfl := List.mem_singleton.1 hr
    exact hidle a ha

theorem sequence_upgraded (n : Nat) : (upgraded n).world.flow.events.sequence = n := rfl

theorem takenSince_upgraded (n : Nat) (w : EventState) :
    takenSince (upgraded n) w = w.batches.flatten := rfl

theorem AllOrNothing.grows {w w' : EventState} (h : AllOrNothing w w') :
    Grows w.world.flow w'.world.flow := by
  obtain ⟨w1, hlater, rfl | ⟨r, last, facts, -, rfl⟩ | ⟨-, n, rfl⟩⟩ := h
  · exact hlater.flow
  · exact hlater.flow
  · exact hlater.flow

theorem grows_of_isChain {w0 : EventState} {visited : List EventState}
    (h : List.IsChain AllOrNothing (w0 :: visited)) :
    ∀ w ∈ w0 :: visited, Grows w0.world.flow w.world.flow :=
  Program.inv_of_isChain (R := AllOrNothing)
    (I := fun w : EventState => Grows w0.world.flow w.world.flow)
    (fun _ _ hw hstep => hw.trans hstep.grows) (Grows.refl _) h

/-- An event at the floor, stored before the first evaluation, is taken by the second run. -/
theorem floor_lost :
    ¬ ∀ (w0 : EventState) (rounds : List (EventRun × List (Answer EventStore))),
      ValidState w0 → (∀ r ∈ rounds, ∀ a ∈ r.2, Collects a) →
      List.IsChain AllOrNothing (w0 :: evaluations rounds w0) ∧
        ∀ w ∈ w0 :: evaluations rounds w0, ValidState w ∧
          ∀ start, eventMark w0 = some start → TakenOnce start w0 w ∧ FloorKept start w0 w := by
  intro h
  obtain ⟨w, hlast⟩ : ∃ w, w = lastState (upgraded 5001)
      (evaluations interruptedRounds (upgraded 5001)) := ⟨_, rfl⟩
  obtain ⟨hchain, hstates⟩ := h (upgraded 5001) interruptedRounds (validState_upgraded 5001)
    collects_interruptedRounds
  have hw : w ∈ upgraded 5001 :: evaluations interruptedRounds (upgraded 5001) := by
    rw [hlast]
    exact lastState_mem _ _
  obtain ⟨htaken, hfloor⟩ := (hstates w hw).2 (.floor 0) rfl
  -- one event was taken, and it is one of those stored before
  have hone : (w.batches.flatten.map fun e => decide (e.id ≤ 5001 ∧ e.timestamp = 0)) = [true] := by
    rw [hlast]
    decide +kernel
  obtain ⟨e, he⟩ : ∃ e, w.batches.flatten = [e] :=
    List.length_eq_one_iff.1 ((List.length_map _).symm.trans (congrArg List.length hone))
  have hmem : e ∈ takenSince (upgraded 5001) w := by
    rw [takenSince_upgraded, he]
    exact List.mem_singleton.2 rfl
  rw [he] at hone
  obtain ⟨hid, htime⟩ : e.id ≤ 5001 ∧ e.timestamp = 0 := by simpa using hone
  obtain ⟨added, hadded, hids⟩ := (grows_of_isChain hchain w hw).rows
  have hold : e ∈ (upgraded 5001).world.flow.events.rows := by
    have hrow := (htaken.only e hmem).2.1
    rw [hadded] at hrow
    refine (List.mem_append.1 hrow).resolve_right fun hnew => ?_
    have hlt := hids e hnew
    rw [sequence_upgraded] at hlt
    omega
  have hlt := hfloor 0 rfl e hmem hold
  omega

end IllumioOps.Alerts
