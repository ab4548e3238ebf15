import IllumioOps.Siem.Faults
import IllumioOps.Siem.Heads

/-!
# An outage

Ticks during which every send to a destination fails with a transient error, from some point of a batch
on. As long as the flow store is recreated between two ticks only, and its cursors restarted with it, no
record enters the dead-letter queue of the destination before it has itself failed `max_retries *
HARD_FACTOR` times, or `max_retries * STUCK_FACTOR` times when nothing followed it and the destination
had confirmed something within the hour; and no failure of one head is counted for another
(`charged_in_outage`). A restart in the middle of a tick breaks that (`charged_twice`).
-/

set_option autoImplicit false

namespace IllumioOps.Siem.Outage

open Programs
open Delivery (WithinBinding)

/-! ## What is asked -/

/-- The destination sent something that was confirmed within the hour before a time (`_recently_up`). -/
def RecentlyUp (d : String) (now : Int) (w : State) : Prop :=
  ∃ source c sentAt, w.cursors (d, source) = some c ∧ c.lastSentAt = some sentAt ∧
    now - recentUp ≤ sentAt

/-- The record has failed often enough to be given up: at one of the states gone through it had failed
up to the hard limit, or up to the lower one with nothing after it and the destination up. -/
def Exhausted (dest : SiemDestination) (source : Source) (rec : SiemRecord) (now : Int)
    (past : List State) : Prop :=
  ∃ u ∈ past,
    dest.maxRetries * hardFactor ≤ failures u.history.log ((dest.id, source), rec) ∨
      dest.maxRetries * stuckFactor ≤ failures u.history.log ((dest.id, source), rec) ∧
        (u.stored source).after (dest.takes source) rec.recordId 1 = [] ∧ RecentlyUp dest.id now u

/-- The heads are counted, and the log has at least `n` entries. -/
def Sound (n : Nat) (w : State) : Prop := HeadsCounted w ∧ n ≤ w.history.log.length

/-- What every step of an outage owes: the heads stay counted, and a record that enters the dead-letter
queue of the destination is exhausted. -/
def Deserved (d : String) (n : Nat) (ds : List SiemDestination) (past : List State) (t : State) :
    Prop :=
  Sound n t ∧ ∀ w older, past = w :: older → ∀ source rec,
    t.history.log = w.history.log ++ [.quarantined ((d, source), rec)] →
      ∃ dest ∈ ds, dest.id = d ∧ ∃ letter, t.dlq.getLast? = some letter ∧
        Exhausted dest source rec letter.quarantinedAt past

/-- A send to the destination fails with a transient error, or returns while nothing at the destination
has failed since the log had `n` entries. -/
def Fails (d : String) (n : Nat) (w : State) (a : Answer) (w' : State) : Prop :=
  ∀ source rec probe floor since taken,
    w'.history.log = w.history.log ++ [.sent ((d, source), rec) probe floor since taken] →
      (∃ e, a.send = .failed e) ∨ a.send = .taken ∧ ¬ Down d n w

/-! ## The judgement -/

/-- What holds at the newest state. -/
def At (p : State → Prop) (past : List State) : Prop := ∃ w older, past = w :: older ∧ p w

theorem at_cons {p : State → Prop} {w : State} {older : List State} : At p (w :: older) ↔ p w :=
  ⟨fun ⟨_, _, h, hp⟩ => (List.cons.inj h).1 ▸ hp, fun h => ⟨w, older, rfl, h⟩⟩

theorem At.mono {p q : State → Prop} {past : List State} (h : At p past) (hpq : ∀ w, p w → q w) :
    At q past := by
  obtain ⟨w, older, rfl, hp⟩ := h
  exact ⟨w, older, rfl, hpq w hp⟩

/-- Whatever the answers of an outage, every step of the program keeps its promise; `C` holds of the
past where it starts and `D` where it ends. -/
abbrev Pays {α : Type} (d : String) (n : Nat) (ds : List SiemDestination) (C : List State → Prop)
    (m : Dispatch α) (D : α → List State → Prop) : Prop :=
  Program.Along (fun w a w' => WithinBinding a ∧ Fails d n w a w') (Deserved d n ds)
    (fun past => At (Sound n) past ∧ C past) m fun r past => At (Sound n) past ∧ D r past

/-- What is said of a state stays true over steps that charge nobody and send nothing. -/
def Stays (p : State → Prop) : Prop :=
  ∀ w w', Forth w w' → w'.history.pending = w.history.pending → p w → p w'

section Rules

variable {α : Type} {d : String} {n : Nat} {ds : List SiemDestination} {C : List State → Prop}
  {D : α → List State → Prop} {p : State → Prop}

theorem Sound.forth {w w' : State} (h : Sound n w) (hf : Forth w w') : Sound n w' :=
  ⟨h.1.forth hf, h.2.trans hf.log.length_le⟩

theorem Stays.silent (hp : Stays p) {w w' : State} (h : Silent w w') (hw : p w) : p w' :=
  hp w w' h.forth (congrArg History.pending h.history) hw

theorem pays_pure {a : α} (h : ∀ past, C past → D a past) :
    Pays d n ds C (pure a : Dispatch α) D :=
  Program.along_pure fun past hpast => ⟨hpast.1, h past hpast.2⟩

theorem pays_weaken {D' : α → List State → Prop} {C' : List State → Prop} {m : Dispatch α}
    (hm : Pays d n ds C m D) (hC : ∀ past, C' past → C past) (hD : ∀ r past, D r past → D' r past) :
    Pays d n ds C' m D' :=
  Program.along_weaken hm (fun past h => ⟨h.1, hC past h.2⟩) fun r past h => ⟨h.1, hD r past h.2⟩

/-- A step, after the arrivals before it: what it does to the state, and what follows. -/
theorem pays_step {f : State → Answer → State × α}
    (h : ∀ s past a, Sound n s → C (s :: past) → WithinBinding a →
      Fails d n s a (f (s.arriveAll a.arrivals) a).1 → Steady s (s.arriveAll a.arrivals) →
      Deserved d n ds (s :: past) (f (s.arriveAll a.arrivals) a).1 ∧
        Sound n (f (s.arriveAll a.arrivals) a).1 ∧
        D (f (s.arriveAll a.arrivals) a).2 ((f (s.arriveAll a.arrivals) a).1 :: s :: past)) :
    Pays d n ds C (step f) D := by
  refine Program.along_act fun s past a hP hC => ?_
  have hstep := h s past a (at_cons.mp hP.1) hP.2 hC.1 hC.2 (steady_arriveAll hC.1)
  exact ⟨hstep.1, at_cons.mpr hstep.2.1, hstep.2.2⟩

/-- A step that the history does not show puts nothing into the queue. -/
theorem Deserved.of_silent {s t : State} {past : List State} (hs : Sound n s)
    (h : Silent s t) : Deserved d n ds (s :: past) t := by
  refine ⟨hs.forth h.forth, ?_⟩
  intro w older hpast source rec hlog
  obtain ⟨rfl, -⟩ := List.cons.inj hpast
  rw [h.history] at hlog
  exact absurd hlog (by simp)

/-- A step with one entry that is no dead letter. -/
theorem Deserved.of_entry {s t : State} {past : List State} (ht : Sound n t) {e : Event}
    (hlog : t.history.log = s.history.log ++ [e]) (he : ∀ q, e ≠ .quarantined q) :
    Deserved d n ds (s :: past) t := by
  refine ⟨ht, ?_⟩
  intro w older hpast source rec hlog'
  obtain ⟨rfl, -⟩ := List.cons.inj hpast
  rw [hlog] at hlog'
  exact absurd (List.append_cancel_left hlog') (by simp [he])

/-- What is said of a past stays true over steps that charge nobody and send nothing. -/
def Endures (C : List State → Prop) : Prop :=
  ∀ s past t, Forth s t → t.history.pending = s.history.pending → C (s :: past) → C (t :: s :: past)

theorem endures_at (hp : Stays p) : Endures (At p) := fun s _ t hf hpending h =>
  at_cons.mpr (hp s t hf hpending (at_cons.mp h))

theorem Endures.and {C' : List State → Prop} (hC : Endures C) (hC' : Endures C') :
    Endures fun past => C past ∧ C' past := fun s past t hf hpending h =>
  ⟨hC s past t hf hpending h.1, hC' s past t hf hpending h.2⟩

theorem endures_imp {c : Prop} (hC : Endures C) : Endures fun past => c → C past :=
  fun s past t hf hpending h hc => hC s past t hf hpending (h hc)

theorem endures_exhausted {dest : SiemDestination} {source : Source} {rec : SiemRecord} {now : Int} :
    Endures (Exhausted dest source rec now) := by
  rintro s past t - - ⟨u, hu, h⟩
  exact ⟨u, List.mem_cons_of_mem t hu, h⟩

/-- A silent step keeps what is said of the past. -/
theorem pays_silent {f : State → Answer → State × α} (hf : ∀ w a, Silent w (f w a).1)
    (hC : Endures C) : Pays d n ds C (step f) fun _ => C := by
  refine pays_step fun s past a hs hpast _ _ harrive => ?_
  have hsilent := harrive.silent.trans (hf (s.arriveAll a.arrivals) a)
  exact ⟨Deserved.of_silent hs hsilent, hs.forth hsilent.forth,
    hC _ _ _ hsilent.forth (congrArg History.pending hsilent.history) hpast⟩

/-- A step with one entry that is no dead letter, and nothing that awaits `finish_batch` changed. -/
theorem pays_entry {f : State → Answer → State × α} (hf : ∀ w a, Forth w (f w a).1)
    (hlog : ∀ w a, ∃ e, (f w a).1.history.log = w.history.log ++ [e] ∧ ∀ q, e ≠ .quarantined q)
    (hpending : ∀ w a, (f w a).1.history.pending = w.history.pending) (hC : Endures C) :
    Pays d n ds C (step f) fun _ => C := by
  refine pays_step fun s past a hs hpast _ _ harrive => ?_
  have hforth := harrive.silent.forth.trans (hf (s.arriveAll a.arrivals) a)
  obtain ⟨e, he, hother⟩ := hlog (s.arriveAll a.arrivals) a
  rw [harrive.history] at he
  refine ⟨Deserved.of_entry (hs.forth hforth) he hother, hs.forth hforth, ?_⟩
  exact hC _ _ _ hforth (by rw [hpending, harrive.history]) hpast

end Rules

/-! ## The steps -/

section Steps

variable {d : String} {n : Nat} {ds : List SiemDestination} {C : List State → Prop}
  {s : SiemSettings} {dest : SiemDestination} {source : Source} {rec : SiemRecord}

theorem pays_pastDeadline (hC : Endures C) : Pays d n ds C pastDeadline fun _ => C :=
  pays_silent (fun w _ => Silent.refl w) hC

theorem pays_timeNow (hC : Endures C) : Pays d n ds C timeNow fun _ => C :=
  pays_silent (fun w _ => Silent.refl w) hC

theorem pays_flowGeneration (hC : Endures C) : Pays d n ds C flowGeneration fun _ => C :=
  pays_silent (fun w _ => Silent.refl w) hC

theorem pays_dlqFull (hC : Endures C) : Pays d n ds C (dlqFull s dest) fun _ => C :=
  pays_silent (fun w _ => Silent.refl w) hC

theorem pays_advance (hC : Endures C) (key : Key) (lastId sent : Nat) (now : Int) :
    Pays d n ds C (advance s key lastId sent now) fun _ => C :=
  pays_silent (fun w _ => silent_advance w key s.pceUrl s.orgId lastId sent now) hC

/-- What is read is in the order of the ids, and was in the table. -/
theorem pays_read (hC : Endures C) (after limit : Nat) :
    Pays d n ds C (read dest source after limit) fun records past =>
      At (fun w => records = (w.stored source).after (dest.takes source) after limit) past ∧
        C past := by
  refine pays_step fun w past a hw hpast _ _ harrive => ?_
  exact ⟨Deserved.of_silent hw harrive.silent, hw.forth harrive.silent.forth, at_cons.mpr rfl,
    hC _ _ _ harrive.silent.forth (congrArg History.pending harrive.history) hpast⟩

theorem forth_hold (w : State) (record : Sent) : Forth w (w.hold record) :=
  ⟨List.prefix_append _ _, fun _ => Delivery.Grows.refl _, fun _ c hc => Or.inr ⟨c, hc, rfl, rfl⟩⟩

theorem forth_quarantine (w : State) (letter : DeadLetter) (record : Sent) :
    Forth w (w.quarantine letter record) :=
  ⟨List.prefix_append _ _, fun _ => Delivery.Grows.refl _, fun _ c hc => Or.inr ⟨c, hc, rfl, rfl⟩⟩

theorem pays_held (hC : Endures C) (key : Key) (now : Int) :
    Pays d n ds C (held key rec now) fun _ => C := by
  refine pays_entry (fun w _ => ?_) (fun w _ => ?_) (fun w _ => ?_) hC
  · exact (silent_noteError w key "dlq_full" now).forth.trans (forth_hold _ _)
  · refine ⟨.held (key, rec), ?_, fun q => Event.noConfusion⟩
    simp only [State.hold, (silent_noteError w key "dlq_full" now).history]
  · simp only [State.hold, (silent_noteError w key "dlq_full" now).history]

/-- A dead letter that is deserved, if it is of the destination. -/
theorem pays_insertLetter (hdest : dest ∈ ds) (hC : Endures C) (payload error : String)
    (attempts : Nat) (now : Int) :
    Pays d n ds (fun past => C past ∧ (dest.id = d → Exhausted dest source rec now past))
      (insertLetter dest source rec payload error attempts now) fun _ => C := by
  refine pays_step fun w past a hw hpast _ _ harrive => ?_
  have hforth := harrive.silent.forth.trans (forth_quarantine (w.arriveAll a.arrivals)
    { destinationId := dest.id, source := source, recordId := rec.recordId,
      externalId := rec.externalId, eventTime := rec.time, payload := payload,
      sentAs := dest.sentAs, error := clip 2000 error, attempts := attempts,
      quarantinedAt := now } ((dest.id, source), rec))
  refine ⟨⟨hw.forth hforth, ?_⟩, hw.forth hforth, ?_⟩
  · intro w' older hsame source' rec' hlog
    obtain ⟨rfl, -⟩ := List.cons.inj hsame
    simp only [State.quarantine, harrive.history, List.append_cancel_left_eq, List.cons.injEq,
      Event.quarantined.injEq, Prod.mk.injEq, and_true] at hlog
    obtain ⟨⟨hd, rfl⟩, rfl⟩ := hlog
    exact ⟨dest, hdest, hd, _, List.getLast?_concat, hpast.2 hd⟩
  · have hpending : (w.arriveAll a.arrivals).history.pending = w.history.pending := by
      rw [harrive.history]
    exact hC _ _ _ hforth hpending hpast.1

theorem pays_quarantine (hdest : dest ∈ ds) (hC : Endures C) (payload error : String)
    (attempts : Nat) (now : Int) :
    Pays d n ds (fun past => C past ∧ (dest.id = d → Exhausted dest source rec now past))
      (quarantine s dest source rec payload error attempts now) fun _ => C := by
  rw [quarantine]
  apply Program.along_bind (pays_dlqFull (hC.and (endures_imp endures_exhausted)))
  intro full
  split
  · apply Program.along_bind (pays_held (hC.and (endures_imp endures_exhausted)) _ now)
    intro _
    exact pays_pure fun _ h => h.1
  · apply Program.along_bind (pays_insertLetter hdest hC payload error attempts now)
    intro _
    exact pays_pure fun _ h => h

end Steps

/-! ## The failure path -/

section FailurePath

variable {d : String} {n : Nat} {ds : List SiemDestination} {s : SiemSettings}
  {dest : SiemDestination} {source : Source} {head : SiemRecord}

/-- The destination has failed, nothing awaits a `finish_batch`, and the head failed at least so
often. -/
structure Failed (n : Nat) (dest : SiemDestination) (source : Source) (head : SiemRecord)
    (attempts : Nat) (w : State) : Prop where
  pending : w.history.pending = []
  down : Down dest.id n w
  attempts : attempts ≤ failures w.history.log ((dest.id, source), head)

theorem stays_failed {attempts : Nat} : Stays (Failed n dest source head attempts) :=
  fun _ _ hf hpending h => ⟨hpending.trans h.pending, h.down.forth hf.log,
    h.attempts.trans (failures_mono hf.log _)⟩

/-- An attempt at a record: while the destination is down it fails. -/
theorem pays_probe {attempts : Nat} (nxt : SiemRecord) :
    Pays d n ds (At (Failed n dest source head attempts)) (sendRecord (dest.id, source) nxt true)
      fun outcome past => (dest.id = d → outcome ≠ .taken) ∧
        At (fun w => (outcome ≠ .taken → w.history.pending = []) ∧ Down dest.id n w ∧
          attempts ≤ failures w.history.log ((dest.id, source), head)) past := by
  refine pays_step fun w past a hw hpast _ hfails harrive => ?_
  have hat := stays_failed.silent harrive.silent (at_cons.mp hpast)
  have hforth : Forth w ((w.arriveAll a.arrivals).sendRecord ((dest.id, source), nxt) true
      (decide (a.send = .taken))) :=
    harrive.silent.forth.trans ⟨List.prefix_append _ _, fun _ => Delivery.Grows.refl _,
      fun _ c hc => Or.inr ⟨c, hc, rfl, rfl⟩⟩
  have hlog : ((w.arriveAll a.arrivals).sendRecord ((dest.id, source), nxt) true
      (decide (a.send = .taken))).history.log = w.history.log ++
        [.sent ((dest.id, source), nxt) true ((w.arriveAll a.arrivals).floorOf (dest.id, source))
          (w.arriveAll a.arrivals).history.pending (decide (a.send = .taken))] := by
    simp only [State.sendRecord, harrive.history]
  refine ⟨Deserved.of_entry (hw.forth hforth) hlog fun q => Event.noConfusion, hw.forth hforth,
    ?_, at_cons.mpr ⟨?_, ?_, ?_⟩⟩
  · rintro rfl htaken
    rcases hfails source nxt _ _ _ _ hlog with ⟨e, he⟩ | ⟨-, hup⟩
    · have htaken : a.send = .taken := htaken
      rw [htaken] at he
      cases he
    · exact hup (at_cons.mp hpast).down
  · intro hne
    have hne : a.send ≠ .taken := hne
    simp only [State.sendRecord, hne, decide_false, Bool.false_eq_true, if_false]
    exact hat.pending
  · exact (at_cons.mp hpast).down.forth hforth.log
  · exact (at_cons.mp hpast).attempts.trans (failures_mono hforth.log _)

theorem forth_finishBatch (w : State) (destination : String) (confirmed : Bool) :
    Forth w (w.finishBatch destination confirmed) :=
  ⟨List.prefix_append _ _, fun _ => Delivery.Grows.refl _, fun _ c hc => Or.inr ⟨c, hc, rfl, rfl⟩⟩

/-- The `finish_batch` of a probe. -/
theorem pays_finishProbe {attempts : Nat} :
    Pays d n ds (At fun w => Down dest.id n w ∧
        attempts ≤ failures w.history.log ((dest.id, source), head)) (finishBatch dest)
      fun _ => At (Failed n dest source head attempts) := by
  refine pays_step fun w past a hw hpast _ _ harrive => ?_
  have hforth := harrive.silent.forth.trans
    (forth_finishBatch (w.arriveAll a.arrivals) dest.id (decide (a.finish = .confirmed)))
  have hat := at_cons.mp hpast
  have hlog : ((w.arriveAll a.arrivals).finishBatch dest.id
      (decide (a.finish = .confirmed))).history.log = w.history.log ++
        [.finished dest.id w.history.pending (decide (a.finish = .confirmed))] := by
    simp only [State.finishBatch, harrive.history]
  exact ⟨Deserved.of_entry (hw.forth hforth) hlog fun q => Event.noConfusion, hw.forth hforth,
    at_cons.mpr ⟨rfl, hat.1.forth hforth.log, hat.2.trans (failures_mono hforth.log _)⟩⟩

/-- While the destination is down no probe goes through. -/
theorem pays_nextGoesThrough {attempts : Nat} (records : List SiemRecord) :
    Pays d n ds (At (Failed n dest source head attempts)) (nextGoesThrough dest source records)
      fun r past => (dest.id = d → r = none) ∧ At (Failed n dest source head attempts) past := by
  induction records with
  | nil => exact pays_pure fun _ h => ⟨fun _ => rfl, h⟩
  | cons nxt rest ih =>
      rw [nextGoesThrough]
      split
      · exact ih
      · apply Program.along_bind (pays_probe nxt)
        intro outcome
        have hfailed : outcome ≠ .taken → Pays d n ds
            (fun past => (dest.id = d → outcome ≠ .taken) ∧
              At (fun w => (outcome ≠ .taken → w.history.pending = []) ∧ Down dest.id n w ∧
                attempts ≤ failures w.history.log ((dest.id, source), head)) past)
            (nextGoesThrough dest source rest)
            fun r past => (dest.id = d → r = none) ∧
              At (Failed n dest source head attempts) past := by
          intro hne
          exact pays_weaken ih (fun _ h => h.2.mono fun w hw => ⟨hw.1 hne, hw.2.1, hw.2.2⟩)
            fun _ _ h => h
        cases outcome with
        | taken =>
            -- so the destination is another one
            refine Program.along_fact (c := dest.id ≠ d) (fun past h hd => h.2.1 hd rfl) fun hd => ?_
            refine Program.along_bind (pays_weaken pays_finishProbe
              (fun _ h => h.2.mono fun w hw => hw.2) fun _ _ h => h) ?_
            intro finish
            cases finish with
            | confirmed => exact pays_pure fun _ h => ⟨fun h' => absurd h' hd, h⟩
            | unconfirmed e => exact ih
            | raised => exact ih
        | refused e => exact hfailed (by simp)
        | failed e => exact hfailed (by simp)

/-- A head that is stuck is exhausted: it failed up to one of the two limits. -/
theorem pays_isStuck (attempts : Nat) (now : Int) :
    Pays d n ds (At (Failed n dest source head attempts)) (isStuck dest source head attempts now)
      fun stuck past => At (Failed n dest source head attempts) past ∧
        (stuck = true → Exhausted dest source head now past) := by
  rw [isStuck]
  split
  · rename_i hhard
    refine pays_pure fun past h => ⟨h, fun _ => ?_⟩
    obtain ⟨w, older, rfl, hw⟩ := h
    exact ⟨w, List.mem_cons_self, Or.inl (hhard.trans hw.attempts)⟩
  · split
    · rename_i hstuck
      apply Program.along_bind (pays_read (endures_at stays_failed) head.recordId 1)
      intro later
      split
      · rename_i hnone
        refine pays_step fun w past a hw hpast _ _ harrive => ?_
        have hforth := harrive.silent.forth
        have hat := at_cons.mp hpast.2
        refine ⟨Deserved.of_silent hw harrive.silent, hw.forth hforth,
          at_cons.mpr (stays_failed.silent harrive.silent hat), fun hup => ?_⟩
        -- nothing came after the head when it was asked, and the cursors are the same since
        refine ⟨w, List.mem_cons_of_mem _ List.mem_cons_self, Or.inr ⟨hstuck.trans hat.attempts, ?_, ?_⟩⟩
        · rw [← at_cons.mp hpast.1, hnone]
        · obtain ⟨source', -, hsent⟩ := List.any_eq_true.mp hup
          split at hsent
          · cases hsent
          · rename_i sentAt hat'
            obtain ⟨c, hc, hlast⟩ := Option.bind_eq_some_iff.mp hat'
            rw [harrive.cursors] at hc
            exact ⟨source', c, sentAt, hc, hlast, of_decide_eq_true hsent⟩
      · exact pays_pure fun _ h => ⟨h.2, fun hfalse => absurd hfalse (by decide)⟩
    · exact pays_pure fun _ h => ⟨h, fun hfalse => absurd hfalse (by decide)⟩

/-- A failure of the head that is not charged yet, after which the destination is down and nothing awaits
a `finish_batch`. -/
structure Unpaid (n : Nat) (dest : SiemDestination) (source : Source) (head : SiemRecord)
    (w : State) : Prop where
  pending : w.history.pending = []
  down : Down dest.id n w
  owed : Owed (dest.id, source) head w

theorem stays_unpaid : Stays (Unpaid n dest source head) := fun _ _ hf hpending h =>
  ⟨hpending.trans h.pending, h.down.forth hf.log, h.owed.forth hf⟩

/-- The failure is charged: the count is that of the head's own failures at most. -/
theorem pays_recordFailure (error : String) (now : Int) :
    Pays d n ds (At (Unpaid n dest source head))
      (recordFailure (dest.id, source) head.recordId error now)
      fun attempts => At (Failed n dest source head attempts) := by
  refine pays_step fun w past a hw hpast _ _ harrive => ?_
  have hat := stays_unpaid.silent harrive.silent (at_cons.mp hpast)
  have hcounted := hw.1.forth harrive.silent.forth
  obtain ⟨hcharged, hle⟩ := charge hcounted hat.owed error now
  have hhistory : ((w.arriveAll a.arrivals).recordFailure (dest.id, source) head.recordId error
      now).1.history = w.history :=
    (updateCursor_history _ _ _).trans harrive.history
  have hlength : n ≤ ((w.arriveAll a.arrivals).recordFailure (dest.id, source) head.recordId error
      now).1.history.log.length := by
    rw [hhistory]
    exact hw.2
  refine ⟨⟨⟨hcharged, hlength⟩, ?_⟩, ⟨hcharged, hlength⟩, at_cons.mpr ⟨?_, ?_, ?_⟩⟩
  · intro w' older hsame source' rec hlog
    obtain ⟨rfl, -⟩ := List.cons.inj hsame
    rw [hhistory] at hlog
    exact absurd hlog (by simp)
  · rw [hhistory]
    exact (at_cons.mp hpast).pending
  · unfold Down
    rw [hhistory]
    exact (at_cons.mp hpast).down
  · rw [hhistory]
    rwa [harrive.history] at hle

theorem pays_readAhead {C : List State → Prop} (hC : Endures C) (records : List SiemRecord)
    (stuck : Bool) : Pays d n ds C (readAhead dest source records head stuck) fun _ => C := by
  rw [readAhead]
  split
  · exact pays_weaken (pays_read hC _ _) (fun _ h => h) fun _ _ h => h.2
  · exact pays_pure fun _ h => h

/-- A head that failed too often, or that a later record went past, at another destination. -/
theorem pays_blameHead (hdest : dest ∈ ds) {attempts : Nat} (error : String) (now : Int)
    (payloads : List (Nat × String)) (ahead : List SiemRecord) (probed : Option SiemRecord)
    (run : SourceRun) :
    Pays d n ds (fun past => At (Failed n dest source head attempts) past ∧
        (dest.id = d → Exhausted dest source head now past))
      (blameHead s dest source head error attempts now payloads ahead probed run)
      fun _ => At (Failed n dest source head attempts) := by
  rw [blameHead.eq_def]
  split
  · exact Program.along_stop
  · apply Program.along_bind (pays_quarantine hdest (endures_at stays_failed) _ error attempts now)
    intro room
    split
    · apply Program.along_bind (pays_advance (endures_at stays_failed) _ _ _ now)
      intro _
      exact pays_pure fun _ h => h
    · exact pays_pure fun _ h => h

theorem pays_headFailed (hdest : dest ∈ ds) (records : List SiemRecord)
    (payloads : List (Nat × String)) (error : String) (now : Int) (run : SourceRun) :
    Pays d n ds (At (Unpaid n dest source head))
      (headFailed s dest source records payloads head error now run)
      fun _ => At fun w => w.history.pending = [] := by
  have hidle : ∀ attempts past, At (Failed n dest source head attempts) past →
      At (fun w => w.history.pending = []) past := fun _ _ h => h.mono fun _ hw => hw.pending
  rw [headFailed]
  apply Program.along_bind (pays_recordFailure error now)
  intro attempts
  apply Program.along_bind (pays_isStuck attempts now)
  intro stuck
  have hpast : Endures fun past => At (Failed n dest source head attempts) past ∧
      (stuck = true → Exhausted dest source head now past) :=
    (endures_at stays_failed).and (endures_imp endures_exhausted)
  split
  · exact pays_pure fun past h => hidle attempts past h.1
  · apply Program.along_bind (pays_dlqFull hpast)
    intro full
    split
    · apply Program.along_bind (pays_held hpast _ now)
      intro _
      exact pays_pure fun past h => hidle attempts past h.1
    · apply Program.along_bind (pays_readAhead hpast records stuck)
      intro ahead
      -- only a head that is stuck, and so exhausted, is blamed at a destination that is down
      have hprobe : Pays d n ds (fun past => At (Failed n dest source head attempts) past ∧
          (stuck = true → Exhausted dest source head now past))
          (probeNext dest source ahead head stuck)
          fun probed past => At (Failed n dest source head attempts) past ∧
            (stuck = true ∨ probed.isSome = true → dest.id = d →
              Exhausted dest source head now past) := by
        rw [probeNext]
        cases stuck with
        | true =>
            rw [if_pos rfl]
            exact pays_pure fun past h => ⟨h.1, fun _ _ => h.2 rfl⟩
        | false =>
            rw [if_neg (by decide)]
            refine pays_weaken (pays_nextGoesThrough (probes ahead head)) (fun _ h => h.1) ?_
            rintro probed past ⟨hnone, hat⟩
            refine ⟨hat, ?_⟩
            rintro (hstuck | hsome) hd
            · cases hstuck
            · rw [hnone hd] at hsome
              cases hsome
      apply Program.along_bind hprobe
      intro probed
      split
      · rename_i hblame
        rw [Bool.or_eq_true] at hblame
        exact pays_weaken (pays_blameHead hdest error now payloads ahead probed _)
          (fun _ h => ⟨h.1, h.2 hblame⟩) fun _ past h => hidle attempts past h
      · exact pays_pure fun past h => hidle attempts past h.1

end FailurePath

/-! ## The batch -/

/-- The state within the loop over a batch: the first record a line was made for is the first that
awaits `finish_batch`, or a failure of its own send is owed. -/
structure Sending (n : Nat) (dest : SiemDestination) (source : Source) (records : List SiemRecord)
    (b : Batch) (w : State) : Prop where
  rows : ∀ r ∈ records, r ∈ (w.stored source).rows
  none : firstSent records b.payloads = none → w.history.pending = []
  first : ∀ f, firstSent records b.payloads = some f →
    w.history.pending.head? = some ((dest.id, source), f) ∨ Owed (dest.id, source) f w
  counted : b.sent = 0 → w.history.pending = []
  failure : ∀ f e, b.failure = some (f, e) → Owed (dest.id, source) f w ∧ Down dest.id n w

section SendBatch

variable {d : String} {n : Nat} {ds : List SiemDestination} {s : SiemSettings}
  {dest : SiemDestination} {source : Source} {records : List SiemRecord} {b : Batch}

theorem stays_sending : Stays (Sending n dest source records b) := by
  intro w w' hf hpending h
  refine ⟨fun r hr => (hf.grows source).mem (h.rows r hr), fun hn => hpending.trans (h.none hn), ?_,
    fun hc => hpending.trans (h.counted hc),
    fun f e hfail => ⟨(h.failure f e hfail).1.forth hf, (h.failure f e hfail).2.forth hf.log⟩⟩
  intro f hfirst
  rw [hpending]
  exact (h.first f hfirst).imp_right fun howed => howed.forth hf

/-- Only the lines made, the count and the failure of a batch matter to its state. -/
theorem Sending.of_eq {b' : Batch} {w : State} (h : Sending n dest source records b w)
    (hp : b'.payloads = b.payloads) (hs : b'.sent = b.sent) (hf : b'.failure = b.failure) :
    Sending n dest source records b' w :=
  ⟨h.rows, fun hn => h.none (hp ▸ hn), fun f hfirst => h.first f (hp ▸ hfirst),
    fun hc => h.counted (hs ▸ hc), fun f e hfail => h.failure f e (hf ▸ hfail)⟩

theorem forth_sendRecord (w : State) (record : Sent) (probe taken : Bool) :
    Forth w (w.sendRecord record probe taken) :=
  ⟨List.prefix_append _ _, fun _ => Delivery.Grows.refl _, fun _ c hc => Or.inr ⟨c, hc, rfl, rfl⟩⟩

/-- The line of a record is made, and its send returned. -/
theorem Sending.took {processed rest : List SiemRecord} {rec : SiemRecord} {w : State}
    (payload : String)
    (hordered : (processed ++ rec :: rest).Pairwise fun a b => a.recordId < b.recordId)
    (hunsent : ∀ r ∈ rec :: rest, b.payloads.lookup r.recordId = Option.none)
    (h : Sending n dest source (processed ++ rec :: rest) b w) :
    Sending n dest source (processed ++ rec :: rest) ((b.made rec payload).took rec)
      (w.sendRecord ((dest.id, source), rec) false true) := by
  have hfirst := firstSent_append payload hordered hunsent
  have hforth := forth_sendRecord w ((dest.id, source), rec) false true
  refine ⟨h.rows, ?_, ?_, fun hzero => absurd hzero (Nat.succ_ne_zero _), ?_⟩
  · intro hnone
    simp only [Batch.took, Batch.made, hfirst, Option.or_eq_none_iff, reduceCtorEq,
      and_false] at hnone
  · intro f hf
    simp only [Batch.took, Batch.made, hfirst] at hf
    cases hb : firstSent (processed ++ rec :: rest) b.payloads with
    | none =>
        -- the first line of the batch: nothing awaited `finish_batch` before
        rw [hb, Option.none_or] at hf
        left
        simp [State.sendRecord, h.none hb, Option.some.inj hf]
    | some g =>
        rw [hb, Option.some_or] at hf
        rw [← Option.some.inj hf]
        rcases h.first g hb with hhead | howed
        · left
          simp [State.sendRecord, List.head?_append, hhead]
        · exact Or.inr (howed.forth hforth)
  · exact fun f e hf => ⟨(h.failure f e hf).1.forth hforth, (h.failure f e hf).2.forth hforth.log⟩

/-- The line of a record is made, and its send failed, whatever with: the failure is owed. -/
theorem Sending.failed {processed rest : List SiemRecord} {rec : SiemRecord} {w : State}
    (payload : String)
    (hordered : (processed ++ rec :: rest).Pairwise fun a b => a.recordId < b.recordId)
    (hunsent : ∀ r ∈ rec :: rest, b.payloads.lookup r.recordId = Option.none)
    (h : Sending n dest source (processed ++ rec :: rest) b w)
    (howed : Owed (dest.id, source) rec (w.sendRecord ((dest.id, source), rec) false false)) :
    Sending n dest source (processed ++ rec :: rest) (b.made rec payload)
      (w.sendRecord ((dest.id, source), rec) false false) := by
  have hfirst := firstSent_append payload hordered hunsent
  have hforth := forth_sendRecord w ((dest.id, source), rec) false false
  refine ⟨h.rows, ?_, ?_, h.counted, ?_⟩
  · intro hnone
    simp only [Batch.made, hfirst, Option.or_eq_none_iff, reduceCtorEq, and_false] at hnone
  · intro f hf
    simp only [Batch.made, hfirst] at hf
    cases hb : firstSent (processed ++ rec :: rest) b.payloads with
    | none =>
        rw [hb, Option.none_or] at hf
        rw [← Option.some.inj hf]
        exact Or.inr howed
    | some g =>
        rw [hb, Option.some_or] at hf
        rw [← Option.some.inj hf]
        exact (h.first g hb).imp_right fun howed => howed.forth hforth
  · exact fun f e hf => ⟨(h.failure f e hf).1.forth hforth, (h.failure f e hf).2.forth hforth.log⟩

/-- The state after a record's line was made and its send was answered: taken, it awaits `finish_batch`;
otherwise its failure is owed. The destination of the outage refuses nothing for good. -/
theorem pays_send {processed rest : List SiemRecord} {rec : SiemRecord} (payload : String)
    (hordered : (processed ++ rec :: rest).Pairwise fun a b => a.recordId < b.recordId)
    (hunsent : ∀ r ∈ rec :: rest, b.payloads.lookup r.recordId = none) :
    Pays d n ds (At (Sending n dest source (processed ++ rec :: rest) b))
      (sendRecord (dest.id, source) rec false) fun outcome past =>
        (dest.id = d → ∀ e, outcome ≠ .refused e) ∧
        (outcome = .taken → At (Sending n dest source (processed ++ rec :: rest)
          ((b.made rec payload).took rec)) past) ∧
        (outcome ≠ .taken → At (fun w =>
          Sending n dest source (processed ++ rec :: rest) (b.made rec payload) w ∧
            Owed (dest.id, source) rec w ∧ Down dest.id n w) past) := by
  refine pays_step fun w past a hw hpast _ hfails harrive => ?_
  have hat := stays_sending.silent harrive.silent (at_cons.mp hpast)
  have hforth := harrive.silent.forth.trans (forth_sendRecord (w.arriveAll a.arrivals)
    ((dest.id, source), rec) false (decide (a.send = .taken)))
  have hlog : ((w.arriveAll a.arrivals).sendRecord ((dest.id, source), rec) false
      (decide (a.send = .taken))).history.log = w.history.log ++
        [.sent ((dest.id, source), rec) false ((w.arriveAll a.arrivals).floorOf (dest.id, source))
          (w.arriveAll a.arrivals).history.pending (decide (a.send = .taken))] := by
    simp only [State.sendRecord, harrive.history]
  refine ⟨Deserved.of_entry (hw.forth hforth) hlog fun q => Event.noConfusion, hw.forth hforth,
    ?_, ?_, ?_⟩
  · rintro rfl e hrefused
    have hrefused : a.send = .refused e := hrefused
    rcases hfails source rec _ _ _ _ hlog with ⟨e', he'⟩ | ⟨htaken, -⟩
    · rw [hrefused] at he'
      cases he'
    · rw [hrefused] at htaken
      cases htaken
  · intro htaken
    have htaken : decide (a.send = .taken) = true := decide_eq_true htaken
    rw [htaken]
    exact at_cons.mpr (hat.took payload hordered hunsent)
  · intro hne
    have hne : decide (a.send = .taken) = false := decide_eq_false hne
    rw [hne] at hlog ⊢
    have howed : Owed (dest.id, source) rec ((w.arriveAll a.arrivals).sendRecord
        ((dest.id, source), rec) false false) := by
      refine owed_of_failure ((hw.1.forth harrive.silent.forth) (dest.id, source)) ?_ rfl rfl
        (by rw [hlog, harrive.history]) (by simp [isFailureOf])
      exact hat.rows rec (List.mem_append_right _ List.mem_cons_self)
    exact at_cons.mpr ⟨hat.failed payload hordered hunsent howed, howed,
      down_append hw.2 hlog (by simp [isFailureAt])⟩

/-- Every record has a line, at the destination of the outage. -/
def Formats (d : String) (dest : SiemDestination) : Prop :=
  dest.id = d → ∀ rec, ∃ line, dest.formatter.formatRecord rec = .ok line

/-- By induction on the records still to be sent. -/
theorem pays_sendBatch (hdest : dest ∈ ds) (hformat : Formats d dest) (floor : Option Int)
    (hordered : records.Pairwise fun a b => a.recordId < b.recordId) (now : Int)
    {processed rest : List SiemRecord} (hrecords : records = processed ++ rest)
    (hunsent : ∀ r ∈ rest, b.payloads.lookup r.recordId = none) :
    Pays d n ds (At (Sending n dest source records b)) (sendBatch s dest source floor now rest b)
      fun b' => At (Sending n dest source records b') := by
  induction rest generalizing processed b with
  | nil => exact pays_pure fun _ h => h
  | cons rec rest ih =>
      have hnext : records = (processed ++ [rec]) ++ rest := by simpa using hrecords
      have hrest : ∀ r ∈ rest, b.payloads.lookup r.recordId = none :=
        fun r hr => hunsent r (List.mem_cons_of_mem _ hr)
      rw [sendBatch]
      apply Program.along_bind (pays_pastDeadline (endures_at stays_sending))
      intro late
      split
      · exact pays_pure fun _ h => h
      · split
        · exact pays_weaken (ih (b := b.passed rec) hnext hrest)
            (fun _ h => h.mono fun _ hw => hw.of_eq rfl rfl rfl) fun _ _ h => h
        · split
          · rename_i e hfails
            -- a record that has no line: the destination is another one
            have hother : dest.id ≠ d := by
              intro hd
              obtain ⟨line, hline⟩ := hformat hd rec
              rw [hfails] at hline
              cases hline
            apply Program.along_bind (pays_weaken
              (pays_quarantine hdest (endures_at stays_sending) _ _ 1 now)
              (fun _ h => ⟨h, fun hd => absurd hd hother⟩) fun _ _ h => h)
            intro room
            split
            · exact pays_weaken (ih (b := b.quarantined rec) hnext hrest)
                (fun _ h => h.mono fun _ hw => hw.of_eq rfl rfl rfl) fun _ _ h => h
            · exact pays_pure fun _ h => h.mono fun _ hw => hw.of_eq rfl rfl rfl
          · rename_i payload hline
            have hmade : ∀ r ∈ rest, (b.made rec payload).payloads.lookup r.recordId = none := by
              intro r hr
              have hlt : rec.recordId < r.recordId :=
                (List.pairwise_cons.1 (List.pairwise_append.1 (hrecords ▸ hordered)).2.1).1 r hr
              simp [Batch.made, List.lookup_append, hrest r hr, Nat.ne_of_gt hlt]
            apply Program.along_bind (hrecords ▸ pays_send payload (hrecords ▸ hordered) hunsent)
            intro outcome
            cases outcome with
            | taken =>
                exact pays_weaken (ih (b := (b.made rec payload).took rec) hnext hmade)
                  (fun _ h => h.2.1 rfl) fun _ _ h => h
            | refused e =>
                -- refused for good: the destination is another one
                refine Program.along_fact (c := dest.id ≠ d) (fun past h hd => h.2.1 hd e rfl)
                  fun hother => ?_
                refine Program.along_bind (pays_weaken
                  (pays_quarantine hdest (endures_at stays_sending) _ _ 1 now)
                  (fun _ h => ⟨(h.2.2 (by simp)).mono fun _ hw => hw.1, fun hd => absurd hd hother⟩)
                  fun _ _ h => h) ?_
                intro room
                split
                · exact pays_weaken (ih (b := (b.made rec payload).quarantined rec) hnext hmade)
                    (fun _ h => h.mono fun _ hw => hw.of_eq rfl rfl rfl) fun _ _ h => h
                · exact pays_pure fun _ h => h.mono fun _ hw => hw.of_eq rfl rfl rfl
            | failed e =>
                refine pays_pure fun past h => (h.2.2 (by simp)).mono fun w hw => ?_
                obtain ⟨hsending, howed, hdown⟩ := hw
                refine ⟨hsending.rows, hsending.none, hsending.first, hsending.counted, ?_⟩
                intro f e' hf
                obtain ⟨rfl, -⟩ := Prod.mk.inj (Option.some.inj hf)
                exact ⟨howed, hdown⟩

/-- A batch that is through: nothing awaits `finish_batch`, and its failure is owed. -/
structure Through (n : Nat) (dest : SiemDestination) (source : Source) (b : Batch) (w : State) :
    Prop where
  pending : w.history.pending = []
  failure : ∀ f e, b.failure = some (f, e) → Owed (dest.id, source) f w ∧ Down dest.id n w

theorem stays_through : Stays (Through n dest source b) := fun _ _ hf hpending h =>
  ⟨hpending.trans h.pending,
    fun f e hfail => ⟨(h.failure f e hfail).1.forth hf, (h.failure f e hfail).2.forth hf.log⟩⟩

/-- After a batch its failure is the record's own, or that of the batch the record came first in. -/
theorem pays_confirmBatch (last : Nat) :
    Pays d n ds (At (Sending n dest source records b)) (confirmBatch dest last records b)
      fun b' => At (Through n dest source b') := by
  rw [confirmBatch]
  split
  · rename_i hsent
    exact pays_pure fun past h => h.mono fun w hw => ⟨hw.counted hsent, hw.failure⟩
  · -- what a refused `finish_batch` was about starts with the first record sent
    refine Program.along_bind (pays_step (D := fun finish => At fun w => w.history.pending = [] ∧
      (∀ f e, b.failure = some (f, e) → Owed (dest.id, source) f w ∧ Down dest.id n w) ∧
      ∀ e f, finish = .unconfirmed e → firstSent records b.payloads = some f →
        Owed (dest.id, source) f w ∧ Down dest.id n w) ?_) ?_
    · intro w past a hw hpast _ _ harrive
      have hat := stays_sending.silent harrive.silent (at_cons.mp hpast)
      have hstep := forth_finishBatch (w.arriveAll a.arrivals) dest.id
        (decide (a.finish = .confirmed))
      have hforth := harrive.silent.forth.trans hstep
      have hlog : ((w.arriveAll a.arrivals).finishBatch dest.id
          (decide (a.finish = .confirmed))).history.log = w.history.log ++
            [.finished dest.id (w.arriveAll a.arrivals).history.pending
              (decide (a.finish = .confirmed))] := by
        simp only [State.finishBatch, harrive.history]
      refine ⟨Deserved.of_entry (hw.forth hforth) hlog fun q => Event.noConfusion, hw.forth hforth,
        at_cons.mpr ⟨rfl, ?_, ?_⟩⟩
      · exact fun f e hf => ⟨(hat.failure f e hf).1.forth hstep,
          (hat.failure f e hf).2.forth hstep.log⟩
      · intro e f hfinish hf
        have hunconfirmed : decide (a.finish = .confirmed) = false := by
          rw [show a.finish = .unconfirmed e from hfinish]
          rfl
        rw [hunconfirmed] at hlog
        have hdown : Down dest.id n ((w.arriveAll a.arrivals).finishBatch dest.id
            (decide (a.finish = .confirmed))) := by
          rw [hunconfirmed]
          exact down_append hw.2 hlog (by simp [isFailureAt])
        refine ⟨?_, hdown⟩
        rcases hat.first f hf with hhead | howed
        · rw [hunconfirmed]
          refine owed_of_failure ((hw.1.forth harrive.silent.forth) (dest.id, source)) ?_ rfl rfl
            (by rw [hlog, ← harrive.history]) (by simp [isFailureOf, hhead])
          exact hat.rows f (List.mem_of_find?_eq_some hf)
        · exact howed.forth hstep
    · intro finish
      split
      · exact pays_pure fun past h => h.mono fun w hw => ⟨hw.1, hw.2.1⟩
      · rename_i e first hfirst
        refine pays_pure fun past h => h.mono fun w hw => ⟨hw.1, ?_⟩
        intro f e' hf
        obtain ⟨rfl, -⟩ := Prod.mk.inj (Option.some.inj hf)
        exact hw.2.2 e first rfl hfirst
      · exact Program.along_stop

end SendBatch

/-! ## A source, a destination, a tick -/

section Run

variable {d : String} {n : Nat} {ds : List SiemDestination} {s : SiemSettings}
  {dest : SiemDestination} {source : Source}

/-- Nothing awaits a `finish_batch`. -/
def Settled (w : State) : Prop := w.history.pending = []

theorem endures_settled : Endures (At Settled) :=
  endures_at fun _ _ _ hpending h => hpending.trans h

theorem pays_settle (hdest : dest ∈ ds) (records : List SiemRecord) (now : Int) (b : Batch) :
    Pays d n ds (At (Through n dest source b)) (settle s dest source records now b)
      fun _ => At Settled := by
  rw [settle.eq_def]
  split
  · exact pays_pure fun _ h => h.mono fun _ hw => hw.pending
  · split
    · rename_i head error hfailure
      refine Program.along_bind (pays_weaken
        (pays_headFailed hdest records b.payloads error now b.counted)
        (fun _ h => h.mono fun w hw => ⟨hw.pending, (hw.failure head error hfailure).2,
          (hw.failure head error hfailure).1⟩) fun _ _ h => h) ?_
      intro run
      exact pays_pure fun _ h => h
    · split
      · exact pays_pure fun _ h => h.mono fun _ hw => hw.pending
      · exact pays_pure fun _ h => h.mono fun _ hw => hw.pending

/-- Nothing awaits a `finish_batch`, and the records are rows of the source. -/
structure Read (source : Source) (records : List SiemRecord) (w : State) : Prop where
  pending : w.history.pending = []
  rows : ∀ r ∈ records, r ∈ (w.stored source).rows

theorem stays_read {records : List SiemRecord} : Stays (Read source records) :=
  fun _ _ hf hpending h =>
    ⟨hpending.trans h.pending, fun r hr => (hf.grows source).mem (h.rows r hr)⟩

theorem pays_runBatch (hdest : dest ∈ ds) (hformat : Formats d dest) (gen last : Nat)
    (floor : Option Int) (run : SourceRun) {records : List SiemRecord}
    (hordered : records.Pairwise fun a b => a.recordId < b.recordId) :
    Pays d n ds (At (Read source records)) (runBatch s dest source gen floor last run records)
      fun _ => At Settled := by
  have hsettled : ∀ past, At (Read source records) past → At Settled past :=
    fun _ h => h.mono fun _ hw => hw.pending
  rw [runBatch]
  apply Program.along_bind (pays_flowGeneration (endures_at stays_read))
  intro generation
  split
  · exact pays_pure fun past h => hsettled past h
  · apply Program.along_bind (pays_timeNow (endures_at stays_read))
    intro now
    have hbatch : Pays d n ds (At (Sending n dest source records ⟨last, 0, none, [], run⟩))
        (sendBatch s dest source floor now records ⟨last, 0, none, [], run⟩)
        fun b => At (Sending n dest source records b) :=
      pays_sendBatch hdest hformat floor hordered now (List.nil_append records).symm fun _ _ => rfl
    refine Program.along_bind (pays_weaken hbatch ?_ fun _ _ h => h) ?_
    · -- before the first record nothing was sent
      refine fun past h => h.mono fun w hw => ⟨hw.rows, fun _ => hw.pending, ?_,
        fun _ => hw.pending, ?_⟩
      · intro f hf
        rw [firstSent_nil] at hf
        cases hf
      · intro f e hf
        cases hf
    · intro b
      apply Program.along_bind (pays_confirmBatch last)
      intro b'
      apply Program.along_bind (pays_advance (endures_at stays_through) _ _ _ now)
      intro moved
      split
      · exact pays_settle hdest records now b'
      · exact pays_pure fun _ h => h.mono fun _ hw => hw.pending

theorem pays_round (hdest : dest ∈ ds) (hformat : Formats d dest) (gen last : Nat)
    (floor : Option Int) (run : SourceRun) :
    Pays d n ds (At Settled) (round s dest source gen floor last run) fun _ => At Settled := by
  rw [round]
  apply Program.along_bind (pays_pastDeadline endures_settled)
  intro late
  split
  · exact pays_pure fun _ h => h
  · apply Program.along_bind (pays_read endures_settled last dest.batchSize)
    intro records
    split
    · split
      · refine Program.along_bind (pays_weaken
          (pays_silent (fun w _ => silent_dropFloor w (dest.id, source)) endures_settled)
          (fun _ h => h.2) fun _ _ h => h) ?_
        intro _
        exact pays_pure fun _ h => h
      · exact pays_pure fun _ h => h.2
    · refine Program.along_fact
        (c := records.Pairwise fun a b => a.recordId < b.recordId) ?_ fun hordered => ?_
      · rintro past ⟨-, ⟨w, older, -, rfl⟩, -⟩
        exact ((w.stored source).ordered.sublist List.filter_sublist).sublist
          (List.take_sublist _ _)
      · refine pays_weaken (pays_runBatch hdest hformat gen last floor run hordered) ?_
          fun _ _ h => h
        rintro past ⟨⟨w, older, rfl, rfl⟩, hsettled⟩
        exact at_cons.mpr ⟨at_cons.mp hsettled, fun r hr =>
          List.mem_of_mem_filter (List.mem_of_mem_take hr)⟩

theorem pays_startSource :
    Pays d n ds (At Settled) (startSource s dest source) fun _ => At Settled := by
  rw [startSource]
  apply Program.along_bind (pays_silent (fun w _ => Silent.refl w) endures_settled)
  intro newest
  refine Program.along_bind (pays_step (D := fun _ => At Settled) ?_) ?_
  · intro w past a hw hpast _ _ harrive
    have hforth := harrive.silent.forth.trans
      (forth_startCursor (w.arriveAll a.arrivals) (dest.id, source) s.pceUrl s.orgId newest)
    have hlog : ((w.arriveAll a.arrivals).startCursor (dest.id, source) s.pceUrl s.orgId
        newest).history.log = w.history.log := by
      rw [← harrive.history]
      rfl
    refine ⟨⟨hw.forth hforth, ?_⟩, hw.forth hforth, at_cons.mpr ?_⟩
    · intro w' older hsame source' rec hquarantined
      obtain ⟨rfl, -⟩ := List.cons.inj hsame
      rw [hlog] at hquarantined
      exact absurd hquarantined (by simp)
    · exact (congrArg History.pending harrive.history).trans (at_cons.mp hpast)
  · intro _
    exact pays_pure fun _ h => h

theorem pays_runSource (hdest : dest ∈ ds) (hformat : Formats d dest) (gen : Nat) :
    Pays d n ds (At Settled) (runSource s dest source gen) fun _ => At Settled := by
  rw [runSource]
  apply Program.along_bind (pays_silent (fun w _ => Silent.refl w) endures_settled)
  intro cur
  cases cur with
  | none => exact pays_startSource
  | some c =>
      simp only
      split
      · refine Program.along_loop (I := fun _ past => At (Sound n) past ∧ At Settled past)
          (fun b => ?_) (c.lastId, SourceRun.empty)
        refine Program.along_weaken (pays_round hdest hformat gen b.1 c.floorTime b.2)
          (fun _ h => h) ?_
        rintro (next | run) past h
        · exact h
        · exact h
      · exact pays_startSource

theorem pays_runSources (hdest : dest ∈ ds) (hformat : Formats d dest) (gen : Nat)
    (names : List Source) :
    Pays d n ds (At Settled) (runSources s dest gen names) fun _ => At Settled := by
  induction names with
  | nil => exact pays_pure fun _ h => h
  | cons source names ih =>
      rw [runSources]
      apply Program.along_bind (pays_runSource hdest hformat gen)
      intro r
      split
      · exact pays_pure fun _ h => h
      · apply Program.along_bind ih
        intro _
        exact pays_pure fun _ h => h

theorem pays_noteSetup (error : String) (names : List Source) :
    Pays d n ds (At Settled) (noteSetup dest error names) fun _ => At Settled := by
  induction names with
  | nil => exact pays_pure fun _ h => h
  | cons source names ih =>
      rw [noteSetup]
      apply Program.along_bind
        (pays_silent (fun w a => silent_noteError w (dest.id, source) _ a.now) endures_settled)
      intro _
      exact ih

theorem pays_runDestination (hdest : dest ∈ ds) (hformat : Formats d dest) (gen : Nat) :
    Pays d n ds (fun _ => True) (runDestination s dest gen) fun _ _ => True := by
  rw [runDestination]
  refine Program.along_bind (pays_step (D := fun _ => At Settled) ?_) ?_
  · -- nothing was sent on the new transport
    intro w past a hw _ _ _ harrive
    have hopen : Forth (w.arriveAll a.arrivals) (w.arriveAll a.arrivals).openTransport :=
      ⟨List.prefix_rfl, fun _ => Delivery.Grows.refl _, fun _ c hc => Or.inr ⟨c, hc, rfl, rfl⟩⟩
    have hforth := harrive.silent.forth.trans hopen
    refine ⟨⟨hw.forth hforth, ?_⟩, hw.forth hforth, at_cons.mpr rfl⟩
    intro w' older hsame source' rec hquarantined
    obtain ⟨rfl, -⟩ := List.cons.inj hsame
    simp only [State.openTransport, harrive.history] at hquarantined
    exact absurd hquarantined (by simp)
  · intro setup
    cases setup with
    | some e =>
        apply Program.along_bind (pays_noteSetup e dest.cursorSources)
        intro _
        exact pays_pure fun _ _ => trivial
    | none =>
        exact pays_weaken (pays_runSources hdest hformat gen dest.cursorSources) (fun _ h => h)
          fun _ _ _ => trivial

variable (ds) in
theorem pays_runDestinations (gen : Nat) (destinations : List SiemDestination)
    (hdest : ∀ dest ∈ destinations, dest ∈ ds ∧ Formats d dest) :
    Pays d n ds (fun _ => True) (runDestinations s gen destinations) fun _ _ => True := by
  induction destinations with
  | nil => exact pays_pure fun _ h => h
  | cons dest destinations ih =>
      rw [runDestinations]
      have hfirst := hdest dest List.mem_cons_self
      apply Program.along_bind (pays_runDestination hfirst.1 hfirst.2 gen)
      intro _
      apply Program.along_bind (ih fun d hd => hdest d (List.mem_cons_of_mem _ hd))
      intro _
      exact pays_pure fun _ h => h

end Run

/-! ## Ticks -/

/-- The steps of one tick after the other, each with its answer. -/
def siemSteps : List (SiemSettings × List Answer) → State → List (State × Answer × State)
  | [], _ => []
  | (s, answers) :: ticks, w =>
      let visited := (runSiem s w answers).1
      Program.steps w answers visited ++ siemSteps ticks (lastState w visited)

/-- From some point on every send to the destination fails with a transient error, and all of its
records can be formatted. -/
structure AllFail (d : String) (ticks : List (SiemSettings × List Answer)) (w : State) : Prop where
  formats : ∀ t ∈ ticks, ∀ dest ∈ t.1.destinations, Formats d dest
  sends : ∀ x ∈ siemSteps ticks w, Fails d w.history.log.length x.1 x.2.1 x.2.2

/-- The flow store is recreated before the first step of the tick only, and its cursors restarted with
it. -/
structure BetweenTicks (answers : List Answer) : Prop where
  first : ∀ a ∈ answers.head?, Restarts a.arrivals
  rest : ∀ a ∈ answers.tail, WithinBinding a

/-- What is owed to the records of a destination during an outage: failures are counted for the record
that failed, and what enters the dead-letter queue is exhausted. -/
structure Charged (d : String) (ticks : List (SiemSettings × List Answer)) (w : State) : Prop where
  counted : ∀ w' ∈ w :: siemRuns ticks w, HeadsCounted w'
  exhausted : ∀ before w₁ w₂ after, w :: siemRuns ticks w = before ++ w₁ :: w₂ :: after →
    ∀ source rec, w₂.history.log = w₁.history.log ++ [.quarantined ((d, source), rec)] →
      ∃ t ∈ ticks, ∃ dest ∈ t.1.destinations, dest.id = d ∧
        ∃ letter, w₂.dlq.getLast? = some letter ∧
          Exhausted dest source rec letter.quarantinedAt (w₁ :: before.reverse)

section Ticks

variable {d : String} {n : Nat} {ds : List SiemDestination}

theorem silentLog_arriveAll (w : State) (arrivals : List Arrival) :
    (w.arriveAll arrivals).history = w.history := by
  induction arrivals generalizing w with
  | nil => rfl
  | cons a arrivals ih =>
      refine (ih (w.arrive a)).trans ?_
      cases a <;> rfl

/-- One tick: what arrives before its first step, and then the destinations. -/
theorem promised_runSiem {s : SiemSettings} {answers : List Answer} {w : State}
    (past : List State) (hw : Sound n w)
    (hdest : ∀ dest ∈ s.destinations, dest ∈ ds ∧ Formats d dest) (hbetween : BetweenTicks answers)
    (hsends : ∀ x ∈ Program.steps w answers (runSiem s w answers).1, Fails d n x.1 x.2.1 x.2.2) :
    Program.Promised (Deserved d n ds) (w :: past) (runSiem s w answers).1 := by
  unfold runSiem at hsends ⊢
  cases henabled : s.enabled with
  | false => exact trivial
  | true =>
      rw [henabled] at hsends
      cases answers with
      | nil => exact trivial
      | cons a rest =>
          have hhistory := silentLog_arriveAll w a.arrivals
          have harrived : Sound n (w.arriveAll a.arrivals) :=
            ⟨hw.1.arriveAll (hbetween.first a rfl), by rw [hhistory]; exact hw.2⟩
          have hrun := pays_runDestinations (d := d) (n := n) (s := s) ds
            (w.arriveAll a.arrivals).generation (s.destinations.filter SiemDestination.enabled)
            (fun dest hmem => hdest dest (List.mem_of_mem_filter hmem)) (w.arriveAll a.arrivals)
            (w :: past) rest ⟨at_cons.mpr harrived, trivial⟩
          obtain ⟨hpromised, -⟩ := hrun fun x hx =>
            ⟨hbetween.rest _ (Program.answer_mem_of_mem_steps hx),
              hsends x (List.mem_cons_of_mem _ hx)⟩
          refine ⟨⟨harrived, ?_⟩, hpromised⟩
          intro w' older hsame source rec hlog
          obtain ⟨rfl, -⟩ := List.cons.inj hsame
          rw [show (w.arriveAll a.arrivals).history.log = w.history.log from
            congrArg History.log hhistory] at hlog
          exact absurd hlog (by simp)

theorem sound_lastState {w : State} {past visited : List State} (hw : Sound n w)
    (h : Program.Promised (Deserved d n ds) (w :: past) visited) : Sound n (lastState w visited) := by
  induction visited generalizing w past with
  | nil => exact hw
  | cons t visited ih => exact ih h.1.1 h.2

/-- All the ticks, by induction on them. -/
theorem promised_siemRuns {ticks : List (SiemSettings × List Answer)} {w : State}
    (past : List State) (hw : Sound n w)
    (hdest : ∀ t ∈ ticks, ∀ dest ∈ t.1.destinations, dest ∈ ds ∧ Formats d dest)
    (hbetween : ∀ t ∈ ticks, BetweenTicks t.2)
    (hsends : ∀ x ∈ siemSteps ticks w, Fails d n x.1 x.2.1 x.2.2) :
    Program.Promised (Deserved d n ds) (w :: past) (siemRuns ticks w) := by
  induction ticks generalizing w past with
  | nil => exact trivial
  | cons t ticks ih =>
      obtain ⟨s, answers⟩ := t
      have hfirst := promised_runSiem past hw (hdest (s, answers) List.mem_cons_self)
        (hbetween (s, answers) List.mem_cons_self)
        fun x hx => hsends x (List.mem_append_left _ hx)
      obtain ⟨older, hpast⟩ := Program.lastState_eq_head w (runSiem s w answers).1 past
      refine Program.promised_append hfirst ?_
      rw [hpast]
      exact ih older (sound_lastState hw hfirst) (fun t ht => hdest t (List.mem_cons_of_mem _ ht))
        (fun t ht => hbetween t (List.mem_cons_of_mem _ ht))
        fun x hx => hsends x (List.mem_append_right _ hx)

/-- **In an outage whose ticks each belong to one life of the flow store**, failures are counted for the
record that failed, and no record enters the dead-letter queue before it is exhausted. -/
theorem charged_in_outage {ticks : List (SiemSettings × List Answer)} {w : State}
    (hw : HeadsCounted w) (hfail : AllFail d ticks w) (hbetween : ∀ t ∈ ticks, BetweenTicks t.2) :
    Charged d ticks w := by
  have hpromised := promised_siemRuns (d := d) (n := w.history.log.length) [] ⟨hw, le_refl _⟩
    (fun t ht dest hdest => ⟨List.mem_flatMap.mpr ⟨t, ht, hdest⟩, hfail.formats t ht dest hdest⟩)
    hbetween hfail.sends
  constructor
  · intro w' hw'
    rcases List.mem_cons.mp hw' with rfl | hmem
    · exact hw
    · obtain ⟨before, after, hsplit⟩ := List.append_of_mem hmem
      rw [hsplit] at hpromised
      exact (Program.Promised.of_split hpromised).1.1
  · intro before w₁ w₂ after hsplit source rec hlog
    -- the promise of the step to `w₂`, about all that came before it
    have hstep : Deserved d w.history.log.length (ticks.flatMap fun t => t.1.destinations)
        (w₁ :: before.reverse) w₂ := by
      cases before with
      | nil =>
          obtain ⟨rfl, hruns⟩ := List.cons.inj hsplit
          rw [hruns] at hpromised
          exact hpromised.1
      | cons v before =>
          obtain ⟨rfl, hruns⟩ := List.cons.inj hsplit
          have hlast : siemRuns ticks w = (before ++ [w₁]) ++ w₂ :: after := by simpa using hruns
          rw [hlast] at hpromised
          simpa using Program.Promised.of_split hpromised
    obtain ⟨dest, hdest, hd, letter, hletter, hexhausted⟩ := hstep.2 w₁ before.reverse rfl source rec hlog
    obtain ⟨t, ht, hmem⟩ := List.mem_flatMap.mp hdest
    exact ⟨t, ht, dest, hmem, hd, letter, hletter, hexhausted⟩

end Ticks

/-! ## Runs -/

/-- An outage from the first send on. -/
theorem allFail_of_failing {d : String} {ticks : List (SiemSettings × List Answer)} {w : State}
    (hformats : ∀ t ∈ ticks, ∀ dest ∈ t.1.destinations, Formats d dest)
    (hanswers : ∀ t ∈ ticks, ∀ a ∈ t.2, ∃ e, a.send = .failed e) : AllFail d ticks w := by
  refine ⟨hformats, fun x hx source rec _ _ _ _ _ => Or.inl ?_⟩
  induction ticks generalizing w with
  | nil => exact absurd hx List.not_mem_nil
  | cons t ticks ih =>
      rcases List.mem_append.mp hx with hx | hx
      · exact hanswers t List.mem_cons_self _ (Program.answer_mem_of_mem_steps hx)
      · exact ih (fun t ht => hformats t (List.mem_cons_of_mem _ ht))
          (fun t ht => hanswers t (List.mem_cons_of_mem _ ht)) hx

theorem formats_oneTry {d : String} {retries : Nat} :
    Formats d { oneTry with maxRetries := retries } := fun _ rec => ⟨rec.content, rfl⟩

/-- The first of the three events has failed 99 times. -/
def worn : State :=
  { threeStored none with
    cursors := fun key => if key = ("siem", .audit) then
      some ⟨"https://pce", "1", 0, some 1, 99, 0, none, none, none, none⟩ else none
    history := { (threeStored none).history with
      log := List.replicate 99
        (.sent (("siem", .audit), ⟨.audit, 1, 20, "one"⟩) false none [] false) } }

theorem headsCounted_worn : HeadsCounted worn := by
  intro key
  have hcursor : ∀ c, worn.cursors key = some c → key = ("siem", .audit) ∧ c.headId = some 1 ∧
      c.headAttempts = 99 := by
    intro c hc
    simp only [worn] at hc
    split at hc
    · rename_i hkey
      obtain rfl := Option.some.inj hc
      exact ⟨hkey, rfl, rfl⟩
    · cases hc
  constructor
  · intro c hc r hr hhead
    obtain ⟨rfl, hone, hattempts⟩ := hcursor c hc
    have hid : r.recordId = 1 := (Option.some.inj (hone.symm.trans hhead)).symm
    have hrow : r = ⟨.audit, 1, 20, "one"⟩ := by
      have hr : r ∈ threeEvents.rows := hr
      simp only [threeEvents, List.mem_cons, List.not_mem_nil, or_false] at hr
      rcases hr with rfl | rfl | rfl
      · rfl
      · exact absurd hid (by decide)
      · exact absurd hid (by decide)
    rw [hattempts, hrow]
    simp [failures, worn, isFailureOf]
  · intro c id hc hhead
    obtain ⟨rfl, hone, -⟩ := hcursor c hc
    obtain rfl : 1 = id := Option.some.inj (hone.symm.trans hhead)
    decide

/-- Nothing else happens, and every send fails. -/
def outageAnswers : List Answer := List.replicate 20 failedSend

/-- The hundredth failure: the event goes to the dead-letter queue, and has failed a hundred times. -/
theorem charged_in_outage_worn :
    (stateAfter [(oneTrySettings, outageAnswers)] worn).dlq.length = 1 ∧
      Charged "siem" [(oneTrySettings, outageAnswers)] worn := by
  refine ⟨by decide +kernel, charged_in_outage headsCounted_worn (allFail_of_failing ?_ ?_) ?_⟩
  · intro t ht dest hdest
    rw [List.mem_singleton.mp ht] at hdest
    rw [List.mem_singleton.mp hdest]
    exact formats_oneTry
  · intro t ht a ha
    rw [List.mem_singleton.mp ht] at ha
    exact ⟨"timed out", by rw [List.eq_of_mem_replicate ha]; rfl⟩
  · intro t ht
    rw [List.mem_singleton.mp ht]
    refine ⟨fun a ha before after hsplit => ?_, fun a ha b hb => ?_⟩
    · obtain rfl : failedSend = a := Option.some.inj ha
      exact absurd hsplit (by simp [failedSend, calmAnswer])
    · rw [List.eq_of_mem_replicate (List.mem_of_mem_tail ha)] at hb
      exact absurd hb List.not_mem_nil

/-! ### A switch while a batch is out -/

/-- The settings before and after a PCE switch. -/
def switchSettings (pceUrl : String) : SiemSettings :=
  ⟨pceUrl, "1", true, [{ oneTry with maxRetries := 3 }], 100⟩

/-- The first tick: the first event fails, and between `advance` and `record_failure` the PCE is
switched. The second one: the first event of the new PCE fails. -/
def switchedRun : List (SiemSettings × List Answer) :=
  [(switchSettings "https://pce", List.replicate 10 failedSend ++
      [{ failedSend with arrivals := [.recreated, .restarted "https://new" "1"] }]),
    (switchSettings "https://new",
      { failedSend with arrivals := [.stored .audit ⟨.audit, 1, 40, "new"⟩] } ::
        List.replicate 12 failedSend)]

theorem headsCounted_threeStored : HeadsCounted (threeStored none) := by
  have hnone : ∀ key c, (threeStored none).cursors key = some c → c.headId = none := by
    intro key c hc
    simp only [threeStored] at hc
    split at hc
    · obtain rfl := Option.some.inj hc
      rfl
    · cases hc
  intro key
  constructor
  · intro c hc r _ hhead
    rw [hnone key c hc] at hhead
    cases hhead
  · intro c id hc hhead
    rw [hnone key c hc] at hhead
    cases hhead

/-- The failure of the old event is counted for the new one, which has failed once. -/
theorem charged_twice :
    ¬ ∀ (d : String) (ticks : List (SiemSettings × List Answer)) (w : State),
      HeadsCounted w → AllFail d ticks w → Charged d ticks w := by
  intro h
  have hfail : AllFail "siem" switchedRun (threeStored none) := by
    refine allFail_of_failing ?_ ?_
    · intro t ht dest hdest
      have hdestinations : t.1.destinations = [{ oneTry with maxRetries := 3 }] := by
        rcases List.mem_pair.mp ht with rfl | rfl <;> rfl
      rw [hdestinations] at hdest
      rw [List.mem_singleton.mp hdest]
      exact formats_oneTry
    · have hsend : ∀ t ∈ switchedRun, ∀ a ∈ t.2, a.send = .failed "timed out" := by decide
      exact fun t ht a ha => ⟨_, hsend t ht a ha⟩
  have hcharged := h "siem" switchedRun (threeStored none) headsCounted_threeStored hfail
  have hlast := (hcharged.counted _ (lastState_mem _ _) ("siem", .audit)).counted
    ⟨"https://new", "1", 0, some 1, 2, 0, none, some "timed out", some 0, none⟩ (by decide +kernel)
    ⟨.audit, 1, 40, "new"⟩ (by decide +kernel) rfl
  revert hlast
  decide +kernel

end IllumioOps.Siem.Outage
