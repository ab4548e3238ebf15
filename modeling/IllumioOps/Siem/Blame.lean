import IllumioOps.Siem.Dispatch

/-!
# What the dispatcher sends, and which record it blames

Two questions about every tick, whatever the transports answer and whatever happens in between:
which records are passed to a transport while a floor is set, and for which records a dead
letter is written. Both are answered from the log of what happened (`proper_siemRuns`): a send
that is not a probe is above the floor, and a dead letter is about a record that has no line,
whose own send failed, or that came first in what an unconfirmed `finish_batch` was about.
-/

set_option autoImplicit false

namespace IllumioOps.Siem

open Programs

/-! ## What an entry of the log rests on -/

/-- A send of the record returned. -/
def TakenIn (log : List Event) (q : Sent) : Prop :=
  ∃ probe floor since, Event.sent q probe floor since true ∈ log

/-- A send of the record failed. -/
def FailedIn (log : List Event) (q : Sent) : Prop :=
  ∃ probe floor since, Event.sent q probe floor since false ∈ log

/-- A `finish_batch` was not confirmed, and the record was the first sent before it. -/
def UnconfirmedIn (log : List Event) (q : Sent) : Prop :=
  ∃ since, Event.finished q.1.1 since false ∈ log ∧ since.head? = some q

/-- What an entry rests on, given the entries before it and the records that have no line. -/
def Justified (unformatted : Sent → Prop) (log : List Event) : Event → Prop
  | .sent record probe floor since _ =>
      (∀ q ∈ since, q.1.1 = record.1.1 ∧ TakenIn log q) ∧
        (probe = true ∨ passedOver floor record.2 = false)
  | .finished destination since _ => ∀ q ∈ since, q.1.1 = destination ∧ TakenIn log q
  | .quarantined record =>
      unformatted record ∨ FailedIn log record ∨ UnconfirmedIn log record
  | .held _ => True

/-- Every entry of the log rests on the entries before it. -/
def Proper (unformatted : Sent → Prop) (log : List Event) : Prop :=
  ∀ before e after, log = before ++ e :: after → Justified unformatted before e

section Logs

variable {unformatted : Sent → Prop} {log : List Event} {e : Event} {q : Sent}

theorem proper_nil : Proper unformatted [] := by
  intro before e after h
  exact absurd h.symm (by simp)

theorem Proper.append (h : Proper unformatted log) (he : Justified unformatted log e) :
    Proper unformatted (log ++ [e]) := by
  intro before e' after hsplit
  rcases List.eq_nil_or_concat after with rfl | ⟨after, last, rfl⟩
  · obtain ⟨rfl, he'⟩ := List.append_inj' hsplit rfl
    exact (List.cons.inj he').1 ▸ he
  · have hsplit : log ++ [e] = (before ++ e' :: after) ++ [last] := by simpa using hsplit
    obtain ⟨hlog, -⟩ := List.append_inj' hsplit rfl
    exact h before e' after hlog

theorem TakenIn.mono {log' : List Event} (h : TakenIn log q) (hlog : log <+: log') :
    TakenIn log' q := by
  obtain ⟨probe, floor, since, hmem⟩ := h
  exact ⟨probe, floor, since, hlog.subset hmem⟩

theorem FailedIn.mono {log' : List Event} (h : FailedIn log q) (hlog : log <+: log') :
    FailedIn log' q := by
  obtain ⟨probe, floor, since, hmem⟩ := h
  exact ⟨probe, floor, since, hlog.subset hmem⟩

theorem UnconfirmedIn.mono {log' : List Event} (h : UnconfirmedIn log q) (hlog : log <+: log') :
    UnconfirmedIn log' q := by
  obtain ⟨since, hmem, hfirst⟩ := h
  exact ⟨since, hlog.subset hmem, hfirst⟩

end Logs

/-! ## Steps after which the log only grew -/

/-- The log only grew; what awaits a `finish_batch` and the floors are as before. -/
structure Onward (w w' : State) : Prop where
  log : w.history.log <+: w'.history.log
  pending : w'.history.pending = w.history.pending
  floors : ∀ key, w'.floorOf key = w.floorOf key

/-- The log did not even grow. -/
structure Quiet (w w' : State) : Prop where
  log : w'.history.log = w.history.log
  pending : w'.history.pending = w.history.pending
  floors : ∀ key, w'.floorOf key = w.floorOf key

theorem Quiet.refl (w : State) : Quiet w w := ⟨rfl, rfl, fun _ => rfl⟩

theorem Quiet.trans {w w' w'' : State} (h : Quiet w w') (h' : Quiet w' w'') : Quiet w w'' :=
  ⟨h'.log.trans h.log, h'.pending.trans h.pending,
    fun key => (h'.floors key).trans (h.floors key)⟩

theorem Quiet.onward {w w' : State} (h : Quiet w w') : Onward w w' :=
  ⟨h.log ▸ List.prefix_rfl, h.pending, h.floors⟩

theorem quiet_updateCursor (w : State) (key : Key) {f : Cursor → Cursor}
    (hf : ∀ c, (f c).floorTime = c.floorTime) : Quiet w (w.updateCursor key f) := by
  cases hc : w.cursors key with
  | none =>
      rw [show w.updateCursor key f = w by simp only [State.updateCursor, hc]]
      exact Quiet.refl w
  | some c =>
      rw [show w.updateCursor key f = w.setCursor key (f c) by
        simp only [State.updateCursor, hc]]
      refine ⟨rfl, rfl, ?_⟩
      intro key'
      simp only [State.floorOf]
      by_cases hkey : key' = key
      · rw [hkey, State.cursors_setCursor_self, hc, Option.bind_some, Option.bind_some, hf]
      · rw [State.cursors_setCursor_of_ne hkey]

theorem quiet_noteError (w : State) (key : Key) (error : String) (now : Int) :
    Quiet w (w.noteError key error now) := quiet_updateCursor w key fun _ => rfl

theorem quiet_advance (w : State) (key : Key) (pceUrl orgId : String) (lastId sent : Nat)
    (now : Int) : Quiet w (w.advance key pceUrl orgId lastId sent now).1 := by
  rw [State.advance]
  split
  · exact Quiet.refl w
  · split
    · exact quiet_updateCursor w key fun _ => rfl
    · exact Quiet.refl w

theorem quiet_recordFailure (w : State) (key : Key) (headId : Nat) (error : String) (now : Int) :
    Quiet w (w.recordFailure key headId error now).1 := quiet_updateCursor w key fun _ => rfl

/-- A new cursor has no floor, and one of another PCE keeps its own. -/
theorem quiet_startCursor (w : State) (key : Key) (pceUrl orgId : String) (lastId : Nat) :
    Quiet w (w.startCursor key pceUrl orgId lastId) := by
  refine ⟨rfl, rfl, ?_⟩
  intro key'
  simp only [State.floorOf, State.startCursor]
  by_cases hkey : key' = key
  · rw [hkey, State.cursors_setCursor_self]
    cases w.cursors key <;> rfl
  · rw [State.cursors_setCursor_of_ne hkey]

theorem quiet_arrive (w : State) (a : Arrival) : Quiet w (w.arrive a) := by
  cases a with
  | stored source rec => exact ⟨rfl, rfl, fun _ => rfl⟩
  | lettersKept keep => exact ⟨rfl, rfl, fun _ => rfl⟩
  | recreated => exact ⟨rfl, rfl, fun _ => rfl⟩
  | restarted pceUrl orgId =>
      refine ⟨rfl, rfl, ?_⟩
      intro key
      simp only [State.floorOf, State.arrive, State.restartFlowCursors]
      split
      · cases w.cursors key <;> rfl
      · rfl

theorem quiet_arriveAll (w : State) (arrivals : List Arrival) : Quiet w (w.arriveAll arrivals) := by
  induction arrivals generalizing w with
  | nil => exact Quiet.refl w
  | cons a arrivals ih => exact (quiet_arrive w a).trans (ih (w.arrive a))

/-! ## The invariant of the log -/

/-- Every entry of the log is justified, and what awaits a `finish_batch` was taken. -/
structure Recorded (unformatted : Sent → Prop) (w : State) : Prop where
  proper : Proper unformatted w.history.log
  taken : ∀ q ∈ w.history.pending, TakenIn w.history.log q

/-- The state gives a reason to blame the record. -/
def Blamed (unformatted : Sent → Prop) (q : Sent) (w : State) : Prop :=
  unformatted q ∨ FailedIn w.history.log q ∨ UnconfirmedIn w.history.log q

/-- What is said of a state stays true while the log only grows. -/
def Stays (C : State → Prop) : Prop := ∀ w w', Onward w w' → C w → C w'

section Invariant

variable {unformatted : Sent → Prop} {w w' : State} {q record : Sent}

theorem Recorded.quiet (h : Recorded unformatted w) (hq : Quiet w w') : Recorded unformatted w' :=
  ⟨hq.log ▸ h.proper, by rw [hq.log, hq.pending]; exact h.taken⟩

theorem stays_blamed : Stays (Blamed unformatted q) := by
  rintro w w' hw (h | h | h)
  · exact Or.inl h
  · exact Or.inr (Or.inl (h.mono hw.log))
  · exact Or.inr (Or.inr (h.mono hw.log))

theorem Recorded.sendRecord (h : Recorded unformatted w) {probe taken : Bool}
    (hkey : ∀ q ∈ w.history.pending, q.1.1 = record.1.1)
    (hfloor : probe = true ∨ passedOver (w.floorOf record.1) record.2 = false) :
    Recorded unformatted (w.sendRecord record probe taken) := by
  refine ⟨h.proper.append ⟨fun q hq => ⟨hkey q hq, h.taken q hq⟩, hfloor⟩, ?_⟩
  intro q hq
  cases taken with
  | false => exact (h.taken q hq).mono (List.prefix_append _ _)
  | true =>
      rcases List.mem_append.1 hq with hq | hq
      · exact (h.taken q hq).mono (List.prefix_append _ _)
      · rw [List.mem_singleton.1 hq]
        exact ⟨_, _, _, List.mem_append_right _ (List.mem_singleton.2 rfl)⟩

theorem Recorded.finishBatch (h : Recorded unformatted w) {destination : String}
    (hkey : ∀ q ∈ w.history.pending, q.1.1 = destination) (confirmed : Bool) :
    Recorded unformatted (w.finishBatch destination confirmed) :=
  ⟨h.proper.append fun q hq => ⟨hkey q hq, h.taken q hq⟩, fun _ hq => absurd hq List.not_mem_nil⟩

theorem Recorded.openTransport (h : Recorded unformatted w) : Recorded unformatted w.openTransport :=
  ⟨h.proper, fun _ hq => absurd hq List.not_mem_nil⟩

theorem Recorded.quarantine (h : Recorded unformatted w) (hblame : Blamed unformatted record w)
    (letter : DeadLetter) : Recorded unformatted (w.quarantine letter record) :=
  ⟨h.proper.append hblame, fun q hq => (h.taken q hq).mono (List.prefix_append _ _)⟩

theorem Recorded.hold (h : Recorded unformatted w) : Recorded unformatted (w.hold record) :=
  ⟨h.proper.append trivial, fun q hq => (h.taken q hq).mono (List.prefix_append _ _)⟩

theorem onward_quarantine (letter : DeadLetter) : Onward w (w.quarantine letter record) :=
  ⟨List.prefix_append _ _, rfl, fun _ => rfl⟩

theorem onward_hold : Onward w (w.hold record) := ⟨List.prefix_append _ _, rfl, fun _ => rfl⟩

theorem failedIn_sendRecord (probe : Bool) :
    FailedIn (w.sendRecord record probe false).history.log record :=
  ⟨_, _, _, List.mem_append_right _ (List.mem_singleton.2 rfl)⟩

end Invariant

/-- Whatever the answers, every step of the program keeps the invariant; `C` holds where it
starts and `D` where it ends. -/
abbrev Records {α : Type} (unformatted : Sent → Prop) (C : State → Prop) (m : Dispatch α)
    (D : α → State → Prop) : Prop :=
  Program.Safe (fun _ => True) (fun _ w => Recorded unformatted w)
    (fun w => Recorded unformatted w ∧ C w) m fun r w => Recorded unformatted w ∧ D r w

section Rules

variable {α : Type} {unformatted : Sent → Prop} {C : State → Prop} {D : α → State → Prop}

/-- A step, from the state that the arrivals before it leave. -/
theorem records_step {f : State → Answer → State × α} (hC : Stays C)
    (h : ∀ w a, Recorded unformatted w → C w →
      Recorded unformatted (f w a).1 ∧ D (f w a).2 (f w a).1) :
    Records unformatted C (step f) D :=
  Program.safe_act fun w a _ hw =>
    have hq := quiet_arriveAll w a.arrivals
    have hf := h _ a (hw.1.quiet hq) (hC w _ hq.onward hw.2)
    ⟨hf.1, hf⟩

/-- A quiet step keeps what it starts from. -/
theorem records_quiet {f : State → Answer → State × α} (hf : ∀ w a, Quiet w (f w a).1)
    (hC : Stays C) : Records unformatted C (step f) fun _ => C :=
  records_step hC fun w a hw hc => ⟨hw.quiet (hf w a), hC w _ (hf w a).onward hc⟩

theorem records_pure {a : α} (h : ∀ w, C w → D a w) :
    Records unformatted C (pure a : Dispatch α) D :=
  Program.safe_pure fun w hw => ⟨hw.1, h w hw.2⟩

theorem records_weaken {D' : α → State → Prop} {C' : State → Prop} {m : Dispatch α}
    (hm : Records unformatted C m D) (hC : ∀ w, C' w → C w) (hD : ∀ r w, D r w → D' r w) :
    Records unformatted C' m D' :=
  Program.safe_weaken hm (fun w hw => ⟨hw.1, hC w hw.2⟩) fun r w hw => ⟨hw.1, hD r w hw.2⟩

end Rules

/-! ## The steps -/

section Steps

variable {unformatted : Sent → Prop} {C : State → Prop}

theorem records_pastDeadline (hC : Stays C) : Records unformatted C pastDeadline fun _ => C :=
  records_quiet (fun w _ => Quiet.refl w) hC

theorem records_timeNow (hC : Stays C) : Records unformatted C timeNow fun _ => C :=
  records_quiet (fun w _ => Quiet.refl w) hC

theorem records_flowGeneration (hC : Stays C) :
    Records unformatted C flowGeneration fun _ => C :=
  records_quiet (fun w _ => Quiet.refl w) hC

theorem records_advance (hC : Stays C) (s : SiemSettings) (key : Key) (lastId sent : Nat)
    (now : Int) : Records unformatted C (advance s key lastId sent now) fun _ => C :=
  records_quiet (fun w _ => quiet_advance w key s.pceUrl s.orgId lastId sent now) hC

theorem records_recordFailure (hC : Stays C) (key : Key) (headId : Nat) (error : String)
    (now : Int) : Records unformatted C (recordFailure key headId error now) fun _ => C :=
  records_quiet (fun w _ => quiet_recordFailure w key headId error now) hC

theorem records_dlqFull (hC : Stays C) (s : SiemSettings) (dest : SiemDestination) :
    Records unformatted C (dlqFull s dest) fun _ => C :=
  records_quiet (fun w _ => Quiet.refl w) hC

/-- What is read is in the order of the ids. -/
theorem records_read (hC : Stays C) (dest : SiemDestination) (source : Source)
    (after limit : Nat) : Records unformatted C (read dest source after limit) fun records w =>
      records.Pairwise (fun a b => a.recordId < b.recordId) ∧ C w :=
  records_step hC fun w _ hw hc =>
    ⟨hw, ((w.stored source).ordered.sublist List.filter_sublist).sublist
      (List.take_sublist _ _), hc⟩

theorem records_held (hC : Stays C) (key : Key) (rec : SiemRecord) (now : Int) :
    Records unformatted C (held key rec now) fun _ => C :=
  records_step hC fun w _ hw hc =>
    have hq := quiet_noteError w key "dlq_full" now
    ⟨(hw.quiet hq).hold, hC _ _ onward_hold (hC w _ hq.onward hc)⟩

theorem records_quarantine (hC : Stays C) (s : SiemSettings) (dest : SiemDestination)
    (source : Source) (rec : SiemRecord) (payload error : String) (attempts : Nat) (now : Int)
    (hblame : ∀ w, C w → Blamed unformatted ((dest.id, source), rec) w) :
    Records unformatted C (quarantine s dest source rec payload error attempts now)
      fun _ => C := by
  rw [quarantine]
  apply Program.safe_bind (records_dlqFull hC s dest)
  intro full
  split
  · apply Program.safe_bind (records_held hC _ rec now)
    intro _
    exact records_pure fun _ h => h
  · refine Program.safe_bind (Q := fun _ w => Recorded unformatted w ∧ C w) ?_ ?_
    · exact records_step hC fun w _ hw hc =>
        ⟨hw.quarantine (hblame w hc) _, hC w _ (onward_quarantine _) hc⟩
    · intro _
      exact records_pure fun _ h => h

end Steps

/-! ## The failure path -/

/-- Nothing awaits a `finish_batch`, and the source's floor is `floor`. -/
structure Idle (key : Key) (floor : Option Int) (w : State) : Prop where
  pending : w.history.pending = []
  floor : w.floorOf key = floor

theorem stays_idle {key : Key} {floor : Option Int} : Stays (Idle key floor) :=
  fun _ _ hw h => ⟨hw.pending.trans h.pending, (hw.floors key).trans h.floor⟩

theorem Stays.and {C D : State → Prop} (hC : Stays C) (hD : Stays D) :
    Stays fun w => C w ∧ D w := fun w w' hw h => ⟨hC w w' hw h.1, hD w w' hw h.2⟩

theorem Blamed.mono {unformatted : Sent → Prop} {q : Sent} {w w' : State}
    (h : Blamed unformatted q w) (hlog : w.history.log <+: w'.history.log) :
    Blamed unformatted q w' := by
  rcases h with h | h | h
  · exact Or.inl h
  · exact Or.inr (Or.inl (h.mono hlog))
  · exact Or.inr (Or.inr (h.mono hlog))

section FailurePath

variable {unformatted : Sent → Prop} {s : SiemSettings} {dest : SiemDestination}
  {source : Source} {floor : Option Int} {head : SiemRecord}

/-- The state of the failure path: idle, with a reason to blame the head. -/
abbrev HeadBlamed (unformatted : Sent → Prop) (key : Key) (floor : Option Int)
    (head : SiemRecord) (w : State) : Prop :=
  Idle key floor w ∧ Blamed unformatted (key, head) w

theorem stays_headBlamed {key : Key} : Stays (HeadBlamed unformatted key floor head) :=
  stays_idle.and stays_blamed

/-- The state after a probe was sent: what awaits `finish_batch` is the destination's, and
unless the probe was taken nothing does. -/
structure Probed (unformatted : Sent → Prop) (key : Key) (floor : Option Int)
    (head : SiemRecord) (outcome : SendOutcome) (w : State) : Prop where
  floor : w.floorOf key = floor
  blamed : Blamed unformatted (key, head) w
  keys : ∀ q ∈ w.history.pending, q.1 = key
  failed : outcome ≠ .taken → w.history.pending = []

theorem stays_probed {key : Key} {outcome : SendOutcome} :
    Stays (Probed unformatted key floor head outcome) := fun _ _ hw h =>
  ⟨(hw.floors key).trans h.floor, h.blamed.mono hw.log, fun q hq => h.keys q (hw.pending ▸ hq),
    fun hne => hw.pending.trans (h.failed hne)⟩

theorem records_probe (nxt : SiemRecord) :
    Records unformatted (HeadBlamed unformatted (dest.id, source) floor head)
      (sendRecord (dest.id, source) nxt true)
      fun outcome => Probed unformatted (dest.id, source) floor head outcome := by
  refine records_step stays_headBlamed ?_
  intro w a hw hc
  have hnone := hc.1.pending
  refine ⟨hw.sendRecord (fun q hq => absurd (hnone ▸ hq) List.not_mem_nil) (Or.inl rfl),
    hc.1.floor, hc.2.mono (List.prefix_append _ _), ?_, ?_⟩
  · intro q hq
    simp only [State.sendRecord, hnone] at hq
    split at hq
    · rw [List.nil_append, List.mem_singleton] at hq
      rw [hq]
    · exact absurd hq List.not_mem_nil
  · intro hfails
    have htaken : decide (a.send = .taken) = false := decide_eq_false hfails
    simp only [htaken]
    exact hnone

theorem records_nextGoesThrough (records : List SiemRecord) :
    Records unformatted (HeadBlamed unformatted (dest.id, source) floor head)
      (nextGoesThrough dest source records)
      fun _ => HeadBlamed unformatted (dest.id, source) floor head := by
  induction records with
  | nil => exact records_pure fun _ h => h
  | cons nxt rest ih =>
      rw [nextGoesThrough]
      split
      · exact ih
      · apply Program.safe_bind (records_probe nxt)
        intro outcome
        have hfailed : outcome ≠ .taken → Records unformatted
            (Probed unformatted (dest.id, source) floor head outcome)
            (nextGoesThrough dest source rest)
            fun _ => HeadBlamed unformatted (dest.id, source) floor head := by
          intro hne
          exact records_weaken ih (fun w h => ⟨⟨h.failed hne, h.floor⟩, h.blamed⟩)
            fun _ _ h => h
        cases outcome with
        | taken =>
            -- a probe that was taken awaits its own `finish_batch`
            refine Program.safe_bind (records_step (D := fun _ =>
              HeadBlamed unformatted (dest.id, source) floor head) stays_probed ?_) ?_
            · intro w a hw h
              exact ⟨hw.finishBatch (fun q hq => congrArg Prod.fst (h.keys q hq)) _,
                ⟨rfl, h.floor⟩, h.blamed.mono (List.prefix_append _ _)⟩
            · intro finish
              cases finish with
              | confirmed => exact records_pure fun _ h => h
              | unconfirmed e => exact ih
              | raised => exact ih
        | refused e => exact hfailed (by simp)
        | failed e => exact hfailed (by simp)

theorem records_isStuck (attempts : Nat) (now : Int) {C : State → Prop} (hC : Stays C) :
    Records unformatted C (isStuck dest source head attempts now) fun _ => C := by
  rw [isStuck]
  split
  · exact records_pure fun _ h => h
  · split
    · apply Program.safe_bind (records_read hC dest source head.recordId 1)
      intro later
      split
      · exact records_weaken (records_quiet (fun w _ => Quiet.refl w) hC) (fun _ h => h.2)
          fun _ _ h => h
      · exact records_pure fun _ h => h.2
    · exact records_pure fun _ h => h

theorem records_blameHead (error : String) (attempts : Nat) (now : Int)
    (payloads : List (Nat × String)) (ahead : List SiemRecord) (probed : Option SiemRecord)
    (run : SourceRun) :
    Records unformatted (HeadBlamed unformatted (dest.id, source) floor head)
      (blameHead s dest source head error attempts now payloads ahead probed run)
      fun _ => HeadBlamed unformatted (dest.id, source) floor head := by
  rw [blameHead.eq_def]
  split
  · exact Program.safe_stop
  · apply Program.safe_bind (records_quarantine stays_headBlamed s dest source head _ error
      attempts now fun _ h => h.2)
    intro room
    split
    · apply Program.safe_bind (records_advance stays_headBlamed s _ _ _ now)
      intro _
      exact records_pure fun _ h => h
    · exact records_pure fun _ h => h

theorem records_readAhead (records : List SiemRecord) (stuck : Bool) :
    Records unformatted (HeadBlamed unformatted (dest.id, source) floor head)
      (readAhead dest source records head stuck)
      fun _ => HeadBlamed unformatted (dest.id, source) floor head := by
  rw [readAhead]
  split
  · exact records_weaken (records_read stays_headBlamed dest source _ _) (fun _ h => h)
      fun _ _ h => h.2
  · exact records_pure fun _ h => h

theorem records_probeNext (ahead : List SiemRecord) (stuck : Bool) :
    Records unformatted (HeadBlamed unformatted (dest.id, source) floor head)
      (probeNext dest source ahead head stuck)
      fun _ => HeadBlamed unformatted (dest.id, source) floor head := by
  rw [probeNext]
  split
  · exact records_pure fun _ h => h
  · exact records_nextGoesThrough _

theorem records_headFailed (records : List SiemRecord) (payloads : List (Nat × String))
    (error : String) (now : Int) (run : SourceRun) :
    Records unformatted (HeadBlamed unformatted (dest.id, source) floor head)
      (headFailed s dest source records payloads head error now run)
      fun _ => HeadBlamed unformatted (dest.id, source) floor head := by
  rw [headFailed]
  apply Program.safe_bind (records_recordFailure stays_headBlamed _ head.recordId error now)
  intro attempts
  apply Program.safe_bind (records_isStuck attempts now stays_headBlamed)
  intro stuck
  split
  · exact records_pure fun _ h => h
  · apply Program.safe_bind (records_dlqFull stays_headBlamed s dest)
    intro full
    split
    · apply Program.safe_bind (records_held stays_headBlamed _ head now)
      intro _
      exact records_pure fun _ h => h
    · refine Program.safe_bind (records_readAhead records stuck) ?_
      intro ahead
      apply Program.safe_bind (records_probeNext ahead stuck)
      intro probed
      split
      · exact records_blameHead error attempts now payloads ahead probed _
      · exact records_pure fun _ h => h

end FailurePath

/-! ## The batch -/

/-- The state within the loop over a batch: the first record a line was made for is the first
that awaits `finish_batch`, or its own send failed. -/
structure Sending (key : Key) (floor : Option Int) (records : List SiemRecord) (b : Batch)
    (w : State) : Prop where
  floor : w.floorOf key = floor
  keys : ∀ q ∈ w.history.pending, q.1 = key
  none : firstSent records b.payloads = none → w.history.pending = []
  first : ∀ f, firstSent records b.payloads = some f →
    w.history.pending.head? = some (key, f) ∨ FailedIn w.history.log (key, f)
  counted : b.sent = 0 → w.history.pending = []
  failure : ∀ f e, b.failure = some (f, e) → FailedIn w.history.log (key, f)

section SendBatch

variable {unformatted : Sent → Prop} {s : SiemSettings} {dest : SiemDestination}
  {source : Source} {floor : Option Int} {records : List SiemRecord} {b : Batch} {key : Key}

theorem stays_sending : Stays (Sending key floor records b) := by
  intro w w' hw h
  refine ⟨(hw.floors key).trans h.floor, fun q hq => h.keys q (hw.pending ▸ hq),
    fun hn => hw.pending.trans (h.none hn), ?_, fun hc => hw.pending.trans (h.counted hc), fun f e hf => (h.failure f e hf).mono hw.log⟩
  intro f hf
  rw [hw.pending]
  exact (h.first f hf).imp id fun hfail => hfail.mono hw.log

/-- Only the lines made, the count and the failure of a batch matter to its state. -/
theorem Sending.of_eq {b' : Batch} {w : State} (h : Sending key floor records b w)
    (hp : b'.payloads = b.payloads) (hs : b'.sent = b.sent) (hf : b'.failure = b.failure) :
    Sending key floor records b' w :=
  ⟨h.floor, h.keys, fun hn => h.none (hp ▸ hn), fun f hfirst => h.first f (hp ▸ hfirst),
    fun hc => h.counted (hs ▸ hc), fun f e hfail => h.failure f e (hf ▸ hfail)⟩

/-- The state after a record's line was made and its send was answered: taken, it awaits
`finish_batch`; otherwise its own send failed. -/
theorem records_send {processed rest : List SiemRecord} {rec : SiemRecord} (payload : String)
    (hordered : (processed ++ rec :: rest).Pairwise fun a b => a.recordId < b.recordId)
    (hunsent : ∀ r ∈ rec :: rest, b.payloads.lookup r.recordId = none)
    (habove : passedOver floor rec = false) :
    Records unformatted (Sending key floor (processed ++ rec :: rest) b)
      (sendRecord key rec false) fun outcome w =>
        (outcome = .taken → Sending key floor (processed ++ rec :: rest)
          ((b.made rec payload).took rec) w) ∧
        (outcome ≠ .taken → Sending key floor (processed ++ rec :: rest) (b.made rec payload) w ∧
          FailedIn w.history.log (key, rec)) := by
  have hfirst := firstSent_append payload hordered hunsent
  refine records_step stays_sending ?_
  intro w a hw hc
  refine ⟨hw.sendRecord (fun q hq => congrArg Prod.fst (hc.keys q hq)) (Or.inr ?_), ?_, ?_⟩
  · exact (congrArg (passedOver · rec) hc.floor).trans habove
  · intro hsend
    have htaken : decide (a.send = .taken) = true := decide_eq_true hsend
    simp only [htaken]
    refine ⟨hc.floor, ?_, ?_, ?_, fun h => absurd h (Nat.succ_ne_zero _), ?_⟩
    · intro q hq
      rcases List.mem_append.1 hq with hq | hq
      · exact hc.keys q hq
      · rw [List.mem_singleton.1 hq]
    · intro hnone
      have hnone : firstSent (processed ++ rec :: rest) (b.payloads ++ [(rec.recordId, payload)]) =
        none := hnone
      rw [hfirst] at hnone
      exact absurd (Option.or_eq_none_iff.1 hnone).2 (by simp)
    · intro f hf
      have hf : firstSent (processed ++ rec :: rest) (b.payloads ++ [(rec.recordId, payload)]) =
        some f := hf
      rw [hfirst] at hf
      cases hb : firstSent (processed ++ rec :: rest) b.payloads with
      | none =>
          -- the first line of the batch: nothing awaited `finish_batch` before
          rw [hb, Option.none_or] at hf
          left
          simp [State.sendRecord, hc.none hb, Option.some.inj hf]
      | some g =>
          rw [hb, Option.some_or] at hf
          rw [← Option.some.inj hf]
          rcases hc.first g hb with hhead | hfail
          · left
            simp [State.sendRecord, List.head?_append, hhead]
          · exact Or.inr (hfail.mono (List.prefix_append _ _))
    · intro f e hf
      exact (hc.failure f e hf).mono (List.prefix_append _ _)
  · intro hsend
    have htaken : decide (a.send = .taken) = false := decide_eq_false hsend
    simp only [htaken]
    refine ⟨⟨hc.floor, hc.keys, ?_, ?_, hc.counted, ?_⟩, failedIn_sendRecord false⟩
    · intro hnone
      have hnone : firstSent (processed ++ rec :: rest) (b.payloads ++ [(rec.recordId, payload)]) =
        none := hnone
      rw [hfirst] at hnone
      exact absurd (Option.or_eq_none_iff.1 hnone).2 (by simp)
    · intro f hf
      have hf : firstSent (processed ++ rec :: rest) (b.payloads ++ [(rec.recordId, payload)]) =
        some f := hf
      rw [hfirst] at hf
      cases hb : firstSent (processed ++ rec :: rest) b.payloads with
      | none =>
          rw [hb, Option.none_or] at hf
          rw [← Option.some.inj hf]
          exact Or.inr (failedIn_sendRecord false)
      | some g =>
          rw [hb, Option.some_or] at hf
          rw [← Option.some.inj hf]
          exact (hc.first g hb).imp id fun hfail => hfail.mono (List.prefix_append _ _)
    · intro f e hf
      exact (hc.failure f e hf).mono (List.prefix_append _ _)

theorem records_sendBatch
    (hformat : ∀ rec e, dest.formatter.formatRecord rec = .error e →
      unformatted ((dest.id, source), rec))
    (hordered : records.Pairwise fun a b => a.recordId < b.recordId) (now : Int)
    {processed rest : List SiemRecord} (hrecords : records = processed ++ rest)
    (hunsent : ∀ r ∈ rest, b.payloads.lookup r.recordId = none) :
    Records unformatted (Sending (dest.id, source) floor records b)
      (sendBatch s dest source floor now rest b)
      fun b' => Sending (dest.id, source) floor records b' := by
  induction rest generalizing processed b with
  | nil => exact records_pure fun _ h => h
  | cons rec rest ih =>
      have hnext : records = (processed ++ [rec]) ++ rest := by simpa using hrecords
      have hrest : ∀ r ∈ rest, b.payloads.lookup r.recordId = none :=
        fun r hr => hunsent r (List.mem_cons_of_mem _ hr)
      rw [sendBatch]
      apply Program.safe_bind (records_pastDeadline stays_sending)
      intro late
      split
      · exact records_pure fun _ h => h
      · split
        · exact records_weaken (ih (b := b.passed rec) hnext hrest)
            (fun _ h => h.of_eq rfl rfl rfl) fun _ _ h => h
        · rename_i habove
          split
          · rename_i e hfails
            -- a record that has no line goes to the DLQ
            apply Program.safe_bind (records_quarantine stays_sending s dest source rec _ _ 1 now
              fun w _ => Or.inl (hformat rec e hfails))
            intro room
            split
            · exact records_weaken (ih (b := b.quarantined rec) hnext hrest)
                (fun _ h => h.of_eq rfl rfl rfl) fun _ _ h => h
            · exact records_pure fun _ h => h.of_eq rfl rfl rfl
          · rename_i payload hline
            have hmade : ∀ r ∈ rest, (b.made rec payload).payloads.lookup r.recordId = none := by
              intro r hr
              have hlt : rec.recordId < r.recordId :=
                (List.pairwise_cons.1 (List.pairwise_append.1 (hrecords ▸ hordered)).2.1).1 r hr
              simp [Batch.made, List.lookup_append, hrest r hr, Nat.ne_of_gt hlt]
            apply Program.safe_bind (hrecords ▸ records_send payload (hrecords ▸ hordered)
              hunsent (Bool.eq_false_iff.2 habove))
            intro outcome
            cases outcome with
            | taken =>
                exact records_weaken (ih (b := (b.made rec payload).took rec) hnext hmade)
                  (fun _ h => h.1 rfl) fun _ _ h => h
            | refused e =>
                -- refused for good: the record's own send failed
                refine Program.safe_bind (records_weaken (records_quarantine
                  (C := fun w => Sending (dest.id, source) floor records (b.made rec payload) w ∧
                    FailedIn w.history.log ((dest.id, source), rec)) ?_ s dest source rec _ _ 1 now
                  fun w h => Or.inr (Or.inl h.2)) (fun w h => h.2 (by simp)) fun _ _ h => h) ?_
                · intro w w' hw h
                  exact ⟨stays_sending w w' hw h.1, h.2.mono hw.log⟩
                · intro room
                  split
                  · exact records_weaken
                      (ih (b := (b.made rec payload).quarantined rec) hnext hmade)
                      (fun _ h => h.1.of_eq rfl rfl rfl) fun _ _ h => h
                  · exact records_pure fun _ h => h.1.of_eq rfl rfl rfl
            | failed e =>
                refine records_pure fun w h => ?_
                obtain ⟨hsending, hfail⟩ := h.2 (by simp)
                refine ⟨hsending.floor, hsending.keys, hsending.none, hsending.first, hsending.counted, ?_⟩
                intro f e' hf
                obtain ⟨rfl, -⟩ := Prod.mk.inj (Option.some.inj hf)
                exact hfail

/-- After a batch nothing awaits `finish_batch`, and its failure is the record's own or that
of the whole batch it came first in. -/
theorem records_confirmBatch (last : Nat) :
    Records unformatted (Sending (dest.id, source) floor records b)
      (confirmBatch dest last records b) fun b' w => Idle (dest.id, source) floor w ∧
        ∀ f e, b'.failure = some (f, e) → Blamed unformatted ((dest.id, source), f) w := by
  rw [confirmBatch]
  split
  · rename_i hsent
    exact records_pure fun w h => ⟨⟨h.counted hsent, h.floor⟩,
      fun f e hf => Or.inr (Or.inl (h.failure f e hf))⟩
  · -- what a refused `finish_batch` was about starts with the first record sent
    refine Program.safe_bind (records_step (D := fun finish w => Idle (dest.id, source) floor w ∧
      (∀ f e, b.failure = some (f, e) → Blamed unformatted ((dest.id, source), f) w) ∧
      ∀ e f, finish = .unconfirmed e → firstSent records b.payloads = some f →
        Blamed unformatted ((dest.id, source), f) w) stays_sending ?_) ?_
    · intro w a hw h
      refine ⟨hw.finishBatch (fun q hq => congrArg Prod.fst (h.keys q hq)) _, ⟨rfl, h.floor⟩,
        ?_, ?_⟩
      · intro f e hf
        exact Or.inr (Or.inl ((h.failure f e hf).mono (List.prefix_append _ _)))
      · intro e f hfinish hf
        have hunconfirmed : decide (a.finish = .confirmed) = false := by
          rw [show a.finish = .unconfirmed e from hfinish]
          rfl
        rcases h.first f hf with hhead | hfail
        · refine Or.inr (Or.inr ⟨w.history.pending, ?_, hhead⟩)
          simp only [hunconfirmed]
          exact List.mem_append_right _ (List.mem_singleton.2 rfl)
        · exact Or.inr (Or.inl (hfail.mono (List.prefix_append _ _)))
    · intro finish
      split
      · exact records_pure fun _ h => ⟨h.1, h.2.1⟩
      · rename_i e first hfirst
        refine records_pure fun w h => ⟨h.1, ?_⟩
        intro f e' hf
        obtain ⟨rfl, -⟩ := Prod.mk.inj (Option.some.inj hf)
        exact h.2.2 e first rfl hfirst
      · exact Program.safe_stop

end SendBatch

/-! ## A source, a destination, a tick -/

section Run

variable {unformatted : Sent → Prop} {s : SiemSettings} {dest : SiemDestination}
  {source : Source} {floor : Option Int}

/-- Nothing awaits a `finish_batch`. -/
def Settled (w : State) : Prop := w.history.pending = []

theorem stays_settled : Stays Settled := fun _ _ hw h => hw.pending.trans h

theorem records_settle (records : List SiemRecord) (now : Int) (b : Batch) :
    Records unformatted (fun w => Idle (dest.id, source) floor w ∧
        ∀ f e, b.failure = some (f, e) → Blamed unformatted ((dest.id, source), f) w)
      (settle s dest source records now b) fun r w =>
        match r with
        | .inl _ => Idle (dest.id, source) floor w
        | .inr _ => Settled w := by
  rw [settle.eq_def]
  split
  · exact records_pure fun _ h => h.1.pending
  · split
    · rename_i head error hfailure
      refine Program.safe_bind (records_weaken (records_headFailed records b.payloads error now _)
        (fun _ h => ⟨h.1, h.2 head error hfailure⟩) fun _ _ h => h) ?_
      intro run
      exact records_pure fun _ h => h.1.pending
    · split
      · exact records_pure fun _ h => h.1.pending
      · exact records_pure fun _ h => h.1

theorem records_dropFloor :
    Records unformatted (Idle (dest.id, source) floor) (dropFloor (dest.id, source))
      fun _ => Settled := by
  refine records_step stays_idle fun w a hw h => ?_
  have hhistory : (w.dropFloor (dest.id, source)).history = w.history := by
    rw [State.dropFloor, State.updateCursor]
    split <;> rfl
  refine ⟨⟨?_, ?_⟩, ?_⟩
  · exact hhistory ▸ hw.proper
  · simp only [hhistory]
    exact hw.taken
  · exact (congrArg History.pending hhistory).trans h.pending

theorem records_runBatch
    (hformat : ∀ rec e, dest.formatter.formatRecord rec = .error e →
      unformatted ((dest.id, source), rec)) (gen last : Nat) (run : SourceRun)
    {records : List SiemRecord}
    (hordered : records.Pairwise fun a b => a.recordId < b.recordId) :
    Records unformatted (Idle (dest.id, source) floor)
      (runBatch s dest source gen floor last run records) fun r w =>
        match r with
        | .inl _ => Idle (dest.id, source) floor w
        | .inr _ => Settled w := by
  rw [runBatch]
  apply Program.safe_bind (records_flowGeneration stays_idle)
  intro generation
  split
  · exact records_pure fun _ h => h.pending
  · apply Program.safe_bind (records_timeNow stays_idle)
    intro now
    have hbatch : Records unformatted (Sending (dest.id, source) floor records
        ⟨last, 0, none, [], run⟩)
        (sendBatch s dest source floor now records ⟨last, 0, none, [], run⟩)
        fun b w => Sending (dest.id, source) floor records b w :=
      records_sendBatch hformat hordered now (List.nil_append records).symm fun _ _ => rfl
    refine Program.safe_bind (records_weaken hbatch ?_ fun _ _ h => h) ?_
    · -- before the first record nothing was sent
      intro w h
      refine ⟨h.floor, fun q hq => absurd (h.pending ▸ hq) List.not_mem_nil,
        fun _ => h.pending, ?_, fun _ => h.pending, ?_⟩
      · intro f hf
        rw [firstSent_nil] at hf
        exact absurd hf (by simp)
      · intro f e hf
        exact absurd hf (by simp)
    · intro b
      apply Program.safe_bind (records_confirmBatch last)
      intro b'
      refine Program.safe_bind (records_advance ?_ s _ _ _ now) ?_
      · intro w w' hw h
        exact ⟨stays_idle w w' hw h.1, fun f e hf => (h.2 f e hf).mono hw.log⟩
      · intro moved
        split
        · exact records_settle records now b'
        · exact records_pure fun _ h => h.1.pending

theorem records_round
    (hformat : ∀ rec e, dest.formatter.formatRecord rec = .error e →
      unformatted ((dest.id, source), rec)) (gen last : Nat) (run : SourceRun) :
    Records unformatted (Idle (dest.id, source) floor) (round s dest source gen floor last run)
      fun r w =>
        match r with
        | .inl _ => Idle (dest.id, source) floor w
        | .inr _ => Settled w := by
  rw [round]
  apply Program.safe_bind (records_pastDeadline stays_idle)
  intro late
  split
  · exact records_pure fun _ h => h.pending
  · apply Program.safe_bind (records_read stays_idle dest source last dest.batchSize)
    intro records
    split
    · split
      · refine Program.safe_bind (records_weaken records_dropFloor (fun _ h => h.2)
          fun _ _ h => h) ?_
        intro _
        exact records_pure fun _ h => h
      · exact records_pure fun _ h => h.2.pending
    · exact Program.safe_fact (fun _ h => h.2.1) fun hordered =>
        records_weaken (records_runBatch hformat gen last run hordered) (fun _ h => h.2)
          fun _ _ h => h

theorem records_startSource :
    Records unformatted Settled (startSource s dest source) fun _ => Settled := by
  rw [startSource]
  apply Program.safe_bind (records_quiet (fun w _ => Quiet.refl w) stays_settled)
  intro newest
  apply Program.safe_bind (records_quiet (fun w _ => quiet_startCursor w _ _ _ newest)
    stays_settled)
  intro _
  exact records_pure fun _ h => h

theorem records_runSource
    (hformat : ∀ rec e, dest.formatter.formatRecord rec = .error e →
      unformatted ((dest.id, source), rec)) (gen : Nat) :
    Records unformatted Settled (runSource s dest source gen) fun _ => Settled := by
  rw [runSource]
  refine Program.safe_bind (records_step (D := fun cur w => Settled w ∧
    w.cursors (dest.id, source) = cur) stays_settled fun w _ hw h => ⟨hw, h, rfl⟩) ?_
  intro cur
  cases cur with
  | none => exact records_weaken records_startSource (fun _ h => h.1) fun _ _ h => h
  | some c =>
      simp only
      split
      · refine Program.safe_weaken (Program.safe_loop (I := fun _ w => Recorded unformatted w ∧
          Idle (dest.id, source) c.floorTime w) (fun b => ?_) (c.lastId, SourceRun.empty))
          (fun w h => ⟨h.1, h.2.1, ?_⟩) fun _ _ h => h
        · refine Program.safe_weaken (records_round hformat gen b.1 b.2) (fun _ h => h) ?_
          rintro (next | run) w h
          · exact h
          · exact h
        · rw [State.floorOf, h.2.2]
          rfl
      · exact records_weaken records_startSource (fun _ h => h.1) fun _ _ h => h

theorem records_runSources
    (hformat : ∀ source rec e, dest.formatter.formatRecord rec = .error e →
      unformatted ((dest.id, source), rec)) (gen : Nat) (names : List Source) :
    Records unformatted Settled (runSources s dest gen names) fun _ => Settled := by
  induction names with
  | nil => exact records_pure fun _ h => h
  | cons source names ih =>
      rw [runSources]
      apply Program.safe_bind (records_runSource (hformat source) gen)
      intro r
      split
      · exact records_pure fun _ h => h
      · apply Program.safe_bind ih
        intro _
        exact records_pure fun _ h => h

theorem records_noteSetup (error : String) (names : List Source) :
    Records unformatted Settled (noteSetup dest error names) fun _ => Settled := by
  induction names with
  | nil => exact records_pure fun _ h => h
  | cons source names ih =>
      rw [noteSetup]
      apply Program.safe_bind (records_quiet (fun w a => quiet_noteError w _ _ a.now)
        stays_settled)
      intro _
      exact ih

theorem records_runDestination
    (hformat : ∀ source rec e, dest.formatter.formatRecord rec = .error e →
      unformatted ((dest.id, source), rec)) (gen : Nat) :
    Records unformatted (fun _ => True) (runDestination s dest gen) fun _ _ => True := by
  rw [runDestination]
  refine Program.safe_bind (records_step (D := fun _ => Settled) (fun _ _ _ _ => trivial)
    fun w _ hw _ => ⟨hw.openTransport, rfl⟩) ?_
  intro setup
  cases setup with
  | some e =>
      apply Program.safe_bind (records_noteSetup e dest.cursorSources)
      intro _
      exact records_pure fun _ _ => trivial
  | none =>
      exact records_weaken (records_runSources hformat gen dest.cursorSources) (fun _ h => h)
        fun _ _ _ => trivial

theorem records_runDestinations (gen : Nat) (destinations : List SiemDestination)
    (hformat : ∀ dest ∈ destinations, ∀ source rec e,
      dest.formatter.formatRecord rec = .error e → unformatted ((dest.id, source), rec)) :
    Records unformatted (fun _ => True) (runDestinations s gen destinations)
      fun _ _ => True := by
  induction destinations with
  | nil => exact records_pure fun _ h => h
  | cons dest destinations ih =>
      rw [runDestinations]
      apply Program.safe_bind (records_runDestination (hformat dest List.mem_cons_self) gen)
      intro _
      apply Program.safe_bind (ih fun d hd => hformat d (List.mem_cons_of_mem _ hd))
      intro _
      exact records_pure fun _ h => h

theorem records_runSiem (s : SiemSettings)
    (hformat : ∀ dest ∈ s.destinations, ∀ source rec e,
      dest.formatter.formatRecord rec = .error e → unformatted ((dest.id, source), rec)) :
    Records unformatted (fun _ => True) (runSiem s) fun _ _ => True := by
  rw [runSiem]
  split
  · exact records_pure fun _ h => h
  · apply Program.safe_bind (records_flowGeneration fun _ _ _ h => h)
    intro gen
    exact records_runDestinations gen _ fun d hd => hformat d (List.mem_of_mem_filter hd)

end Run

/-- In every state of every sequence of ticks, every entry of the log is justified. -/
theorem proper_siemRuns {unformatted : Sent → Prop} {ticks : List (SiemSettings × List Answer)}
    (hformat : ∀ t ∈ ticks, ∀ dest ∈ t.1.destinations, ∀ source rec e,
      dest.formatter.formatRecord rec = .error e → unformatted ((dest.id, source), rec))
    {w : State} (hw : Recorded unformatted w) :
    ∀ w' ∈ w :: siemRuns ticks w, Recorded unformatted w' := by
  have hsafe : ∀ p ∈ ticks.map (fun t => (runSiem t.1, t.2)),
      Program.Safe (fun _ => True) (fun _ w => Recorded unformatted w) (Recorded unformatted) p.1
        (fun _ _ => True) ∧ ∀ a ∈ p.2, True := by
    intro p hp
    obtain ⟨t, ht, rfl⟩ := List.mem_map.1 hp
    exact ⟨Program.safe_weaken (records_runSiem t.1 (hformat t ht)) (fun _ h => ⟨h, trivial⟩)
      fun _ _ _ => trivial, fun _ _ => trivial⟩
  have hchain : List.IsChain (fun _ w => Recorded unformatted w) (w :: siemRuns ticks w) :=
    Program.chain_runs _ (I := Recorded unformatted) (fun _ _ _ h => h) hsafe hw
  exact Program.inv_of_isChain (I := Recorded unformatted) (fun _ _ _ h => h) hw hchain

end IllumioOps.Siem
