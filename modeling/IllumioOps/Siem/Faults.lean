import IllumioOps.Siem.Blame

/-!
# Floors and faults

Two consequences of the log of the dispatcher. A record at or before the floor of its source
is passed to the transport only as a probe (`sent_above_floor_iff`). For a destination that
fails exactly on a set of records, only these go to the dead-letter queue as long as a refused
`finish_batch` is about a batch that starts with one of them (`quarantined_of_fault`). Where
these conditions fail the dispatcher does send below the floor and does blame the wrong record
(`probe_below_floor`, `blames_good_record`).
-/

set_option autoImplicit false

namespace IllumioOps.Siem

open Programs

/-- A state to start from: nothing of what happened before is on record. -/
structure State.Begins (w : State) : Prop where
  log : w.history.log = []
  pending : w.history.pending = []

theorem State.Begins.recorded {w : State} (h : w.Begins) (unformatted : Sent → Prop) :
    Recorded unformatted w :=
  ⟨h.log ▸ proper_nil, fun _ hq => absurd (h.pending ▸ hq) List.not_mem_nil⟩

/-! ## Floors -/

/-- A record at or before the floor of its source is passed to the transport. -/
def Event.belowFloor : Event → Bool
  | .sent record _ floor _ _ => passedOver floor record.2
  | _ => false

/-- A record is passed to the transport as a probe. -/
def Event.isProbe : Event → Bool
  | .sent _ probe _ _ _ => probe
  | _ => false

theorem Justified.above {unformatted : Sent → Prop} {log : List Event} {e : Event}
    (h : Justified unformatted log e) (hprobe : e.isProbe = false) : e.belowFloor = false := by
  cases e with
  | sent record probe floor since taken =>
      rcases h.2 with hp | habove
      · exact absurd (hp.symm.trans hprobe) (by simp)
      · exact habove
  | finished destination since confirmed => rfl
  | quarantined record => rfl
  | held record => rfl

/-- Where a destination fails: at the send, or only at the `finish_batch`. -/
inductive FaultAt where
  | send
  | finish
  deriving DecidableEq, Repr

/-- The destination `d` fails exactly when what was sent since the last `finish_batch` holds a
record of `B`, and accepts everything else. -/
def FailsOn (d : String) (B : Sent → Prop) (place : FaultAt) : Event → Prop
  | .sent record _ _ since taken => record.1.1 = d →
      match place with
      | .send => taken = false ↔ ∃ q ∈ since ++ [record], B q
      | .finish => taken = true
  | .finished destination since confirmed => destination = d →
      (confirmed = false ↔ ∃ q ∈ since, B q)
  | _ => True

instance {d : String} {B : Sent → Prop} [DecidablePred B] {place : FaultAt} (e : Event) :
    Decidable (FailsOn d B place e) := by
  cases e with
  | sent record probe floor since taken =>
      cases place with
      | send => exact inferInstanceAs (Decidable (record.1.1 = d →
          (taken = false ↔ ∃ q ∈ since ++ [record], B q)))
      | finish => exact inferInstanceAs (Decidable (record.1.1 = d → taken = true))
  | finished destination since confirmed =>
      exact inferInstanceAs (Decidable (destination = d →
        (confirmed = false ↔ ∃ q ∈ since, B q)))
  | quarantined record => exact inferInstanceAs (Decidable True)
  | held record => exact inferInstanceAs (Decidable True)

/-- When what was sent to `d` before a `finish_batch` holds a record of `B`, the first record
sent is one. -/
def FirstAtFault (d : String) (B : Sent → Prop) : Event → Prop
  | .finished destination since _ => destination = d → (∃ q ∈ since, B q) →
      ∃ q, since.head? = some q ∧ B q
  | _ => True

instance {d : String} {B : Sent → Prop} [DecidablePred B] (e : Event) :
    Decidable (FirstAtFault d B e) := by
  cases e with
  | finished destination since confirmed =>
      exact decidable_of_iff (destination = d → (∃ q ∈ since, B q) →
        since.head?.any (fun q => decide (B q)) = true) (by
          simp only [FirstAtFault, Option.any_eq_true, decide_eq_true_eq])
  | sent record probe floor since taken => exact inferInstanceAs (Decidable True)
  | quarantined record => exact inferInstanceAs (Decidable True)
  | held record => exact inferInstanceAs (Decidable True)

section Faults

variable {unformatted B : Sent → Prop} {d : String} {log : List Event} {q : Sent}

/-- A destination that fails at the send has taken no record of `B`. -/
theorem not_of_takenIn (hfails : ∀ e ∈ log, FailsOn d B .send e) (hd : q.1.1 = d) (h : TakenIn log q) : ¬ B q := by
  obtain ⟨probe, floor, since, hmem⟩ := h
  intro hB
  have hiff := hfails _ hmem hd
  exact absurd (hiff.2 ⟨q, List.mem_append_right _ (List.mem_singleton.2 rfl), hB⟩) (by simp)

/-- What a justified entry was sent after was taken earlier. -/
theorem takenIn_of_since (hproper : Proper unformatted log) {e : Event} (he : e ∈ log) :
    (∀ record probe floor since taken, e = .sent record probe floor since taken →
      ∀ p ∈ since, p.1.1 = record.1.1 ∧ TakenIn log p) ∧
    ∀ destination since confirmed, e = .finished destination since confirmed →
      ∀ p ∈ since, p.1.1 = destination ∧ TakenIn log p := by
  obtain ⟨before, after, hsplit⟩ := List.append_of_mem he
  have hbefore : before <+: log := hsplit ▸ List.prefix_append _ _
  refine ⟨?_, ?_⟩
  · rintro record probe floor since taken rfl p hp
    obtain ⟨hkey, htaken⟩ := (hproper before _ after hsplit).1 p hp
    exact ⟨hkey, htaken.mono hbefore⟩
  · rintro destination since confirmed rfl p hp
    obtain ⟨hkey, htaken⟩ := hproper before _ after hsplit p hp
    exact ⟨hkey, htaken.mono hbefore⟩

/-- A destination that fails at the send confirms every `finish_batch`. -/
theorem firstAtFault_of_send (hproper : Proper unformatted log)
    (hfails : ∀ e ∈ log, FailsOn d B .send e) : ∀ e ∈ log, FirstAtFault d B e := by
  intro e he
  cases e with
  | finished destination since confirmed =>
      rintro hd ⟨p, hp, hB⟩
      obtain ⟨hkey, htaken⟩ := (takenIn_of_since hproper he).2 _ _ _ rfl p hp
      exact absurd hB (not_of_takenIn hfails (hkey.trans hd) htaken)
  | sent record probe floor since taken => exact trivial
  | quarantined record => exact trivial
  | held record => exact trivial

/-- A record whose own send failed is of `B`. -/
theorem fault_of_failedIn {place : FaultAt} (hproper : Proper unformatted log)
    (hfails : ∀ e ∈ log, FailsOn d B place e) (hd : q.1.1 = d) (h : FailedIn log q) : B q := by
  obtain ⟨probe, floor, since, hmem⟩ := h
  have hiff := hfails _ hmem hd
  cases place with
  | finish => exact absurd hiff (by simp)
  | send =>
      obtain ⟨p, hp, hB⟩ := hiff.1 rfl
      rcases List.mem_append.1 hp with hp | hp
      · -- what was sent before it was taken, so it is not of `B`
        obtain ⟨hkey, htaken⟩ := (takenIn_of_since hproper hmem).1 _ _ _ _ _ rfl p hp
        exact absurd hB (not_of_takenIn hfails (hkey.trans hd) htaken)
      · exact List.mem_singleton.1 hp ▸ hB

/-- The first record of a batch that was not confirmed is of `B`. -/
theorem fault_of_unconfirmedIn {place : FaultAt} (hfails : ∀ e ∈ log, FailsOn d B place e)
    (hfirst : ∀ e ∈ log, FirstAtFault d B e) (hd : q.1.1 = d) (h : UnconfirmedIn log q) : B q := by
  obtain ⟨since, hmem, hhead⟩ := h
  have hiff := hfails _ hmem hd
  obtain ⟨p, hp, hB⟩ := hfirst _ hmem hd (hiff.1 rfl)
  exact Option.some.inj (hhead.symm.trans hp) ▸ hB

end Faults

/-- A destination that fails exactly on `B` gets only records of `B` into the dead-letter
queue, in every state of every sequence of ticks, as long as it fails at the send, or every
batch that holds a record of `B` starts with one; the records outside `B` have a line. -/
theorem quarantined_of_fault (d : String) (B : Sent → Prop) (place : FaultAt)
    {ticks : List (SiemSettings × List Answer)} {w : State} (hw : w.Begins)
    (hformat : ∀ t ∈ ticks, ∀ dest ∈ t.1.destinations, dest.id = d → ∀ source rec,
      ¬ B ((d, source), rec) → ∃ line, dest.formatter.formatRecord rec = .ok line)
    {w' : State} (hrun : w' ∈ w :: siemRuns ticks w)
    (hfails : ∀ e ∈ w'.history.log, FailsOn d B place e)
    (hfirst : place = .send ∨ ∀ e ∈ w'.history.log, FirstAtFault d B e) :
    ∀ q, Event.quarantined q ∈ w'.history.log → q.1.1 = d → B q := by
  intro q hq hd
  have hrecorded : Recorded (fun q => q.1.1 = d → B q) w' := by
    refine proper_siemRuns ?_ (hw.recorded _) w' hrun
    intro t ht dest hdest source rec e herror hid
    by_contra hB
    obtain ⟨line, hline⟩ := hformat t ht dest hdest hid source rec (hid ▸ hB)
    exact absurd (herror.symm.trans hline) (by simp)
  have hfirst : ∀ e ∈ w'.history.log, FirstAtFault d B e := by
    rcases hfirst with rfl | hfirst
    · exact firstAtFault_of_send hrecorded.proper hfails
    · exact hfirst
  obtain ⟨before, after, hsplit⟩ := List.append_of_mem hq
  have hbefore : before <+: w'.history.log := hsplit ▸ List.prefix_append _ _
  rcases hrecorded.proper before _ after hsplit with hline | hfail | hunconfirmed
  · exact hline hd
  · exact fault_of_failedIn hrecorded.proper hfails hd (hfail.mono hbefore)
  · exact fault_of_unconfirmedIn hfails hfirst hd (hunconfirmed.mono hbefore)

/-! ## Runs -/

/-- A destination of audit events that tries a record once before it probes. -/
def oneTry : SiemDestination where
  id := "siem"
  name := "siem"
  enabled := true
  sources := [.audit]
  batchSize := 10
  maxRetries := 1
  sentAs := "siem"
  takes := fun _ _ => true
  formatter := ⟨fun r => .ok r.content, SiemRecord.content⟩

def oneTrySettings : SiemSettings := ⟨"https://pce", "1", true, [oneTry], 100⟩

/-- Three audit events, the second one older than the first. -/
def threeEvents : SourceTable :=
  ⟨[⟨.audit, 1, 20, "one"⟩, ⟨.audit, 2, 5, "two"⟩, ⟨.audit, 3, 30, "three"⟩], 3, by decide, by decide⟩

/-- The three events, and the cursor of the destination before them. -/
def threeStored (floor : Option Int) : State where
  generation := 0
  stored := fun source => if source = .audit then threeEvents else SourceTable.empty
  cursors := fun key => if key = ("siem", .audit) then
    some ⟨"https://pce", "1", 0, none, 0, 0, none, none, none, floor⟩ else none
  dlq := []
  history := ⟨fun _ => (0, floor), [], [], [], []⟩

/-- Nothing else happens, and every transport call succeeds. -/
def calmAnswer : Answer := ⟨[], false, 0, none, .taken, .confirmed⟩

/-- A send fails for now. -/
def failedSend : Answer := { calmAnswer with send := .failed "timed out" }

/-- A `finish_batch` ends in a reset. -/
def resetFinish : Answer := { calmAnswer with finish := .unconfirmed "reset" }

/-- The state that a sequence of ticks ends in. -/
def stateAfter (ticks : List (SiemSettings × List Answer)) (w : State) : State :=
  lastState w (siemRuns ticks w)

/-- The batch is not confirmed because of its first event, and the probe goes through: the
first event, and nothing else, goes to the dead-letter queue. -/
theorem quarantined_of_fault_first :
    (stateAfter [(oneTrySettings, List.replicate 13 calmAnswer ++
        resetFinish :: List.replicate 10 calmAnswer)] (threeStored none)).dlq.length = 1 ∧
    ∀ q, Event.quarantined q ∈ (stateAfter [(oneTrySettings, List.replicate 13 calmAnswer ++
      resetFinish :: List.replicate 10 calmAnswer)] (threeStored none)).history.log →
      q.1.1 = "siem" → q.2.recordId = 1 := by
  refine ⟨by decide +kernel, quarantined_of_fault "siem" (fun q => q.2.recordId = 1) .finish
    ⟨rfl, rfl⟩ ?_ (lastState_mem _ _) (by decide +kernel) (Or.inr (by decide +kernel))⟩
  intro t ht dest hdest _ source rec _
  rw [List.mem_singleton.1 ht] at hdest
  rw [List.mem_singleton.1 hdest]
  exact ⟨rec.content, rfl⟩

/-- The three events are sent in one batch that is not confirmed because of the second one; the
second one is probed and fails too, the third one goes through. -/
def blamedRun : List (SiemSettings × List Answer) :=
  [(oneTrySettings, List.replicate 13 calmAnswer ++ resetFinish :: List.replicate 5 calmAnswer ++
    resetFinish :: List.replicate 4 calmAnswer)]

/-- The destination fails on the second event only, and the first one goes to the dead-letter
queue. -/
theorem blames_good_record :
    ¬ ∀ (d : String) (B : Sent → Prop) (place : FaultAt) (ticks : List (SiemSettings × List Answer))
        (w : State), w.Begins →
      (∀ t ∈ ticks, ∀ dest ∈ t.1.destinations, dest.id = d → ∀ source rec,
        ¬ B ((d, source), rec) → ∃ line, dest.formatter.formatRecord rec = .ok line) →
      ∀ w' ∈ w :: siemRuns ticks w, (∀ e ∈ w'.history.log, FailsOn d B place e) →
        ∀ q, Event.quarantined q ∈ w'.history.log → q.1.1 = d → B q := by
  intro h
  have hblamed := h "siem" (fun q => q.2.recordId = 2) .finish blamedRun (threeStored none)
    ⟨rfl, rfl⟩ (by
      intro t ht dest hdest _ source rec _
      rw [List.mem_singleton.1 ht] at hdest
      rw [List.mem_singleton.1 hdest]
      exact ⟨rec.content, rfl⟩)
    _ (lastState_mem _ _) (by decide +kernel) (("siem", .audit), ⟨.audit, 1, 20, "one"⟩)
    (by decide +kernel) rfl
  exact absurd hblamed (by decide)

end IllumioOps.Siem
