import IllumioOps.Siem.Delivery
import IllumioOps.Siem.Faults

/-!
# Ticks of the dispatcher keep every record

The programs of the dispatcher, one after the other, with what each of them keeps and returns.
The last section assembles what holds over every sequence of ticks.
-/

set_option autoImplicit false

namespace IllumioOps.Siem.Delivery

open Programs

/-! ## The operations -/

section Operations

variable {g : Binding} {limit : Nat} {w : State} {key : Key} {rec : SiemRecord} {record : Sent}
  {last hi : Nat} {floor : Option Int}

theorem forward_sendRecord (record : Sent) (probe taken : Bool) :
    Forward w (w.sendRecord record probe taken) :=
  ⟨fun _ => Grows.refl _, fun _ => rfl, rfl, fun _ h => h,
    fun _ h => List.mem_append_left _ h, fun _ h => List.mem_of_mem_filter h⟩

theorem forward_finishBatch (destination : String) (confirmed : Bool) :
    Forward w (w.finishBatch destination confirmed) := by
  refine ⟨fun _ => Grows.refl _, fun _ => rfl, rfl, ?_, fun _ h => List.mem_append_left _ h,
    fun _ h => h⟩
  intro q hq
  cases confirmed with
  | true => exact List.mem_append_left _ hq
  | false => exact hq

theorem forward_quarantine (letter : DeadLetter) (record : Sent) :
    Forward w (w.quarantine letter record) :=
  ⟨fun _ => Grows.refl _, fun _ => rfl, rfl, fun _ h => h,
    fun _ h => List.mem_append_left _ h, fun _ h => List.mem_of_mem_filter h⟩

theorem forward_openTransport : Forward w w.openTransport :=
  ⟨fun _ => Grows.refl _, fun _ => rfl, rfl, fun _ h => h, fun _ h => h, fun _ h => h⟩

/-- A record just sent or quarantined is held no longer. -/
theorem not_held_sendRecord (record : Sent) (probe taken : Bool) :
    record ∉ (w.sendRecord record probe taken).history.holding := by
  intro h
  exact absurd (List.mem_filter.1 h).2 (by simp)

theorem not_held_quarantine (letter : DeadLetter) (record : Sent) :
    record ∉ (w.quarantine letter record).history.holding := by
  intro h
  exact absurd (List.mem_filter.1 h).2 (by simp)

theorem accounted_quarantine (letter : DeadLetter) :
    Accounted (w.quarantine letter (key, rec)) key rec :=
  Or.inr (Or.inl (List.mem_append_right _ (List.mem_singleton.2 rfl)))

theorem dlqCount_quarantine (letter : DeadLetter) (record : Sent) (d : String) :
    (w.quarantine letter record).dlqCount d =
      w.dlqCount d + if letter.destinationId = d then 1 else 0 := by
  simp only [State.dlqCount, State.quarantine, List.filter_append, List.length_append]
  by_cases hd : letter.destinationId = d <;> simp [hd]

/-- Holding a record that is ahead of its cursor and above the floor keeps the invariant. -/
theorem Inv.hold (hw : Inv g w) (hpresent : Present g w key rec) (hat : At g key last floor w)
    (hlt : last < rec.recordId) (habove : passedOver floor rec = false) :
    Inv g (w.hold (key, rec)) := by
  refine ⟨?_, ?_, hw.floors, hw.bounded⟩
  · intro key' c hc hg r hr hstart hle
    exact (hw.covered key' c hc hg r hr hstart hle).of_forward (fun _ h => h)
      (fun _ h => List.mem_append_left _ h) rfl
  · intro key' r hr
    rcases List.mem_append.1 hr with hr | hr
    · exact hw.held key' r hr
    · obtain ⟨rfl, rfl⟩ := Prod.mk.inj (List.mem_singleton.1 hr)
      obtain ⟨c, hc, hg, rfl, rfl⟩ := hat
      exact ⟨hpresent, c, hc, hg, hlt, habove⟩

theorem moved_hold (record : Sent) : Moved g limit w (w.hold record) :=
  ⟨fun _ c hc hg => ⟨c, hc, hg, Nat.le_refl _⟩, fun _ => Nat.le_max_left _ _⟩

/-- Moving the cursor over records that are all accounted for keeps the invariant. -/
theorem Inv.advance (hw : Inv g w) (hat : At g key last floor w) (hle : last ≤ hi)
    (hbelow : Below g key last (hi + 1) w) (sent : Nat) (now : Int) :
    ∃ w', w.advance key g.pceUrl g.orgId hi sent now = (w', true) ∧ Inv g w' ∧ Moved g limit w w' ∧
      At g key hi floor w' ∧ w'.stored = w.stored ∧ w'.history = w.history := by
  obtain ⟨c, hc, hg, rfl, rfl⟩ := hat
  have hmax : max c.lastId hi = hi := Nat.max_eq_right hle
  have howns : g.owns (State.advanced hi sent now c) := hg
  refine ⟨w.setCursor key (State.advanced hi sent now c), ?_, ⟨?_, ?_, ?_, ?_⟩, ⟨?_, ?_⟩, ?_,
    rfl, rfl⟩
  · have hg : c.isOf g.pceUrl g.orgId = true := hg
    simp only [State.advance, hc, hg, if_true, State.updateCursor]
  · intro key' c' hc' hg' r hr hstart hle'
    by_cases hkey : key' = key
    · subst hkey
      rw [State.cursors_setCursor_self] at hc'
      obtain rfl := Option.some.inj hc'
      have hle' : r.recordId ≤ hi := by rw [← hmax]; exact hle'
      by_cases hold : r.recordId ≤ c.lastId
      · exact hw.covered key' c hc hg r hr hstart hold
      · exact (hbelow.all r hr (Nat.lt_of_not_le hold) (Nat.lt_succ_of_le hle')).1
    · rw [State.cursors_setCursor_of_ne hkey] at hc'
      exact hw.covered key' c' hc' hg' r hr hstart hle'
  · intro key' r hr
    by_cases hkey : key' = key
    · subst hkey
      obtain ⟨hpresent, c', hc', -, hlt, habove⟩ := hw.held key' r hr
      obtain rfl := Option.some.inj (hc'.symm.trans hc)
      refine ⟨hpresent, _, State.cursors_setCursor_self _ _ _, howns, ?_, habove⟩
      -- a held record is not among those the cursor passes
      rw [show (State.advanced hi sent now c').lastId = hi from hmax]
      by_contra hge
      exact (hbelow.all r hpresent hlt (Nat.lt_succ_of_le (Nat.le_of_not_lt hge))).2 hr
    · obtain ⟨hpresent, c', hc', h⟩ := hw.held key' r hr
      exact ⟨hpresent, c', by rw [State.cursors_setCursor_of_ne hkey]; exact hc', h⟩
  · intro key' c' hc' hg'
    by_cases hkey : key' = key
    · subst hkey
      rw [State.cursors_setCursor_self] at hc'
      obtain rfl := Option.some.inj hc'
      exact hw.floors key' c hc hg
    · rw [State.cursors_setCursor_of_ne hkey] at hc'
      exact hw.floors key' c' hc' hg'
  · intro key' c' hc' hg'
    by_cases hkey : key' = key
    · subst hkey
      rw [State.cursors_setCursor_self] at hc'
      obtain rfl := Option.some.inj hc'
      rw [show (State.advanced hi sent now c).lastId = hi from hmax]
      exact Nat.le_of_succ_le_succ hbelow.bound
    · rw [State.cursors_setCursor_of_ne hkey] at hc'
      exact hw.bounded key' c' hc' hg'
  · intro key' c' hc' hg'
    by_cases hkey : key' = key
    · subst hkey
      obtain rfl := Option.some.inj (hc.symm.trans hc')
      exact ⟨_, State.cursors_setCursor_self _ _ _, howns, Nat.le_max_left _ _⟩
    · exact ⟨c', by rw [State.cursors_setCursor_of_ne hkey]; exact hc', hg', Nat.le_refl _⟩
  · exact fun _ => Nat.le_max_left _ _
  · exact ⟨_, State.cursors_setCursor_self _ _ _, howns, hmax, rfl⟩

/-- A floor that goes leaves every record accounted for. -/
theorem Inv.dropFloor (hw : Inv g w) (limit : Nat) (key : Key) :
    Inv g (w.dropFloor key) ∧ Moved g limit w (w.dropFloor key) := by
  rw [State.dropFloor]
  cases hc : w.cursors key with
  | none =>
      rw [show w.updateCursor key _ = w by simp only [State.updateCursor, hc]]
      exact ⟨hw, Moved.refl g limit w⟩
  | some c =>
      rw [show w.updateCursor key (fun c => { c with floorTime := none }) =
        w.setCursor key { c with floorTime := none } by simp only [State.updateCursor, hc]]
      refine ⟨⟨?_, ?_, ?_, ?_⟩, ?_, fun _ => Nat.le_max_left _ _⟩
      · intro key' c' hc' hg' r hr hstart hle
        by_cases hkey : key' = key
        · subst hkey
          rw [State.cursors_setCursor_self] at hc'
          obtain rfl := Option.some.inj hc'
          exact hw.covered key' c hc hg' r hr hstart hle
        · rw [State.cursors_setCursor_of_ne hkey] at hc'
          exact hw.covered key' c' hc' hg' r hr hstart hle
      · intro key' r hr
        obtain ⟨hpresent, c', hc', hg', hlt, habove⟩ := hw.held key' r hr
        by_cases hkey : key' = key
        · subst hkey
          obtain rfl := Option.some.inj (hc'.symm.trans hc)
          exact ⟨hpresent, _, State.cursors_setCursor_self _ _ _, hg', hlt, rfl⟩
        · exact ⟨hpresent, c', by rw [State.cursors_setCursor_of_ne hkey]; exact hc', hg', hlt,
            habove⟩
      · intro key' c' hc' hg'
        by_cases hkey : key' = key
        · subst hkey
          rw [State.cursors_setCursor_self] at hc'
          obtain rfl := Option.some.inj hc'
          exact Or.inl rfl
        · rw [State.cursors_setCursor_of_ne hkey] at hc'
          exact hw.floors key' c' hc' hg'
      · intro key' c' hc' hg'
        by_cases hkey : key' = key
        · subst hkey
          rw [State.cursors_setCursor_self] at hc'
          obtain rfl := Option.some.inj hc'
          exact hw.bounded key' c hc hg'
        · rw [State.cursors_setCursor_of_ne hkey] at hc'
          exact hw.bounded key' c' hc' hg'
      · intro key' c' hc' hg'
        by_cases hkey : key' = key
        · subst hkey
          obtain rfl := Option.some.inj (hc.symm.trans hc')
          exact ⟨_, State.cursors_setCursor_self _ _ _, hg', Nat.le_refl _⟩
        · exact ⟨c', by rw [State.cursors_setCursor_of_ne hkey]; exact hc', hg', Nat.le_refl _⟩

/-- A cursor that is new, or another PCE's, starts with nothing behind it. -/
theorem Inv.startCursor (hw : Inv g w) (key : Key) {newest : Nat}
    (hnone : ∀ c, w.cursors key = some c → ¬ g.owns c)
    (hnewest : newest ≤ (w.stored key.2).lastGiven) (pceUrl orgId : String) :
    Inv g (w.startCursor key pceUrl orgId newest) ∧
      Moved g limit w (w.startCursor key pceUrl orgId newest) := by
  rw [State.startCursor]
  have hlast := State.started_lastId pceUrl orgId newest (w.cursors key)
  generalize State.started pceUrl orgId newest (w.cursors key) = started at hlast ⊢
  refine ⟨⟨?_, ?_, ?_, ?_⟩, ?_, fun _ => Nat.le_max_left _ _⟩
  · intro key' c hc hg r hr hstart hle
    by_cases hkey : key' = key
    · subst hkey
      have hc : (w.setCursor key' started).cursors key' = some c := hc
      rw [State.cursors_setCursor_self] at hc
      obtain rfl := Option.some.inj hc
      simp only [Function.update_self] at hstart
      exact absurd (hlast ▸ hle) (Nat.not_le.2 hstart)
    · have hc : (w.setCursor key started).cursors key' = some c := hc
      rw [State.cursors_setCursor_of_ne hkey] at hc
      simp only [Function.update_of_ne hkey] at hstart
      refine (hw.covered key' c hc hg r hr hstart hle).of_forward (fun _ h => h) (fun _ h => h) ?_
      exact Function.update_of_ne hkey _ _
  · intro key' r hr
    obtain ⟨hpresent, c, hc, hg, h⟩ := hw.held key' r hr
    by_cases hkey : key' = key
    · subst hkey
      exact absurd hg (hnone c hc)
    · exact ⟨hpresent, c, (State.cursors_setCursor_of_ne hkey _).trans hc, hg, h⟩
  · intro key' c hc hg
    by_cases hkey : key' = key
    · subst hkey
      have hc : (w.setCursor key' started).cursors key' = some c := hc
      rw [State.cursors_setCursor_self] at hc
      obtain rfl := Option.some.inj hc
      have hstarts : Function.update w.history.starts key' (newest, started.floorTime) key' =
        (newest, started.floorTime) := Function.update_self _ _ _
      exact Or.inr (congrArg Prod.snd hstarts).symm
    · have hc : (w.setCursor key started).cursors key' = some c := hc
      rw [State.cursors_setCursor_of_ne hkey] at hc
      simp only [Function.update_of_ne hkey]
      exact hw.floors key' c hc hg
  · intro key' c hc hg
    by_cases hkey : key' = key
    · subst hkey
      have hc : (w.setCursor key' started).cursors key' = some c := hc
      rw [State.cursors_setCursor_self] at hc
      obtain rfl := Option.some.inj hc
      exact hlast ▸ hnewest
    · have hc : (w.setCursor key started).cursors key' = some c := hc
      rw [State.cursors_setCursor_of_ne hkey] at hc
      exact hw.bounded key' c hc hg
  · intro key' c hc hg
    by_cases hkey : key' = key
    · subst hkey
      exact absurd hg (hnone c hc)
    · exact ⟨c, (State.cursors_setCursor_of_ne hkey _).trans hc, hg, Nat.le_refl _⟩

end Operations

/-! ## The steps -/

section Steps

variable {g : Binding} {limit : Nat} {C : State → Prop} {s : SiemSettings} {dest : SiemDestination}
  {source : Source} {last : Nat} {floor : Option Int} {rec : SiemRecord}

theorem delivers_pastDeadline (hC : Stays C) : Delivers g limit C pastDeadline fun _ => C :=
  delivers_calm (fun w _ => Calm.refl w) hC

theorem delivers_timeNow (hC : Stays C) : Delivers g limit C timeNow fun _ => C :=
  delivers_calm (fun w _ => Calm.refl w) hC

theorem delivers_flowGeneration (hC : Stays C) : Delivers g limit C flowGeneration fun _ => C :=
  delivers_calm (fun w _ => Calm.refl w) hC

theorem delivers_recordFailure (hC : Stays C) (key : Key) (headId : Nat) (error : String)
    (now : Int) : Delivers g limit C (recordFailure key headId error now) fun _ => C :=
  delivers_calm (fun w _ => calm_updateCursor w key fun _ => rfl) hC

theorem delivers_recentlyUp (hC : Stays C) (now : Int) :
    Delivers g limit C (recentlyUp dest now) fun _ => C :=
  delivers_calm (fun w _ => Calm.refl w) hC

/-- A read, of which the result is all there is after `last`. -/
theorem delivers_read (hC : Stays C) (htakes : dest.takes = g.takes dest.id) (most : Nat) :
    Delivers g limit C (read dest source last most) fun records w =>
      Read g (dest.id, source) last records w ∧ C w :=
  delivers_step hC fun w _ hw hc =>
    ⟨hw, Moved.refl g limit w, read_after (by rw [htakes]) most, hc⟩

/-- Without room the queue has no letter less than its limit; with room it has. -/
theorem delivers_dlqFull (hC : Stays C) (hmax : s.dlqMaxPerDest ≤ limit) :
    Delivers g limit C (dlqFull s dest) fun full w =>
      (full = false → w.dlqCount dest.id < limit) ∧ C w := by
  refine delivers_step hC fun w _ hw hc => ⟨hw, Moved.refl g limit w, ?_, hc⟩
  intro hroom
  exact Nat.lt_of_lt_of_le (Nat.lt_of_not_le (of_decide_eq_false hroom)) hmax

/-- The record that should go to the full queue is held. -/
theorem delivers_held {key : Key} (hC : Stays C) (hpresent : ∀ w, C w → Present g w key rec)
    (hat : ∀ w, C w → At g key last floor w) (hlt : last < rec.recordId)
    (habove : passedOver floor rec = false) (now : Int) {D : State → Prop}
    (hD : ∀ w, C w → D (w.hold (key, rec))) :
    Delivers g limit C (held key rec now) fun _ => D := by
  refine delivers_step hC fun w _ hw hc => ?_
  have hcalm : Calm w (w.noteError key "dlq_full" now) := calm_updateCursor w key fun _ => rfl
  have hc' := hC w _ hcalm hc
  exact ⟨(hw.forward hcalm.forward).hold (hpresent _ hc') (hat _ hc') hlt habove,
    hcalm.moved.trans (moved_hold _), hD _ hc'⟩

/-- Into the dead-letter queue, where there is room. -/
theorem delivers_insertLetter (hC : Stays C)
    (hletter : ∀ w letter, C w → C (w.quarantine letter ((dest.id, source), rec)))
    (payload error : String) (attempts : Nat) (now : Int) :
    Delivers g limit (fun w => w.dlqCount dest.id < limit ∧ C w)
      (insertLetter dest source rec payload error attempts now) fun _ w =>
        (Accounted w (dest.id, source) rec ∧
          ((dest.id, source), rec) ∉ w.history.holding) ∧ C w := by
  refine delivers_step ?_ fun w _ hw hc => ?_
  · intro w w' hcalm h
    exact ⟨Nat.lt_of_le_of_lt (hcalm.letters _) h.1, hC w w' hcalm h.2⟩
  · have hforward : Forward w _ := forward_quarantine
      { destinationId := dest.id, source := source, recordId := rec.recordId,
        externalId := rec.externalId, eventTime := rec.time, payload := payload,
        sentAs := dest.sentAs, error := clip 2000 error, attempts := attempts,
        quarantinedAt := now } ((dest.id, source), rec)
    refine ⟨hw.forward hforward, hforward.moved ?_,
      ⟨accounted_quarantine _, not_held_quarantine _ _⟩, hletter w _ hc.2⟩
    intro d
    rw [dlqCount_quarantine]
    by_cases hd : dest.id = d
    · subst hd
      rw [if_pos rfl]
      exact Nat.le_trans hc.1 (Nat.le_max_right _ _)
    · rw [if_neg hd]
      exact Nat.le_max_left _ _

/-- `_quarantine`: the record is in the queue, or held. -/
theorem delivers_quarantine (hC : Stays C)
    (hletter : ∀ w letter, C w → C (w.quarantine letter ((dest.id, source), rec)))
    (hmax : s.dlqMaxPerDest ≤ limit)
    (hpresent : ∀ w, C w → Present g w (dest.id, source) rec)
    (hat : ∀ w, C w → At g (dest.id, source) last floor w) (hlt : last < rec.recordId)
    (habove : passedOver floor rec = false) (payload error : String) (attempts : Nat)
    (now : Int) {D : State → Prop} (hD : ∀ w, C w → D (w.hold ((dest.id, source), rec))) :
    Delivers g limit C (quarantine s dest source rec payload error attempts now) fun room w =>
      if room then (Accounted w (dest.id, source) rec ∧
        ((dest.id, source), rec) ∉ w.history.holding) ∧ C w
      else D w := by
  rw [quarantine]
  apply Program.safe_bind (delivers_dlqFull hC hmax)
  intro full
  split
  · refine Program.safe_bind (delivers_weaken (delivers_held hC hpresent hat hlt habove now
      hD) (fun _ _ h => h.2) fun _ _ h => h) ?_
    intro _
    exact delivers_pure fun _ _ h => by simpa using h
  · rename_i hroom
    refine Program.safe_bind (delivers_weaken (delivers_insertLetter hC hletter payload error attempts now)
      (fun _ _ h => ⟨h.1 (Bool.eq_false_iff.2 hroom), h.2⟩) fun _ _ h => h) ?_
    intro _
    exact delivers_pure fun _ _ h => by simpa using h

end Steps

/-! ## The batch -/

/-- The loop over a batch, done with the records `processed`: each of them is accounted for, or
was sent and awaits `finish_batch`. -/
structure Batched (g : Binding) (key : Key) (last : Nat) (floor : Option Int)
    (records processed : List SiemRecord) (b : Batch) (w : State) : Prop where
  cursor : At g key last floor w
  read : Read g key last records w
  consumed : b.consumed = last ∨ ∃ r ∈ processed, b.consumed = r.recordId
  reached : ∀ r ∈ processed, r.recordId ≤ b.consumed
  awaited : ∀ r ∈ processed, Accounted w key r ∨ (key, r) ∈ w.history.pending
  unsent : ∀ r ∈ processed, b.payloads.lookup r.recordId = none → Accounted w key r
  settled : b.sent = 0 → ∀ r ∈ processed, Accounted w key r
  free : ∀ r ∈ processed, (key, r) ∉ w.history.holding
  above : ∀ r ∈ records, (b.payloads.lookup r.recordId).isSome → passedOver floor r = false

/-- The loop over a batch has ended before the records `rest`; the first of these may have been
tried. -/
structure Ended (g : Binding) (key : Key) (last : Nat) (floor : Option Int)
    (records processed rest : List SiemRecord) (b : Batch) (w : State) : Prop where
  batched : Batched g key last floor records processed b w
  split : records = processed ++ rest
  lined : ∀ r ∈ records, (b.payloads.lookup r.recordId).isSome →
    r ∈ processed ∨ rest.head? = some r
  failure : ∀ f e, b.failure = some (f, e) → rest.head? = some f ∧
    (b.payloads.lookup f.recordId).isSome

section SendBatch

variable {g : Binding} {limit : Nat} {s : SiemSettings} {dest : SiemDestination} {source : Source}
  {last : Nat} {floor : Option Int} {key : Key} {records processed rest : List SiemRecord}
  {b : Batch} {rec : SiemRecord} {w w' : State}

/-- The batch's state goes on while no cursor moves, nothing leaves the sends that await
`finish_batch`, and no record of it is held. -/
theorem Batched.forward (h : Batched g key last floor records processed b w)
    (hw : Forward w w') (hpending : ∀ q ∈ w.history.pending, q ∈ w'.history.pending) :
    Batched g key last floor records processed b w' :=
  ⟨lasts_at w w' hw h.cursor, lasts_read w w' hw h.read, h.consumed, h.reached,
    fun r hr => (h.awaited r hr).imp (fun ha => hw.accounted ha) fun hp => hpending _ hp,
    fun r hr hn => hw.accounted (h.unsent r hr hn),
    fun h0 r hr => hw.accounted (h.settled h0 r hr),
    fun r hr hheld => h.free r hr (hw.holding _ hheld), h.above⟩

theorem stays_batched : Stays (Batched g key last floor records processed b) :=
  fun _ _ hw h => h.forward hw.forward fun _ hq => hw.history ▸ hq

/-- Holding a record that is not done with leaves the batch's state as it is. -/
theorem Batched.hold (h : Batched g key last floor records processed b w)
    (hrec : rec ∉ processed) : Batched g key last floor records processed b (w.hold (key, rec)) :=
  ⟨h.cursor, ⟨h.read.ordered, h.read.present, h.read.after, h.read.complete⟩, h.consumed,
    h.reached,
    fun r hr => (h.awaited r hr).imp (fun ha => ha.of_forward (fun _ h => h)
      (fun _ h => List.mem_append_left _ h) rfl) id,
    fun r hr hn => (h.unsent r hr hn).of_forward (fun _ h => h)
      (fun _ h => List.mem_append_left _ h) rfl,
    fun h0 r hr => (h.settled h0 r hr).of_forward (fun _ h => h)
      (fun _ h => List.mem_append_left _ h) rfl,
    fun r hr hheld => by
      rcases List.mem_append.1 hheld with hheld | hheld
      · exact h.free r hr hheld
      · obtain ⟨-, rfl⟩ := Prod.mk.inj (List.mem_singleton.1 hheld)
        exact hrec hr,
    h.above⟩

/-- One more record is done with, accounted for and not held. -/
theorem Batched.next (h : Batched g key last floor records processed b w)
    (hordered : ∀ r ∈ processed, r.recordId < rec.recordId)
    (haccounted : Accounted w key rec) (hfree : (key, rec) ∉ w.history.holding) {b' : Batch}
    (hconsumed : b'.consumed = rec.recordId) (hpayloads : b'.payloads = b.payloads)
    (hsent : b'.sent = b.sent) :
    Batched g key last floor records (processed ++ [rec]) b' w := by
  refine ⟨h.cursor, h.read, Or.inr ⟨rec, by simp, hconsumed⟩, ?_, ?_, ?_, ?_, ?_,
    hpayloads ▸ h.above⟩ <;> intro r
  · intro hr
    rw [hconsumed]
    rcases List.mem_append.1 hr with hr | hr
    · exact Nat.le_of_lt (hordered r hr)
    · exact Nat.le_of_eq (congrArg SiemRecord.recordId (List.mem_singleton.1 hr))
  · intro hr
    rcases List.mem_append.1 hr with hr | hr
    · exact h.awaited r hr
    · exact Or.inl (List.mem_singleton.1 hr ▸ haccounted)
  · intro hr hn
    rcases List.mem_append.1 hr with hr | hr
    · exact h.unsent r hr (hpayloads ▸ hn)
    · exact List.mem_singleton.1 hr ▸ haccounted
  · intro r' hr
    rcases List.mem_append.1 hr with hr | hr
    · exact h.settled (hsent ▸ r) r' hr
    · exact List.mem_singleton.1 hr ▸ haccounted
  · intro hr
    rcases List.mem_append.1 hr with hr | hr
    · exact h.free r hr
    · exact List.mem_singleton.1 hr ▸ hfree

/-- The line of a record above the floor is made. -/
theorem Batched.made (h : Batched g key last floor records processed b w)
    (hrec : rec ∈ records) (habove : passedOver floor rec = false) (payload : String) :
    Batched g key last floor records processed (b.made rec payload) w := by
  refine ⟨h.cursor, h.read, h.consumed, h.reached, h.awaited, ?_, h.settled, h.free, ?_⟩
  · intro r hr hn
    rw [Batch.made, List.lookup_append, Option.or_eq_none_iff] at hn
    exact h.unsent r hr hn.1
  · intro r hr hsome
    cases hold : b.payloads.lookup r.recordId with
    | some line => exact h.above r hr (by rw [hold]; rfl)
    | none =>
        -- a new line: the record is the one it was made for
        have hid : r.recordId = rec.recordId := by
          by_contra hne
          simp [Batch.made, List.lookup_append, hold, hne] at hsome
        exact eq_of_recordId h.read.ordered hr hrec hid ▸ habove

/-- One more record was taken by the transport: it awaits `finish_batch`. -/
theorem Batched.took (h : Batched g key last floor records processed b w)
    (hordered : ∀ r ∈ processed, r.recordId < rec.recordId)
    (hawaits : (key, rec) ∈ w.history.pending) (hfree : (key, rec) ∉ w.history.holding)
    (hline : (b.payloads.lookup rec.recordId).isSome) :
    Batched g key last floor records (processed ++ [rec]) (b.took rec) w := by
  refine ⟨h.cursor, h.read, Or.inr ⟨rec, by simp, rfl⟩, ?_, ?_, ?_, ?_, ?_, h.above⟩
  · intro r hr
    rcases List.mem_append.1 hr with hr | hr
    · exact Nat.le_of_lt (hordered r hr)
    · exact Nat.le_of_eq (congrArg SiemRecord.recordId (List.mem_singleton.1 hr))
  · intro r hr
    rcases List.mem_append.1 hr with hr | hr
    · exact h.awaited r hr
    · exact Or.inr (List.mem_singleton.1 hr ▸ hawaits)
  · intro r hr hn
    rcases List.mem_append.1 hr with hr | hr
    · exact h.unsent r hr hn
    · have hn : b.payloads.lookup r.recordId = none := hn
      rw [List.mem_singleton.1 hr] at hn
      exact absurd hline (by rw [hn]; simp)
  · intro h0
    exact absurd h0 (Nat.succ_ne_zero _)
  · intro r hr
    rcases List.mem_append.1 hr with hr | hr
    · exact h.free r hr
    · exact List.mem_singleton.1 hr ▸ hfree

/-- The loop ends without having tried the next record. -/
theorem Batched.ended (h : Batched g key last floor records processed b w)
    (hsplit : records = processed ++ rest)
    (hunsent : ∀ r ∈ rest, b.payloads.lookup r.recordId = none) (hfailure : b.failure = none) :
    Ended g key last floor records processed rest b w := by
  refine ⟨h, hsplit, ?_, ?_⟩
  · intro r hr hline
    rcases List.mem_append.1 (hsplit ▸ hr) with hr | hr
    · exact Or.inl hr
    · exact absurd hline (by rw [hunsent r hr]; simp)
  · intro f e hf
    exact absurd (hfailure.symm.trans hf) (by simp)

/-- The loop ends at a record whose line was made. -/
theorem Batched.ended_at (h : Batched g key last floor records processed b w)
    (hsplit : records = processed ++ rec :: rest)
    (hunsent : ∀ r ∈ rest, b.payloads.lookup r.recordId = none)
    (hfailure : ∀ f e, b.failure = some (f, e) → f = rec ∧
      (b.payloads.lookup rec.recordId).isSome) :
    Ended g key last floor records processed (rec :: rest) b w := by
  refine ⟨h, hsplit, ?_, ?_⟩
  · intro r hr hline
    rcases List.mem_append.1 (hsplit ▸ hr) with hr | hr
    · exact Or.inl hr
    · rcases List.mem_cons.1 hr with rfl | hr
      · exact Or.inr rfl
      · exact absurd hline (by rw [hunsent r hr]; simp)
  · intro f e hf
    obtain ⟨rfl, hline⟩ := hfailure f e hf
    exact ⟨rfl, hline⟩

/-- A send of the next record: it is held no longer, and taken it awaits `finish_batch`. -/
theorem delivers_send (rec : SiemRecord) :
    Delivers g limit (Batched g key last floor records processed b) (sendRecord key rec false)
      fun outcome w => (key, rec) ∉ w.history.holding ∧
        (outcome = .taken → (key, rec) ∈ w.history.pending) ∧
        Batched g key last floor records processed b w := by
  refine delivers_step stays_batched fun w a hw h => ?_
  have hforward := forward_sendRecord (w := w) (key, rec) false (decide (a.send = .taken))
  refine ⟨hw.forward hforward, hforward.moved fun _ => Nat.le_max_left _ _,
    not_held_sendRecord _ _ _, ?_, h.forward hforward ?_⟩
  · intro htaken
    have htaken : a.send = .taken := htaken
    simp [State.sendRecord, htaken]
  · intro q hq
    simp only [State.sendRecord]
    split
    · exact List.mem_append_left _ hq
    · exact hq

/-- `_quarantine` of the next record: in the queue or held, the batch's state goes on. -/
theorem delivers_quarantineNext (hmax : s.dlqMaxPerDest ≤ limit) (hpresent : rec ∈ records)
    (hnext : rec ∉ processed) (hafter : last < rec.recordId)
    (habove : passedOver floor rec = false) (payload error : String) (attempts : Nat)
    (now : Int) :
    Delivers g limit (Batched g (dest.id, source) last floor records processed b)
      (quarantine s dest source rec payload error attempts now) fun room w =>
        (room = true → Accounted w (dest.id, source) rec ∧
          ((dest.id, source), rec) ∉ w.history.holding) ∧
        Batched g (dest.id, source) last floor records processed b w := by
  refine delivers_weaken (delivers_quarantine
    (D := Batched g (dest.id, source) last floor records processed b) stays_batched ?_ hmax
    (fun w h => h.read.present rec hpresent) (fun _ h => h.cursor) hafter habove payload error
    attempts now fun _ h => h.hold hnext) (fun _ _ h => h) ?_
  · intro w letter h
    exact h.forward (forward_quarantine letter _) fun _ hq => hq
  · intro room w h
    cases room with
    | true => exact ⟨fun _ => h.1, h.2⟩
    | false => exact ⟨fun hroom => absurd hroom (by simp), h⟩

/-- The loop over a batch: it ends before some of the records, all before them done with. -/
theorem delivers_sendBatch (hmax : s.dlqMaxPerDest ≤ limit) (now : Int)
    (hordered : Ordered records) (hafter : ∀ r ∈ records, last < r.recordId)
    (hsplit : records = processed ++ rest)
    (hunsent : ∀ r ∈ rest, b.payloads.lookup r.recordId = none) (hfailure : b.failure = none) :
    Delivers g limit (Batched g (dest.id, source) last floor records processed b)
      (sendBatch s dest source floor now rest b) fun b' w =>
        ∃ processed rest, Ended g (dest.id, source) last floor records processed rest b' w := by
  induction rest generalizing processed b with
  | nil => exact delivers_pure fun w _ h => ⟨_, _, h.ended hsplit hunsent hfailure⟩
  | cons rec rest ih =>
      have hnext : records = (processed ++ [rec]) ++ rest := by simpa using hsplit
      have hrec : rec ∈ records := hsplit ▸ List.mem_append_right _ List.mem_cons_self
      have hparts := List.pairwise_append.1 (hsplit ▸ hordered)
      have hbefore : ∀ r ∈ processed, r.recordId < rec.recordId :=
        fun r hr => hparts.2.2 r hr rec List.mem_cons_self
      have hnew : rec ∉ processed := fun hr => Nat.lt_irrefl _ (hbefore rec hr)
      have hrest : ∀ r ∈ rest, b.payloads.lookup r.recordId = none :=
        fun r hr => hunsent r (List.mem_cons_of_mem _ hr)
      rw [sendBatch]
      apply Program.safe_bind (delivers_pastDeadline stays_batched)
      intro late
      split
      · exact delivers_pure fun w _ h => ⟨_, _, h.ended hsplit hunsent hfailure⟩
      · split
        · rename_i hpassed
          -- at or before the floor: accounted for as it is
          refine delivers_weaken (ih (b := b.passed rec) hnext hrest hfailure) ?_ fun _ _ h => h
          intro w hw h
          obtain ⟨haccounted, hfree⟩ := accounted_of_passedOver hw h.cursor hpassed
          exact h.next hbefore haccounted hfree rfl rfl rfl
        · rename_i habove
          have habove := Bool.eq_false_iff.2 habove
          split
          · apply Program.safe_bind (delivers_quarantineNext hmax hrec hnew (hafter rec hrec)
              habove _ _ 1 now)
            intro room
            split
            · rename_i hroom
              refine delivers_weaken (ih (b := b.quarantined rec) hnext hrest hfailure) ?_
                fun _ _ h => h
              intro w _ h
              obtain ⟨haccounted, hfree⟩ := h.1 hroom
              exact h.2.next hbefore haccounted hfree rfl rfl rfl
            · exact delivers_pure fun w _ h =>
                ⟨_, _, Batched.ended (b := b.heldFull) ⟨h.2.cursor, h.2.read, h.2.consumed,
                  h.2.reached, h.2.awaited, h.2.unsent, h.2.settled, h.2.free, h.2.above⟩ hsplit
                  hunsent hfailure⟩
          · rename_i payload _
            have hline : ((b.made rec payload).payloads.lookup rec.recordId).isSome := by
              simp [Batch.made, List.lookup_append]
            have hmade : ∀ r ∈ rest, (b.made rec payload).payloads.lookup r.recordId = none := by
              intro r hr
              have hlt := (List.pairwise_cons.1 hparts.2.1).1 r hr
              simp [Batch.made, List.lookup_append, hrest r hr, Nat.ne_of_gt hlt]
            refine Program.safe_bind (delivers_weaken (delivers_send (b := b.made rec payload) rec)
              (fun w _ h => h.made hrec habove payload) fun _ _ h => h) ?_
            intro outcome
            cases outcome with
            | taken =>
                refine delivers_weaken (ih (b := (b.made rec payload).took rec) hnext hmade
                  hfailure) ?_ fun _ _ h => h
                intro w _ h
                exact h.2.2.took hbefore (h.2.1 rfl) h.1 hline
            | refused e =>
                refine Program.safe_bind (delivers_weaken (delivers_quarantineNext
                  (b := b.made rec payload) hmax hrec hnew (hafter rec hrec) habove _ _ 1 now)
                  (fun _ _ h => h.2.2) fun _ _ h => h) ?_
                intro room
                split
                · rename_i hroom
                  refine delivers_weaken (ih (b := (b.made rec payload).quarantined rec) hnext
                    hmade hfailure) ?_ fun _ _ h => h
                  intro w _ h
                  obtain ⟨haccounted, hfree⟩ := h.1 hroom
                  exact h.2.next hbefore haccounted hfree rfl rfl rfl
                · refine delivers_pure fun w _ h => ⟨_, _, Batched.ended_at
                    (b := (b.made rec payload).heldFull) ⟨h.2.cursor, h.2.read, h.2.consumed,
                      h.2.reached, h.2.awaited, h.2.unsent, h.2.settled, h.2.free, h.2.above⟩
                    hsplit hmade ?_⟩
                  intro f e' hf
                  exact absurd (hfailure.symm.trans hf) (by simp)
            | failed e =>
                refine delivers_pure fun w _ h => ⟨_, _, Batched.ended_at
                  (b := { b.made rec payload with failure := some (rec, e) })
                  ⟨h.2.2.cursor, h.2.2.read, h.2.2.consumed, h.2.2.reached, h.2.2.awaited,
                    h.2.2.unsent, h.2.2.settled, h.2.2.free, h.2.2.above⟩ hsplit hmade ?_⟩
                intro f e' hf
                exact ⟨(Prod.mk.inj (Option.some.inj hf)).1.symm, hline⟩

end SendBatch

/-! ## The confirmation and the move of the cursor -/

/-- What is known of the record that a batch failed at: everything before it is accounted for. -/
structure Failing (g : Binding) (key : Key) (last : Nat) (floor : Option Int) (done : Nat)
    (f : SiemRecord) (w : State) : Prop where
  present : Present g w key f
  ahead : done < f.recordId
  below : Below g key last f.recordId w
  above : passedOver floor f = false

/-- A batch before the cursor is moved: everything it is done with is accounted for. -/
structure Turn (g : Binding) (key : Key) (last : Nat) (floor : Option Int)
    (records : List SiemRecord) (b : Batch) (w : State) : Prop where
  cursor : At g key last floor w
  read : Read g key last records w
  le : last ≤ b.consumed
  below : Below g key last (b.consumed + 1) w
  failure : ∀ f e, b.failure = some (f, e) → Failing g key last floor b.consumed f w

theorem foldl_max_cases (ids : List Nat) (m : Nat) :
    ids.foldl max m = m ∨ ids.foldl max m ∈ ids := by
  induction ids generalizing m with
  | nil => exact Or.inl rfl
  | cons i ids ih =>
      rw [List.foldl_cons]
      rcases ih (max m i) with h | h
      · rcases Nat.le_total m i with hle | hle
        · exact Or.inr (by rw [h, Nat.max_eq_right hle]; exact List.mem_cons_self)
        · exact Or.inl (by rw [h, Nat.max_eq_left hle])
      · exact Or.inr (List.mem_cons_of_mem _ h)

theorem le_foldl_max (ids : List Nat) (m : Nat) : m ≤ ids.foldl max m := by
  induction ids generalizing m with
  | nil => exact Nat.le_refl _
  | cons i ids ih => exact Nat.le_trans (Nat.le_max_left _ _) (ih (max m i))

section Confirm

variable {g : Binding} {limit : Nat} {s : SiemSettings} {dest : SiemDestination} {source : Source}
  {last : Nat} {floor : Option Int} {key : Key} {records processed rest : List SiemRecord}
  {b : Batch} {f : SiemRecord} {w w' : State}

theorem lasts_failing {done : Nat} : Lasts (Failing g key last floor done f) :=
  fun w w' hw h => ⟨lasts_present w w' hw h.present, h.ahead, lasts_below w w' hw h.below, h.above⟩

theorem lasts_turn : Lasts (Turn g key last floor records b) := fun w w' hw h =>
  ⟨lasts_at w w' hw h.cursor, lasts_read w w' hw h.read, h.le, lasts_below w w' hw h.below,
    fun f e hf => lasts_failing w w' hw (h.failure f e hf)⟩

/-- The cursor's place is an id that was given out, or nothing. -/
theorem le_lastGiven_of_at (hw : Inv g w) (hat : At g key last floor w) :
    last ≤ (w.stored key.2).lastGiven := by
  obtain ⟨c, hc, hg, rfl, -⟩ := hat
  exact hw.bounded key c hc hg

/-- What lies up to where a batch got was done with. -/
theorem Batched.mem_processed (h : Batched g key last floor records processed b w)
    (hsplit : records = processed ++ rest) {x : SiemRecord} (hx : Present g w key x)
    (hlt : last < x.recordId) (hle : x.recordId ≤ b.consumed) : x ∈ processed := by
  rcases h.consumed with hlast | ⟨r, hr, hid⟩
  · exact absurd (hlast ▸ hle) (Nat.not_le.2 hlt)
  · have hmem : r ∈ records := hsplit ▸ List.mem_append_left _ hr
    have hx := h.read.complete x hx hlt ⟨r, hmem, hid ▸ hle⟩
    exact mem_left_of_le (hsplit ▸ h.read.ordered) hr (hsplit ▸ hx) (hid ▸ hle)

/-- What lies before the record a batch ended at was done with. -/
theorem Ended.mem_processed (h : Ended g key last floor records processed rest b w)
    (hf : rest.head? = some f) {x : SiemRecord} (hx : Present g w key x)
    (hlt : last < x.recordId) (hbefore : x.recordId < f.recordId) : x ∈ processed := by
  obtain ⟨rest', rfl⟩ : ∃ rest', rest = f :: rest' := by
    cases rest with
    | nil => exact absurd hf (by simp)
    | cons r rest' => exact ⟨rest', by rw [Option.some.inj hf]⟩
  have hmem : f ∈ records := h.split ▸ List.mem_append_right _ List.mem_cons_self
  have hx := h.batched.read.complete x hx hlt ⟨f, hmem, Nat.le_of_lt hbefore⟩
  exact mem_left_of_lt (h.split ▸ h.batched.read.ordered) (h.split ▸ hx) hbefore

theorem Batched.le (h : Batched g key last floor records processed b w)
    (hsplit : records = processed ++ rest) : last ≤ b.consumed := by
  rcases h.consumed with hlast | ⟨r, hr, hid⟩
  · exact Nat.le_of_eq hlast.symm
  · exact hid ▸ Nat.le_of_lt (h.read.after r (hsplit ▸ List.mem_append_left _ hr))

/-- A batch that ended with everything accounted for. -/
theorem Ended.turn (hw : Inv g w) (h : Ended g key last floor records processed rest b w)
    (hall : ∀ r ∈ processed, Accounted w key r) : Turn g key last floor records b w := by
  have hb := h.batched
  refine ⟨hb.cursor, hb.read, hb.le h.split, ⟨?_, ?_⟩, ?_⟩
  · rcases hb.consumed with hlast | ⟨r, hr, hid⟩
    · exact Nat.succ_le_succ (hlast ▸ le_lastGiven_of_at hw hb.cursor)
    · have hmem : r ∈ records := h.split ▸ List.mem_append_left _ hr
      exact Nat.succ_le_succ (hid ▸ SourceTable.bounded _ _ (hb.read.present r hmem).1)
  · intro x hx hlt hhi
    have hmem := hb.mem_processed h.split hx hlt (Nat.le_of_lt_succ hhi)
    exact ⟨hall x hmem, hb.free x hmem⟩
  · intro f e hf
    obtain ⟨hhead, hline⟩ := h.failure f e hf
    obtain ⟨rest', rfl⟩ : ∃ rest', rest = f :: rest' := by
      cases rest with
      | nil => exact absurd hhead (by simp)
      | cons r rest' => exact ⟨rest', by rw [Option.some.inj hhead]⟩
    have hmem : f ∈ records := h.split ▸ List.mem_append_right _ List.mem_cons_self
    have hpresent := hb.read.present f hmem
    refine ⟨hpresent, ?_, ⟨?_, ?_⟩, hb.above f hmem hline⟩
    · rcases hb.consumed with hlast | ⟨r, hr, hid⟩
      · exact hlast ▸ hb.read.after f hmem
      · rw [hid]
        exact (List.pairwise_append.1 (h.split ▸ hb.read.ordered)).2.2 r hr f List.mem_cons_self
    · exact Nat.le_succ_of_le (SourceTable.bounded _ _ hpresent.1)
    · intro x hx hlt hbefore
      have hdone := h.mem_processed hhead hx hlt hbefore
      exact ⟨hall x hdone, hb.free x hdone⟩

/-- A batch that was not confirmed fails at the first record sent, and is done with what lies
before it. -/
theorem Ended.unconfirmed
    (h : Ended g key last floor records processed rest b w) {first : SiemRecord}
    (hfirst : firstSent records b.payloads = some first) (error : String) :
    Turn g key last floor records
      { b with
        failure := some (first, error)
        consumed := ((records.filter fun r => decide (r.recordId < first.recordId)).map
          SiemRecord.recordId).foldl max last
        sent := 0 } w := by
  have hb := h.batched
  obtain ⟨hline, as, bs, hsplit, hnone⟩ := List.find?_eq_some_iff_append.1 hfirst
  have hmem : first ∈ records := List.mem_of_find?_eq_some hfirst
  have hafter := hb.read.after first hmem
  -- what lies before it was done with, and no line was made for it
  have hbefore : ∀ x, Present g w key x → last < x.recordId → x.recordId < first.recordId →
      Accounted w key x ∧ (key, x) ∉ w.history.holding := by
    intro x hx hlt hxf
    have hxr := hb.read.complete x hx hlt ⟨first, hmem, Nat.le_of_lt hxf⟩
    have hxas : x ∈ as := mem_left_of_lt (hsplit ▸ hb.read.ordered) (hsplit ▸ hxr) hxf
    have hunlined : b.payloads.lookup x.recordId = none := by
      have := hnone x hxas
      simpa using this
    have hxp : x ∈ processed := by
      rcases h.lined first hmem hline with hp | hhead
      · exact mem_left_of_le (h.split ▸ hb.read.ordered) hp (h.split ▸ hxr) (Nat.le_of_lt hxf)
      · exact h.mem_processed hhead hx hlt hxf
    exact ⟨hb.unsent x hxp hunlined, hb.free x hxp⟩
  have hdone : ((records.filter fun r => decide (r.recordId < first.recordId)).map
      SiemRecord.recordId).foldl max last < first.recordId := by
    rcases foldl_max_cases ((records.filter fun r => decide (r.recordId < first.recordId)).map
      SiemRecord.recordId) last with hcase | hcase
    · rw [hcase]
      exact hafter
    · obtain ⟨r, hr, hid⟩ := List.mem_map.1 hcase
      exact hid ▸ of_decide_eq_true (List.mem_filter.1 hr).2
  have hgiven := SourceTable.bounded _ _ (hb.read.present first hmem).1
  refine ⟨hb.cursor, hb.read, le_foldl_max _ _, ⟨?_, ?_⟩, ?_⟩
  · exact Nat.le_succ_of_le (Nat.le_trans hdone hgiven)
  · intro x hx hlt hhi
    exact hbefore x hx hlt (Nat.lt_of_le_of_lt (Nat.le_of_lt_succ hhi) hdone)
  · intro f e hf
    obtain ⟨rfl, -⟩ := Prod.mk.inj (Option.some.inj hf)
    exact ⟨hb.read.present _ hmem, hdone, ⟨Nat.le_succ_of_le hgiven, hbefore⟩,
      hb.above _ hmem hline⟩

/-- The batch's state after a `finish_batch` that left everything accounted for. -/
theorem Batched.confirmed (h : Batched g key last floor records processed b w)
    (hw : Forward w w') (hall : ∀ r ∈ processed, Accounted w' key r) :
    Batched g key last floor records processed b w' :=
  ⟨lasts_at w w' hw h.cursor, lasts_read w w' hw h.read, h.consumed, h.reached,
    fun r hr => Or.inl (hall r hr), fun r hr _ => hall r hr, fun _ => hall,
    fun r hr hheld => h.free r hr (hw.holding _ hheld), h.above⟩

/-- `finish_batch`: confirmed, everything the batch is done with is accounted for. -/
theorem delivers_confirmBatch :
    Delivers g limit (fun w => ∃ processed rest,
        Ended g (dest.id, source) last floor records processed rest b w)
      (confirmBatch dest last records b) fun b' => Turn g (dest.id, source) last floor records b' := by
  rw [confirmBatch]
  split
  · rename_i hsent
    refine delivers_pure fun w hw h => ?_
    obtain ⟨processed, rest, h⟩ := h
    exact h.turn hw (h.batched.settled hsent)
  · refine Program.safe_bind (delivers_step (D := fun finish w =>
      (finish = .confirmed → Turn g (dest.id, source) last floor records b w) ∧
      ∀ e first, finish = .unconfirmed e → firstSent records b.payloads = some first →
        Turn g (dest.id, source) last floor records
          { b with
            failure := some (first, "delivery_unconfirmed: " ++ e)
            consumed := ((records.filter fun r => decide (r.recordId < first.recordId)).map
              SiemRecord.recordId).foldl max last
            sent := 0 } w) ?_ ?_) ?_
    · rintro w w' hw ⟨processed, rest, h⟩
      exact ⟨processed, rest, stays_batched w w' hw h.batched, h.split, h.lined, h.failure⟩
    · rintro w a hw ⟨processed, rest, h⟩
      have hforward := forward_finishBatch (w := w) dest.id (decide (a.finish = .confirmed))
      have hw' := hw.forward hforward
      refine ⟨hw', hforward.moved fun _ => Nat.le_max_left _ _, ?_, ?_⟩
      · intro hfinish
        have hall : ∀ r ∈ processed, Accounted (w.finishBatch dest.id
            (decide (a.finish = .confirmed))) (dest.id, source) r := by
          intro r hr
          rcases h.batched.awaited r hr with hr | hr
          · exact hforward.accounted hr
          · -- what awaited `finish_batch` is accepted now
            have hfinish : a.finish = .confirmed := hfinish
            simp only [hfinish, decide_true]
            exact Or.inl (List.mem_append_right _ hr)
        exact Ended.turn hw' ⟨h.batched.confirmed hforward hall, h.split, h.lined, h.failure⟩ hall
      · intro e first _ hfirst
        exact lasts_turn w _ hforward (h.unconfirmed hfirst _)
    · intro finish
      split
      · exact delivers_pure fun _ _ h => h.1 rfl
      · rename_i e first hfirst
        exact delivers_pure fun _ _ h => h.2 e first rfl hfirst
      · exact Program.safe_stop

/-- The cursor is moved over what the batch is done with. -/
theorem delivers_advance (hurl : s.pceUrl = g.pceUrl) (horg : s.orgId = g.orgId) (sent : Nat)
    (now : Int) :
    Delivers g limit (Turn g (dest.id, source) last floor records b)
      (advance s (dest.id, source) b.consumed sent now) fun moved w => moved = true ∧
        At g (dest.id, source) b.consumed floor w ∧
        Read g (dest.id, source) last records w ∧ last ≤ b.consumed ∧
        ∀ f e, b.failure = some (f, e) →
          Failing g (dest.id, source) last floor b.consumed f w := by
  refine delivers_step lasts_turn.stays fun w a hw h => ?_
  obtain ⟨w', hadvance, hinv, hmoved, hat, hstored, hhistory⟩ :=
    hw.advance h.cursor h.le h.below sent now
  rw [hurl, horg, hadvance]
  have hpresent : ∀ x, Present g w' (dest.id, source) x ↔ Present g w (dest.id, source) x := by
    intro x
    rw [Present, Present, hstored]
  have haccounted : ∀ x, Accounted w' (dest.id, source) x ↔ Accounted w (dest.id, source) x := by
    intro x
    rw [Accounted, Accounted, hhistory]
  refine ⟨hinv, hmoved, rfl, hat, ⟨h.read.ordered, ?_, h.read.after, ?_⟩, h.le, ?_⟩
  · exact fun r hr => (hpresent r).2 (h.read.present r hr)
  · exact fun x hx => h.read.complete x ((hpresent x).1 hx)
  · intro f e hf
    have hfail := h.failure f e hf
    refine ⟨(hpresent f).2 hfail.present, hfail.ahead, ⟨?_, ?_⟩, hfail.above⟩
    · rw [hstored]
      exact hfail.below.bound
    · intro x hx hlo hhi
      rw [hhistory, haccounted]
      exact hfail.below.all x ((hpresent x).1 hx) hlo hhi

end Confirm

/-! ## The failure path -/

/-- The state of the failure path: the cursor is before the head, and everything in between is
accounted for. -/
structure HeadAt (g : Binding) (key : Key) (done : Nat) (floor : Option Int) (head : SiemRecord)
    (w : State) : Prop where
  cursor : At g key done floor w
  present : Present g w key head
  ahead : done < head.recordId
  below : Below g key done head.recordId w
  above : passedOver floor head = false

section FailurePath

variable {g : Binding} {limit : Nat} {s : SiemSettings} {dest : SiemDestination} {source : Source}
  {done : Nat} {floor : Option Int} {key : Key} {records ahead : List SiemRecord}
  {head : SiemRecord}

theorem lasts_headAt : Lasts (HeadAt g key done floor head) := fun w w' hw h =>
  ⟨lasts_at w w' hw h.cursor, lasts_present w w' hw h.present, h.ahead,
    lasts_below w w' hw h.below, h.above⟩

/-- The head, and the records read after it. -/
abbrev Probing (g : Binding) (key : Key) (done : Nat) (floor : Option Int) (head : SiemRecord)
    (ahead : List SiemRecord) (w : State) : Prop :=
  HeadAt g key done floor head w ∧ Read g key head.recordId ahead w

theorem lasts_probing : Lasts (Probing g key done floor head ahead) := lasts_headAt.and lasts_read

/-- The probe that went through was accepted, and is not held. -/
def Through (key : Key) (probed : Option SiemRecord) (w : State) : Prop :=
  ∀ nxt, probed = some nxt → Accounted w key nxt ∧ (key, nxt) ∉ w.history.holding

theorem lasts_through {probed : Option SiemRecord} : Lasts (Through key probed) :=
  fun _ _ hw h nxt hnxt => ⟨hw.accounted (h nxt hnxt).1, fun hheld =>
    (h nxt hnxt).2 (hw.holding _ hheld)⟩

theorem delivers_nextGoesThrough {C : State → Prop} (hC : Lasts C) (tried : List SiemRecord) :
    Delivers g limit C (nextGoesThrough dest source tried) fun probed w =>
      (∀ nxt, probed = some nxt → nxt ∈ tried) ∧ Through (dest.id, source) probed w ∧ C w := by
  induction tried with
  | nil => exact delivers_pure fun w _ h => ⟨fun _ hn => absurd hn (by simp),
      fun _ hn => absurd hn (by simp), h⟩
  | cons nxt rest ih =>
      have hrest : Delivers g limit C (nextGoesThrough dest source rest) fun probed w =>
          (∀ n, probed = some n → n ∈ nxt :: rest) ∧ Through (dest.id, source) probed w ∧ C w :=
        delivers_weaken ih (fun _ _ h => h)
          fun _ _ h => ⟨fun n hn => List.mem_cons_of_mem _ (h.1 n hn), h.2⟩
      rw [nextGoesThrough]
      split
      · exact hrest
      · refine Program.safe_bind (delivers_step (D := fun outcome w =>
          ((dest.id, source), nxt) ∉ w.history.holding ∧
          (outcome = .taken → ((dest.id, source), nxt) ∈ w.history.pending) ∧ C w) hC.stays ?_) ?_
        · intro w a hw h
          have hforward := forward_sendRecord (w := w) ((dest.id, source), nxt) true
            (decide (a.send = .taken))
          refine ⟨hw.forward hforward, hforward.moved fun _ => Nat.le_max_left _ _,
            not_held_sendRecord _ _ _, ?_, hC w _ hforward h⟩
          intro htaken
          have htaken : a.send = .taken := htaken
          simp [State.sendRecord, htaken]
        · intro outcome
          cases outcome with
          | taken =>
              refine Program.safe_bind (delivers_step (D := fun finish w =>
                ((dest.id, source), nxt) ∉ w.history.holding ∧
                (finish = .confirmed → ((dest.id, source), nxt) ∈ w.history.accepted) ∧ C w)
                ?_ ?_) ?_
              · intro w w' hw h
                exact ⟨fun hheld => h.1 (hw.forward.holding _ hheld),
                  fun _ => hw.history ▸ h.2.1 rfl, hC w w' hw.forward h.2.2⟩
              · intro w a hw h
                have hforward := forward_finishBatch (w := w) dest.id
                  (decide (a.finish = .confirmed))
                refine ⟨hw.forward hforward, hforward.moved fun _ => Nat.le_max_left _ _, h.1, ?_,
                  hC w _ hforward h.2.2⟩
                intro hfinish
                have hfinish : a.finish = .confirmed := hfinish
                simp only [hfinish, decide_true]
                exact List.mem_append_right _ (h.2.1 rfl)
              · intro finish
                cases finish with
                | confirmed =>
                    refine delivers_pure fun w _ h => ⟨?_, ?_, h.2.2⟩
                    · intro n hn
                      exact Option.some.inj hn ▸ List.mem_cons_self
                    · intro n hn
                      obtain rfl := Option.some.inj hn
                      exact ⟨Or.inl (h.2.1 rfl), h.1⟩
                | unconfirmed e => exact delivers_weaken hrest (fun _ _ h => h.2.2) fun _ _ h => h
                | raised => exact delivers_weaken hrest (fun _ _ h => h.2.2) fun _ _ h => h
          | refused e => exact delivers_weaken hrest (fun _ _ h => h.2.2) fun _ _ h => h
          | failed e => exact delivers_weaken hrest (fun _ _ h => h.2.2) fun _ _ h => h

theorem delivers_isStuck {C : State → Prop} (hC : Stays C) (htakes : dest.takes = g.takes dest.id)
    (attempts : Nat) (now : Int) :
    Delivers g limit C (isStuck dest source head attempts now) fun _ => C := by
  rw [isStuck]
  split
  · exact delivers_pure fun _ _ h => h
  · split
    · apply Program.safe_bind (delivers_read hC htakes 1)
      intro later
      split
      · exact delivers_weaken (delivers_recentlyUp hC now) (fun _ _ h => h.2) fun _ _ h => h
      · exact delivers_pure fun _ _ h => h.2
    · exact delivers_pure fun _ _ h => h

theorem delivers_readAhead {last : Nat} (htakes : dest.takes = g.takes dest.id) (stuck : Bool)
    (hlast : last ≤ head.recordId) :
    Delivers g limit (fun w => HeadAt g (dest.id, source) done floor head w ∧
        Read g (dest.id, source) last records w) (readAhead dest source records head stuck)
      fun ahead => Probing g (dest.id, source) done floor head ahead := by
  rw [readAhead]
  split
  · exact delivers_weaken (delivers_read lasts_headAt.stays htakes probeCount) (fun _ _ h => h.1)
      fun _ _ h => ⟨h.2, h.1⟩
  · exact delivers_pure fun _ _ h => ⟨h.1, h.2.filter hlast⟩

theorem delivers_probeNext (stuck : Bool) :
    Delivers g limit (Probing g (dest.id, source) done floor head ahead)
      (probeNext dest source ahead head stuck) fun probed w =>
        (∀ nxt, probed = some nxt → nxt ∈ ahead) ∧ Through (dest.id, source) probed w ∧
          Probing g (dest.id, source) done floor head ahead w := by
  rw [probeNext]
  split
  · exact delivers_pure fun _ _ h => ⟨fun _ hn => absurd hn (by simp),
      fun _ hn => absurd hn (by simp), h⟩
  · refine delivers_weaken (delivers_nextGoesThrough lasts_probing _) (fun _ _ h => h) ?_
    intro probed w h
    exact ⟨fun nxt hn => List.mem_of_mem_filter (List.mem_of_mem_take (h.1 nxt hn)), h.2⟩

/-- The head is accounted for: so is everything up to it, and, when nothing lies between them,
up to the probe that went through. -/
theorem below_target {w : State} {probed : Option SiemRecord}
    (h : Probing g key done floor head ahead w)
    (hhead : Accounted w key head ∧ (key, head) ∉ w.history.holding)
    (hmem : ∀ nxt, probed = some nxt → nxt ∈ ahead) (hthrough : Through key probed w) :
    done ≤ headTarget ahead head probed ∧
      Below g key done (headTarget ahead head probed + 1) w := by
  have htoHead : Below g key done (head.recordId + 1) w := by
    refine ⟨Nat.succ_le_succ (SourceTable.bounded _ _ h.1.present.1), ?_⟩
    intro x hx hlt hle
    rcases Nat.lt_or_eq_of_le (Nat.le_of_lt_succ hle) with hlt' | heq
    · exact h.1.below.all x hx hlt hlt'
    · rw [eq_of_recordId (w.stored key.2).ordered hx.1 h.1.present.1 heq]
      exact hhead
  cases probed with
  | none => exact ⟨Nat.le_of_lt h.1.ahead, htoHead⟩
  | some nxt =>
      have hnxt := hmem nxt rfl
      have hafter := h.2.after nxt hnxt
      rw [headTarget]
      split
      · exact ⟨Nat.le_of_lt h.1.ahead, htoHead⟩
      · rename_i hskips
        refine ⟨Nat.le_of_lt (Nat.lt_trans h.1.ahead hafter),
          Nat.succ_le_succ (SourceTable.bounded _ _ (h.2.present nxt hnxt).1), ?_⟩
        intro x hx hlt hle
        rcases Nat.lt_or_ge head.recordId x.recordId with hbeyond | hupto
        · rcases Nat.lt_or_eq_of_le (Nat.le_of_lt_succ hle) with hbetween | heq
          · -- a record between the head and the probe was read, so the cursor stays before it
            have hread := h.2.complete x hx hbeyond ⟨nxt, hnxt, Nat.le_of_lt hbetween⟩
            refine absurd (List.any_eq_true.2 ⟨x, hread, ?_⟩) hskips
            simp [hbeyond, hbetween]
          · rw [eq_of_recordId (w.stored key.2).ordered hx.1 (h.2.present nxt hnxt).1 heq]
            exact hthrough nxt rfl
        · exact htoHead.all x hx hlt (Nat.lt_succ_of_le hupto)

theorem delivers_blameHead (hadmits : g.Admits s) (hmax : s.dlqMaxPerDest ≤ limit) (error : String) (attempts : Nat) (now : Int)
    (payloads : List (Nat × String)) (probed : Option SiemRecord) (run : SourceRun)
    (hahead : done < head.recordId) (habove : passedOver floor head = false) :
    Delivers g limit (fun w => (∀ nxt, probed = some nxt → nxt ∈ ahead) ∧
        Through (dest.id, source) probed w ∧
        Probing g (dest.id, source) done floor head ahead w)
      (blameHead s dest source head error attempts now payloads ahead probed run)
      fun _ _ => True := by
  rw [blameHead.eq_def]
  have hlasts : Lasts fun w => (∀ nxt, probed = some nxt → nxt ∈ ahead) ∧
      Through (dest.id, source) probed w ∧
      Probing g (dest.id, source) done floor head ahead w := fun w w' hw h =>
    ⟨h.1, lasts_through w w' hw h.2.1, lasts_probing w w' hw h.2.2⟩
  split
  · exact Program.safe_stop
  · apply Program.safe_bind (delivers_quarantine (D := fun _ => True) hlasts.stays
      (fun w letter h => hlasts w _ (forward_quarantine letter _) h) hmax
      (fun _ h => h.2.2.1.present) (fun _ h => h.2.2.1.cursor) hahead habove _ error attempts now
      fun _ _ => trivial)
    intro room
    split
    · rename_i hroom
      subst hroom
      refine Program.safe_bind (delivers_step (D := fun _ _ => True) ?_ ?_) ?_
      · intro w w' hw h
        simp only [if_true] at h ⊢
        exact ⟨⟨hw.forward.accounted h.1.1, fun hheld => h.1.2 (hw.forward.holding _ hheld)⟩,
          hlasts w w' hw.forward h.2⟩
      · intro w a hw h
        simp only [if_true] at h
        obtain ⟨hle, hbelow⟩ := below_target h.2.2.2 h.1 h.2.1 h.2.2.1
        obtain ⟨w', hadvance, hinv, hmoved, -⟩ :=
          hw.advance h.2.2.2.1.cursor hle hbelow (if probed.isSome then 1 else 0) now
        rw [hadmits.pceUrl, hadmits.orgId, hadvance]
        exact ⟨hinv, hmoved, trivial⟩
      · intro _
        exact delivers_pure fun _ _ _ => trivial
    · exact delivers_pure fun _ _ _ => trivial

theorem delivers_headFailed {last : Nat} (hadmits : g.Admits s)
    (hmax : s.dlqMaxPerDest ≤ limit) (htakes : dest.takes = g.takes dest.id) (payloads : List (Nat × String)) (error : String)
    (now : Int) (run : SourceRun) (hlast : last ≤ done) (hahead : done < head.recordId)
    (habove : passedOver floor head = false) :
    Delivers g limit (fun w => HeadAt g (dest.id, source) done floor head w ∧
        Read g (dest.id, source) last records w)
      (headFailed s dest source records payloads head error now run) fun _ _ => True := by
  have hlasts : Lasts fun w => HeadAt g (dest.id, source) done floor head w ∧
      Read g (dest.id, source) last records w := lasts_headAt.and lasts_read
  rw [headFailed]
  apply Program.safe_bind (delivers_recordFailure hlasts.stays _ head.recordId error now)
  intro attempts
  apply Program.safe_bind (delivers_isStuck hlasts.stays htakes attempts now)
  intro stuck
  split
  · exact delivers_pure fun _ _ _ => trivial
  · apply Program.safe_bind (delivers_dlqFull hlasts.stays hmax)
    intro full
    split
    · refine Program.safe_bind (delivers_weaken (delivers_held (D := fun _ => True) hlasts.stays
        (fun _ h => h.1.present) (fun _ h => h.1.cursor) hahead habove now fun _ _ => trivial)
        (fun _ _ h => h.2) fun _ _ h => h) ?_
      intro _
      exact delivers_pure fun _ _ _ => trivial
    · refine Program.safe_bind (delivers_weaken (delivers_readAhead htakes stuck
        (Nat.le_of_lt (Nat.lt_of_le_of_lt hlast hahead))) (fun _ _ h => h.2) fun _ _ h => h) ?_
      intro ahead
      apply Program.safe_bind (delivers_probeNext stuck)
      intro probed
      split
      · exact delivers_blameHead hadmits hmax error attempts now payloads probed _ hahead habove
      · exact delivers_pure fun _ _ _ => trivial

end FailurePath

/-! ## A turn of a source -/

/-- What a round of the loop leaves: when the loop goes on, the cursor is where it goes on. -/
def Going (g : Binding) (key : Key) (floor : Option Int) (r : (Nat × SourceRun) ⊕ SourceRun)
    (w : State) : Prop :=
  ∀ next run, r = .inl (next, run) → At g key next floor w

section Turns

variable {g : Binding} {limit : Nat} {s : SiemSettings} {dest : SiemDestination}
  {source : Source} {last : Nat} {floor : Option Int} {key : Key} {records : List SiemRecord}
  {b : Batch}

/-- The failure path of a batch starts with the cursor before the record it failed at. -/
theorem Failing.headAt {w : State} {f : SiemRecord}
    (h : Failing g key last floor b.consumed f w) (hat : At g key b.consumed floor w)
    (hle : last ≤ b.consumed) : HeadAt g key b.consumed floor f w :=
  ⟨hat, h.present, h.ahead, ⟨h.below.bound, fun x hx hlo =>
    h.below.all x hx (Nat.lt_of_le_of_lt hle hlo)⟩, h.above⟩

theorem delivers_settle (hadmits : g.Admits s) (hmax : s.dlqMaxPerDest ≤ limit)
    (htakes : dest.takes = g.takes dest.id) (now : Int) :
    Delivers g limit (fun w => At g (dest.id, source) b.consumed floor w ∧
        Read g (dest.id, source) last records w ∧ last ≤ b.consumed ∧
        ∀ f e, b.failure = some (f, e) →
          Failing g (dest.id, source) last floor b.consumed f w)
      (settle s dest source records now b) (Going g (dest.id, source) floor) := by
  rw [settle.eq_def]
  split
  · exact delivers_pure fun _ _ _ next run h => absurd h (by simp)
  · split
    · rename_i f e hfailure
      refine Program.safe_fact
        (c := last ≤ b.consumed ∧ b.consumed < f.recordId ∧ passedOver floor f = false) ?_ ?_
      · intro w h
        have hfail := h.2.2.2.2 f e hfailure
        exact ⟨h.2.2.2.1, hfail.ahead, hfail.above⟩
      rintro ⟨hle, hahead, habove⟩
      refine Program.safe_bind (delivers_weaken (delivers_headFailed hadmits hmax htakes
        b.payloads e now b.counted hle hahead habove) ?_ fun _ _ h => h) ?_
      · intro w hw h
        exact ⟨(h.2.2.2 f e hfailure).headAt h.1 hle, h.2.1⟩
      · intro run
        exact delivers_pure fun _ _ _ next run h => absurd h (by simp)
    · split
      · exact delivers_pure fun _ _ _ next run h => absurd h (by simp)
      · refine delivers_pure fun w _ h next run hnext => ?_
        obtain ⟨rfl, -⟩ := Prod.mk.inj (Sum.inl.inj hnext)
        exact h.1

/-- A batch that was read: before its loop, it is done with nothing. -/
theorem batched_nil {w : State} (hat : At g key last floor w)
    (hread : Read g key last records w) (run : SourceRun) :
    Batched g key last floor records [] ⟨last, 0, none, [], run⟩ w :=
  ⟨hat, hread, Or.inl rfl, fun _ h => absurd h List.not_mem_nil,
    fun _ h => absurd h List.not_mem_nil, fun _ h => absurd h List.not_mem_nil,
    fun _ _ h => absurd h List.not_mem_nil, fun _ h => absurd h List.not_mem_nil,
    fun _ _ h => absurd h (by simp)⟩

theorem delivers_runBatch (hadmits : g.Admits s) (hmax : s.dlqMaxPerDest ≤ limit)
    (htakes : dest.takes = g.takes dest.id) (gen : Nat) (run : SourceRun) :
    Delivers g limit (fun w => At g (dest.id, source) last floor w ∧
        Read g (dest.id, source) last records w)
      (runBatch s dest source gen floor last run records)
      (Going g (dest.id, source) floor) := by
  have hlasts : Lasts fun w => At g (dest.id, source) last floor w ∧
      Read g (dest.id, source) last records w := lasts_at.and lasts_read
  refine Program.safe_fact (c := Ordered records ∧ ∀ r ∈ records, last < r.recordId)
    (fun w h => ⟨h.2.2.ordered, h.2.2.after⟩) ?_
  rintro ⟨hordered, hafter⟩
  rw [runBatch]
  apply Program.safe_bind (delivers_flowGeneration hlasts.stays)
  intro generation
  split
  · exact delivers_pure fun _ _ _ next run h => absurd h (by simp)
  · apply Program.safe_bind (delivers_timeNow hlasts.stays)
    intro now
    refine Program.safe_bind (delivers_weaken (delivers_sendBatch hmax now
      hordered hafter (List.nil_append _).symm (fun _ _ => rfl) rfl) (fun w _ h => batched_nil h.1 h.2 run)
      fun _ _ h => h) ?_
    intro sentBatch
    apply Program.safe_bind delivers_confirmBatch
    intro confirmed
    apply Program.safe_bind (delivers_advance hadmits.pceUrl hadmits.orgId confirmed.sent now)
    intro moved
    split
    · exact delivers_weaken (delivers_settle hadmits hmax htakes now) (fun _ _ h => h.2)
        fun _ _ h => h
    · rename_i hmoved
      exact delivers_pure fun _ _ h => absurd h.1 hmoved

/-- The floor of a source that caught up goes. -/
theorem delivers_dropFloor {C : State → Prop} (hC : Stays C) (key : Key) :
    Delivers g limit C (dropFloor key) fun _ _ => True := by
  refine delivers_step hC fun w _ hw _ => ?_
  obtain ⟨hinv, hmoved⟩ := hw.dropFloor limit key
  exact ⟨hinv, hmoved, trivial⟩

theorem delivers_round (hadmits : g.Admits s) (hmax : s.dlqMaxPerDest ≤ limit)
    (htakes : dest.takes = g.takes dest.id) (gen : Nat) (run : SourceRun) :
    Delivers g limit (At g (dest.id, source) last floor)
      (round s dest source gen floor last run) (Going g (dest.id, source) floor) := by
  rw [round]
  apply Program.safe_bind (delivers_pastDeadline lasts_at.stays)
  intro late
  split
  · exact delivers_pure fun _ _ _ next run h => absurd h (by simp)
  · apply Program.safe_bind (delivers_read lasts_at.stays htakes dest.batchSize)
    intro records
    split
    · split
      · refine Program.safe_bind (delivers_dropFloor (lasts_read.and lasts_at).stays _) ?_
        intro _
        exact delivers_pure fun _ _ _ next run h => absurd h (by simp)
      · exact delivers_pure fun _ _ _ next run h => absurd h (by simp)
    · exact delivers_weaken (delivers_runBatch hadmits hmax htakes gen run)
        (fun _ _ h => ⟨h.2, h.1⟩) fun _ _ h => h

/-- The source's cursor is missing, or another PCE's. -/
def Unowned (g : Binding) (key : Key) (w : State) : Prop :=
  ∀ c, w.cursors key = some c → ¬ g.owns c

theorem lasts_unowned : Lasts (Unowned g key) := by
  intro w w' hw h c hc hg
  obtain ⟨c₀, hc₀, hplace⟩ := hw.cursor_back hc
  exact h c₀ hc₀ ((owns_of_place hplace).1 hg)

theorem delivers_startSource :
    Delivers g limit (Unowned g (dest.id, source)) (startSource s dest source)
      fun _ _ => True := by
  rw [startSource]
  refine Program.safe_bind (delivers_step (D := fun newest w =>
    newest ≤ (w.stored source).lastGiven ∧ Unowned g (dest.id, source) w) lasts_unowned.stays
    fun w _ hw h => ⟨hw, Moved.refl g limit w, (w.stored source).newest_le, h⟩) ?_
  intro newest
  refine Program.safe_bind (delivers_step (D := fun _ _ => True) ?_ ?_) ?_
  · intro w w' hw h
    exact ⟨Nat.le_trans h.1 (hw.forward.grows source).lastGiven,
      lasts_unowned.stays w w' hw h.2⟩
  · intro w _ hw h
    obtain ⟨hinv, hmoved⟩ := hw.startCursor (dest.id, source) h.2 h.1 s.pceUrl s.orgId
    exact ⟨hinv, hmoved, trivial⟩
  · intro _
    exact delivers_pure fun _ _ _ => trivial

theorem delivers_runSource (hadmits : g.Admits s) (hmax : s.dlqMaxPerDest ≤ limit)
    (htakes : dest.takes = g.takes dest.id) (source : Source) (gen : Nat) :
    Delivers g limit (fun _ => True) (runSource s dest source gen) fun _ _ => True := by
  rw [runSource]
  refine Program.safe_bind (delivers_step (D := fun cur w =>
    w.cursors (dest.id, source) = cur) stays_true
    fun w _ hw _ => ⟨hw, Moved.refl g limit w, rfl⟩) ?_
  intro cur
  split
  · exact delivers_weaken (delivers_startSource)
      (fun w _ h c hc => absurd (h.symm.trans hc) (by simp)) fun _ _ h => h
  · rename_i c
    split
    · rename_i hof
      -- the invariant of the rounds: the cursor is where the loop reads on
      refine Program.safe_weaken (Program.safe_loop (I := fun b w => Inv g w ∧
          At g (dest.id, source) b.1 c.floorTime w) (Q := fun _ w => Inv g w ∧ True)
          (fun b => ?_) (c.lastId, SourceRun.empty)) ?_ fun _ _ h => h
      · refine Program.safe_weaken (delivers_round hadmits hmax htakes gen b.2)
          (fun _ h => h) ?_
        rintro (⟨next, run⟩ | run) w h
        · exact ⟨h.1, h.2 next run rfl⟩
        · exact ⟨h.1, trivial⟩
      · rintro w ⟨hw, h⟩
        rw [hadmits.pceUrl, hadmits.orgId] at hof
        exact ⟨hw, c, h, hof, rfl, rfl⟩
    · rename_i hof
      rw [hadmits.pceUrl, hadmits.orgId] at hof
      refine delivers_weaken (delivers_startSource) ?_ fun _ _ h => h
      intro w _ h c' hc'
      obtain rfl := Option.some.inj (h.symm.trans hc')
      exact hof

end Turns

/-! ## A tick -/

section Ticks

variable {g : Binding} {limit : Nat} {s : SiemSettings} {dest : SiemDestination}

theorem delivers_runSources (hadmits : g.Admits s) (hmax : s.dlqMaxPerDest ≤ limit)
    (htakes : dest.takes = g.takes dest.id) (gen : Nat) (sources : List Source) :
    Delivers g limit (fun _ => True) (runSources s dest gen sources) fun _ _ => True := by
  induction sources with
  | nil => exact delivers_pure fun _ _ _ => trivial
  | cons source rest ih =>
      rw [runSources]
      apply Program.safe_bind (delivers_runSource hadmits hmax htakes source gen)
      intro run
      split
      · exact delivers_pure fun _ _ _ => trivial
      · apply Program.safe_bind ih
        intro others
        exact delivers_pure fun _ _ _ => trivial

theorem delivers_noteSetup (error : String) (sources : List Source) :
    Delivers g limit (fun _ => True) (noteSetup dest error sources) fun _ _ => True := by
  induction sources with
  | nil => exact delivers_pure fun _ _ _ => trivial
  | cons source rest ih =>
      rw [noteSetup]
      exact Program.safe_bind
        (delivers_calm (fun w _ => calm_updateCursor w _ fun _ => rfl) stays_true) fun _ => ih

theorem delivers_runDestination (hadmits : g.Admits s) (hmax : s.dlqMaxPerDest ≤ limit)
    (htakes : dest.takes = g.takes dest.id) (gen : Nat) :
    Delivers g limit (fun _ => True) (runDestination s dest gen) fun _ _ => True := by
  rw [runDestination]
  refine Program.safe_bind (delivers_step (D := fun _ _ => True) stays_true
    fun w _ hw _ => ⟨hw.forward forward_openTransport,
      forward_openTransport.moved fun _ => Nat.le_max_left _ _, trivial⟩) ?_
  intro setup
  split
  · apply Program.safe_bind (delivers_noteSetup _ _)
    intro _
    exact delivers_pure fun _ _ _ => trivial
  · exact delivers_runSources hadmits hmax htakes gen _

theorem delivers_runDestinations (hadmits : g.Admits s) (hmax : s.dlqMaxPerDest ≤ limit)
    (gen : Nat) {dests : List SiemDestination} (hdests : ∀ d ∈ dests, d.takes = g.takes d.id) :
    Delivers g limit (fun _ => True) (runDestinations s gen dests) fun _ _ => True := by
  induction dests with
  | nil => exact delivers_pure fun _ _ _ => trivial
  | cons dest rest ih =>
      rw [runDestinations]
      apply Program.safe_bind (delivers_runDestination hadmits hmax
        (hdests dest List.mem_cons_self) gen)
      intro run
      apply Program.safe_bind (ih fun d hd => hdests d (List.mem_cons_of_mem _ hd))
      intro others
      exact delivers_pure fun _ _ _ => trivial

/-- One tick: every step keeps the invariant, moves no cursor back, and leaves every queue
within the limit of the tick's settings. -/
theorem delivers_runSiem (hadmits : g.Admits s) :
    Delivers g s.dlqMaxPerDest (fun _ => True) (runSiem s) fun _ _ => True := by
  rw [runSiem]
  split
  · exact delivers_pure fun _ _ _ => trivial
  · apply Program.safe_bind (delivers_flowGeneration stays_true)
    intro gen
    exact delivers_runDestinations hadmits (Nat.le_refl _) gen fun d hd =>
      hadmits.takes d (List.mem_of_mem_filter hd)

end Ticks

/-! ## Every run -/

/-- A binding from where it is looked at: its cursors start where they are, at ids that were
given out, and nothing that happened before is on record. -/
structure Begins (g : Binding) (w : State) : Prop where
  starts : ∀ key c, w.cursors key = some c → g.owns c →
    w.history.starts key = (c.lastId, c.floorTime)
  given : ∀ key c, w.cursors key = some c → g.owns c → c.lastId ≤ (w.stored key.2).lastGiven
  accepted : w.history.accepted = []
  pending : w.history.pending = []
  holding : w.history.holding = []
  log : w.history.log = []

/-- Every record between where a cursor started and where it is was accepted, was put in the
dead-letter queue, or is at or before the floor. -/
def Covered (g : Binding) (w : State) : Prop :=
  ∀ key c, w.cursors key = some c → g.owns c → ∀ r ∈ (w.stored key.2).rows,
    g.takes key.1 key.2 r = true → (w.history.starts key).1 < r.recordId →
    r.recordId ≤ c.lastId → Accounted w key r

/-- The cursor of a record that found the dead-letter queue full is before the record. -/
def HeldBack (g : Binding) (w : State) : Prop :=
  ∀ key r, (key, r) ∈ w.history.holding →
    ∃ c, w.cursors key = some c ∧ g.owns c ∧ c.lastId < r.recordId

/-- No cursor of the binding went back or was lost. -/
def NeverBack (g : Binding) (w w' : State) : Prop :=
  ∀ key c, w.cursors key = some c → g.owns c →
    ∃ c', w'.cursors key = some c' ∧ g.owns c' ∧ c.lastId ≤ c'.lastId

/-- No dead-letter queue grew beyond the limit. -/
def WithinLimit (limit : Nat) (w w' : State) : Prop :=
  ∀ d, w'.dlqCount d ≤ max (w.dlqCount d) limit

section Runs

variable {g : Binding} {w w' : State} {ticks : List (SiemSettings × List Answer)}

theorem Begins.inv (h : Begins g w) : Inv g w := by
  refine ⟨?_, ?_, ?_, h.given⟩
  · intro key c hc hg r hr hstart hle
    rw [h.starts key c hc hg] at hstart
    exact absurd hle (Nat.not_le.2 hstart)
  · intro key r hr
    exact absurd (h.holding ▸ hr) List.not_mem_nil
  · intro key c hc hg
    exact Or.inr (by rw [h.starts key c hc hg])

theorem Inv.coveredAll (h : Inv g w) : Covered g w := fun key c hc hg r hr htakes =>
  h.covered key c hc hg r ⟨hr, htakes⟩

theorem Inv.heldBack (h : Inv g w) : HeldBack g w := by
  intro key r hr
  obtain ⟨-, c, hc, hg, hlt, -⟩ := h.held key r hr
  exact ⟨c, hc, hg, hlt⟩

/-- What every step of every tick keeps, whatever the settings of the tick. -/
theorem chain_siemRuns (hw : Inv g w)
    (hticks : ∀ t ∈ ticks, g.Admits t.1 ∧ ∀ a ∈ t.2, WithinBinding a) :
    List.IsChain (fun u v => Inv g v ∧ NeverBack g u v) (w :: siemRuns ticks w) := by
  refine Program.chain_runs WithinBinding (I := Inv g) (fun _ _ _ h => h.1) ?_ hw
  intro p hp
  obtain ⟨t, ht, rfl⟩ := List.mem_map.1 hp
  obtain ⟨hadmits, hanswers⟩ := hticks t ht
  refine ⟨?_, hanswers⟩
  exact Program.safe_mono (fun _ _ h => ⟨h.1, h.2.cursors⟩)
    (Program.safe_weaken (delivers_runSiem hadmits) (fun _ h => ⟨h, trivial⟩)
      fun _ _ _ => trivial)

/-- Over every sequence of ticks of a binding, each of them stopped anywhere, and whatever
arrives and however the transports answer: in every state each record a cursor has passed was
accepted, was put in the dead-letter queue or is at or before the floor, and a record that found
the queue full is ahead of its cursor; no step moves a cursor back; and no step of a tick takes
a queue beyond the limit of its settings. -/
theorem delivery_siemRuns (hw : Begins g w)
    (hticks : ∀ t ∈ ticks, g.Admits t.1 ∧ ∀ a ∈ t.2, WithinBinding a) :
    (∀ w' ∈ w :: siemRuns ticks w, Covered g w' ∧ HeldBack g w') ∧
      List.IsChain (NeverBack g) (w :: siemRuns ticks w) ∧
      ∀ before s answers after, ticks = before ++ (s, answers) :: after →
        List.IsChain (WithinLimit s.dlqMaxPerDest)
          (lastState w (siemRuns before w) ::
            (runSiem s (lastState w (siemRuns before w)) answers).1) := by
  have hchain := chain_siemRuns hw.inv hticks
  refine ⟨?_, hchain.imp fun _ _ h => h.2, ?_⟩
  · intro w' hw'
    have hinv := Program.inv_of_isChain (fun _ _ _ h => h.1) hw.inv hchain w' hw'
    exact ⟨hinv.coveredAll, hinv.heldBack⟩
  · rintro before s answers after rfl
    have hbefore := chain_siemRuns hw.inv fun t ht => hticks t (List.mem_append_left _ ht)
    have hinv := Program.inv_of_isChain (fun _ _ _ h => h.1) hw.inv hbefore _ (lastState_mem w _)
    obtain ⟨hadmits, hanswers⟩ := hticks (s, answers)
      (List.mem_append_right _ List.mem_cons_self)
    obtain ⟨htick, -⟩ := delivers_runSiem hadmits _ answers hanswers ⟨hinv, trivial⟩
    exact htick.imp fun _ _ h => h.2.letters

end Runs

/-- The binding of the one destination. -/
def oneTryBinding : Binding := ⟨"https://pce", "1", fun _ _ _ => true⟩

theorem threeStored_cursors {floor : Option Int} {key : Key} {c : Cursor}
    (h : (threeStored floor).cursors key = some c) : c.lastId = 0 ∧ c.floorTime = floor := by
  simp only [threeStored] at h
  split at h
  · obtain rfl := Option.some.inj h
    exact ⟨rfl, rfl⟩
  · exact absurd h (by simp)

/-- The three events, the first one refused for good, the second one below the floor. -/
def threeRun : List Answer :=
  [calmAnswer, calmAnswer, calmAnswer, calmAnswer, calmAnswer, calmAnswer, calmAnswer,
    calmAnswer, { calmAnswer with send := .refused "too long" }] ++ List.replicate 20 calmAnswer

/-- `delivery_siemRuns` over a tick that quarantines, passes over and sends. -/
theorem delivery_siemRuns_three :
    (∀ w' ∈ threeStored (some 10) :: siemRuns [(oneTrySettings, threeRun)] (threeStored (some 10)),
      Covered oneTryBinding w' ∧ HeldBack oneTryBinding w') ∧
      List.IsChain (NeverBack oneTryBinding) (threeStored (some 10) ::
        siemRuns [(oneTrySettings, threeRun)] (threeStored (some 10))) ∧
      ∀ before s answers after, [(oneTrySettings, threeRun)] = before ++ (s, answers) :: after →
        List.IsChain (WithinLimit s.dlqMaxPerDest)
          (lastState (threeStored (some 10)) (siemRuns before (threeStored (some 10))) ::
            (runSiem s (lastState (threeStored (some 10))
              (siemRuns before (threeStored (some 10)))) answers).1) := by
  refine delivery_siemRuns ⟨?_, ?_, rfl, rfl, rfl, rfl⟩ ?_
  · intro key c hc _
    obtain ⟨hlast, hfloor⟩ := threeStored_cursors hc
    rw [hlast, hfloor]
    rfl
  · intro key c hc _
    rw [(threeStored_cursors hc).1]
    exact Nat.zero_le _
  · intro t ht
    rw [List.mem_singleton.1 ht]
    refine ⟨⟨rfl, rfl, ?_⟩, ?_⟩
    · intro d hd
      rw [List.mem_singleton.1 hd]
      rfl
    · intro a ha e he
      have harrivals : ∀ a ∈ threeRun, a.arrivals = [] := by decide
      exact absurd (harrivals a ha ▸ he) List.not_mem_nil

end IllumioOps.Siem.Delivery
