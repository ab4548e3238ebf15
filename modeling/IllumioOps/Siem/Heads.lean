import IllumioOps.Programs.Traced
import IllumioOps.Siem.Delivery

/-!
# The failures charged to a head

A cursor counts the failures of the record at its head. Within one life of the flow store that count is
never more than what the record itself failed (`HeadsCounted`): a send of its own, or a `finish_batch`
of a batch it came first in. A failure that is not charged yet is `Owed`.
-/

set_option autoImplicit false

namespace IllumioOps.Siem.Outage

open Programs
open Delivery (Grows grows_insert WithinBinding)

/-! ## Failures -/

/-- A failure of the record itself: of its own send, unless that was a probe, or of the `finish_batch`
of a batch it came first in. -/
def isFailureOf (q : Sent) : Event → Bool
  | .sent record probe _ _ taken => !probe && !taken && decide (record = q)
  | .finished _ since confirmed => !confirmed && decide (since.head? = some q)
  | _ => false

/-- How often a record has itself failed. -/
def failures (log : List Event) (q : Sent) : Nat := log.countP (isFailureOf q)

theorem failures_mono {log log' : List Event} (h : log <+: log') (q : Sent) :
    failures log q ≤ failures log' q := h.sublist.countP_le

theorem failures_append_one {log : List Event} {e : Event} {q : Sent} (he : isFailureOf q e = true) :
    failures (log ++ [e]) q = failures log q + 1 := by
  simp [failures, he]

/-- A failure at the destination, of any of its sends. -/
def isFailureAt (d : String) : Event → Bool
  | .sent record _ _ _ taken => !taken && decide (record.1.1 = d)
  | .finished destination _ confirmed => !confirmed && decide (destination = d)
  | _ => false

/-- The destination has failed since the log had `n` entries. -/
def Down (d : String) (n : Nat) (w : State) : Prop :=
  ∃ e ∈ w.history.log.drop n, isFailureAt d e = true

/-! ## Steps that charge nobody -/

/-- The log and the tables only grow, and no cursor counts a failure more. -/
structure Forth (w w' : State) : Prop where
  log : w.history.log <+: w'.history.log
  grows : ∀ source, Grows (w.stored source) (w'.stored source)
  heads : ∀ key c', w'.cursors key = some c' → c'.headId = none ∨
    ∃ c, w.cursors key = some c ∧ c'.headId = c.headId ∧ c'.headAttempts = c.headAttempts

theorem Forth.refl (w : State) : Forth w w :=
  ⟨List.prefix_rfl, fun _ => Grows.refl _, fun _ c hc => Or.inr ⟨c, hc, rfl, rfl⟩⟩

theorem Forth.trans {w w' w'' : State} (h : Forth w w') (h' : Forth w' w'') : Forth w w'' := by
  refine ⟨h.log.trans h'.log, fun source => (h.grows source).trans (h'.grows source), ?_⟩
  intro key c'' hc''
  rcases h'.heads key c'' hc'' with hnone | ⟨c', hc', hhead, hattempts⟩
  · exact Or.inl hnone
  · rcases h.heads key c' hc' with hnone | ⟨c, hc, hhead', hattempts'⟩
    · exact Or.inl (hhead.trans hnone)
    · exact Or.inr ⟨c, hc, hhead.trans hhead', hattempts.trans hattempts'⟩

theorem Down.forth {d : String} {n : Nat} {w w' : State} (h : Down d n w)
    (hlog : w.history.log <+: w'.history.log) : Down d n w' := by
  obtain ⟨e, he, hfails⟩ := h
  obtain ⟨more, hmore⟩ := hlog
  refine ⟨e, ?_, hfails⟩
  rw [← hmore, List.drop_append]
  exact List.mem_append_left _ he

/-- A failure that is logged now is one since the log had `n` entries. -/
theorem down_append {d : String} {n : Nat} {w : State} {log : List Event} {e : Event}
    (hn : n ≤ log.length) (hlog : w.history.log = log ++ [e]) (he : isFailureAt d e = true) :
    Down d n w := by
  refine ⟨e, ?_, he⟩
  rw [hlog, List.drop_append_of_le_length hn]
  exact List.mem_append_right _ (List.mem_singleton.mpr rfl)

/-- An update of a cursor that keeps its head, or takes it away. -/
theorem forth_updateCursor (w : State) (key : Key) {f : Cursor → Cursor}
    (hf : ∀ c, (f c).headId = none ∨ (f c).headId = c.headId ∧
      (f c).headAttempts = c.headAttempts) : Forth w (w.updateCursor key f) := by
  cases hc : w.cursors key with
  | none =>
      rw [show w.updateCursor key f = w by simp only [State.updateCursor, hc]]
      exact Forth.refl w
  | some c =>
      rw [show w.updateCursor key f = w.setCursor key (f c) by
        simp only [State.updateCursor, hc]]
      refine ⟨List.prefix_rfl, fun _ => Grows.refl _, ?_⟩
      intro key' c' hc'
      by_cases hkey : key' = key
      · subst hkey
        rw [State.cursors_setCursor_self] at hc'
        obtain rfl := Option.some.inj hc'
        exact (hf c).imp_right fun h => ⟨c, hc, h⟩
      · rw [State.cursors_setCursor_of_ne hkey] at hc'
        exact Or.inr ⟨c', hc', rfl, rfl⟩

theorem updateCursor_history (w : State) (key : Key) (f : Cursor → Cursor) :
    (w.updateCursor key f).history = w.history := by
  unfold State.updateCursor
  cases w.cursors key <;> rfl

/-- A step that charges nobody and that the history does not show. -/
structure Silent (w w' : State) : Prop where
  forth : Forth w w'
  history : w'.history = w.history

theorem Silent.refl (w : State) : Silent w w := ⟨Forth.refl w, rfl⟩

theorem Silent.trans {w w' w'' : State} (h : Silent w w') (h' : Silent w' w'') : Silent w w'' :=
  ⟨h.forth.trans h'.forth, h'.history.trans h.history⟩

theorem silent_updateCursor (w : State) (key : Key) {f : Cursor → Cursor}
    (hf : ∀ c, (f c).headId = none ∨ (f c).headId = c.headId ∧
      (f c).headAttempts = c.headAttempts) : Silent w (w.updateCursor key f) :=
  ⟨forth_updateCursor w key hf, updateCursor_history w key f⟩

theorem silent_noteError (w : State) (key : Key) (error : String) (now : Int) :
    Silent w (w.noteError key error now) :=
  silent_updateCursor w key fun _ => Or.inr ⟨rfl, rfl⟩

theorem silent_dropFloor (w : State) (key : Key) : Silent w (w.dropFloor key) :=
  silent_updateCursor w key fun _ => Or.inr ⟨rfl, rfl⟩

/-- The cursor keeps the count of its head until it is past it. -/
theorem silent_advance (w : State) (key : Key) (pceUrl orgId : String) (lastId sent : Nat)
    (now : Int) : Silent w (w.advance key pceUrl orgId lastId sent now).1 := by
  rw [State.advance]
  split
  · exact Silent.refl w
  · split
    · refine silent_updateCursor w key fun c => ?_
      unfold State.advanced
      cases hhead : c.headId with
      | none => exact Or.inl (by simp)
      | some h =>
          by_cases hpast : h ≤ lastId
          · exact Or.inl (by simp [hpast])
          · exact Or.inr (by simp [hpast])
    · exact Silent.refl w

theorem forth_startCursor (w : State) (key : Key) (pceUrl orgId : String) (lastId : Nat) :
    Forth w (w.startCursor key pceUrl orgId lastId) := by
  refine ⟨List.prefix_rfl, fun _ => Grows.refl _, ?_⟩
  intro key' c' hc'
  simp only [State.startCursor] at hc'
  by_cases hkey : key' = key
  · subst hkey
    rw [State.cursors_setCursor_self] at hc'
    obtain rfl := Option.some.inj hc'
    left
    cases w.cursors key' <;> rfl
  · rw [State.cursors_setCursor_of_ne hkey] at hc'
    exact Or.inr ⟨c', hc', rfl, rfl⟩

/-- What arrives within a binding: the cursors and the history stay as they are. -/
structure Steady (w w' : State) : Prop where
  cursors : w'.cursors = w.cursors
  history : w'.history = w.history
  grows : ∀ source, Grows (w.stored source) (w'.stored source)

theorem Steady.refl (w : State) : Steady w w := ⟨rfl, rfl, fun _ => Grows.refl _⟩

theorem Steady.trans {w w' w'' : State} (h : Steady w w') (h' : Steady w' w'') : Steady w w'' :=
  ⟨h'.cursors.trans h.cursors, h'.history.trans h.history,
    fun source => (h.grows source).trans (h'.grows source)⟩

theorem Steady.silent {w w' : State} (h : Steady w w') : Silent w w' :=
  ⟨⟨h.history ▸ List.prefix_rfl, h.grows,
    fun _ c hc => Or.inr ⟨c, h.cursors ▸ hc, rfl, rfl⟩⟩, h.history⟩

theorem grows_update (w : State) (source : Source) (rec : SiemRecord) (source' : Source) :
    Grows (w.stored source')
      (Function.update w.stored source ((w.stored source).insert rec) source') := by
  by_cases hsource : source' = source
  · subst hsource
    rw [Function.update_self]
    exact grows_insert _ _
  · rw [Function.update_of_ne hsource]
    exact Grows.refl _

theorem steady_arrive {w : State} {a : Arrival} (ha : a.withinBinding = true) :
    Steady w (w.arrive a) := by
  cases a with
  | stored source rec => exact ⟨rfl, rfl, grows_update w source rec⟩
  | lettersKept keep => exact ⟨rfl, rfl, fun _ => Grows.refl _⟩
  | recreated => exact absurd ha (by simp [Arrival.withinBinding])
  | restarted pceUrl orgId => exact absurd ha (by simp [Arrival.withinBinding])

theorem steady_arriveAll {w : State} {arrivals : List Arrival}
    (h : ∀ a ∈ arrivals, a.withinBinding = true) : Steady w (w.arriveAll arrivals) := by
  induction arrivals generalizing w with
  | nil => exact Steady.refl w
  | cons a arrivals ih =>
      exact (steady_arrive (h a List.mem_cons_self)).trans
        (ih fun b hb => h b (List.mem_cons_of_mem a hb))

/-! ## Heads -/

/-- The count of a source's cursor is not above what the record at its head itself failed, and the id
of the head was given out. -/
structure HeadCounted (w : State) (key : Key) : Prop where
  counted : ∀ c, w.cursors key = some c → ∀ r ∈ (w.stored key.2).rows,
    c.headId = some r.recordId → c.headAttempts ≤ failures w.history.log (key, r)
  given : ∀ c h, w.cursors key = some c → c.headId = some h → h ≤ (w.stored key.2).lastGiven

/-- The same of every cursor: a failure charged to one head is never counted for another. -/
def HeadsCounted (w : State) : Prop := ∀ key, HeadCounted w key

theorem HeadCounted.forth {w w' : State} {key : Key} (h : HeadCounted w key) (hf : Forth w w') :
    HeadCounted w' key := by
  constructor
  · intro c' hc' r hr hhead
    rcases hf.heads key c' hc' with hnone | ⟨c, hc, hhead', hattempts⟩
    · rw [hnone] at hhead
      cases hhead
    · -- the id of the head was given out before, so the record was there before
      rw [hhead'] at hhead
      have hrow := (hf.grows key.2).mem_of_le hr (h.given c r.recordId hc hhead)
      rw [hattempts]
      exact (h.counted c hc r hrow hhead).trans (failures_mono hf.log _)
  · intro c' id hc' hhead
    rcases hf.heads key c' hc' with hnone | ⟨c, hc, hhead', -⟩
    · rw [hnone] at hhead
      cases hhead
    · exact (h.given c id hc (hhead' ▸ hhead)).trans (hf.grows key.2).lastGiven

theorem HeadsCounted.forth {w w' : State} (h : HeadsCounted w) (hf : Forth w w') :
    HeadsCounted w' := fun key => (h key).forth hf

/-! ## What happens between two ticks -/

/-- A flow store that is recreated has its cursors restarted afterwards. -/
def Restarts (arrivals : List Arrival) : Prop :=
  ∀ before after, arrivals = before ++ .recreated :: after →
    ∃ pceUrl orgId, .restarted pceUrl orgId ∈ after

/-- Heads are counted, those of the flow store unless a restart is still to come. -/
def CountedBefore (arrivals : List Arrival) (w : State) : Prop :=
  ∀ key, HeadCounted w key ∨
    key.2.inFlowStore = true ∧ ∃ pceUrl orgId, .restarted pceUrl orgId ∈ arrivals

theorem headCounted_restarted {w : State} {key : Key} (hkey : key.2.inFlowStore = true)
    (pceUrl orgId : String) : HeadCounted (w.restartFlowCursors pceUrl orgId) key := by
  have hnone : ∀ c, (w.restartFlowCursors pceUrl orgId).cursors key = some c → c.headId = none := by
    intro c hc
    simp only [State.restartFlowCursors, hkey, if_true] at hc
    obtain ⟨c₀, -, rfl⟩ := Option.map_eq_some_iff.mp hc
    rfl
  constructor
  · intro c hc r _ hhead
    rw [hnone c hc] at hhead
    cases hhead
  · intro c h hc hhead
    rw [hnone c hc] at hhead
    cases hhead

/-- A head outside the flow store is not touched by what happens to that store. -/
theorem HeadCounted.of_eq {w w' : State} {key : Key} (h : HeadCounted w key)
    (hcursor : w'.cursors key = w.cursors key) (hstored : w'.stored key.2 = w.stored key.2)
    (hlog : w'.history.log = w.history.log) : HeadCounted w' key := by
  constructor
  · rw [hcursor, hstored, hlog]
    exact h.counted
  · rw [hcursor, hstored]
    exact h.given

theorem CountedBefore.arrive {w : State} {a : Arrival} {arrivals : List Arrival}
    (h : CountedBefore (a :: arrivals) w)
    (hrestarts : a = .recreated → ∃ pceUrl orgId, .restarted pceUrl orgId ∈ arrivals) :
    CountedBefore arrivals (w.arrive a) := by
  intro key
  cases a with
  | stored source rec =>
      rcases h key with hcounted | ⟨hkey, p, o, hmem⟩
      · exact Or.inl (hcounted.forth (steady_arrive rfl).silent.forth)
      · exact Or.inr ⟨hkey, p, o, by simpa using hmem⟩
  | lettersKept keep =>
      rcases h key with hcounted | ⟨hkey, p, o, hmem⟩
      · exact Or.inl (hcounted.forth (steady_arrive rfl).silent.forth)
      · exact Or.inr ⟨hkey, p, o, by simpa using hmem⟩
  | recreated =>
      cases hkey : key.2.inFlowStore with
      | true => exact Or.inr ⟨rfl, hrestarts rfl⟩
      | false =>
          rcases h key with hcounted | ⟨hflow, -⟩
          · exact Or.inl (hcounted.of_eq rfl (by simp [State.arrive, State.recreate, hkey]) rfl)
          · rw [hkey] at hflow
            cases hflow
  | restarted pceUrl orgId =>
      cases hkey : key.2.inFlowStore with
      | true => exact Or.inl (headCounted_restarted hkey pceUrl orgId)
      | false =>
          rcases h key with hcounted | ⟨hflow, -⟩
          · exact Or.inl
              (hcounted.of_eq (by simp [State.arrive, State.restartFlowCursors, hkey]) rfl rfl)
          · rw [hkey] at hflow
            cases hflow

theorem CountedBefore.arriveAll {w : State} {arrivals : List Arrival} (h : CountedBefore arrivals w)
    (hrestarts : Restarts arrivals) : HeadsCounted (w.arriveAll arrivals) := by
  induction arrivals generalizing w with
  | nil =>
      intro key
      rcases h key with hcounted | ⟨-, p, o, hmem⟩
      · exact hcounted
      · exact absurd hmem List.not_mem_nil
  | cons a arrivals ih =>
      refine ih (h.arrive fun ha => hrestarts [] arrivals (by rw [ha]; rfl)) ?_
      intro before after hsplit
      exact hrestarts (a :: before) after (by rw [hsplit]; rfl)

theorem HeadsCounted.arriveAll {w : State} (h : HeadsCounted w) {arrivals : List Arrival}
    (hrestarts : Restarts arrivals) : HeadsCounted (w.arriveAll arrivals) :=
  CountedBefore.arriveAll (fun key => Or.inl (h key)) hrestarts

/-! ## Charging a failure -/

/-- A record of a source has failed once more than its cursor counts, if it counts for the record. -/
structure Owed (key : Key) (f : SiemRecord) (w : State) : Prop where
  row : f ∈ (w.stored key.2).rows
  once : 1 ≤ failures w.history.log (key, f)
  more : ∀ c, w.cursors key = some c → c.headId = some f.recordId →
    c.headAttempts + 1 ≤ failures w.history.log (key, f)

theorem Owed.forth {key : Key} {f : SiemRecord} {w w' : State} (h : Owed key f w)
    (hf : Forth w w') : Owed key f w' := by
  refine ⟨(hf.grows key.2).mem h.row, h.once.trans (failures_mono hf.log _), ?_⟩
  intro c' hc' hhead
  rcases hf.heads key c' hc' with hnone | ⟨c, hc, hhead', hattempts⟩
  · rw [hnone] at hhead
    cases hhead
  · rw [hattempts]
    exact (h.more c hc (hhead' ▸ hhead)).trans (failures_mono hf.log _)

/-- A failure of the record, logged now, is owed. -/
theorem owed_of_failure {key : Key} {f : SiemRecord} {w w' : State} {e : Event}
    (h : HeadCounted w key) (hrow : f ∈ (w.stored key.2).rows) (hcursors : w'.cursors = w.cursors)
    (hstored : w'.stored = w.stored) (hlog : w'.history.log = w.history.log ++ [e])
    (he : isFailureOf (key, f) e = true) : Owed key f w' := by
  have hcount : failures w'.history.log (key, f) = failures w.history.log (key, f) + 1 := by
    rw [hlog, failures_append_one he]
  refine ⟨hstored ▸ hrow, by omega, ?_⟩
  intro c hc hhead
  have hle := h.counted c (hcursors ▸ hc) f hrow hhead
  omega

/-- Charging the failure that is owed: the count is that of the record's own failures at most. -/
theorem charge {key : Key} {f : SiemRecord} {w : State} (h : HeadsCounted w) (howed : Owed key f w)
    (error : String) (now : Int) :
    HeadsCounted (w.recordFailure key f.recordId error now).1 ∧
      (w.recordFailure key f.recordId error now).2 ≤ failures w.history.log (key, f) := by
  unfold State.recordFailure State.updateCursor
  cases hc : w.cursors key with
  | none => exact ⟨h, by simp [hc]⟩
  | some c =>
      simp only [State.cursors_setCursor_self]
      have hcount : (State.failed f.recordId error now c).headAttempts ≤
          failures w.history.log (key, f) := by
        simp only [State.failed]
        split
        · rename_i hhead
          exact howed.more c hc hhead
        · exact howed.once
      refine ⟨fun key' => ?_, hcount⟩
      by_cases hkey : key' = key
      · subst hkey
        constructor
        · intro c' hc' r hr hhead
          rw [State.cursors_setCursor_self] at hc'
          obtain rfl := Option.some.inj hc'
          -- the head is the record: no two rows of a table have the same id
          have hsame : f = r := by
            have hids : ((w.stored key'.2).rows.map SiemRecord.recordId).Nodup :=
              List.pairwise_map.mpr ((w.stored key'.2).ordered.imp fun hab => Nat.ne_of_lt hab)
            exact List.inj_on_of_nodup_map hids howed.row hr (Option.some.inj hhead)
          exact hsame ▸ hcount
        · intro c' id hc' hhead
          rw [State.cursors_setCursor_self] at hc'
          obtain rfl := Option.some.inj hc'
          obtain rfl : f.recordId = id := Option.some.inj hhead
          exact (w.stored key'.2).bounded f howed.row
      · have hkeep := h key'
        constructor
        · intro c' hc'
          rw [State.cursors_setCursor_of_ne hkey] at hc'
          exact hkeep.counted c' hc'
        · intro c' id hc'
          rw [State.cursors_setCursor_of_ne hkey] at hc'
          exact hkeep.given c' id hc'

end IllumioOps.Siem.Outage
