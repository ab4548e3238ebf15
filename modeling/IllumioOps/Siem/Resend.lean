import IllumioOps.Siem.Cursors
import IllumioOps.Tables.Backlog
import IllumioOps.Tables.Grouped
import IllumioOps.Tables.Pages
import Mathlib.Data.List.Infix
import Mathlib.Order.Nat

/-!
# Sending the dead letters again

`services.siem.dlq.resend`: the oldest lines of the dead-letter queue, or lines by their ids, are sent
as they are stored. A line leaves the queue only when its destination took it and confirmed the batch,
and a line is sent only to a destination that is as it was when the line was made. Lines that are not
sent stay the oldest, so every call reads them again: the whole queue is through after as many calls as
it has pages exactly when the calls come to its last line that can be sent (`resend_right_iff`).
-/

set_option autoImplicit false

namespace IllumioOps.Siem

open Tables Backlog

/-! ## The queue -/

/-- A row of `siem_dlq` with its id. -/
structure DlqLine extends DeadLetter where
  id : Nat
  deriving DecidableEq, Repr

/-- The dead-letter queue, oldest first. -/
structure Dlq where
  lines : List DlqLine
  ordered : Pages.Ordered DlqLine.id lines
  positive : ∀ d ∈ lines, 0 < d.id

/-- `_where`: of one destination, with the text in its error. -/
def DlqLine.isOf (destinationId error : Option String) (d : DlqLine) : Bool :=
  (match destinationId with
    | none => true
    | some dest => decide (d.destinationId = dest)) &&
  match error with
  | none => true
  | some text => decide (text = "") || decide (text.toList <:+: d.error.toList)

namespace Dlq

/-- `dlq_by_ids`: 500 ids at a time. -/
def byIds (q : Dlq) (ids : List Nat) : List DlqLine :=
  (List.range ((ids.length + 499) / 500)).flatMap fun i =>
    q.lines.filter fun d => decide (d.id ∈ (ids.drop (500 * i)).take 500)

/-- `dlq_after` -/
def after (q : Dlq) (destinationId error : Option String) (afterId limit : Nat) : List DlqLine :=
  (q.lines.filter fun d => d.isOf destinationId error && decide (afterId < d.id)).take limit

/-- `dlq_delete` -/
def delete (q : Dlq) (ids : List Nat) : Dlq where
  lines := q.lines.filter fun d => decide (d.id ∉ ids)
  ordered := q.ordered.filter _
  positive d hd := q.positive d (List.mem_of_mem_filter hd)

/-- `dlq_failed_again` -/
def failedAgain (q : Dlq) (id : Nat) (error : String) : Dlq where
  lines := q.lines.map fun d =>
    if d.id = id then { d with attempts := d.attempts + 1, error := clip 2000 error } else d
  ordered := List.pairwise_map.2 (q.ordered.imp fun {a b} h => by split <;> split <;> exact h)
  positive d hd := by
    obtain ⟨d', hd', rfl⟩ := List.mem_map.1 hd
    split <;> exact q.positive d' hd'

/-- `dlq_count` -/
def count (q : Dlq) (destinationId : Option String) : Nat :=
  (q.lines.filter (DlqLine.isOf destinationId none)).length

/-- The ids of the lines. -/
def ids (q : Dlq) : List Nat := q.lines.map DlqLine.id

end Dlq

/-! ## The call -/

/-- `RESEND_MAX` -/
def resendMax : Nat := 1000

/-- What `finish_batch` does: it returns, raises an `OSError`, or another exception. -/
inductive BatchEnd where
  | confirmed
  | unconfirmed (error : String)
  | raised
  deriving DecidableEq, Repr

/-- A destination's transport during one call: whether it can be made, the error of each send, if
there is one, and what becomes of the batch. -/
structure ResendTransport where
  made : Bool
  send : Nat → String → Int → Option String
  finish : BatchEnd

/-- What happens between the call and a destination: a line is sent, and `send_record` returns or
not; `finish_batch` returns or not; lines are deleted. -/
inductive ResendEvent where
  | sent (line : DlqLine) (returned : Bool)
  | finished (destinationId : String) (returned : Bool)
  | deleted (ids : List Nat)
  deriving DecidableEq, Repr

/-- A call under way. -/
structure Resend where
  queue : Dlq
  sent : Nat
  failed : Nat
  skipped : Nat
  changed : Nat
  lastError : Option String
  log : List ResendEvent

def Resend.start (q : Dlq) : Resend := ⟨q, 0, 0, 0, 0, none, []⟩

structure ResendResult where
  sent : Nat
  failed : Nat
  skipped : Nat
  changed : Nat
  remaining : Nat
  error : Option String
  deriving DecidableEq, Repr

/-- Which lines: these ids, or else those of a destination and an error text. -/
structure ResendRequest where
  ids : Option (List Nat)
  destinationId : Option String
  error : Option String

/-- The whole queue. -/
def ResendRequest.all : ResendRequest := ⟨none, none, none⟩

/-- The lines one call handles. -/
def ResendRequest.lines (request : ResendRequest) (q : Dlq) : List DlqLine :=
  (match request.ids with
    | some ids => q.byIds ids
    | none => q.after request.destinationId request.error 0 resendMax).take resendMax

/-- `{d.id: d for d in destinations if d.enabled}.get(..)` -/
def enabledDestination (dests : List SiemDestination) (id : String) : Option SiemDestination :=
  (dests.filter SiemDestination.enabled).reverse.find? fun dest => decide (dest.id = id)

/-- The sends of one destination's lines; `ok` are the ids of those that were taken. -/
def sendLines (t : ResendTransport) : Nat → List DlqLine → Resend → List Nat → Resend × List Nat
  | _, [], call, ok => (call, ok)
  | n, d :: letters, call, ok =>
      match t.send n d.payload d.eventTime with
      | none => sendLines t (n + 1) letters { call with log := call.log ++ [.sent d true] } (ok ++ [d.id])
      | some error =>
          sendLines t (n + 1) letters
            { call with queue := call.queue.failedAgain d.id error, failed := call.failed + 1,
                        lastError := some error, log := call.log ++ [.sent d false] } ok

/-- After the sends: the batch is confirmed and what was taken deleted, or the lines stay; true when
an exception ends the call. -/
def confirmLines (t : ResendTransport) (destinationId : String) (call : Resend) (ok : List Nat) :
    Resend × Bool :=
  if ok = [] then (call, false)
  else match t.finish with
    | .confirmed =>
        ({ call with queue := call.queue.delete ok, sent := call.sent + ok.length,
                     log := call.log ++ [.finished destinationId true, .deleted ok] }, false)
    | .unconfirmed error =>
        ({ call with failed := call.failed + ok.length,
                     lastError := some ("delivery_unconfirmed: " ++ error),
                     log := call.log ++ [.finished destinationId false] }, false)
    | .raised => ({ call with log := call.log ++ [.finished destinationId false] }, true)

/-- The lines of one destination. -/
def resendTo (dests : List SiemDestination) (transport : SiemDestination → ResendTransport)
    (call : Resend) (destinationId : String) (letters : List DlqLine) : Resend × Bool :=
  match enabledDestination dests destinationId with
  | none => ({ call with skipped := call.skipped + letters.length }, false)
  | some dest =>
      let stale := letters.filter fun d => decide (d.sentAs ≠ dest.sentAs)
      let letters := letters.filter fun d => decide (d.sentAs = dest.sentAs)
      let call := { call with changed := call.changed + stale.length }
      if letters = [] then (call, false)
      else if (transport dest).made = false then (call, true)
      else
        let (call, ok) := sendLines (transport dest) 0 letters call []
        confirmLines (transport dest) destinationId call ok

/-- One destination after the other, until an exception ends the call. -/
def resendEach (dests : List SiemDestination) (transport : SiemDestination → ResendTransport) :
    List (String × List DlqLine) → Resend → Resend × Bool
  | [], call => (call, false)
  | (destinationId, letters) :: groups, call =>
      match resendTo dests transport call destinationId letters with
      | (call, true) => (call, true)
      | (call, false) => resendEach dests transport groups call

/-- `resend`: the queue and the log it leaves, and its result unless it raises. -/
def resend (dests : List SiemDestination) (transport : SiemDestination → ResendTransport)
    (request : ResendRequest) (q : Dlq) : Resend × Option ResendResult :=
  match resendEach dests transport (grouped (fun d => d.destinationId) (request.lines q))
      (.start q) with
  | (call, true) => (call, none)
  | (call, false) =>
      (call, some ⟨call.sent, call.failed, call.skipped, call.changed,
        call.queue.count request.destinationId, call.lastError⟩)

/-! ## What one call can do -/

/-- The line's destination is enabled and as it was when the line was made. -/
def DlqLine.sendable (dests : List SiemDestination) (d : DlqLine) : Bool :=
  (enabledDestination dests d.destinationId).any fun dest => decide (dest.sentAs = d.sentAs)

theorem DlqLine.sendable_iff {dests : List SiemDestination} {d : DlqLine} :
    d.sendable dests = true ↔
      ∃ dest, enabledDestination dests d.destinationId = some dest ∧ dest.sentAs = d.sentAs := by
  rw [DlqLine.sendable, Option.any_eq_true]
  simp only [decide_eq_true_eq]

/-- A destination that lines are sent to is one of the settings, and enabled. -/
theorem enabledDestination_spec {dests : List SiemDestination} {id : String}
    {dest : SiemDestination} (h : enabledDestination dests id = some dest) :
    dest ∈ dests ∧ dest.enabled = true ∧ dest.id = id := by
  have hmem := List.mem_filter.1 (List.mem_reverse.1 (List.mem_of_find?_eq_some h))
  have hid := List.find?_some (p := fun dest : SiemDestination => decide (dest.id = id)) h
  exact ⟨hmem.1, hmem.2, of_decide_eq_true hid⟩

/-- The line was sent, then its batch confirmed, then the line deleted. -/
def ConfirmedIn (log : List ResendEvent) (d : DlqLine) : Prop :=
  ∃ before sends after ids, log = before ++ .sent d true :: sends ++
      .finished d.destinationId true :: .deleted ids :: after ∧
    d.id ∈ ids ∧ ∀ e ∈ sends, ∃ q ok, e = .sent q ok

theorem ConfirmedIn.append {log more : List ResendEvent} {d : DlqLine} (h : ConfirmedIn log d) :
    ConfirmedIn (log ++ more) d := by
  obtain ⟨before, sends, after, ids, rfl, hid, hsends⟩ := h
  exact ⟨before, sends, after ++ more, ids, by simp, hid, hsends⟩

/-- What holds of a call on a queue at every moment: every line sent was one of the queue and could
be sent, and every line that is gone was confirmed. -/
structure Careful (dests : List SiemDestination) (q : Dlq) (call : Resend) : Prop where
  sent : ∀ d ok, ResendEvent.sent d ok ∈ call.log → d.sendable dests = true
  gone : ∀ d ∈ q.lines, d.id ∉ call.queue.ids → ConfirmedIn call.log d

section Call

variable {dests : List SiemDestination} {transport : SiemDestination → ResendTransport} {q : Dlq}
  {call call' : Resend} {t : ResendTransport} {letters : List DlqLine} {d d' : DlqLine}
  {destinationId : String} {more : List ResendEvent} {n : Nat} {ok : List Nat}

theorem Dlq.ids_failedAgain (q : Dlq) (id : Nat) (error : String) :
    (q.failedAgain id error).ids = q.ids := by
  rw [Dlq.ids, Dlq.ids, Dlq.failedAgain, List.map_map]
  refine List.map_congr_left fun d _ => ?_
  rw [Function.comp_apply]
  split <;> rfl

theorem Dlq.mem_ids_delete {ids : List Nat} {i : Nat} :
    i ∈ (q.delete ids).ids ↔ i ∈ q.ids ∧ i ∉ ids := by
  simp only [Dlq.ids, Dlq.delete, List.mem_map, List.mem_filter, decide_eq_true_eq]
  constructor
  · rintro ⟨d, ⟨hd, hnot⟩, rfl⟩
    exact ⟨⟨d, hd, rfl⟩, hnot⟩
  · rintro ⟨⟨d, hd, rfl⟩, hnot⟩
    exact ⟨d, ⟨hd, hnot⟩, rfl⟩

/-- Two lines with one id are one line. -/
theorem Dlq.eq_of_id (hd : d ∈ q.lines) (hd' : d' ∈ q.lines) (hid : d.id = d'.id) : d = d' := by
  have hnodup : (q.lines.map DlqLine.id).Nodup :=
    List.pairwise_map.2 (q.ordered.imp fun h => Nat.ne_of_lt h)
  exact List.inj_on_of_nodup_map hnodup hd hd' hid

/-- A call goes on while no line leaves the queue. -/
theorem Careful.extend (h : Careful dests q call) (hids : call'.queue.ids = call.queue.ids)
    (hlog : call'.log = call.log ++ more)
    (hmore : ∀ d ok, ResendEvent.sent d ok ∈ more → d.sendable dests = true) :
    Careful dests q call' where
  sent d ok hd := by
    rw [hlog] at hd
    exact (List.mem_append.1 hd).elim (h.sent d ok) (hmore d ok)
  gone d hd hgone := by
    rw [hids] at hgone
    rw [hlog]
    exact (h.gone d hd hgone).append

/-- The sends of one destination: what is added to the log, and where the ids come from that are
to be deleted. -/
theorem sendLines_spec (t : ResendTransport) (n : Nat) (letters : List DlqLine) (call : Resend)
    (ok : List Nat) : ∃ sends, (sendLines t n letters call ok).1.log = call.log ++ sends ∧
    (∀ e ∈ sends, ∃ d ∈ letters, ∃ returned, e = .sent d returned) ∧
    (sendLines t n letters call ok).1.queue.ids = call.queue.ids ∧
    ∀ i ∈ (sendLines t n letters call ok).2,
      i ∈ ok ∨ ∃ d ∈ letters, d.id = i ∧ ResendEvent.sent d true ∈ sends := by
  induction letters generalizing n call ok with
  | nil => exact ⟨[], (List.append_nil _).symm, by simp, rfl, fun i hi => Or.inl hi⟩
  | cons d letters ih =>
      rw [sendLines]
      cases t.send n d.payload d.eventTime with
      | none =>
          obtain ⟨sends, hlog, hsends, hids, hok⟩ := ih (n + 1)
            { call with log := call.log ++ [.sent d true] } (ok ++ [d.id])
          refine ⟨.sent d true :: sends, by simp [hlog], ?_, hids, fun i hi => ?_⟩
          · rintro e (_ | ⟨_, he⟩)
            · exact ⟨d, List.mem_cons_self, true, rfl⟩
            · obtain ⟨d', hd', returned, rfl⟩ := hsends e he
              exact ⟨d', List.mem_cons_of_mem _ hd', returned, rfl⟩
          · rcases hok i hi with hi | ⟨d', hd', hid, hsent⟩
            · rcases List.mem_append.1 hi with hi | hi
              · exact Or.inl hi
              · exact Or.inr ⟨d, List.mem_cons_self, (List.mem_singleton.1 hi).symm,
                  List.mem_cons_self⟩
            · exact Or.inr ⟨d', List.mem_cons_of_mem _ hd', hid, List.mem_cons_of_mem _ hsent⟩
      | some error =>
          obtain ⟨sends, hlog, hsends, hids, hok⟩ := ih (n + 1)
            { call with
              queue := call.queue.failedAgain d.id error, failed := call.failed + 1,
              lastError := some error, log := call.log ++ [.sent d false] } ok
          refine ⟨.sent d false :: sends, by simp [hlog], ?_,
            hids.trans (Dlq.ids_failedAgain _ _ _), fun i hi => ?_⟩
          · rintro e (_ | ⟨_, he⟩)
            · exact ⟨d, List.mem_cons_self, false, rfl⟩
            · obtain ⟨d', hd', returned, rfl⟩ := hsends e he
              exact ⟨d', List.mem_cons_of_mem _ hd', returned, rfl⟩
          · rcases hok i hi with hi | ⟨d', hd', hid, hsent⟩
            · exact Or.inl hi
            · exact Or.inr ⟨d', List.mem_cons_of_mem _ hd', hid, List.mem_cons_of_mem _ hsent⟩

/-- The end of a destination's batch, after the sends of these lines. -/
theorem Careful.confirmLines {sends : List ResendEvent} {log : List ResendEvent}
    (h : Careful dests q call) (hlog : call.log = log ++ sends)
    (hsends : ∀ e ∈ sends, ∃ d ∈ letters, ∃ returned, e = .sent d returned)
    (hletters : ∀ d ∈ letters, d ∈ q.lines ∧ d.destinationId = destinationId)
    (hok : ∀ i ∈ ok, ∃ d ∈ letters, d.id = i ∧ ResendEvent.sent d true ∈ sends) :
    Careful dests q (confirmLines t destinationId call ok).1 := by
  rw [Siem.confirmLines]
  split
  · exact h
  · split
    · refine ⟨fun d taken hd => ?_, fun d hd hgone => ?_⟩
      · rcases List.mem_append.1 hd with hd | hd
        · exact h.sent d taken hd
        · simp at hd
      · by_cases hbefore : d.id ∈ call.queue.ids
        · -- the line is one of those taken
          have hid : d.id ∈ ok := by
            by_contra hnot
            exact hgone (Dlq.mem_ids_delete.2 ⟨hbefore, hnot⟩)
          obtain ⟨d', hd', hsame, hsent⟩ := hok d.id hid
          obtain ⟨hq, hdest⟩ := hletters d' hd'
          obtain rfl := Dlq.eq_of_id hq hd hsame
          obtain ⟨front, back, rfl⟩ := List.append_of_mem hsent
          refine ⟨log ++ front, back, [], ok, ?_, hid, fun e he => ?_⟩
          · simp only [hlog, hdest, List.append_assoc, List.cons_append]
          · obtain ⟨d'', -, returned, rfl⟩ := hsends e (List.mem_append_right _
              (List.mem_cons_of_mem _ he))
            exact ⟨d'', returned, rfl⟩
        · exact (h.gone d hd hbefore).append
    · exact h.extend rfl rfl (by simp)
    · exact h.extend rfl rfl (by simp)

variable (transport) in
/-- The lines of one destination. -/
theorem Careful.resendTo (h : Careful dests q call)
    (hletters : ∀ d ∈ letters, d ∈ q.lines ∧ d.destinationId = destinationId) :
    Careful dests q (resendTo dests transport call destinationId letters).1 := by
  rw [Siem.resendTo]
  split
  · exact h.extend rfl (List.append_nil _).symm (by simp)
  · rename_i dest hdest
    simp only
    split
    · exact h.extend rfl (List.append_nil _).symm (by simp)
    · split
      · exact h.extend rfl (List.append_nil _).symm (by simp)
      · obtain ⟨sends, hlog, hsends, hids, hok⟩ := sendLines_spec (transport dest) 0
          (letters.filter fun d => decide (d.sentAs = dest.sentAs))
          { call with changed := call.changed +
            (letters.filter fun d => decide (d.sentAs ≠ dest.sentAs)).length } []
        have hsent : Careful dests q (sendLines (transport dest) 0
            (letters.filter fun d => decide (d.sentAs = dest.sentAs)) { call with
              changed := call.changed +
                (letters.filter fun d => decide (d.sentAs ≠ dest.sentAs)).length } []).1 := by
          refine h.extend hids hlog fun d returned hd => ?_
          obtain ⟨d', hd', _, heq⟩ := hsends _ hd
          obtain ⟨rfl, -⟩ := ResendEvent.sent.inj heq
          obtain ⟨hd', hsame⟩ := List.mem_filter.1 hd'
          rw [DlqLine.sendable_iff, (hletters d hd').2]
          exact ⟨dest, hdest, (of_decide_eq_true hsame).symm⟩
        refine hsent.confirmLines hlog hsends
          (fun d hd => hletters d (List.mem_of_mem_filter hd)) fun i hi => ?_
        exact (hok i hi).resolve_left List.not_mem_nil

/-- What a call does keeps it careful. -/
theorem Careful.resendEach {groups : List (String × List DlqLine)} (h : Careful dests q call)
    (hgroups : ∀ g ∈ groups, ∀ d ∈ g.2, d ∈ q.lines ∧ d.destinationId = g.1) :
    Careful dests q (resendEach dests transport groups call).1 := by
  induction groups generalizing call with
  | nil => exact h
  | cons g groups ih =>
      obtain ⟨destinationId, letters⟩ := g
      have hstep := h.resendTo transport (hgroups _ List.mem_cons_self)
      rw [Siem.resendEach]
      split
      · rename_i heq
        rwa [heq] at hstep
      · rename_i heq
        rw [heq] at hstep
        exact ih hstep fun g hg => hgroups g (List.mem_cons_of_mem _ hg)

theorem careful_start : Careful dests q (.start q) where
  sent _ _ hsent := absurd hsent List.not_mem_nil
  gone _ hd hgone := absurd (List.mem_map_of_mem hd) hgone

/-- The lines a call handles are lines of the queue. -/
theorem mem_of_mem_lines {request : ResendRequest} (hd : d ∈ request.lines q) : d ∈ q.lines := by
  have hd := List.mem_of_mem_take hd
  split at hd
  · obtain ⟨i, -, hd⟩ := List.mem_flatMap.1 hd
    exact List.mem_of_mem_filter hd
  · exact List.mem_of_mem_filter (List.mem_of_mem_take hd)

/-- A call is careful whatever the transports do, also when it raises. -/
theorem resend_careful (request : ResendRequest) :
    Careful dests q (resend dests transport request q).1 := by
  have hcareful : Careful dests q (resendEach dests transport
      (grouped (fun d => d.destinationId) (request.lines q)) (.start q)).1 := by
    refine careful_start.resendEach fun g hg d hd => ?_
    obtain ⟨destinationId, letters⟩ := g
    obtain ⟨-, rfl⟩ := mem_grouped.1 hg
    obtain ⟨hd, hdest⟩ := List.mem_filter.1 hd
    exact ⟨mem_of_mem_lines hd, of_decide_eq_true hdest⟩
  rw [resend]
  split
  · rename_i heq
    rwa [heq] at hcareful
  · rename_i heq
    rwa [heq] at hcareful

end Call

/-! ## Destinations that take everything -/

/-- The transport takes every line and confirms every batch. -/
structure ResendTransport.Accepts (t : ResendTransport) : Prop where
  made : t.made = true
  send : ∀ n payload eventTime, t.send n payload eventTime = none
  finish : t.finish = .confirmed

section Accepting

variable {dests : List SiemDestination} {transport : SiemDestination → ResendTransport} {q : Dlq}
  {call : Resend} {t : ResendTransport} {letters : List DlqLine} {d : DlqLine}
  {destinationId : String}

/-- All lines of a destination are taken. -/
theorem sendLines_accepts (ht : t.Accepts) (n : Nat) (call : Resend) (ok : List Nat) :
    sendLines t n letters call ok =
      ({ call with log := call.log ++ letters.map fun d => .sent d true },
        ok ++ letters.map DlqLine.id) := by
  induction letters generalizing n call ok with
  | nil => simp [sendLines]
  | cons d letters ih =>
      rw [sendLines, ht.send]
      simp only [ih, List.map_cons, List.append_assoc, List.singleton_append]

variable (dests call) in
/-- The lines of a destination that can be sent leave the queue, and no others. -/
theorem resendTo_accepts (ht : ∀ dest, (transport dest).Accepts)
    (hletters : ∀ d ∈ letters, d.destinationId = destinationId) :
    (resendTo dests transport call destinationId letters).2 = false ∧
      (resendTo dests transport call destinationId letters).1.queue.lines =
        call.queue.lines.filter fun d =>
          decide (d.id ∉ (letters.filter (DlqLine.sendable dests)).map DlqLine.id) := by
  rw [resendTo]
  cases hdest : enabledDestination dests destinationId with
  | none =>
      have hnone : letters.filter (DlqLine.sendable dests) = [] := by
        refine List.filter_eq_nil_iff.2 fun d hd hsendable => ?_
        obtain ⟨dest, hsome, -⟩ := DlqLine.sendable_iff.1 hsendable
        rw [hletters d hd, hdest] at hsome
        exact absurd hsome (by simp)
      simp [hnone]
  | some dest =>
      have hsendable : letters.filter (DlqLine.sendable dests) =
          letters.filter fun d => decide (d.sentAs = dest.sentAs) := by
        refine List.filter_congr fun d hd => ?_
        rw [DlqLine.sendable, hletters d hd, hdest, Option.any_some]
        exact decide_eq_decide.2 eq_comm
      simp only [hsendable, (ht dest).made, Bool.true_eq_false, if_false,
        sendLines_accepts (ht dest), List.nil_append]
      split
      · rename_i hnil
        simp [hnil]
      · rename_i hsome
        rw [confirmLines, if_neg (fun h => hsome (List.map_eq_nil_iff.1 h)), (ht dest).finish]
        exact ⟨rfl, rfl⟩

variable (dests) in
/-- The lines of all destinations that can be sent leave the queue, and no others. -/
theorem resendEach_accepts (ht : ∀ dest, (transport dest).Accepts)
    (groups : List (String × List DlqLine)) (call : Resend)
    (hgroups : ∀ g ∈ groups, ∀ d ∈ g.2, d.destinationId = g.1) :
    (resendEach dests transport groups call).1.queue.lines =
      call.queue.lines.filter fun d => decide (∀ g ∈ groups,
        d.id ∉ (g.2.filter (DlqLine.sendable dests)).map DlqLine.id) := by
  induction groups generalizing call with
  | nil => simp [resendEach]
  | cons g groups ih =>
      obtain ⟨destinationId, letters⟩ := g
      obtain ⟨hgoes, hlines⟩ := resendTo_accepts dests call ht (hgroups _ List.mem_cons_self)
      rw [resendEach]
      split
      · rename_i heq
        rw [heq] at hgoes
        exact absurd hgoes (by simp)
      · rename_i call' heq
        rw [heq] at hlines
        rw [ih call' fun g hg => hgroups g (List.mem_cons_of_mem _ hg), hlines, List.filter_filter]
        refine List.filter_congr fun d _ => ?_
        simp only [List.forall_mem_cons, Bool.decide_and, Bool.and_comm]

/-- The whole queue asked for, a call handles its oldest lines. -/
theorem lines_all : ResendRequest.all.lines q = q.lines.take resendMax := by
  have hall : q.lines.filter (fun d => d.isOf none none && decide (0 < d.id)) = q.lines := by
    refine List.filter_eq_self.2 fun d hd => ?_
    simp [DlqLine.isOf, q.positive d hd]
  change ((q.lines.filter fun d => d.isOf none none && decide (0 < d.id)).take resendMax).take
    resendMax = _
  rw [hall, List.take_take, Nat.min_self]

/-- A call over the whole queue is a turn of the backlog. -/
theorem lines_resend_accepts (ht : ∀ dest, (transport dest).Accepts) :
    (resend dests transport .all q).1.queue.lines =
      turn resendMax (DlqLine.sendable dests) q.lines := by
  have hlines := resendEach_accepts dests ht
    (grouped (fun d => d.destinationId) (ResendRequest.all.lines q)) (.start q) fun g hg d hd => by
      obtain ⟨destinationId, letters⟩ := g
      obtain ⟨-, rfl⟩ := mem_grouped.1 hg
      exact of_decide_eq_true (List.mem_filter.1 hd).2
  have hresend : (resend dests transport .all q).1 = (resendEach dests transport
      (grouped (fun d => d.destinationId) (ResendRequest.all.lines q)) (.start q)).1 := by
    rw [resend]
    split <;> rename_i heq <;> rw [heq]
  -- a line leaves when it is one of the page and can be sent
  have hleaves : ∀ d ∈ q.lines, (∀ g ∈ grouped (fun d => d.destinationId)
      (ResendRequest.all.lines q), d.id ∉ (g.2.filter (DlqLine.sendable dests)).map DlqLine.id) ↔
      ¬(d ∈ q.lines.take resendMax ∧ d.sendable dests = true) := by
    intro d hd
    rw [lines_all]
    constructor
    · rintro hnot ⟨hpage, hsendable⟩
      have hgroup : d ∈ (q.lines.take resendMax).filter
          fun e => decide (e.destinationId = d.destinationId) :=
        List.mem_filter.2 ⟨hpage, decide_eq_true rfl⟩
      exact hnot (d.destinationId, _) (mem_grouped.2 ⟨List.ne_nil_of_mem hgroup, rfl⟩)
        (List.mem_map_of_mem (List.mem_filter.2 ⟨hgroup, hsendable⟩))
    · rintro hnot ⟨destinationId, letters⟩ hg hid
      obtain ⟨-, rfl⟩ := mem_grouped.1 hg
      obtain ⟨e, he, hsame⟩ := List.mem_map.1 hid
      obtain ⟨he, hsendable⟩ := List.mem_filter.1 he
      have hpage := List.mem_of_mem_filter he
      obtain rfl := Dlq.eq_of_id (List.mem_of_mem_take hpage) hd hsame
      exact hnot ⟨hpage, hsendable⟩
  have hnodup : q.lines.Nodup := q.ordered.imp fun h => fun heq => Nat.ne_of_lt h (heq ▸ rfl)
  rw [← List.take_append_drop resendMax q.lines] at hnodup
  rw [hresend, hlines, turn, Resend.start]
  calc q.lines.filter _
      = q.lines.filter (fun d => !(decide (d ∈ q.lines.take resendMax) && d.sendable dests)) := by
        refine List.filter_congr fun d hd => ?_
        simp only [hleaves d hd, decide_not, Bool.decide_and, Bool.decide_eq_true]
    _ = (q.lines.take resendMax ++ q.lines.drop resendMax).filter
          (fun d => !(decide (d ∈ q.lines.take resendMax) && d.sendable dests)) := by
        rw [List.take_append_drop]
    _ = _ := by
        rw [List.filter_append]
        congr 1
        · exact List.filter_congr fun d hd => by simp [hd]
        · refine List.filter_eq_self.2 fun d hd => ?_
          have hnot : d ∉ q.lines.take resendMax := fun h =>
            (List.disjoint_of_nodup_append hnodup) h hd
          simp [hnot]

end Accepting

/-! ## Calls one after the other -/

/-- Calls over the whole queue, each with its own transports: the queue they leave, and what
happened. -/
def resendCalls (dests : List SiemDestination) :
    List (SiemDestination → ResendTransport) → Dlq → Dlq × List ResendEvent
  | [], q => (q, [])
  | transport :: transports, q =>
      let call := (resend dests transport .all q).1
      let rest := resendCalls dests transports call.queue
      (rest.1, call.log ++ rest.2)

/-- `ceil(n / RESEND_MAX)` -/
def callsFor (q : Dlq) : Nat := (q.lines.length + (resendMax - 1)) / resendMax

/-- How a resend must be: a line that is gone was sent and confirmed before; a line that is sent has
its destination, enabled and as it was; and where everything is taken, the whole queue is through
after as many calls as it has pages. -/
structure ResendRight (dests : List SiemDestination) (q : Dlq) : Prop where
  confirmed : ∀ transport request, ∀ d ∈ q.lines,
    d.id ∉ (resend dests transport request q).1.queue.ids →
      ConfirmedIn (resend dests transport request q).1.log d
  unchanged : ∀ transport request d ok,
    .sent d ok ∈ (resend dests transport request q).1.log →
      ∃ dest ∈ dests, dest.enabled = true ∧ dest.id = d.destinationId ∧ dest.sentAs = d.sentAs
  through : ∀ transports, transports.length = callsFor q →
    (∀ transport ∈ transports, ∀ dest, (transport dest).Accepts) →
      ∀ d ∈ q.lines, d.sendable dests = true →
        .sent d true ∈ (resendCalls dests transports q).2 ∧
          d.id ∉ (resendCalls dests transports q).1.ids

/-- No line that can be sent stands behind the place where the calls come to, each of them taking
again the lines that are left over. -/
def Through (dests : List SiemDestination) (q : Dlq) : Prop :=
  ∀ d ∈ q.lines.drop (reach resendMax (DlqLine.sendable dests) q.lines (callsFor q)),
    d.sendable dests = false

section Calls

variable {dests : List SiemDestination} {transports : List (SiemDestination → ResendTransport)}
  {q : Dlq} {d : DlqLine}

/-- What the calls leave. -/
theorem lines_resendCalls
    (ht : ∀ transport ∈ transports, ∀ dest, (transport dest).Accepts) :
    (resendCalls dests transports q).1.lines =
      (turn resendMax (DlqLine.sendable dests))^[transports.length] q.lines := by
  induction transports generalizing q with
  | nil => rfl
  | cons transport transports ih =>
      rw [resendCalls, List.length_cons, Function.iterate_succ_apply,
        ← lines_resend_accepts (ht transport List.mem_cons_self)]
      exact ih fun transport' h => ht transport' (List.mem_cons_of_mem _ h)

theorem turn_subset {n : Nat} {done : DlqLine → Bool} {rows : List DlqLine} :
    turn n done rows ⊆ rows := by
  intro r hr
  rcases List.mem_append.1 hr with hr | hr
  · exact List.mem_of_mem_take (List.mem_of_mem_filter hr)
  · exact List.mem_of_mem_drop hr

/-- A line that is gone after the calls was sent in one of them. -/
theorem sent_of_gone (ht : ∀ transport ∈ transports, ∀ dest, (transport dest).Accepts)
    (hd : d ∈ q.lines) (hgone : d.id ∉ (resendCalls dests transports q).1.ids) :
    .sent d true ∈ (resendCalls dests transports q).2 := by
  induction transports generalizing q with
  | nil => exact absurd (List.mem_map_of_mem hd) hgone
  | cons transport transports ih =>
      by_cases hfirst : d.id ∈ (resend dests transport .all q).1.queue.ids
      · -- still there after the first call
        obtain ⟨d', hd', hid⟩ := List.mem_map.1 hfirst
        have hmem : d' ∈ q.lines := by
          rw [lines_resend_accepts (ht transport List.mem_cons_self)] at hd'
          exact turn_subset hd'
        obtain rfl := Dlq.eq_of_id hmem hd hid
        exact List.mem_append_right _
          (ih (fun transport' h => ht transport' (List.mem_cons_of_mem _ h)) hd' hgone)
      · obtain ⟨before, sends, after, ids, hlog, -⟩ := (resend_careful .all).gone d hd hfirst
        refine List.mem_append_left _ ?_
        rw [hlog]
        simp

/-- A transport that takes everything. -/
def accepting : ResendTransport := ⟨true, fun _ _ _ => none, .confirmed⟩

theorem accepts_accepting : accepting.Accepts := ⟨rfl, fun _ _ _ => rfl, rfl⟩

end Calls

/-- A resend is right exactly when the calls come to the last line that can be sent: what leaves the
queue was always sent and confirmed, and what is sent can always be sent. -/
theorem resend_right_iff (dests : List SiemDestination) (q : Dlq) :
    ResendRight dests q ↔ Through dests q := by
  constructor
  · intro hright d hd
    -- the calls of transports that take everything
    have hlength := List.length_replicate (n := callsFor q)
      (a := fun _ : SiemDestination => accepting)
    have haccepts : ∀ transport ∈ List.replicate (callsFor q) fun _ => accepting,
        ∀ dest : SiemDestination, (transport dest).Accepts := by
      intro transport htransport dest
      rw [List.eq_of_mem_replicate htransport]
      exact accepts_accepting
    by_contra hsendable
    rw [Bool.not_eq_false] at hsendable
    refine (hright.through _ hlength haccepts d (List.mem_of_mem_drop hd) hsendable).2 ?_
    refine List.mem_map_of_mem ?_
    rw [lines_resendCalls haccepts, hlength, turn_iterate]
    exact List.mem_append_right _ hd
  · intro hthrough
    refine ⟨fun transport request => (resend_careful request).gone, ?_, ?_⟩
    · intro transport request d ok hd
      obtain ⟨dest, hdest, hsame⟩ :=
        DlqLine.sendable_iff.1 ((resend_careful request).sent d ok hd)
      obtain ⟨hmem, henabled, hid⟩ := enabledDestination_spec hdest
      exact ⟨dest, hmem, henabled, hid, hsame⟩
    · intro transports hlength haccepts d hd hsendable
      have hgone : d.id ∉ (resendCalls dests transports q).1.ids := by
        intro hid
        obtain ⟨d', hd', hid⟩ := List.mem_map.1 hid
        rw [lines_resendCalls haccepts, hlength] at hd'
        have hleft := turn_iterate_done_iff.2 hthrough d' hd'
        rw [turn_iterate] at hd'
        have hmem : d' ∈ q.lines := (List.mem_append.1 hd').elim
          (fun h => List.mem_of_mem_take (List.mem_of_mem_filter h)) List.mem_of_mem_drop
        rw [Dlq.eq_of_id hmem hd hid, hsendable] at hleft
        exact absurd hleft (by simp)
      exact ⟨sent_of_gone haccepts hd hgone, hgone⟩

/-! ## Lines that are left over -/

section LeftOver

variable {dests : List SiemDestination} {q : Dlq} {front back : List DlqLine} {d : DlqLine}

/-- Behind as many lines that are left over as one call handles, a line is never sent, however often
the queue is resent. -/
theorem starved_of_leftOver (hlines : q.lines = front ++ d :: back)
    (hstuck : resendMax ≤ leftOver (DlqLine.sendable dests) front)
    {transports : List (SiemDestination → ResendTransport)}
    (ht : ∀ transport ∈ transports, ∀ dest, (transport dest).Accepts) :
    d ∈ (resendCalls dests transports q).1.lines := by
  have htake : q.lines.take front.length = front := by rw [hlines, List.take_left']; rfl
  have hreach : reach resendMax (DlqLine.sendable dests) q.lines transports.length ≤
      front.length := reach_le_of_stuck transports.length (by rwa [htake])
  rw [lines_resendCalls ht, turn_iterate, hlines]
  refine List.mem_append_right _ ?_
  rw [hlines] at hreach
  rw [List.drop_append_of_le_length hreach]
  exact List.mem_append_right _ List.mem_cons_self

end LeftOver

/-- One destination, enabled. -/
def graylog : SiemDestination where
  id := "d"
  name := "graylog"
  enabled := true
  sources := [.audit]
  batchSize := 100
  maxRetries := 3
  sentAs := "[]"
  takes _ _ := true
  formatter := ⟨fun _ => .ok "", fun _ => ""⟩

/-- The `i`-th line: of a destination that is gone, but for the last one. -/
def strandedLine (i : Nat) : DlqLine where
  destinationId := if i < 1000 then "e" else "d"
  source := .audit
  recordId := i
  externalId := "audit"
  eventTime := 0
  payload := "line"
  sentAs := "[]"
  error := "refused: 400"
  attempts := 1
  quarantinedAt := 0
  id := i + 1

/-- A thousand lines of a destination that is gone, and one line of the destination behind them. -/
def stranded : Dlq where
  lines := (List.range 1001).map strandedLine
  ordered := List.pairwise_map.2 (List.pairwise_lt_range.imp fun h => Nat.succ_lt_succ h)
  positive d hd := by
    obtain ⟨i, -, rfl⟩ := List.mem_map.1 hd
    exact Nat.succ_pos i

/-- The destination would take everything, and the one line that is for it is not sent. -/
theorem not_resendRight_stranded : ¬ResendRight [graylog] stranded := by
  intro hright
  have hrange : List.range 1001 = List.range 1000 ++ [1000] := List.range_succ
  have hlines : stranded.lines = (List.range 1000).map strandedLine ++ [strandedLine 1000] := calc
    stranded.lines = (List.range 1001).map strandedLine := by rw [stranded]
    _ = _ := by rw [hrange, List.map_append, List.map_singleton]
  have hleft : ((List.range 1000).map strandedLine).filter
      (fun d => !d.sendable [graylog]) = (List.range 1000).map strandedLine := by
    refine List.filter_eq_self.2 fun d hd => ?_
    obtain ⟨i, hi, rfl⟩ := List.mem_map.1 hd
    have hdest : (strandedLine i).destinationId = "e" := if_pos (List.mem_range.1 hi)
    rw [DlqLine.sendable, hdest]
    rfl
  have hstuck : resendMax ≤ leftOver (DlqLine.sendable [graylog])
      ((List.range 1000).map strandedLine) := by
    rw [leftOver, hleft, List.length_map, List.length_range, resendMax]
  have haccepts : ∀ transport ∈ List.replicate 2 fun _ : SiemDestination => accepting,
      ∀ dest, (transport dest).Accepts := by
    intro transport htransport dest
    rw [List.eq_of_mem_replicate htransport]
    exact accepts_accepting
  have hcalls : (List.replicate 2 fun _ : SiemDestination => accepting).length =
      callsFor stranded := by
    rw [callsFor, stranded, List.length_map, List.length_range]
    rfl
  have hmem : strandedLine 1000 ∈ stranded.lines := by
    rw [hlines]
    exact List.mem_append_right _ List.mem_cons_self
  refine (hright.through _ hcalls haccepts _ hmem
    (DlqLine.sendable_iff.2 ⟨graylog, rfl, rfl⟩)).2 ?_
  exact List.mem_map_of_mem (starved_of_leftOver hlines hstuck haccepts)

end IllumioOps.Siem
