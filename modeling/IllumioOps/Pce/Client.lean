import IllumioOps.Programs.Logs
import IllumioOps.Programs.Raising
import IllumioOps.Siem.Formats
import Mathlib.Data.NNRat.Defs
import Mathlib.Tactic.Linarith

/-!
# Requests to the PCE

`PceClient.request`: a request is granted budget, gets no more time than its deadline leaves, and only a
POST that was answered with a 429 is sent again, once. A call of the client is a program over the clock
and the log of what it did; how the PCE answers, whether there is budget and how long everything takes
comes with its steps. The log of every call is `Orderly`.
-/

set_option autoImplicit false

namespace IllumioOps.PceClient

open Programs

/-! ## Data -/

inductive Method where
  | get
  | post
  | put
  | delete
  deriving DecidableEq, Repr

inductive TransportKind where
  | dns
  | refused
  | timeout
  | tls
  | caBundle
  | other
  deriving DecidableEq, Repr

/-- `PceResponse`, with the two headers that are read. -/
structure Response where
  status : Nat
  body : List UInt8
  retryAfter : Option String
  location : Option String
  deriving DecidableEq

/-- What a request is made with. -/
structure Call where
  method : Method
  path : String
  json : Option Json
  timeout : Rat
  orgScoped : Bool
  deadline : Option Rat
  respondAsync : Bool

/-- A GET of a path that the PCE gave. -/
def Call.follow (path : String) (timeout deadline : Rat) : Call :=
  ⟨.get, path, none, timeout, false, some deadline, false⟩

/-- A request as it went out, and what came back. -/
structure Sent where
  call : Call
  timeout : Rat
  reply : Except TransportKind Response

/-- Where a query over the PCE's traffic is. -/
inductive Stage where
  | submit
  | poll
  | failed
  | timeout
  | updateRules
  | download
  deriving DecidableEq, Repr

/-- What a call of the client raises: `PceBudgetExhausted`, `PceTransportError`, `PceQueryError`,
`PceCollectionIncomplete`, and what Python raises over a reply that is no JSON or not of the shape that is
read. -/
inductive Raised where
  | budgetExhausted (path : String)
  | transport (path : String) (kind : TransportKind)
  | query (stage : Stage) (status : Option Nat) (detail : String)
  | incomplete (path : String) (partialCount : Nat) (reason : String)
  | unreadable
  deriving DecidableEq, Repr

/-- The JSON of a text, what a gzip file holds, a text as a finite number, and the texts of Python. -/
structure Library where
  py : SiemText.Python
  loads : List UInt8 → Option Json
  gunzip : List UInt8 → Option (List UInt8)
  finite : String → Option Rat

/-- What a call does, in order. -/
inductive Event where
  | granted
  | looked (now : Rat)
  | sent (s : Sent)

def Event.sent? : Event → Option Sent
  | .sent s => some s
  | _ => none

structure World where
  clock : Rat
  log : List Event

/-- The world a call starts in. -/
def World.start (now : Rat) : World := ⟨now, []⟩

/-- The requests of a log. -/
def sents (log : List Event) : List Sent := log.filterMap Event.sent?

/-- What comes with a step: the time before it and the time it takes, whether the limiter has budget, and
what the PCE answers. -/
structure Answer where
  before : NNRat
  taken : NNRat
  granted : Bool
  reply : Except TransportKind Response

abbrev Client (α : Type) : Type := Raising World Answer Raised α

/-! ## Steps -/

def World.later (w : World) (elapsed : NNRat) : World := { w with clock := w.clock + elapsed }

def World.logged (w : World) (e : Event) : World := { w with log := w.log ++ [e] }

/-- A step, some time after the one before. -/
def step {α : Type} (f : World → Answer → World × α) : Client α :=
  Raising.act fun w a => f (w.later a.before) a

/-- `time.monotonic` -/
def monotonic : Client Rat := step fun w _ => (w.logged (.looked w.clock), w.clock)

/-- `time.sleep`: at least so long. -/
def sleep (seconds : Rat) : Client Unit :=
  step fun w a => ({ w with clock := w.clock + max seconds 0 + a.taken }, ())

/-- `_acquire` -/
def acquire : Client Bool := step fun w a =>
  (if a.granted then w.logged .granted else w, a.granted)

/-- `session.request` -/
def send (c : Call) (timeout : Rat) : Client (Except TransportKind Response) := step fun w a =>
  ((w.logged (.sent ⟨c, timeout, a.reply⟩)).later a.taken, a.reply)

/-! ## `request` -/

def postDefaultWait : Rat := 2
def postMaxWait : Rat := 30

variable (lib : Library)

/-- `_retry_after_seconds` -/
def retryAfterSeconds (raw : Option String) : Rat :=
  min (max ((raw.bind lib.finite).getD postDefaultWait) 0) postMaxWait

/-- The reply of `send`, or the error it raises. -/
def replyOf (c : Call) : Except TransportKind Response → Except Raised Response
  | .ok resp => .ok resp
  | .error kind => .error (.transport c.path kind)

/-- One sending. -/
def sendOnce (c : Call) (timeout : Rat) : Client Response := do
  let reply ← send c timeout
  Raising.ofExcept (replyOf c reply)

/-- The sending and, after a POST was answered with a 429, the second one: only with fresh budget. -/
def sendAgain (c : Call) (timeout : Rat) : Client Response := do
  let resp ← sendOnce c timeout
  if c.method = .post ∧ resp.status = 429 then do
    sleep (retryAfterSeconds lib resp.retryAfter)
    let granted ← acquire
    if granted then sendOnce c timeout else pure resp
  else pure resp

/-- `request` -/
def request (c : Call) : Client Response := do
  let granted ← acquire
  if granted then
    match c.deadline with
    | none => sendAgain lib c c.timeout
    | some deadline => do
        let now ← monotonic
        if deadline - now ≤ 0 then throw (.transport c.path .timeout)
        else sendAgain lib c (min c.timeout (deadline - now))
  else throw (.budgetExhausted c.path)

/-! ## Order -/

/-- The limiter granted budget since the last request. -/
def Budgeted (before : List Event) : Prop :=
  ∃ earlier recent, before = earlier ++ .granted :: recent ∧ sents recent = []

/-- A request that goes out again: a POST, after its 429. -/
def Again (past : List Sent) (c : Call) : Prop :=
  c.method = .post ∧ ∃ earlier timeout resp,
    past = earlier ++ [⟨c, timeout, .ok resp⟩] ∧ resp.status = 429

/-- A request gets no more time than is left to its deadline, by a look at the clock just before it. -/
def OnTime (before : List Event) (c : Call) (timeout : Rat) : Prop :=
  ∀ deadline, c.deadline = some deadline → ∃ earlier now,
    before = earlier ++ [.looked now] ∧ now < deadline ∧ timeout ≤ deadline - now

/-- Why an event of a log may come where it does; `due` says which request is due after which. -/
def Justified (due : List Sent → Call → Prop) (before : List Event) : Event → Prop
  | .sent s => due (sents before) s.call ∧ Budgeted before ∧
      (Again (sents before) s.call ∨ OnTime before s.call s.timeout)
  | _ => True

/-- Every event of the log may come where it does. -/
def Orderly (due : List Sent → Call → Prop) (w : World) : Prop := InOrder (Justified due) w.log

@[simp] theorem sents_append (log more : List Event) :
    sents (log ++ more) = sents log ++ sents more := List.filterMap_append

@[simp] theorem sents_granted : sents [Event.granted] = [] := rfl
@[simp] theorem sents_looked (now : Rat) : sents [Event.looked now] = [] := rfl
@[simp] theorem sents_sent (s : Sent) : sents [Event.sent s] = [s] := rfl

section Rules

variable {due : List Sent → Call → Prop} {α : Type} {P : World → Prop} {Q : α → World → Prop}
  {E : Raised → World → Prop}

/-- A program whose log stays in order, stopped anywhere. -/
def Keeping (due : List Sent → Call → Prop) (P : World → Prop) (m : Client α)
    (Q : α → World → Prop) (E : Raised → World → Prop) : Prop :=
  Raising.Safe (fun _ => True) (fun _ w => Orderly due w) (fun w => Orderly due w ∧ P w) m
    (fun a w => Orderly due w ∧ Q a w) fun e w => Orderly due w ∧ E e w

theorem keeping_bind {β : Type} {m : Client α} {f : α → Client β} {S : β → World → Prop}
    (hm : Keeping due P m Q E) (hf : ∀ a, Keeping due (Q a) (f a) S E) :
    Keeping due P (m >>= f) S E := Raising.safe_bind hm hf

theorem keeping_pure {a : α} (h : ∀ w, P w → Q a w) : Keeping due P (pure a : Client α) Q E :=
  Raising.safe_pure fun w hw => ⟨hw.1, h w hw.2⟩

theorem keeping_throw {e : Raised} (h : ∀ w, P w → E e w) :
    Keeping due P (throw e : Client α) Q E :=
  Raising.safe_throw fun w hw => ⟨hw.1, h w hw.2⟩

theorem keeping_ofExcept {x : Except Raised α} (h : ∀ w, P w → Raising.ending Q E x w) :
    Keeping due P (Raising.ofExcept x) Q E := by
  refine Raising.safe_ofExcept fun w hw => ?_
  cases x with
  | ok a => exact ⟨hw.1, h w hw.2⟩
  | error e => exact ⟨hw.1, h w hw.2⟩

theorem keeping_ite {c : Prop} [Decidable c] {m m' : Client α} (hm : c → Keeping due P m Q E)
    (hm' : ¬ c → Keeping due P m' Q E) : Keeping due P (if c then m else m') Q E :=
  Raising.safe_ite hm hm'

theorem keeping_weaken {P' : World → Prop} {Q' : α → World → Prop} {E' : Raised → World → Prop}
    {m : Client α} (hm : Keeping due P m Q E) (hP : ∀ w, P' w → P w) (hQ : ∀ a w, Q a w → Q' a w)
    (hE : ∀ e w, E e w → E' e w) : Keeping due P' m Q' E' :=
  Raising.safe_weaken hm (fun w hw => ⟨hw.1, hP w hw.2⟩) (fun a w hw => ⟨hw.1, hQ a w hw.2⟩)
    fun e w hw => ⟨hw.1, hE e w hw.2⟩

/-- A fact that does not depend on the world is taken out of what holds at the start. -/
theorem keeping_fact {c : Prop} {m : Client α} (hc : ∀ w, P w → c) (hm : c → Keeping due P m Q E) :
    Keeping due P m Q E := Raising.safe_fact (fun w hw => hc w hw.2) hm

/-- What holds at the start for some value is taken out as that value. -/
theorem keeping_some {ι : Type} {P : ι → World → Prop} {m : Client α}
    (hm : ∀ i, Keeping due (P i) m Q E) : Keeping due (fun w => ∃ i, P i w) m Q E := by
  refine Raising.safe_weaken (Raising.safe_some hm) ?_ (fun _ _ h => h) fun _ _ h => h
  rintro w ⟨horder, i, hw⟩
  exact ⟨i, horder, hw⟩

theorem keeping_loop {β : Type} {body : β → Client (β ⊕ α)} {I : β → World → Prop}
    (hbody : ∀ b, Keeping due (I b) (body b) (fun r w =>
      match r with
      | .inl next => I next w
      | .inr a => Q a w) E) (b : β) : Keeping due (I b) (Raising.loop body b) Q E := by
  refine Raising.safe_loop (I := fun b w => Orderly due w ∧ I b w) (fun b => ?_) b
  refine Raising.safe_weaken (hbody b) (fun _ h => h) ?_ fun _ _ h => h
  rintro (next | a) w hw
  · exact hw
  · exact hw

theorem keeping_caught {m : Client α} {E' : Raised → World → Prop} (hm : Keeping due P m Q E) :
    Keeping due P (Raising.caught m) (fun r w => Raising.ending Q E r w) E' := by
  have hcaught : Raising.Safe _ _ _ (Raising.caught m) _ (fun e w => Orderly due w ∧ E' e w) :=
    Raising.safe_caught hm
  refine Raising.safe_weaken hcaught (fun _ h => h) ?_ fun _ _ h => h
  rintro (e | a) w hw
  · exact hw
  · exact hw

theorem keeping_step {f : World → Answer → World × α}
    (h : ∀ w a, Orderly due w → P w →
      Orderly due (f (w.later a.before) a).1 ∧ Q (f (w.later a.before) a).2 (f (w.later a.before) a).1) :
    Keeping due P (step f) Q E :=
  Raising.safe_act fun w a _ hw =>
    ⟨(h w a hw.1 hw.2).1, h w a hw.1 hw.2⟩

theorem Orderly.snoc {w : World} (h : Orderly due w) {e : Event} (he : Justified due w.log e) :
    Orderly due (w.logged e) := InOrder.snoc h he

/-! ## The steps -/

/-- At a time and after these requests. -/
def Since (t : Rat) (past : List Sent) (w : World) : Prop := t ≤ w.clock ∧ sents w.log = past

variable {t : Rat} {past : List Sent}

theorem Since.later {w : World} (h : Since t past w) (elapsed : NNRat) : Since t past (w.later elapsed) :=
  ⟨h.1.trans (le_add_of_nonneg_right elapsed.2), h.2⟩

theorem keeping_monotonic : Keeping due (Since t past) monotonic
    (fun now w => t ≤ now ∧ Since now past w ∧ ∃ earlier, w.log = earlier ++ [.looked now]) E := by
  refine keeping_step fun w a hw hsince => ⟨hw.snoc trivial, (hsince.later a.before).1, ?_, w.log, rfl⟩
  refine ⟨le_refl _, ?_⟩
  change sents (w.log ++ [_]) = past
  rw [sents_append, sents_looked, List.append_nil]
  exact hsince.2

theorem keeping_sleep (seconds : Rat) : Keeping due (Since t past) (sleep seconds)
    (fun _ => Since (t + max seconds 0) past) E := by
  refine keeping_step fun w a hw hsince => ⟨hw, ?_, hsince.2⟩
  have hlater := (hsince.later a.before).1
  have htaken : (0 : Rat) ≤ a.taken := a.taken.2
  change t + max seconds 0 ≤ (w.later a.before).clock + max seconds 0 + a.taken
  linarith

theorem keeping_acquire : Keeping due (Since t past) acquire
    (fun granted w => Since t past w ∧
      (granted = true → ∃ earlier, w.log = earlier ++ [.granted] ∧ sents earlier = past)) E := by
  refine keeping_step fun w a hw hsince => ?_
  cases hgranted : a.granted with
  | true =>
      refine ⟨hw.snoc trivial, ⟨(hsince.later a.before).1, ?_⟩, fun _ => ⟨w.log, rfl, hsince.2⟩⟩
      change sents (w.log ++ [_]) = past
      rw [sents_append, sents_granted, List.append_nil]
      exact hsince.2
  | false => exact ⟨hw, hsince.later a.before, fun h => Bool.noConfusion h⟩

/-- A time has come, or the deadline is over. -/
def Reached (deadline time now : Rat) : Prop := deadline ≤ now ∨ time ≤ now

/-- After a wait of two seconds or more, where there is so much time left. -/
theorem reached_sleep {deadline time now wait : Rat} (h : time ≤ now) (hwait : 2 ≤ wait) :
    Reached deadline (time + 2) (now + max (min wait (max (deadline - now) 0)) 0) := by
  rcases le_total (deadline - now) 2 with hleft | hleft
  · -- the rest of the time is slept
    refine Or.inl ?_
    have hmin : min wait (max (deadline - now) 0) = max (deadline - now) 0 :=
      min_eq_right ((max_le hleft (by norm_num)).trans hwait)
    rw [hmin, max_eq_left (le_max_right _ _)]
    linarith [le_max_left (deadline - now) 0]
  · refine Or.inr ?_
    have hslept : (2 : Rat) ≤ min wait (max (deadline - now) 0) :=
      le_min hwait (hleft.trans (le_max_left _ _))
    linarith [le_max_left (min wait (max (deadline - now) 0)) 0]

/-! ## `request` -/

/-- What `request` raises. -/
def Raised.Unanswered : Raised → Prop
  | .budgetExhausted _ => True
  | .transport _ _ => True
  | _ => False

/-- A request may go out. -/
def Ready (due : List Sent → Call → Prop) (c : Call) (timeout : Rat) (w : World) : Prop :=
  due (sents w.log) c ∧ Budgeted w.log ∧ (Again (sents w.log) c ∨ OnTime w.log c timeout)

theorem keeping_sendOnce (c : Call) (timeout : Rat) :
    Keeping due (fun w => Since t past w ∧ Ready due c timeout w) (sendOnce c timeout)
      (fun resp => Since t (past ++ [⟨c, timeout, .ok resp⟩]))
      (fun e w => e.Unanswered ∧ ∃ s, s.call = c ∧ Since t (past ++ [s]) w) := by
  refine keeping_bind (Q := fun reply => Since t (past ++ [⟨c, timeout, reply⟩])) ?_ fun reply => ?_
  · refine keeping_step fun w a hw hready => ⟨hw.snoc ?_, ?_⟩
    · exact hready.2
    · refine Since.later (w := (w.later a.before).logged _) ⟨(hready.1.later a.before).1, ?_⟩ a.taken
      change sents (w.log ++ [_]) = past ++ [_]
      rw [sents_append, sents_sent, hready.1.2]
  · refine keeping_ofExcept fun w hw => ?_
    cases reply with
    | ok resp => exact hw
    | error kind => exact ⟨trivial, _, rfl, hw⟩

/-- The requests that went out for one call: the last was answered, and one before it only with a 429 to a
POST. -/
def Answered (c : Call) (resp : Response) (more : List Sent) : Prop :=
  ∃ earlier timeout, more = earlier ++ [⟨c, timeout, .ok resp⟩] ∧
    (earlier = [] ∨ c.method = .post ∧
      ∃ timeout resp, earlier = [⟨c, timeout, .ok resp⟩] ∧ resp.status = 429)

/-- Requests that all went out for one call. -/
def AllFor (c : Call) (more : List Sent) : Prop := ∀ s ∈ more, s.call = c

theorem allFor_nil (c : Call) : AllFor c [] := fun _ hs => absurd hs List.not_mem_nil

theorem allFor_single {c : Call} {s : Sent} (hs : s.call = c) : AllFor c [s] := by
  intro s' hs'
  rw [List.mem_singleton.mp hs', hs]

theorem AllFor.append {c : Call} {more more' : List Sent} (h : AllFor c more) (h' : AllFor c more') :
    AllFor c (more ++ more') := by
  intro s hs
  rcases List.mem_append.mp hs with hs | hs
  · exact h s hs
  · exact h' s hs

theorem Answered.allFor {c : Call} {resp : Response} {more : List Sent} (h : Answered c resp more) :
    AllFor c more := by
  obtain ⟨earlier, timeout, rfl, rfl | ⟨-, timeout', resp', rfl, -⟩⟩ := h
  · exact allFor_single rfl
  · exact (allFor_single rfl).append (allFor_single rfl)

/-- How a call fails: some requests may have gone out for it. -/
def FailedFor (c : Call) (t : Rat) (past : List Sent) (e : Raised) (w : World) : Prop :=
  e.Unanswered ∧ ∃ more, AllFor c more ∧ Since t (past ++ more) w

theorem Since.failedFor {c : Call} {e : Raised} {w : World} (h : Since t past w) (he : e.Unanswered) :
    FailedFor c t past e w :=
  ⟨he, [], allFor_nil c, (List.append_nil past).symm ▸ h⟩

theorem Since.mono {t' : Rat} {w : World} (h : Since t past w) (ht : t' ≤ t) : Since t' past w :=
  ⟨ht.trans h.1, h.2⟩

variable {lib : Library}

theorem keeping_sendAgain {c : Call}
    (hagain : c.method = .post → ∀ timeout resp, resp.status = 429 →
      due (past ++ [⟨c, timeout, .ok resp⟩]) c) (timeout : Rat) :
    Keeping due (fun w => Since t past w ∧ Ready due c timeout w) (sendAgain lib c timeout)
      (fun resp w => ∃ more, Answered c resp more ∧ Since t (past ++ more) w)
      (FailedFor c t past) := by
  have hfirst : Keeping due (fun w => Since t past w ∧ _) (sendOnce c timeout) _ _ := keeping_sendOnce c timeout
  refine keeping_bind (keeping_weaken hfirst (fun _ hw => hw) (fun _ _ hw => hw) ?_) fun resp => ?_
  · rintro e w ⟨he, s, hs, hsince⟩
    exact ⟨he, [s], allFor_single hs, hsince⟩
  have hone : Answered c resp [⟨c, timeout, .ok resp⟩] := ⟨[], timeout, rfl, Or.inl rfl⟩
  refine keeping_ite (fun h429 => ?_) fun _ => keeping_pure fun w hw => ⟨_, hone, hw⟩
  refine keeping_bind (keeping_sleep _) fun _ => ?_
  have hwait : t ≤ t + max (retryAfterSeconds lib resp.retryAfter) 0 :=
    le_add_of_nonneg_right (le_max_right _ _)
  refine keeping_bind keeping_acquire fun granted => ?_
  refine keeping_ite (fun hgranted => ?_) fun _ => keeping_pure fun w hw => ⟨_, hone, hw.1.mono hwait⟩
  -- fresh budget, and the 429 is the request before
  have hsecond : Keeping due (fun w => Since t (past ++ [⟨c, timeout, .ok resp⟩]) w ∧ _) (sendOnce c timeout) _ _ :=
    keeping_sendOnce c timeout
  refine keeping_weaken hsecond ?_ ?_ ?_
  · rintro w ⟨hsince, hgrant⟩
    obtain ⟨earlier, hlog, -⟩ := hgrant hgranted
    refine ⟨hsince.mono hwait, ?_, ⟨earlier, [], hlog, rfl⟩, Or.inl ⟨h429.1, past, timeout, resp, ?_⟩⟩
    · exact hsince.2 ▸ hagain h429.1 timeout resp h429.2
    · exact ⟨hsince.2, h429.2⟩
  · intro resp' w hw
    refine ⟨[⟨c, timeout, .ok resp⟩] ++ [⟨c, timeout, .ok resp'⟩],
      ⟨[⟨c, timeout, .ok resp⟩], timeout, rfl, Or.inr ⟨h429.1, timeout, resp, rfl, h429.2⟩⟩, ?_⟩
    rwa [← List.append_assoc]
  · rintro e w ⟨he, s, hs, hsince⟩
    refine ⟨he, [⟨c, timeout, .ok resp⟩] ++ [s], (allFor_single rfl).append (allFor_single hs), ?_⟩
    rwa [← List.append_assoc]

/-- What a request asks: that it is due, also after its own 429. -/
theorem keeping_request {c : Call} (hdue : due past c)
    (hagain : c.method = .post → ∀ timeout resp, resp.status = 429 →
      due (past ++ [⟨c, timeout, .ok resp⟩]) c) :
    Keeping due (Since t past) (request lib c)
      (fun resp w => ∃ more, Answered c resp more ∧ Since t (past ++ more) w)
      (FailedFor c t past) := by
  refine keeping_bind keeping_acquire fun granted => ?_
  refine keeping_ite (fun hgranted => ?_) fun _ => keeping_throw fun w hw => hw.1.failedFor trivial
  cases hdeadline : c.deadline with
  | none =>
      refine keeping_weaken (keeping_sendAgain hagain c.timeout) ?_ (fun _ _ hw => hw) fun _ _ hw => hw
      rintro w ⟨hsince, hgrant⟩
      obtain ⟨earlier, hlog, -⟩ := hgrant hgranted
      refine ⟨hsince, hsince.2.symm ▸ hdue, ⟨earlier, [], hlog, rfl⟩, Or.inr ?_⟩
      exact fun deadline hsome => absurd (hdeadline.symm.trans hsome) (by simp)
  | some deadline =>
      -- the look at the clock comes after the grant, and nothing goes out in between
      refine keeping_bind (Q := fun now w => Since t past w ∧ Budgeted w.log ∧
        ∃ earlier, w.log = earlier ++ [.looked now]) ?_ fun now => ?_
      · refine keeping_step fun w a hw hgrant => ?_
        obtain ⟨earlier, hlog, -⟩ := hgrant.2 hgranted
        refine ⟨hw.snoc trivial, ⟨(hgrant.1.later a.before).1, ?_⟩, ?_, w.log, rfl⟩
        · change sents (w.log ++ [_]) = past
          rw [sents_append, sents_looked, List.append_nil, hgrant.1.2]
        · refine ⟨earlier, [.looked (w.later a.before).clock], ?_, rfl⟩
          change w.log ++ [_] = _
          rw [hlog, List.append_assoc]
          rfl
      refine keeping_ite (fun _ => keeping_throw fun w hw => hw.1.failedFor trivial) fun hleft => ?_
      refine keeping_weaken (keeping_sendAgain hagain (min c.timeout (deadline - now))) ?_
        (fun _ _ hw => hw) fun _ _ hw => hw
      rintro w ⟨hsince, hbudget, earlier, hlog⟩
      refine ⟨hsince, hsince.2.symm ▸ hdue, hbudget, Or.inr fun deadline' hsome => ?_⟩
      obtain rfl := Option.some.inj (hdeadline.symm.trans hsome)
      exact ⟨earlier, now, hlog, by linarith, min_le_right _ _⟩

/-- A request that is not sent again. -/
theorem keeping_request_once {c : Call} (hdue : due past c) (hmethod : c.method ≠ .post) :
    Keeping due (Since t past) (request lib c)
      (fun resp w => ∃ timeout, Since t (past ++ [⟨c, timeout, .ok resp⟩]) w)
      (FailedFor c t past) := by
  refine keeping_weaken (keeping_request hdue fun h => absurd h hmethod) (fun _ hw => hw) ?_
    fun _ _ hw => hw
  rintro resp w ⟨more, ⟨earlier, timeout, rfl, rfl | ⟨hpost, -⟩⟩, hsince⟩
  · exact ⟨timeout, hsince⟩
  · exact absurd hpost hmethod

end Rules

end IllumioOps.PceClient
