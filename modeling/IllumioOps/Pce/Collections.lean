import IllumioOps.Pce.Client
import Mathlib.Tactic.Ring

/-!
# Collections of the PCE

`get_all`: one page of at most 500 rows, and the asynchronous way where the page is full. What is handed
out is a page that is not full or the result of a job that is done, never a full page (`listing_whole`).
-/

set_option autoImplicit false

namespace IllumioOps.Collections

open Programs PceClient SiemText

/-! ## Requests -/

def pageLimit : Nat := 500

/-- What `get_all` is called with. -/
structure Listing where
  path : String
  params : List (String × String)
  deadline : Rat

/-- `{**params, 'max_results': str(PAGE_LIMIT)}` -/
def limited (params : List (String × String)) : List (String × String) :=
  if params.any (fun p => p.1 == "max_results") then
    params.map fun p => if p.1 == "max_results" then (p.1, toString pageLimit) else p
  else params ++ [("max_results", toString pageLimit)]

variable (urlencode : List (String × String) → String) (lib : Library)

namespace Listing

variable (c : Listing)

def pageCall : Call :=
  ⟨.get, c.path ++ "?" ++ urlencode (limited c.params), none, 60, true, some c.deadline, false⟩

/-- The PCE would apply the page limit to the result of the job too. -/
def target : String :=
  if c.params.isEmpty then c.path else c.path ++ "?" ++ urlencode c.params

def startCall : Call := ⟨.get, c.target urlencode, none, 60, true, some c.deadline, true⟩

def jobCall (job : String) : Call := .follow job 30 c.deadline

def resultCall (href : String) : Call := .follow href 120 c.deadline

end Listing

/-! ## Replies -/

def jobFailed : List String := ["failed", "cancel_requested", "cancelled", "canceled"]

/-- `_job_wait` -/
def jobWait (raw : Option String) : Rat := min (max ((raw.bind lib.finite).getD 2) 2) 10

/-- The reply with the page. -/
def pageReply (c : Listing) (resp : Response) : Except Raised (List Json) :=
  if resp.status = 200 then
    match lib.loads resp.body with
    | none => .error .unreadable
    | some (.arr rows) => .ok rows
    | some _ => .error (.incomplete c.path 0 "response is not a list")
  else .error (.incomplete c.path 0 ("HTTP " ++ toString resp.status))

/-- The reply to the start of a job: where the job is. -/
def startReply (c : Listing) (partialCount : Nat) (resp : Response) : Except Raised String :=
  let job := resp.location.getD ""
  if resp.status ≠ 202 ∨ job = "" then
    .error (.incomplete c.path partialCount
      ("async collection not accepted (HTTP " ++ toString resp.status ++ ")"))
  else .ok job

/-- The body of a reply about a job; one without a body says nothing. -/
def jobBody (resp : Response) : Except Raised Json :=
  if resp.status = 200 ∧ resp.body ≠ [] then
    match lib.loads resp.body with
    | none => .error .unreadable
    | some body => .ok body
  else .ok (.obj [])

def jobStatus (body : Json) : String :=
  if body.isObj then lib.py.lower (strOf lib.py ((body.get? "status").getD (.str ""))) else ""

/-- What a job says: where its result is, or nothing yet. -/
def jobSays (c : Listing) (partialCount : Nat) (body : Json) : Except Raised (Option String) :=
  let status := jobStatus lib body
  if status = "done" then
    let href := (body.get "result").get "href"
    if href.truthy then .ok (some (strOf lib.py href))
    else .error (.incomplete c.path partialCount "async collection finished without a result")
  else if status ∈ jobFailed then
    .error (.incomplete c.path partialCount ("async collection " ++ status))
  else .ok none

def jobReply (c : Listing) (partialCount : Nat) (resp : Response) : Except Raised (Option String) :=
  (jobBody lib resp).bind (jobSays lib c partialCount)

def resultReply (c : Listing) (partialCount : Nat) (resp : Response) : Except Raised (List Json) :=
  let refused := Raised.incomplete c.path partialCount
    ("async result unreadable (HTTP " ++ toString resp.status ++ ")")
  if resp.status = 200 then
    match lib.loads resp.body with
    | none => .error .unreadable
    | some (.arr rows) => .ok rows
    | some _ => .error refused
  else .error refused

/-! ## `get_all` -/

/-- A turn of the loop over a job. -/
def jobTurn (c : Listing) (partialCount : Nat) (job : String) : Client (Unit ⊕ List Json) := do
  let now ← monotonic
  if c.deadline - now ≤ 0 then
    throw (.incomplete c.path partialCount "async collection did not finish in time")
  else do
    let resp ← request lib (c.jobCall job)
    let answer ← Raising.ofExcept (jobReply lib c partialCount resp)
    match answer with
    | some href => do
        let data ← request lib (c.resultCall href)
        let rows ← Raising.ofExcept (resultReply lib c partialCount data)
        pure (.inr rows)
    | none => do
        let now ← monotonic
        sleep (min (jobWait lib resp.retryAfter) (max (c.deadline - now) 0))
        pure (.inl ())

/-- The start of a job. -/
def start (c : Listing) (partialCount : Nat) : Client String := do
  let started ← request lib (c.startCall urlencode)
  Raising.ofExcept (startReply c partialCount started)

/-- `_run_async_collection` -/
def runAsyncCollection (c : Listing) (partialCount : Nat) : Client (List Json) := do
  let job ← start urlencode lib c partialCount
  Raising.loop (fun _ => jobTurn lib c partialCount job) ()

def TransportKind.text : TransportKind → String
  | .dns => "dns"
  | .refused => "refused"
  | .timeout => "timeout"
  | .tls => "tls"
  | .caBundle => "ca_bundle"
  | .other => "other"

/-- What becomes of an error on the asynchronous way. -/
def interrupted (c : Listing) (partialCount : Nat) : Raised → Raised
  | .transport _ kind => .incomplete c.path partialCount
      ("async collection interrupted (" ++ TransportKind.text kind ++ ")")
  | .budgetExhausted _ => .incomplete c.path partialCount "async collection ran out of rate budget"
  | e => e

/-- `_async_collection` -/
def asyncCollection (c : Listing) (partialCount : Nat) : Client (List Json) := do
  let r ← Raising.caught (runAsyncCollection urlencode lib c partialCount)
  Raising.ofExcept (r.mapError (interrupted c partialCount))

/-- The page. -/
def page (c : Listing) : Client (List Json) := do
  let first ← request lib (c.pageCall urlencode)
  Raising.ofExcept (pageReply lib c first)

/-- `get_all` -/
def getAll (c : Listing) : Client (List Json) := do
  let rows ← page urlencode lib c
  if rows.length < pageLimit then pure rows
  else asyncCollection urlencode lib c rows.length

/-! ## Order -/

/-- Of the requests so far, the first one brought this page. -/
def Paged (c : Listing) (past : List Sent) (rows : List Json) : Prop :=
  ∃ timeout resp, past = [⟨c.pageCall urlencode, timeout, .ok resp⟩] ∧ resp.status = 200 ∧
    lib.loads resp.body = some (.arr rows)

/-- The page was full, and a job was started. -/
def Started (c : Listing) (past : List Sent) (rows : List Json) (job : String) : Prop :=
  ∃ before timeout resp, past = before ++ [⟨c.startCall urlencode, timeout, .ok resp⟩] ∧
    Paged urlencode lib c before rows ∧ pageLimit ≤ rows.length ∧
    resp.status = 202 ∧ resp.location = some job ∧ job ≠ ""

/-- The job was polled until it was done, and said where its result is. -/
def Done (c : Listing) (past : List Sent) (rows : List Json) (href : String) : Prop :=
  ∃ before job polls timeout resp body,
    past = before ++ (polls ++ [⟨c.jobCall job, timeout, .ok resp⟩]) ∧
      Started urlencode lib c before rows job ∧ AllFor (c.jobCall job) polls ∧
      jobBody lib resp = .ok body ∧ jobStatus lib body = "done" ∧
      ((body.get "result").get "href").truthy = true ∧
      href = strOf lib.py ((body.get "result").get "href")

/-- Which request is due after which; a job is polled no more often than every two seconds. -/
inductive Due (c : Listing) (began : Rat) (past : List Sent) : Call → Prop where
  | page : past = [] → Due c began past (c.pageCall urlencode)
  | start (rows : List Json) : Paged urlencode lib c past rows → pageLimit ≤ rows.length →
      Due c began past (c.startCall urlencode)
  | poll (before polls : List Sent) (rows : List Json) (job : String) : past = before ++ polls →
      Started urlencode lib c before rows job → AllFor (c.jobCall job) polls →
      began + 2 * (polls.length : Rat) < c.deadline → Due c began past (c.jobCall job)
  | result (rows : List Json) (href : String) : Done urlencode lib c past rows href →
      Due c began past (c.resultCall href)

/-- What is handed out: a page that was not full, or what the job of a full one left. -/
def Whole (c : Listing) (log : List Sent) (rows : List Json) : Prop :=
  (Paged urlencode lib c log rows ∧ rows.length < pageLimit) ∨
    ∃ past first href timeout resp, log = past ++ [⟨c.resultCall href, timeout, .ok resp⟩] ∧
      Done urlencode lib c past first href ∧ resp.status = 200 ∧
      lib.loads resp.body = some (.arr rows)

/-- How it fails once the page was full: by what is missing, with the number of the rows of the page, or over
a reply that is no JSON. -/
def Refused (c : Listing) (log : List Sent) (e : Raised) : Prop :=
  (∃ s ∈ log, s.call = c.startCall urlencode) →
    e = .unreadable ∨ ∃ first before rest reason, log = before ++ rest ∧
      Paged urlencode lib c before first ∧ e = .incomplete c.path first.length reason

/-- What holds of a run of `get_all`. -/
structure Honest (c : Listing) (began : Rat) (visited : List World)
    (ended : Option (Except Raised (List Json) × List Answer)) : Prop where
  orderly : ∀ w ∈ World.start began :: visited, Orderly (Due urlencode lib c began) w
  whole : ∀ rows rest, ended = some (.ok rows, rest) →
    Whole urlencode lib c (sents (lastState (World.start began) visited).log) rows
  refused : ∀ e rest, ended = some (.error e, rest) →
    Refused urlencode lib c (sents (lastState (World.start began) visited).log) e

/-! ## The steps -/

section Course

variable {urlencode : List (String × String) → String} {lib : Library} {c : Listing} {began : Rat}
  {past : List Sent} {first : List Json} {job : String}

theorem pageReply_ok {resp : Response} {rows : List Json} (h : pageReply lib c resp = .ok rows) :
    resp.status = 200 ∧ lib.loads resp.body = some (.arr rows) := by
  rw [pageReply] at h
  split at h
  · rename_i hstatus
    split at h
    · cases h
    · rename_i rows' hloads
      obtain rfl := Except.ok.inj h
      exact ⟨hstatus, hloads⟩
    · cases h
  · cases h

theorem resultReply_ok {n : Nat} {resp : Response} {rows : List Json}
    (h : resultReply lib c n resp = .ok rows) :
    resp.status = 200 ∧ lib.loads resp.body = some (.arr rows) := by
  simp only [resultReply] at h
  split at h
  · rename_i hstatus
    split at h
    · cases h
    · rename_i rows' hloads
      obtain rfl := Except.ok.inj h
      exact ⟨hstatus, hloads⟩
    · cases h
  · cases h

theorem startReply_ok {n : Nat} {resp : Response} (h : startReply c n resp = .ok job) :
    resp.status = 202 ∧ resp.location = some job ∧ job ≠ "" := by
  simp only [startReply] at h
  split at h
  · cases h
  · rename_i haccepted
    obtain ⟨hstatus, hjob⟩ := not_or.mp haccepted
    obtain rfl := Except.ok.inj h
    refine ⟨not_not.mp hstatus, ?_, hjob⟩
    cases hlocation : resp.location with
    | none => exact absurd (by rw [hlocation]; rfl) hjob
    | some job => rfl

theorem jobReply_some {n : Nat} {resp : Response} {href : String}
    (h : jobReply lib c n resp = .ok (some href)) :
    ∃ body, jobBody lib resp = .ok body ∧ jobStatus lib body = "done" ∧
      ((body.get "result").get "href").truthy = true ∧
      href = strOf lib.py ((body.get "result").get "href") := by
  rw [jobReply] at h
  cases hbody : jobBody lib resp with
  | error e =>
      rw [hbody] at h
      cases h
  | ok body =>
      rw [hbody] at h
      replace h : jobSays lib c n body = .ok (some href) := h
      simp only [jobSays] at h
      split at h
      · rename_i hdone
        split at h
        · rename_i hhref
          exact ⟨body, rfl, hdone, hhref, (Option.some.inj (Except.ok.inj h)).symm⟩
        · cases h
      · split at h
        · cases h
        · exact absurd (Except.ok.inj h) (by simp)

/-- An error of the asynchronous way, before `_async_collection` names it; the page came first. -/
def Failing (c : Listing) (n : Nat) (before : List Sent) (e : Raised) (w : World) : Prop :=
  (interrupted c n e = .unreadable ∨ ∃ reason, interrupted c n e = .incomplete c.path n reason) ∧
    ∃ rest, sents w.log = before ++ rest

/-- Errors that replies and the loop raise. -/
def Named (c : Listing) (n : Nat) (e : Raised) : Prop :=
  e = .unreadable ∨ ∃ reason, e = .incomplete c.path n reason

theorem failing_of_named {n : Nat} {before rest : List Sent} {e : Raised} {t : Rat} {w : World}
    (he : Named c n e) (hw : Since t (before ++ rest) w) : Failing c n before e w := by
  refine ⟨?_, rest, hw.2⟩
  rcases he with rfl | ⟨reason, rfl⟩
  · exact Or.inl rfl
  · exact Or.inr ⟨reason, rfl⟩

theorem failing_of_failedFor {n : Nat} {before rest : List Sent} {call : Call} {e : Raised} {t : Rat}
    {w : World} (h : FailedFor call t (before ++ rest) e w) : Failing c n before e w := by
  obtain ⟨he, more, -, hsince⟩ := h
  refine ⟨?_, rest ++ more, by rw [hsince.2, List.append_assoc]⟩
  cases e with
  | budgetExhausted path => exact Or.inr ⟨_, rfl⟩
  | transport path kind => exact Or.inr ⟨_, rfl⟩
  | query stage status detail => exact he.elim
  | incomplete path n reason => exact he.elim
  | unreadable => exact he.elim

theorem named_startReply {n : Nat} {resp : Response} {e : Raised} (h : startReply c n resp = .error e) :
    Named c n e := by
  simp only [startReply] at h
  split at h
  · exact Or.inr ⟨_, (Except.error.inj h).symm⟩
  · cases h

theorem named_jobReply {n : Nat} {resp : Response} {e : Raised} (h : jobReply lib c n resp = .error e) :
    Named c n e := by
  rw [jobReply] at h
  cases hbody : jobBody lib resp with
  | error e' =>
      rw [hbody] at h
      obtain rfl : e' = e := Except.error.inj h
      rw [jobBody] at hbody
      split at hbody
      · split at hbody
        · exact Or.inl (Except.error.inj hbody).symm
        · cases hbody
      · cases hbody
  | ok body =>
      rw [hbody] at h
      replace h : jobSays lib c n body = .error e := h
      simp only [jobSays] at h
      split at h
      · split at h
        · cases h
        · exact Or.inr ⟨_, (Except.error.inj h).symm⟩
      · split at h
        · exact Or.inr ⟨_, (Except.error.inj h).symm⟩
        · cases h

theorem named_resultReply {n : Nat} {resp : Response} {e : Raised}
    (h : resultReply lib c n resp = .error e) : Named c n e := by
  simp only [resultReply] at h
  split at h
  · split at h
    · exact Or.inl (Except.error.inj h).symm
    · cases h
    · exact Or.inr ⟨_, (Except.error.inj h).symm⟩
  · exact Or.inr ⟨_, (Except.error.inj h).symm⟩

/-- The replies that a job has given so far, and the time they took. -/
def Polling (c : Listing) (began : Rat) (job : String) (past : List Sent) (w : World) : Prop :=
  ∃ polls t, AllFor (c.jobCall job) polls ∧ Since t (past ++ polls) w ∧
    Reached c.deadline (began + 2 * (polls.length : Rat)) t

theorem keeping_jobTurn {n : Nat} {before : List Sent} (hbefore : before <+: past)
    (hstarted : Started urlencode lib c past first job) :
    Keeping (Due urlencode lib c began) (Polling c began job past) (jobTurn lib c n job) (fun r w =>
      match r with
      | .inl _ => Polling c began job past w
      | .inr rows => Whole urlencode lib c (sents w.log) rows) (Failing c n before) := by
  obtain ⟨between, rfl⟩ := hbefore
  refine keeping_some fun polls => keeping_some fun t => ?_
  refine keeping_fact (fun w hw => hw.1) fun hpolls => keeping_fact (fun w hw => hw.2.2) fun hreached => ?_
  refine keeping_weaken (P := Since t (before ++ between ++ polls)) ?_ (fun w hw => hw.2.1)
    (fun _ _ h => h) fun _ _ h => h
  refine keeping_bind keeping_monotonic fun now => ?_
  refine keeping_ite (fun _ => keeping_throw fun w hw => ?_) fun hleft => ?_
  · rw [List.append_assoc] at hw
    exact failing_of_named (Or.inr ⟨_, rfl⟩) hw.2.1
  refine keeping_fact (fun w hw => hw.1) fun hnow => ?_
  have hpace : began + 2 * (polls.length : Rat) ≤ now := by
    rcases hreached with hover | hreached
    · exact absurd (sub_nonpos.mpr (hover.trans hnow)) hleft
    · exact hreached.trans hnow
  have hdue : Due urlencode lib c began (before ++ between ++ polls) (c.jobCall job) :=
    .poll (before ++ between) polls first job rfl hstarted hpolls (by linarith)
  refine keeping_weaken (P := Since now (before ++ between ++ polls)) ?_ (fun w hw => hw.2.1)
    (fun _ _ h => h) fun _ _ h => h
  have hrequest : Keeping _ (Since now _) (request lib (c.jobCall job)) _ _ :=
    keeping_request_once hdue Method.noConfusion
  rw [List.append_assoc] at hrequest
  refine keeping_bind (keeping_weaken hrequest (fun w hw => by rwa [List.append_assoc] at hw)
    (fun _ _ h => h) fun _ _ hw => failing_of_failedFor hw) fun resp => ?_
  refine keeping_some fun timeout => ?_
  generalize hsent : (⟨c.jobCall job, timeout, .ok resp⟩ : Sent) = s
  have hs : s.call = c.jobCall job := hsent ▸ rfl
  refine keeping_bind (Q := fun answer w => Since now (before ++ (between ++ polls) ++ [s]) w ∧
    jobReply lib c n resp = .ok answer) ?_ fun answer => ?_
  · refine keeping_ofExcept fun w hw => ?_
    cases hreply : jobReply lib c n resp with
    | ok answer => exact ⟨hw, rfl⟩
    | error e =>
        rw [List.append_assoc] at hw
        exact failing_of_named (named_jobReply hreply) hw
  refine keeping_fact (fun w hw => hw.2) fun hreply => ?_
  have hlog : before ++ (between ++ polls) ++ [s] = before ++ between ++ (polls ++ [s]) := by
    simp only [List.append_assoc]
  rw [hlog]
  cases answer with
  | some href =>
      have hdone : Done urlencode lib c (before ++ between ++ (polls ++ [s])) first href := by
        obtain ⟨body, hbody⟩ := jobReply_some hreply
        exact ⟨_, job, polls, timeout, resp, body, by rw [hsent], hstarted, hpolls, hbody⟩
      have hdueResult : Due urlencode lib c began _ (c.resultCall href) := .result _ _ hdone
      have hresult : Keeping _ (Since now _) (request lib (c.resultCall href)) _ _ :=
        keeping_request_once hdueResult Method.noConfusion
      rw [List.append_assoc] at hresult
      refine keeping_bind (keeping_weaken hresult (fun w hw => by simpa only [List.append_assoc] using hw.1)
        (fun _ _ h => h) fun _ _ hw => failing_of_failedFor hw) fun data => ?_
      refine keeping_some fun timeout' => ?_
      refine keeping_bind (Q := fun rows w => Whole urlencode lib c (sents w.log) rows) ?_ fun rows =>
        keeping_pure fun w hw => hw
      refine keeping_ofExcept fun w hw => ?_
      cases hdata : resultReply lib c n data with
      | ok rows =>
          refine Or.inr ⟨before ++ between ++ (polls ++ [s]), first, href, timeout', data, ?_, hdone,
            resultReply_ok hdata⟩
          rw [hw.2]
          simp only [List.append_assoc]
      | error e =>
          simp only [List.append_assoc] at hw
          exact failing_of_named (named_resultReply hdata) hw
  | none =>
      refine keeping_weaken (P := Since now (before ++ between ++ (polls ++ [s]))) ?_ (fun w hw => hw.1)
        (fun _ _ h => h) fun _ _ h => h
      refine keeping_bind keeping_monotonic fun later => ?_
      refine keeping_fact (fun w hw => hw.1) fun hlater => ?_
      refine keeping_weaken (P := Since later (before ++ between ++ (polls ++ [s]))) ?_ (fun w hw => hw.2.1)
        (fun _ _ h => h) fun _ _ h => h
      refine keeping_bind (keeping_sleep _) fun _ => keeping_pure fun w hw =>
        ⟨polls ++ [s], _, hpolls.append (allFor_single hs), hw, ?_⟩
      have hcount : began + 2 * ((polls ++ [s]).length : Rat) = began + 2 * (polls.length : Rat) + 2 := by
        rw [List.length_append, List.length_singleton, Nat.cast_add, Nat.cast_one]
        ring
      rw [hcount]
      have hwait : (2 : Rat) ≤ jobWait lib resp.retryAfter := le_min (le_max_right _ _) (by norm_num)
      exact reached_sleep (hpace.trans hlater) hwait

theorem keeping_asyncCollection {t : Rat} (hbegan : began ≤ t) (hpage : Paged urlencode lib c past first)
    (hfull : pageLimit ≤ first.length) :
    Keeping (Due urlencode lib c began) (Since t past) (asyncCollection urlencode lib c first.length)
      (fun rows w => Whole urlencode lib c (sents w.log) rows)
      (fun e w => Refused urlencode lib c (sents w.log) e) := by
  have hrun : Keeping (Due urlencode lib c began) (Since t past)
      (runAsyncCollection urlencode lib c first.length)
      (fun rows w => Whole urlencode lib c (sents w.log) rows) (Failing c first.length past) := by
    refine keeping_bind (Q := fun job w => ∃ timeout resp, startReply c first.length resp = .ok job ∧
      Since t (past ++ [⟨c.startCall urlencode, timeout, .ok resp⟩]) w) ?_ fun job => ?_
    · have hdue : Due urlencode lib c began past (c.startCall urlencode) := .start first hpage hfull
      have hrequest : Keeping _ (Since t past) (request lib (c.startCall urlencode)) _ _ :=
        keeping_request_once hdue Method.noConfusion
      refine keeping_bind (keeping_weaken hrequest (fun _ h => h) (fun _ _ h => h) ?_) fun resp => ?_
      · intro e w hw
        rw [← List.append_nil past] at hw
        exact failing_of_failedFor hw
      · refine keeping_ofExcept fun w hw => ?_
        obtain ⟨timeout, hsince⟩ := hw
        cases hreply : startReply c first.length resp with
        | ok job => exact ⟨timeout, resp, hreply, hsince⟩
        | error e => exact failing_of_named (named_startReply hreply) hsince
    · refine keeping_some fun timeout => keeping_some fun resp => ?_
      refine keeping_fact (fun w hw => hw.1) fun hreply => ?_
      have hstarted : Started urlencode lib c (past ++ [⟨c.startCall urlencode, timeout, .ok resp⟩])
          first job := ⟨past, timeout, resp, rfl, hpage, hfull, startReply_ok hreply⟩
      refine keeping_weaken (keeping_loop
        (I := fun _ => Polling c began job (past ++ [⟨c.startCall urlencode, timeout, .ok resp⟩]))
        (fun _ => ?_) ()) ?_ (fun _ _ h => h) fun _ _ h => h
      · refine keeping_weaken (keeping_jobTurn (List.prefix_append past _) hstarted) (fun _ h => h) ?_
          fun _ _ h => h
        rintro (next | rows) w hw
        · exact hw
        · exact hw
      · intro w hw
        refine ⟨[], t, allFor_nil _, ?_, Or.inr ?_⟩
        · rw [List.append_nil]
          exact hw.2
        · rw [List.length_nil, Nat.cast_zero, mul_zero, add_zero]
          exact hbegan
  refine keeping_bind (keeping_caught hrun) fun r => keeping_ofExcept fun w hw => ?_
  cases r with
  | ok rows => exact hw
  | error e =>
      obtain ⟨hnamed, rest, hlog⟩ := hw
      intro _
      rcases hnamed with hnamed | ⟨reason, hnamed⟩
      · exact Or.inl hnamed
      · exact Or.inr ⟨first, past, rest, reason, hlog, hpage, hnamed⟩

/-- No job was started where only the page was asked for. -/
theorem refused_of_page {more : List Sent} {e : Raised}
    (h : AllFor (c.pageCall urlencode) more) : Refused urlencode lib c more e := by
  rintro ⟨s, hs, hcall⟩
  exact Bool.noConfusion (congrArg Call.respondAsync ((h s hs).symm.trans hcall))

theorem keeping_getAll : Keeping (Due urlencode lib c began) (Since began []) (getAll urlencode lib c)
    (fun rows w => Whole urlencode lib c (sents w.log) rows)
    (fun e w => Refused urlencode lib c (sents w.log) e) := by
  refine keeping_bind (Q := fun rows w => ∃ past, Paged urlencode lib c past rows ∧ Since began past w)
    ?_ fun rows => ?_
  · have hdue : Due urlencode lib c began [] (c.pageCall urlencode) := .page rfl
    have hrequest : Keeping _ (Since began []) (request lib (c.pageCall urlencode)) _ _ :=
      keeping_request_once hdue Method.noConfusion
    refine keeping_bind (keeping_weaken hrequest (fun _ h => h) (fun _ _ h => h) ?_) fun resp => ?_
    · rintro e w ⟨-, more, hmore, hsince⟩
      rw [hsince.2]
      exact refused_of_page hmore
    · refine keeping_ofExcept fun w hw => ?_
      obtain ⟨timeout, hsince⟩ := hw
      cases hreply : pageReply lib c resp with
      | ok rows => exact ⟨_, ⟨timeout, resp, rfl, pageReply_ok hreply⟩, hsince⟩
      | error e =>
          change Refused urlencode lib c (sents w.log) e
          rw [hsince.2]
          exact refused_of_page (allFor_single rfl)
  · refine keeping_some fun past => keeping_fact (fun w hw => hw.1) fun hpage => ?_
    refine keeping_ite (fun hfew => keeping_pure fun w hw => Or.inl ⟨?_, hfew⟩) fun hfull => ?_
    · rw [hw.2.2]
      exact hpage
    · exact keeping_weaken (keeping_asyncCollection (le_refl began) hpage (not_lt.mp hfull))
        (fun w hw => hw.2) (fun _ _ h => h) fun _ _ h => h

end Course

end IllumioOps.Collections
