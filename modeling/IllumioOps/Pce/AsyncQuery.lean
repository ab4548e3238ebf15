import IllumioOps.Pce.Downloads
import Mathlib.Tactic.Ring

/-!
# The course of a traffic query

`run_traffic_query`: submitted, polled until it is completed, with the draft decisions computed where they
are asked for, downloaded and deleted. Every request of a query is due after those before it, and a result
is handed out only for a whole file (`query_honest`), whatever the PCE answers and wherever the query is
stopped.
-/

set_option autoImplicit false

namespace IllumioOps.AsyncQuery

open Programs PceClient SiemText

/-! ## Data -/

/-- What `run_traffic_query` is called with; `maxResults` is the `max_results` of the payload. -/
structure Query where
  payload : Json
  maxResults : Int
  deadline : Rat
  computeDraft : Bool
  deleteAfter : Bool

/-- `AsyncQueryResult` -/
structure Result where
  rows : List Json
  matchesCount : Option Int
  flowsCount : Option Int
  capped : Bool

def failedStates : List String := ["failed", "killed", "cancel_requested", "cancelled", "canceled"]

def pollStart : Rat := 2
def pollFactor : Rat := 3 / 2
def pollMax : Rat := 10
def emptyRetryWait : Rat := 3

/-! ## Requests -/

namespace Query

variable (q : Query)

def submitCall : Call :=
  ⟨.post, "/traffic_flows/async_queries", some q.payload, 60, true, some q.deadline, false⟩

def pollCall (href : String) : Call := .follow href 30 q.deadline

def updateCall (href : String) : Call :=
  ⟨.put, href ++ "/update_rules", some (.obj []), 60, false, some q.deadline, false⟩

def downloadCall (href : String) : Call := .follow (href ++ "/download") 300 q.deadline

end Query

def deleteCall (href : String) : Call := ⟨.delete, href, none, 30, false, none, false⟩

/-! ## Replies -/

variable (lib : Library)

/-- `str(body.get("status", "")).lower()` -/
def statusOf (body : Json) : String :=
  lib.py.lower (strOf lib.py ((body.get? "status").getD (.str "")))

def completed (body : Json) : Bool := statusOf lib body == "completed"

/-- Completed, and so are the draft decisions, where the PCE says anything about them. -/
def recomputed (body : Json) : Bool :=
  completed lib body &&
    lib.py.lower (strOf lib.py ((body.get "rules").orElse (.str "completed"))) == "completed"

/-- The failed state of the draft decisions, as the PCE spells it. -/
def rulesFailed (stage : Stage) (body : Json) : Option String :=
  match stage, body.get "rules" with
  | .updateRules, .str rules => if lib.py.lower rules ∈ failedStates then some rules else none
  | _, _ => none

/-- The reply to a poll: done with this body, to be asked again, or an error. -/
def pollReply (stage : Stage) (finished : Json → Bool) (resp : Response) : Except Raised (Option Json) :=
  if resp.status = 200 then
    match lib.loads resp.body with
    | none => .error .unreadable
    | some body =>
        if !body.isObj then .error .unreadable
        else if statusOf lib body ∈ failedStates then
          .error (.query .failed none (statusOf lib body))
        else match rulesFailed lib stage body with
          | some rules => .error (.query .updateRules none rules)
          | none => .ok (if finished body then some body else none)
  -- not visible yet right after the submit
  else if resp.status = 404 ∨ resp.status = 410 then .ok none
  else .error (.query .poll (some resp.status) "")

/-- The reply to the submit: the href of the query. -/
def submitReply (resp : Response) : Except Raised String :=
  if resp.status ∈ [200, 201, 202] then
    match lib.loads resp.body with
    | none => .error .unreadable
    | some body =>
        if !body.isObj then .error .unreadable
        else if (body.get "href").truthy then .ok (strOf lib.py (body.get "href"))
        else .error (.query .submit (some resp.status) "no href in the response")
  else .error (.query .submit (some resp.status) "")

def updateReply (resp : Response) : Except Raised Unit :=
  if resp.status ∈ [200, 202, 204] then .ok ()
  else .error (.query .updateRules (some resp.status) "")

def downloadReply (resp : Response) : Except Raised (List Json) :=
  if resp.status = 200 then
    match parseDownload lib resp.body with
    | none => .error (.query .download none "")
    | some rows => .ok rows
  else .error (.query .download (some resp.status) "")

/-! ## The query -/

/-- The submit: the href that the PCE names the query by. -/
def submit (q : Query) : Client String := do
  let resp ← request lib q.submitCall
  Raising.ofExcept (submitReply lib resp)

/-- A turn of the loop of `_poll`. -/
def pollTurn (q : Query) (href : String) (stage : Stage) (finished : Json → Bool) (wait : Rat) :
    Client (Rat ⊕ Json) := do
  let now ← monotonic
  if q.deadline - now ≤ 0 then throw (.query .timeout none "")
  else do
    let resp ← request lib (q.pollCall href)
    let answer ← Raising.ofExcept (pollReply lib stage finished resp)
    match answer with
    | some body => pure (.inr body)
    | none => do
        let now ← monotonic
        sleep (min wait (max (q.deadline - now) 0))
        pure (.inl (min (wait * pollFactor) pollMax))

/-- `_poll` -/
def poll (q : Query) (href : String) (stage : Stage) (finished : Json → Bool) : Client Json :=
  Raising.loop (pollTurn lib q href stage finished) pollStart

/-- `_download` -/
def download (q : Query) (href : String) : Client (List Json) := do
  let resp ← request lib (q.downloadCall href)
  Raising.ofExcept (downloadReply lib resp)

/-- What a short file is refused with. -/
def shortDetail (flows matchCount : Json) (rows : List Json) : String :=
  "PCE reported " ++ strOf lib.py (if (intOf flows).isSome then flows else matchCount) ++
    " flows but the result had " ++ toString rows.length

/-- The download, and the second one where the file was short. -/
def downloadWhole (q : Query) (href : String) (flows matchCount : Json) : Client (List Json) := do
  let rows ← download lib q href
  if short rows flows matchCount = true then do
    sleep emptyRetryWait
    let rows ← download lib q href
    if short rows flows matchCount = true then
      throw (.query .download none (shortDetail lib flows matchCount rows))
    else pure rows
  else pure rows

/-- The draft decisions are computed, where they are asked for. -/
def computeDraft (q : Query) (href : String) (status : Json) : Client Json :=
  if q.computeDraft = true then do
    let put ← request lib (q.updateCall href)
    Raising.ofExcept (updateReply put)
    poll lib q href .updateRules (recomputed lib)
  else pure status

/-- The query is deleted, if that can be done. -/
def cleanup (q : Query) (href : String) : Client Unit :=
  if q.deleteAfter = true then do
    let _ ← Raising.caught (request lib (deleteCall href))
    pure ()
  else pure ()

def resultOf (q : Query) (status : Json) (rows : List Json) : Result where
  rows := rows
  matchesCount := intOf (status.get "matches_count")
  flowsCount := intOf (status.get "flows_count")
  capped := q.maxResults ≤ rows.length ||
    (intOf (status.get "matches_count")).any fun n => q.maxResults ≤ n

/-- `run_traffic_query` -/
def runTrafficQuery (q : Query) : Client Result := do
  let href ← submit lib q
  let status ← poll lib q href .poll (completed lib)
  let status ← computeDraft lib q href status
  let rows ← downloadWhole lib q href (status.get "flows_count") (status.get "matches_count")
  cleanup lib q href
  pure (resultOf q status rows)

/-! ## Order -/

/-- The PCE took the query and gave it this href. -/
def Accepted (q : Query) (past : List Sent) (href : String) : Prop :=
  ∃ timeout resp, ⟨q.submitCall, timeout, .ok resp⟩ ∈ past ∧ submitReply lib resp = .ok href

/-- A poll found the query finished, with this body. -/
def Finished (q : Query) (href : String) (finished : Json → Bool) (past : List Sent) (body : Json) : Prop :=
  ∃ timeout resp, ⟨q.pollCall href, timeout, .ok resp⟩ ∈ past ∧ resp.status = 200 ∧
    lib.loads resp.body = some body ∧ statusOf lib body ∉ failedStates ∧ finished body = true

/-- The last word of the PCE before the download: with the draft decisions, one after they were asked for. -/
def Settled (q : Query) (href : String) (past : List Sent) (body : Json) : Prop :=
  if q.computeDraft = true then ∃ before timeout put after,
    past = before ++ ⟨q.updateCall href, timeout, .ok put⟩ :: after ∧ put.status ∈ [200, 202, 204] ∧
      Finished lib q href (recomputed lib) after body
  else Finished lib q href (completed lib) past body

/-- A download brought the whole file. -/
def Downloaded (q : Query) (href : String) (body : Json) (past : List Sent) (rows : List Json) : Prop :=
  ∃ earlier timeout resp, past = earlier ++ [⟨q.downloadCall href, timeout, .ok resp⟩] ∧
    resp.status = 200 ∧ parseDownload lib resp.body = some rows ∧
    short rows (body.get "flows_count") (body.get "matches_count") = false

/-- How often the query was polled. -/
def polls (href : String) (past : List Sent) : Nat :=
  past.countP fun s => s.call.method = .get ∧ s.call.path = href

/-- Which request is due after which: what it needs is there, and polls come no more often than every two
seconds, twice at most without a wait. -/
inductive Due (q : Query) (began : Rat) (past : List Sent) : Call → Prop where
  | submit : past = [] → Due q began past q.submitCall
  | again (timeout : Rat) (resp : Response) : past = [⟨q.submitCall, timeout, .ok resp⟩] →
      resp.status = 429 → Due q began past q.submitCall
  | poll (href : String) : Accepted lib q past href →
      began + 2 * ((polls href past : Rat) - 1) < q.deadline → Due q began past (q.pollCall href)
  | update (href : String) (body : Json) : q.computeDraft = true → Accepted lib q past href →
      Finished lib q href (completed lib) past body → (∀ s ∈ past, s.call.method ≠ .put) →
      Due q began past (q.updateCall href)
  | download (href : String) (body : Json) (earlier downloads : List Sent) :
      past = earlier ++ downloads → Accepted lib q earlier href → Settled lib q href earlier body →
      (∀ s ∈ earlier, s.call ≠ q.downloadCall href) → AllFor (q.downloadCall href) downloads →
      downloads.length ≤ 1 → Due q began past (q.downloadCall href)
  | delete (href : String) (body : Json) (rows : List Json) : q.deleteAfter = true →
      Accepted lib q past href → Settled lib q href past body → Downloaded lib q href body past rows →
      Due q began past (deleteCall href)

/-- What a result is worth: it is what the file of the query holds, none of it missing. -/
structure Complete (q : Query) (log : List Sent) (result : Result) : Prop where
  whole : ∃ href body past deletes, log = past ++ deletes ∧ AllFor (deleteCall href) deletes ∧
    Accepted lib q past href ∧ Settled lib q href past body ∧
    Downloaded lib q href body past result.rows ∧ result = resultOf q body result.rows
  flows : ∀ n, result.flowsCount = some n → n ≤ result.rows.length
  matching : result.flowsCount = none → ∀ n, result.matchesCount = some n → 0 < n → result.rows ≠ []
  capped : result.capped = true ↔ q.maxResults ≤ result.rows.length ∨
    ∃ n, result.matchesCount = some n ∧ q.maxResults ≤ n

/-- What holds of a run of a query. -/
structure Honest (q : Query) (began : Rat) (visited : List World)
    (ended : Option (Except Raised Result × List Answer)) : Prop where
  orderly : ∀ w ∈ World.start began :: visited, Orderly (Due lib q began) w
  complete : ∀ result rest, ended = some (.ok result, rest) →
    Complete lib q (sents (lastState (World.start began) visited).log) result

/-! ## The steps of a query -/

section Course

variable {lib : Library} {q : Query} {began : Rat} {past : List Sent} {href : String}

theorem Accepted.append (h : Accepted lib q past href) (more : List Sent) :
    Accepted lib q (past ++ more) href := by
  obtain ⟨timeout, resp, hmem, hreply⟩ := h
  exact ⟨timeout, resp, List.mem_append_left _ hmem, hreply⟩

theorem Finished.append {finished : Json → Bool} {body : Json}
    (h : Finished lib q href finished past body) (more : List Sent) :
    Finished lib q href finished (past ++ more) body := by
  obtain ⟨timeout, resp, hmem, hbody⟩ := h
  exact ⟨timeout, resp, List.mem_append_left _ hmem, hbody⟩

theorem Settled.append {body : Json} (h : Settled lib q href past body) (more : List Sent) :
    Settled lib q href (past ++ more) body := by
  rw [Settled] at h ⊢
  split at h
  · rename_i hdraft
    rw [if_pos hdraft]
    obtain ⟨before, timeout, put, after, rfl, hput, hfinished⟩ := h
    exact ⟨before, timeout, put, after ++ more, by rw [List.append_assoc, List.cons_append], hput,
      hfinished.append more⟩
  · rename_i hdraft
    rw [if_neg hdraft]
    exact h.append more

theorem pollReply_some {stage : Stage} {finished : Json → Bool} {resp : Response} {body : Json}
    (h : pollReply lib stage finished resp = .ok (some body)) :
    resp.status = 200 ∧ lib.loads resp.body = some body ∧ statusOf lib body ∉ failedStates ∧
      finished body = true := by
  rw [pollReply] at h
  split at h
  · rename_i hstatus
    split at h
    · cases h
    · rename_i body' hloads
      split at h
      · cases h
      split at h
      · cases h
      · rename_i hfailed
        split at h
        · cases h
        · split at h
          · rename_i hfinished
            obtain rfl := Option.some.inj (Except.ok.inj h)
            exact ⟨hstatus, hloads, hfailed, hfinished⟩
          · exact absurd (Except.ok.inj h) (by simp)
  · split at h
    · exact absurd (Except.ok.inj h) (by simp)
    · cases h

theorem polls_append_all {more : List Sent} (h : AllFor (q.pollCall href) more) :
    polls href (past ++ more) = polls href past + more.length := by
  have hmore : more.countP (fun s => s.call.method = .get ∧ s.call.path = href) = more.length := by
    refine List.countP_eq_length.mpr fun s hs => ?_
    rw [h s hs]
    exact decide_eq_true ⟨rfl, rfl⟩
  rw [polls, List.countP_append, hmore]
  rfl

/-- After a round of polls, the first `k` of them without a wait. -/
def Paced (q : Query) (began : Rat) (href : String) (k : Nat) (past : List Sent) (t : Rat) : Prop :=
  Reached q.deadline (began + 2 * ((polls href past : Rat) - k)) t

/-- What a round of polls has sent so far. -/
def Polling (q : Query) (began : Rat) (href : String) (k : Nat) (past : List Sent) (wait : Rat)
    (w : World) : Prop :=
  2 ≤ wait ∧ ∃ more t, AllFor (q.pollCall href) more ∧ Since t (past ++ more) w ∧
    Paced q began href k (past ++ more) t

/-- The end of a round of polls. -/
def Polled (lib : Library) (q : Query) (began : Rat) (href : String) (k : Nat) (finished : Json → Bool)
    (past : List Sent) (body : Json) (w : World) : Prop :=
  ∃ more t, AllFor (q.pollCall href) more ∧ Since t (past ++ more) w ∧
    Finished lib q href finished more body ∧ Paced q began href (k + 1) (past ++ more) t

/-- After a poll and the wait. -/
theorem Paced.next {k : Nat} {now wait : Rat} {s : Sent} (hs : s.call = q.pollCall href)
    (h : began + 2 * ((polls href past : Rat) - k) ≤ now) (hwait : 2 ≤ wait) :
    Paced q began href k (past ++ [s]) (now + max (min wait (max (q.deadline - now) 0)) 0) := by
  have hcount : began + 2 * ((polls href (past ++ [s]) : Rat) - k) =
      began + 2 * ((polls href past : Rat) - k) + 2 := by
    rw [polls_append_all (allFor_single hs), List.length_singleton, Nat.cast_add, Nat.cast_one]
    ring
  rw [Paced, hcount]
  exact reached_sleep h hwait

theorem keeping_pollTurn {stage : Stage} {finished : Json → Bool} {k : Nat} (hk : k ≤ 1)
    (haccepted : Accepted lib q past href) (wait : Rat) :
    Keeping (Due lib q began) (Polling q began href k past wait)
      (pollTurn lib q href stage finished wait) (fun r w =>
        match r with
        | .inl next => Polling q began href k past next w
        | .inr body => Polled lib q began href k finished past body w) fun _ _ => True := by
  refine keeping_fact (fun w hw => hw.1) fun hwait => ?_
  refine keeping_weaken (P := fun w => ∃ more t, AllFor (q.pollCall href) more ∧
    Since t (past ++ more) w ∧ Paced q began href k (past ++ more) t) ?_ (fun w hw => hw.2)
    (fun _ _ h => h) fun _ _ h => h
  refine keeping_some fun more => keeping_some fun t => ?_
  refine keeping_fact (fun w hw => hw.1) fun hmore => keeping_fact (fun w hw => hw.2.2) fun hpaced => ?_
  refine keeping_weaken (P := Since t (past ++ more)) ?_ (fun w hw => hw.2.1) (fun _ _ h => h)
    fun _ _ h => h
  refine keeping_bind keeping_monotonic fun now => ?_
  refine keeping_ite (fun _ => keeping_throw fun _ _ => trivial) fun hleft => ?_
  refine keeping_fact (fun w hw => hw.1) fun hnow => ?_
  -- the deadline is not over, so the polls so far took their time
  have hpace : began + 2 * ((polls href (past ++ more) : Rat) - k) ≤ now := by
    rcases hpaced with hover | hpace
    · exact absurd (sub_nonpos.mpr (hover.trans hnow)) hleft
    · exact hpace.trans hnow
  have hdue : Due lib q began (past ++ more) (q.pollCall href) := by
    refine .poll href (haccepted.append more) ?_
    have hk' : (k : Rat) ≤ 1 := by exact_mod_cast hk
    linarith
  refine keeping_weaken (P := Since now (past ++ more)) ?_ (fun w hw => hw.2.1) (fun _ _ h => h)
    fun _ _ h => h
  refine keeping_bind (keeping_weaken (keeping_request_once hdue Method.noConfusion) (fun _ h => h)
    (fun _ _ h => h) fun _ _ _ => trivial) fun resp => ?_
  refine keeping_some fun timeout => ?_
  have hall : AllFor (q.pollCall href) (more ++ [⟨q.pollCall href, timeout, .ok resp⟩]) :=
    hmore.append (allFor_single rfl)
  rw [List.append_assoc]
  refine keeping_bind (Q := fun answer w =>
    Since now (past ++ (more ++ [⟨q.pollCall href, timeout, .ok resp⟩])) w ∧
      pollReply lib stage finished resp = .ok answer) ?_ fun answer => ?_
  · refine keeping_ofExcept fun w hw => ?_
    cases hreply : pollReply lib stage finished resp with
    | ok answer => exact ⟨hw, rfl⟩
    | error e => trivial
  refine keeping_fact (fun w hw => hw.2) fun hreply => ?_
  cases answer with
  | some body =>
      refine keeping_pure fun w hw => ⟨_, now, hall, hw.1, ?_, Or.inr ?_⟩
      · exact ⟨timeout, resp, List.mem_append_right _ (List.mem_singleton.mpr rfl), pollReply_some hreply⟩
      · have hone : AllFor (q.pollCall href) [⟨q.pollCall href, timeout, .ok resp⟩] := allFor_single rfl
        have hcount : polls href (past ++ more ++ _) = _ := polls_append_all hone
        rw [← List.append_assoc, hcount, Nat.cast_add, Nat.cast_add]
        simp only [List.length_singleton, Nat.cast_one]
        linarith
  | none =>
      refine keeping_weaken (P := Since now (past ++ (more ++ [⟨q.pollCall href, timeout, .ok resp⟩])))
        ?_ (fun w hw => hw.1) (fun _ _ h => h) fun _ _ h => h
      refine keeping_bind keeping_monotonic fun later => ?_
      refine keeping_fact (fun w hw => hw.1) fun hlater => ?_
      refine keeping_weaken (P := Since later (past ++ (more ++ [⟨q.pollCall href, timeout, .ok resp⟩])))
        ?_ (fun w hw => hw.2.1) (fun _ _ h => h) fun _ _ h => h
      refine keeping_bind (keeping_sleep _) fun _ => keeping_pure fun w hw => ⟨?_, _, _, hall, hw, ?_⟩
      · refine le_min ?_ (by rw [pollMax]; norm_num)
        rw [pollFactor]
        linarith
      · rw [← List.append_assoc]
        exact Paced.next rfl (hpace.trans hlater) hwait

/-- A round of polls, after `k` others. -/
theorem keeping_poll {stage : Stage} {finished : Json → Bool} {k : Nat} (hk : k ≤ 1)
    (haccepted : Accepted lib q past href) {t : Rat} (hpaced : Paced q began href k past t) :
    Keeping (Due lib q began) (Since t past) (poll lib q href stage finished)
      (Polled lib q began href k finished past) fun _ _ => True := by
  refine keeping_weaken (keeping_loop (I := Polling q began href k past) (fun wait => ?_) pollStart) ?_
    (fun _ _ h => h) fun _ _ h => h
  · refine keeping_weaken (keeping_pollTurn hk haccepted wait) (fun _ h => h) ?_ fun _ _ h => h
    rintro (next | body) w hw
    · exact hw
    · exact hw
  intro w hw
  refine ⟨le_refl _, [], t, allFor_nil _, ?_, ?_⟩
  · rwa [List.append_nil]
  · rwa [List.append_nil]

theorem polls_of_ne {more : List Sent} (h : ∀ s ∈ more, s.call.method ≠ .get) :
    polls href (past ++ more) = polls href past := by
  have hmore : more.countP (fun s => s.call.method = .get ∧ s.call.path = href) = 0 :=
    List.countP_eq_zero.mpr fun s hs hget => h s hs (of_decide_eq_true hget).1
  rw [polls, List.countP_append, hmore]
  rfl

/-- The submit, and what the PCE names the query. -/
theorem keeping_submit : Keeping (Due lib q began) (Since began []) (submit lib q)
    (fun href w => ∃ posts, AllFor q.submitCall posts ∧ Accepted lib q posts href ∧
      Since began posts w) fun _ _ => True := by
  have hdue : Due lib q began [] q.submitCall := .submit rfl
  have hrequest : Keeping _ (Since began []) (request lib q.submitCall) _ _ :=
    keeping_request hdue fun _ timeout resp h429 => .again timeout resp rfl h429
  refine keeping_bind (keeping_weaken hrequest (fun _ h => h) (fun _ _ h => h) fun _ _ _ => trivial)
    fun resp => ?_
  refine keeping_ofExcept fun w hw => ?_
  obtain ⟨posts, hanswered, hsince⟩ := hw
  cases hreply : submitReply lib resp with
  | error e => trivial
  | ok href =>
      refine ⟨posts, hanswered.allFor, ?_, hsince⟩
      obtain ⟨earlier, timeout, rfl, -⟩ := hanswered
      exact ⟨timeout, resp, List.mem_append_right _ (List.mem_singleton.mpr rfl), hreply⟩

/-- After the first round of polls, and a second one where draft decisions are asked for. -/
theorem keeping_computeDraft {status : Json} (haccepted : Accepted lib q past href)
    (hfinished : Finished lib q href (completed lib) past status)
    (hput : ∀ s ∈ past, s.call.method ≠ .put) {t : Rat} (hpaced : Paced q began href 1 past t) :
    Keeping (Due lib q began) (Since t past) (computeDraft lib q href status)
      (fun body w => ∃ more t, Since t (past ++ more) w ∧ Settled lib q href (past ++ more) body ∧
        ∀ s ∈ more, s.call ≠ q.downloadCall href) fun _ _ => True := by
  refine keeping_ite (fun hdraft => ?_) fun hdraft => keeping_pure fun w hw => ?_
  · have hdue : Due lib q began past (q.updateCall href) := .update href status hdraft haccepted hfinished hput
    refine keeping_bind (keeping_weaken (keeping_request_once hdue Method.noConfusion) (fun _ h => h)
      (fun _ _ h => h) fun _ _ _ => trivial) fun put => ?_
    refine keeping_some fun timeout => ?_
    have hnotGet : ∀ s ∈ [(⟨q.updateCall href, timeout, .ok put⟩ : Sent)], s.call.method ≠ .get := by
      intro s hs
      rw [List.mem_singleton.mp hs]
      exact Method.noConfusion
    refine keeping_bind (Q := fun _ w => Since t (past ++ [⟨q.updateCall href, timeout, .ok put⟩]) w ∧
      put.status ∈ [200, 202, 204]) ?_ fun _ => ?_
    · refine keeping_ofExcept fun w hw => ?_
      rw [updateReply]
      split
      · exact ⟨hw, ‹_›⟩
      · trivial
    refine keeping_fact (fun w hw => hw.2) fun hupdated => ?_
    have hpaced' : Paced q began href 1 (past ++ [⟨q.updateCall href, timeout, .ok put⟩]) t := by
      rw [Paced, polls_of_ne hnotGet]
      exact hpaced
    refine keeping_weaken (keeping_poll (le_refl 1) (haccepted.append _) hpaced') (fun w hw => hw.1) ?_
      fun _ _ h => h
    rintro body w ⟨more, t', hmore, hsince, hbody, -⟩
    refine ⟨⟨q.updateCall href, timeout, .ok put⟩ :: more, t', ?_, ?_, ?_⟩
    · rwa [List.append_cons]
    · rw [Settled, if_pos hdraft]
      exact ⟨past, timeout, put, more, rfl, hupdated, hbody⟩
    · intro s hs hcall
      rcases List.mem_cons.mp hs with rfl | hs
      · exact Method.noConfusion (congrArg Call.method hcall)
      · -- a poll is not given the time of a download
        have htime := congrArg Call.timeout ((hmore s hs).symm.trans hcall)
        exact absurd htime (show (30 : Rat) ≠ 300 by norm_num)
  · refine ⟨[], t, ?_, ?_, fun s hs => absurd hs List.not_mem_nil⟩
    · rwa [List.append_nil]
    · rw [List.append_nil, Settled, if_neg hdraft]
      exact hfinished

section Download

variable {body : Json} (haccepted : Accepted lib q past href) (hsettled : Settled lib q href past body)
  (hnone : ∀ s ∈ past, s.call ≠ q.downloadCall href)

include haccepted hsettled hnone

theorem keeping_download {downloads : List Sent} (hall : AllFor (q.downloadCall href) downloads)
    (hfew : downloads.length ≤ 1) {t : Rat} :
    Keeping (Due lib q began) (Since t (past ++ downloads)) (download lib q href)
      (fun rows w => ∃ timeout resp, resp.status = 200 ∧ parseDownload lib resp.body = some rows ∧
        Since t (past ++ (downloads ++ [⟨q.downloadCall href, timeout, .ok resp⟩])) w)
      fun _ _ => True := by
  have hdue : Due lib q began (past ++ downloads) (q.downloadCall href) :=
    .download href body past downloads rfl haccepted hsettled hnone hall hfew
  refine keeping_bind (keeping_weaken (keeping_request_once hdue Method.noConfusion) (fun _ h => h)
    (fun _ _ h => h) fun _ _ _ => trivial) fun resp => ?_
  refine keeping_ofExcept fun w hw => ?_
  obtain ⟨timeout, hsince⟩ := hw
  rw [downloadReply]
  split
  · rename_i hstatus
    split
    · trivial
    · rename_i rows hrows
      refine ⟨timeout, resp, hstatus, hrows, ?_⟩
      rwa [← List.append_assoc]
  · trivial

/-- A file that is not short, of the first download or the second. -/
theorem keeping_downloadWhole {t : Rat} :
    Keeping (Due lib q began) (Since t past)
      (downloadWhole lib q href (body.get "flows_count") (body.get "matches_count"))
      (fun rows w => ∃ more t, Since t (past ++ more) w ∧
        Downloaded lib q href body (past ++ more) rows) fun _ _ => True := by
  have hfirst := @keeping_download lib q began past href body haccepted hsettled hnone [] (allFor_nil _)
    (Nat.zero_le 1) t
  rw [List.append_nil] at hfirst
  refine keeping_bind hfirst fun rows => ?_
  refine keeping_some fun timeout => keeping_some fun resp => ?_
  refine keeping_ite (fun _ => ?_) fun hwhole => keeping_pure fun w hw => ?_
  · refine keeping_weaken (P := Since t (past ++ [⟨q.downloadCall href, timeout, .ok resp⟩])) ?_
      (fun w hw => hw.2.2) (fun _ _ h => h) fun _ _ h => h
    refine keeping_bind (keeping_sleep _) fun _ => ?_
    have hone : AllFor (q.downloadCall href) [⟨q.downloadCall href, timeout, .ok resp⟩] := allFor_single rfl
    refine keeping_bind (keeping_download haccepted hsettled hnone hone (le_refl 1)) fun rows' => ?_
    refine keeping_ite (fun _ => keeping_throw fun _ _ => trivial) fun hwhole => keeping_pure fun w hw => ?_
    obtain ⟨timeout', resp', hstatus, hrows, hsince⟩ := hw
    refine ⟨_, _, hsince, _, timeout', resp', (List.append_assoc _ _ _).symm, hstatus, hrows, ?_⟩
    exact Bool.eq_false_iff.mpr hwhole
  · exact ⟨_, t, hw.2.2, past, timeout, resp, rfl, hw.1, hw.2.1, Bool.eq_false_iff.mpr hwhole⟩

end Download

theorem keeping_cleanup {body : Json} {rows : List Json} (haccepted : Accepted lib q past href)
    (hsettled : Settled lib q href past body) (hrows : Downloaded lib q href body past rows) {t : Rat} :
    Keeping (Due lib q began) (Since t past) (cleanup lib q href)
      (fun _ w => ∃ deletes, AllFor (deleteCall href) deletes ∧ Since t (past ++ deletes) w)
      fun _ _ => True := by
  refine keeping_ite (fun hdelete => ?_) fun _ => keeping_pure fun w hw => ?_
  · have hdue : Due lib q began past (deleteCall href) :=
      .delete href body rows hdelete haccepted hsettled hrows
    refine keeping_bind (keeping_caught (keeping_request_once hdue Method.noConfusion))
      fun r => keeping_pure fun w hw => ?_
    cases r with
    | ok resp =>
        obtain ⟨timeout, hsince⟩ := hw
        exact ⟨_, allFor_single rfl, hsince⟩
    | error e => exact hw.2
  · exact ⟨[], allFor_nil _, by rwa [List.append_nil]⟩

/-- What a result says of itself. -/
theorem complete_of {body : Json} {rows : List Json} {deletes : List Sent}
    (hdeletes : AllFor (deleteCall href) deletes) (haccepted : Accepted lib q past href)
    (hsettled : Settled lib q href past body) (hrows : Downloaded lib q href body past rows) :
    Complete lib q (past ++ deletes) (resultOf q body rows) := by
  have hwhole : short rows (body.get "flows_count") (body.get "matches_count") = false := by
    obtain ⟨_, _, _, _, _, _, hwhole⟩ := hrows
    exact hwhole
  refine ⟨⟨href, body, past, deletes, rfl, hdeletes, haccepted, hsettled, hrows, rfl⟩, ?_, ?_, ?_⟩
  · intro n hn
    have hflows : intOf (body.get "flows_count") = some n := hn
    simp only [short, hflows, decide_eq_false_iff_not, not_lt] at hwhole
    exact hwhole
  · intro hnone n hn hpos hempty
    have hflows : intOf (body.get "flows_count") = none := hnone
    have hmatches : intOf (body.get "matches_count") = some n := hn
    obtain rfl : rows = [] := hempty
    simp [short, hflows, hmatches, hpos.not_ge] at hwhole
  · rw [resultOf, Bool.or_eq_true, decide_eq_true_iff, Option.any_eq_true]
    simp only [decide_eq_true_iff]

theorem keeping_runTrafficQuery : Keeping (Due lib q began) (Since began [])
    (runTrafficQuery lib q) (fun result w => Complete lib q (sents w.log) result)
    fun _ _ => True := by
  refine keeping_bind keeping_submit fun href => ?_
  refine keeping_some fun posts => ?_
  refine keeping_fact (fun w hw => hw.1) fun hposts => keeping_fact (fun w hw => hw.2.1) fun haccepted => ?_
  have hnotGet : ∀ s ∈ posts, s.call.method ≠ .get := by
    intro s hs
    rw [hposts s hs]
    exact Method.noConfusion
  have hpaced : Paced q began href 0 posts began := by
    have hpolls : polls href ([] ++ posts) = 0 := polls_of_ne hnotGet
    rw [List.nil_append] at hpolls
    rw [Paced, hpolls]
    exact Or.inr (by norm_num)
  refine keeping_bind (keeping_weaken (keeping_poll (Nat.zero_le 1) haccepted hpaced) (fun w hw => hw.2.2)
    (fun _ _ h => h) fun _ _ h => h) fun status => ?_
  refine keeping_some fun more => keeping_some fun t => ?_
  refine keeping_fact (fun w hw => hw.1) fun hmore => keeping_fact (fun w hw => hw.2.2) fun hpolled => ?_
  obtain ⟨hfinished, hpaced'⟩ := hpolled
  have hfinished' : Finished lib q href (completed lib) (posts ++ more) status := by
    obtain ⟨timeout, resp, hmem, hbody⟩ := hfinished
    exact ⟨timeout, resp, List.mem_append_right _ hmem, hbody⟩
  have hput : ∀ s ∈ posts ++ more, s.call.method ≠ .put := by
    intro s hs
    rcases List.mem_append.mp hs with hs | hs
    · rw [hposts s hs]
      exact Method.noConfusion
    · rw [hmore s hs]
      exact Method.noConfusion
  have hnone : ∀ s ∈ posts ++ more, s.call ≠ q.downloadCall href := by
    intro s hs hcall
    rcases List.mem_append.mp hs with hs | hs
    · exact Method.noConfusion (congrArg Call.method ((hposts s hs).symm.trans hcall))
    · have htime := congrArg Call.timeout ((hmore s hs).symm.trans hcall)
      exact absurd htime (show (30 : Rat) ≠ 300 by norm_num)
  refine keeping_bind (keeping_weaken (keeping_computeDraft (haccepted.append more) hfinished' hput hpaced')
    (fun w hw => hw.2.1) (fun _ _ h => h) fun _ _ h => h) fun body => ?_
  refine keeping_some fun draft => keeping_some fun t' => ?_
  refine keeping_fact (fun w hw => hw.2.1) fun hsettled => keeping_fact (fun w hw => hw.2.2) fun hdraft => ?_
  have haccepted' : Accepted lib q (posts ++ more ++ draft) href := (haccepted.append more).append draft
  have hnone' : ∀ s ∈ posts ++ more ++ draft, s.call ≠ q.downloadCall href := by
    intro s hs
    exact (List.mem_append.mp hs).elim (hnone s) (hdraft s)
  refine keeping_bind (keeping_weaken (keeping_downloadWhole haccepted' hsettled hnone')
    (fun w hw => hw.1) (fun _ _ h => h) fun _ _ h => h) fun rows => ?_
  refine keeping_some fun downloads => keeping_some fun t'' => ?_
  refine keeping_fact (fun w hw => hw.2) fun hrows => ?_
  refine keeping_bind (keeping_weaken (keeping_cleanup (haccepted'.append downloads)
    (hsettled.append downloads) hrows) (fun w hw => hw.1) (fun _ _ h => h) fun _ _ h => h) fun _ => ?_
  refine keeping_pure fun w hw => ?_
  obtain ⟨deletes, hdeletes, hsince⟩ := hw
  rw [hsince.2]
  exact complete_of hdeletes (haccepted'.append downloads) (hsettled.append downloads) hrows

end Course

end IllumioOps.AsyncQuery
