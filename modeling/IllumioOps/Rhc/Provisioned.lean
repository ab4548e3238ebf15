import IllumioOps.Json.Text
import IllumioOps.Rhc.Enable
import Mathlib.Data.List.TakeWhile

/-!
# What is provisioned was read to agree

`Careful` is what a run should be: it provisions only what it read to agree, it writes nothing after a
refusal and nothing where a draft is pending, and the steps it reports are those the PCE confirmed. A run is
careful if and only if the last two reads were answered with a status of 200 where it comes as far as the
provision (`careful_iff`); all the rest of `Careful` holds of every run.
-/

set_option autoImplicit false

namespace IllumioOps.Rhc

open Programs Programs.Attempt PceWrites

/-! ## What an answer is -/

/-- The settings an answer carries: an object, with the status of an answer that was not refused. -/
def settingsOf : Reply → Option Fields
  | .answered status _ json => if status = 200 then fieldsOf json else none
  | .lost _ => none

/-- The object in the body of an answer, whatever its status. -/
def objectOf : Reply → Option Fields
  | .answered _ _ json => fieldsOf json
  | .lost _ => none

/-- A `PUT` that the PCE took. -/
def accepted : Reply → Bool
  | .answered status _ _ => status == 200 || status == 204
  | .lost _ => false

def created : Reply → Bool
  | .answered status _ _ => status == 201
  | .lost _ => false

/-- The step that the answer to a write confirms. -/
def confirms (e : Event) : Option Step :=
  match e.call with
  | .putTemplate => if accepted e.reply then some .template else none
  | .putDraft => if accepted e.reply then some .draft else none
  | .provision => if created e.reply then some .provisioned else none
  | .getTemplate | .getActive | .getDraft => none

/-! ## A careful run -/

/-- What the last call of a kind was answered with. -/
def lastSettings (call : Call) (events : List Event) : Option Fields :=
  (events.reverse.find? (·.call = call)).bind fun e => settingsOf e.reply

/-- The last reads agree on everything but the bookkeeping fields and our own scopes. -/
def Agreed (same : Fields → Fields → Bool) (events : List Event) : Prop :=
  ∃ active draft, lastSettings .getActive events = some active ∧
    lastSettings .getDraft events = some draft ∧ same (fwContent active) (fwContent draft) = true

/-- What was asked before the first write. -/
def opening (events : List Event) : List Event := events.takeWhile fun e => !e.call.isWrite

/-- What a run should be, short of what it provisions. -/
structure Accounted (events : List Event) (done : List Step) : Prop where
  /-- A refusal or an unexpected answer before the first write leads to no write. -/
  refused : ∀ e ∈ opening events, settingsOf e.reply = none → ∀ w ∈ events, w.call.isWrite = false
  /-- The draft was read before it was written or provisioned, and was not pending. -/
  clear : ∀ w ∈ events, w.call = .putDraft ∨ w.call = .provision →
    (∃ e ∈ opening events, e.call = .getDraft) ∧
      ∀ e ∈ opening events, e.call = .getDraft → ∃ fields, settingsOf e.reply = some fields ∧
        pending fields = false
  confirmed : done = events.filterMap confirms

structure Careful (same : Fields → Fields → Bool) (events : List Event) (done : List Step) : Prop
    extends Accounted events done where
  agreed : ∀ before e, before ++ [e] <+: events → e.call = .provision → Agreed same before

/-! ## A run under way -/

/-- What holds until the provision is sent: the reads before the first write found nothing that stops the
run, and `drafted` says that the draft is among them. -/
structure Going (drafted : Bool) (s : Run) : Prop where
  read : ∀ e ∈ opening s.events, ∃ fields, settingsOf e.reply = some fields ∧
    (e.call = .getDraft → pending fields = false)
  draft : drafted = true → ∃ e ∈ opening s.events, e.call = .getDraft
  wrote : drafted = false → ∀ e ∈ s.events, e.call ≠ .putDraft
  unprovisioned : ∀ e ∈ s.events, e.call ≠ .provision
  confirmed : s.done = s.events.filterMap confirms

def Unwritten (s : Run) : Prop := ∀ e ∈ s.events, e.call.isWrite = false

def Written (s : Run) : Prop := ∃ e ∈ s.events, e.call.isWrite = true

theorem isWrite_provision : Call.provision.isWrite = true := by decide

theorem isWrite_putDraft : Call.putDraft.isWrite = true := by decide

theorem isWrite_putTemplate : Call.putTemplate.isWrite = true := by decide

theorem confirms_of_read {e : Event} (h : e.call.isWrite = false) : confirms e = none := by
  obtain ⟨call, sent, reply⟩ := e
  cases call with
  | getTemplate | getActive | getDraft => rfl
  | putTemplate => exact absurd h (by rw [isWrite_putTemplate]; exact Bool.noConfusion)
  | putDraft => exact absurd h (by rw [isWrite_putDraft]; exact Bool.noConfusion)
  | provision => exact absurd h (by rw [isWrite_provision]; exact Bool.noConfusion)

theorem opening_of_unwritten {s : Run} (h : Unwritten s) : opening s.events = s.events :=
  List.takeWhile_eq_self_iff.mpr fun e he => by rw [h e he]; rfl

/-- A write does not change what came before the first one. -/
theorem opening_append_write {events : List Event} {e : Event} (h : e.call.isWrite = true) :
    opening (events ++ [e]) = opening events := by
  induction events with
  | nil => simp [opening, h]
  | cons f events ih =>
      by_cases hf : f.call.isWrite = true
      · simp [opening, hf]
      · simp only [opening, List.cons_append] at ih ⊢
        rw [List.takeWhile_cons_of_pos (by simpa using hf),
          List.takeWhile_cons_of_pos (by simpa using hf), ih]

theorem opening_append_of_written {events more : List Event}
    (h : ∃ e ∈ events, e.call.isWrite = true) : opening (events ++ more) = opening events := by
  induction events with
  | nil =>
      obtain ⟨e, he, -⟩ := h
      exact absurd he List.not_mem_nil
  | cons f events ih =>
      by_cases hf : f.call.isWrite = true
      · simp [opening, hf]
      · obtain ⟨e, he, hwrite⟩ := h
        have hrest : ∃ e ∈ events, e.call.isWrite = true := by
          rcases List.mem_cons.mp he with rfl | he
          · exact absurd hwrite hf
          · exact ⟨e, he, hwrite⟩
        have hkeep := ih hrest
        simp only [opening, List.cons_append] at hkeep ⊢
        rw [List.takeWhile_cons_of_pos (by simpa using hf),
          List.takeWhile_cons_of_pos (by simpa using hf), hkeep]

variable {same : Fields → Fields → Bool} {cfg : Config} {a : Answers} {s : Run} {drafted : Bool}

/-- A run that wrote nothing yet is careful, whatever it read. -/
theorem careful_of_unwritten (h : Unwritten s) (hdone : s.done = []) :
    Careful same s.events s.done where
  agreed before e hevents hcall := by
    have hread := h e (hevents.subset (List.mem_append_right _ List.mem_cons_self))
    rw [hcall, isWrite_provision] at hread
    exact absurd hread (by decide)
  refused _ _ _ := h
  clear w hw hcall := by
    have hread := h w hw
    rcases hcall with hcall | hcall
    · rw [hcall, isWrite_putDraft] at hread
      exact absurd hread (by decide)
    · rw [hcall, isWrite_provision] at hread
      exact absurd hread (by decide)
  confirmed := by
    rw [hdone, List.filterMap_eq_nil_iff.mpr fun e he => confirms_of_read (h e he)]

/-- A run under way is careful, wherever it stops. -/
theorem Going.careful (h : Going drafted s) : Careful same s.events s.done where
  agreed before e hevents hcall :=
    absurd hcall (h.unprovisioned e
      (hevents.subset (List.mem_append_right _ List.mem_cons_self)))
  refused e he hrefused := by
    obtain ⟨fields, hfields, -⟩ := h.read e he
    rw [hrefused] at hfields
    exact absurd hfields (by simp)
  clear w hw hcall := by
    have hdrafted : drafted = true := by
      rcases hcall with hcall | hcall
      · exact Bool.of_not_eq_false fun hnot => h.wrote hnot w hw hcall
      · exact absurd hcall (h.unprovisioned w hw)
    refine ⟨h.draft hdrafted, fun e he hdraft => ?_⟩
    obtain ⟨fields, hfields, hpending⟩ := h.read e he
    exact ⟨fields, hfields, hpending hdraft⟩
  confirmed := h.confirmed

/-- A read joins the opening while nothing was written. -/
theorem Going.asks (h : Going drafted s) (hnone : Unwritten s) {e : Event} {fields : Fields}
    (hread : e.call.isWrite = false) (hfields : settingsOf e.reply = some fields)
    (hclear : e.call = .getDraft → pending fields = false) :
    Going (drafted || e.call == .getDraft) (s.logged e) ∧ Unwritten (s.logged e) := by
  have hunwritten : Unwritten (s.logged e) := by
    intro f hf
    rcases List.mem_append.mp hf with hf | hf
    · exact hnone f hf
    · rw [List.mem_singleton.mp hf]
      exact hread
  have hbefore := opening_of_unwritten hnone
  have hafter := opening_of_unwritten hunwritten
  refine ⟨⟨fun f hf => ?_, fun hdrafted => ?_, fun _ f hf hput => ?_, fun f hf hcall => ?_, ?_⟩,
    hunwritten⟩
  · rw [hafter] at hf
    rcases List.mem_append.mp hf with hf | hf
    · exact h.read f (by rw [hbefore]; exact hf)
    · rw [List.mem_singleton.mp hf]
      exact ⟨fields, hfields, hclear⟩
  · rw [hafter]
    rcases Bool.or_eq_true_iff.mp hdrafted with hdrafted | hdraft
    · obtain ⟨f, hf, hcall⟩ := h.draft hdrafted
      exact ⟨f, List.mem_append_left _ (by rw [← hbefore]; exact hf), hcall⟩
    · exact ⟨e, List.mem_append_right _ List.mem_cons_self, eq_of_beq hdraft⟩
  · have hread := hunwritten f hf
    rw [hput, isWrite_putDraft] at hread
    exact absurd hread (by decide)
  · have hread := hunwritten f hf
    rw [hcall, isWrite_provision] at hread
    exact absurd hread (by decide)
  · have hnothing := confirms_of_read hread
    simp [Run.logged, h.confirmed, hnothing]

/-- Anything that leaves the opening as it is, short of the provision. -/
theorem Going.goes (h : Going drafted s) {e : Event} {done : List Step}
    (hopening : opening (s.events ++ [e]) = opening s.events)
    (hput : e.call = .putDraft → drafted = true) (hcall : e.call ≠ .provision)
    (hdone : done = s.done ++ (confirms e).toList) :
    Going drafted { s.logged e with done := done } where
  read f hf := h.read f (by rw [← hopening]; exact hf)
  draft hdrafted := by
    have hevents : opening { s.logged e with done := done }.events = opening s.events := hopening
    rw [hevents]
    exact h.draft hdrafted
  wrote hnot f hf hdraft := by
    rcases List.mem_append.mp hf with hf | hf
    · exact h.wrote hnot f hf hdraft
    · rw [List.mem_singleton.mp hf] at hdraft
      rw [hput hdraft] at hnot
      exact absurd hnot (by decide)
  unprovisioned f hf := by
    rcases List.mem_append.mp hf with hf | hf
    · exact h.unprovisioned f hf
    · rw [List.mem_singleton.mp hf]
      exact hcall
  confirmed := by
    have hlast : [e].filterMap confirms = (confirms e).toList := by
      cases hstep : confirms e <;> simp [hstep]
    simp only [Run.logged, List.filterMap_append, hlast, hdone, h.confirmed]

/-! ## How far a run comes -/

/-- The answers under which the provision is sent: the opening finds the scopes off and nothing that
stops it, the writes are accepted, and the last two answers carry objects that agree. -/
structure Reaches (same : Fields → Fields → Bool) (cfg : Config) (a : Answers) : Prop where
  key : cfg.writeKey = true
  read : ∃ tpl fw, settingsOf a.template = some tpl ∧ settingsOf a.active = some fw ∧
    scopesOn fw = false ∧ (((Json.obj tpl).get "enabled").truthy = false →
      a.switchedTemplate = false ∧ accepted a.putTemplate = true)
  clear : ∃ fields, settingsOf a.draft = some fields ∧ pending fields = false
  drafted : a.switchedDraft = false ∧ accepted a.putDraft = true
  agreed : ∃ active draft, objectOf a.activeNow = some active ∧ objectOf a.draftNow = some draft ∧
    same (fwContent active) (fwContent draft) = true
  settled : a.switchedProvision = false

/-- The last two answers are settings, not the bodies of refusals. -/
def Looked (a : Answers) : Prop :=
  (settingsOf a.activeNow).isSome = true ∧ (settingsOf a.draftNow).isSome = true

/-- What is to be shown of a run, where `c` is what is left of `Reaches`. -/
def Settles (same : Fields → Fields → Bool) (a : Answers) (c : Prop) (s : Run) : Prop :=
  Accounted s.events s.done ∧ (Careful same s.events s.done ↔ (c → Looked a))

theorem Settles.mono {c d : Prop} (h : Settles same a c s) (hcd : c ↔ d) : Settles same a d s := by
  rw [Settles, ← hcd]
  exact h

/-- A run that stops carefully short of the provision. -/
theorem settles_of_careful {c : Prop} (h : Careful same s.events s.done) (hnot : ¬ c) :
    Settles same a c s :=
  ⟨h.toAccounted, fun _ hc => absurd hc hnot, fun _ => h⟩

/-! ## The stages -/

/-- After a call the run holds what was asked and answered; a lost answer ends it. -/
theorem leads_request {call : Call} {reply : Reply} {P : Run → Prop} {E : Failure → Run → Prop}
    (hlost : ∀ s error, P s → reply = .lost error →
      E ⟨.unreachable, some error⟩ (s.logged ⟨call, call.body cfg.orgId, reply⟩)) :
    Leads P (request cfg call reply)
      (fun r t => reply = .answered r.status r.text r.json ∧
        ∃ s, P s ∧ t = s.logged ⟨call, call.body cfg.orgId, reply⟩) E := by
  apply leads_bind (Q := fun _ t => ∃ s, P s ∧ t = s.logged ⟨call, call.body cfg.orgId, reply⟩)
  · exact leads_change fun s hs => ⟨s, hs, rfl⟩
  · intro _
    cases reply with
    | lost error =>
        apply leads_fail
        rintro _ ⟨s, hs, rfl⟩
        exact hlost s error hs rfl
    | answered status text json =>
        exact leads_pure fun t ht => ⟨rfl, ht⟩

theorem settingsOf_answered {status : Nat} {text : String} {json : Option Json}
    (h : status = 200) : settingsOf (.answered status text json) = fieldsOf json := if_pos h

theorem settingsOf_refused {status : Nat} {text : String} {json : Option Json}
    (h : status ≠ 200) : settingsOf (.answered status text json) = none := if_neg h

theorem accepted_answered {status : Nat} {text : String} {json : Option Json} :
    accepted (.answered status text json) = true ↔ status = 200 ∨ status = 204 := by
  simp [accepted]

/-- A read that stops the run, while nothing was written, stops it carefully. -/
theorem careful_of_read {e : Event} (hnone : Unwritten s) (hdone : s.done = [])
    (hread : e.call.isWrite = false) : Careful same (s.logged e).events (s.logged e).done := by
  refine careful_of_unwritten (fun f hf => ?_) hdone
  rcases List.mem_append.mp hf with hf | hf
  · exact hnone f hf
  · rw [List.mem_singleton.mp hf]
    exact hread

theorem Going.done_of_unwritten (h : Going drafted s) (hnone : Unwritten s) : s.done = [] := by
  rw [h.confirmed]
  exact List.filterMap_eq_nil_iff.mpr fun e he => confirms_of_read (hnone e he)

/-- The draft is read and is not pending, or the run stops. -/
theorem leads_readDraft (same : Fields → Fields → Bool) :
    Leads (fun s => Going false s ∧ Unwritten s) (readDraft cfg a)
      (fun _ s => (∃ fields, settingsOf a.draft = some fields ∧ pending fields = false) ∧ Going true s)
      (fun _ s => (¬ ∃ fields, settingsOf a.draft = some fields ∧ pending fields = false) ∧
        Careful same s.events s.done) := by
  apply leads_bind
  · apply leads_request
    rintro s error ⟨hgoing, hnone⟩ hlost
    refine ⟨?_, careful_of_read hnone (hgoing.done_of_unwritten hnone) rfl⟩
    rintro ⟨fields, hfields, -⟩
    rw [hlost] at hfields
    exact absurd hfields (by simp [settingsOf])
  · rintro ⟨status, text, json⟩
    apply leads_fact (fun _ h => h.1)
    intro hreply
    -- a draft that is settings, one that is not
    split
    · rename_i body hstatus hbody
      have hsettings : settingsOf a.draft = some body := by
        rw [hreply, settingsOf_answered (eq_of_beq hstatus)]
        exact hbody
      by_cases hpending : pending body = true
      · rw [if_pos hpending]
        apply leads_fail
        rintro _ ⟨-, s, ⟨hgoing, hnone⟩, rfl⟩
        refine ⟨?_, careful_of_read hnone (hgoing.done_of_unwritten hnone) rfl⟩
        rintro ⟨fields, hfields, hclear⟩
        obtain rfl := Option.some.inj (hsettings.symm.trans hfields)
        rw [hpending] at hclear
        exact absurd hclear (by decide)
      · rw [if_neg hpending]
        apply leads_pure
        rintro _ ⟨-, s, ⟨hgoing, hnone⟩, rfl⟩
        have hclear : pending body = false := by simpa using hpending
        have hasked := hgoing.asks (e := ⟨.getDraft, none, a.draft⟩) hnone rfl hsettings
          fun _ => hclear
        exact ⟨⟨body, hsettings, hclear⟩, hasked.1⟩
    · rename_i hnot
      apply leads_fail
      rintro _ ⟨-, s, ⟨hgoing, hnone⟩, rfl⟩
      refine ⟨?_, careful_of_read hnone (hgoing.done_of_unwritten hnone) rfl⟩
      rintro ⟨fields, hfields, -⟩
      by_cases hstatus : status = 200
      · rw [hreply, settingsOf_answered hstatus] at hfields
        exact hnot fields (beq_iff_eq.mpr hstatus) hfields
      · rw [hreply, settingsOf_refused hstatus] at hfields
        exact absurd hfields (by simp)

/-- A write that is not confirmed leaves the run as one under way. -/
theorem Going.refused (h : Going drafted s) {e : Event} (hwrite : e.call.isWrite = true)
    (hput : e.call = .putDraft → drafted = true) (hcall : e.call ≠ .provision)
    (hnone : confirms e = none) : Going drafted (s.logged e) := by
  have hdone : s.done = s.done ++ (confirms e).toList := by rw [hnone]; exact (List.append_nil _).symm
  exact h.goes (opening_append_write hwrite) hput hcall hdone

theorem Going.takes (h : Going drafted s) {e : Event} {step : Step} (hwrite : e.call.isWrite = true)
    (hput : e.call = .putDraft → drafted = true) (hcall : e.call ≠ .provision)
    (hstep : confirms e = some step) : Going drafted ((s.logged e).finished step) := by
  have hdone : s.done ++ [step] = s.done ++ (confirms e).toList := by rw [hstep]; rfl
  exact h.goes (opening_append_write hwrite) hput hcall hdone

/-- A write between the opening and the provision: it is confirmed, or the run stops. `m` is what becomes
of the answer. -/
theorem leads_put {call : Call} {reply : Reply} {step : Step} {switched : Bool}
    {m : Response → Enabling Unit} (hwrite : call.isWrite = true)
    (hput : call = .putDraft → drafted = true) (hcall : call ≠ .provision)
    (hconfirms : ∀ sent, confirms ⟨call, sent, reply⟩ = if accepted reply then some step else none)
    (hfails : ∀ r : Response, r.status ≠ 200 → r.status ≠ 204 → ∃ failure, m r = fail failure)
    (htakes : ∀ r : Response, r.status = 200 ∨ r.status = 204 → m r = change (·.finished step)) :
    Leads (Going drafted)
      (if switched then fail ⟨.pceChanged, none⟩ else request cfg call reply >>= m)
      (fun _ s => (switched = false ∧ accepted reply = true) ∧ Going drafted s ∧ Written s)
      (fun _ s => ¬ (switched = false ∧ accepted reply = true) ∧ Going drafted s) := by
  apply leads_ite
  · intro hswitched
    refine leads_fail fun s hs => ⟨?_, hs⟩
    rintro ⟨hstays, -⟩
    rw [hswitched] at hstays
    exact absurd hstays (by decide)
  intro hstays
  have hstays : switched = false := by simpa using hstays
  have hrefused (hnot : ¬ accepted reply = true) (s : Run) (hs : Going drafted s) :
      ¬ (switched = false ∧ accepted reply = true) ∧
        Going drafted (s.logged ⟨call, call.body cfg.orgId, reply⟩) :=
    ⟨fun h => hnot h.2, hs.refused hwrite hput hcall ((hconfirms _).trans (if_neg hnot))⟩
  apply leads_bind
  · apply leads_request
    intro s error hs hlost
    refine hrefused ?_ s hs
    rw [hlost]
    exact Bool.noConfusion
  · intro r
    apply leads_fact (fun _ h => h.1)
    intro hreply
    by_cases hstatus : r.status = 200 ∨ r.status = 204
    · have haccepted : accepted reply = true := by
        rw [hreply]
        exact accepted_answered.mpr hstatus
      rw [htakes r hstatus]
      apply leads_change
      rintro _ ⟨-, s, hs, rfl⟩
      refine ⟨⟨hstays, haccepted⟩, ?_, ?_⟩
      · exact hs.takes hwrite hput hcall ((hconfirms _).trans (if_pos haccepted))
      · exact ⟨_, List.mem_append_right _ List.mem_cons_self, hwrite⟩
    · obtain ⟨hnot, hnot'⟩ := not_or.mp hstatus
      obtain ⟨failure, hfails⟩ := hfails r hnot hnot'
      rw [hfails]
      apply leads_fail
      rintro _ ⟨-, s, hs, rfl⟩
      refine hrefused ?_ s hs
      rw [hreply, accepted_answered]
      exact hstatus

theorem leads_enableTemplate :
    Leads (Going drafted) (enableTemplate cfg a)
      (fun _ s => (a.switchedTemplate = false ∧ accepted a.putTemplate = true) ∧
        Going drafted s ∧ Written s)
      (fun _ s => ¬ (a.switchedTemplate = false ∧ accepted a.putTemplate = true) ∧
        Going drafted s) := by
  apply leads_put isWrite_putTemplate (by simp) (by simp) (fun _ => rfl)
  · intro r hnot hnot'
    by_cases hdenied : r.status = 403
    · exact ⟨_, if_pos hdenied⟩
    · exact ⟨_, (if_neg hdenied).trans (if_pos ⟨hnot, hnot'⟩)⟩
  · intro r hstatus
    rw [if_neg (by omega), if_neg (by omega)]

theorem leads_writeDraft :
    Leads (Going true) (writeDraft cfg a)
      (fun _ s => (a.switchedDraft = false ∧ accepted a.putDraft = true) ∧ Going true s ∧ Written s)
      (fun _ s => ¬ (a.switchedDraft = false ∧ accepted a.putDraft = true) ∧ Going true s) := by
  apply leads_put isWrite_putDraft (fun _ => rfl) (by simp) (fun _ => rfl)
  · intro r hnot hnot'
    exact ⟨_, if_pos ⟨hnot, hnot'⟩⟩
  · intro r hstatus
    rw [if_neg (by omega)]

/-! ## The provision -/

/-- Once something was written, a read leaves the run as one under way. -/
theorem Going.rereads (h : Going drafted s) (hwritten : Written s) {e : Event}
    (hread : e.call.isWrite = false) : Going drafted (s.logged e) ∧ Written (s.logged e) := by
  have hput : e.call ≠ .putDraft := by
    intro hcall
    rw [hcall, isWrite_putDraft] at hread
    exact absurd hread (by decide)
  have hcall : e.call ≠ .provision := by
    intro hcall
    rw [hcall, isWrite_provision] at hread
    exact absurd hread (by decide)
  have hdone : s.done = s.done ++ (confirms e).toList := by
    rw [confirms_of_read hread]
    exact (List.append_nil _).symm
  refine ⟨h.goes (opening_append_of_written hwritten) (fun h => absurd h hput) hcall hdone, ?_⟩
  obtain ⟨w, hw, hwrite⟩ := hwritten
  exact ⟨w, List.mem_append_left _ hw, hwrite⟩

/-- The run at the provision: the two reads before it are the last ones. -/
theorem agreed_iff {s : Run} {sent sent' : Option Json} {reply reply' : Reply} :
    Agreed same ((s.logged ⟨.getActive, sent, reply⟩).logged ⟨.getDraft, sent', reply'⟩).events ↔
      ∃ active draft, settingsOf reply = some active ∧ settingsOf reply' = some draft ∧
        same (fwContent active) (fwContent draft) = true := by
  have hactive : lastSettings .getActive ((s.logged ⟨.getActive, sent, reply⟩).logged
      ⟨.getDraft, sent', reply'⟩).events = settingsOf reply := by
    simp [lastSettings, Run.logged]
  have hdraft : lastSettings .getDraft ((s.logged ⟨.getActive, sent, reply⟩).logged
      ⟨.getDraft, sent', reply'⟩).events = settingsOf reply' := by
    simp [lastSettings, Run.logged]
  rw [Agreed, hactive, hdraft]

theorem Going.accounted_provision (h : Going true s) {e : Event} (hcall : e.call = .provision)
    {done : List Step} (hdone : done = s.done ++ (confirms e).toList) :
    Accounted (s.logged e).events done := by
  have hopening : opening (s.logged e).events = opening s.events :=
    opening_append_write (by rw [hcall]; exact isWrite_provision)
  refine ⟨fun f hf hrefused => ?_, fun w hw hput => ?_, ?_⟩
  · rw [hopening] at hf
    obtain ⟨fields, hfields, -⟩ := h.read f hf
    rw [hrefused] at hfields
    exact absurd hfields (by simp)
  · rw [hopening]
    refine ⟨h.draft rfl, fun f hf hdraft => ?_⟩
    obtain ⟨fields, hfields, hpending⟩ := h.read f hf
    exact ⟨fields, hfields, hpending hdraft⟩
  · have hlast : [e].filterMap confirms = (confirms e).toList := by
      cases hstep : confirms e <;> simp [hstep]
    simp only [Run.logged, List.filterMap_append, hlast, hdone, h.confirmed]

/-- A run that sends its provision is careful if and only if what it read last before it agrees. -/
theorem Going.provisions (same : Fields → Fields → Bool) (h : Going true s) {e : Event} (hcall : e.call = .provision)
    {done : List Step} (hdone : done = s.done ++ (confirms e).toList) :
    Careful same (s.logged e).events done ↔ Agreed same s.events := by
  constructor
  · intro hafter
    exact hafter.agreed s.events e (List.prefix_refl _) hcall
  · intro hagreed
    have hcareful : Careful same s.events s.done := h.careful
    refine ⟨h.accounted_provision hcall hdone, fun before f hbefore hf => ?_⟩
    rcases List.prefix_concat_iff.mp hbefore with hlast | hearlier
    · rw [(List.append_inj' hlast rfl).1]
      exact hagreed
    · exact hcareful.agreed before f hearlier hf

theorem settingsOf_eq_objectOf {reply : Reply} (h : (settingsOf reply).isSome = true) :
    settingsOf reply = objectOf reply := by
  cases reply with
  | lost error => rfl
  | answered status text json =>
      by_cases hstatus : status = 200
      · exact settingsOf_answered hstatus
      · rw [settingsOf_refused hstatus] at h
        exact absurd h (by decide)

/-- The provision goes out. -/
def Sent (same : Fields → Fields → Bool) (a : Answers) : Prop :=
  (∃ active draft, objectOf a.activeNow = some active ∧ objectOf a.draftNow = some draft ∧
    same (fwContent active) (fwContent draft) = true) ∧ a.switchedProvision = false

/-- Where the provision goes out, the last reads agree if and only if they were looked at. -/
theorem agreed_iff_looked (h : Sent same a) :
    (∃ active draft, settingsOf a.activeNow = some active ∧ settingsOf a.draftNow = some draft ∧
      same (fwContent active) (fwContent draft) = true) ↔ Looked a := by
  obtain ⟨⟨active, draft, hactive, hdraft, hsame⟩, -⟩ := h
  constructor
  · rintro ⟨active', draft', hactive', hdraft', -⟩
    exact ⟨by rw [hactive']; rfl, by rw [hdraft']; rfl⟩
  · rintro ⟨hlooked, hlooked'⟩
    exact ⟨active, draft, (settingsOf_eq_objectOf hlooked).trans hactive,
      (settingsOf_eq_objectOf hlooked').trans hdraft, hsame⟩

theorem leads_provision :
    Leads (fun s => Going true s ∧ Written s) (provision same cfg a)
      (fun _ s => Settles same a (Sent same a) s) (fun _ s => Settles same a (Sent same a) s) := by
  apply leads_bind
  · apply leads_request
    rintro s error ⟨hgoing, hwritten⟩ hlost
    refine settles_of_careful (hgoing.rereads hwritten rfl).1.careful ?_
    rintro ⟨⟨active, draft, hactive, -⟩, -⟩
    rw [hlost] at hactive
    exact absurd hactive (by simp [objectOf])
  intro activeNow
  apply leads_fact (fun _ h => h.1)
  intro hactiveNow
  apply leads_bind
  · apply leads_request
    rintro _ error ⟨-, s, ⟨hgoing, hwritten⟩, rfl⟩ hlost
    obtain ⟨hgoing, hwritten⟩ := hgoing.rereads (e := ⟨.getActive, none, a.activeNow⟩) hwritten rfl
    refine settles_of_careful (hgoing.rereads hwritten rfl).1.careful ?_
    rintro ⟨⟨active, draft, -, hdraft, -⟩, -⟩
    rw [hlost] at hdraft
    exact absurd hdraft (by simp [objectOf])
  intro draftNow
  apply leads_fact (fun _ h => h.1)
  intro hdraftNow
  have hobject : objectOf a.activeNow = activeNow.fields := by rw [hactiveNow]; rfl
  have hobject' : objectOf a.draftNow = draftNow.fields := by rw [hdraftNow]; rfl
  -- from here on both reads are behind the run
  refine leads_weaken (P := fun s => Going true s ∧
    ∃ s₀ : Run, s = (s₀.logged ⟨.getActive, none, a.activeNow⟩).logged ⟨.getDraft, none, a.draftNow⟩)
    ?_ ?_ (fun _ _ h => h) (fun _ _ h => h)
  rotate_left
  · rintro _ ⟨-, s₁, ⟨-, s, ⟨hgoing, hwritten⟩, rfl⟩, rfl⟩
    obtain ⟨hgoing, hwritten⟩ := hgoing.rereads (e := ⟨.getActive, none, a.activeNow⟩) hwritten rfl
    exact ⟨(hgoing.rereads hwritten rfl).1, s, rfl⟩
  have hstops (hnot : ¬ Sent same a) (failure : Failure) :
      Leads (fun s => Going true s ∧ ∃ s₀ : Run,
          s = (s₀.logged ⟨.getActive, none, a.activeNow⟩).logged ⟨.getDraft, none, a.draftNow⟩)
        (fail failure : Enabling Unit) (fun _ s => Settles same a (Sent same a) s)
        (fun _ s => Settles same a (Sent same a) s) :=
    leads_fail fun s hs => settles_of_careful hs.1.careful hnot
  split
  · rename_i active draft hactive hdraft
    rw [hactive] at hobject
    rw [hdraft] at hobject'
    apply leads_ite
    · intro hdiffer
      refine hstops ?_ _
      rintro ⟨⟨active', draft', hactive', hdraft', hsame⟩, -⟩
      obtain rfl := Option.some.inj (hobject.symm.trans hactive')
      obtain rfl := Option.some.inj (hobject'.symm.trans hdraft')
      rw [hsame] at hdiffer
      exact absurd hdiffer (by decide)
    intro hsame
    have hsame : same (fwContent active) (fwContent draft) = true := by simpa using hsame
    apply leads_ite
    · intro hswitched
      refine hstops ?_ _
      rintro ⟨-, hstays⟩
      rw [hswitched] at hstays
      exact absurd hstays (by decide)
    intro hstays
    have hsent : Sent same a := ⟨⟨active, draft, hobject, hobject', hsame⟩, by simpa using hstays⟩
    have hsettles {s : Run} (hs : Going true s ∧ ∃ s₀ : Run,
        s = (s₀.logged ⟨.getActive, none, a.activeNow⟩).logged ⟨.getDraft, none, a.draftNow⟩)
        {done : List Step}
        (hdone : done = s.done ++ (confirms ⟨.provision, Call.provision.body cfg.orgId, a.provision⟩).toList) :
        Settles same a (Sent same a)
          { s.logged ⟨.provision, Call.provision.body cfg.orgId, a.provision⟩ with done := done } := by
      obtain ⟨hgoing, s₀, hreads⟩ := hs
      have hcareful := hgoing.provisions same
        (e := ⟨.provision, Call.provision.body cfg.orgId, a.provision⟩) rfl hdone
      have hagreed : Agreed same s.events ↔ Looked a := by
        rw [hreads, agreed_iff, agreed_iff_looked hsent]
      exact ⟨hgoing.accounted_provision rfl hdone,
        (hcareful.trans hagreed).trans ⟨fun h _ => h, fun h => h hsent⟩⟩
    have hrefused (s : Run) (hnot : ¬ created a.provision = true) :
        s.done = s.done ++
          (confirms ⟨.provision, Call.provision.body cfg.orgId, a.provision⟩).toList := by
      have hnone : confirms ⟨.provision, Call.provision.body cfg.orgId, a.provision⟩ = none :=
        if_neg hnot
      rw [hnone]
      exact (List.append_nil _).symm
    apply leads_bind
    · apply leads_request
      intro s error hs hlost
      refine hsettles hs (hrefused s ?_)
      rw [hlost]
      exact Bool.noConfusion
    · intro r
      apply leads_fact (fun _ h => h.1)
      intro hreply
      apply leads_ite
      · intro hstatus
        apply leads_fail
        rintro _ ⟨-, s, hs, rfl⟩
        refine hsettles hs (hrefused s ?_)
        rw [hreply]
        simpa [created] using hstatus
      · intro hstatus
        apply leads_change
        rintro _ ⟨-, s, hs, rfl⟩
        refine hsettles hs ?_
        have hcreated : created a.provision = true := by
          rw [hreply]
          simpa [created] using hstatus
        have hsome : confirms ⟨.provision, Call.provision.body cfg.orgId, a.provision⟩ =
            some .provisioned := if_pos hcreated
        rw [hsome]
        rfl
  · rename_i hnot
    refine hstops ?_ _
    rintro ⟨⟨active, draft, hactive, hdraft, -⟩, -⟩
    exact hnot active draft (hobject.symm.trans hactive) (hobject'.symm.trans hdraft)

/-! ## The whole run -/

/-- The template and the active settings are there. -/
def Both (a : Answers) : Prop :=
  ∃ tpl fw, settingsOf a.template = some tpl ∧ settingsOf a.active = some fw

theorem not_both_of_template (h : settingsOf a.template = none) : ¬ Both a := by
  rintro ⟨tpl, fw, htpl, -⟩
  rw [h] at htpl
  exact absurd htpl (by simp)

theorem not_both_of_active (h : settingsOf a.active = none) : ¬ Both a := by
  rintro ⟨tpl, fw, -, hfw⟩
  rw [h] at hfw
  exact absurd hfw (by simp)

theorem going_empty : Going false ⟨[], [], []⟩ :=
  ⟨fun _ h => absurd h List.not_mem_nil, fun h => absurd h (by decide),
    fun _ _ h => absurd h List.not_mem_nil, fun _ h => absurd h List.not_mem_nil, rfl⟩

theorem unwritten_empty : Unwritten ⟨[], [], []⟩ := fun _ h => absurd h List.not_mem_nil

theorem bodies_eq_pure {tpl fw : Response} {t f : Fields} (hstatus : tpl.status = 200)
    (hstatus' : fw.status = 200) (htpl : tpl.fields = some t) (hfw : fw.fields = some f) :
    bodies tpl fw = pure (t, f) := by
  simp only [bodies, hstatus, hstatus', htpl, hfw, ne_eq, not_true_eq_false, or_self, if_false]

theorem bodies_eq_fail (tpl fw : Response)
    (h : ¬ (tpl.status = 200 ∧ fw.status = 200 ∧ ∃ t f, tpl.fields = some t ∧ fw.fields = some f)) :
    ∃ failure, bodies tpl fw = fail failure := by
  by_cases hstatus : tpl.status ≠ 200 ∨ fw.status ≠ 200
  · exact ⟨_, if_pos hstatus⟩
  · obtain ⟨htpl, hfw⟩ := not_or.mp hstatus
    simp only [bodies, if_neg hstatus]
    split
    · rename_i t f ht hf
      exact absurd ⟨not_not.mp htpl, not_not.mp hfw, t, f, ht, hf⟩ h
    · exact ⟨_, rfl⟩

/-- Both are read, or the run stops: what was asked is a read, so it wrote nothing. -/
theorem leads_readBoth (same : Fields → Fields → Bool) :
    Leads (fun s => s = ⟨[], [], []⟩) (readBoth cfg a)
      (fun bodies s => (settingsOf a.template = some bodies.1 ∧ settingsOf a.active = some bodies.2) ∧
        Going false s ∧ Unwritten s)
      (fun _ s => ¬ Both a ∧ Careful same s.events s.done) := by
  apply leads_bind
  · apply leads_request
    rintro _ error rfl hlost
    refine ⟨not_both_of_template ?_, careful_of_read unwritten_empty rfl rfl⟩
    rw [hlost]
    rfl
  intro tpl
  apply leads_fact (fun _ h => h.1)
  intro hreply
  have hrefused (hstatus : tpl.status ≠ 200) : settingsOf a.template = none := by
    rw [hreply, settingsOf_refused hstatus]
  apply leads_ite
  · intro hmissing
    apply leads_fail
    rintro _ ⟨-, _, rfl, rfl⟩
    exact ⟨not_both_of_template (hrefused (by omega)), careful_of_read unwritten_empty rfl rfl⟩
  intro _
  apply leads_ite
  · intro hdenied
    apply leads_fail
    rintro _ ⟨-, _, rfl, rfl⟩
    exact ⟨not_both_of_template (hrefused (by omega)), careful_of_read unwritten_empty rfl rfl⟩
  intro _
  by_cases hstatus : tpl.status = 200
  · have htemplate : settingsOf a.template = tpl.fields := by
      rw [hreply, settingsOf_answered hstatus]
      rfl
    have hread : readActive cfg a tpl = request cfg .getActive a.active := if_pos hstatus
    rw [hread]
    have hnone : Unwritten (Run.logged ⟨[], [], []⟩ ⟨.getTemplate, none, a.template⟩) := by
      intro e he
      rw [List.mem_singleton.mp he]
      rfl
    apply leads_bind
    · apply leads_request
      rintro _ error ⟨-, _, rfl, rfl⟩ hlost
      refine ⟨not_both_of_active ?_, careful_of_read hnone rfl rfl⟩
      rw [hlost]
      rfl
    intro fw
    apply leads_fact (fun _ h => h.1)
    intro hreply'
    by_cases hgood : tpl.status = 200 ∧ fw.status = 200 ∧
        ∃ t f, tpl.fields = some t ∧ fw.fields = some f
    · obtain ⟨-, hstatus', t, f, ht, hf⟩ := hgood
      have hactive : settingsOf a.active = some f := by
        rw [hreply', settingsOf_answered hstatus']
        exact hf
      rw [bodies_eq_pure hstatus hstatus' ht hf]
      apply leads_pure
      rintro _ ⟨-, _, ⟨-, _, rfl, rfl⟩, rfl⟩
      obtain ⟨hgoing, hnone⟩ := going_empty.asks (e := ⟨.getTemplate, none, a.template⟩)
        unwritten_empty rfl (htemplate.trans ht) (by simp)
      exact ⟨⟨htemplate.trans ht, hactive⟩, hgoing.asks (e := ⟨.getActive, none, a.active⟩)
        hnone rfl hactive (by simp)⟩
    · obtain ⟨failure, hfail⟩ := bodies_eq_fail tpl fw hgood
      rw [hfail]
      apply leads_fail
      rintro _ ⟨-, _, ⟨-, _, rfl, rfl⟩, rfl⟩
      refine ⟨?_, careful_of_read hnone rfl rfl⟩
      rintro ⟨t, f, ht, hf⟩
      rw [htemplate] at ht
      by_cases hstatus' : fw.status = 200
      · rw [hreply', settingsOf_answered hstatus'] at hf
        exact hgood ⟨hstatus, hstatus', t, f, ht, hf⟩
      · rw [hreply', settingsOf_refused hstatus'] at hf
        exact absurd hf (by simp)
  · have hread : readActive cfg a tpl = pure tpl := if_neg hstatus
    rw [hread]
    apply leads_bind (Q := fun fw s => fw = tpl ∧
      s = Run.logged ⟨[], [], []⟩ ⟨.getTemplate, none, a.template⟩)
    · apply leads_pure
      rintro _ ⟨-, _, rfl, rfl⟩
      exact ⟨rfl, rfl⟩
    intro fw
    obtain ⟨failure, hfail⟩ := bodies_eq_fail tpl fw fun h => hstatus h.1
    rw [hfail]
    apply leads_fail
    rintro _ ⟨-, rfl⟩
    exact ⟨not_both_of_template (hrefused hstatus), careful_of_read unwritten_empty rfl rfl⟩

theorem Going.skips (h : Going drafted s) (steps : List Step) : Going drafted (s.skips steps) :=
  ⟨h.read, h.draft, h.wrote, h.unprovisioned, h.confirmed⟩

/-- What is left of `Reaches` once both were read. -/
def Comes (same : Fields → Fields → Bool) (a : Answers) (needTemplate needVens : Bool) : Prop :=
  needVens = true ∧ (∃ fields, settingsOf a.draft = some fields ∧ pending fields = false) ∧
    (needTemplate = true → a.switchedTemplate = false ∧ accepted a.putTemplate = true) ∧
    (a.switchedDraft = false ∧ accepted a.putDraft = true) ∧ Sent same a

theorem leads_enableHalves {needTemplate needVens : Bool} :
    Leads (fun s => Going false s ∧ Unwritten s) (enableHalves same cfg a needTemplate needVens)
      (fun _ s => Settles same a (Comes same a needTemplate needVens) s)
      (fun _ s => Settles same a (Comes same a needTemplate needVens) s) := by
  apply leads_bind (Q := fun _ s => Going false s ∧ Unwritten s)
  · exact leads_change fun s hs => ⟨hs.1.skips _, hs.2⟩
  intro _
  apply leads_bind (Q := fun _ s => Going false s ∧ Unwritten s)
  · exact leads_change fun s hs => ⟨hs.1.skips _, hs.2⟩
  intro _
  apply leads_bind (Q := fun _ s =>
    (needVens = true → ∃ fields, settingsOf a.draft = some fields ∧ pending fields = false) ∧
      Going needVens s)
  · apply leads_onlyIf
    · rintro rfl
      refine leads_weaken (leads_readDraft same) (fun _ h => h) (fun _ _ h => ⟨fun _ => h.1, h.2⟩) ?_
      rintro _ s ⟨hnot, hcareful⟩
      exact settles_of_careful hcareful fun h => hnot h.2.1
    · rintro rfl s ⟨hs, -⟩
      exact ⟨fun h => absurd h (by decide), hs⟩
  intro _
  apply leads_fact (fun _ h => h.1)
  intro hclear
  apply leads_bind (Q := fun _ s =>
    (needTemplate = true → a.switchedTemplate = false ∧ accepted a.putTemplate = true) ∧
      Going needVens s)
  · apply leads_onlyIf
    · intro hneed
      refine leads_weaken leads_enableTemplate (fun _ h => h.2)
        (fun _ _ h => ⟨fun _ => h.1, h.2.1⟩) ?_
      rintro _ s ⟨hnot, hs⟩
      exact settles_of_careful hs.careful fun h => hnot (h.2.2.1 hneed)
    · rintro hneed s ⟨-, hs⟩
      refine ⟨fun h => ?_, hs⟩
      rw [hneed] at h
      exact absurd h (by decide)
  intro _
  apply leads_fact (fun _ h => h.1)
  intro htemplate
  apply leads_onlyIf
  · rintro rfl
    apply leads_bind
    · refine leads_weaken leads_writeDraft (fun _ h => h.2) (fun _ _ h => h) ?_
      rintro _ s ⟨hnot, hs⟩
      exact settles_of_careful hs.careful fun h => hnot h.2.2.2.1
    intro _
    apply leads_fact (fun _ h => h.1)
    intro hdrafted
    -- all but the last condition is known here
    have hcomes : Sent same a ↔ Comes same a needTemplate true :=
      ⟨fun h => ⟨rfl, hclear rfl, htemplate, hdrafted, h⟩, fun h => h.2.2.2.2⟩
    exact leads_weaken leads_provision (fun _ h => h.2) (fun _ _ h => h.mono hcomes)
      (fun _ _ h => h.mono hcomes)
  · rintro rfl s ⟨-, hs⟩
    exact settles_of_careful hs.careful fun h => absurd h.1 (by decide)

theorem leads_attempt (same : Fields → Fields → Bool) (cfg : Config) (a : Answers) :
    Leads (fun s => s = ⟨[], [], []⟩) (attempt same cfg a)
      (fun _ s => Settles same a (Reaches same cfg a) s)
      (fun _ s => Settles same a (Reaches same cfg a) s) := by
  apply leads_ite
  · intro hnone
    apply leads_fail
    rintro _ rfl
    refine settles_of_careful going_empty.careful fun h => ?_
    rw [h.key] at hnone
    exact absurd hnone (by decide)
  intro hkey
  have hkey : cfg.writeKey = true := by simpa using hkey
  apply leads_bind
  · refine leads_weaken (leads_readBoth same) (fun _ h => h) (fun _ _ h => h) ?_
    rintro _ s ⟨hnot, hcareful⟩
    refine settles_of_careful hcareful fun h => hnot ?_
    obtain ⟨tpl, fw, htpl, hfw, -⟩ := h.read
    exact ⟨tpl, fw, htpl, hfw⟩
  rintro ⟨tpl, fw⟩
  apply leads_fact (fun _ h => h.1)
  rintro ⟨htpl, hfw⟩
  have hreaches : Comes same a (!((Json.obj tpl).get "enabled").truthy) (!scopesOn fw) ↔
      Reaches same cfg a := by
    constructor
    · rintro ⟨hvens, hclear, htemplate, hdrafted, hagreed, hsettled⟩
      refine ⟨hkey, ⟨tpl, fw, htpl, hfw, by simpa using hvens, fun hoff => ?_⟩, hclear, hdrafted,
        hagreed, hsettled⟩
      exact htemplate (by rw [hoff]; rfl)
    · rintro ⟨-, ⟨tpl', fw', htpl', hfw', hvens, htemplate⟩, hclear, hdrafted, hagreed, hsettled⟩
      obtain rfl := Option.some.inj (htpl.symm.trans htpl')
      obtain rfl := Option.some.inj (hfw.symm.trans hfw')
      exact ⟨by rw [hvens]; rfl, hclear, fun hneed => htemplate (by simpa using hneed), hdrafted,
        hagreed, hsettled⟩
  exact leads_weaken leads_enableHalves (fun _ h => h.2) (fun _ _ h => h.mono hreaches)
    (fun _ _ h => h.mono hreaches)

/-- What is shown of every way an attempt ends is shown of the result. -/
theorem settles_enableRhc (same : Fields → Fields → Bool) (cfg : Config) (a : Answers) :
    Accounted (enableRhc same cfg a).2 (enableRhc same cfg a).1.stepsDone ∧
      (Careful same (enableRhc same cfg a).2 (enableRhc same cfg a).1.stepsDone ↔
        (Reaches same cfg a → Looked a)) := by
  obtain ⟨hok, herror⟩ := leads_attempt same cfg a ⟨[], [], []⟩ rfl
  rcases hrun : attempt same cfg a ⟨[], [], []⟩ with ⟨failure | ⟨⟩, run⟩
  · have hresult : enableRhc same cfg a = (⟨false, run.done, run.skipped, some failure⟩, run.events) := by
      simp only [enableRhc, hrun]
    rw [hresult]
    exact herror failure run hrun
  · have hresult : enableRhc same cfg a = (⟨true, run.done, run.skipped, none⟩, run.events) := by
      simp only [enableRhc, hrun]
    rw [hresult]
    exact hok () run hrun

/-- Whatever the PCE answers, nothing is written after a refusal or over a pending draft, and the steps
reported are those it confirmed. -/
theorem accounted_enableRhc (same : Fields → Fields → Bool) (cfg : Config) (a : Answers) :
    Accounted (enableRhc same cfg a).2 (enableRhc same cfg a).1.stepsDone :=
  (settles_enableRhc same cfg a).1

/-- A run is careful if and only if, where it comes as far as the provision, the last two answers were not
refusals. -/
theorem careful_iff (same : Fields → Fields → Bool) (cfg : Config) (a : Answers) :
    Careful same (enableRhc same cfg a).2 (enableRhc same cfg a).1.stepsDone ↔
      (Reaches same cfg a → Looked a) :=
  (settles_enableRhc same cfg a).2

/-! ### A gateway that answers for the PCE -/

def sameText (x y : Fields) : Bool := Json.dumpsFields x == Json.dumpsFields y

def refusal : Reply :=
  .answered 503 "\x7b\"message\": \"unavailable\"\x7d" (some (.obj [("message", .str "unavailable")]))

def someSettings : Reply := .answered 200 "" (some (.obj [("network_security", .str "full")]))

/-- Everything is in order until the last two reads. -/
def unavailable : Answers where
  template := .answered 200 "" (some (.obj [("enabled", .bool true)]))
  active := someSettings
  draft := someSettings
  switchedTemplate := false
  putTemplate := .answered 204 "" none
  switchedDraft := false
  putDraft := .answered 204 "" none
  activeNow := refusal
  draftNow := refusal
  switchedProvision := false
  provision := .answered 201 "" none

def unavailableConfig : Config := ⟨true, false, "1"⟩

def beforeProvision : List Event :=
  [⟨.getTemplate, none, unavailable.template⟩, ⟨.getActive, none, someSettings⟩,
    ⟨.getDraft, none, someSettings⟩, ⟨.putDraft, Call.putDraft.body "1", unavailable.putDraft⟩,
    ⟨.getActive, none, refusal⟩, ⟨.getDraft, none, refusal⟩]

/-- Two refusals with one text are taken for agreement, and the draft is provisioned unread. -/
theorem provisions_unread :
    (enableRhc sameText unavailableConfig unavailable).1.stepsDone = [.draft, .provisioned] ∧
      ¬ Careful sameText (enableRhc sameText unavailableConfig unavailable).2
        (enableRhc sameText unavailableConfig unavailable).1.stepsDone := by
  refine ⟨rfl, fun h => ?_⟩
  obtain ⟨active, draft, hactive, -⟩ := h.agreed beforeProvision
    ⟨.provision, Call.provision.body "1", unavailable.provision⟩ ⟨[], rfl⟩ rfl
  have hnone : lastSettings .getActive beforeProvision = none := rfl
  rw [hnone] at hactive
  exact absurd hactive (by simp)

end IllumioOps.Rhc
