import IllumioOps.Rules.Schedules

/-!
# What a check of a schedule does to the policy

Over every sequence of checks, whatever the PCE answers and whatever others change between two
calls: a check that finds a pending draft writes nothing, and a check provisions and reverts the
scheduled rule set alone. A switch recorded as done was written and provisioned, and an expired
schedule goes only after its target was disabled, when the PCE does not answer the dependency
read like a provision, and, for the record, when the draft and the active version were read with
one value (`checks_keep_policy`).
-/

set_option autoImplicit false

namespace IllumioOps.RuleSchedules

open Programs

/-! ## What justifies an event -/

def Event.writes : Event → Bool
  | .call c => c.writes
  | _ => false

/-- The draft was found pending. -/
abbrev Event.foundPending : Event := .call (.readPending true)

/-- The draft was found not pending. -/
abbrev Event.foundClear : Event := .call (.readPending false)

/-- The action of a switch. -/
def switchAction (want : Bool) : Action := if want then .enable else .disable

/-- The value was written to the draft, and a provision of the rule set answered 201. -/
def SwitchedTo (t : Target) (want : Bool) (events : List Event) : Prop :=
  (∃ applied, .call (.wrote t (.enabled want) (some 204) applied) ∈ events) ∧
    ∃ applied, .call (.provisioned [t.rulesetOf] (some 201) applied) ∈ events

/-- The draft and the active version were read with one value. -/
def ReadsAgree (events : List Event) : Prop :=
  ∀ draft active, .call (.readDraft draft) ∈ events → .call (.readActive active) ∈ events →
    draft = active

/-- No dependency read was answered like a provision. -/
def ReadsNotCreated (events : List Event) : Prop :=
  ∀ ruleset others, .call (.dependencies ruleset (some 201) others) ∉ events

/-- What the events of a check before one of them have to show. -/
def Justified (t : Target) (before : List Event) : Event → Prop
  | .call (.readPending _) => ∀ e ∈ before, e.writes = false
  | .call (.wrote _ _ _ _) => .foundPending ∉ before
  | .call (.provisioned subset _ _) => .foundPending ∉ before ∧ subset = [t.rulesetOf] ∧
      .call (.dependencies t.rulesetOf (some 200) []) ∈ before
  | .call (.reverted subset _ _) => .foundPending ∉ before ∧ subset = [t.rulesetOf]
  | .ran r => ReadsAgree before → ReadsNotCreated before → r.result = .ok →
      ∀ want, r.action = switchAction want → SwitchedTo t want before
  | .dropped _ => ReadsNotCreated before →
      (.call (.readDraft false) ∈ before ∧ .foundClear ∈ before) ∨ SwitchedTo t false before
  | _ => True

/-- Every event is justified by those before it. -/
def Proper (t : Target) (events : List Event) : Prop :=
  ∀ before e after, events = before ++ e :: after → Justified t before e

theorem proper_nil (t : Target) : Proper t [] := fun before e after h => absurd h (by simp)

theorem Proper.snoc {t : Target} {events : List Event} {e : Event} (h : Proper t events)
    (he : Justified t events e) : Proper t (events ++ [e]) := by
  intro before e' after hsplit
  rcases List.eq_nil_or_concat after with rfl | ⟨after, last, rfl⟩
  · obtain ⟨hbefore, hlast⟩ := List.append_inj' hsplit rfl
    obtain rfl := List.head_eq_of_cons_eq hlast
    exact hbefore ▸ he
  · have hsplit : events ++ [e] = (before ++ e' :: after) ++ [last] := by simpa using hsplit
    exact h before e' after (List.append_inj' hsplit rfl).1

/-! ## The judgement -/

/-- The checks that are over, and the one that goes on, are all proper. -/
def AllProper (w : State) : Prop :=
  ∀ c ∈ w.past ++ w.current.toList, Proper c.schedule.target c.events

/-- The check of the row goes on, with events of which `K` holds. -/
def Checking (row : Schedule) (K : List Event → Prop) (w : State) : Prop :=
  ∃ events, w.current = some ⟨row, events⟩ ∧ K events

/-- Whatever the answers, every step leaves every check proper; the events of the check satisfy
`K` where the program starts and `D` where it ends. -/
abbrev Checks {α : Type} (row : Schedule) (K : List Event → Prop) (m : Step α)
    (D : α → List Event → Prop) : Prop :=
  Program.Safe (fun _ => True) (fun _ w => AllProper w)
    (fun w => AllProper w ∧ Checking row K w) m fun r w => AllProper w ∧ Checking row (D r) w

section Rules

variable {α : Type} {row : Schedule} {K K' : List Event → Prop} {D D' : α → List Event → Prop}

/-- An effect that leaves the events as they are. -/
structure Silent (w w' : State) : Prop where
  past : w'.past = w.past
  current : w'.current = w.current

theorem Silent.proper {w w' : State} (h : Silent w w') (hw : AllProper w) : AllProper w' := by
  rw [AllProper, h.past, h.current]
  exact hw

theorem Silent.checking {w w' : State} (h : Silent w w') (hw : Checking row K w) :
    Checking row K w' := by
  obtain ⟨events, hcurrent, hk⟩ := hw
  exact ⟨events, h.current.trans hcurrent, hk⟩

/-- An effect that records one event. -/
structure Records (e : Event) (w w' : State) : Prop where
  past : w'.past = w.past
  current : w'.current = w.current.map fun c => { c with events := c.events ++ [e] }

theorem Records.checking {e : Event} {w w' : State} (h : Records e w w') (hw : AllProper w)
    (hk : Checking row K w) (he : ∀ events, K events → Justified row.target events e)
    (hd : ∀ events, K events → K' (events ++ [e])) :
    AllProper w' ∧ Checking row K' w' := by
  obtain ⟨events, hcurrent, hevents⟩ := hk
  have hnew : w'.current = some ⟨row, events ++ [e]⟩ := by rw [h.current, hcurrent]; rfl
  refine ⟨?_, events ++ [e], hnew, hd events hevents⟩
  intro c hc
  rw [h.past, hnew] at hc
  rcases List.mem_append.1 hc with hc | hc
  · exact hw c (List.mem_append_left _ hc)
  · obtain rfl := List.mem_singleton.1 hc
    have hmem : (⟨row, events⟩ : CheckLog) ∈ w.past ++ w.current.toList := by simp [hcurrent]
    exact (hw ⟨row, events⟩ hmem).snoc (he events hevents)

/-- A step, from the state that the changes of others leave. -/
theorem checks_step {f : State → Answer → State × α}
    (h : ∀ w a, AllProper w → Checking row K w →
      AllProper (f w a).1 ∧ Checking row (D (f w a).2) (f w a).1) :
    Checks row K (step f) D := by
  refine Program.safe_act fun w a _ hw => ?_
  have hsilent : Silent w { w with world := a.others w.world } := ⟨rfl, rfl⟩
  have hstep := h _ a (hsilent.proper hw.1) (hsilent.checking hw.2)
  exact ⟨hstep.1, hstep⟩

theorem checks_silent {f : State → Answer → State × α} (hf : ∀ w a, Silent w (f w a).1)
    (hd : ∀ w a events, K events → D (f w a).2 events) : Checks row K (step f) D := by
  refine checks_step fun w a hw hk => ⟨(hf w a).proper hw, ?_⟩
  obtain ⟨events, hcurrent, hevents⟩ := (hf w a).checking hk
  exact ⟨events, hcurrent, hd w a events hevents⟩

theorem checks_pure {a : α} (h : ∀ events, K events → D a events) :
    Checks row K (pure a : Step α) D := by
  refine Program.safe_pure fun w hw => ⟨hw.1, ?_⟩
  obtain ⟨events, hcurrent, hevents⟩ := hw.2
  exact ⟨events, hcurrent, h events hevents⟩

theorem checks_weaken {m : Step α} (hm : Checks row K m D)
    (hk : ∀ events, K' events → K events) (hd : ∀ r events, D r events → D' r events) :
    Checks row K' m D' := by
  refine Program.safe_weaken hm ?_ ?_
  · rintro w ⟨hw, events, hcurrent, hevents⟩
    exact ⟨hw, events, hcurrent, hk events hevents⟩
  · rintro r w ⟨hw, events, hcurrent, hevents⟩
    exact ⟨hw, events, hcurrent, hd r events hevents⟩

/-- A fact that does not depend on the events is taken out of what holds at the start. -/
theorem checks_fact {m : Step α} {c : Prop} (hc : ∀ events, K events → c)
    (hm : c → Checks row K m D) : Checks row K m D := by
  refine Program.safe_fact (c := c) ?_ hm
  rintro w ⟨-, events, -, hevents⟩
  exact hc events hevents

end Rules

/-! ## The calls -/

/-- The draft was read, and found not pending. -/
def MayWrite (events : List Event) : Prop := .foundPending ∉ events ∧ .foundClear ∈ events

/-- Nothing was found pending, and nothing written. -/
def Untouched (events : List Event) : Prop :=
  .foundPending ∉ events ∧ ∀ e ∈ events, e.writes = false

/-- What is said of the events stays true as the check goes on. -/
def Lasting (K : List Event → Prop) : Prop :=
  ∀ events e, e ≠ .foundPending → K events → K (events ++ [e])

theorem lasting_mayWrite : Lasting MayWrite := by
  rintro events e he ⟨hpending, hclear⟩
  exact ⟨by simp [hpending, Ne.symm he], List.mem_append_left _ hclear⟩

theorem lasting_mem (e : Event) : Lasting fun events => e ∈ events :=
  fun _ _ _ h => List.mem_append_left _ h

theorem Lasting.and {K K' : List Event → Prop} (h : Lasting K) (h' : Lasting K') :
    Lasting fun events => K events ∧ K' events :=
  fun events e he hk => ⟨h events e he hk.1, h' events e he hk.2⟩

theorem SwitchedTo.append {t : Target} {want : Bool} {events : List Event}
    (h : SwitchedTo t want events) (more : List Event) : SwitchedTo t want (events ++ more) :=
  ⟨h.1.imp fun _ h => List.mem_append_left _ h, h.2.imp fun _ h => List.mem_append_left _ h⟩

theorem ReadsNotCreated.of_append {events more : List Event}
    (h : ReadsNotCreated (events ++ more)) : ReadsNotCreated events :=
  fun ruleset others hmem => h ruleset others (List.mem_append_left _ hmem)

section Calls

variable {row : Schedule} {K : List Event → Prop} {t : Target}

theorem silent_record_none (w : State) : Silent w w := ⟨rfl, rfl⟩

theorem records_record (w : State) (e : Event) : Records e w (w.record e) := ⟨rfl, rfl⟩

/-- A read of an object: an answer of 200 shows it, and what it shows is on record. -/
theorem checks_readItem {look : Policy → Target → Option Item} (seen : Bool → Call)
    (hk : ∀ events enabled, K events → K (events ++ [.call (seen enabled)]))
    (hj : ∀ events enabled, Justified row.target events (.call (seen enabled))) (t : Target) :
    Checks row K (readItem look seen t) fun r events =>
      (∀ resp, r = .ok resp → (resp.status = 200 → resp.item.isSome) ∧
        ∀ item, resp.item = some item → .call (seen item.enabled) ∈ events) ∧ K events := by
  refine checks_step fun w a hw hc => ?_
  have hsilent : ∀ r : Except Failure Response,
      (∀ resp, r = .ok resp → resp.status ≠ 200 ∧ resp.item = none) →
      AllProper w ∧ Checking row (fun events => (∀ resp, r = .ok resp →
        (resp.status = 200 → resp.item.isSome) ∧ ∀ item, resp.item = some item →
          .call (seen item.enabled) ∈ events) ∧ K events) w := by
    intro r hr
    obtain ⟨events, hcurrent, hevents⟩ := hc
    refine ⟨hw, events, hcurrent, fun resp h => ⟨fun hok => absurd hok (hr resp h).1, ?_⟩, hevents⟩
    intro item hitem
    exact absurd ((hr resp h).2.symm.trans hitem) (by simp)
  cases hreply : a.reply with
  | lost kind error applied => exact hsilent _ fun resp h => absurd h (by simp)
  | answered status body =>
      simp only
      split
      · cases hlook : look w.world.policy t with
        | none =>
            refine hsilent _ fun resp h => ?_
            obtain rfl := Except.ok.inj h
            exact ⟨by simp, rfl⟩
        | some item =>
            refine (records_record w _).checking hw hc (fun events _ => hj events _) ?_
            intro events hevents
            refine ⟨fun resp h => ?_, hk events _ hevents⟩
            obtain rfl := Except.ok.inj h
            refine ⟨fun _ => rfl, fun item' hitem => ?_⟩
            obtain rfl := Option.some.inj hitem
            exact List.mem_append_right _ (List.mem_singleton.2 rfl)
      · rename_i hstatus
        refine hsilent _ fun resp h => ?_
        obtain rfl := Except.ok.inj h
        exact ⟨hstatus, rfl⟩

/-- A write call: its answer is on record. -/
theorem checks_send {effect : Policy → Policy} {done : Nat} {sent : Option Nat → Bool → Call}
    (hlasting : Lasting K)
    (hj : ∀ events status applied, K events →
      Justified row.target events (.call (sent status applied)))
    (hsent : ∀ status applied, Event.call (sent status applied) ≠ .foundPending) :
    Checks row K (send effect done sent) fun r events =>
      (∀ resp, r = .ok resp → ∃ applied, .call (sent (some resp.status) applied) ∈ events) ∧
        K events := by
  refine checks_step fun w a hw hc => ?_
  have hpolicy : ∀ policy, Silent w (w.setPolicy policy) := fun _ => ⟨rfl, rfl⟩
  cases hreply : a.reply with
  | lost kind error applied =>
      have hsilent : Silent w (if applied then w.setPolicy (effect w.world.policy) else w) := by
        split
        · exact hpolicy _
        · exact ⟨rfl, rfl⟩
      exact (records_record _ _).checking (hsilent.proper hw) (hsilent.checking hc)
        (fun events h => hj events _ _ h)
        fun events h => ⟨fun resp hr => absurd hr (by simp), hlasting events _ (hsent _ _) h⟩
  | answered status body =>
      have hsilent : Silent w (if status = done then w.setPolicy (effect w.world.policy)
          else w) := by
        split
        · exact hpolicy _
        · exact ⟨rfl, rfl⟩
      refine (records_record _ _).checking (hsilent.proper hw) (hsilent.checking hc)
        (fun events h => hj events _ _ h) ?_
      intro events h
      refine ⟨?_, hlasting events _ (hsent _ _) h⟩
      intro resp hr
      obtain rfl := Except.ok.inj hr
      exact ⟨_, List.mem_append_right _ (List.mem_singleton.2 rfl)⟩

theorem checks_setFields (hlasting : Lasting K) (hk : ∀ events, K events → MayWrite events)
    (t : Target) (fields : Fields) :
    Checks row K (setFields t fields) fun r events =>
      (∀ resp, r = .ok resp →
        ∃ applied, .call (.wrote t fields (some resp.status) applied) ∈ events) ∧ K events :=
  checks_send hlasting (fun events _ _ h => (hk events h).1) fun _ _ => by simp

theorem checks_revert (hlasting : Lasting K) (hk : ∀ events, K events → MayWrite events) :
    Checks row K (revert row.target.rulesetOf) fun _ => K :=
  checks_weaken (checks_send hlasting (fun events _ _ h => ⟨(hk events h).1, rfl⟩)
    fun _ _ => by simp) (fun _ h => h) fun _ _ h => h.2

/-- The dependency read: an answer of 200 that names nothing else is on record, and so is an
answer of 201. -/
theorem checks_dependencies (hlasting : Lasting K) (ruleset : Target) :
    Checks row K (dependencies ruleset) fun r events =>
      (∀ resp others, r = .ok (resp, others) →
        .call (.dependencies ruleset (some resp.status) others) ∈ events) ∧ K events := by
  refine checks_step fun w a hw hc => ?_
  cases hreply : a.reply with
  | lost kind error applied =>
      exact (records_record _ _).checking hw hc (fun _ _ => trivial)
        fun events h => ⟨fun resp others hr => absurd hr (by simp),
          hlasting events _ (by simp) h⟩
  | answered status body =>
      refine (records_record _ _).checking hw hc (fun _ _ => trivial) ?_
      intro events h
      refine ⟨?_, hlasting events _ (by simp) h⟩
      intro resp others hr
      obtain ⟨rfl, rfl⟩ := Prod.mk.inj (Except.ok.inj hr)
      exact List.mem_append_right _ (List.mem_singleton.2 rfl)

/-- `provision`: an answer of 201 is that of the provision, or that of the dependency read. -/
theorem checks_provision (hlasting : Lasting K) (hk : ∀ events, K events → MayWrite events) :
    Checks row K (provision row.target.rulesetOf) fun p events =>
      (∀ r, p = .answered r → r.status = 201 → ReadsNotCreated events →
        ∃ applied, .call (.provisioned [row.target.rulesetOf] (some 201) applied) ∈ events) ∧
        K events := by
  rw [provision]
  apply Program.safe_bind (checks_dependencies hlasting _)
  rintro (f | ⟨r, others⟩)
  · exact checks_pure fun _ h => ⟨fun _ hr => absurd hr (by simp), h.2⟩
  · simp only
    split
    · refine checks_pure fun events h => ⟨?_, h.2⟩
      intro resp hr hstatus hreads
      obtain rfl := Provisioned.answered.inj hr
      exact absurd (hstatus ▸ h.1 r others rfl) (hreads _ _)
    · rename_i hstatus
      have hstatus : r.status = 200 := by simpa using hstatus
      split
      · exact checks_pure fun _ h => ⟨fun _ hr => absurd hr (by simp), h.2⟩
      · rename_i hothers
        have hothers : others = [] := by simpa using hothers
        -- 200, and nothing else has to go live: the change is sent
        refine Program.safe_bind (checks_weaken (K := fun events =>
          .call (.dependencies row.target.rulesetOf (some 200) []) ∈ events ∧ K events)
          (checks_send ((lasting_mem _).and hlasting)
            (fun events _ _ h => ⟨(hk events h.2).1, rfl, h.1⟩) fun _ _ => by simp)
          ?_ fun _ _ h => h) ?_
        · intro events h
          exact ⟨hstatus ▸ hothers ▸ h.1 r others rfl, h.2⟩
        · rintro (f | resp)
          · exact checks_pure fun _ h => ⟨fun _ hr => absurd hr (by simp), h.2.2⟩
          · refine checks_pure fun events h => ⟨?_, h.2.2⟩
            intro resp' hr hstatus _
            obtain rfl := Provisioned.answered.inj hr
            exact hstatus ▸ h.1 resp rfl

end Calls

/-! ## The switch and the note -/

section Switching

variable {row : Schedule} {K : List Event → Prop}

theorem checks_putBack (hlasting : Lasting K) (hk : ∀ events, K events → MayWrite events)
    (hrefs : List String) (outcome : Switched) (hdone : outcome ≠ .done) :
    Checks row K (putBack row.target hrefs outcome) fun r events => r ≠ .done ∧ K events := by
  rw [putBack]
  apply Program.safe_bind (checks_revert hlasting hk)
  rintro (f | r)
  · exact checks_pure fun _ h => ⟨by simp, h⟩
  · simp only
    split
    · exact checks_pure fun _ h => ⟨by simp, h⟩
    · exact checks_pure fun _ h => ⟨hdone, h⟩

/-- `_switch` is done when the draft had the value, or when it was written and provisioned. -/
theorem checks_switch (hlasting : Lasting K) (hk : ∀ events, K events → MayWrite events)
    (enabled before : Bool) :
    Checks row K (switch row.target enabled before) fun r events =>
      (r = .done → before = enabled ∨
        (ReadsNotCreated events → SwitchedTo row.target enabled events)) ∧ K events := by
  rw [switch]
  split
  · rename_i hsame
    exact checks_pure fun _ h => ⟨fun _ => Or.inl hsame, h⟩
  · apply Program.safe_bind (checks_setFields hlasting hk _ _)
    rintro (f | r)
    · exact checks_pure fun _ h => ⟨fun hr => absurd hr (by simp), h.2⟩
    · simp only
      split
      · exact checks_pure fun _ h => ⟨fun hr => absurd hr (by simp), h.2⟩
      · rename_i hstatus
        have hstatus : r.status = 204 := by simpa using hstatus
        -- the value is in the draft: what is left is to provision it
        let K' : List Event → Prop := fun events =>
          (∃ applied, .call (.wrote row.target (.enabled enabled) (some 204) applied) ∈ events) ∧
            K events
        have hlasting' : Lasting K' := by
          rintro events e he ⟨⟨applied, hwrote⟩, hevents⟩
          exact ⟨⟨applied, List.mem_append_left _ hwrote⟩, hlasting events e he hevents⟩
        have hk' : ∀ events, K' events → MayWrite events := fun events h => hk events h.2
        have hback : ∀ hrefs outcome, outcome ≠ .done →
            Checks row K' (putBack row.target hrefs outcome) fun r events =>
              (r = .done → before = enabled ∨
                (ReadsNotCreated events → SwitchedTo row.target enabled events)) ∧ K events :=
          fun hrefs outcome hdone => checks_weaken
            (checks_putBack hlasting' hk' hrefs outcome hdone) (fun _ h => h)
            fun _ _ h => ⟨fun hr => absurd hr h.1, h.2.2⟩
        refine Program.safe_bind (checks_weaken (checks_provision hlasting' hk') ?_
          fun _ _ h => h) ?_
        · intro events h
          exact ⟨hstatus ▸ h.1 r rfl, h.2⟩
        · rintro (p | hrefs | f)
          · simp only
            split
            · rename_i hcreated
              refine checks_pure fun events h => ⟨fun _ => Or.inr fun hreads => ?_, h.2.2⟩
              exact ⟨h.2.1, h.1 p rfl hcreated hreads⟩
            · exact checks_weaken (hback _ _ (by simp)) (fun _ h => h.2) fun _ _ h => h
          · exact checks_weaken (hback _ _ (by simp)) (fun _ h => h.2) fun _ _ h => h
          · exact checks_weaken (hback _ _ (by simp)) (fun _ h => h.2) fun _ _ h => h

theorem checks_clearNote (hlasting : Lasting K) (hk : ∀ events, K events → MayWrite events)
    (draft : Response) : Checks row K (clearNote row.target draft) fun _ => K := by
  rw [clearNote]
  split
  · exact checks_pure fun _ h => h
  · apply Program.safe_bind (checks_setFields hlasting hk _ _)
    rintro (f | r)
    · exact checks_pure fun _ h => h.2
    · simp only
      split
      · exact checks_pure fun _ h => h.2
      · refine Program.safe_bind (checks_weaken (checks_provision hlasting hk)
          (fun _ h => h.2) fun _ _ h => h) ?_
        rintro (p | hrefs | f)
        · exact checks_pure fun _ h => h.2
        · exact checks_pure fun _ h => h.2
        · exact checks_pure fun _ h => h.2

end Switching

/-! ## The application database -/

section Rows

variable {row : Schedule} {K : List Event → Prop}

theorem checks_setChecked (pceStatus : PceStatus) (live : Live) (at_ : Int) :
    Checks row K (setChecked row pceStatus live at_) fun _ => K :=
  checks_silent (fun _ _ => ⟨rfl, rfl⟩) fun _ _ _ h => h

theorem checks_lastRun : Checks row K (lastRun row) fun _ => K :=
  checks_silent (fun _ _ => ⟨rfl, rfl⟩) fun _ _ _ h => h

/-- A run is recorded; one that is not of a switch, or did not go well, says nothing. -/
theorem checks_addRun {r : Run} (hj : ∀ events, K events → ReadsAgree events →
      ReadsNotCreated events → r.result = .ok → ∀ want, r.action = switchAction want →
      SwitchedTo row.target want events) :
    Checks row K (addRun r) fun _ _ => True :=
  checks_step fun w _ hw hc => Records.checking (w := w) (e := .ran r.stored) ⟨rfl, rfl⟩ hw hc
    (fun events h => hj events h) fun _ _ => trivial

theorem checks_addRun_of_ne {r : Run} (hr : r.result ≠ .ok) :
    Checks row K (addRun r) fun _ _ => True :=
  checks_addRun fun _ _ _ _ hok => absurd hok hr

theorem checks_dropRow (hj : ∀ events, K events → ReadsNotCreated events →
      (.call (.readDraft false) ∈ events ∧ .foundClear ∈ events) ∨
        SwitchedTo row.target false events) :
    Checks row K (dropRow row) fun _ _ => True :=
  checks_step fun w _ hw hc => Records.checking (w := w) (e := .dropped row.id) ⟨rfl, rfl⟩ hw hc
    (fun events h => hj events h) fun _ _ => trivial

end Rows

/-! ## A check -/

/-- What the drop of a row needs: the target was read as disabled with no draft pending, or was
disabled and that provisioned. -/
def Disabled (t : Target) (events : List Event) : Prop :=
  (.call (.readDraft false) ∈ events ∧ .foundClear ∈ events) ∨
    (ReadsNotCreated events → SwitchedTo t false events)

theorem lasting_disabled (t : Target) : Lasting (Disabled t) := by
  rintro events e - (⟨hread, hclear⟩ | hswitched)
  · exact Or.inl ⟨List.mem_append_left _ hread, List.mem_append_left _ hclear⟩
  · exact Or.inr fun hreads => (hswitched hreads.of_append).append _

/-- The draft was read with the value, and found not pending. -/
abbrev DraftRead (before : Bool) (events : List Event) : Prop :=
  MayWrite events ∧ .call (.readDraft before) ∈ events

theorem lasting_draftRead (before : Bool) : Lasting (DraftRead before) :=
  lasting_mayWrite.and (lasting_mem _)

theorem ne_switchAction {want : Bool} : Action.expire ≠ switchAction want := by
  cases want <;> simp [switchAction]

section Check

variable {row : Schedule}

theorem checks_endSchedule (draft : Response) (at_ : Int) :
    Checks row (fun events => MayWrite events ∧ Disabled row.target events)
      (endSchedule row draft at_) fun _ _ => True := by
  rw [endSchedule]
  apply Program.safe_bind (checks_clearNote (lasting_mayWrite.and (lasting_disabled _))
    (fun _ h => h.1) draft)
  rintro (f | note)
  · exact checks_pure fun _ _ => trivial
  · refine Program.safe_bind (checks_dropRow fun events h hreads =>
      h.2.imp_right fun hswitched => hswitched hreads) ?_
    intro _
    refine Program.safe_bind (checks_addRun fun _ _ _ _ _ want h => absurd h ne_switchAction) ?_
    intro _
    exact checks_pure fun _ _ => trivial

theorem checks_applyExpired (draft : Response) (before : Bool) (at_ : Int) :
    Checks row (DraftRead before) (applyExpired row draft before at_) fun _ _ => True := by
  rw [applyExpired]
  apply Program.safe_bind (checks_switch (lasting_draftRead before) (fun _ h => h.1) false before)
  rintro (_ | r | hrefs | ⟨hrefs, answer⟩ | f)
  · refine checks_weaken (checks_endSchedule draft at_) ?_ fun _ _ h => h
    rintro events ⟨hdone, hmay, hread⟩
    refine ⟨hmay, ?_⟩
    rcases hdone rfl with hbefore | hswitched
    · exact Or.inl ⟨hbefore ▸ hread, hmay.2⟩
    · exact Or.inr hswitched
  · refine Program.safe_bind (checks_addRun_of_ne (by simp [Schedule.run])) ?_
    intro _
    exact checks_pure fun _ _ => trivial
  · exact checks_pure fun _ _ => trivial
  · exact checks_pure fun _ _ => trivial
  · exact checks_pure fun _ _ => trivial

theorem checks_applyWant (before live want : Bool) (at_ : Int) :
    Checks row (fun events => DraftRead before events ∧ .call (.readActive live) ∈ events)
      (applyWant row before live want at_) fun _ _ => True := by
  rw [applyWant]
  apply Program.safe_bind (checks_setChecked _ _ _)
  intro _
  split
  · exact checks_pure fun _ _ => trivial
  · rename_i hlive
    apply Program.safe_bind (checks_switch ((lasting_draftRead before).and (lasting_mem _))
      (fun _ h => h.1.1) want before)
    rintro (_ | r | hrefs | ⟨hrefs, answer⟩ | f)
    · apply Program.safe_bind (checks_setChecked _ _ _)
      intro _
      refine Program.safe_bind (checks_addRun ?_) ?_
      · rintro events ⟨hdone, ⟨-, hdraft⟩, hactive⟩ hagree hreads - want' haction
        have hwant : want = want' := by
          cases want <;> cases want' <;> simp_all [Schedule.run, switchAction]
        rcases hdone rfl with hbefore | hswitched
        · -- the draft had the value and the active version had not: the reads do not agree
          exact absurd ((hagree _ _ hdraft hactive).symm.trans hbefore) hlive
        · exact hwant ▸ hswitched hreads
      · intro _
        exact checks_pure fun _ _ => trivial
    · refine Program.safe_bind (checks_addRun_of_ne (by simp [Schedule.run])) ?_
      intro _
      exact checks_pure fun _ _ => trivial
    · exact checks_pure fun _ _ => trivial
    · exact checks_pure fun _ _ => trivial
    · exact checks_pure fun _ _ => trivial

theorem checks_applyLive (before want : Bool) (at_ : Int) :
    Checks row (DraftRead before) (applyLive row before want at_) fun _ _ => True := by
  rw [applyLive]
  apply Program.safe_bind (checks_readItem .readActive
    (fun events enabled h => lasting_draftRead before events _ (by simp) h)
    (fun _ _ => trivial) row.target)
  rintro (f | active)
  · exact checks_pure fun _ _ => trivial
  · simp only
    split
    · apply Program.safe_bind (checks_setChecked _ _ _)
      intro _
      exact checks_pure fun _ _ => trivial
    · split
      · refine Program.safe_bind (checks_addRun_of_ne (by simp [Schedule.run])) ?_
        intro _
        exact checks_pure fun _ _ => trivial
      · rename_i item hitem
        exact checks_weaken (checks_applyWant before item.enabled want at_)
          (fun events h => ⟨h.2, (h.1 active rfl).2 item hitem⟩) fun _ _ h => h

theorem checks_apply {draft : Response} {item : Item} (hitem : draft.item = some item)
    (want : Want) (at_ : Int) :
    Checks row (DraftRead item.enabled) (apply row draft want at_) fun _ _ => True := by
  rw [apply.eq_def, hitem]
  cases want with
  | enabled => exact checks_applyLive _ _ _
  | disabled => exact checks_applyLive _ _ _
  | expired => exact checks_applyExpired _ _ _

theorem checks_settleApplied (at_ : Int) (applied : Applied) :
    Checks row (fun _ => True) (settleApplied row at_ applied) fun _ _ => True := by
  cases applied with
  | outcome o => exact checks_pure fun _ _ => trivial
  | failed f => exact checks_pure fun _ _ => trivial
  | dependencies hrefs =>
      refine Program.safe_bind (checks_addRun_of_ne (by simp [Schedule.run])) ?_
      intro _
      exact checks_pure fun _ _ => trivial
  | undoFailed hrefs answer =>
      refine Program.safe_bind (checks_addRun_of_ne (by simp [Schedule.run])) ?_
      intro _
      exact checks_pure fun _ _ => trivial

theorem checks_skipDraft (at_ : Int) :
    Checks row (fun _ => True) (skipDraft row at_) fun _ _ => True := by
  rw [skipDraft]
  apply Program.safe_bind checks_lastRun
  intro last
  split
  · exact checks_pure fun _ _ => trivial
  · refine Program.safe_bind (checks_addRun_of_ne (by simp [Schedule.run])) ?_
    intro _
    exact checks_pure fun _ _ => trivial

theorem checks_markDeleted (at_ : Int) :
    Checks row (fun _ => True) (markDeleted row at_) fun _ _ => True := by
  rw [markDeleted]
  split
  · apply Program.safe_bind (checks_setChecked _ _ _)
    intro _
    exact checks_pure fun _ _ => trivial
  · refine Program.safe_bind (checks_addRun_of_ne (by simp [Schedule.run])) ?_
    intro _
    apply Program.safe_bind (checks_setChecked _ _ _)
    intro _
    exact checks_pure fun _ _ => trivial

/-- One read of `draft_pending`, of a check that has written nothing. -/
theorem checks_readPending (before : Bool) (t : Target) (last : Bool) :
    Checks row (fun events => Untouched events ∧ .call (.readDraft before) ∈ events)
      (readPending t last) fun r events =>
        (r = .ok false → Untouched events ∧ .call (.readDraft before) ∈ events ∧
          (last = true → .foundClear ∈ events)) := by
  refine checks_step fun w a hw hc => ?_
  have hsilent : ∀ r : Except Failure Bool, r ≠ .ok false → AllProper w ∧
      Checking row (fun events => r = .ok false → Untouched events ∧
        .call (.readDraft before) ∈ events ∧ (last = true → .foundClear ∈ events)) w := by
    intro r hr
    obtain ⟨events, hcurrent, -⟩ := hc
    exact ⟨hw, events, hcurrent, fun h => absurd h hr⟩
  cases hreply : a.reply with
  | lost kind error applied => exact hsilent _ (by simp)
  | answered status body =>
      simp only
      split
      · cases hpending : w.world.policy.pendingAt t with
        | true =>
            simp only [Bool.true_or, if_true]
            exact (records_record w _).checking hw hc (fun events h => h.1.2)
              fun events h hr => absurd hr (by simp)
        | false =>
            simp only [Bool.false_or]
            split
            · refine (records_record w _).checking hw hc (fun events h => h.1.2) ?_
              rintro events ⟨⟨hpending, hwrites⟩, hread⟩ -
              refine ⟨⟨by simp [hpending], ?_⟩, List.mem_append_left _ hread,
                fun _ => List.mem_append_right _ (List.mem_singleton.2 rfl)⟩
              intro e he
              rcases List.mem_append.1 he with he | he
              · exact hwrites e he
              · rw [List.mem_singleton.1 he]
                rfl
            · rename_i hlast
              obtain ⟨events, hcurrent, huntouched, hread⟩ := hc
              exact ⟨hw, events, hcurrent, fun _ => ⟨huntouched, hread, fun h => absurd h hlast⟩⟩
      · exact hsilent _ (by simp)

/-- `draft_pending`: false leaves a check that may write. -/
theorem checks_draftPending (before : Bool) :
    Checks row (fun events => Untouched events ∧ .call (.readDraft before) ∈ events)
      (draftPending row.target) fun r events => r = .ok false → DraftRead before events := by
  have hlast : ∀ t, Checks row (fun events => Untouched events ∧
      .call (.readDraft before) ∈ events) (readPending t true)
      fun r events => r = .ok false → DraftRead before events := by
    intro t
    refine checks_weaken (checks_readPending before t true) (fun _ h => h) ?_
    intro r events h hr
    obtain ⟨huntouched, hread, hclear⟩ := h hr
    exact ⟨⟨huntouched.1, hclear rfl⟩, hread⟩
  rw [draftPending]
  split
  · exact hlast _
  · apply Program.safe_bind (checks_readPending before row.target false)
    rintro (f | _ | _)
    · exact checks_pure fun _ _ hr => absurd hr (by simp)
    · exact checks_weaken (hlast _) (fun _ h => ⟨(h rfl).1, (h rfl).2.1⟩) fun _ _ h => h
    · exact checks_pure fun _ _ hr => absurd hr (by simp)

theorem checks_checkOne (at_ : Int) :
    Checks row (fun events => events = []) (checkOne row at_) fun _ _ => True := by
  rw [checkOne]
  refine Program.safe_bind (checks_weaken (K := Untouched) (checks_readItem .readDraft
    ?_ (fun _ _ => trivial) row.target) ?_ fun _ _ h => h) ?_
  · rintro events enabled ⟨hpending, hwrites⟩
    refine ⟨by simp [hpending], ?_⟩
    intro e he
    rcases List.mem_append.1 he with he | he
    · exact hwrites e he
    · rw [List.mem_singleton.1 he]
      rfl
  · rintro events rfl
    exact ⟨List.not_mem_nil, fun e he => absurd he List.not_mem_nil⟩
  · rintro (f | draft)
    · exact checks_pure fun _ _ => trivial
    · simp only
      split
      · refine Program.safe_bind (checks_weaken (checks_markDeleted at_) (fun _ _ => trivial)
          fun _ _ h => h) ?_
        intro _
        exact checks_pure fun _ _ => trivial
      · split
        · refine Program.safe_bind (checks_addRun_of_ne (by simp [Schedule.run])) ?_
          intro _
          exact checks_pure fun _ _ => trivial
        · rename_i hstatus
          have hstatus : draft.status = 200 := by simpa using hstatus
          refine checks_fact (c := draft.item.isSome) (fun _ h => (h.1 draft rfl).1 hstatus) ?_
          intro hsome
          obtain ⟨item, hitem⟩ := Option.isSome_iff_exists.1 hsome
          refine Program.safe_bind (checks_weaken (checks_draftPending item.enabled)
            (fun _ h => ⟨h.2, (h.1 draft rfl).2 item hitem⟩) fun _ _ h => h) ?_
          rintro (f | _ | _)
          · exact checks_pure fun _ _ => trivial
          · refine Program.safe_bind (checks_weaken (checks_apply hitem _ at_)
              (fun _ h => h rfl) fun _ _ h => h) ?_
            intro applied
            exact checks_settleApplied at_ applied
          · refine Program.safe_bind (checks_weaken (checks_skipDraft at_) (fun _ _ => trivial)
              fun _ _ h => h) ?_
            intro o
            exact checks_pure fun _ _ => trivial

end Check

/-! ## Every sequence of checks -/

/-- Whatever the answers, every step leaves every check proper. -/
abbrev KeepsProper {α : Type} (m : Step α) : Prop :=
  Program.Safe (fun _ => True) (fun _ w => AllProper w) AllProper m fun _ w => AllProper w

theorem keepsProper_silent {α : Type} {f : State → Answer → State × α}
    (hf : ∀ w a, Silent w (f w a).1) : KeepsProper (step f) := by
  refine Program.safe_act fun w a _ hw => ?_
  have hsilent : Silent w { w with world := a.others w.world } := ⟨rfl, rfl⟩
  have hstep := (hf _ a).proper (hsilent.proper hw)
  exact ⟨hstep, hstep⟩

theorem keepsProper_pure {α : Type} {a : α} : KeepsProper (pure a : Step α) :=
  Program.safe_pure fun _ h => h

/-- The row that is read starts a check of its own. -/
theorem checks_readRow (id : Nat) (updatedAt : Option Int) :
    Program.Safe (fun _ => True) (fun _ w => AllProper w) AllProper (readRow id updatedAt)
      fun row w => AllProper w ∧ ∀ r, row = some r → Checking r (fun events => events = []) w := by
  refine Program.safe_act fun w a _ hw => ?_
  have hw' : AllProper { w with world := a.others w.world } := hw
  simp only
  split
  · exact ⟨hw', hw', fun r h => absurd h (by simp)⟩
  · rename_i row _
    split
    · exact ⟨hw', hw', fun r h => absurd h (by simp)⟩
    · have hbegin : AllProper (State.begin { w with world := a.others w.world } row) := by
        intro c hc
        simp only [State.begin, Option.toList_some] at hc
        rcases List.mem_append.1 hc with hc | hc
        · exact hw' c hc
        · obtain rfl := List.mem_singleton.1 hc
          exact proper_nil _
      refine ⟨hbegin, hbegin, fun r h => ?_⟩
      obtain rfl := Option.some.inj h
      exact ⟨[], rfl, rfl⟩

theorem keepsProper_checkFresh (id : Nat) (at_ : Int) (updatedAt : Option Int) :
    KeepsProper (checkFresh id at_ updatedAt) := by
  rw [checkFresh]
  apply Program.safe_bind (checks_readRow id updatedAt)
  rintro (_ | row)
  · exact Program.safe_pure fun _ h => h.1
  · refine Program.safe_bind (Program.safe_weaken (checks_checkOne at_)
      (fun _ h => ⟨h.1, h.2 row rfl⟩) fun _ _ h => h) ?_
    rintro (f | o)
    · refine Program.safe_bind (checks_addRun_of_ne (by simp [Schedule.run])) ?_
      intro _
      exact Program.safe_pure fun _ h => h.1
    · exact Program.safe_pure fun _ h => h.1

theorem keepsProper_tickRows (pceUrl orgId : String) (at_ : Int) (rows : List (Nat × Int)) :
    KeepsProper (tickRows pceUrl orgId at_ rows) := by
  induction rows with
  | nil => exact keepsProper_pure
  | cons row rest ih =>
      obtain ⟨id, updatedAt⟩ := row
      rw [tickRows]
      apply Program.safe_bind (keepsProper_silent fun _ _ => ⟨rfl, rfl⟩)
      intro same
      split
      · apply Program.safe_bind (keepsProper_checkFresh id at_ _)
        intro o
        apply Program.safe_bind ih
        intro others
        exact keepsProper_pure
      · exact keepsProper_pure

theorem keepsProper_tick (at_ : Int) : KeepsProper (tick at_) := by
  rw [tick]
  refine Program.safe_bind (keepsProper_silent fun w a => ?_) ?_
  · simp only
    split
    · exact ⟨rfl, rfl⟩
    · exact ⟨rfl, rfl⟩
  · rintro (_ | ⟨pceUrl, orgId, rows⟩)
    · exact keepsProper_pure
    · exact keepsProper_tickRows pceUrl orgId at_ rows

theorem keepsProper_checkNow (id : Nat) (at_ : Int) : KeepsProper (checkNow id at_) := by
  rw [checkNow]
  apply Program.safe_bind (keepsProper_silent fun _ _ => ⟨rfl, rfl⟩)
  intro own
  split
  · exact keepsProper_checkFresh id at_ none
  · exact keepsProper_pure

/-- A round of the job, or a check on demand. -/
inductive Occasion where
  | tick (at_ : Int)
  | checkNow (id : Nat) (at_ : Int)
  deriving DecidableEq, Repr

def Occasion.run : Occasion → Step Unit
  | .tick at_ => do
      let _ ← RuleSchedules.tick at_
      pure ()
  | .checkNow id at_ => do
      let _ ← RuleSchedules.checkNow id at_
      pure ()

/-- The occasions one after the other, each with its answers and stopped where these end: the
states gone through. -/
def occasions (rounds : List (Occasion × List Answer)) (w : State) : List State :=
  Program.runs (rounds.map fun o => (o.1.run, o.2)) w

theorem keepsProper_occasion (o : Occasion) : KeepsProper o.run := by
  cases o with
  | tick at_ => exact Program.safe_bind (keepsProper_tick at_) fun _ => keepsProper_pure
  | checkNow id at_ =>
      exact Program.safe_bind (keepsProper_checkNow id at_) fun _ => keepsProper_pure

theorem allProper_occasions {w : State} (hw : AllProper w)
    (rounds : List (Occasion × List Answer)) :
    ∀ w' ∈ w :: occasions rounds w, AllProper w' := by
  have hchain : List.IsChain (fun _ v => AllProper v) (w :: occasions rounds w) := by
    refine Program.chain_runs (fun _ => True) (I := AllProper) (fun _ _ _ h => h) ?_ hw
    intro p hp
    obtain ⟨o, -, rfl⟩ := List.mem_map.1 hp
    exact ⟨Program.safe_weaken (keepsProper_occasion o.1) (fun _ h => h) fun _ _ _ => trivial,
      fun _ _ => trivial⟩
  exact Program.inv_of_isChain (I := AllProper) (R := fun _ v => AllProper v)
    (fun _ _ _ h => h) hw hchain

/-! ## The four promises -/

/-- The logs of a state: of the checks that are over, and of the one that goes on. -/
def State.logs (w : State) : List CheckLog := w.past ++ w.current.toList

/-- A check that found the draft pending wrote nothing. -/
def PendingKept (c : CheckLog) : Prop :=
  .foundPending ∈ c.events → ∀ e ∈ c.events, e.writes = false

/-- The check provisioned and reverted the scheduled rule set alone, and provisioned it only
when the PCE named nothing else that would have to go live. -/
def RulesetAlone (c : CheckLog) : Prop :=
  (∀ subset status applied, .call (.provisioned subset status applied) ∈ c.events →
    subset = [c.schedule.target.rulesetOf] ∧
      .call (.dependencies c.schedule.target.rulesetOf (some 200) []) ∈ c.events) ∧
  ∀ subset status applied, .call (.reverted subset status applied) ∈ c.events →
    subset = [c.schedule.target.rulesetOf]

/-- A run recorded as a switch that went well comes after the value was written to the draft and
a provision of the rule set answered 201. -/
def RecordedAfter (c : CheckLog) : Prop :=
  ∀ before r after, c.events = before ++ .ran r :: after → r.result = .ok →
    ∀ want, r.action = switchAction want → SwitchedTo c.schedule.target want before

/-- The row of the schedule is deleted after its target was read as disabled with no draft
pending, or was disabled and that provisioned with 201. -/
def DroppedAfter (c : CheckLog) : Prop :=
  ∀ before id after, c.events = before ++ .dropped id :: after →
    (.call (.readDraft false) ∈ before ∧ .foundClear ∈ before) ∨
      SwitchedTo c.schedule.target false before

theorem Proper.pendingKept {c : CheckLog} (h : Proper c.schedule.target c.events) :
    PendingKept c := by
  intro hpending e he
  by_contra hwrites
  obtain ⟨before, after, hsplit⟩ := List.append_of_mem hpending
  have hbefore := h before _ after hsplit
  rw [hsplit] at he
  rcases List.mem_append.1 he with he | he
  · exact hwrites (hbefore e he)
  · rcases List.mem_cons.1 he with rfl | he
    · exact hwrites rfl
    · -- a write after the draft was found pending is not justified
      obtain ⟨mid, rest, rfl⟩ := List.append_of_mem he
      have hfound : .foundPending ∈ before ++ .foundPending :: mid :=
        List.mem_append_right _ List.mem_cons_self
      have hjust := h (before ++ .foundPending :: mid) e rest (by rw [hsplit]; simp)
      rcases e with call | r | id
      · cases call with
        | wrote t fields status applied => exact hjust hfound
        | provisioned subset status applied => exact hjust.1 hfound
        | reverted subset status applied => exact hjust.1 hfound
        | readDraft b => exact hwrites rfl
        | readActive b => exact hwrites rfl
        | readPending b => exact hwrites rfl
        | dependencies ruleset status others => exact hwrites rfl
      · exact hwrites rfl
      · exact hwrites rfl

theorem Proper.rulesetAlone {c : CheckLog} (h : Proper c.schedule.target c.events) :
    RulesetAlone c := by
  constructor
  · intro subset status applied hmem
    obtain ⟨before, after, hsplit⟩ := List.append_of_mem hmem
    obtain ⟨-, hsubset, hdependencies⟩ := h before _ after hsplit
    exact ⟨hsubset, hsplit ▸ List.mem_append_left _ hdependencies⟩
  · intro subset status applied hmem
    obtain ⟨before, after, hsplit⟩ := List.append_of_mem hmem
    exact (h before _ after hsplit).2

/-- Over every sequence of rounds and checks on demand, each stopped anywhere, whatever the PCE
answers and whatever others change: every check keeps off a pending draft and provisions and
reverts its rule set alone; where no dependency read was answered with 201, an expired schedule
went only after its target was disabled; and where the draft and the active version were also
read with one value, a switch recorded as done was written and provisioned. -/
theorem checks_keep_policy {w : State} (hpast : w.past = []) (hcurrent : w.current = none)
    (rounds : List (Occasion × List Answer)) :
    ∀ w' ∈ w :: occasions rounds w, ∀ c ∈ w'.logs,
      PendingKept c ∧ RulesetAlone c ∧ (ReadsNotCreated c.events →
        DroppedAfter c ∧ (ReadsAgree c.events → RecordedAfter c)) := by
  have hw : AllProper w := by
    intro c hc
    rw [hpast, hcurrent] at hc
    exact absurd hc List.not_mem_nil
  intro w' hw' c hc
  have hproper := allProper_occasions hw rounds w' hw' c hc
  refine ⟨hproper.pendingKept, hproper.rulesetAlone, fun hreads => ⟨?_, fun hagree => ?_⟩⟩
  · intro before id after hsplit
    exact hproper before _ after hsplit (hsplit ▸ hreads : ReadsNotCreated (before ++ _)).of_append
  · intro before r after hsplit hok want haction
    refine hproper before _ after hsplit ?_
      (hsplit ▸ hreads : ReadsNotCreated (before ++ _)).of_append hok want haction
    intro draft active hdraft hactive
    exact hagree draft active (hsplit ▸ List.mem_append_left _ hdraft)
      (hsplit ▸ List.mem_append_left _ hactive)

/-! ## A switch that was not made -/

/-- A rule set of the configured PCE. -/
def someRuleSet : Target := ⟨"1", "5", none⟩

/-- The policy with the rule set enabled or not, in both versions. -/
def policyOf (enabled : Bool) : Policy where
  draft := fun t => if t = someRuleSet then some ⟨enabled, ""⟩ else none
  active := fun t => if t = someRuleSet then some ⟨enabled, ""⟩ else none
  changed := fun _ => false
  rules := fun _ => []

/-- The rule set is to be enabled until an expiry. -/
def someSchedule : Schedule :=
  ⟨1, "https://pce", "1", someRuleSet, "rule set", .expiry 100 "", false, .active, .enabled, none, 0⟩

def scheduled (enabled : Bool) : State where
  world := ⟨policyOf enabled, [someSchedule], [], "https://pce", "1", true⟩
  past := []
  current := none
  journal := []

/-- Nobody else changes anything, and the PCE answers with the status. -/
def answer (status : Nat) : Answer := ⟨id, .answered status "", []⟩

/-- A check that enables the rule set. -/
def enablingRun : List Answer :=
  [answer 200, answer 200, answer 200, answer 200, answer 200, answer 200, answer 204, answer 200,
    answer 201, answer 200, answer 200]

/-- The check ends with the rule set enabled in both versions, and keeps to its part. -/
theorem checks_keep_policy_enabling :
    (lastState (scheduled false) (occasions [(.checkNow 1 50, enablingRun)]
      (scheduled false))).world.policy.active someRuleSet = some ⟨true, ""⟩ ∧
    ∀ w' ∈ scheduled false :: occasions [(.checkNow 1 50, enablingRun)] (scheduled false),
      ∀ c ∈ w'.logs, PendingKept c ∧ RulesetAlone c ∧ (ReadsNotCreated c.events →
        DroppedAfter c ∧ (ReadsAgree c.events → RecordedAfter c)) :=
  ⟨by decide +kernel, checks_keep_policy rfl rfl [(.checkNow 1 50, enablingRun)]⟩

/-- Between the read of the draft and that of the active version, someone disables the rule set
and provisions that. -/
def disabledMeanwhile : Answer :=
  { answer 200 with others := fun w => { w with policy := policyOf false } }

/-- The check as it goes then: it reads the draft as enabled and the active version as disabled,
writes nothing, and records that it enabled the rule set. -/
def unmadeRun : List Answer :=
  [answer 200, answer 200, answer 200, answer 200, disabledMeanwhile, answer 200, answer 200,
    answer 200]

/-- A switch is recorded as done that was neither written nor provisioned. -/
theorem records_unmade_switch :
    ¬ ∀ (w : State) (rounds : List (Occasion × List Answer)), w.past = [] → w.current = none →
      ∀ w' ∈ w :: occasions rounds w, ∀ c ∈ w'.logs,
        PendingKept c ∧ RulesetAlone c ∧ RecordedAfter c ∧ DroppedAfter c := by
  intro h
  let w' := lastState (scheduled true) (occasions [(.checkNow 1 50, unmadeRun)] (scheduled true))
  let run : Run := someSchedule.run 50 .enable .ok none none
  let c : CheckLog := ⟨someSchedule, [.call (.readDraft true), .foundClear,
    .call (.readActive false), .ran run]⟩
  have hc : c ∈ w'.logs := List.mem_singleton.2 rfl
  obtain ⟨-, -, hrecorded, -⟩ := h (scheduled true) [(.checkNow 1 50, unmadeRun)] rfl rfl w'
    (lastState_mem _ _) c hc
  obtain ⟨⟨applied, hwrote⟩, -⟩ := hrecorded
    [.call (.readDraft true), .foundClear, .call (.readActive false)] run [] rfl rfl true rfl
  simp at hwrote

end IllumioOps.RuleSchedules
