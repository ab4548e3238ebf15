import IllumioOps.Rules.Schedules

/-!
# What the calls of an operation come to

An operation on a rule set writes, provisions and reverts, and any of these can be refused, or
go without an answer and take effect all the same. `Course` keeps what came of it; `Tracked`
says that a write without a later provision or revert is a draft that differs from the active
version. The judgement `Goes` follows both through the calls of an operation that nobody
disturbs.
-/

set_option autoImplicit false

namespace IllumioOps.RuleSchedules

open Programs

/-! ## What an operation's calls come to -/

/-- The text says that a change may remain in the draft. -/
def saysDraft (text : String) : Bool :=
  "draft change remains".toList.isPrefixOf text.toList ||
    "the note remains in the draft".toList.isPrefixOf text.toList

/-- Whether a write that took effect was followed by no provision or revert that did; whether a
put-back was refused; whether the PCE answered that it did not provision; and whether a recorded
run says that a change may remain. -/
structure Course where
  leftover : Bool
  putBackRefused : Bool
  unprovisioned : Bool
  said : Bool
  deriving DecidableEq, Repr

def Course.start : Course := ⟨false, false, false, false⟩

def Course.after (f : Course) : Event → Course
  | .call (.wrote _ _ _ applied) => { f with leftover := f.leftover || applied }
  | .call (.provisioned _ status applied) =>
      { f with
        leftover := f.leftover && !applied
        unprovisioned := f.unprovisioned || (status.isSome && !applied) }
  | .call (.reverted _ status applied) =>
      { f with
        leftover := f.leftover && !applied
        putBackRefused := f.putBackRefused || (status.isSome && !applied) }
  | .call (.dependencies _ status others) =>
      { f with unprovisioned := f.unprovisioned || decide (others ≠ []) ||
          status.any fun s => decide (s ≠ 200) && decide (s ≠ 201) }
  | .ran r => { f with said := f.said || r.detail.any saysDraft }
  | _ => f

section
attribute [local simp] Course.after
end

/-- The course of an operation, from its events. -/
def courseOf (events : List Event) : Course := events.foldl Course.after Course.start

/-- The draft of the rule set equals its active version. -/
def SameDraft (p : Policy) (ruleset : Target) : Prop :=
  ∀ t, t.rulesetOf = ruleset → p.draft t = p.active t

/-- The rule set has no pending draft. -/
structure NoDraft (p : Policy) (ruleset : Target) : Prop where
  same : SameDraft p ruleset
  unchanged : ∀ t, t.rulesetOf = ruleset → p.changed t = false
  listed : ∀ t ∈ p.rules ruleset, t.rulesetOf = ruleset

/-! ## The two versions of the target -/

/-- Nothing of the rule set but the target differs between the versions. -/
structure Versions (t : Target) (live draft : Item) (p : Policy) : Prop where
  live : p.active t = some live
  draft : p.draft t = some draft
  others : ∀ u, u.rulesetOf = t.rulesetOf → u ≠ t → p.draft u = p.active u

section Versions

variable {t : Target} {live draft item : Item} {p : Policy}

theorem Versions.same_iff (h : Versions t live draft p) :
    SameDraft p t.rulesetOf ↔ draft = live := by
  constructor
  · intro hsame
    exact Option.some.inj (h.draft.symm.trans ((hsame t rfl).trans h.live))
  · rintro rfl u hu
    by_cases hut : u = t
    · rw [hut, h.draft, h.live]
    · exact h.others u hu hut

theorem Versions.write (h : Versions t live draft p) (fields : Fields) :
    Versions t live (fields.set draft) (p.write t fields) := by
  refine ⟨h.live, ?_, ?_⟩
  · simp [Policy.write, h.draft]
  · intro u hu hne
    simp only [Policy.write, Function.update_of_ne hne]
    exact h.others u hu hne

theorem Versions.provision (h : Versions t live draft p) :
    Versions t draft draft (p.provision t.rulesetOf) := by
  refine ⟨?_, h.draft, ?_⟩
  · simp [Policy.provision, h.draft]
  · intro u hu _
    simp [Policy.provision, hu]

theorem Versions.revert (h : Versions t live draft p) :
    Versions t live live (p.revert t.rulesetOf) := by
  refine ⟨h.live, ?_, ?_⟩
  · simp [Policy.revert, h.live]
  · intro u hu _
    simp [Policy.revert, hu]

theorem NoDraft.versions (h : NoDraft p t.rulesetOf) (hitem : p.draft t = some item) :
    Versions t item item p :=
  ⟨(h.same t rfl).symm.trans hitem, hitem, fun u hu _ => h.same u hu⟩

theorem NoDraft.pendingAt (h : NoDraft p t.rulesetOf) {u : Target}
    (hu : u.rulesetOf = t.rulesetOf) : p.pendingAt u = false := by
  simp only [Policy.pendingAt, h.unchanged u hu, Bool.false_or, Bool.and_eq_false_iff,
    List.any_eq_false]
  by_cases hset : u.isRuleset = true
  · refine Or.inr fun v hv => ?_
    have hself : u.rulesetOf = u := of_decide_eq_true hset
    rw [← hself, hu] at hv
    simp [h.unchanged v (h.listed v hv)]
  · exact Or.inl (Bool.eq_false_iff.2 hset)

end Versions

/-- What an operation has come to, its writes changing the target as `c` says: then a leftover is
a draft that differs from the active version. `q` holds of both. -/
def Tracked (c : Prop) (q : Item → Prop) (t : Target) (p : Policy) (f : Course) : Prop :=
  ∃ live draft, Versions t live draft p ∧ (draft ≠ live ↔ f.leftover = true ∧ c) ∧
    q live ∧ q draft

section Tracked

variable {c : Prop} {q q' : Item → Prop} {t : Target} {p : Policy} {f g : Course}

theorem Tracked.same_iff (h : Tracked c q t p f) :
    SameDraft p t.rulesetOf ↔ ¬(f.leftover = true ∧ c) := by
  obtain ⟨live, draft, hversions, hleftover, -⟩ := h
  rw [hversions.same_iff, ← hleftover, not_not]

theorem Tracked.imp (h : Tracked c q t p f) (hq : ∀ i, q i → q' i) : Tracked c q' t p f := by
  obtain ⟨live, draft, hversions, hleftover, hlive, hdraft⟩ := h
  exact ⟨live, draft, hversions, hleftover, hq live hlive, hq draft hdraft⟩

theorem Tracked.of_leftover (h : Tracked c q t p f) (hg : g.leftover = f.leftover) :
    Tracked c q t p g := by
  obtain ⟨live, draft, hversions, hleftover, hq⟩ := h
  exact ⟨live, draft, hversions, hg ▸ hleftover, hq⟩

/-- A provision or a revert that may have taken effect. -/
theorem Tracked.provision (h : Tracked c q t p f) (applied : Bool)
    (hg : g.leftover = (f.leftover && !applied)) :
    Tracked c q t (if applied then p.provision t.rulesetOf else p) g := by
  obtain ⟨live, draft, hversions, hleftover, hlive, hdraft⟩ := h
  cases applied with
  | false => exact ⟨live, draft, hversions, by simpa [hg] using hleftover, hlive, hdraft⟩
  | true => exact ⟨draft, draft, hversions.provision, by simp [hg], hdraft, hdraft⟩

theorem Tracked.revert (h : Tracked c q t p f) (applied : Bool)
    (hg : g.leftover = (f.leftover && !applied)) :
    Tracked c q t (if applied then p.revert t.rulesetOf else p) g := by
  obtain ⟨live, draft, hversions, hleftover, hlive, hdraft⟩ := h
  cases applied with
  | false => exact ⟨live, draft, hversions, by simpa [hg] using hleftover, hlive, hdraft⟩
  | true => exact ⟨live, live, hversions.revert, by simp [hg], hlive, hlive⟩

/-- A write that may have taken effect, and changes the target as `c` says. -/
theorem Tracked.write (h : Tracked c q t p f) {fields : Fields} (applied : Bool)
    (hchanges : ∀ live draft, q live → q draft → (fields.set draft ≠ live ↔ c))
    (hq : ∀ i, q i → q' i ∧ q' (fields.set i))
    (hg : g.leftover = (f.leftover || applied)) :
    Tracked c q' t (if applied then p.write t fields else p) g := by
  obtain ⟨live, draft, hversions, hleftover, hlive, hdraft⟩ := h
  cases applied with
  | false =>
      exact ⟨live, draft, hversions, by simpa [hg] using hleftover, (hq live hlive).1,
        (hq draft hdraft).1⟩
  | true =>
      exact ⟨live, fields.set draft, hversions.write fields,
        by simp [hg, hchanges live draft hlive hdraft], (hq live hlive).1, (hq draft hdraft).2⟩

end Tracked

/-! ## The judgement -/

/-- Nobody else changes anything. -/
def Undisturbed (a : Answer) : Prop := a.others = id

/-- After what was on record at the start, events whose course satisfies `K` with the policy. -/
def Now (start : List Event) (K : Policy → Course → Prop) (w : State) : Prop :=
  ∃ events, w.journal = start ++ events ∧ K w.world.policy (courseOf events)

/-- Undisturbed, the program takes `K` to `D`. -/
abbrev Goes {α : Type} (start : List Event) (K : Policy → Course → Prop) (m : Step α)
    (D : α → Policy → Course → Prop) : Prop :=
  Program.Safe Undisturbed (fun _ _ => True) (Now start K) m fun r => Now start (D r)

section Rules

variable {α : Type} {start : List Event} {K K' : Policy → Course → Prop}
  {D D' : α → Policy → Course → Prop} {w w' : State}

theorem Now.weaken (h : Now start K w) (hk : ∀ p f, K p f → K' p f) : Now start K' w := by
  obtain ⟨events, hjournal, hevents⟩ := h
  exact ⟨events, hjournal, hk _ _ hevents⟩

/-- An effect that records nothing and leaves the policy as it is. -/
theorem Now.silent (h : Now start K w) (hjournal : w'.journal = w.journal)
    (hpolicy : w'.world.policy = w.world.policy) : Now start K w' := by
  obtain ⟨events, hevents, hk⟩ := h
  exact ⟨events, hjournal.trans hevents, hpolicy ▸ hk⟩

/-- An effect that records one event. -/
theorem Now.record (h : Now start K w) {e : Event} (hjournal : w'.journal = w.journal ++ [e])
    (hk : ∀ f, K w.world.policy f → K' w'.world.policy (f.after e)) : Now start K' w' := by
  obtain ⟨events, hevents, hstart⟩ := h
  refine ⟨events ++ [e], by rw [hjournal, hevents, List.append_assoc], ?_⟩
  rw [courseOf, List.foldl_append]
  exact hk _ hstart

theorem goes_step {f : State → Answer → State × α}
    (h : ∀ w a, Now start K w → Now start (D (f w a).2) (f w a).1) :
    Goes start K (step f) D := by
  refine Program.safe_act fun w a ha hw => ⟨trivial, ?_⟩
  have hothers : ({ w with world := a.others w.world } : State) = w := by
    have ha : a.others = id := ha
    rw [ha]
    rfl
  simp only [hothers]
  exact h w a hw

theorem goes_silent {f : State → Answer → State × α}
    (hf : ∀ w a, (f w a).1.journal = w.journal ∧ (f w a).1.world.policy = w.world.policy)
    (hd : ∀ w a p f', K p f' → D (f w a).2 p f') : Goes start K (step f) D :=
  goes_step fun w a hw =>
    (hw.weaken fun p f' => hd w a p f').silent (hf w a).1 (hf w a).2

theorem goes_pure {a : α} (h : ∀ p f, K p f → D a p f) : Goes start K (pure a : Step α) D :=
  Program.safe_pure fun _ hw => hw.weaken h

theorem goes_weaken {m : Step α} (hm : Goes start K m D) (hk : ∀ p f, K' p f → K p f)
    (hd : ∀ r p f, D r p f → D' r p f) : Goes start K' m D' :=
  Program.safe_weaken hm (fun _ hw => hw.weaken hk) fun r _ hw => hw.weaken (hd r)

theorem goes_fact {m : Step α} {c : Prop} (hc : ∀ p f, K p f → c)
    (hm : c → Goes start K m D) : Goes start K m D := by
  refine Program.safe_fact (c := c) ?_ hm
  rintro w ⟨events, -, hk⟩
  exact hc _ _ hk

/-! ## The calls -/

/-- A read shows what is there. -/
theorem goes_readItem {look : Policy → Target → Option Item} {seen : Bool → Call}
    (hseen : ∀ f enabled, Course.after f (.call (seen enabled)) = f) (t : Target) :
    Goes start K (readItem look seen t) fun r p f =>
      (∀ resp, r = .ok resp → (resp.status = 200 → resp.item.isSome) ∧
        ∀ item, resp.item = some item → look p t = some item) ∧ K p f := by
  refine goes_step fun w a hw => ?_
  have hnone : ∀ r : Except Failure Response,
      (∀ resp, r = .ok resp → resp.status ≠ 200 ∧ resp.item = none) →
      Now start (fun p f => (∀ resp, r = .ok resp → (resp.status = 200 → resp.item.isSome) ∧
        ∀ item, resp.item = some item → look p t = some item) ∧ K p f) w := by
    refine fun r hr => hw.weaken fun p f hk => ⟨fun resp h => ?_, hk⟩
    obtain ⟨hstatus, hitem⟩ := hr resp h
    exact ⟨fun hok => absurd hok hstatus, fun item hsome => absurd (hitem.symm.trans hsome) (by simp)⟩
  cases hreply : a.reply with
  | lost kind error applied => exact hnone _ fun resp h => absurd h (by simp)
  | answered status body =>
      simp only
      split
      · cases hlook : look w.world.policy t with
        | none =>
            refine hnone _ fun resp h => ?_
            obtain rfl := Except.ok.inj h
            exact ⟨by simp, rfl⟩
        | some item =>
            refine hw.record rfl fun f hk => ⟨fun resp h => ?_, ?_⟩
            · obtain rfl := Except.ok.inj h
              refine ⟨fun _ => rfl, fun item' hitem => ?_⟩
              obtain rfl := Option.some.inj hitem
              exact hlook
            · rw [hseen]
              exact hk
      · rename_i hstatus
        refine hnone _ fun resp h => ?_
        obtain rfl := Except.ok.inj h
        exact ⟨hstatus, rfl⟩

/-- A write call: it takes effect when it is answered as done, and may when it is not
answered. -/
theorem goes_send {effect : Policy → Policy} {done : Nat} {sent : Option Nat → Bool → Call}
    {D : Except Failure Response → Policy → Course → Prop}
    (hlost : ∀ p f kind error applied, K p f → D (.error (.noAnswer kind error))
      (if applied then effect p else p) (f.after (.call (sent none applied))))
    (hanswered : ∀ p f status body, K p f → D (.ok ⟨status, body, none⟩)
      (if status = done then effect p else p)
      (f.after (.call (sent (some status) (decide (status = done)))))) :
    Goes start K (send effect done sent) D := by
  refine goes_step fun w a hw => ?_
  cases hreply : a.reply with
  | lost kind error applied =>
      cases applied with
      | false => exact hw.record rfl fun f hk => hlost _ f kind error false hk
      | true => exact hw.record rfl fun f hk => hlost _ f kind error true hk
  | answered status body =>
      refine hw.record (by dsimp only; split <;> rfl) fun f hk => ?_
      have h := hanswered _ f status body hk
      by_cases hstatus : status = done
      · simp only [hstatus, if_true, decide_true] at h ⊢
        exact h
      · simp only [hstatus, if_false, decide_false] at h ⊢
        exact h

/-- The dependency read changes nothing of the policy. -/
theorem goes_dependencies {ruleset : Target}
    {D : Except Failure (Response × List String) → Policy → Course → Prop}
    (hlost : ∀ p f kind error, K p f → D (.error (.noAnswer kind error)) p f)
    (hanswered : ∀ p f status body others, K p f → (status ≠ 200 → others = []) →
      D (.ok (⟨status, body, none⟩, others)) p
        (f.after (.call (.dependencies ruleset (some status) others)))) :
    Goes start K (dependencies ruleset) D := by
  refine goes_step fun w a hw => ?_
  cases hreply : a.reply with
  | lost kind error applied =>
      refine hw.record rfl fun f hk => ?_
      have hsame : f.after (.call (.dependencies ruleset none [])) = f := by
        cases f
        simp [Course.after]
      rw [hsame]
      exact hlost _ f kind error hk
  | answered status body =>
      refine hw.record rfl fun f hk => hanswered _ f status body _ hk fun hstatus => ?_
      exact if_neg hstatus

/-- Without a pending draft none is found. -/
theorem goes_draftPending {t : Target} (hk : ∀ p f, K p f → NoDraft p t.rulesetOf) :
    Goes start K (draftPending t) fun r p f => r ≠ .ok true ∧ K p f := by
  have hread : ∀ u last, u.rulesetOf = t.rulesetOf →
      Goes start K (readPending u last) fun r p f => r ≠ .ok true ∧ K p f := by
    intro u last hu
    refine goes_step fun w a hw => ?_
    have herror : ∀ f, Now start (fun p f' => (.error f : Except Failure Bool) ≠ .ok true ∧
        K p f') w := fun f => hw.weaken fun p f' hk' => ⟨by simp, hk'⟩
    cases hreply : a.reply with
    | lost kind error applied => exact herror _
    | answered status body =>
        simp only
        split
        · have hpending : w.world.policy.pendingAt u = false := by
            obtain ⟨events, -, hevents⟩ := hw
            exact (hk _ _ hevents).pendingAt hu
          rw [hpending]
          cases last with
          | true => exact hw.record rfl fun f hk' => ⟨by simp, hk'⟩
          | false => exact hw.weaken fun p f hk' => ⟨by simp, hk'⟩
        · exact herror _
  rw [draftPending]
  split
  · exact hread t true rfl
  · refine Program.safe_bind (hread t false rfl) ?_
    rintro (f | _ | _)
    · exact goes_pure fun p f' h => ⟨by simp, h.2⟩
    · exact goes_weaken (hread t.rulesetOf true rfl) (fun p f h => h.2) fun _ _ _ h => h
    · exact goes_pure fun p f h => absurd rfl h.1

end Rules

/-! ## Writing, provisioning and putting back -/

/-- Nothing was refused, and nothing said. -/
structure Calm (f : Course) : Prop where
  putBack : f.putBackRefused = false
  said : f.said = false
  provisioned : f.unprovisioned = false

/-- An operation that goes on: nothing was refused, and nothing said. -/
def Underway (c : Prop) (q : Item → Prop) (t : Target) (p : Policy) (f : Course) : Prop :=
  Tracked c q t p f ∧ Calm f

section Writes

variable {start : List Event} {c : Prop} {q q' : Item → Prop} {t : Target}

/-- A write of the target; where it is refused, what was left before is left. -/
theorem goes_setFields {fields : Fields} (c : Prop) (q q' : Item → Prop) (clear : Prop)
    (hchanges : ∀ live draft, q live → q draft → (fields.set draft ≠ live ↔ c))
    (hq : ∀ i, q i → q' i ∧ q' (fields.set i)) :
    Goes start (fun p f => Underway c q t p f ∧ (clear → f.leftover = false))
      (setFields t fields) fun r p f => Underway c q' t p f ∧
        ∀ resp, r = .ok resp → resp.status ≠ 204 → clear → f.leftover = false := by
  refine goes_send ?_ ?_
  · rintro p f kind error applied ⟨⟨htracked, hcalm⟩, -⟩
    refine ⟨⟨htracked.write _ hchanges hq rfl, ⟨hcalm.putBack, hcalm.said, hcalm.provisioned⟩⟩, ?_⟩
    exact fun resp hr => absurd hr (by simp)
  · rintro p f status body ⟨⟨htracked, hcalm⟩, hclear⟩
    refine ⟨⟨?_, ⟨hcalm.putBack, hcalm.said, hcalm.provisioned⟩⟩, ?_⟩
    · have hwrite := htracked.write (decide (status = 204))
        (g := f.after (.call (.wrote t fields (some status) (decide (status = 204)))))
        hchanges hq rfl
      simpa using hwrite
    · intro resp hr hstatus hc
      obtain rfl := Except.ok.inj hr
      have hstatus : status ≠ 204 := hstatus
      simp [Course.after, hclear hc, hstatus]

/-- What `provision` returns tells whether the PCE answered that it did not provision. -/
def Told (r : Provisioned) (f : Course) : Prop :=
  f.unprovisioned = true ↔ match r with
    | .answered r => r.status ≠ 201
    | .dependencies _ => True
    | .failed _ => False

/-- What the dependency read returns tells whether it stopped the provision. -/
def DependenciesTold (r : Except Failure (Response × List String)) (f : Course) : Prop :=
  match r with
  | .error _ => f.unprovisioned = false
  | .ok (r, others) =>
      (f.unprovisioned = true ↔ others ≠ [] ∨ r.status ≠ 200 ∧ r.status ≠ 201) ∧
        (r.status ≠ 200 → others = [])

/-- What the provision itself returns tells whether the PCE refused it. -/
def ProvisionTold (r : Except Failure Response) (f : Course) : Prop :=
  match r with
  | .error _ => f.unprovisioned = false
  | .ok r => f.unprovisioned = true ↔ r.status ≠ 201

theorem goes_provision :
    Goes start (Underway c q t) (provision t.rulesetOf) fun r p f =>
      Tracked c q t p f ∧ f.putBackRefused = false ∧ f.said = false ∧ Told r f := by
  rw [provision]
  refine Program.safe_bind (goes_dependencies (D := fun r p f => Tracked c q t p f ∧
      f.putBackRefused = false ∧ f.said = false ∧ DependenciesTold r f) ?_ ?_) ?_
  · rintro p f kind error ⟨htracked, hcalm⟩
    exact ⟨htracked, hcalm.putBack, hcalm.said, hcalm.provisioned⟩
  · rintro p f status body others ⟨htracked, hcalm⟩ hothers
    refine ⟨htracked.of_leftover rfl, hcalm.putBack, hcalm.said, ?_, hothers⟩
    simp [Course.after, hcalm.provisioned]
  · rintro (e | ⟨r, others⟩)
    · refine goes_pure fun p f h => ⟨h.1, h.2.1, h.2.2.1, ?_⟩
      have hun : f.unprovisioned = false := h.2.2.2
      simp [Told, hun]
    · simp only
      split
      · rename_i hstatus
        refine goes_pure fun p f h => ⟨h.1, h.2.1, h.2.2.1, ?_⟩
        rw [Told, h.2.2.2.1, h.2.2.2.2 hstatus]
        simp [hstatus]
      · split
        · rename_i hothers
          exact goes_pure fun p f h => ⟨h.1, h.2.1, h.2.2.1, by simp [Told, h.2.2.2.1, hothers]⟩
        · rename_i hstatus hothers
          have hstatus : r.status = 200 := by simpa using hstatus
          have hothers : others = [] := by simpa using hothers
          refine Program.safe_bind (goes_send (D := fun r p f => Tracked c q t p f ∧
            f.putBackRefused = false ∧ f.said = false ∧ ProvisionTold r f) ?_ ?_) ?_
          · rintro p f kind error applied ⟨htracked, hrefused, hsaid, hun, -⟩
            refine ⟨htracked.provision _ rfl, hrefused, hsaid, ?_⟩
            have hun : f.unprovisioned = false := by simpa [hothers, hstatus] using hun
            simp [ProvisionTold, Course.after, hun]
          · rintro p f status body ⟨htracked, hrefused, hsaid, hun, -⟩
            have hun : f.unprovisioned = false := by simpa [hothers, hstatus] using hun
            refine ⟨?_, hrefused, hsaid, ?_⟩
            · have hprovision := htracked.provision (decide (status = 201))
                (g := f.after (.call (.provisioned [t.rulesetOf] (some status)
                  (decide (status = 201))))) rfl
              simpa using hprovision
            · simp [ProvisionTold, Course.after, hun]
          · rintro (e | r)
            · refine goes_pure fun p f h => ⟨h.1, h.2.1, h.2.2.1, ?_⟩
              have hun : f.unprovisioned = false := h.2.2.2
              simp [Told, hun]
            · exact goes_pure fun p f h => ⟨h.1, h.2.1, h.2.2.1, h.2.2.2⟩

/-- Nothing was said, and no put-back refused. -/
def Unsaid (c : Prop) (q : Item → Prop) (t : Target) (p : Policy) (f : Course) : Prop :=
  Tracked c q t p f ∧ f.putBackRefused = false ∧ f.said = false

/-- The revert of a put-back: answered with 204, no leftover; with another status, refused. -/
theorem goes_revert :
    Goes start (Unsaid c q t) (revert t.rulesetOf) fun r p f =>
      Tracked c q t p f ∧ f.said = false ∧ match r with
        | .error _ => f.putBackRefused = false
        | .ok r => (f.putBackRefused = true ↔ r.status ≠ 204) ∧
            (r.status = 204 → f.leftover = false) := by
  refine goes_send ?_ ?_
  · rintro p f kind error applied ⟨htracked, hrefused, hsaid⟩
    exact ⟨htracked.revert _ rfl, hsaid, by simp [Course.after, hrefused]⟩
  · rintro p f status body ⟨htracked, hrefused, hsaid⟩
    refine ⟨?_, hsaid, ?_, ?_⟩
    · have hrevert := htracked.revert (decide (status = 204))
        (g := f.after (.call (.reverted [t.rulesetOf] (some status) (decide (status = 204))))) rfl
      simpa using hrevert
    · simp [Course.after, hrefused]
    · intro hstatus
      have hstatus : status = 204 := hstatus
      simp [Course.after, hstatus]

/-- What a switch, ended so, has come to. -/
def SwitchEnds (c : Prop) (q : Item → Prop) (t : Target) (r : Switched) (p : Policy)
    (f : Course) : Prop :=
  Tracked c q t p f ∧ f.said = false ∧ match r with
    | .done => f.putBackRefused = false ∧ f.unprovisioned = false
    | .refused _ => f.putBackRefused = false ∧ f.leftover = false
    | .dependencies _ => f.putBackRefused = false
    | .undoFailed _ _ => f.putBackRefused = true
    | .failed _ => f.putBackRefused = false

theorem goes_putBack (hrefs : List String) {outcome : Switched} (hdone : outcome ≠ .done)
    (hundo : ∀ hrefs answer, outcome ≠ .undoFailed hrefs answer) :
    Goes start (Unsaid c q t) (putBack t hrefs outcome) (SwitchEnds c q t) := by
  rw [putBack]
  apply Program.safe_bind goes_revert
  rintro (e | r)
  · exact goes_pure fun p f h => h
  · simp only
    split
    · rename_i hstatus
      exact goes_pure fun p f h => ⟨h.1, h.2.1, h.2.2.1.2 hstatus⟩
    · rename_i hstatus
      refine goes_pure fun p f h => ⟨h.1, h.2.1, ?_⟩
      have hrefused : f.putBackRefused = false :=
        Bool.eq_false_iff.2 fun hr => hstatus (h.2.2.1.1 hr)
      have hleftover := h.2.2.2 (by simpa using hstatus)
      cases outcome with
      | done => exact absurd rfl hdone
      | refused r => exact ⟨hrefused, hleftover⟩
      | dependencies hrefs => exact hrefused
      | undoFailed hrefs answer => exact absurd rfl (hundo hrefs answer)
      | failed f => exact hrefused

end Writes

end IllumioOps.RuleSchedules
