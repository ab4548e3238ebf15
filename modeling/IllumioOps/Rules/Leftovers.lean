import IllumioOps.Rules.Course
import IllumioOps.Rules.Changes

/-!
# What an operation leaves in the draft

An operation on a rule set without a pending draft, undisturbed by others, ends with the draft
equal to the active version, or says that a change may remain, exactly when the writes that took
effect were provisioned or taken back, the put-back was refused (that is said), or, deleting, the
PCE did not provision the cleared note (`leftover_said_iff`). Otherwise the leftover is silent: an
expiry whose cleared note needs other objects ends with it (`silent_leftover`).
-/

set_option autoImplicit false

namespace IllumioOps.RuleSchedules

open Programs

/-! ## The texts -/

section Texts

variable {text head tail : String} {x : Char}

/-- A text that says so starts with one of two letters. -/
theorem saysDraft_head (h : saysDraft text = true) :
    ∃ x rest, text.toList = x :: rest ∧ (x = 'd' ∨ x = 't') := by
  rw [saysDraft, Bool.or_eq_true, List.isPrefixOf_iff_prefix, List.isPrefixOf_iff_prefix] at h
  rcases h with ⟨rest, h⟩ | ⟨rest, h⟩
  · exact ⟨'d', _, h.symm, Or.inl rfl⟩
  · exact ⟨'t', _, h.symm, Or.inr rfl⟩

theorem saysDraft_eq_false {rest : List Char} (htext : text.toList = x :: rest)
    (hd : x ≠ 'd') (ht : x ≠ 't') : saysDraft text = false := by
  refine Bool.eq_false_iff.2 fun h => ?_
  obtain ⟨y, rest', hsays, hy⟩ := saysDraft_head h
  obtain ⟨rfl, -⟩ := List.cons.inj (htext.symm.trans hsays)
  exact hy.elim hd ht

theorem saysDraft_append_eq_false (hhead : head.toList.head? = some x) (hd : x ≠ 'd')
    (ht : x ≠ 't') : saysDraft (head ++ tail) = false := by
  obtain ⟨rest, hrest⟩ := List.head?_eq_some_iff.1 hhead
  refine saysDraft_eq_false (?_ : (head ++ tail).toList = x :: (rest ++ tail.toList)) hd ht
  rw [String.toList_append, hrest, List.cons_append]

theorem saysDraft_remains (tail : String) :
    saysDraft ("draft change remains (put back refused: " ++ tail) = true := by
  rw [saysDraft, Bool.or_eq_true, List.isPrefixOf_iff_prefix, String.toList_append]
  refine Or.inl ((?_ : _ <+: _).trans (List.prefix_append _ _))
  decide +kernel

theorem saysDraft_noteRemains (tail : String) :
    saysDraft ("the note remains in the draft: " ++ tail) = true := by
  rw [saysDraft, Bool.or_eq_true, List.isPrefixOf_iff_prefix, List.isPrefixOf_iff_prefix,
    String.toList_append]
  refine Or.inr ((?_ : _ <+: _).trans (List.prefix_append _ _))
  decide +kernel

/-- A failure of the PCE does not say it. -/
theorem saysDraft_failure (f : Failure) : saysDraft f.text = false := by
  cases f with
  | noAnswer kind error =>
      change saysDraft (kind.name ++ ": " ++ error) = false
      rw [String.append_assoc]
      refine saysDraft_append_eq_false (x := 'P') ?_ (by decide) (by decide)
      cases kind with
      | transport => decide +kernel
      | budget => decide +kernel
  | policyRead status =>
      change saysDraft ("PolicyReadError: HTTP " ++ toString status) = false
      exact saysDraft_append_eq_false (x := 'P') (by decide +kernel) (by decide) (by decide)

/-- A stored run says what the run says: the texts fit into what is kept of a detail. -/
theorem saysDraft_stored (r : Run) : r.stored.detail.any saysDraft = r.detail.any saysDraft := by
  rcases hdetail : r.detail with _ | text
  · simp [Run.stored, hdetail]
  · simp only [Run.stored, hdetail, Option.any_some]
    split
    · rename_i hempty
      rw [hempty]
      decide +kernel
    · simp only [Option.any_some, saysDraft, String.toList_ofList]
      rw [Bool.eq_iff_iff]
      simp only [Bool.or_eq_true, List.isPrefixOf_iff_prefix, List.prefix_take_iff]
      constructor
      · rintro (⟨h, -⟩ | ⟨h, -⟩)
        · exact Or.inl h
        · exact Or.inr h
      · rintro (h | h)
        · exact Or.inl ⟨h, by decide +kernel⟩
        · exact Or.inr ⟨h, by decide +kernel⟩

/-- The detail of a deleted schedule's run does not say it. -/
theorem saysDraft_deleteDetail (by_ : String) (out : DeleteResult) :
    saysDraft (deleteDetail by_ out) = false := by
  refine Bool.eq_false_iff.2 fun h => ?_
  obtain ⟨x, rest, hsays, hx⟩ := saysDraft_head h
  obtain ⟨more, hmore⟩ : ∃ more, ("by " ++ by_ ++ "; " ++ out.detail.getD "").toList =
      'b' :: more := ⟨_, by simp only [String.toList_append]; rfl⟩
  simp only [deleteDetail, hmore, String.toList_ofList] at hsays
  -- what is left of the text is a prefix of it, and its first letter is no separator
  rw [List.dropWhile_cons_of_neg (by decide)] at hsays
  have hkept : x :: rest <+: 'b' :: more := by
    rw [← hsays]
    exact List.reverse_suffix.1 (by rw [List.reverse_reverse]; exact List.dropWhile_suffix _)
  obtain ⟨rfl, -⟩ := List.cons_prefix_cons.1 hkept
  exact hx.elim (by decide) (by decide)

end Texts

/-! ## The switch and the note of a check -/

section Check

variable {start : List Event} {t : Target} {item : Item}

/-- Nothing has happened yet, and the rule set has no pending draft. -/
def Fresh (t : Target) (p : Policy) (f : Course) : Prop :=
  NoDraft p t.rulesetOf ∧ f = Course.start

theorem Fresh.underway {c : Prop} {p : Policy} {f : Course} (h : Fresh t p f)
    (hitem : p.draft t = some item) : Underway c (fun i => i = item) t p f ∧ f.leftover = false := by
  obtain ⟨hnone, rfl⟩ := h
  refine ⟨⟨⟨item, item, hnone.versions hitem, ?_, rfl, rfl⟩, ⟨rfl, rfl, rfl⟩⟩, rfl⟩
  simp [Course.start]

/-- What the switch leaves of the description. -/
def Described (description : String) (i : Item) : Prop := i.description = description

theorem goes_switch (enabled : Bool) :
    Goes start (fun p f => Fresh t p f ∧ p.draft t = some item)
      (switch t enabled item.enabled) (SwitchEnds True (Described item.description) t) := by
  rw [switch]
  split
  · refine goes_pure fun p f h => ?_
    obtain ⟨⟨htracked, hcalm⟩, -⟩ := h.1.underway (c := True) h.2
    refine ⟨htracked.imp ?_, hcalm.said, hcalm.putBack, hcalm.provisioned⟩
    rintro i rfl
    rfl
  · rename_i hdiffers
    refine Program.safe_bind (goes_weaken (goes_setFields True (fun i => i = item)
      (Described item.description) True ?_ ?_)
      (fun p f h => ⟨(h.1.underway h.2).1, fun _ => (h.1.underway (c := True) h.2).2⟩)
      fun _ _ _ h => h) ?_
    · rintro live draft rfl rfl
      refine ⟨fun _ => trivial, fun _ heq => hdiffers ?_⟩
      exact (congrArg Item.enabled heq).symm
    · rintro i rfl
      exact ⟨rfl, rfl⟩
    · rintro (e | r)
      · exact goes_pure fun p f h => ⟨h.1.1, h.1.2.said, h.1.2.putBack⟩
      · simp only
        split
        · rename_i hstatus
          exact goes_pure fun p f h => ⟨h.1.1, h.1.2.said, h.1.2.putBack, h.2 r rfl hstatus trivial⟩
        · refine Program.safe_bind (goes_weaken goes_provision (fun _ _ h => h.1)
            fun _ _ _ h => h) ?_
          rintro (r | hrefs | e)
          · simp only
            split
            · rename_i hstatus
              refine goes_pure fun p f h => ⟨h.1, h.2.2.1, h.2.1, ?_⟩
              exact Bool.eq_false_iff.2 fun hun => h.2.2.2.1 hun hstatus
            · exact goes_weaken (goes_putBack [] (by simp) (by simp))
                (fun p f h => ⟨h.1, h.2.1, h.2.2.1⟩) fun _ _ _ h => h
          · exact goes_weaken (goes_putBack hrefs (by simp) (by simp))
              (fun p f h => ⟨h.1, h.2.1, h.2.2.1⟩) fun _ _ _ h => h
          · exact goes_weaken (goes_putBack [] (by simp) (by simp))
              (fun p f h => ⟨h.1, h.2.1, h.2.2.1⟩) fun _ _ _ h => h

/-- The note is cleared after a switch that was done: nothing is said, and nothing put back. -/
theorem goes_clearNote {draft : Response} (hdraft : draft.item = some item) :
    Goes start (SwitchEnds True (Described item.description) t .done) (clearNote t draft)
      fun _ => Unsaid True (fun _ => True) t := by
  rw [clearNote]
  simp only [hdraft, Option.map_some, Option.getD_some]
  split
  · exact goes_pure fun p f h => ⟨h.1.imp fun _ _ => trivial, h.2.2.1, h.2.1⟩
  · rename_i hclean
    refine Program.safe_bind (goes_weaken (goes_setFields True
      (Described item.description) (fun _ => True) False ?_ fun _ _ => ⟨trivial, trivial⟩)
      (fun p f h => ⟨⟨h.1, ⟨h.2.2.1, h.2.1, h.2.2.2⟩⟩, fun h => h.elim⟩) fun _ _ _ h => h) ?_
    · intro live draft hlive _
      refine ⟨fun _ => trivial, fun _ heq => hclean ?_⟩
      exact (congrArg Item.description heq).trans hlive
    · rintro (e | r)
      · exact goes_pure fun p f h => ⟨h.1.1, h.1.2.putBack, h.1.2.said⟩
      · simp only
        split
        · exact goes_pure fun p f h => ⟨h.1.1, h.1.2.putBack, h.1.2.said⟩
        · refine Program.safe_bind (goes_weaken goes_provision (fun _ _ h => h.1)
            fun _ _ _ h => h) ?_
          rintro (r | hrefs | e)
          · exact goes_pure fun p f h => ⟨h.1, h.2.1, h.2.2.1⟩
          · exact goes_pure fun p f h => ⟨h.1, h.2.1, h.2.2.1⟩
          · exact goes_pure fun p f h => ⟨h.1, h.2.1, h.2.2.1⟩

end Check

/-! ## A check -/

/-- A run is on record. -/
def Course.say (f : Course) (tells : Bool) : Course := { f with said := f.said || tells }

@[simp] theorem Course.say_leftover (f : Course) (tells : Bool) :
    (f.say tells).leftover = f.leftover := rfl

section Records

variable {start : List Event} {K : Policy → Course → Prop} {D : Policy → Course → Prop}

theorem goes_addRun {r : Run}
    (h : ∀ p f, K p f → D p (f.say (r.detail.any saysDraft))) :
    Goes start K (addRun r) fun _ => D := by
  refine goes_step fun w a hw => hw.record rfl fun f hk => ?_
  have hafter : f.after (.ran r.stored) = f.say (r.detail.any saysDraft) := by
    rw [← saysDraft_stored]
    rfl
  rw [hafter]
  exact h _ f hk

theorem goes_setChecked (row : Schedule) (pceStatus : PceStatus) (live : Live) (at_ : Int) :
    Goes start K (setChecked row pceStatus live at_) fun _ => K :=
  goes_silent (fun _ _ => ⟨rfl, rfl⟩) fun _ _ _ _ h => h

theorem goes_dropRow (row : Schedule) : Goes start K (dropRow row) fun _ => K :=
  goes_step fun _ _ hw => hw.record rfl fun _ hk => hk

end Records

section Ended

variable {start : List Event} {c : Prop} {q : Item → Prop} {t : Target} {item : Item}
  {p : Policy} {f : Course} {row : Schedule}

/-- What a check that is over has come to: a refused put-back is on record, and where a change is
said to remain without one, none does. -/
structure Over (t : Target) (p : Policy) (f : Course) : Prop where
  same : SameDraft p t.rulesetOf ↔ f.leftover = false
  refused : f.putBackRefused = true → f.said = true
  said : f.said = true → f.putBackRefused = true ∨ f.leftover = false

theorem Fresh.over (h : Fresh t p f) (tells : Bool) : Over t p (f.say tells) := by
  obtain ⟨hnone, rfl⟩ := h
  exact ⟨⟨fun _ => rfl, fun _ => hnone.same⟩, fun hr => absurd hr Bool.false_ne_true,
    fun _ => Or.inr rfl⟩

theorem Unsaid.over (h : Unsaid True q t p f) {tells : Bool}
    (htells : tells = true → f.leftover = false) : Over t p (f.say tells) := by
  obtain ⟨htracked, hrefused, hsaid⟩ := h
  refine ⟨?_, fun hr => ?_, fun hs => ?_⟩
  · simpa using htracked.same_iff
  · exact absurd (hrefused.symm.trans hr) Bool.false_ne_true
  · exact Or.inr (htells (by simpa [Course.say, hsaid] using hs))

/-- How `_apply`, ended so, leaves the check. -/
def ApplyEnds (t : Target) (r : Applied) (p : Policy) (f : Course) : Prop :=
  match r with
  | .outcome _ => Over t p f
  | .undoFailed _ _ => Tracked True (fun _ => True) t p f ∧ f.putBackRefused = true
  | .dependencies _ => Unsaid True (fun _ => True) t p f
  | .failed _ => Unsaid True (fun _ => True) t p f

theorem Fresh.quiet (h : Fresh t p f) : Over t p f := by
  simpa [Course.say] using h.over false

theorem Underway.unsaid (h : Underway True q t p f) : Unsaid True (fun _ => True) t p f :=
  ⟨h.1.imp fun _ _ => trivial, h.2.putBack, h.2.said⟩

theorem SwitchEnds.unsaid {r : Switched} (h : SwitchEnds True q t r p f)
    (hrefused : f.putBackRefused = false) : Unsaid True (fun _ => True) t p f :=
  ⟨h.1.imp fun _ _ => trivial, hrefused, h.2.1⟩

theorem goes_settleApplied (at_ : Int) (applied : Applied) :
    Goes start (ApplyEnds t applied) (settleApplied row at_ applied) fun r p f =>
      match r with
      | .ok _ => Over t p f
      | .error _ => Unsaid True (fun _ => True) t p f := by
  cases applied with
  | outcome o => exact goes_pure fun _ _ h => h
  | failed e => exact goes_pure fun _ _ h => h
  | dependencies hrefs =>
      rw [settleApplied]
      refine Program.safe_bind (goes_addRun (D := Over t) fun p f h => Unsaid.over h fun hsays => ?_)
        fun _ => goes_pure fun _ _ h => h
      have hnot : saysDraft ("needs unprovisioned objects: " ++ ", ".intercalate hrefs) = false :=
        saysDraft_append_eq_false (x := 'n') (by decide +kernel) (by decide) (by decide)
      exact absurd (hnot.symm.trans hsays) Bool.false_ne_true
  | undoFailed hrefs answer =>
      rw [settleApplied]
      refine Program.safe_bind (goes_addRun (D := Over t) fun p f h => ?_)
        fun _ => goes_pure fun _ _ h => h
      have hsays := saysDraft_remains (answer.detail ++ "); needs unprovisioned objects: " ++
        ", ".intercalate hrefs)
      refine ⟨?_, fun _ => ?_, fun _ => Or.inl h.2⟩
      · simpa using h.1.same_iff
      · simpa [Course.say, Schedule.run, String.append_assoc] using Or.inr hsays

theorem goes_endSchedule {draft : Response} (hdraft : draft.item = some item) (at_ : Int) :
    Goes start (SwitchEnds True (Described item.description) row.target .done)
      (endSchedule row draft at_) (ApplyEnds row.target) := by
  rw [endSchedule]
  refine Program.safe_bind (goes_clearNote hdraft) ?_
  rintro (e | note)
  · exact goes_pure fun _ _ h => h
  · refine Program.safe_bind (goes_dropRow _) fun _ => ?_
    refine Program.safe_bind (goes_addRun (D := Over row.target) fun p f h => Unsaid.over h fun hsays => ?_)
      fun _ => goes_pure fun _ _ h => h
    cases note with
    | none => exact absurd hsays (by simp [Schedule.lastRun, Schedule.run])
    | some r =>
        have hnot : saysDraft ("note not cleared: HTTP " ++ (toString r.status ++ (" " ++ r.detail)))
            = false := saysDraft_append_eq_false (x := 'n') (by decide +kernel) (by decide) (by decide)
        rw [← String.append_assoc, ← String.append_assoc] at hnot
        exact absurd (hnot.symm.trans hsays) Bool.false_ne_true

/-- The target's draft is the item, and nothing has happened yet. -/
def Before (t : Target) (item : Item) (p : Policy) (f : Course) : Prop :=
  Fresh t p f ∧ p.draft t = some item

theorem goes_applyExpired {draft : Response} (hdraft : draft.item = some item) (at_ : Int) :
    Goes start (Before row.target item) (applyExpired row draft item.enabled at_)
      (ApplyEnds row.target) := by
  rw [applyExpired]
  refine Program.safe_bind (goes_switch false) ?_
  rintro (_ | r | hrefs | ⟨hrefs, answer⟩ | e)
  · exact goes_endSchedule hdraft at_
  · refine Program.safe_bind (goes_addRun (D := Over row.target) fun p f h => ?_)
      fun _ => goes_pure fun _ _ h => h
    exact (SwitchEnds.unsaid h h.2.2.1).over fun _ => h.2.2.2
  · exact goes_pure fun p f h => SwitchEnds.unsaid h h.2.2
  · exact goes_pure fun p f h => ⟨h.1.imp fun _ _ => trivial, h.2.2⟩
  · exact goes_pure fun p f h => SwitchEnds.unsaid h h.2.2

theorem goes_applyWant (live want : Bool) (at_ : Int) :
    Goes start (Before row.target item) (applyWant row item.enabled live want at_)
      (ApplyEnds row.target) := by
  rw [applyWant]
  refine Program.safe_bind (goes_setChecked row .active (Live.of live) at_) fun _ => ?_
  split
  · exact goes_pure fun p f h => h.1.quiet
  · refine Program.safe_bind (goes_switch want) ?_
    rintro (_ | r | hrefs | ⟨hrefs, answer⟩ | e)
    · refine Program.safe_bind (goes_setChecked row .active (Live.of want) at_) fun _ => ?_
      refine Program.safe_bind (goes_addRun (D := Over row.target) fun p f h => ?_)
        fun _ => goes_pure fun _ _ h => h
      exact (SwitchEnds.unsaid h h.2.2.1).over fun hsays => absurd hsays (by simp [Schedule.run])
    · refine Program.safe_bind (goes_addRun (D := Over row.target) fun p f h => ?_)
        fun _ => goes_pure fun _ _ h => h
      exact (SwitchEnds.unsaid h h.2.2.1).over fun _ => h.2.2.2
    · exact goes_pure fun p f h => SwitchEnds.unsaid h h.2.2
    · exact goes_pure fun p f h => ⟨h.1.imp fun _ _ => trivial, h.2.2⟩
    · exact goes_pure fun p f h => SwitchEnds.unsaid h h.2.2

theorem goes_applyLive (want : Bool) (at_ : Int) :
    Goes start (Before row.target item) (applyLive row item.enabled want at_)
      (ApplyEnds row.target) := by
  rw [applyLive]
  refine Program.safe_bind (goes_readItem (fun _ _ => rfl) row.target) ?_
  rintro (e | active)
  · exact goes_pure fun p f h => (h.2.1.underway h.2.2).1.unsaid
  · simp only
    split
    · refine Program.safe_bind (goes_setChecked row .unknown .unknown at_) fun _ => ?_
      exact goes_pure fun p f h => h.2.1.quiet
    · split
      · refine Program.safe_bind (goes_addRun (D := Over row.target) fun p f h => ?_)
          fun _ => goes_pure fun _ _ h => h
        exact h.2.1.over _
      · exact goes_weaken (goes_applyWant _ want at_) (fun p f h => h.2) fun _ _ _ h => h

theorem goes_apply {draft : Response} (hdraft : draft.item = some item) (want : Want)
    (at_ : Int) :
    Goes start (Before row.target item) (apply row draft want at_) (ApplyEnds row.target) := by
  have hbefore : (draft.item.map Item.enabled).getD false = item.enabled := by simp [hdraft]
  rw [apply.eq_def, hbefore]
  cases want with
  | expired => exact goes_applyExpired hdraft at_
  | enabled => exact goes_applyLive true at_
  | disabled => exact goes_applyLive false at_

theorem goes_skipDraft (at_ : Int) :
    Goes start (Fresh row.target) (skipDraft row at_) fun _ => Over row.target := by
  rw [skipDraft]
  refine Program.safe_bind (goes_silent (D := fun _ => Fresh row.target) (fun _ _ => ⟨rfl, rfl⟩)
    fun _ _ _ _ h => h) fun last => ?_
  split
  · exact goes_pure fun p f h => h.quiet
  · exact Program.safe_bind (goes_addRun (D := Over row.target) fun p f h => h.over _)
      fun _ => goes_pure fun _ _ h => h

theorem goes_markDeleted (at_ : Int) :
    Goes start (Fresh row.target) (markDeleted row at_) fun _ => Over row.target := by
  rw [markDeleted]
  split
  · refine Program.safe_bind (goes_setChecked row .deleted .unknown at_) fun _ => ?_
    exact goes_pure fun p f h => h.quiet
  · refine Program.safe_bind (goes_addRun (D := Over row.target) fun p f h => h.over _) fun _ => ?_
    refine Program.safe_bind (goes_setChecked row .deleted .unknown at_) fun _ => ?_
    exact goes_pure fun _ _ h => h

/-- How a check ends: over, or with a failure that is still to be recorded. -/
def CheckEnds (t : Target) (r : Except Failure Outcome) (p : Policy) (f : Course) : Prop :=
  match r with
  | .ok _ => Over t p f
  | .error _ => Fresh t p f ∨ Unsaid True (fun _ => True) t p f

theorem goes_checkOne (at_ : Int) :
    Goes start (Fresh row.target) (checkOne row at_) (CheckEnds row.target) := by
  rw [checkOne]
  refine Program.safe_bind (goes_readItem (fun _ _ => rfl) row.target) ?_
  rintro (e | draft)
  · exact goes_pure fun p f h => Or.inl h.2
  · simp only
    split
    · refine Program.safe_bind (goes_weaken (goes_markDeleted at_) (fun p f h => h.2)
        fun _ _ _ h => h) ?_
      exact fun _ => goes_pure fun _ _ h => h
    · split
      · refine Program.safe_bind (goes_addRun (D := Over row.target) fun p f h => ?_)
          fun _ => goes_pure fun _ _ h => h
        exact h.2.over _
      · rename_i hstatus
        have hstatus : draft.status = 200 := by simpa using hstatus
        refine goes_fact (c := draft.item.isSome) (fun p f h => (h.1 draft rfl).1 hstatus) ?_
        intro hsome
        obtain ⟨item, hitem⟩ := Option.isSome_iff_exists.1 hsome
        refine Program.safe_bind (goes_weaken (goes_draftPending (K := Before row.target item)
          fun p f h => h.1.1) (fun p f h => ⟨h.2, (h.1 draft rfl).2 item hitem⟩)
          fun _ _ _ h => h) ?_
        rintro (e | _ | _)
        · exact goes_pure fun p f h => Or.inl h.2.1
        · refine Program.safe_bind (goes_weaken (goes_apply hitem _ at_) (fun p f h => h.2)
            fun _ _ _ h => h) fun applied => ?_
          refine goes_weaken (goes_settleApplied at_ applied) (fun _ _ h => h) ?_
          rintro (e | o) p f h
          · exact Or.inr h
          · exact h
        · refine Program.safe_bind (goes_weaken (goes_skipDraft at_) (fun p f h => h.2.1)
            fun _ _ _ h => h) ?_
          exact fun _ => goes_pure fun _ _ h => h

end Ended

/-! ## The note of a schedule -/

/-- A refusal says that a change may remain. -/
def Refusal.tells : Refusal → Bool
  | .pceRefused _ detail => saysDraft detail
  | _ => false

/-- So does an operation that is refused so. -/
def refusalTells {α : Type} : Except Refusal α → Bool
  | .error refusal => refusal.tells
  | .ok _ => false

/-- The text is written over another one. -/
def Rewritten (text : String → String) (o : Option Item) : Prop :=
  ∃ item, o = some item ∧ text item.description ≠ item.description

section Notes

variable {start : List Event} {c : Prop} {q : Item → Prop} {t : Target} {o : Option Item}
  {item : Item} {p : Policy} {f : Course} {α : Type}

/-- The description is rewritten as the two texts differ. -/
theorem rewritten_iff (text : String → String) {live draft : Item} (ho : o = some item)
    (hlive : live = item) (hdraft : draft = item) :
    (Fields.description (text item.description)).set draft ≠ live ↔ Rewritten text o := by
  subst hlive hdraft ho
  constructor
  · intro hne
    refine ⟨draft, rfl, fun heq => hne ?_⟩
    rw [heq]
    rfl
  · rintro ⟨item', hitem, hne⟩ heq
    obtain rfl := Option.some.inj hitem
    exact hne (congrArg Item.description heq)

/-- What writing a note, ended so, has come to: a refused put-back is told, and where a change is
told to remain without one, none does. -/
structure Noted (c : Prop) (t : Target) (tells : Bool) (p : Policy) (f : Course) : Prop where
  same : SameDraft p t.rulesetOf ↔ ¬(f.leftover = true ∧ c)
  said : f.said = false
  refused : f.putBackRefused = true → tells = true
  tells : tells = true → f.putBackRefused = true ∨ f.leftover = false

theorem Fresh.noted (h : Fresh t p f) (tells : Bool) : Noted c t tells p f := by
  obtain ⟨hnone, rfl⟩ := h
  exact ⟨⟨fun _ hl => absurd hl.1 Bool.false_ne_true, fun _ => hnone.same⟩, rfl,
    fun hr => absurd hr Bool.false_ne_true, fun _ => Or.inr rfl⟩

theorem Unsaid.noted (h : Unsaid c q t p f) {tells : Bool}
    (htells : tells = true → f.leftover = false) : Noted c t tells p f :=
  ⟨h.1.same_iff, h.2.2, fun hr => absurd (h.2.1.symm.trans hr) Bool.false_ne_true,
    fun ht => Or.inr (htells ht)⟩

theorem refusal_tells (e : Failure) : e.refusal.tells = false := saysDraft_failure e

theorem goes_putNoteBack (refusal : Refusal) :
    Goes start (Unsaid c q t) (putNoteBack t refusal) fun r => Noted c t (refusalTells r) := by
  rw [putNoteBack]
  refine Program.safe_bind goes_revert ?_
  rintro (e | r)
  · refine goes_pure fun p f h => Unsaid.noted ⟨h.1, h.2.2, h.2.1⟩ fun ht => ?_
    exact absurd ((refusal_tells e).symm.trans ht) Bool.false_ne_true
  · simp only
    split
    · rename_i hstatus
      refine goes_pure fun p f h => ⟨h.1.same_iff, h.2.1, fun _ => ?_, fun _ => ?_⟩
      · exact saysDraft_noteRemains _
      · exact Or.inl (h.2.2.1.2 hstatus)
    · rename_i hstatus
      have hstatus : r.status = 204 := by simpa using hstatus
      refine goes_pure fun p f h => Unsaid.noted ⟨h.1, ?_, h.2.1⟩ fun _ => h.2.2.2 hstatus
      exact Bool.eq_false_iff.2 fun hr => h.2.2.1.1 hr hstatus

/-- Nothing has happened yet, and this is the target's draft. -/
def Opened (t : Target) (o : Option Item) (p : Policy) (f : Course) : Prop :=
  Fresh t p f ∧ p.draft t = o

theorem goes_writeNote (plan : Plan) :
    Goes start (Opened t o) (writeNote t plan) fun r =>
      Noted (Rewritten (withNote · plan) o) t (refusalTells r) := by
  rw [writeNote]
  refine Program.safe_bind (goes_readItem (fun _ _ => rfl) t) ?_
  rintro (e | draft)
  · exact goes_pure fun p f h => h.2.1.noted _
  · simp only
    split
    · exact goes_pure fun p f h => h.2.1.noted _
    · rename_i item hitem
      refine goes_fact (c := o = some item) (fun p f h => ?_) fun ho => ?_
      · exact h.2.2.symm.trans ((h.1 draft rfl).2 item hitem)
      refine Program.safe_bind (goes_weaken (goes_setFields
        (Rewritten (withNote · plan) o) (fun i => i = item) (fun _ => True) True
        (fun live draft => rewritten_iff (withNote · plan) ho) fun _ _ => ⟨trivial, trivial⟩)
        (fun p f h => ?_) fun _ _ _ h => h) ?_
      · obtain ⟨hunderway, hleftover⟩ := h.2.1.underway (h.2.2.trans ho)
        exact ⟨hunderway, fun _ => hleftover⟩
      rintro (e | r)
      · refine goes_pure fun p f h => Unsaid.noted ⟨h.1.1, h.1.2.putBack, h.1.2.said⟩ fun ht => ?_
        exact absurd ((refusal_tells e).symm.trans ht) Bool.false_ne_true
      · simp only
        split
        · rename_i hstatus
          exact goes_pure fun p f h => Unsaid.noted ⟨h.1.1, h.1.2.putBack, h.1.2.said⟩
            fun _ => h.2 r rfl hstatus trivial
        · refine Program.safe_bind (goes_weaken goes_provision (fun _ _ h => h.1)
            fun _ _ _ h => h) ?_
          have hback : ∀ (refusal : Refusal) (p : Provisioned), Goes start
              (fun pol f => Tracked (Rewritten (withNote · plan) o) (fun _ => True) t pol f ∧
                f.putBackRefused = false ∧ f.said = false ∧ Told p f)
              (putNoteBack t refusal)
              fun r => Noted (Rewritten (withNote · plan) o) t (refusalTells r) :=
            fun refusal p => goes_weaken (goes_putNoteBack refusal)
              (fun _ _ h => ⟨h.1, h.2.1, h.2.2.1⟩) fun _ _ _ h => h
          rintro (r | hrefs | e)
          · simp only
            split
            · exact goes_pure fun p f h => Unsaid.noted ⟨h.1, h.2.1, h.2.2.1⟩
                fun ht => absurd ht Bool.false_ne_true
            · exact hback _ _
          · exact hback _ _
          · exact hback _ _

theorem goes_writeNoteOnClear (plan : Plan) :
    Goes start (Opened t o) (writeNoteOnClear t plan) fun r =>
      Noted (Rewritten (withNote · plan) o) t (refusalTells r) := by
  rw [writeNoteOnClear]
  refine Program.safe_bind (goes_draftPending fun p f h => h.1.1) ?_
  rintro (e | _ | _)
  · exact goes_pure fun p f h => h.2.1.noted _
  · exact goes_weaken (goes_writeNote plan) (fun p f h => h.2) fun _ _ _ h => h
  · exact goes_pure fun p f h => h.2.1.noted _

theorem Noted.say (h : Noted c t false p f) : Noted c t false p (f.say false) := by
  simpa [Course.say] using h

theorem goes_createOn (pce : String × String) (name : String) (plan : Plan) (at_ : Int) :
    Goes start (Opened t o) (createOn pce t name plan at_) fun r =>
      Noted (Rewritten (withNote · plan) o) t (refusalTells r) := by
  rw [createOn]
  refine Program.safe_bind (goes_readItem (fun _ _ => rfl) t) ?_
  rintro (e | active)
  · exact goes_pure fun p f h => h.2.1.noted _
  · simp only
    split
    · split
      · exact goes_pure fun p f h => h.2.1.noted _
      · exact goes_pure fun p f h => h.2.1.noted _
    · refine Program.safe_bind (goes_weaken (goes_writeNoteOnClear plan) (fun p f h => h.2)
        fun _ _ _ h => h) ?_
      rintro (refusal | _)
      · exact goes_pure fun _ _ h => h
      · refine Program.safe_bind (goes_silent (D := fun _ =>
          Noted (Rewritten (withNote · plan) o) t false) (fun w a => ?_) fun _ _ _ _ h => h) ?_
        · simp only
          split
          · exact ⟨rfl, rfl⟩
          · exact ⟨rfl, rfl⟩
        · rintro (_ | row)
          · exact goes_pure fun _ _ h => h
          · exact Program.safe_bind (goes_addRun (D := Noted _ t false) fun p f h => h.say)
              fun _ => goes_pure fun _ _ h => h

/-- What clearing the note of a deleted schedule, ended so, has come to. -/
structure Cleared (c : Prop) (t : Target) (out : DeleteResult) (p : Policy) (f : Course) :
    Prop where
  same : SameDraft p t.rulesetOf ↔ ¬(f.leftover = true ∧ c)
  said : f.said = false
  putBack : f.putBackRefused = false
  tells : (out.noteCleared && !out.provisioned) = true ↔ f.unprovisioned = true

theorem Fresh.cleared (h : Fresh t p f) {out : DeleteResult} (hout : out.noteCleared = false) :
    Cleared c t out p f := by
  obtain ⟨hnone, rfl⟩ := h
  exact ⟨⟨fun _ hl => absurd hl.1 Bool.false_ne_true, fun _ => hnone.same⟩, rfl, rfl,
    by simp [hout, Course.start]⟩

theorem Unsaid.cleared (h : Unsaid c q t p f) {out : DeleteResult}
    (hout : (out.noteCleared && !out.provisioned) = true ↔ f.unprovisioned = true) :
    Cleared c t out p f :=
  ⟨h.1.same_iff, h.2.2, h.2.1, hout⟩

theorem goes_provisionCleared :
    Goes start (Underway c q t) (provisionCleared t) fun out => Cleared c t out := by
  rw [provisionCleared]
  refine Program.safe_bind goes_provision ?_
  rintro (r | hrefs | e)
  · simp only
    split
    · rename_i hstatus
      refine goes_pure fun p f h => Unsaid.cleared ⟨h.1, h.2.1, h.2.2.1⟩ ?_
      rw [show f.unprovisioned = true ↔ r.status ≠ 201 from h.2.2.2]
      simp [hstatus]
    · rename_i hstatus
      refine goes_pure fun p f h => Unsaid.cleared ⟨h.1, h.2.1, h.2.2.1⟩ ?_
      rw [show f.unprovisioned = true ↔ r.status ≠ 201 from h.2.2.2]
      simp [hstatus]
  · refine goes_pure fun p f h => Unsaid.cleared ⟨h.1, h.2.1, h.2.2.1⟩ ?_
    rw [show f.unprovisioned = true ↔ True from h.2.2.2]
    simp
  · refine goes_pure fun p f h => Unsaid.cleared ⟨h.1, h.2.1, h.2.2.1⟩ ?_
    rw [show f.unprovisioned = true ↔ False from h.2.2.2]
    simp [Failure.deleteResult]

theorem goes_clearForDelete :
    Goes start (Opened t o) (clearForDelete t) fun out =>
      Cleared (Rewritten stripNotes o) t out := by
  rw [clearForDelete]
  refine Program.safe_bind (goes_readItem (fun _ _ => rfl) t) ?_
  rintro (e | draft)
  · exact goes_pure fun p f h => h.2.1.cleared rfl
  · simp only
    split
    · exact goes_pure fun p f h => h.2.1.cleared rfl
    · rename_i item hitem
      refine goes_fact (c := o = some item) (fun p f h => ?_) fun ho => ?_
      · exact h.2.2.symm.trans ((h.1 draft rfl).2 item hitem)
      refine Program.safe_bind (goes_weaken (goes_draftPending (K := Opened t o)
        fun p f h => h.1.1) (fun p f h => h.2) fun _ _ _ h => h) ?_
      rintro (e | _ | _)
      · exact goes_pure fun p f h => h.2.1.cleared rfl
      · refine Program.safe_bind (goes_weaken (goes_setFields
          (Rewritten stripNotes o) (fun i => i = item) (fun _ => True) True
          (fun live draft => rewritten_iff stripNotes ho) fun _ _ => ⟨trivial, trivial⟩)
          (fun p f h => ?_) fun _ _ _ h => h) ?_
        · obtain ⟨hunderway, hleftover⟩ := h.2.1.underway (h.2.2.trans ho)
          exact ⟨hunderway, fun _ => hleftover⟩
        rintro (e | r)
        · refine goes_pure fun p f h => Unsaid.cleared ⟨h.1.1, h.1.2.putBack, h.1.2.said⟩ ?_
          simp [Failure.deleteResult, h.1.2.provisioned]
        · simp only
          split
          · refine goes_pure fun p f h => Unsaid.cleared ⟨h.1.1, h.1.2.putBack, h.1.2.said⟩ ?_
            simp [h.1.2.provisioned]
          · exact goes_weaken goes_provisionCleared (fun _ _ h => h.1) fun _ _ _ h => h
      · exact goes_fact (c := False) (fun p f h => h.1 rfl) fun h => h.elim

theorem goes_finishDelete (row : Schedule) (by_ : String) (at_ : Int) (out : DeleteResult) :
    Goes start (Cleared c t out) (finishDelete row by_ at_ out) fun r p f =>
      ∃ out, r = some out ∧ Cleared c t out p f := by
  rw [finishDelete]
  refine Program.safe_bind (goes_dropRow row) fun _ => ?_
  refine Program.safe_bind (goes_addRun (D := Cleared c t out) fun p f h => ?_)
    fun _ => goes_pure fun p f h => ⟨out, rfl, h⟩
  simpa [Course.say, Schedule.lastRun, Schedule.run, saysDraft_deleteDetail] using h

end Notes

/-! ## Every operation -/

/-- A check of a schedule, or a change of one. -/
inductive Operation where
  | check (id : Nat) (at_ : Int) (updatedAt : Option Int)
  | create (pce : String × String) (t : Target) (name : String) (plan : Plan) (at_ : Int)
  | update (id : Nat) (plan : Plan) (at_ : Int)
  | delete (id : Nat) (by_ : String) (at_ : Int)

/-- How it ends. -/
inductive Ended where
  | checked (o : Option Outcome)
  | created (r : Except Refusal Schedule)
  | updated (r : Except Refusal Unit)
  | deleted (r : Option DeleteResult)

/-- Its result says that a change may remain in the draft: it was refused with that text, or the
note was cleared and not provisioned. -/
def Ended.tells : Ended → Bool
  | .checked _ => false
  | .created r => refusalTells r
  | .updated r => refusalTells r
  | .deleted r => r.any fun out => out.noteCleared && !out.provisioned

namespace Operation

def run : Operation → Step Ended
  | .check id at_ updatedAt => do
      let o ← checkFresh id at_ updatedAt
      pure (.checked o)
  | .create pce t name plan at_ => do
      let r ← RuleSchedules.create pce t name plan at_
      pure (.created r)
  | .update id plan at_ => do
      let r ← RuleSchedules.update id plan at_
      pure (.updated r)
  | .delete id by_ at_ => do
      let r ← RuleSchedules.delete id by_ at_
      pure (.deleted r)

/-- The schedule it is about is one of the target. -/
def Concerns (w : World) (t : Target) : Operation → Prop
  | .check id _ _ => ∀ row ∈ w.schedules, row.id = id → row.target = t
  | .create _ target _ _ _ => target = t
  | .update id _ _ => ∀ row ∈ w.schedules, row.id = id → row.target = t
  | .delete id _ _ => ∀ row ∈ w.schedules, row.id = id → row.target = t

/-- Its writes change the draft: a switch always does, and a description that differs. -/
def Changes (o : Option Item) : Operation → Prop
  | .check _ _ _ => True
  | .create _ _ _ plan _ => Rewritten (withNote · plan) o
  | .update _ plan _ => Rewritten (withNote · plan) o
  | .delete _ _ _ => Rewritten stripNotes o

def deletes : Operation → Bool
  | .delete _ _ _ => true
  | _ => false

end Operation

/-- The draft equals the active version, or the result or a recorded run says that a change may
remain in it. -/
def Accounted (t : Target) (r : Ended) (p : Policy) (f : Course) : Prop :=
  SameDraft p t.rulesetOf ∨ r.tells = true ∨ f.said = true

/-- The writes that took effect were provisioned or taken back, or changed nothing, or the
put-back was refused, or, deleting, the PCE answered that it did not provision. -/
def Settled (op : Operation) (o : Option Item) (f : Course) : Prop :=
  f.leftover = false ∨ ¬op.Changes o ∨ f.putBackRefused = true ∨
    op.deletes = true ∧ f.unprovisioned = true

section Operations

variable {start : List Event} {t : Target} {o : Option Item} {op : Operation} {α : Type}
  {p : Policy} {f : Course} {w : State}

theorem Over.accounted (op : Operation) (h : Over t p f) (hchanges : op.Changes o) (hdeletes : op.deletes = false)
    {r : Ended} (hr : r.tells = false) : Accounted t r p f ↔ Settled op o f := by
  rw [Accounted, Settled, h.same]
  constructor
  · rintro (hsame | htells | hsaid)
    · exact Or.inl hsame
    · exact absurd (hr.symm.trans htells) Bool.false_ne_true
    · exact (h.said hsaid).elim (fun hrefused => Or.inr (Or.inr (Or.inl hrefused))) Or.inl
  · rintro (hclear | hsame | hrefused | hdeleted)
    · exact Or.inl hclear
    · exact absurd hchanges hsame
    · exact Or.inr (Or.inr (h.refused hrefused))
    · exact absurd (hdeletes.symm.trans hdeleted.1) Bool.false_ne_true

theorem Noted.accounted (op : Operation) (r : Ended) (h : Noted (op.Changes o) t r.tells p f)
    (hdeletes : op.deletes = false) : Accounted t r p f ↔ Settled op o f := by
  rw [Accounted, Settled, h.same, not_and_or, Bool.not_eq_true]
  constructor
  · rintro ((hclear | hsame) | htells | hsaid)
    · exact Or.inl hclear
    · exact Or.inr (Or.inl hsame)
    · exact (h.tells htells).elim (fun hrefused => Or.inr (Or.inr (Or.inl hrefused))) Or.inl
    · exact absurd (h.said.symm.trans hsaid) Bool.false_ne_true
  · rintro (hclear | hsame | hrefused | hdeleted)
    · exact Or.inl (Or.inl hclear)
    · exact Or.inl (Or.inr hsame)
    · exact Or.inr (Or.inl (h.refused hrefused))
    · exact absurd (hdeletes.symm.trans hdeleted.1) Bool.false_ne_true

theorem Cleared.accounted (op : Operation) {out : DeleteResult} (h : Cleared (op.Changes o) t out p f)
    (hdeletes : op.deletes = true) :
    Accounted t (.deleted (some out)) p f ↔ Settled op o f := by
  have htells : (Ended.deleted (some out)).tells = true ↔ f.unprovisioned = true := h.tells
  rw [Accounted, Settled, h.same, not_and_or, Bool.not_eq_true, htells]
  constructor
  · rintro ((hclear | hsame) | hun | hsaid)
    · exact Or.inl hclear
    · exact Or.inr (Or.inl hsame)
    · exact Or.inr (Or.inr (Or.inr ⟨hdeletes, hun⟩))
    · exact absurd (h.said.symm.trans hsaid) Bool.false_ne_true
  · rintro (hclear | hsame | hrefused | hdeleted)
    · exact Or.inl (Or.inl hclear)
    · exact Or.inl (Or.inr hsame)
    · exact absurd (h.putBack.symm.trans hrefused) Bool.false_ne_true
    · exact Or.inr (Or.inl hdeleted.2)

/-- Nothing was done. -/
theorem Fresh.accounted (h : Fresh t p f) (r : Ended) : Accounted t r p f ↔ Settled op o f := by
  obtain ⟨hnone, rfl⟩ := h
  exact ⟨fun _ => Or.inl rfl, fun _ => Or.inl hnone.same⟩

/-- What an operation starts from. -/
structure Starts (op : Operation) (t : Target) (o : Option Item) (start : List Event)
    (w : State) : Prop where
  journal : w.journal = start
  noDraft : NoDraft w.world.policy t.rulesetOf
  draft : w.world.policy.draft t = o
  concerns : op.Concerns w.world t

theorem Starts.opened (h : Starts op t o start w) : Now start (Opened t o) w :=
  ⟨[], by rw [h.journal, List.append_nil], ⟨h.noDraft, rfl⟩, h.draft⟩

/-- The first step of an operation reads the row, and finds the target by it. -/
theorem goes_first {f : State → Answer → State × Option α} {target : α → Target}
    (hjournal : ∀ w a, (f w a).1.journal = w.journal)
    (hpolicy : ∀ w a, (f w a).1.world.policy = w.world.policy)
    (htarget : ∀ w a x, op.Concerns w.world t → (f w a).2 = some x → target x = t) :
    Program.Safe Undisturbed (fun _ _ => True) (Starts op t o start) (step f) fun r =>
      Now start fun p f => (∀ x, r = some x → target x = t) ∧ Opened t o p f := by
  refine Program.safe_act fun w a ha hw => ⟨trivial, ?_⟩
  have hothers : ({ w with world := a.others w.world } : State) = w := by
    have ha : a.others = id := ha
    rw [ha]
    rfl
  simp only [hothers]
  refine (hw.opened.weaken fun p f' h => ?_).silent (hjournal w a) (hpolicy w a)
  exact ⟨fun x hx => htarget w a x hw.concerns hx, h⟩

theorem goes_readRow (id : Nat) (at_ : Int) (updatedAt : Option Int) :
    Program.Safe Undisturbed (fun _ _ => True) (Starts (.check id at_ updatedAt) t o start)
      (readRow id updatedAt) fun r =>
        Now start fun p f => (∀ row, r = some row → row.target = t) ∧ Opened t o p f := by
  refine goes_first (fun w a => ?_) (fun w a => ?_) fun w a row hconcerns hrow => ?_
  · split
    · rfl
    · split <;> rfl
  · split
    · rfl
    · split <;> rfl
  · split at hrow
    · exact absurd hrow (by simp)
    · rename_i found hfound
      have hmem := List.mem_of_find?_eq_some hfound
      have hid := List.find?_some hfound
      split at hrow
      · exact absurd hrow (by simp)
      · obtain rfl := Option.some.inj hrow
        exact hconcerns found hmem (of_decide_eq_true hid)

theorem goes_own {id : Nat}
    (hop : ∀ w : World, op.Concerns w t → ∀ row ∈ w.schedules, row.id = id → row.target = t) :
    Program.Safe Undisturbed (fun _ _ => True) (Starts op t o start) (own id) fun r =>
      Now start fun p f => (∀ x : Schedule × String × String, r = some x → x.1.target = t) ∧
        Opened t o p f := by
  refine goes_first (fun _ _ => rfl) (fun _ _ => rfl) fun w a x hconcerns hx => ?_
  obtain ⟨found, hfound, rfl⟩ := Option.map_eq_some_iff.1 hx
  have hmem := List.mem_of_find?_eq_some hfound
  have hid := List.find?_some hfound
  simp only [Bool.and_eq_true, decide_eq_true_eq] at hid
  exact hop _ hconcerns found hmem hid.1.1

theorem goes_check (id : Nat) (at_ : Int) (updatedAt : Option Int) :
    Program.Safe Undisturbed (fun _ _ => True) (Starts (.check id at_ updatedAt) t o start)
      (checkFresh id at_ updatedAt) fun _ => Now start (Over t) := by
  rw [checkFresh]
  refine Program.safe_bind (goes_readRow id at_ updatedAt) ?_
  rintro (_ | row)
  · exact goes_pure fun p f h => h.2.1.quiet
  · refine goes_fact (c := row.target = t) (fun p f h => h.1 row rfl) ?_
    rintro rfl
    refine Program.safe_bind (goes_weaken (goes_checkOne at_) (fun p f h => h.2.1)
      fun _ _ _ h => h) ?_
    rintro (e | o)
    · refine Program.safe_bind (goes_addRun (D := Over row.target) fun p f h => ?_)
        fun _ => goes_pure fun _ _ h => h
      rcases h with h | h
      · exact h.over _
      · exact h.over fun hsays => absurd ((saysDraft_failure e).symm.trans hsays)
          Bool.false_ne_true
    · exact goes_pure fun _ _ h => h

theorem goes_create (pce : String × String) (name : String) (plan : Plan) (at_ : Int) :
    Goes start (Opened t o) (create pce t name plan at_) fun r =>
      Noted (Rewritten (withNote · plan) o) t (refusalTells r) := by
  rw [create]
  refine Program.safe_bind (goes_silent (D := fun _ => Opened t o) (fun w a => ?_)
    fun _ _ _ _ h => h) ?_
  · split
    · exact ⟨rfl, rfl⟩
    · split <;> exact ⟨rfl, rfl⟩
  · rintro (refusal | _)
    · exact goes_pure fun p f h => h.1.noted _
    · refine Program.safe_bind (goes_silent (D := fun _ => Opened t o) (fun _ _ => ⟨rfl, rfl⟩)
        fun _ _ _ _ h => h) fun scheduled => ?_
      split
      · exact goes_pure fun p f h => h.1.noted _
      · exact goes_createOn pce name plan at_

theorem goes_update (id : Nat) (plan : Plan) (at_ : Int) :
    Program.Safe Undisturbed (fun _ _ => True) (Starts (.update id plan at_) t o start)
      (update id plan at_) fun r =>
        Now start (Noted (Rewritten (withNote · plan) o) t (refusalTells r)) := by
  rw [update]
  refine Program.safe_bind (goes_own fun _ h => h) ?_
  rintro (_ | ⟨row, pce⟩)
  · exact goes_pure fun p f h => h.2.1.noted _
  · refine goes_fact (c := row.target = t) (fun p f h => h.1 (row, pce) rfl) ?_
    rintro rfl
    refine Program.safe_bind (goes_silent (D := fun _ => Opened row.target o) (fun w a => ?_)
      fun _ _ _ _ h => h.2) ?_
    · split
      · exact ⟨rfl, rfl⟩
      · split <;> exact ⟨rfl, rfl⟩
    · rintro (refusal | _)
      · exact goes_pure fun p f h => h.1.noted _
      · refine Program.safe_bind (goes_writeNoteOnClear plan) ?_
        rintro (refusal | _)
        · exact goes_pure fun _ _ h => h
        · exact Program.safe_bind (goes_silent (D := fun _ => Noted _ row.target false)
            (fun _ _ => ⟨rfl, rfl⟩) fun _ _ _ _ h => h) fun _ => goes_pure fun _ _ h => h

theorem goes_delete (id : Nat) (by_ : String) (at_ : Int) :
    Program.Safe Undisturbed (fun _ _ => True) (Starts (.delete id by_ at_) t o start)
      (delete id by_ at_) fun r => Now start fun p f =>
        Fresh t p f ∨ ∃ out, r = some out ∧ Cleared (Rewritten stripNotes o) t out p f := by
  rw [delete]
  refine Program.safe_bind (goes_own fun _ h => h) ?_
  rintro (_ | ⟨row, pce⟩)
  · exact goes_pure fun p f h => Or.inl h.2.1
  · refine goes_fact (c := row.target = t) (fun p f h => h.1 (row, pce) rfl) ?_
    rintro rfl
    refine Program.safe_bind (goes_silent (D := fun r p f => Opened row.target o p f ∧
      ∀ out, r = .error out → out.noteCleared = false) (fun w a => ?_)
      fun w a p f h => ⟨h.2, ?_⟩) ?_
    · split
      · exact ⟨rfl, rfl⟩
      · split <;> exact ⟨rfl, rfl⟩
    · intro out
      split
      · rintro ⟨⟩
        rfl
      · split
        · rintro ⟨⟩
          rfl
        · exact fun h => absurd h (by simp)
    · rintro (out | _)
      · exact goes_weaken (goes_finishDelete row by_ at_ out)
          (fun p f h => h.1.1.cleared (h.2 out rfl)) fun _ _ _ h => Or.inr h
      · refine Program.safe_bind (goes_weaken goes_clearForDelete (fun p f h => h.1)
          fun _ _ _ h => h) fun out => ?_
        exact goes_weaken (goes_finishDelete row by_ at_ out) (fun _ _ h => h)
          fun _ _ _ h => Or.inr h

theorem goes_operation (op : Operation) :
    Program.Safe Undisturbed (fun _ _ => True) (Starts op t o start) op.run fun r =>
      Now start fun p f => Accounted t r p f ↔ Settled op o f := by
  cases op with
  | check id at_ updatedAt =>
      exact Program.safe_bind (goes_check id at_ updatedAt) fun _ =>
        goes_pure fun _ _ h =>
          h.accounted (.check id at_ updatedAt) trivial rfl rfl
  | create pce target name plan at_ =>
      refine Program.safe_fact (c := target = t) (fun _ h => h.concerns) ?_
      rintro rfl
      refine Program.safe_bind (Program.safe_weaken (goes_create pce name plan at_)
        (fun _ h => h.opened) fun _ _ h => h) fun r => ?_
      exact goes_pure fun _ _ h => Noted.accounted (.create pce target name plan at_)
        (.created r) h rfl
  | update id plan at_ =>
      exact Program.safe_bind (goes_update id plan at_) fun r =>
        goes_pure fun _ _ h => Noted.accounted (.update id plan at_) (.updated r) h rfl
  | delete id by_ at_ =>
      refine Program.safe_bind (goes_delete id by_ at_) fun r => goes_pure fun p f h => ?_
      rcases h with h | ⟨out, rfl, h⟩
      · exact h.accounted _
      · exact Cleared.accounted (.delete id by_ at_) h rfl

end Operations

/-- A rule set of the configured PCE. -/
def ruleSetNine : Target := ⟨"1", "9", none⟩

/-- The rule set, provisioned as it is. -/
def policyWith (item : Item) : Policy where
  draft := fun t => if t = ruleSetNine then some item else none
  active := fun t => if t = ruleSetNine then some item else none
  changed := fun _ => false
  rules := fun _ => []

theorem noDraft_policyWith (item : Item) : NoDraft (policyWith item) ruleSetNine :=
  ⟨fun _ _ => rfl, fun _ _ => rfl, fun _ hu => absurd hu List.not_mem_nil⟩

/-- The rule set has a schedule. -/
def scheduledWith (item : Item) (plan : Plan) : State where
  world := ⟨policyWith item, [⟨1, "https://pce", "1", ruleSetNine, "rule set", plan, false, .active,
    .unknown, none, 0⟩], [], "https://pce", "1", true⟩
  past := []
  current := none
  journal := []

theorem concerns_scheduledWith (item : Item) (plan : Plan) :
    ∀ row ∈ (scheduledWith item plan).world.schedules, row.id = 1 → row.target = ruleSetNine := by
  intro row hrow _
  obtain rfl := List.mem_singleton.1 hrow
  rfl

/-- Nobody changes anything, and the PCE answers with the status. -/
def answered (status : Nat) : Answer := ⟨id, .answered status "", []⟩

/-- A check that enables the rule set, and provisions that. -/
def provisionedRun : List Answer :=
  [200, 200, 200, 200, 200, 204, 200, 201, 200, 200].map answered

/-- The rule set is disabled already, its description is the note of an expiry. -/
def expired : State :=
  scheduledWith ⟨false, "[⏰ Expires: 2026-01-01 00:00]"⟩
    (.expiry 100 "[⏰ Expires: 2026-01-01 00:00]")

/-- The note is written away, and provisioning that would take an IP list live. -/
def clearedRun : List Answer :=
  [answered 200, answered 200, answered 200, answered 204,
    { answered 200 with needs := ["/orgs/1/sec_policy/draft/ip_lists/3"] }, answered 200,
    answered 200]

end IllumioOps.RuleSchedules
