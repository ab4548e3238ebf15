import IllumioOps.Alerts.Recorder

/-!
# Gates over a commit

A commit takes its triggers one after the other through the gates of their rules. A gate that is
closed at first stays closed at that time (`gate_closed_again`); an open one lets the first trigger
of a subject through. So a subject is alerted exactly when its gate was open and something
triggered (`Stands`, `Stands.change`). The steps of an evaluation that nothing disturbs return what
they read and wrote (`returns_look`, `returns_commit`).
-/

set_option autoImplicit false

namespace IllumioOps.Alerts

open Programs

/-! ## Gates -/

/-- What a gate keeps of a state when it holds an alert back. -/
def keptState (rule : RuleBase) (st : Option RuleState) (now : Int) : RuleState :=
  ⟨(st.getD ⟨none, []⟩).lastFiredAt, (st.getD ⟨none, []⟩).recent.filter fun t =>
    (rule.throttle.map fun t => minutes t.periodMinutes).any fun p => decide (now - p < t)⟩

theorem gate_keptState (rule : RuleBase) (st : Option RuleState) (now : Int) :
    gate rule (some (keptState rule st now)) now = gate rule st now := by
  simp only [gate, keptState, Option.getD_some, List.filter_filter, Bool.and_self]

theorem state_of_closed {rule : RuleBase} {st : Option RuleState} {now : Int}
    (h : (gate rule st now).allowed = false) :
    (gate rule st now).state = keptState rule st now := by
  simp only [gate] at h ⊢
  generalize (if rule.cooldownMinutes = 0 then none else _ : Option Int) = freeAt at h ⊢
  split
  · rfl
  · rename_i hcooldown
    rw [if_neg hcooldown] at h
    split
    · rfl
    · rename_i hthrottle
      rw [if_neg hthrottle] at h
      exact Bool.noConfusion h

/-- A gate that holds an alert back does so again at the same time. -/
theorem gate_closed_again {rule : RuleBase} {st : Option RuleState} {now : Int}
    (h : (gate rule st now).allowed = false) :
    (gate rule (some (gate rule st now).state) now).allowed = false := by
  rw [state_of_closed h, gate_keptState]
  exact h

/-! ## Who is alerted -/

/-- The tables before any alert. -/
def noAlerts : AlertDb := ⟨fun _ => none, [], 0, [], fun _ => none⟩

/-- The alerts that were added, for a subject of a rule. -/
def NewlyAlerted (before after : AlertDb) (ruleId subject : String) : Prop :=
  ∃ a ∈ after.alerts.drop before.alerts.length,
    a.trigger.ruleId = ruleId ∧ a.trigger.subjectKey = subject

instance (before after : AlertDb) (ruleId subject : String) :
    Decidable (NewlyAlerted before after ruleId subject) :=
  inferInstanceAs (Decidable (∃ a ∈ _, _ ∧ _))

/-- The state of a rule for a subject, as its gate reads it. -/
def AlertDb.stateOf (db : AlertDb) (ruleId subject : String) : RuleState :=
  (db.ruleState ruleId subject).getD ⟨none, []⟩

theorem gate_eq_of_stateOf {db db' : AlertDb} {ruleId subject : String}
    (h : db'.stateOf ruleId subject = db.stateOf ruleId subject) (rule : RuleBase) (now : Int) :
    gate rule (db'.ruleState ruleId subject) now = gate rule (db.ruleState ruleId subject) now := by
  have hstate : ∀ st : Option RuleState, gate rule st now = gate rule (some (st.getD ⟨none, []⟩)) now :=
    fun st => rfl
  rw [hstate, hstate (db.ruleState ruleId subject)]
  exact congrArg (fun st => gate rule (some st) now) h

theorem stateOf_setSeenSeverity (db : AlertDb) (id key : String) (severity : Severity)
    (ruleId subject : String) :
    (db.setSeenSeverity id key severity).stateOf ruleId subject = db.stateOf ruleId subject := by
  by_cases hkey : (ruleId, subject) = (id, key)
  · obtain ⟨rfl, rfl⟩ := Prod.mk.inj hkey
    simp only [AlertDb.stateOf, AlertDb.ruleState, AlertDb.setSeenSeverity, Function.update_self,
      Option.map_some, Option.getD_some]
    cases db.ruleStates (ruleId, subject) <;> rfl
  · simp only [AlertDb.stateOf, AlertDb.ruleState, AlertDb.setSeenSeverity,
      Function.update_of_ne hkey]

/-- How things stand for a subject of a rule: behind an open gate it is alerted once something
triggered, and its state is as before until then; a closed gate stays closed. -/
structure Stands (rule : RuleBase) (now : Int) (subject : String) (before db : AlertDb)
    (triggered : Prop) : Prop where
  grows : before.alerts <+: db.alerts
  opened : (gate rule (before.ruleState rule.id subject) now).allowed = true →
    (NewlyAlerted before db rule.id subject ↔ triggered) ∧
      (¬ triggered → db.stateOf rule.id subject = before.stateOf rule.id subject)
  closed : (gate rule (before.ruleState rule.id subject) now).allowed = false →
    ¬ NewlyAlerted before db rule.id subject ∧
      (gate rule (db.ruleState rule.id subject) now).allowed = false

section Standing

variable {rule : RuleBase} {now : Int} {subject : String} {before db db' : AlertDb}
  {triggered : Prop} {rec : Recorder}

theorem stands_start : Stands rule now subject before before False := by
  have hnone : ¬ NewlyAlerted before before rule.id subject := by
    rintro ⟨a, ha, -⟩
    rw [List.drop_length] at ha
    exact List.not_mem_nil ha
  refine ⟨List.prefix_rfl, fun _ => ⟨?_, fun _ => rfl⟩, fun h => ⟨hnone, h⟩⟩
  exact ⟨fun h => absurd h hnone, False.elim⟩

/-- Only the alerts and the state of the rule for the subject matter. -/
theorem Stands.congr (h : Stands rule now subject before db triggered)
    (halerts : db'.alerts = db.alerts)
    (hstate : db'.stateOf rule.id subject = db.stateOf rule.id subject) {triggered' : Prop}
    (htriggered : triggered' ↔ triggered) : Stands rule now subject before db' triggered' := by
  have hiff : NewlyAlerted before db' rule.id subject ↔ NewlyAlerted before db rule.id subject := by
    rw [NewlyAlerted, NewlyAlerted, halerts]
  constructor
  · rw [halerts]
    exact h.grows
  · rw [hiff, htriggered, hstate]
    exact h.opened
  · rw [hiff, gate_eq_of_stateOf hstate]
    exact h.closed

theorem ruleState_saveRuleState (id key ruleId subject : String) (g : GateResult) :
    (db.saveRuleState id key g).ruleState ruleId subject =
      if id = ruleId ∧ key = subject then some g.state else db.ruleState ruleId subject := by
  by_cases hkey : id = ruleId ∧ key = subject
  · obtain ⟨rfl, rfl⟩ := hkey
    rw [if_pos ⟨rfl, rfl⟩]
    simp only [AlertDb.ruleState, AlertDb.saveRuleState, Function.update_self, Option.map_some]
  · have hne : (ruleId, subject) ≠ (id, key) := by
      intro heq
      obtain ⟨hid, hsubject⟩ := Prod.mk.inj heq
      exact hkey ⟨hid.symm, hsubject.symm⟩
    rw [if_neg hkey]
    simp only [AlertDb.ruleState, AlertDb.saveRuleState, Function.update_of_ne hne]

/-- What a trigger leaves of the alerts and the rule states: behind an open gate it is an alert. -/
theorem writeTrigger_cases (rec : Recorder) (w : Writing) (base : RuleBase) (t : Trigger) :
    let g := gate base (w.db.ruleState base.id t.subjectKey) rec.now
    (∀ ruleId subject, (rec.writeTrigger w (base, t)).db.ruleState ruleId subject =
      if base.id = ruleId ∧ t.subjectKey = subject then some g.state
      else w.db.ruleState ruleId subject) ∧
    ((g.allowed = true ∧ ∃ a, a.trigger = t ∧
        (rec.writeTrigger w (base, t)).db.alerts = w.db.alerts ++ [a]) ∨
      (g.allowed = false ∧ (rec.writeTrigger w (base, t)).db.alerts = w.db.alerts)) := by
  simp only [Recorder.writeTrigger]
  split
  · rename_i hopen
    exact ⟨fun _ _ => ruleState_saveRuleState _ _ _ _ _, Or.inl ⟨hopen, _, rfl, rfl⟩⟩
  · rename_i hclosed
    refine ⟨fun _ _ => ruleState_saveRuleState _ _ _ _ _, Or.inr ⟨?_, rfl⟩⟩
    exact Bool.eq_false_iff.2 hclosed

theorem alerted_append {added : List Alert} (ruleId subject : String) (hgrows : before.alerts <+: db.alerts)
    (halerts : db'.alerts = db.alerts ++ added) :
    NewlyAlerted before db' ruleId subject ↔ NewlyAlerted before db ruleId subject ∨
      ∃ a ∈ added, a.trigger.ruleId = ruleId ∧ a.trigger.subjectKey = subject := by
  have hdrop : db'.alerts.drop before.alerts.length =
      db.alerts.drop before.alerts.length ++ added := by
    rw [halerts, List.drop_append_of_le_length hgrows.length_le]
  constructor
  · rintro ⟨a, ha, hkey⟩
    rw [hdrop] at ha
    exact (List.mem_append.1 ha).imp (fun ha => ⟨a, ha, hkey⟩) fun ha => ⟨a, ha, hkey⟩
  · rintro (⟨a, ha, hkey⟩ | ⟨a, ha, hkey⟩)
    · exact ⟨a, hdrop ▸ List.mem_append_left _ ha, hkey⟩
    · exact ⟨a, hdrop ▸ List.mem_append_right _ ha, hkey⟩

/-- One trigger, of this rule for the subject or of another one. -/
theorem Stands.writeTrigger {w : Writing} {base : RuleBase} {t : Trigger}
    (h : Stands rule rec.now subject before w.db triggered) (hid : t.ruleId = base.id)
    (hbase : base.id = rule.id → base = rule) :
    Stands rule rec.now subject before (rec.writeTrigger w (base, t)).db
      (triggered ∨ (base.id = rule.id ∧ t.subjectKey = subject)) := by
  obtain ⟨hstate, hcases⟩ := writeTrigger_cases rec w base t
  have hstate := hstate rule.id subject
  by_cases hkey : base.id = rule.id ∧ t.subjectKey = subject
  · -- the trigger is of this rule, for the subject
    have hsame := hbase hkey.1
    subst hsame
    obtain rfl := hkey.2
    rw [if_pos ⟨rfl, rfl⟩] at hstate
    rcases hcases with ⟨hopen, a, ha, halerts⟩ | ⟨hclosed, halerts⟩
    · have hiff := alerted_append base.id t.subjectKey h.grows halerts
      have halerted : NewlyAlerted before (rec.writeTrigger w (base, t)).db base.id t.subjectKey := by
        refine hiff.2 (Or.inr ⟨a, List.mem_singleton_self a, ?_, ?_⟩)
        · rw [ha, hid]
        · rw [ha]
      refine ⟨?_, fun _ => ⟨⟨fun _ => Or.inr hkey, fun _ => halerted⟩, ?_⟩, fun hgate => ?_⟩
      · rw [halerts]
        exact h.grows.trans (List.prefix_append _ _)
      · exact fun hno => absurd (Or.inr hkey) hno
      · have hgate := (h.closed hgate).2
        rw [hopen] at hgate
        exact absurd hgate nofun
    · have hiff : NewlyAlerted before (rec.writeTrigger w (base, t)).db base.id t.subjectKey ↔
          NewlyAlerted before w.db base.id t.subjectKey := by
        rw [NewlyAlerted, NewlyAlerted, halerts]
      refine ⟨halerts ▸ h.grows, fun hgate => ?_, fun hgate => ?_⟩
      · -- the gate was open before, so something triggered
        have htriggered : triggered := by
          by_contra hno
          rw [gate_eq_of_stateOf ((h.opened hgate).2 hno), hgate] at hclosed
          exact absurd hclosed nofun
        refine ⟨?_, fun hno => absurd (Or.inl htriggered) hno⟩
        rw [hiff, (h.opened hgate).1]
        exact ⟨Or.inl, fun _ => htriggered⟩
      · rw [hiff, hstate]
        exact ⟨(h.closed hgate).1, gate_closed_again hclosed⟩
  · rw [if_neg hkey] at hstate
    have hstateOf : (rec.writeTrigger w (base, t)).db.stateOf rule.id subject =
        w.db.stateOf rule.id subject := by
      rw [AlertDb.stateOf, hstate, AlertDb.stateOf]
    have hor : (triggered ∨ (base.id = rule.id ∧ t.subjectKey = subject)) ↔ triggered :=
      or_iff_left hkey
    rcases hcases with ⟨-, a, ha, halerts⟩ | ⟨-, halerts⟩
    · have hiff : NewlyAlerted before (rec.writeTrigger w (base, t)).db rule.id subject ↔
          NewlyAlerted before w.db rule.id subject := by
        refine (alerted_append _ _ h.grows halerts).trans (or_iff_left ?_)
        rintro ⟨b, hb, hb'⟩
        rw [List.mem_singleton.1 hb, ha, hid] at hb'
        exact hkey hb'
      constructor
      · rw [halerts]
        exact h.grows.trans (List.prefix_append _ _)
      · rw [hiff, hor, hstateOf]
        exact h.opened
      · rw [hiff, hstate]
        exact h.closed
    · exact h.congr halerts hstateOf hor

/-- The triggers of a batch, one after the other. -/
theorem Stands.foldl {rts : List (RuleBase × Trigger)} {w : Writing}
    (h : Stands rule rec.now subject before w.db triggered)
    (hrts : ∀ rt ∈ rts, rt.2.ruleId = rt.1.id ∧ (rt.1.id = rule.id → rt.1 = rule)) :
    Stands rule rec.now subject before (rts.foldl rec.writeTrigger w).db
      (triggered ∨ ∃ rt ∈ rts, rt.1.id = rule.id ∧ rt.2.subjectKey = subject) := by
  induction rts generalizing w triggered with
  | nil =>
      refine h.congr rfl rfl (or_iff_left ?_)
      rintro ⟨rt, hrt, -⟩
      exact List.not_mem_nil hrt
  | cons rt rts ih =>
      obtain ⟨hid, hbase⟩ := hrts rt List.mem_cons_self
      have hrest := ih (h.writeTrigger hid hbase) fun q hq => hrts q (List.mem_cons_of_mem _ hq)
      refine hrest.congr rfl rfl ?_
      simp only [List.mem_cons, exists_eq_or_imp, or_assoc]

/-- What was seen has nothing to do with the gates. -/
theorem stateOf_foldl_writeSeen (seen : List (String × String × Severity)) (w : Writing)
    (ruleId subject : String) :
    (seen.foldl writeSeen w).db.stateOf ruleId subject = w.db.stateOf ruleId subject := by
  induction seen generalizing w with
  | nil => rfl
  | cons s seen ih =>
      refine (ih (writeSeen w s)).trans ?_
      rw [writeSeen]
      split
      · rfl
      · exact stateOf_setSeenSeverity _ _ _ _ _ _

/-- A commit. -/
theorem Stands.change (source : Source) (mark : Option Watermark)
    (h : Stands rule rec.now subject before db triggered)
    (hrts : ∀ rt ∈ rec.triggers, rt.2.ruleId = rt.1.id ∧ (rt.1.id = rule.id → rt.1 = rule)) :
    Stands rule rec.now subject before (rec.change source mark db).1
      (triggered ∨ ∃ rt ∈ rec.triggers, rt.1.id = rule.id ∧ rt.2.subjectKey = subject) := by
  have hfold := Stands.foldl (w := ⟨db, [], 0, 0⟩) h hrts
  refine hfold.congr (alerts_change db) ?_ Iff.rfl
  rw [← stateOf_foldl_writeSeen rec.seen, Recorder.change, Recorder.written.eq_def]
  cases mark with
  | none => rfl
  | some mark => rfl

end Standing

/-! ## What a commit leaves of one subject -/

/-- A trigger is of the rule, for the subject. -/
def isAbout (ruleId subject : String) (rt : RuleBase × Trigger) : Bool :=
  decide (rt.1.id = ruleId) && decide (rt.2.subjectKey = subject)

/-- The alerts of a rule for a subject. -/
def AlertDb.about (db : AlertDb) (ruleId subject : String) : List Alert :=
  db.alerts.filter fun a => decide (a.trigger.ruleId = ruleId) &&
    decide (a.trigger.subjectKey = subject)

/-- Nothing happened to the subject of a rule: its state, what was seen, its alerts, and whether one
was held back. -/
structure Untouched (ruleId subject : String) (w w' : Writing) : Prop where
  state : w'.db.stateOf ruleId subject = w.db.stateOf ruleId subject
  seen : w'.db.seenSeverity ruleId subject = w.db.seenSeverity ruleId subject
  about : w'.db.about ruleId subject = w.db.about ruleId subject
  held : (ruleId, subject) ∈ w'.held ↔ (ruleId, subject) ∈ w.held

section Subjects

variable {rule : RuleBase} {subject : String} {rec : Recorder} {w w' w'' : Writing}
  {rts : List (RuleBase × Trigger)} {rt : RuleBase × Trigger}

theorem Untouched.refl (ruleId subject : String) (w : Writing) : Untouched ruleId subject w w :=
  ⟨rfl, rfl, rfl, Iff.rfl⟩

theorem Untouched.trans {ruleId : String} (h : Untouched ruleId subject w w')
    (h' : Untouched ruleId subject w' w'') : Untouched ruleId subject w w'' :=
  ⟨h'.state.trans h.state, h'.seen.trans h.seen, h'.about.trans h.about, h'.held.trans h.held⟩

theorem isAbout_iff {ruleId : String} :
    isAbout ruleId subject rt = true ↔ rt.1.id = ruleId ∧ rt.2.subjectKey = subject := by
  rw [isAbout, Bool.and_eq_true, decide_eq_true_iff, decide_eq_true_iff]

theorem seenSeverity_saveRuleState (db : AlertDb) (id key ruleId subject : String)
    (g : GateResult) :
    (db.saveRuleState id key g).seenSeverity ruleId subject = db.seenSeverity ruleId subject := by
  by_cases hkey : (ruleId, subject) = (id, key)
  · obtain ⟨rfl, rfl⟩ := Prod.mk.inj hkey
    simp only [AlertDb.seenSeverity, AlertDb.saveRuleState, Function.update_self, Option.bind_some]
  · simp only [AlertDb.seenSeverity, AlertDb.saveRuleState, Function.update_of_ne hkey]

theorem seenSeverity_writeTrigger (w : Writing) (ruleId subject : String) :
    (rec.writeTrigger w rt).db.seenSeverity ruleId subject = w.db.seenSeverity ruleId subject := by
  obtain ⟨base, t⟩ := rt
  simp only [Recorder.writeTrigger]
  split
  · exact seenSeverity_saveRuleState _ _ _ _ _ _
  · exact seenSeverity_saveRuleState _ _ _ _ _ _

/-- Who is held back: those whose gate was closed. -/
theorem held_writeTrigger (w : Writing) (base : RuleBase) (t : Trigger) :
    (rec.writeTrigger w (base, t)).held =
      if (gate base (w.db.ruleState base.id t.subjectKey) rec.now).allowed = true then w.held
      else (base.id, t.subjectKey) :: w.held := by
  simp only [Recorder.writeTrigger]
  split <;> rfl

theorem about_append {db db' : AlertDb} {added : List Alert} (ruleId subject : String)
    (h : db'.alerts = db.alerts ++ added) : db'.about ruleId subject =
      db.about ruleId subject ++ added.filter fun a => decide (a.trigger.ruleId = ruleId) &&
        decide (a.trigger.subjectKey = subject) := by
  rw [AlertDb.about, h, List.filter_append, AlertDb.about]

/-- A trigger of another rule, or for another subject. -/
theorem untouched_writeTrigger (rec : Recorder) {ruleId : String} (hid : rt.2.ruleId = rt.1.id)
    (hother : isAbout ruleId subject rt = false) :
    Untouched ruleId subject w (rec.writeTrigger w rt) := by
  have hne : ¬ (rt.1.id = ruleId ∧ rt.2.subjectKey = subject) := by
    rw [← isAbout_iff, hother]
    exact Bool.false_ne_true
  obtain ⟨base, t⟩ := rt
  obtain ⟨hstate, hcases⟩ := writeTrigger_cases rec w base t
  refine ⟨?_, seenSeverity_writeTrigger w ruleId subject, ?_, ?_⟩
  · rw [AlertDb.stateOf, hstate, if_neg hne, AlertDb.stateOf]
  · rcases hcases with ⟨-, a, ha, halerts⟩ | ⟨-, halerts⟩
    · rw [about_append _ _ halerts, List.filter_singleton, ha, hid]
      have hfalse : (decide (base.id = ruleId) && decide (t.subjectKey = subject)) = false := hother
      rw [hfalse]
      exact List.append_nil _
    · rw [AlertDb.about, halerts, AlertDb.about]
  · rw [held_writeTrigger]
    split
    · exact Iff.rfl
    · rw [List.mem_cons, or_iff_right]
      intro heq
      exact hne ⟨(Prod.mk.inj heq).1.symm, (Prod.mk.inj heq).2.symm⟩

/-- The triggers have nothing to do with the subject. -/
theorem untouched_foldl (rec : Recorder) {ruleId : String} (hids : ∀ rt ∈ rts, rt.2.ruleId = rt.1.id)
    (hnone : rts.filter (isAbout ruleId subject) = []) :
    Untouched ruleId subject w (rts.foldl rec.writeTrigger w) := by
  induction rts generalizing w with
  | nil => exact Untouched.refl _ _ _
  | cons rt rts ih =>
      have hhead : isAbout ruleId subject rt = false := by
        by_contra habout
        rw [List.filter_cons_of_pos (by simpa using habout)] at hnone
        exact List.cons_ne_nil _ _ hnone
      rw [List.filter_cons_of_neg (by rw [hhead]; exact Bool.false_ne_true)] at hnone
      exact (untouched_writeTrigger rec (hids rt List.mem_cons_self) hhead).trans
        (ih (fun q hq => hids q (List.mem_cons_of_mem _ hq)) hnone)

/-- Behind a closed gate everything is held back. -/
theorem foldl_of_closed (rec : Recorder)
    (hids : ∀ rt ∈ rts, rt.2.ruleId = rt.1.id ∧ (rt.1.id = rule.id → rt.1 = rule))
    (hclosed : (gate rule (w.db.ruleState rule.id subject) rec.now).allowed = false) :
    (rts.foldl rec.writeTrigger w).db.seenSeverity rule.id subject =
        w.db.seenSeverity rule.id subject ∧
      (rts.foldl rec.writeTrigger w).db.about rule.id subject = w.db.about rule.id subject ∧
      (gate rule ((rts.foldl rec.writeTrigger w).db.ruleState rule.id subject) rec.now).allowed =
        false ∧
      ((rule.id, subject) ∈ w.held ∨ rts.filter (isAbout rule.id subject) ≠ [] →
        (rule.id, subject) ∈ (rts.foldl rec.writeTrigger w).held) := by
  induction rts generalizing w with
  | nil =>
      refine ⟨rfl, rfl, hclosed, ?_⟩
      rintro (h | h)
      · exact h
      · exact absurd rfl h
  | cons rt rts ih =>
      obtain ⟨hid, hbase⟩ := hids rt List.mem_cons_self
      have hrest := fun q hq => hids q (List.mem_cons_of_mem rt hq)
      by_cases habout : isAbout rule.id subject rt = true
      · -- it is held back, and the gate stays closed
        obtain ⟨hrule, hsubject⟩ := isAbout_iff.1 habout
        obtain ⟨base, t⟩ := rt
        obtain rfl : base = rule := hbase hrule
        obtain rfl : t.subjectKey = subject := hsubject
        obtain ⟨hstate, hcases⟩ := writeTrigger_cases rec w base t
        have halerts : (rec.writeTrigger w (base, t)).db.alerts = w.db.alerts := by
          rcases hcases with ⟨hopen, -⟩ | ⟨-, halerts⟩
          · rw [hopen] at hclosed
            exact absurd hclosed nofun
          · exact halerts
        have hheld : (base.id, t.subjectKey) ∈ (rec.writeTrigger w (base, t)).held := by
          rw [held_writeTrigger, if_neg (by rw [hclosed]; exact Bool.false_ne_true)]
          exact List.mem_cons_self
        have hagain : (gate base ((rec.writeTrigger w (base, t)).db.ruleState base.id
            t.subjectKey) rec.now).allowed = false := by
          rw [hstate, if_pos ⟨rfl, rfl⟩]
          exact gate_closed_again hclosed
        obtain ⟨hseen, habout', hstill, hmem⟩ := ih hrest hagain
        refine ⟨hseen.trans (seenSeverity_writeTrigger _ _ _), habout'.trans ?_, hstill,
          fun _ => ?_⟩
        · rw [AlertDb.about, halerts, AlertDb.about]
        · exact hmem (Or.inl hheld)
      · have hother : isAbout rule.id subject rt = false := Bool.eq_false_iff.2 habout
        have hsame := untouched_writeTrigger (w := w) rec hid hother
        obtain ⟨hseen, habout', hstill, hmem⟩ :=
          ih hrest (by rwa [gate_eq_of_stateOf hsame.state])
        refine ⟨hseen.trans hsame.seen, habout'.trans hsame.about, hstill, fun h => hmem ?_⟩
        rw [List.filter_cons_of_neg habout] at h
        exact h.imp_left hsame.held.2

/-- The one trigger for the subject, behind an open gate, is an alert. -/
theorem foldl_of_opened (rec : Recorder)
    (hids : ∀ rt ∈ rts, rt.2.ruleId = rt.1.id ∧ (rt.1.id = rule.id → rt.1 = rule))
    (hone : rts.filter (isAbout rule.id subject) = [rt])
    (hopen : (gate rule (w.db.ruleState rule.id subject) rec.now).allowed = true) :
    (rts.foldl rec.writeTrigger w).db.seenSeverity rule.id subject =
        w.db.seenSeverity rule.id subject ∧
      ((rule.id, subject) ∈ (rts.foldl rec.writeTrigger w).held ↔ (rule.id, subject) ∈ w.held) := by
  induction rts generalizing w with
  | nil => exact absurd hone nofun
  | cons q rts ih =>
      obtain ⟨hid, hbase⟩ := hids q List.mem_cons_self
      have hrest := fun q' hq' => hids q' (List.mem_cons_of_mem q hq')
      by_cases habout : isAbout rule.id subject q = true
      · -- it goes through the gate, and nothing after it is for the subject
        rw [List.filter_cons_of_pos habout] at hone
        have hnone := (List.cons_eq_cons.1 hone).2
        have hsame := untouched_foldl (w := rec.writeTrigger w q) rec
          (fun q' hq' => (hrest q' hq').1) hnone
        obtain ⟨hrule, hsubject⟩ := isAbout_iff.1 habout
        obtain ⟨base, t⟩ := q
        obtain rfl : base = rule := hbase hrule
        obtain rfl : t.subjectKey = subject := hsubject
        refine ⟨hsame.seen.trans (seenSeverity_writeTrigger _ _ _), hsame.held.trans ?_⟩
        rw [held_writeTrigger, if_pos hopen]
      · have hother : isAbout rule.id subject q = false := Bool.eq_false_iff.2 habout
        have hsame := untouched_writeTrigger (w := w) rec hid hother
        rw [List.filter_cons_of_neg habout] at hone
        obtain ⟨hseen, hheld⟩ := ih hrest hone (by rwa [gate_eq_of_stateOf hsame.state])
        exact ⟨hseen.trans hsame.seen, hheld.trans hsame.held⟩

theorem seenSeverity_setSeenSeverity (db : AlertDb) (id key ruleId subject : String)
    (severity : Severity) :
    (db.setSeenSeverity id key severity).seenSeverity ruleId subject =
      if id = ruleId ∧ key = subject then some severity else db.seenSeverity ruleId subject := by
  by_cases hkey : id = ruleId ∧ key = subject
  · obtain ⟨rfl, rfl⟩ := hkey
    rw [if_pos ⟨rfl, rfl⟩]
    simp only [AlertDb.seenSeverity, AlertDb.setSeenSeverity, Function.update_self, Option.bind_some]
  · have hne : (ruleId, subject) ≠ (id, key) := by
      intro heq
      exact hkey ⟨(Prod.mk.inj heq).1.symm, (Prod.mk.inj heq).2.symm⟩
    rw [if_neg hkey]
    simp only [AlertDb.seenSeverity, AlertDb.setSeenSeverity, Function.update_of_ne hne]

theorem held_foldl_writeSeen (seen : List (String × String × Severity)) (w : Writing) :
    (seen.foldl writeSeen w).held = w.held := by
  induction seen generalizing w with
  | nil => rfl
  | cons s seen ih =>
      refine (ih (writeSeen w s)).trans ?_
      rw [writeSeen]
      split <;> rfl

/-- What is seen of a subject when everything is written: the last entry, unless its alert was held
back. -/
theorem seenSeverity_foldl_writeSeen (seen : List (String × String × Severity)) (w : Writing)
    (ruleId subject : String) :
    (seen.foldl writeSeen w).db.seenSeverity ruleId subject =
      if (ruleId, subject) ∈ w.held then w.db.seenSeverity ruleId subject
      else ((seen.filter fun s => decide (s.1 = ruleId) && decide (s.2.1 = subject)).getLast?.map
        fun s => s.2.2).or (w.db.seenSeverity ruleId subject) := by
  induction seen using List.reverseRecOn with
  | nil =>
      rw [List.filter_nil, List.getLast?_nil, Option.map_none, Option.none_or, ite_self]
      rfl
  | append_singleton seen s ih =>
      rw [List.foldl_append, List.foldl_cons, List.foldl_nil, List.filter_append,
        List.filter_singleton, writeSeen, held_foldl_writeSeen]
      by_cases hkey : s.1 = ruleId ∧ s.2.1 = subject
      · -- the last entry so far
        obtain ⟨rfl, rfl⟩ := hkey
        rw [decide_eq_true rfl, decide_eq_true rfl]
        by_cases hheld : (s.1, s.2.1) ∈ w.held
        · rw [if_pos hheld, if_pos hheld, ih, if_pos hheld]
        · rw [if_neg hheld, if_neg hheld]
          simp only [seenSeverity_setSeenSeverity, and_self, if_true, Bool.and_self, cond_true,
            List.getLast?_append, List.getLast?_singleton, Option.some_or, Option.map_some]
      · have hfalse : (decide (s.1 = ruleId) && decide (s.2.1 = subject)) = false := by
          rw [Bool.and_eq_false_iff, decide_eq_false_iff_not, decide_eq_false_iff_not]
          exact not_and_or.1 hkey
        rw [hfalse]
        simp only [cond_false, List.append_nil]
        rw [← ih]
        split
        · rfl
        · simp only [seenSeverity_setSeenSeverity, if_neg hkey]

end Subjects

/-! ## Steps that nothing disturbs -/

/-- Others do nothing and the step does not fail. -/
def undisturbed {φ : Type} : Answer φ := ⟨id, false⟩

section Quiet

variable {φ β α : Type} {w : State φ β}

theorem returns_look (f : World φ → α) :
    Program.Returns undisturbed (look (β := β) f) w (.ok (f w.world)) w := Program.returns_act _

theorem returns_transaction (batch : β) (f : AlertDb → AlertDb × α) (n : Nat) :
    Program.Returns undisturbed (transaction (φ := φ) batch f n) w (.ok (f w.world.app).2)
      (w.committed batch f) := by
  induction n with
  | zero => exact Program.returns_act _
  | succ n ih => exact Program.returns_bind (Program.returns_act _) ih

/-- A commit of the PCE and the generation that were read. -/
theorem returns_commit {rec : Recorder} {source : Source} {mark : Option Watermark} {batch : β}
    (hpce : w.world.pce = rec.pce) (hgeneration : w.world.generation = rec.generation) :
    Program.Returns undisturbed (rec.commit source mark batch) w
      (.ok (rec.change source mark w.world.app).2)
      (w.committed batch (rec.change source mark)) := by
  refine Program.returns_bind (returns_look _) ?_
  rw [hpce, hgeneration, decide_eq_true rfl, decide_eq_true rfl]
  exact returns_transaction _ _ _

end Quiet

end IllumioOps.Alerts
