import IllumioOps.Alerts.Events
import IllumioOps.Alerts.Gates

/-!
# Events read in batches

What a run of `evaluate_events` records when nothing else happens and nothing fails: its batches
one after the other, over a store that stays the same (`returns_evaluateBatches`). Whether a rule
alerts for a subject is decided by its gate before the run and by whether some batch triggers
(`alerted_batches_iff`). An immediate rule counts within a batch, so where the events are cut can
be observed (`cut_unobserved_iff`, `cut_observed`).
-/

set_option autoImplicit false

namespace IllumioOps.Alerts

open Programs

/-! ## Batches -/

/-- What stays the same over a run: the run itself, the store, the PCE, the generation and the
floor. -/
structure Evaluation where
  run : EventRun
  store : EventStore
  pce : Pce
  generation : Nat
  floor : Option Int

namespace Evaluation

/-- The events of a batch that are evaluated. -/
def facts (e : Evaluation) (rows : List EventRow) : List EventRow :=
  rows.filter fun r => e.floor.all fun t => decide (t < r.timestamp)

def windowMatches (e : Evaluation) (rule : EventRule) : Nat :=
  match rule.threshold with
  | .immediate => 0
  | .count => ((e.store.eventsInWindow (e.run.now - minutes rule.windowMinutes) e.run.now
      rule.types).filter rule.accepts).length

/-- The triggers of a rule in a batch. -/
def triggers (e : Evaluation) (rule : EventRule) (rows : List EventRow) : List Trigger :=
  let found := (e.facts rows).filter rule.accepts
  if rule.enabled then
    (evaluateEventRule e.run.reading e.store.hostKey rule found (e.windowMatches rule)
      e.run.now).map fun t => { t with groupedAnnotation := e.run.reading.explained t found }
  else []

/-- The recorder with nothing recorded. -/
def recorder (e : Evaluation) : Recorder :=
  ⟨e.run.now, e.pce, e.generation, e.run.channels, [], []⟩

/-- The recorder after the rules were run over a batch. -/
def recorded (e : Evaluation) (rows : List EventRow) (rules : List EventRule) (r : Recorder) :
    Recorder :=
  rules.foldl (fun r rule => r.record rule.toRuleBase (e.triggers rule rows)) r

/-- One batch. -/
def batch (e : Evaluation) (db : AlertDb) (rows : List EventRow) : AlertDb :=
  match rows.getLast? with
  | none => db
  | some last =>
      ((e.recorded rows e.run.rules e.recorder).change .events (some (.id last.id)) db).1

/-- The batches of a run. -/
def batches (e : Evaluation) (db : AlertDb) (cut : List (List EventRow)) : AlertDb :=
  cut.foldl e.batch db

/-- The batches a run reads. -/
def pages (e : Evaluation) : Nat → Nat → List (List EventRow)
  | 0, _ => []
  | n + 1, after =>
      match (e.store.eventsAfter after eventBatch).1.getLast? with
      | none => []
      | some last =>
          (e.store.eventsAfter after eventBatch).1 ::
            if (e.store.eventsAfter after eventBatch).2 then e.pages n last.id else []

end Evaluation

/-! ## A run that nothing disturbs -/

section Runs

variable {e : Evaluation} {w : EventState} {rule : EventRule} {rows : List EventRow}

theorem returns_windowMatches (hflow : w.world.flow = e.store) :
    Program.Returns undisturbed (windowMatches e.run rule) w (.ok (e.windowMatches rule)) w := by
  rw [windowMatches.eq_def, Evaluation.windowMatches.eq_def]
  cases rule.threshold with
  | immediate => exact Program.returns_pure
  | count =>
      rw [← hflow]
      exact returns_look _

/-- A rule that finds nothing, or is off, records nothing. -/
theorem triggers_eq_nil (h : (!rule.enabled || decide ((e.facts rows).filter rule.accepts = [])) =
    true) : e.triggers rule rows = [] := by
  rw [Evaluation.triggers]
  cases henabled : rule.enabled with
  | false => rfl
  | true =>
      rw [henabled, Bool.not_true, Bool.false_or, decide_eq_true_iff] at h
      simp only [h, if_true, evaluateEventRule, List.map_nil]

theorem returns_recordRules (hflow : w.world.flow = e.store) (rules : List EventRule)
    (r : Recorder) :
    Program.Returns undisturbed (recordRules e.run (e.facts rows) rules r) w
      (.ok (e.recorded rows rules r)) w := by
  induction rules generalizing r with
  | nil => exact Program.returns_pure
  | cons rule rules ih =>
      rw [recordRules.eq_def, Evaluation.recorded, List.foldl_cons]
      by_cases hskip : (!rule.enabled || decide ((e.facts rows).filter rule.accepts = [])) = true
      · simp only [hskip, if_true, triggers_eq_nil hskip, Recorder.record]
        exact ih r
      · simp only [hskip]
        refine Program.returns_bind (returns_windowMatches hflow) ?_
        refine Program.returns_bind (returns_look _) ?_
        have henabled : rule.enabled = true := by
          cases h : rule.enabled with
          | true => rfl
          | false => exact absurd (by rw [h]; rfl) hskip
        rw [hflow]
        simp only [Evaluation.triggers, henabled, if_true]
        exact ih _

theorem recorded_pce {rules : List EventRule} {r : Recorder} :
    (e.recorded rows rules r).pce = r.pce ∧ (e.recorded rows rules r).generation = r.generation := by
  induction rules generalizing r with
  | nil => exact ⟨rfl, rfl⟩
  | cons rule rules ih =>
      have hrecord : (r.record rule.toRuleBase (e.triggers rule rows)).pce = r.pce ∧
          (r.record rule.toRuleBase (e.triggers rule rows)).generation = r.generation := by
        rw [Recorder.record]
        split <;> exact ⟨rfl, rfl⟩
      exact ⟨ih.1.trans hrecord.1, ih.2.trans hrecord.2⟩

/-- A run from an id leaves what its batches leave, one after the other. -/
theorem returns_evaluateBatches (hflow : w.world.flow = e.store) (hpce : w.world.pce = e.pce)
    (hgeneration : w.world.generation = e.generation) (n after : Nat) (run : EvalRun) :
    ∃ run' w', Program.Returns undisturbed
        (evaluateBatches e.run e.pce e.generation e.floor n after run) w (.ok run') w' ∧
      w'.world.app = e.batches w.world.app (e.pages n after) := by
  induction n generalizing w after run with
  | zero => exact ⟨run, w, Program.returns_pure, rfl⟩
  | succ n ih =>
      have hpage : Program.Returns undisturbed
          (look (β := List EventRow) fun v => v.flow.eventsAfter after eventBatch) w
          (.ok (e.store.eventsAfter after eventBatch)) w := by
        rw [← hflow]
        exact returns_look _
      rw [evaluateBatches.eq_def, Evaluation.pages]
      rcases heq : e.store.eventsAfter after eventBatch with ⟨rows, more⟩
      rw [heq] at hpage
      cases hlast : rows.getLast? with
      | none =>
          refine ⟨run, w, Program.returns_bind hpage ?_, rfl⟩
          simp only [hlast]
          exact Program.returns_pure
      | some last =>
          -- the batch is committed, and what it read is still there for the next one
          let found := e.recorded rows e.run.rules e.recorder
          have hkept : found.pce = e.pce ∧ found.generation = e.generation := recorded_pce
          let w' := w.committed (e.facts rows) (found.change .events (some (.id last.id)))
          have hcommit : Program.Returns undisturbed
              (found.commit .events (some (.id last.id)) (e.facts rows)) w
              (.ok (found.change .events (some (.id last.id)) w.world.app).2) w' :=
            returns_commit (hpce.trans hkept.1.symm) (hgeneration.trans hkept.2.symm)
          have hbatch : w'.world.app = e.batch w.world.app rows := by
            rw [Evaluation.batch, hlast]
            rfl
          let next : EvalRun := ⟨run.evaluated + (e.facts rows).length,
            run.fired + (found.change .events (some (.id last.id)) w.world.app).2.1,
            run.suppressed + (found.change .events (some (.id last.id)) w.world.app).2.2⟩
          cases more with
          | false =>
              refine ⟨next, w', Program.returns_bind hpage ?_, ?_⟩
              · simp only [hlast]
                refine Program.returns_bind (returns_recordRules hflow e.run.rules e.recorder) ?_
                exact Program.returns_bind hcommit Program.returns_pure
              · exact hbatch
          | true =>
              obtain ⟨run', w'', hrest, happ⟩ := ih (w := w') hflow hpce hgeneration last.id
                next
              refine ⟨run', w'', Program.returns_bind hpage ?_, ?_⟩
              · simp only [hlast]
                refine Program.returns_bind (returns_recordRules hflow e.run.rules e.recorder) ?_
                exact Program.returns_bind hcommit hrest
              · rw [happ, hbatch]
                rfl

end Runs

/-! ## Who is alerted -/

section Alerting

variable {e : Evaluation} {rule : EventRule} {subject : String} {before db : AlertDb}
  {rows : List EventRow} {triggered : Prop}

/-- A rule triggers for a subject in a batch. -/
def Evaluation.Triggers (e : Evaluation) (rule : EventRule) (subject : String)
    (rows : List EventRow) : Prop :=
  ∃ t ∈ e.triggers rule rows, t.subjectKey = subject

/-- What a batch records: the triggers of its rules. -/
theorem triggers_recorded (rules : List EventRule) (r : Recorder) :
    (e.recorded rows rules r).triggers =
      r.triggers ++ rules.flatMap fun rule => (e.triggers rule rows).map fun t =>
        (rule.toRuleBase, t) := by
  induction rules generalizing r with
  | nil => exact (List.append_nil _).symm
  | cons rule rules ih =>
      have hrest := ih (r.record rule.toRuleBase (e.triggers rule rows))
      rw [triggers_record, List.append_assoc] at hrest
      exact hrest

theorem recorded_now (rules : List EventRule) (r : Recorder) :
    (e.recorded rows rules r).now = r.now := by
  induction rules generalizing r with
  | nil => rfl
  | cons rule rules ih =>
      have hrecord : (r.record rule.toRuleBase (e.triggers rule rows)).now = r.now := by
        rw [Recorder.record]
        split <;> rfl
      exact (ih (r.record rule.toRuleBase (e.triggers rule rows))).trans hrecord

/-- A trigger names its rule. -/
theorem ruleId_of_mem_triggers {t : Trigger} (h : t ∈ e.triggers rule rows) :
    t.ruleId = rule.id := by
  simp only [Evaluation.triggers] at h
  split at h
  · obtain ⟨t, ht, rfl⟩ := List.mem_map.1 h
    rw [evaluateEventRule] at ht
    split at ht
    · exact absurd ht List.not_mem_nil
    split at ht
    · split at ht
      · exact absurd ht List.not_mem_nil
      · rw [List.mem_singleton.1 ht]
        rfl
    · obtain ⟨p, -, hp⟩ := List.mem_filterMap.1 ht
      split at hp
      · exact absurd hp nofun
      · rw [← Option.some.inj hp]
        rfl
  · exact absurd h List.not_mem_nil

/-- The rules of the settings have different ids. -/
theorem eq_of_rule_id (hids : (e.run.rules.map fun r => r.id).Nodup) (hrule : rule ∈ e.run.rules)
    {other : EventRule} (hother : other ∈ e.run.rules) (h : other.id = rule.id) :
    other = rule :=
  List.inj_on_of_nodup_map hids hother hrule h

/-- One batch. -/
theorem Stands.batch (hids : (e.run.rules.map fun r => r.id).Nodup) (hrule : rule ∈ e.run.rules)
    (h : Stands rule.toRuleBase e.run.now subject before db triggered) (rows : List EventRow) :
    Stands rule.toRuleBase e.run.now subject before (e.batch db rows)
      (triggered ∨ e.Triggers rule subject rows) := by
  rw [Evaluation.batch]
  cases hlast : rows.getLast? with
  | none =>
      obtain rfl := List.getLast?_eq_none_iff.1 hlast
      refine h.congr rfl rfl (or_iff_left ?_)
      rintro ⟨t, ht, -⟩
      rw [triggers_eq_nil (by simp [Evaluation.facts])] at ht
      exact List.not_mem_nil ht
  | some last =>
      have hmem : ∀ rt ∈ (e.recorded rows e.run.rules e.recorder).triggers,
          ∃ other ∈ e.run.rules, ∃ t ∈ e.triggers other rows, rt = (other.toRuleBase, t) := by
        intro rt hrt
        rw [triggers_recorded] at hrt
        obtain ⟨other, hother, hrt⟩ := List.mem_flatMap.1 hrt
        obtain ⟨t, ht, rfl⟩ := List.mem_map.1 hrt
        exact ⟨other, hother, t, ht, rfl⟩
      have hnow : (e.recorded rows e.run.rules e.recorder).now = e.run.now := recorded_now _ _
      have hrts : ∀ rt ∈ (e.recorded rows e.run.rules e.recorder).triggers,
          rt.2.ruleId = rt.1.id ∧ (rt.1.id = rule.id → rt.1 = rule.toRuleBase) := by
        intro rt hrt
        obtain ⟨other, hother, t, ht, rfl⟩ := hmem rt hrt
        refine ⟨ruleId_of_mem_triggers ht, fun hid => ?_⟩
        rw [eq_of_rule_id hids hrule hother hid]
      have hchange := Stands.change .events (some (.id last.id)) (by rw [hnow]; exact h) hrts
      rw [hnow] at hchange
      refine hchange.congr rfl rfl (or_congr Iff.rfl ⟨?_, ?_⟩)
      · rintro ⟨t, ht, hsubject⟩
        refine ⟨(rule.toRuleBase, t), ?_, rfl, hsubject⟩
        rw [triggers_recorded]
        exact List.mem_append_right _ (List.mem_flatMap.2 ⟨rule, hrule, List.mem_map_of_mem ht⟩)
      · rintro ⟨rt, hrt, hid, hsubject⟩
        obtain ⟨other, hother, t, ht, rfl⟩ := hmem rt hrt
        obtain rfl := eq_of_rule_id hids hrule hother hid
        exact ⟨t, ht, hsubject⟩

/-- The batches of a run. -/
theorem Stands.batches (hids : (e.run.rules.map fun r => r.id).Nodup)
    (hrule : rule ∈ e.run.rules)
    (h : Stands rule.toRuleBase e.run.now subject before db triggered)
    (cut : List (List EventRow)) :
    Stands rule.toRuleBase e.run.now subject before (e.batches db cut)
      (triggered ∨ ∃ rows ∈ cut, e.Triggers rule subject rows) := by
  induction cut generalizing db triggered with
  | nil =>
      refine h.congr rfl rfl (or_iff_left ?_)
      rintro ⟨rows, hrows, -⟩
      exact List.not_mem_nil hrows
  | cons rows cut ih =>
      refine (ih (h.batch hids hrule rows)).congr rfl rfl ?_
      simp only [List.mem_cons, exists_eq_or_imp, or_assoc]

/-- The gate of a rule is open for a subject. -/
def Evaluation.Opens (e : Evaluation) (rule : EventRule) (subject : String) (db : AlertDb) :
    Prop :=
  (gate rule.toRuleBase (db.ruleState rule.id subject) e.run.now).allowed = true

/-- A run alerts for a subject when the gate was open and some batch triggers. -/
theorem alerted_batches_iff (hids : (e.run.rules.map fun r => r.id).Nodup)
    (hrule : rule ∈ e.run.rules) (db : AlertDb) (cut : List (List EventRow)) (subject : String) :
    NewlyAlerted db (e.batches db cut) rule.id subject ↔
      e.Opens rule subject db ∧ ∃ rows ∈ cut, e.Triggers rule subject rows := by
  have hstart : Stands rule.toRuleBase e.run.now subject db db False := stands_start
  have h := hstart.batches hids hrule cut
  cases hgate : (gate rule.toRuleBase (db.ruleState rule.id subject) e.run.now).allowed with
  | true =>
      rw [(h.opened hgate).1, false_or]
      exact ⟨fun htriggered => ⟨hgate, htriggered⟩, And.right⟩
  | false =>
      refine ⟨fun halerted => absurd halerted (h.closed hgate).1, fun hopen => ?_⟩
      have hopens := hopen.1
      rw [Evaluation.Opens, hgate] at hopens
      exact absurd hopens nofun

/-! ## Where the events are cut -/

/-- The events of a subject among those a rule accepts. -/
def Evaluation.ofSubject (e : Evaluation) (rule : EventRule) (subject : String)
    (rows : List EventRow) : List EventRow :=
  ((e.facts rows).filter rule.accepts).filter fun r =>
    decide ((e.store.hostKey r).getD r.eventType = subject)

/-- There are events of the subject, as many as the rule asks for. -/
def Evaluation.Reaches (e : Evaluation) (rule : EventRule) (subject : String)
    (rows : List EventRow) : Prop :=
  e.ofSubject rule subject rows ≠ [] ∧
    rule.thresholdCount ≤ (e.ofSubject rule subject rows).length

theorem mem_bySubject {subjectOf : EventRow → String} {found own : List EventRow} :
    (subject, own) ∈ bySubject subjectOf found ↔
      own ≠ [] ∧ own = found.filter fun r => decide (subjectOf r = subject) := by
  rw [bySubject, List.mem_map]
  constructor
  · rintro ⟨s, hs, heq⟩
    obtain ⟨rfl, rfl⟩ := Prod.mk.inj heq
    obtain ⟨r, hr, rfl⟩ := List.mem_map.1 (List.mem_eraseDups.1 hs)
    refine ⟨List.ne_nil_of_mem (List.mem_filter.2 ⟨hr, decide_eq_true rfl⟩), rfl⟩
  · rintro ⟨hne, rfl⟩
    obtain ⟨r, hr⟩ := List.exists_mem_of_ne_nil _ hne
    obtain ⟨hr, hsubject⟩ := List.mem_filter.1 hr
    refine ⟨subject, List.mem_eraseDups.2 (List.mem_map.2 ⟨r, hr, ?_⟩), rfl⟩
    exact of_decide_eq_true hsubject

/-- An immediate rule counts the events of each subject in the batch. -/
theorem triggers_immediate_iff (hrule : rule.threshold = .immediate) :
    e.Triggers rule subject rows ↔ rule.enabled = true ∧ e.Reaches rule subject rows := by
  simp only [Evaluation.Triggers, Evaluation.triggers]
  cases henabled : rule.enabled with
  | false =>
      simp only [Bool.false_eq_true, if_false, List.not_mem_nil, false_and, exists_false]
  | true =>
      simp only [if_true, true_and]
      rw [evaluateEventRule]
      by_cases hfound : (e.facts rows).filter rule.accepts = []
      · rw [if_pos hfound]
        refine ⟨fun ⟨t, ht, _⟩ => absurd ht List.not_mem_nil, fun hreaches => ?_⟩
        exact absurd (by rw [Evaluation.ofSubject, hfound]; rfl) hreaches.1
      · rw [if_neg hfound, hrule]
        constructor
        · rintro ⟨t, ht, rfl⟩
          obtain ⟨u, hu, rfl⟩ := List.mem_map.1 ht
          obtain ⟨⟨s, found⟩, hp, htrigger⟩ := List.mem_filterMap.1 hu
          obtain ⟨hne, rfl⟩ := mem_bySubject.1 hp
          split at htrigger
          · exact absurd htrigger nofun
          · rename_i hcount
            rw [← Option.some.inj htrigger]
            exact ⟨hne, not_lt.1 hcount⟩
        · rintro ⟨hne, hcount⟩
          refine ⟨_, List.mem_map.2 ⟨_, List.mem_filterMap.2 ⟨(subject, _),
            mem_bySubject.2 ⟨hne, rfl⟩, if_neg (not_lt.2 hcount)⟩, rfl⟩, rfl⟩

/-- A rule that counts looks into the store; of the batch it needs any event it accepts. -/
theorem triggers_count_iff (hrule : rule.threshold = .count) :
    e.Triggers rule subject rows ↔ (rule.enabled = true ∧
      rule.thresholdCount ≤ e.windowMatches rule ∧ rule.id = subject) ∧
      (e.facts rows).filter rule.accepts ≠ [] := by
  simp only [Evaluation.Triggers, Evaluation.triggers]
  cases henabled : rule.enabled with
  | false =>
      simp only [Bool.false_eq_true, if_false, List.not_mem_nil, false_and, exists_false]
  | true =>
      simp only [if_true, true_and]
      rw [evaluateEventRule]
      by_cases hfound : (e.facts rows).filter rule.accepts = []
      · rw [if_pos hfound]
        exact ⟨fun ⟨t, ht, _⟩ => absurd ht List.not_mem_nil, fun h => absurd hfound h.2⟩
      · rw [if_neg hfound, hrule]
        by_cases hcount : e.windowMatches rule < rule.thresholdCount
        · simp only [if_pos hcount]
          exact ⟨fun ⟨t, ht, _⟩ => absurd ht List.not_mem_nil,
            fun h => absurd hcount (not_lt.2 h.1.1)⟩
        · simp only [if_neg hcount, List.map_cons, List.map_nil]
          constructor
          · rintro ⟨t, ht, rfl⟩
            rw [List.mem_singleton.1 ht]
            exact ⟨⟨not_lt.1 hcount, rfl⟩, hfound⟩
          · rintro ⟨⟨-, hid⟩, -⟩
            exact ⟨_, List.mem_singleton_self _, hid⟩

theorem filter_flatten_ne_nil {p : EventRow → Bool} {cut : List (List EventRow)} :
    cut.flatten.filter p ≠ [] ↔ ∃ rows ∈ cut, rows.filter p ≠ [] := by
  constructor
  · intro hne
    obtain ⟨r, hr⟩ := List.exists_mem_of_ne_nil _ hne
    obtain ⟨hr, hp⟩ := List.mem_filter.1 hr
    obtain ⟨rows, hrows, hr⟩ := List.mem_flatten.1 hr
    exact ⟨rows, hrows, List.ne_nil_of_mem (List.mem_filter.2 ⟨hr, hp⟩)⟩
  · rintro ⟨rows, hrows, hne⟩
    obtain ⟨r, hr⟩ := List.exists_mem_of_ne_nil _ hne
    obtain ⟨hr, hp⟩ := List.mem_filter.1 hr
    exact List.ne_nil_of_mem (List.mem_filter.2 ⟨List.mem_flatten_of_mem hrows hr, hp⟩)

/-- Where the events are cut makes no difference to a rule that counts. -/
theorem triggers_flatten_of_count (hrule : rule.threshold = .count)
    (cut : List (List EventRow)) :
    e.Triggers rule subject cut.flatten ↔ ∃ rows ∈ cut, e.Triggers rule subject rows := by
  simp only [triggers_count_iff hrule, Evaluation.facts, List.filter_filter]
  rw [filter_flatten_ne_nil]
  exact ⟨fun ⟨h, rows, hrows, hne⟩ => ⟨rows, hrows, h, hne⟩,
    fun ⟨rows, hrows, h, hne⟩ => ⟨h, rows, hrows, hne⟩⟩

/-- A batch that reaches the count is part of events that do. -/
theorem Evaluation.Reaches.flatten {cut : List (List EventRow)} (hrows : rows ∈ cut)
    (h : e.Reaches rule subject rows) : e.Reaches rule subject cut.flatten := by
  have hsub : (e.ofSubject rule subject rows).Sublist (e.ofSubject rule subject cut.flatten) :=
    (((List.sublist_flatten_of_mem hrows).filter _).filter _).filter _
  refine ⟨fun hnil => h.1 ?_, h.2.trans hsub.length_le⟩
  rw [hnil] at hsub
  exact List.sublist_nil.1 hsub

end Alerting

/-- Whether the events of a run are cut into batches or read in one makes no difference to the
subjects a rule alerts for, exactly when the rule counts in a window or is off, or for each subject
behind an open gate some batch has as many of its events as the rule asks for, if there are as many
in all. -/
theorem cut_unobserved_iff {e : Evaluation} (hids : (e.run.rules.map fun r => r.id).Nodup)
    {rule : EventRule} (hrule : rule ∈ e.run.rules) (db : AlertDb) (cut : List (List EventRow)) :
    (∀ subject, NewlyAlerted db (e.batches db cut) rule.id subject ↔
      NewlyAlerted db (e.batches db [cut.flatten]) rule.id subject) ↔
    (rule.enabled = true → rule.threshold = .immediate → ∀ subject, e.Opens rule subject db →
      e.Reaches rule subject cut.flatten → ∃ rows ∈ cut, e.Reaches rule subject rows) := by
  have hone : ∀ subject, (∃ rows ∈ [cut.flatten], e.Triggers rule subject rows) ↔
      e.Triggers rule subject cut.flatten := by
    intro subject
    simp only [List.mem_singleton, exists_eq_left]
  simp only [alerted_batches_iff hids hrule, hone]
  cases hthreshold : rule.threshold with
  | count =>
      simp only [triggers_flatten_of_count hthreshold, implies_true, reduceCtorEq, false_implies]
  | immediate =>
      simp only [triggers_immediate_iff hthreshold, true_implies]
      constructor
      · intro hsame henabled subject hopens hreaches
        obtain ⟨-, rows, hrows, -, hrows'⟩ := (hsame subject).2 ⟨hopens, henabled, hreaches⟩
        exact ⟨rows, hrows, hrows'⟩
      · intro hcondition subject
        constructor
        · rintro ⟨hopens, rows, hrows, henabled, hreaches⟩
          exact ⟨hopens, henabled, hreaches.flatten hrows⟩
        · rintro ⟨hopens, henabled, hreaches⟩
          obtain ⟨rows, hrows, hreaches⟩ := hcondition henabled subject hopens hreaches
          exact ⟨hopens, rows, hrows, henabled, hreaches⟩

/-! ## A cut that is observed -/

/-- A failed login on the host `h`. -/
def loginFailed (id : Nat) : EventRow where
  id := id
  href := toString id
  eventType := "user.login_failed"
  severity := none
  status := none
  timestamp := id
  createdByKind := none
  createdByName := none
  createdByHref := none
  workloadHref := none
  tamperClassification := none
  rawJson := ""
  origin := .ingest
  ingestedAt := 0

/-- A rule for so many failed logins of one evaluation. -/
def loginsRule (count : Nat) : EventRule where
  id := "logins"
  name := "logins"
  packKey := none
  enabled := true
  notify := true
  severity := some .high
  cooldownMinutes := 30
  throttle := none
  accepts _ := true
  types := none
  threshold := .immediate
  thresholdCount := count
  windowMinutes := 10

/-- An evaluation with this rule alone. -/
def loginsEvaluation (count : Nat) : Evaluation where
  run := ⟨100, [loginsRule count], [], ⟨fun _ => .low, fun _ _ => none⟩⟩
  store := ⟨⟨[loginFailed 1, loginFailed 2], 2, by decide⟩, true, fun _ => some "h",
    ⟨by decide, by decide, by decide⟩⟩
  pce := ("https://pce", "1")
  generation := 1
  floor := none

/-- A rule for one failed login alerts wherever the two are cut. -/
theorem cut_unobserved_one :
    NewlyAlerted noAlerts ((loginsEvaluation 1).batches noAlerts [[loginFailed 1], [loginFailed 2]])
        "logins" "h" ∧
      ((∀ subject, NewlyAlerted noAlerts ((loginsEvaluation 1).batches noAlerts
            [[loginFailed 1], [loginFailed 2]]) (loginsRule 1).id subject ↔
          NewlyAlerted noAlerts ((loginsEvaluation 1).batches noAlerts
            [[[loginFailed 1], [loginFailed 2]].flatten]) (loginsRule 1).id subject) ↔
        ((loginsRule 1).enabled = true → (loginsRule 1).threshold = .immediate → ∀ subject,
          (loginsEvaluation 1).Opens (loginsRule 1) subject noAlerts →
          (loginsEvaluation 1).Reaches (loginsRule 1) subject
            [[loginFailed 1], [loginFailed 2]].flatten →
          ∃ rows ∈ [[loginFailed 1], [loginFailed 2]],
            (loginsEvaluation 1).Reaches (loginsRule 1) subject rows)) :=
  ⟨by decide, cut_unobserved_iff (by decide) (List.mem_singleton_self _) _ _⟩

/-- A rule for two failed logins alerts when they are read together and not when they are cut. -/
theorem cut_observed :
    ¬ ∀ (e : Evaluation), (e.run.rules.map fun r => r.id).Nodup → ∀ rule ∈ e.run.rules,
      ∀ (db : AlertDb) (cut : List (List EventRow)) (subject : String),
        NewlyAlerted db (e.batches db cut) rule.id subject ↔
          NewlyAlerted db (e.batches db [cut.flatten]) rule.id subject := by
  intro h
  have hsame := h (loginsEvaluation 2) (by decide) (loginsRule 2)
    (List.mem_singleton_self _) noAlerts [[loginFailed 1], [loginFailed 2]] "h"
  revert hsame
  decide

end IllumioOps.Alerts
