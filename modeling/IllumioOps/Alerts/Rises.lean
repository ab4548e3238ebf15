import IllumioOps.Alerts.Gates
import IllumioOps.Alerts.Lateral

/-!
# Detections whose severity rises

What a committed batch of `evaluate_lateral` leaves (`LateralEvaluation.commit`), and what a rule
makes of the severity of one fingerprint over a run of batches. Where every batch is steady, a rise
that was held back is alerted the next time, and one that was alerted is not announced again
(`rises_alerted`). Two detections of one fingerprint can lower what the rule has seen
(`rise_announced_again`).
-/

set_option autoImplicit false

namespace IllumioOps.Alerts

open Programs

/-! ## A committed batch -/

/-- What a committed batch of an evaluation is given: the run, the PCE and the generation, the
inventory, the watermark the run started from, and the page it read. -/
structure LateralEvaluation where
  run : LateralRun
  pce : Pce
  generation : Nat
  inventory : Inventory
  start : Option Int × Nat
  page : List DetectionRow

namespace LateralEvaluation

/-- The detectors of the enabled rules. -/
def wanted (e : LateralEvaluation) : List DetectorKind :=
  e.run.active.flatMap LateralRule.detectors

/-- What the rule knows of a detection; of a new one it saw nothing. -/
def fact (e : LateralEvaluation) (db : AlertDb) (rule : LateralRule) (row : DetectionRow) :
    DetectionFact :=
  detectionFact e.start e.inventory
    (if isNew e.start row then none else previousSeverity db rule.id row.fingerprint) row

def facts (e : LateralEvaluation) (db : AlertDb) (rule : LateralRule)
    (page : List DetectionRow) : List DetectionFact :=
  (page.filter fun row => decide (row.detector ∈ e.wanted)).map (e.fact db rule)

/-- The triggers of a rule. -/
def triggers (e : LateralEvaluation) (db : AlertDb) (rule : LateralRule) : List Trigger :=
  evaluateLateralRule rule e.inventory e.run.marks (e.facts db rule e.page)

/-- The recorder with nothing recorded. -/
def recorder (e : LateralEvaluation) : Recorder :=
  ⟨e.run.now, e.pce, e.generation, e.run.channels, [], []⟩

/-- The recorder after the rules were run over the page. -/
def recorded (e : LateralEvaluation) (db : AlertDb) (rules : List LateralRule) (r : Recorder) :
    Recorder :=
  rules.foldl (fun r rule => (r.saw rule e.page).record rule.toRuleBase (e.triggers db rule)) r

/-- What the batch found. -/
def found (e : LateralEvaluation) (db : AlertDb) : Recorder :=
  e.recorded db e.run.active e.recorder

/-- The batches of a run over a table that stays the same. -/
def pages (e : LateralEvaluation) (table : DetectionTable) :
    Nat → Option Int × Nat → List LateralEvaluation
  | 0, _ => []
  | n + 1, mark =>
      let page := table.changedSince mark detectionBatch
      match page.getLast? with
      | none => []
      | some last =>
          { e with page := page } ::
            if page.length < detectionBatch then [] else e.pages table n last.place

/-- The tables after the batch. -/
def commit (e : LateralEvaluation) (db : AlertDb) : AlertDb :=
  match e.page.getLast? with
  | none => db
  | some last =>
      ((e.found db).change .lateral (some (.stamp last.place.1 last.place.2)) db).1

/-- The tables after some batches. -/
def commits (db : AlertDb) (es : List LateralEvaluation) : AlertDb :=
  es.foldl (fun db e => e.commit db) db

end LateralEvaluation

/-! ## A run that nothing disturbs -/

section Quiet

variable {e : LateralEvaluation} {w : LateralState} {rule : LateralRule}

theorem returns_readPrevious (row : DetectionRow) :
    Program.Returns undisturbed (readPrevious rule e.start row) w
      (.ok (if isNew e.start row then none
        else previousSeverity w.world.app rule.id row.fingerprint)) w := by
  rw [readPrevious]
  split
  · exact Program.returns_pure
  · exact returns_look _

theorem returns_readFacts (page : List DetectionRow) :
    Program.Returns undisturbed (readFacts rule e.wanted e.start e.inventory page) w
      (.ok (e.facts w.world.app rule page)) w := by
  induction page with
  | nil => exact Program.returns_pure
  | cons row page ih =>
      rw [readFacts.eq_def, LateralEvaluation.facts]
      by_cases hrow : row.detector ∈ e.wanted
      · have hfilter : (row :: page).filter (fun row => decide (row.detector ∈ e.wanted)) =
            row :: page.filter fun row => decide (row.detector ∈ e.wanted) :=
          List.filter_cons_of_pos (decide_eq_true hrow)
        rw [hfilter]
        simp only [not_true_eq_false, hrow, if_false]
        refine Program.returns_bind (returns_readPrevious row) ?_
        exact Program.returns_bind ih Program.returns_pure
      · have hfilter : (row :: page).filter (fun row => decide (row.detector ∈ e.wanted)) =
            page.filter fun row => decide (row.detector ∈ e.wanted) :=
          List.filter_cons_of_neg (by simpa using hrow)
        rw [hfilter]
        simp only [hrow, not_false_eq_true, if_true]
        exact ih

theorem returns_recordDetections (rules : List LateralRule) (r : Recorder) :
    Program.Returns undisturbed (recordDetections e.run e.start e.inventory e.page rules r) w
      (.ok (e.recorded w.world.app rules r)) w := by
  induction rules generalizing r with
  | nil => exact Program.returns_pure
  | cons rule rules ih => exact Program.returns_bind (returns_readFacts e.page) (ih _)

theorem detections_recorded_pce {db : AlertDb} (rules : List LateralRule) (r : Recorder) :
    (e.recorded db rules r).pce = r.pce ∧ (e.recorded db rules r).generation = r.generation ∧
      (e.recorded db rules r).now = r.now := by
  induction rules generalizing r with
  | nil => exact ⟨rfl, rfl, rfl⟩
  | cons rule rules ih =>
      have hrecord : ∀ (r : Recorder) (ts : List Trigger),
          (r.record rule.toRuleBase ts).pce = r.pce ∧
            (r.record rule.toRuleBase ts).generation = r.generation ∧
            (r.record rule.toRuleBase ts).now = r.now := by
        intro r ts
        rw [Recorder.record]
        split <;> exact ⟨rfl, rfl, rfl⟩
      obtain ⟨hpce, hgeneration, hnow⟩ :=
        ih ((r.saw rule e.page).record rule.toRuleBase (e.triggers db rule))
      obtain ⟨hpce', hgeneration', hnow'⟩ := hrecord (r.saw rule e.page) (e.triggers db rule)
      exact ⟨hpce.trans hpce', hgeneration.trans hgeneration', hnow.trans hnow'⟩

/-- The batches of a run leave what their commits leave, one after the other. -/
theorem returns_evaluateDetections (hpce : w.world.pce = e.pce)
    (hgeneration : w.world.generation = e.generation) (n : Nat) (mark : Option Int × Nat)
    (run : EvalRun) :
    ∃ run' w', Program.Returns undisturbed
        (evaluateDetections e.run e.pce e.generation e.inventory e.start n mark run) w
        (.ok run') w' ∧
      w'.world.app = LateralEvaluation.commits w.world.app (e.pages w.world.flow.detections n mark) := by
  induction n generalizing w mark run with
  | zero => exact ⟨run, w, Program.returns_pure, rfl⟩
  | succ n ih =>
      let page := w.world.flow.detections.changedSince mark detectionBatch
      let w₁ : LateralState := { w with batches := w.batches ++ [.page page] }
      have hpage : Program.Returns undisturbed (readPage mark) w (.ok page) w₁ := Program.returns_act _
      rw [evaluateDetections.eq_def, LateralEvaluation.pages]
      cases hlast : page.getLast? with
      | none =>
          refine ⟨run, w₁, Program.returns_bind hpage ?_, ?_⟩
          · simp only [hlast]
            exact Program.returns_pure
          · rfl
      | some last =>
          -- the page is committed, and the store is still the same for the next one
          let e' : LateralEvaluation := { e with page := page }
          let mark' : Option Watermark := some (.stamp last.place.1 last.place.2)
          obtain ⟨hpce', hgeneration', -⟩ : (e'.found w.world.app).pce = e'.pce ∧
              (e'.found w.world.app).generation = e'.generation ∧ _ :=
            detections_recorded_pce _ _
          let w₂ : LateralState := w₁.committed (.batch ⟨e.run.active, e.inventory, page⟩)
            ((e'.found w.world.app).change .lateral mark')
          have hfound : Program.Returns undisturbed
              (recordDetections e.run e.start e.inventory page e.run.active e.recorder) w₁
              (.ok (e'.found w.world.app)) w₁ :=
            returns_recordDetections (e := e') e.run.active e.recorder
          have hcommit : Program.Returns undisturbed ((e'.found w.world.app).commit .lateral mark'
              (.batch ⟨e.run.active, e.inventory, page⟩)) w₁
              (.ok ((e'.found w.world.app).change .lateral mark' w.world.app).2) w₂ :=
            returns_commit (hpce.trans hpce'.symm) (hgeneration.trans hgeneration'.symm)
          have hbatch : w₂.world.app = e'.commit w.world.app := by
            rw [LateralEvaluation.commit]
            show _ = match page.getLast? with | none => _ | some last => _
            rw [hlast]
            rfl
          let next : EvalRun := ⟨run.evaluated + page.length,
            run.fired + ((e'.found w.world.app).change .lateral mark' w.world.app).2.1,
            run.suppressed + ((e'.found w.world.app).change .lateral mark' w.world.app).2.2⟩
          by_cases hlength : page.length < detectionBatch
          · refine ⟨next, w₂, Program.returns_bind hpage ?_, ?_⟩
            · simp only [hlast]
              refine Program.returns_bind hfound (Program.returns_bind hcommit ?_)
              simp only [hlength, if_true]
              exact Program.returns_pure
            · rw [hbatch]
              show _ = LateralEvaluation.commits _ (_ :: if page.length < detectionBatch then _ else _)
              rw [if_pos hlength]
              rfl
          · obtain ⟨run', w', hrest, happ⟩ := ih (w := w₂) hpce hgeneration last.place next
            refine ⟨run', w', Program.returns_bind hpage ?_, ?_⟩
            · simp only [hlast]
              refine Program.returns_bind hfound (Program.returns_bind hcommit ?_)
              simp only [hlength, if_false]
              exact hrest
            · rw [happ, hbatch]
              show _ = LateralEvaluation.commits _ (_ :: if page.length < detectionBatch then _ else _)
              rw [if_neg hlength]
              rfl

end Quiet

/-! ## One fingerprint -/

namespace LateralEvaluation

/-- The detections of a fingerprint that the rule evaluates. -/
def own (e : LateralEvaluation) (rule : LateralRule) (f : String) : List DetectionRow :=
  e.page.filter fun row => decide (row.fingerprint = f) && decide (row.detector ∈ rule.detectors)

/-- The rule takes the detection, which is new or has risen. -/
def triggersFor (e : LateralEvaluation) (db : AlertDb) (rule : LateralRule)
    (row : DetectionRow) : Bool :=
  ((e.fact db rule row).isNew || (e.fact db rule row).severityRose) &&
    decide (lateralRuleReason rule e.inventory (e.fact db rule row) = none)

/-- The detections of a fingerprint that trigger. -/
def triggering (e : LateralEvaluation) (db : AlertDb) (rule : LateralRule) (f : String) :
    List DetectionRow :=
  (e.own rule f).filter (e.triggersFor db rule)

/-- The rules of the settings have different ids, and the one with this rule's id is this rule. -/
structure Keeps (e : LateralEvaluation) (rule : LateralRule) : Prop where
  ids : (e.run.rules.map fun r => r.id).Nodup
  same : ∀ r ∈ e.run.active, r.id = rule.id → r = rule

end LateralEvaluation

section Fingerprints

variable {e : LateralEvaluation} {db : AlertDb} {rule : LateralRule} {f : String}
  {row : DetectionRow}

theorem nodup_active (h : e.Keeps rule) : (e.run.active.map fun r => r.id).Nodup :=
  h.ids.sublist (List.filter_sublist.map _)

/-- What the batch records: the triggers of its rules, and what they saw. -/
theorem recorded_eq (rules : List LateralRule) (r : Recorder) :
    (e.recorded db rules r).triggers = r.triggers ++ rules.flatMap (fun rule =>
        (e.triggers db rule).map fun t => (rule.toRuleBase, t)) ∧
      (e.recorded db rules r).seen = r.seen ++ rules.flatMap (fun rule =>
        (e.page.filter fun row => decide (row.detector ∈ rule.detectors)).map fun row =>
          (rule.id, row.fingerprint, row.severity)) := by
  induction rules generalizing r with
  | nil => exact ⟨(List.append_nil _).symm, (List.append_nil _).symm⟩
  | cons rule rules ih =>
      obtain ⟨htriggers, hseen⟩ :=
        ih ((r.saw rule e.page).record rule.toRuleBase (e.triggers db rule))
      have hseen' : ((r.saw rule e.page).record rule.toRuleBase (e.triggers db rule)).seen =
          (r.saw rule e.page).seen := by
        rw [Recorder.record]
        split <;> rfl
      rw [triggers_record, List.append_assoc] at htriggers
      rw [hseen', Recorder.saw, List.append_assoc] at hseen
      exact ⟨htriggers, hseen⟩

/-- Of the rules with different ids only this one has anything to do with the fingerprint. -/
theorem filter_flatMap_active {α : Type} {g : LateralRule → List α} {p : α → Bool}
    {rules : List LateralRule} (hids : (rules.map fun r => r.id).Nodup) (hrule : rule ∈ rules)
    (hother : ∀ r ∈ rules, r.id ≠ rule.id → (g r).filter p = []) :
    (rules.flatMap g).filter p = (g rule).filter p := by
  have hnone : ∀ rest : List LateralRule, (∀ r ∈ rest, (g r).filter p = []) →
      (rest.flatMap g).filter p = [] := by
    intro rest hrest
    rw [List.filter_eq_nil_iff]
    intro x hx
    obtain ⟨r, hr, hx⟩ := List.mem_flatMap.1 hx
    exact List.filter_eq_nil_iff.1 (hrest r hr) x hx
  obtain ⟨pre, post, rfl⟩ := List.append_of_mem hrule
  rw [List.map_append, List.map_cons, List.nodup_append] at hids
  obtain ⟨-, hpost, hpre⟩ := hids
  have hpost := (List.nodup_cons.1 hpost).1
  rw [List.flatMap_append, List.flatMap_cons, List.filter_append, List.filter_append,
    hnone pre ?_, hnone post ?_, List.nil_append, List.append_nil]
  · intro r hr
    refine hother r (List.mem_append_right _ (List.mem_cons_of_mem _ hr)) fun heq => hpost ?_
    exact heq ▸ List.mem_map_of_mem hr
  · intro r hr
    refine hother r (List.mem_append_left _ hr) fun heq => ?_
    exact hpre _ (List.mem_map_of_mem hr) _ List.mem_cons_self heq

/-- The trigger of the rule about a detection. -/
def LateralEvaluation.trigger (e : LateralEvaluation) (db : AlertDb) (rule : LateralRule)
    (row : DetectionRow) : RuleBase × Trigger :=
  (rule.toRuleBase, detectionTrigger rule e.run.marks (e.fact db rule row))

theorem detector_of_reason
    (h : lateralRuleReason rule e.inventory (e.fact db rule row) = none) :
    row.detector ∈ rule.detectors := by
  rw [lateralRuleReason] at h
  split at h
  · exact absurd h nofun
  · rename_i hdetector
    exact not_not.1 hdetector

/-- The triggers for the fingerprint. -/
theorem filter_triggers (db : AlertDb) (f : String) (h : e.Keeps rule) (hrule : rule ∈ e.run.active) :
    (e.found db).triggers.filter (isAbout rule.id f) =
      (e.triggering db rule f).map (e.trigger db rule) := by
  rw [LateralEvaluation.found, (recorded_eq _ _).1]
  show List.filter _ ([] ++ _) = _
  rw [List.nil_append, filter_flatMap_active (nodup_active h) hrule]
  · simp only [LateralEvaluation.triggers, evaluateLateralRule, LateralEvaluation.facts,
      LateralEvaluation.triggering, LateralEvaluation.own, List.filter_map, List.map_map,
      List.filter_filter]
    refine congrArg (List.map _) (List.filter_congr fun row _ => ?_)
    rw [Bool.eq_iff_iff]
    simp only [Function.comp, Bool.and_eq_true, isAbout_iff, decide_eq_true_iff,
      LateralEvaluation.triggersFor]
    constructor
    · rintro ⟨⟨-, hf⟩, ⟨hnew, hreason⟩, -⟩
      exact ⟨⟨hnew, hreason⟩, hf, detector_of_reason hreason⟩
    · rintro ⟨⟨hnew, hreason⟩, hf, hdetector⟩
      exact ⟨⟨trivial, hf⟩, ⟨hnew, hreason⟩, List.mem_flatMap.2 ⟨rule, hrule, hdetector⟩⟩
  · intro r hr hne
    rw [List.filter_eq_nil_iff]
    intro rt hrt habout
    obtain ⟨t, -, rfl⟩ := List.mem_map.1 hrt
    exact hne (isAbout_iff.1 habout).1

/-- What the rule saw of the fingerprint. -/
theorem filter_seen (h : e.Keeps rule) (hrule : rule ∈ e.run.active) :
    (e.found db).seen.filter (fun s => decide (s.1 = rule.id) && decide (s.2.1 = f)) =
      (e.own rule f).map fun row => (rule.id, row.fingerprint, row.severity) := by
  rw [LateralEvaluation.found, (recorded_eq _ _).2]
  show List.filter _ ([] ++ _) = _
  rw [List.nil_append, filter_flatMap_active (nodup_active h) hrule]
  · rw [List.filter_map, List.filter_filter, LateralEvaluation.own]
    refine congrArg (List.map _) (List.filter_congr fun row _ => ?_)
    simp only [Function.comp, decide_true, Bool.true_and]
  · intro r hr hne
    rw [List.filter_eq_nil_iff]
    intro s hs habout
    obtain ⟨row, -, rfl⟩ := List.mem_map.1 hs
    rw [Bool.and_eq_true, decide_eq_true_iff] at habout
    exact hne habout.1

/-- Another rule, or a rule that is off, leaves the fingerprint of this one alone. -/
theorem filter_triggers_of_off (h : e.Keeps rule) (hrule : rule ∉ e.run.active) :
    (e.found db).triggers.filter (isAbout rule.id f) = [] ∧
      (e.found db).seen.filter (fun s => decide (s.1 = rule.id) && decide (s.2.1 = f)) = [] := by
  have hne : ∀ r ∈ e.run.active, r.id ≠ rule.id := fun r hr hid => hrule (h.same r hr hid ▸ hr)
  rw [LateralEvaluation.found, (recorded_eq _ _).1, (recorded_eq _ _).2]
  constructor
  · rw [List.filter_eq_nil_iff]
    intro rt hrt habout
    obtain ⟨r, hr, hrt⟩ := List.mem_flatMap.1 hrt
    obtain ⟨t, -, rfl⟩ := List.mem_map.1 hrt
    exact hne r hr (isAbout_iff.1 habout).1
  · rw [List.filter_eq_nil_iff]
    intro s hs habout
    obtain ⟨r, hr, hs⟩ := List.mem_flatMap.1 hs
    obtain ⟨row, -, rfl⟩ := List.mem_map.1 hs
    rw [Bool.and_eq_true, decide_eq_true_iff] at habout
    exact hne r hr habout.1

/-- Every trigger names its rule, and those of this rule's id are of this rule. -/
theorem bases_found (h : e.Keeps rule) : ∀ rt ∈ (e.found db).triggers,
    rt.2.ruleId = rt.1.id ∧ (rt.1.id = rule.id → rt.1 = rule.toRuleBase) := by
  intro rt hrt
  rw [LateralEvaluation.found, (recorded_eq _ _).1] at hrt
  obtain ⟨r, hr, hrt⟩ := List.mem_flatMap.1 hrt
  obtain ⟨t, ht, rfl⟩ := List.mem_map.1 hrt
  obtain ⟨d, -, rfl⟩ := List.mem_map.1 ht
  refine ⟨rfl, fun hid => ?_⟩
  rw [h.same r hr hid]

theorem now_found : (e.found db).now = e.run.now := (detections_recorded_pce _ _).2.2

/-- The gate of the rule for the fingerprint. -/
def LateralEvaluation.opens (e : LateralEvaluation) (db : AlertDb) (rule : LateralRule)
    (f : String) : Bool :=
  (gate rule.toRuleBase (db.ruleState rule.id f) e.run.now).allowed

theorem commit_eq_of_page (db : AlertDb) (hpage : e.page ≠ []) : ∃ mark,
    e.commit db = ((e.found db).change .lateral (some mark) db).1 := by
  obtain ⟨last, hlast⟩ := Option.isSome_iff_exists.1 (List.getLast?_isSome.2 hpage)
  refine ⟨.stamp last.place.1 last.place.2, ?_⟩
  rw [LateralEvaluation.commit, hlast]

theorem change_view (db : AlertDb) (rec : Recorder) (source : Source) (mark : Watermark)
    (ruleId subject : String) :
    (rec.change source (some mark) db).1.seenSeverity ruleId subject =
        (rec.seen.foldl writeSeen (rec.triggers.foldl rec.writeTrigger
          ⟨db, [], 0, 0⟩)).db.seenSeverity ruleId subject ∧
      (rec.change source (some mark) db).1.about ruleId subject =
        (rec.triggers.foldl rec.writeTrigger ⟨db, [], 0, 0⟩).db.about ruleId subject := by
  refine ⟨rfl, ?_⟩
  rw [AlertDb.about, alerts_change, AlertDb.about]

/-- Nothing of the fingerprint was evaluated. -/
theorem commit_of_unevaluated (db : AlertDb) (h : e.Keeps rule) (hnone : rule ∈ e.run.active → e.own rule f = []) :
    (e.commit db).seenSeverity rule.id f = db.seenSeverity rule.id f ∧
      (e.commit db).about rule.id f = db.about rule.id f := by
  by_cases hpage : e.page = []
  · rw [LateralEvaluation.commit, hpage]
    exact ⟨rfl, rfl⟩
  obtain ⟨mark, hcommit⟩ := commit_eq_of_page db hpage
  obtain ⟨hseen, habout⟩ := change_view db (e.found db) .lateral mark rule.id f
  obtain ⟨htriggers, hentries⟩ : (e.found db).triggers.filter (isAbout rule.id f) = [] ∧
      (e.found db).seen.filter (fun s => decide (s.1 = rule.id) && decide (s.2.1 = f)) = [] := by
    by_cases hrule : rule ∈ e.run.active
    · rw [filter_triggers db f h hrule, filter_seen h hrule, LateralEvaluation.triggering, hnone hrule]
      exact ⟨rfl, rfl⟩
    · exact filter_triggers_of_off h hrule
  have hsame := untouched_foldl (w := ⟨db, [], 0, 0⟩) (e.found db)
    (fun rt hrt => (bases_found h rt hrt).1) htriggers
  rw [hcommit, hseen, habout, hsame.about, seenSeverity_foldl_writeSeen, hentries, hsame.seen]
  refine ⟨?_, rfl⟩
  rw [List.getLast?_nil, Option.map_none, Option.none_or, ite_self]

theorem page_ne_nil_of_own (hown : e.own rule f ≠ []) : e.page ≠ [] := by
  intro hpage
  rw [LateralEvaluation.own, hpage] at hown
  exact hown rfl

/-- Everything for the fingerprint was held back. -/
theorem commit_of_held (h : e.Keeps rule) (hrule : rule ∈ e.run.active)
    (htriggering : e.triggering db rule f ≠ []) (hclosed : e.opens db rule f = false) :
    (e.commit db).seenSeverity rule.id f = db.seenSeverity rule.id f ∧
      (e.commit db).about rule.id f = db.about rule.id f := by
  have hown : e.own rule f ≠ [] := by
    intro hnil
    rw [LateralEvaluation.triggering, hnil] at htriggering
    exact htriggering rfl
  obtain ⟨mark, hcommit⟩ := commit_eq_of_page db (page_ne_nil_of_own hown)
  obtain ⟨hseen, habout⟩ := change_view db (e.found db) .lateral mark rule.id f
  have hgate : (gate rule.toRuleBase (db.ruleState rule.id f) (e.found db).now).allowed = false := by
    rw [now_found]
    exact hclosed
  obtain ⟨hseen', habout', -, hheld⟩ := foldl_of_closed (w := ⟨db, [], 0, 0⟩)
    (e.found db) (bases_found h) hgate
  have hmem := hheld (Or.inr (by
    rw [filter_triggers db f h hrule]
    exact fun hnil => htriggering (List.map_eq_nil_iff.1 hnil)))
  rw [hcommit, hseen, habout, habout', seenSeverity_foldl_writeSeen, if_pos hmem, hseen']
  exact ⟨rfl, rfl⟩

/-- Nothing was held back: at most one detection triggered, and its gate was open. -/
theorem commit_of_passed (h : e.Keeps rule) (hrule : rule ∈ e.run.active) {last : DetectionRow}
    (hlast : (e.own rule f).getLast? = some last)
    (hone : (e.triggering db rule f).length ≤ 1)
    (hopen : e.triggering db rule f ≠ [] → e.opens db rule f = true) :
    (e.commit db).seenSeverity rule.id f = some last.severity := by
  have hown : e.own rule f ≠ [] := by
    intro hnil
    rw [hnil] at hlast
    exact absurd hlast nofun
  obtain ⟨mark, hcommit⟩ := commit_eq_of_page db (page_ne_nil_of_own hown)
  obtain ⟨hseen, -⟩ := change_view db (e.found db) .lateral mark rule.id f
  have hfilter := filter_triggers db f h hrule
  have hheld : (rule.id, f) ∉ ((e.found db).triggers.foldl (e.found db).writeTrigger
      ⟨db, [], 0, 0⟩).held := by
    rcases hrows : e.triggering db rule f with _ | ⟨row, rows⟩
    · rw [hrows] at hfilter
      have hsame := untouched_foldl (w := ⟨db, [], 0, 0⟩) (e.found db)
        (fun rt hrt => (bases_found h rt hrt).1) hfilter
      exact fun hmem => List.not_mem_nil (hsame.held.1 hmem)
    · rw [hrows] at hone hopen hfilter
      obtain rfl : rows = [] := List.eq_nil_of_length_eq_zero (Nat.le_zero.1 (Nat.le_of_succ_le_succ hone))
      have hgate : (gate rule.toRuleBase (db.ruleState rule.id f) (e.found db).now).allowed =
          true := by
        rw [now_found]
        exact hopen (List.cons_ne_nil _ _)
      obtain ⟨-, hheld⟩ := foldl_of_opened (w := ⟨db, [], 0, 0⟩) (e.found db)
        (bases_found h) hfilter hgate
      exact fun hmem => List.not_mem_nil (hheld.1 hmem)
  rw [hcommit, hseen, seenSeverity_foldl_writeSeen, if_neg hheld, filter_seen h hrule,
    List.getLast?_map, hlast]
  rfl

/-! ## Steady batches -/

/-- A batch is steady for the fingerprint: either all of its detections that trigger are held back,
or at most one triggers and the last one the rule evaluates is as severe as what the rule saw before
and as the one that triggers. -/
def LateralEvaluation.Steady (e : LateralEvaluation) (db : AlertDb) (rule : LateralRule)
    (f : String) : Prop :=
  rule ∈ e.run.active →
    (e.triggering db rule f ≠ [] ∧ e.opens db rule f = false) ∨
    ((e.triggering db rule f).length ≤ 1 ∧ ∀ last ∈ (e.own rule f).getLast?,
      (∀ p ∈ previousSeverity db rule.id f, p.index ≤ last.severity.index) ∧
        ∀ row ∈ e.triggering db rule f, row.severity.index ≤ last.severity.index)

theorem previousSeverity_congr {db' : AlertDb}
    (hseen : db'.seenSeverity rule.id f = db.seenSeverity rule.id f)
    (habout : db'.about rule.id f = db.about rule.id f) :
    previousSeverity db' rule.id f = previousSeverity db rule.id f := by
  have hlast : db'.lastAlert rule.id f = db.lastAlert rule.id f := by
    rw [AlertDb.about, AlertDb.about] at habout
    rw [AlertDb.lastAlert, AlertDb.lastAlert, habout]
  rw [previousSeverity, previousSeverity, hseen, hlast]

theorem previousSeverity_of_seen {p : Severity} (hseen : db.seenSeverity rule.id f = some p) :
    previousSeverity db rule.id f = some p := by
  rw [previousSeverity, hseen]

/-- What a steady batch leaves: what the rule saw before, or the last it evaluated. -/
theorem steady_cases (h : e.Keeps rule) (hsteady : e.Steady db rule f) :
    (previousSeverity (e.commit db) rule.id f = previousSeverity db rule.id f ∧
      (rule ∈ e.run.active → e.triggering db rule f ≠ [] → e.opens db rule f = false)) ∨
    ∃ last : DetectionRow, previousSeverity (e.commit db) rule.id f = some last.severity ∧
      rule ∈ e.run.active ∧ (e.triggering db rule f).length ≤ 1 ∧
      (e.triggering db rule f ≠ [] → e.opens db rule f = true) ∧
      (∀ p ∈ previousSeverity db rule.id f, p.index ≤ last.severity.index) ∧
      ∀ row ∈ e.triggering db rule f, row.severity.index ≤ last.severity.index := by
  by_cases hrule : rule ∈ e.run.active
  · by_cases hheld : e.triggering db rule f ≠ [] ∧ e.opens db rule f = false
    · obtain ⟨hseen, habout⟩ := commit_of_held h hrule hheld.1 hheld.2
      exact Or.inl ⟨previousSeverity_congr hseen habout, fun _ _ => hheld.2⟩
    · obtain ⟨hone, hlast⟩ := (hsteady hrule).resolve_left hheld
      have hopen : e.triggering db rule f ≠ [] → e.opens db rule f = true := by
        intro hne
        cases hopens : e.opens db rule f with
        | true => rfl
        | false => exact absurd ⟨hne, hopens⟩ hheld
      cases hown : (e.own rule f).getLast? with
      | none =>
          have hnil := List.getLast?_eq_none_iff.1 hown
          obtain ⟨hseen, habout⟩ := commit_of_unevaluated db h fun _ => hnil
          refine Or.inl ⟨previousSeverity_congr hseen habout, fun _ hne => ?_⟩
          rw [LateralEvaluation.triggering, hnil] at hne
          exact absurd rfl hne
      | some last =>
          obtain ⟨hprevious, htriggering⟩ := hlast last hown
          refine Or.inr ⟨last, ?_, hrule, hone, hopen, hprevious, htriggering⟩
          exact previousSeverity_of_seen (commit_of_passed h hrule hown hone hopen)
  · obtain ⟨hseen, habout⟩ := commit_of_unevaluated (f := f) db h
      fun hactive => absurd hactive hrule
    exact Or.inl ⟨previousSeverity_congr hseen habout, fun hactive => absurd hactive hrule⟩

/-- What the rule saw of the fingerprint does not fall. -/
theorem steady_le (h : e.Keeps rule) (hsteady : e.Steady db rule f) {p : Severity}
    (hp : previousSeverity db rule.id f = some p) :
    ∃ q, previousSeverity (e.commit db) rule.id f = some q ∧ p.index ≤ q.index := by
  rcases steady_cases h hsteady with ⟨hsame, -⟩ | ⟨last, hlast, -, -, -, hprevious, -⟩
  · exact ⟨p, hsame.trans hp, Nat.le_refl _⟩
  · exact ⟨last.severity, hlast, hprevious p hp⟩

/-! ## Rises -/

/-- A trigger of a commit goes through its gate, or is held back. -/
def Decided (rec : Recorder) (db : AlertDb) (rt : RuleBase × Trigger) (allowed : Bool) : Prop :=
  ∃ pre post, rec.triggers = pre ++ rt :: post ∧
    (gate rt.1 ((pre.foldl rec.writeTrigger ⟨db, [], 0, 0⟩).db.ruleState rt.1.id
      rt.2.subjectKey) rec.now).allowed = allowed

/-- A detection that is not new is above what the rule saw of its fingerprint, and the rule takes
it. -/
structure LateralEvaluation.Rise (e : LateralEvaluation) (db : AlertDb) (rule : LateralRule)
    (row : DetectionRow) : Prop where
  active : rule ∈ e.run.active
  evaluated : row ∈ e.page
  known : isNew e.start row = false
  risen : ∃ p, previousSeverity db rule.id row.fingerprint = some p ∧
    p.index < row.severity.index
  takes : lateralRuleReason rule e.inventory (e.fact db rule row) = none

/-- The gate holds the alert about a rise back. -/
def LateralEvaluation.HeldBack (e : LateralEvaluation) (db : AlertDb) (rule : LateralRule)
    (row : DetectionRow) : Prop :=
  e.Rise db rule row ∧ Decided (e.found db) db (e.trigger db rule row) false

/-- The rule alerts about a rise. -/
def LateralEvaluation.Announced (e : LateralEvaluation) (db : AlertDb) (rule : LateralRule)
    (row : DetectionRow) : Prop :=
  e.Rise db rule row ∧ Decided (e.found db) db (e.trigger db rule row) true

theorem mem_own_of_takes (hrow : row ∈ e.page)
    (htakes : lateralRuleReason rule e.inventory (e.fact db rule row) = none) :
    row ∈ e.own rule row.fingerprint := by
  refine List.mem_filter.2 ⟨hrow, ?_⟩
  rw [Bool.and_eq_true, decide_eq_true_iff, decide_eq_true_iff]
  exact ⟨rfl, detector_of_reason htakes⟩

/-- A detection that is new, or above what the rule saw, triggers when the rule takes it. -/
theorem mem_triggering (hrow : row ∈ e.page) {p : Severity}
    (hp : previousSeverity db rule.id row.fingerprint = some p)
    (hlt : p.index < row.severity.index)
    (htakes : lateralRuleReason rule e.inventory (e.fact db rule row) = none) :
    row ∈ e.triggering db rule row.fingerprint := by
  refine List.mem_filter.2 ⟨mem_own_of_takes hrow htakes, ?_⟩
  rw [LateralEvaluation.triggersFor, decide_eq_true htakes, Bool.and_true]
  show (isNew e.start row || _) = true
  cases hnew : isNew e.start row with
  | true => rfl
  | false =>
      show Option.any _ (if isNew e.start row then none else _) = true
      rw [hnew, hp]
      exact decide_eq_true hlt

theorem LateralEvaluation.Rise.mem_triggering (h : e.Rise db rule row) :
    row ∈ e.triggering db rule row.fingerprint := by
  obtain ⟨p, hp, hlt⟩ := h.risen
  exact Alerts.mem_triggering h.evaluated hp hlt h.takes

/-- Nothing goes through a gate that is closed before the batch. -/
theorem opens_of_decided (h : e.Keeps rule)
    (hdecided : Decided (e.found db) db (e.trigger db rule row) true) :
    e.opens db rule row.fingerprint = true := by
  obtain ⟨pre, post, heq, hallowed⟩ := hdecided
  by_contra hclosed
  have hgate : (gate rule.toRuleBase (db.ruleState rule.id row.fingerprint)
      (e.found db).now).allowed = false := by
    rw [now_found]
    exact Bool.eq_false_iff.2 hclosed
  have hpre : ∀ rt ∈ pre, rt.2.ruleId = rt.1.id ∧ (rt.1.id = rule.id → rt.1 = rule.toRuleBase) :=
    fun rt hrt => bases_found h rt (by rw [heq]; exact List.mem_append_left _ hrt)
  obtain ⟨-, -, hstill, -⟩ := foldl_of_closed (w := ⟨db, [], 0, 0⟩) (e.found db) hpre hgate
  exact absurd (hstill.symm.trans hallowed) nofun

/-- The only trigger of a fingerprint goes through a gate that is open before the batch. -/
theorem closed_of_decided (h : e.Keeps rule) (hrule : rule ∈ e.run.active)
    (hone : (e.triggering db rule row.fingerprint).length ≤ 1)
    (hdecided : Decided (e.found db) db (e.trigger db rule row) false) :
    e.opens db rule row.fingerprint = false := by
  obtain ⟨pre, post, heq, hallowed⟩ := hdecided
  have hfilter := filter_triggers db row.fingerprint h hrule
  have habout : isAbout rule.id row.fingerprint (e.trigger db rule row) = true :=
    isAbout_iff.2 ⟨rfl, rfl⟩
  have hnone : pre.filter (isAbout rule.id row.fingerprint) = [] := by
    have hlength := congrArg List.length hfilter
    rw [heq, List.filter_append, List.filter_cons_of_pos habout, List.length_append,
      List.length_cons, List.length_map] at hlength
    exact List.eq_nil_of_length_eq_zero (by omega)
  have hpre : ∀ rt ∈ pre, rt.2.ruleId = rt.1.id :=
    fun rt hrt => (bases_found h rt (by rw [heq]; exact List.mem_append_left _ hrt)).1
  have hsame := untouched_foldl (w := ⟨db, [], 0, 0⟩) (e.found db) hpre hnone
  have hgate := gate_eq_of_stateOf hsame.state rule.toRuleBase (e.found db).now
  have hnow : (e.found db).now = e.run.now := now_found
  rw [LateralEvaluation.opens, ← hnow, ← hgate]
  exact hallowed

end Fingerprints

/-! ## Runs of batches -/

section Runs

variable {rule : LateralRule} {f : String} {db : AlertDb}
  {first next : LateralEvaluation} {between es : List LateralEvaluation}

/-- The batches of a run, each with the tables it finds. -/
def trace : AlertDb → List LateralEvaluation → List (AlertDb × LateralEvaluation)
  | _, [] => []
  | db, e :: es => (db, e) :: trace (e.commit db) es

theorem trace_append (before after : List LateralEvaluation) : trace db (before ++ after) =
    trace db before ++ trace (LateralEvaluation.commits db before) after := by
  induction before generalizing db with
  | nil => rfl
  | cons e before ih => exact congrArg (List.cons (db, e)) ih

/-- Two batches of a run, the tables before the first one, and the batches between them. A rise
that the first one held back is alerted by the next one that evaluates the fingerprint, and one that
the first one announced is announced again only above its severity. -/
structure RisesKept (rule : LateralRule) (f : String) (db : AlertDb) (first : LateralEvaluation)
    (between : List LateralEvaluation) (next : LateralEvaluation) : Prop where
  alerted : ∀ row row', row.fingerprint = f → row'.fingerprint = f → first.HeldBack db rule row →
    (∀ e ∈ between, rule ∈ e.run.active → e.own rule f = []) →
    rule ∈ next.run.active → row' ∈ next.page → row.severity.index ≤ row'.severity.index →
    lateralRuleReason rule next.inventory
      (next.fact (LateralEvaluation.commits (first.commit db) between) rule row') = none →
    next.opens (LateralEvaluation.commits (first.commit db) between) rule f = true →
    NewlyAlerted (LateralEvaluation.commits (first.commit db) between)
      (next.commit (LateralEvaluation.commits (first.commit db) between)) rule.id f
  announced : ∀ row row', row.fingerprint = f → row'.fingerprint = f →
    first.Announced db rule row →
    next.Announced (LateralEvaluation.commits (first.commit db) between) rule row' →
    row.severity.index < row'.severity.index

/-- Batches that do not evaluate the fingerprint. -/
theorem commits_of_unevaluated (db : AlertDb) (hkeeps : ∀ e ∈ es, e.Keeps rule)
    (hnone : ∀ e ∈ es, rule ∈ e.run.active → e.own rule f = []) :
    previousSeverity (LateralEvaluation.commits db es) rule.id f =
      previousSeverity db rule.id f := by
  induction es generalizing db with
  | nil => rfl
  | cons e es ih =>
      obtain ⟨hseen, habout⟩ := commit_of_unevaluated db (hkeeps e List.mem_cons_self)
        (hnone e List.mem_cons_self)
      have hrest := ih (e.commit db) (fun q hq => hkeeps q (List.mem_cons_of_mem _ hq))
        fun q hq => hnone q (List.mem_cons_of_mem _ hq)
      exact hrest.trans (previousSeverity_congr hseen habout)

/-- Over steady batches what the rule saw does not fall. -/
theorem commits_le (hkeeps : ∀ e ∈ es, e.Keeps rule)
    (hsteady : ∀ p ∈ trace db es, p.2.Steady p.1 rule f) {p : Severity} (hp : previousSeverity db rule.id f = some p) :
    ∃ q, previousSeverity (LateralEvaluation.commits db es) rule.id f = some q ∧
      p.index ≤ q.index := by
  induction es generalizing db p with
  | nil => exact ⟨p, hp, Nat.le_refl _⟩
  | cons e es ih =>
      obtain ⟨q, hq, hpq⟩ := steady_le (hkeeps e List.mem_cons_self)
        (hsteady (db, e) List.mem_cons_self) hp
      obtain ⟨r, hr, hqr⟩ := ih (fun x hx => hkeeps x (List.mem_cons_of_mem _ hx))
        (fun x hx => hsteady x (List.mem_cons_of_mem _ hx)) hq
      exact ⟨r, hr, hpq.trans hqr⟩

/-- A batch with a detection that triggers behind an open gate alerts. -/
theorem alerted_of_triggering {e : LateralEvaluation} (h : e.Keeps rule)
    (hrule : rule ∈ e.run.active) (htriggering : e.triggering db rule f ≠ [])
    (hopen : e.opens db rule f = true) : NewlyAlerted db (e.commit db) rule.id f := by
  have hown : e.own rule f ≠ [] := by
    intro hnil
    rw [LateralEvaluation.triggering, hnil] at htriggering
    exact htriggering rfl
  obtain ⟨mark, hcommit⟩ := commit_eq_of_page db (page_ne_nil_of_own hown)
  have hstart : Stands rule.toRuleBase (e.found db).now f db db False := stands_start
  have hchange := hstart.change .lateral (some mark) (bases_found h)
  rw [hcommit, (hchange.opened (by rw [now_found]; exact hopen)).1]
  obtain ⟨row, hrow⟩ := List.exists_mem_of_ne_nil _ htriggering
  have hmem : e.trigger db rule row ∈ (e.found db).triggers.filter (isAbout rule.id f) := by
    rw [filter_triggers db f h hrule]
    exact List.mem_map_of_mem hrow
  obtain ⟨hmem, habout⟩ := List.mem_filter.1 hmem
  exact Or.inr ⟨_, hmem, isAbout_iff.1 habout⟩

/-- Two batches of steady ones. -/
theorem risesKept (hfirst : first.Keeps rule) (hbetween : ∀ e ∈ between, e.Keeps rule)
    (hnext : next.Keeps rule) (hsteady : first.Steady db rule f)
    (hsteadies : ∀ p ∈ trace (first.commit db) between, p.2.Steady p.1 rule f) :
    RisesKept rule f db first between next := by
  constructor
  · intro row row' hf hf' hheld hnone hactive hrow' hle htakes hopen
    subst hf
    obtain ⟨hrise, hdecided⟩ := hheld
    obtain ⟨p, hp, hlt⟩ := hrise.risen
    have hne : first.triggering db rule row.fingerprint ≠ [] :=
      List.ne_nil_of_mem hrise.mem_triggering
    -- the gate was closed, so what the rule saw is still below the rise
    have hsame : previousSeverity (first.commit db) rule.id row.fingerprint = some p := by
      rcases steady_cases hfirst hsteady with ⟨hsame, -⟩ | ⟨last, -, -, hone, hopens, -⟩
      · exact hsame.trans hp
      · have hclosed := closed_of_decided hfirst hrise.active hone hdecided
        exact absurd ((hopens hne).symm.trans hclosed) nofun
    have hthen := (commits_of_unevaluated (first.commit db) hbetween hnone).trans hsame
    rw [← hf'] at hthen hopen ⊢
    have hmem := mem_triggering hrow' hthen (Nat.lt_of_lt_of_le hlt hle) htakes
    exact alerted_of_triggering hnext hactive (List.ne_nil_of_mem hmem) hopen
  · intro row row' hf hf' hannounced hagain
    subst hf
    obtain ⟨hrise, hdecided⟩ := hannounced
    have hopens := opens_of_decided hfirst hdecided
    have hne : first.triggering db rule row.fingerprint ≠ [] :=
      List.ne_nil_of_mem hrise.mem_triggering
    -- what the rule saw after the first batch is as severe as the rise
    obtain ⟨q, hq, hle⟩ : ∃ q, previousSeverity (first.commit db) rule.id row.fingerprint = some q ∧
        row.severity.index ≤ q.index := by
      rcases steady_cases hfirst hsteady with ⟨-, hclosed⟩ | ⟨last, hlast, -, -, -, -, hrows⟩
      · exact absurd (hopens.symm.trans (hclosed hrise.active hne)) nofun
      · exact ⟨last.severity, hlast, hrows row hrise.mem_triggering⟩
    obtain ⟨r, hr, hqr⟩ := commits_le hbetween hsteadies hq
    obtain ⟨p, hp, hlt⟩ := hagain.1.risen
    rw [hf', hr] at hp
    obtain rfl := Option.some.inj hp
    exact Nat.lt_of_le_of_lt (hle.trans hqr) hlt

end Runs

/-- Over every run of batches, from any tables, that are steady for the fingerprint: what the
next batch that evaluates a fingerprint makes of a rise that was held back, and what any later batch
makes of one that was announced. -/
theorem rises_alerted {rule : LateralRule} {f : String} {db : AlertDb}
    {es : List LateralEvaluation} (hkeeps : ∀ e ∈ es, e.Keeps rule)
    (hsteady : ∀ p ∈ trace db es, p.2.Steady p.1 rule f) :
    ∀ before first between next after, es = before ++ first :: (between ++ next :: after) →
      RisesKept rule f (LateralEvaluation.commits db before) first between next := by
  rintro before first between next after rfl
  have hmem : ∀ e ∈ first :: (between ++ next :: after), e.Keeps rule :=
    fun e he => hkeeps e (List.mem_append_right _ he)
  have hrest := hmem next (List.mem_cons_of_mem _ (List.mem_append_right _ List.mem_cons_self))
  rw [trace_append] at hsteady
  have hsteadies : ∀ p ∈ trace (LateralEvaluation.commits db before)
      (first :: (between ++ next :: after)), p.2.Steady p.1 rule f :=
    fun p hp => hsteady p (List.mem_append_right _ hp)
  refine risesKept (hmem first List.mem_cons_self)
    (fun e he => hmem e (List.mem_cons_of_mem _ (List.mem_append_left _ he))) hrest
    (hsteadies _ List.mem_cons_self) fun p hp => hsteadies p (List.mem_cons_of_mem _ ?_)
  show p ∈ trace _ (between ++ next :: after)
  rw [trace_append]
  exact List.mem_append_left _ hp

/-! ## Two detections of one fingerprint -/

/-- A rule for every fan-out. -/
def cooledFanout (cooldown : Nat) : LateralRule where
  id := "fanout"
  name := "fanout"
  packKey := none
  enabled := true
  notify := true
  severity := none
  cooldownMinutes := cooldown
  throttle := none
  detectors := [.fanout]
  minSeverity := .low
  criticalAssetsOnly := false
  exclude := none

/-- A stored fan-out of the host `h`. -/
def fanout (id : Nat) (severity : Severity) : DetectionRow where
  id := id
  detector := .fanout
  fingerprint := "fanout|h"
  subjectKey := "h"
  severity := severity
  firstSeen := id
  lastSeen := id
  occurrences := 1
  late := false
  criticalAsset := false
  evidence := ⟨"\x7b\x7d", "\x7b\x7d", "\x7b\x7d"⟩
  ends := none
  createdAt := id
  updatedAt := 100

/-- A batch with one fan-out, which is not new. -/
def fanoutBatch (cooldown : Nat) (now : Int) (row : DetectionRow) : LateralEvaluation where
  run := ⟨now, [cooledFanout cooldown], [], []⟩
  pce := ("https://pce", "1")
  generation := 1
  inventory := ⟨fun _ => [], fun _ => [], fun _ => []⟩
  start := (some 50, 0)
  page := [row]

theorem keeps_fanoutBatch (cooldown : Nat) (now : Int) (row : DetectionRow) :
    (fanoutBatch cooldown now row).Keeps (cooledFanout cooldown) :=
  ⟨List.nodup_singleton _, fun _ hr _ => List.mem_singleton.1 hr⟩

/-- The rule alerted a fan-out of low severity at the time zero. -/
def lowAlerted : AlertDb where
  ruleStates := Function.update (fun _ => none) ("fanout", "fanout|h")
    (some ⟨⟨some 0, []⟩, 0, 0, some .low⟩)
  alerts := []
  alertIdFloor := 1
  deliveries := []
  evalStates _ := none

/-- Ten minutes after an alert of low severity the rule sees a high one, and forty minutes after. -/
def heldThenOpen : List LateralEvaluation :=
  [fanoutBatch 30 (minutes 10) (fanout 1 .high), fanoutBatch 30 (minutes 40) (fanout 1 .high)]

theorem steady_heldThenOpen :
    ∀ p ∈ trace lowAlerted heldThenOpen, p.2.Steady p.1 (cooledFanout 30) "fanout|h" := by
  intro p hp
  simp only [heldThenOpen, trace, List.mem_cons, List.not_mem_nil, or_false] at hp
  rcases hp with rfl | rfl
  · exact fun _ => Or.inl ⟨by decide, by decide⟩
  · refine fun _ => Or.inr ⟨by decide, fun last hlast => ?_⟩
    obtain rfl : fanout 1 .high = last := Option.some.inj hlast
    refine ⟨fun p hp => ?_, by decide⟩
    obtain rfl : Severity.low = p := Option.some.inj hp
    decide

/-- The rise that the cooldown holds back is alerted after it. -/
theorem rises_alerted_after_cooldown :
    NewlyAlerted (LateralEvaluation.commits lowAlerted [fanoutBatch 30 (minutes 10) (fanout 1 .high)])
      (LateralEvaluation.commits lowAlerted heldThenOpen) "fanout" "fanout|h" := by
  have hkeeps : ∀ e ∈ heldThenOpen, e.Keeps (cooledFanout 30) := by
    intro e he
    simp only [heldThenOpen, List.mem_cons, List.not_mem_nil, or_false] at he
    rcases he with rfl | rfl <;> exact keeps_fanoutBatch _ _ _
  have hheld : (fanoutBatch 30 (minutes 10) (fanout 1 .high)).HeldBack lowAlerted (cooledFanout 30)
      (fanout 1 .high) :=
    ⟨⟨List.mem_singleton_self _, List.mem_singleton_self _, by decide, ⟨.low, by decide, by decide⟩,
      by decide⟩, [], [], by decide, by decide⟩
  exact (rises_alerted hkeeps steady_heldThenOpen [] _ [] _ [] rfl).alerted _ (fanout 1 .high) rfl
    rfl hheld nofun (List.mem_singleton_self _) (List.mem_singleton_self _) (Nat.le_refl _)
    (by decide) (by decide)

/-- A fan-out of low severity lowers what the rule saw, and the rise of another one with its
fingerprint is announced twice. -/
theorem rise_announced_again :
    ¬ ∀ (rule : LateralRule) (f : String) (db : AlertDb) (es : List LateralEvaluation),
      (∀ e ∈ es, e.Keeps rule) →
      ∀ before first between next after, es = before ++ first :: (between ++ next :: after) →
        RisesKept rule f (LateralEvaluation.commits db before) first between next := by
  intro h
  let high := fanoutBatch 0 (minutes 10) (fanout 1 .high)
  let low := fanoutBatch 0 (minutes 20) (fanout 2 .low)
  let again := fanoutBatch 0 (minutes 30) (fanout 1 .high)
  have hkept := h (cooledFanout 0) "fanout|h" lowAlerted [high, low, again] (by
    intro e he
    simp only [List.mem_cons, List.not_mem_nil, or_false] at he
    rcases he with rfl | rfl | rfl <;> exact keeps_fanoutBatch _ _ _) [] high [low] again [] rfl
  have hfirst : high.Announced lowAlerted (cooledFanout 0) (fanout 1 .high) :=
    ⟨⟨List.mem_singleton_self _, List.mem_singleton_self _, by decide, ⟨.low, by decide, by decide⟩,
      by decide⟩, [], [], by decide, by decide⟩
  have hagain : again.Announced (low.commit (high.commit lowAlerted)) (cooledFanout 0)
      (fanout 1 .high) :=
    ⟨⟨List.mem_singleton_self _, List.mem_singleton_self _, by decide, ⟨.low, by decide, by decide⟩,
      by decide⟩, [], [], by decide, by decide⟩
  exact Nat.lt_irrefl _ (hkept.announced _ _ rfl rfl hfirst hagain)

end IllumioOps.Alerts
