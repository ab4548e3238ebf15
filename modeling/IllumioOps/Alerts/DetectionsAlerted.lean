import IllumioOps.Alerts.Lateral

/-!
# Every new detection alerts

Over every sequence of evaluations, each failing or stopped anywhere, while passes of the
detectors write between any two steps: a detection stored after the watermark was set is ahead of
it and not read yet, or a committed batch evaluated it as new, and every rule without a cooldown
and a throttle that takes it alerted. This holds as long as every write is stamped after the
watermark and after the page being evaluated, and no run starts from a watermark past the
creation of a detection that is not read yet (`detections_alerted`). A pass that started before
the watermark and writes after it is never read (`late_pass_unread`).
-/

set_option autoImplicit false

namespace IllumioOps.Alerts

open Programs

/-! ## What others do -/

inductive DetectionChange where
  | pass (p : DetectionPass)
  | collected
  | inventory (i : Inventory)

def DetectionChange.apply (s : DetectionStore) : DetectionChange → DetectionStore
  | .pass p => s.runDetection p
  | .collected => { s with collected := true }
  | .inventory i => { s with inventory := i }

/-- Nobody but the detectors and the collector does anything. -/
def Detects (a : Answer DetectionStore) : Prop :=
  ∃ changes : List DetectionChange,
    a.others = fun w => { w with flow := changes.foldl DetectionChange.apply w.flow }

/-- Only the store is another one. -/
structure StoreChanged (w w' : LateralState) : Prop where
  pce : w'.world.pce = w.world.pce
  app : w'.world.app = w.world.app
  log : w'.batches = w.batches

theorem StoreChanged.refl (w : LateralState) : StoreChanged w w := ⟨rfl, rfl, rfl⟩

theorem Detects.storeChanged {a : Answer DetectionStore} (h : Detects a) (w : LateralState) :
    StoreChanged w (w.after a) := by
  obtain ⟨changes, hothers⟩ := h
  refine ⟨?_, ?_, rfl⟩
  · rw [State.after, hothers]
  · rw [State.after, hothers]

/-! ## What the log of the runs says -/

/-- The page being evaluated: the last one read, until it is committed or a run starts. -/
def pageInFlight (log : List LateralEntry) : List DetectionRow :=
  match log.getLast? with
  | some (.page rows) => rows
  | _ => []

/-- The watermark the latest run started from. -/
def startedFrom (log : List LateralEntry) : Option (Option Int × Nat) :=
  log.foldl (fun start e => match e with
    | .start mark => mark.bind Watermark.lateralFrom
    | _ => start) none

/-- A committed batch evaluated the detection. -/
def LateralEntry.evaluates (id : Nat) : LateralEntry → Bool
  | .batch b => b.rows.any fun r => decide (r.id = id)
  | _ => false

/-- One of the committed batches did. -/
def isRead (w : LateralState) (id : Nat) : Bool := w.batches.any (LateralEntry.evaluates id)

/-- Where the watermark is. -/
def lateralPlace (w : LateralState) : Option (Option Int × Nat) :=
  (lateralMark w).bind Watermark.lateralFrom

/-- The rule takes the detection, when it is new or has risen. -/
def LateralRule.takes (rule : LateralRule) (inventory : Inventory) (r : DetectionRow) : Bool :=
  decide (lateralRuleReason rule inventory (detectionFact (none, 0) inventory none r) = none)

/-- An alert of the rule about the detection, as it was when it was evaluated. -/
def Alerted (w : LateralState) (rule : LateralRule) (r : DetectionRow) : Prop :=
  ∃ a ∈ w.world.app.alerts, a.trigger.ruleId = rule.id ∧ a.trigger.subjectKey = r.fingerprint ∧
    a.trigger.facts = .detection r.id r.criticalAsset r.severity

/-- A committed batch evaluated the detection, and if the rule takes it, it alerted. -/
def AlertedOnce (rule : LateralRule) (w : LateralState) (id : Nat) : Prop :=
  ∃ b, LateralEntry.batch b ∈ w.batches ∧ ∃ r ∈ b.rows, r.id = id ∧
    (rule.takes b.inventory r = true → Alerted w rule r)

/-- Every detection whose id is beyond a base is not read yet and ahead of the watermark, or was
evaluated and alerted. -/
def NoneMissed (rule : LateralRule) (base : Nat) (w : LateralState) : Prop :=
  ∀ d ∈ w.world.flow.detections.rows, base < d.id →
    (isRead w d.id = false ∧ ∃ place, lateralPlace w = some place ∧ placeKey place < d.key) ∨
      AlertedOnce rule w d.id

/-- The last row of the page that was being evaluated when others wrote; a run that starts
evaluates none. -/
def lastInFlight (w w' : LateralState) : Option DetectionRow :=
  match w'.batches.getLast? with
  | some (.start _) => none
  | _ => (pageInFlight w.batches).getLast?

/-- In a step, every detection not read yet was created after the watermark the latest run started
from, and was written, if it was, after the watermark and after the page being evaluated. -/
structure Timely (base : Nat) (w w' : LateralState) : Prop where
  created : ∀ d ∈ w'.world.flow.detections.rows, base < d.id → isRead w' d.id = false →
    (startedFrom w'.batches).all (fun start => decide (placeKey start < d.createdKey)) = true
  stamped : ∀ d ∈ w'.world.flow.detections.rows, base < d.id → isRead w d.id = false →
    d ∉ w.world.flow.detections.rows →
      (lateralPlace w).all (fun place => decide (placeKey place < d.key)) = true ∧
      (lastInFlight w w').all (fun last => decide (last.key < d.key)) = true

instance (base : Nat) (w w' : LateralState) : Decidable (Timely base w w') :=
  decidable_of_iff
    ((∀ d ∈ w'.world.flow.detections.rows, base < d.id → isRead w' d.id = false →
      (startedFrom w'.batches).all (fun start => decide (placeKey start < d.createdKey)) = true) ∧
    ∀ d ∈ w'.world.flow.detections.rows, base < d.id → isRead w d.id = false →
      d ∉ w.world.flow.detections.rows →
        (lateralPlace w).all (fun place => decide (placeKey place < d.key)) = true ∧
        (lastInFlight w w').all (fun last => decide (last.key < d.key)) = true)
    ⟨fun h => ⟨h.1, h.2⟩, fun h => ⟨h.created, h.stamped⟩⟩

/-! ## What a step can do -/

/-- What happened is added to the log. -/
def LateralState.logged (w : LateralState) (e : LateralEntry) : LateralState :=
  { w with batches := w.batches ++ [e] }

/-- The recorder has a trigger of the rule about the detection. -/
def Triggers (rec : Recorder) (rule : LateralRule) (r : DetectionRow) : Prop :=
  ∃ t, (rule.toRuleBase, t) ∈ rec.triggers ∧ t.ruleId = rule.id ∧ t.subjectKey = r.fingerprint ∧
    t.facts = .detection r.id r.criticalAsset r.severity

/-- The commit of the page in flight: every new detection of it has a trigger if the rule takes
it, and the watermark moves to the last row. -/
structure Commits (rule : LateralRule) (b : LateralBatch) (last : DetectionRow) (rec : Recorder)
    (w : LateralState) : Prop where
  page : pageInFlight w.batches = b.rows
  last : b.rows.getLast? = some last
  pce : rec.pce = w.world.pce
  triggers : ∃ start, startedFrom w.batches = some start ∧
    ∀ r ∈ b.rows, isNew start r = true → rule.takes b.inventory r = true → Triggers rec rule r

/-- The state after the commit of a batch. -/
def afterCommit (w : LateralState) (b : LateralBatch) (last : DetectionRow) (rec : Recorder) :
    LateralState :=
  w.committed (.batch b) (rec.change .lateral (some (.stamp last.place.1 last.place.2)))

/-- A step of a run: others write, and then it starts, reads the page after the watermark, or
commits the page in flight. -/
def Moves (rule : LateralRule) (w w' : LateralState) : Prop :=
  ∃ w1, StoreChanged w w1 ∧
    (w' = w1 ∨
    w' = LateralState.logged w1 (.start (lateralMark w1)) ∨
    (∃ place, lateralPlace w1 = some place ∧ w' = LateralState.logged w1
      (.page (w1.world.flow.detections.changedSince place detectionBatch))) ∨
    ∃ b last rec, Commits rule b last rec w1 ∧ w' = afterCommit w1 b last rec)

section Log

variable {w0 w w' : LateralState} {rule : LateralRule} {id : Nat} {rec : Recorder}
  {b : LateralBatch} {last r : DetectionRow} {start : Option Int × Nat}

theorem StoreChanged.lateralPlace (h : StoreChanged w w') : lateralPlace w' = lateralPlace w := by
  rw [Alerts.lateralPlace, Alerts.lateralPlace, lateralMark, lateralMark, h.pce, h.app]

theorem StoreChanged.isRead (h : StoreChanged w w') : isRead w' = isRead w := by
  funext id
  rw [Alerts.isRead, Alerts.isRead, h.log]

theorem pageInFlight_page (log : List LateralEntry) (rows : List DetectionRow) :
    pageInFlight (log ++ [.page rows]) = rows := by
  rw [pageInFlight, List.getLast?_concat]

theorem startedFrom_append (log : List LateralEntry) (e : LateralEntry) :
    startedFrom (log ++ [e]) = match e with
      | .start mark => mark.bind Watermark.lateralFrom
      | _ => startedFrom log := by
  rw [startedFrom, List.foldl_append]
  rfl

theorem isNew_iff : isNew start r = true ↔ placeKey start < r.createdKey :=
  DetectionTable.changedAfter_iff (r := { r with updatedAt := r.createdAt })

theorem takes_iff {inventory : Inventory} (start : Option Int × Nat) (previous : Option Severity) :
    rule.takes inventory r = true ↔
      lateralRuleReason rule inventory (detectionFact start inventory previous r) = none := by
  rw [LateralRule.takes, decide_eq_true_eq]
  rfl

/-- A commit moves the watermark to its last row. -/
theorem lateralPlace_afterCommit (hpce : rec.pce = w.world.pce) :
    lateralPlace (afterCommit w b last rec) = some last.place := by
  rw [lateralPlace, lateralMark, afterCommit, State.committed, ← hpce]
  simp only [evalWatermark_change]
  rfl

/-- What an entry added to the log evaluates is read. -/
theorem isRead_append {e : LateralEntry} (hlog : w'.batches = w.batches ++ [e]) :
    isRead w' id = (isRead w id || e.evaluates id) := by
  rw [isRead, isRead, hlog, List.any_append, List.any_cons, List.any_nil, Bool.or_false]

end Log

/-! ## The invariant -/

/-- What is known of every state since the watermark was set: a detection beyond the base that is
not read is ahead of the watermark and, while a page is evaluated, on it or beyond it. -/
structure Following (rule : LateralRule) (base : Nat) (w : LateralState) : Prop where
  marked : ∃ place, lateralPlace w = some place
  ahead : ∀ d ∈ w.world.flow.detections.rows, base < d.id → isRead w d.id = false →
    (∀ place, lateralPlace w = some place → placeKey place < d.key) ∧
    ∀ last, (pageInFlight w.batches).getLast? = some last →
      (∃ r ∈ pageInFlight w.batches, r.id = d.id) ∨ last.key < d.key
  new : ∀ r ∈ pageInFlight w.batches, base < r.id → isRead w r.id = false →
    ∀ start, startedFrom w.batches = some start → placeKey start < r.createdKey
  alerted : ∀ id, base < id → isRead w id = true → AlertedOnce rule w id

section Steps

variable {w w1 w' : LateralState} {rule : LateralRule} {base : Nat} {b : LateralBatch}
  {last : DetectionRow} {rec : Recorder}

theorem Following.noneMissed (h : Following rule base w) : NoneMissed rule base w := by
  intro d hd hbase
  cases hread : isRead w d.id with
  | true => exact Or.inr (h.alerted d.id hbase hread)
  | false =>
      obtain ⟨place, hplace⟩ := h.marked
      exact Or.inl ⟨rfl, place, hplace, (h.ahead d hd hbase hread).1 place hplace⟩

/-- When the watermark was set, every detection has an id that was given. -/
theorem following_start {place : Option Int × Nat} (hlog : w.batches = [])
    (hplace : lateralPlace w = some place) :
    Following rule w.world.flow.detections.sequence w := by
  have hread : ∀ id, isRead w id = false := fun id => by rw [isRead, hlog]; rfl
  refine ⟨⟨place, hplace⟩, fun d hd hbase => ?_, fun r hr => ?_, fun id _ h => ?_⟩
  · exact absurd (w.world.flow.detections.bounded d hd) (Nat.not_le.2 hbase)
  · rw [hlog] at hr
    exact absurd hr List.not_mem_nil
  · rw [hread id] at h
    exact absurd h (by simp)

/-- After others wrote, the detections that are not read are still ahead of the watermark, and of
the page in flight if the step's writes were judged by it. -/
theorem Following.ahead_of_write (h : Following rule base w) (hchanged : StoreChanged w w1)
    (htimely : Timely base w w') (hflow : w'.world.flow = w1.world.flow) :
    ∀ d ∈ w1.world.flow.detections.rows, base < d.id → isRead w d.id = false →
      (∀ place, lateralPlace w1 = some place → placeKey place < d.key) ∧
      ∀ last, (pageInFlight w1.batches).getLast? = some last → lastInFlight w w' = some last →
        (∃ r ∈ pageInFlight w1.batches, r.id = d.id) ∨ last.key < d.key := by
  intro d hd hbase hread
  rw [hchanged.lateralPlace, hchanged.log]
  by_cases hold : d ∈ w.world.flow.detections.rows
  · obtain ⟨hmark, hpage⟩ := h.ahead d hold hbase hread
    exact ⟨hmark, fun last hlast _ => hpage last hlast⟩
  · obtain ⟨hmark, hpage⟩ := htimely.stamped d (hflow ▸ hd) hbase hread hold
    refine ⟨fun place hplace => ?_, fun last _ hlast => Or.inr ?_⟩
    · rw [hplace] at hmark
      exact of_decide_eq_true hmark
    · rw [hlast] at hpage
      exact of_decide_eq_true hpage

theorem AlertedOnce.mono {id : Nat} (h : AlertedOnce rule w id)
    (hlog : ∀ e ∈ w.batches, e ∈ w'.batches)
    (halerts : ∀ a ∈ w.world.app.alerts, a ∈ w'.world.app.alerts) : AlertedOnce rule w' id := by
  obtain ⟨b, hb, r, hr, hid, halert⟩ := h
  refine ⟨b, hlog _ hb, r, hr, hid, fun htakes => ?_⟩
  obtain ⟨a, ha, hfacts⟩ := halert htakes
  exact ⟨a, halerts a ha, hfacts⟩

theorem lastInFlight_of_log (hlog : w'.batches = w.batches) :
    lastInFlight w w' = (pageInFlight w.batches).getLast? := by
  rw [lastInFlight, hlog, pageInFlight]
  rcases w.batches.getLast? with _ | _ | _ | _ <;> rfl

/-- After others wrote. -/
theorem Following.write (h : Following rule base w) (hchanged : StoreChanged w w')
    (htimely : Timely base w w') : Following rule base w' := by
  have hahead := h.ahead_of_write hchanged htimely rfl
  refine ⟨?_, fun d hd hbase hread => ?_, fun r hr hbase hread start hstart => ?_, ?_⟩
  · rw [hchanged.lateralPlace]
    exact h.marked
  · rw [hchanged.isRead] at hread
    obtain ⟨hmark, hpage⟩ := hahead d hd hbase hread
    refine ⟨hmark, fun last hlast => hpage last hlast ?_⟩
    rw [lastInFlight_of_log hchanged.log, ← hchanged.log]
    exact hlast
  · rw [hchanged.log] at hr hstart
    rw [hchanged.isRead] at hread
    exact h.new r hr hbase hread start hstart
  · intro id hbase hread
    rw [hchanged.isRead] at hread
    refine (h.alerted id hbase hread).mono (fun e he => ?_) fun a ha => ?_
    · rwa [hchanged.log]
    · rwa [hchanged.app]

/-- An entry that evaluates nothing leaves what was alerted. -/
theorem Following.alerted_logged {e : LateralEntry} (h : Following rule base w)
    (hchanged : StoreChanged w w1) (he : ∀ id, e.evaluates id = false) (id : Nat)
    (hbase : base < id) (hread : isRead (LateralState.logged w1 e) id = true) :
    AlertedOnce rule (LateralState.logged w1 e) id := by
  rw [isRead_append (w := w1) rfl, he, Bool.or_false, hchanged.isRead] at hread
  refine (h.alerted id hbase hread).mono (fun q hq => ?_) fun a ha => ?_
  · exact List.mem_append_left _ (hchanged.log ▸ hq)
  · exact hchanged.app ▸ ha

/-- A run starts. -/
theorem Following.start (h : Following rule base w) (hchanged : StoreChanged w w1)
    (htimely : Timely base w (LateralState.logged w1 (.start (lateralMark w1)))) :
    Following rule base (LateralState.logged w1 (.start (lateralMark w1))) := by
  have hahead := h.ahead_of_write hchanged htimely rfl
  have hnone : pageInFlight (w1.batches ++ [.start (lateralMark w1)]) = [] := by
    rw [pageInFlight, List.getLast?_concat]
  refine ⟨?_, fun d hd hbase hread => ?_, fun r hr => ?_,
    h.alerted_logged hchanged fun _ => rfl⟩
  · obtain ⟨place, hplace⟩ := h.marked
    exact ⟨place, hchanged.lateralPlace.trans hplace⟩
  · rw [isRead_append (w := w1) rfl, hchanged.isRead, Bool.or_eq_false_iff] at hread
    refine ⟨(hahead d hd hbase hread.1).1, fun last hlast => ?_⟩
    rw [LateralState.logged, hnone] at hlast
    exact absurd hlast (by simp)
  · rw [LateralState.logged, hnone] at hr
    exact absurd hr List.not_mem_nil

/-- A page is read: what is after the watermark is on it or beyond it. -/
theorem Following.page (h : Following rule base w) (hchanged : StoreChanged w w1)
    {place : Option Int × Nat} {rows : List DetectionRow} (hplace : lateralPlace w1 = some place)
    (hrows : rows = w1.world.flow.detections.changedSince place detectionBatch)
    (htimely : Timely base w (LateralState.logged w1 (.page rows))) :
    Following rule base (LateralState.logged w1 (.page rows)) := by
  have hahead := h.ahead_of_write hchanged htimely rfl
  have hpage := pageInFlight_page w1.batches rows
  refine ⟨⟨place, hplace⟩, fun d hd hbase hread => ?_, fun r hr hbase hread start hstart => ?_,
    h.alerted_logged hchanged fun _ => rfl⟩
  · rw [isRead_append (w := w1) rfl, hchanged.isRead, Bool.or_eq_false_iff] at hread
    obtain ⟨hmark, -⟩ := hahead d hd hbase hread.1
    refine ⟨hmark, fun last hlast => ?_⟩
    rw [LateralState.logged, hpage] at hlast ⊢
    rcases le_or_gt d.key last.key with hle | hlt
    · refine Or.inl ⟨d, ?_, rfl⟩
      rw [hrows] at hlast ⊢
      exact DetectionTable.changedSince_upTo hlast hd (hmark place hplace) hle
    · exact Or.inr hlt
  · rw [LateralState.logged, hpage, hrows] at hr
    have hcreated := htimely.created r (DetectionTable.changedSince_mem hr).1 hbase hread
    rw [hstart] at hcreated
    exact of_decide_eq_true hcreated

/-- A commit of the page in flight. -/
theorem Following.commit (h : Following rule base w) (hchanged : StoreChanged w w1)
    (hcooldown : rule.cooldownMinutes = 0) (hthrottle : rule.throttle = none)
    (hcommits : Commits rule b last rec w1)
    (htimely : Timely base w (afterCommit w1 b last rec)) :
    Following rule base (afterCommit w1 b last rec) := by
  have hahead := h.ahead_of_write hchanged htimely rfl
  have hpage : pageInFlight w.batches = b.rows := by rw [← hchanged.log, hcommits.page]
  have hlog : (afterCommit w1 b last rec).batches = w1.batches ++ [.batch b] := rfl
  have hnone : pageInFlight (afterCommit w1 b last rec).batches = [] := by
    rw [hlog, pageInFlight, List.getLast?_concat]
  have hflight : lastInFlight w (afterCommit w1 b last rec) = some last := by
    rw [lastInFlight, hlog, List.getLast?_concat, hpage]
    exact hcommits.last
  refine ⟨⟨_, lateralPlace_afterCommit hcommits.pce⟩, fun d hd hbase hread => ?_,
    fun r hr => ?_, fun id hbase hread => ?_⟩
  · -- a detection that is not read is not on the page, so it is beyond its last row
    rw [isRead_append hlog, hchanged.isRead, Bool.or_eq_false_iff] at hread
    have hbeyond : last.key < d.key := by
      refine ((hahead d hd hbase hread.1).2 last ?_ hflight).resolve_left ?_
      · rw [hcommits.page]
        exact hcommits.last
      · rintro ⟨r, hr, hid⟩
        rw [hcommits.page] at hr
        have hevaluated : (LateralEntry.batch b).evaluates d.id = true :=
          List.any_eq_true.2 ⟨r, hr, decide_eq_true hid⟩
        rw [hread.2] at hevaluated
        exact absurd hevaluated (by simp)
    refine ⟨fun place hplace => ?_, fun last hlast => ?_⟩
    · rw [lateralPlace_afterCommit hcommits.pce] at hplace
      rw [← Option.some.inj hplace]
      exact hbeyond
    · rw [hnone] at hlast
      exact absurd hlast (by simp)
  · rw [hnone] at hr
    exact absurd hr List.not_mem_nil
  · have hbatch : LateralEntry.batch b ∈ (afterCommit w1 b last rec).batches :=
      List.mem_append_right _ (List.mem_singleton.2 rfl)
    cases hold : isRead w id with
    | true =>
        refine (h.alerted id hbase hold).mono (fun e he => ?_) fun a ha => ?_
        · exact List.mem_append_left _ (hchanged.log ▸ he)
        · exact mem_alerts_change (hchanged.app ▸ ha)
    | false =>
        rw [isRead_append hlog, hchanged.isRead, hold, Bool.false_or] at hread
        obtain ⟨r, hr, hid⟩ := List.any_eq_true.1 hread
        have hid := of_decide_eq_true hid
        refine ⟨b, hbatch, r, hr, hid, fun htakes => ?_⟩
        obtain ⟨start, hstart, htriggers⟩ := hcommits.triggers
        have hnew : isNew start r = true := by
          refine isNew_iff.2 (h.new r (hpage ▸ hr) (hid ▸ hbase) (hid ▸ hold) start ?_)
          rw [← hchanged.log]
          exact hstart
        obtain ⟨t, ht, hfacts⟩ := htriggers r hr hnew htakes
        obtain ⟨a, ha, rfl⟩ := exists_alert_of_trigger hcooldown hthrottle ht
        exact ⟨a, ha, hfacts⟩

/-- What one step preserves. -/
theorem Following.step (h : Following rule base w) (hcooldown : rule.cooldownMinutes = 0)
    (hthrottle : rule.throttle = none) (hmoves : Moves rule w w') (htimely : Timely base w w') :
    Following rule base w' := by
  obtain ⟨w1, hchanged, rfl | rfl | ⟨place, hplace, rfl⟩ | ⟨b, last, rec, hcommits, rfl⟩⟩ := hmoves
  · exact h.write hchanged htimely
  · exact h.start hchanged htimely
  · exact h.page hchanged hplace rfl htimely
  · exact h.commit hchanged hcooldown hthrottle hcommits htimely

end Steps

/-! ## A run -/

section Run

variable {w w' : LateralState} {rule : LateralRule} {pce : Pce} {start mark : Option Int × Nat}
  {rows : List DetectionRow} {inventory : Inventory} {q : LateralRun}

/-- What is known and does not speak of the store is stable. -/
theorem stable_of_storeChanged {K : LateralState → Prop}
    (h : ∀ w w', K w → StoreChanged w w' → K w') : Stable Detects (Moves rule) K := fun w _ ha hw =>
  ⟨⟨_, ha.storeChanged w, Or.inl rfl⟩, h w _ hw (ha.storeChanged w)⟩

/-- A run goes on from a watermark it has committed. -/
structure Running (pce : Pce) (start mark : Option Int × Nat) (w : LateralState) : Prop where
  pce : w.world.pce = pce
  place : lateralPlace w = some mark
  start : startedFrom w.batches = some start

/-- It evaluates a page. -/
structure Evaluating (pce : Pce) (start mark : Option Int × Nat) (rows : List DetectionRow)
    (w : LateralState) : Prop extends Running pce start mark w where
  page : pageInFlight w.batches = rows

theorem Running.changed (h : Running pce start mark w) (hchanged : StoreChanged w w') :
    Running pce start mark w' := by
  refine ⟨hchanged.pce.trans h.pce, hchanged.lateralPlace.trans h.place, ?_⟩
  rw [hchanged.log]
  exact h.start

theorem Evaluating.changed (h : Evaluating pce start mark rows w) (hchanged : StoreChanged w w') :
    Evaluating pce start mark rows w' := by
  refine ⟨h.toRunning.changed hchanged, ?_⟩
  rw [hchanged.log]
  exact h.page

theorem stable_running : Stable Detects (Moves rule) (Running pce start mark) :=
  stable_of_storeChanged fun _ _ h hchanged => h.changed hchanged

theorem stable_evaluating : Stable Detects (Moves rule) (Evaluating pce start mark rows) :=
  stable_of_storeChanged fun _ _ h hchanged => h.changed hchanged

theorem safe_readPage : Program.Safe Detects (Moves rule) (Running pce start mark) (readPage mark)
    fun r w => match r with
      | .error _ => Running pce start mark w
      | .ok rows => Evaluating pce start mark rows w := by
  refine Program.safe_act fun w a ha hw => ?_
  have hchanged := ha.storeChanged w
  have hrunning := hw.changed hchanged
  cases hfails : a.fails with
  | true =>
      simp only [if_true]
      exact ⟨⟨_, hchanged, Or.inl rfl⟩, hrunning⟩
  | false =>
      simp only [Bool.false_eq_true, if_false]
      refine ⟨⟨_, hchanged, Or.inr (Or.inr (Or.inl ⟨mark, hrunning.place, rfl⟩))⟩, ?_⟩
      refine ⟨⟨hrunning.pce, hrunning.place, ?_⟩, pageInFlight_page _ _⟩
      rw [startedFrom_append]
      exact hrunning.start

/-- The facts of every row a rule wants are read. -/
theorem safe_readFacts (rule : LateralRule) {ok : Answer DetectionStore → Prop} {R : LateralState → LateralState → Prop}
    {K : LateralState → Prop} (hstable : Stable ok R K) (wanted : List DetectorKind)
    (rows : List DetectionRow) :
    Program.Safe ok R K (readFacts rule wanted start inventory rows) fun r w =>
      K w ∧ ∀ facts, r = .ok facts → ∀ row ∈ rows, row.detector ∈ wanted →
        ∃ previous, detectionFact start inventory previous row ∈ facts := by
  induction rows with
  | nil => exact Program.safe_pure fun w hw => ⟨hw, fun _ _ _ hrow => absurd hrow List.not_mem_nil⟩
  | cons row rows ih =>
      rw [readFacts]
      split
      · rename_i hunwanted
        refine Program.safe_weaken ih (fun _ h => h) fun r w hw => ⟨hw.1, fun facts hr q hq hin => ?_⟩
        rcases List.mem_cons.1 hq with rfl | hq
        · exact absurd hin hunwanted
        · exact hw.2 facts hr q hq hin
      · have hprevious : Program.Safe ok R K (readPrevious rule start row) fun _ => K := by
          rw [readPrevious]
          split
          · exact Program.safe_pure fun _ hw => hw
          · exact Program.safe_weaken (safe_look hstable _) (fun _ h => h) fun _ _ h => h.1
        refine Program.safe_bind hprevious ?_
        rintro (e | previous)
        · exact Program.safe_pure fun w hw => ⟨hw, fun _ h => absurd h (by simp)⟩
        · refine Program.safe_bind ih ?_
          rintro (e | facts)
          · exact Program.safe_pure fun w hw => ⟨hw.1, fun _ h => absurd h (by simp)⟩
          · refine Program.safe_pure fun w hw => ⟨hw.1, fun found hfound q hq hin => ?_⟩
            rw [← Except.ok.inj hfound]
            rcases List.mem_cons.1 hq with rfl | hq
            · exact ⟨previous, List.mem_cons_self⟩
            · obtain ⟨p, hp⟩ := hw.2 facts rfl q hq hin
              exact ⟨p, List.mem_cons_of_mem _ hp⟩

/-- A new detection that a rule takes is among its triggers. -/
theorem exists_trigger {previous : Option Severity} (marks : List KnownMark)
    {facts : List DetectionFact} {r : DetectionRow}
    (hfact : detectionFact start inventory previous r ∈ facts) (hnew : isNew start r = true)
    (htakes : rule.takes inventory r = true) :
    ∃ t ∈ evaluateLateralRule rule inventory marks facts, t.ruleId = rule.id ∧
      t.subjectKey = r.fingerprint ∧ t.facts = .detection r.id r.criticalAsset r.severity := by
  refine ⟨_, List.mem_map.2 ⟨_, List.mem_filter.2 ⟨hfact, ?_⟩, rfl⟩, rfl, rfl, rfl⟩
  rw [Bool.and_eq_true]
  refine ⟨?_, decide_eq_true ((takes_iff start previous).1 htakes)⟩
  rw [detectionFact, hnew, Bool.true_or]

/-- A rule takes detections of its detectors only. -/
theorem detector_mem_of_takes {d : DetectionRow} (h : rule.takes inventory d = true) :
    d.detector ∈ rule.detectors := by
  have hreason := of_decide_eq_true h
  by_contra hnot
  have hother : lateralRuleReason rule inventory (detectionFact (none, 0) inventory none d) =
      some .otherDetector := if_pos hnot
  rw [hother] at hreason
  exact absurd hreason (by simp)

theorem pce_record {r : Recorder} (base : RuleBase) (triggers : List Trigger) :
    (r.record base triggers).pce = r.pce := by
  rw [Recorder.record]
  split <;> rfl

/-- The rules run over a page: what a rule takes of the new detections has a trigger. -/
theorem safe_recordDetections {ok : Answer DetectionStore → Prop}
    {R : LateralState → LateralState → Prop} {K : LateralState → Prop} (hstable : Stable ok R K)
    (hrule : rule ∈ q.active) (page : List DetectionRow) (rules : List LateralRule) (r : Recorder) :
    Program.Safe ok R K (recordDetections q start inventory page rules r) fun found w =>
      K w ∧ ∀ r', found = .ok r' → r'.pce = r.pce ∧ (∀ x ∈ r.triggers, x ∈ r'.triggers) ∧
        (rule ∈ rules → ∀ d ∈ page, isNew start d = true → rule.takes inventory d = true →
          Triggers r' rule d) := by
  induction rules generalizing r with
  | nil =>
      refine Program.safe_pure fun w hw => ⟨hw, fun r' hr => ?_⟩
      rw [← Except.ok.inj hr]
      exact ⟨rfl, fun _ h => h, fun h => absurd h List.not_mem_nil⟩
  | cons first rules ih =>
      rw [recordDetections]
      refine Program.safe_bind (safe_readFacts first hstable _ page) ?_
      rintro (e | facts)
      · exact Program.safe_pure fun w hw => ⟨hw.1, fun r' h => absurd h (by simp)⟩
      · refine Program.safe_fact (c := ∀ row ∈ page,
          row.detector ∈ q.active.flatMap LateralRule.detectors →
            ∃ previous, detectionFact start inventory previous row ∈ facts)
          (fun w hw => hw.2 facts rfl) fun hfacts => ?_
        refine Program.safe_weaken (ih _) (fun w hw => hw.1) fun found w hw => ⟨hw.1, ?_⟩
        intro r' hr
        obtain ⟨hpce, hkept, hrest⟩ := hw.2 r' hr
        rw [triggers_record] at hkept
        refine ⟨hpce.trans (pce_record _ _), fun x hx => hkept x (List.mem_append_left _ hx), ?_⟩
        intro hmem d hd hnew htakes
        rcases List.mem_cons.1 hmem with rfl | hmem
        · -- the rule takes the detection, so it wants its detector
          have hdetector := detector_mem_of_takes htakes
          obtain ⟨previous, hfact⟩ := hfacts d hd (List.mem_flatMap.2 ⟨rule, hrule, hdetector⟩)
          obtain ⟨t, ht, hsubject⟩ := exists_trigger q.marks hfact hnew htakes
          exact ⟨t, hkept _ (List.mem_append_right _ (List.mem_map_of_mem ht)), hsubject⟩
        · exact hrest hmem d hd hnew htakes

/-- A run from a watermark. -/
theorem safe_evaluateDetections (hrule : rule ∈ q.active) (generation : Nat) (n : Nat)
    (run : EvalRun) :
    Program.Safe Detects (Moves rule) (Running pce start mark)
      (evaluateDetections q pce generation inventory start n mark run) fun _ _ => True := by
  induction n generalizing mark run with
  | zero => exact Program.safe_pure fun _ _ => trivial
  | succ n ih =>
      rw [evaluateDetections]
      refine Program.safe_bind safe_readPage ?_
      rintro (e | rows)
      · exact Program.safe_pure fun _ _ => trivial
      · simp only
        split
        · exact Program.safe_pure fun _ _ => trivial
        · rename_i last hlast
          refine Program.safe_bind (safe_recordDetections stable_evaluating hrule rows q.active _) ?_
          rintro (e | found)
          · exact Program.safe_pure fun _ _ => trivial
          · refine Program.safe_fact (c := found.pce = pce ∧ ∀ d ∈ rows, isNew start d = true →
              rule.takes inventory d = true → Triggers found rule d) (fun w hw => ?_) ?_
            · obtain ⟨hpce, -, htriggers⟩ := hw.2 found rfl
              exact ⟨hpce, htriggers hrule⟩
            rintro ⟨hpce, htriggers⟩
            refine Program.safe_bind (Program.safe_weaken
              (safe_commit (Q := Running pce start last.place) stable_evaluating
                fun w a ha hw => ?_) (fun w hw => hw.1) fun _ _ h => h) ?_
            · have hchanged := ha.storeChanged w
              have hevaluating := hw.changed hchanged
              have hcommits : Commits rule ⟨q.active, inventory, rows⟩ last found (w.after a) :=
                ⟨hevaluating.page, hlast, hpce.trans hevaluating.pce.symm, start,
                  hevaluating.start, htriggers⟩
              refine ⟨⟨_, hchanged, Or.inr (Or.inr (Or.inr ⟨_, last, found, hcommits, rfl⟩))⟩, ?_⟩
              refine ⟨hevaluating.pce, lateralPlace_afterCommit hcommits.pce, ?_⟩
              rw [State.committed, startedFrom_append]
              exact hevaluating.start
            · rintro (e | ⟨fired, suppressed⟩)
              · exact Program.safe_pure fun _ _ => trivial
              · simp only
                split
                · exact Program.safe_pure fun _ _ => trivial
                · exact ih _

theorem safe_started : Program.Safe Detects (Moves rule) (fun w => lateralPlace w = some mark)
    started fun r w => ∀ pce, r = .ok pce → Running pce mark mark w := by
  refine Program.safe_act fun w a ha hw => ?_
  have hchanged := ha.storeChanged w
  have hplace := hchanged.lateralPlace.trans hw
  cases hfails : a.fails with
  | true =>
      simp only [if_true]
      exact ⟨⟨_, hchanged, Or.inl rfl⟩, fun _ h => absurd h (by simp)⟩
  | false =>
      simp only [Bool.false_eq_true, if_false]
      refine ⟨⟨_, hchanged, Or.inr (Or.inl rfl)⟩, fun pce hpce => ?_⟩
      refine ⟨Except.ok.inj hpce, hplace, ?_⟩
      rw [startedFrom_append]
      exact hplace

/-- A run, once the watermark was set. -/
theorem safe_evaluateLateral (hrule : rule ∈ q.active) :
    Program.Safe Detects (Moves rule) (fun w => lateralPlace w = some mark)
      (evaluateLateral q) fun _ _ => True := by
  rw [evaluateLateral]
  refine Program.safe_bind safe_started ?_
  rintro (e | pce)
  · exact Program.safe_pure fun _ _ => trivial
  · refine Program.safe_bind (Program.safe_weaken (safe_look (K := Running pce mark mark)
      stable_running _) (fun w hw => hw pce rfl) fun _ _ h => h) ?_
    rintro (e | found)
    · exact Program.safe_pure fun _ _ => trivial
    · refine Program.safe_fact (c := found.bind Watermark.lateralFrom = some mark)
        (fun w hw => ?_) fun hfound => ?_
      · rw [hw.2 found rfl, ← hw.1.pce]
        exact hw.1.place
      obtain ⟨m, rfl, hmark⟩ := Option.bind_eq_some_iff.1 hfound
      refine Program.safe_bind (Program.safe_weaken (safe_look stable_running _) (fun w hw => hw.1)
        fun _ _ h => h) ?_
      rintro (e | generation)
      · exact Program.safe_pure fun _ _ => trivial
      · refine Program.safe_bind (Program.safe_weaken (safe_look stable_running _)
          (fun w hw => hw.1) fun _ _ h => h) ?_
        rintro (e | inventory)
        · exact Program.safe_pure fun _ _ => trivial
        · simp only [hmark]
          exact Program.safe_weaken (safe_evaluateDetections hrule generation _ _)
            (fun w hw => hw.1) fun _ _ h => h

end Run

/-! ## Every sequence of runs -/

/-- Runs one after the other, each with its answers and stopped where these end: the states gone
through. -/
def lateralEvaluations (rounds : List (LateralRun × List (Answer DetectionStore)))
    (w : LateralState) : List LateralState :=
  Program.runs (rounds.map fun r => (evaluateLateral r.1, r.2)) w

section Runs

variable {w0 : LateralState} {rule : LateralRule}
  {rounds : List (LateralRun × List (Answer DetectionStore))}

theorem Moves.marked {w w' : LateralState} (h : Moves rule w w')
    (hmarked : ∃ place, lateralPlace w = some place) : ∃ place, lateralPlace w' = some place := by
  obtain ⟨place, hplace⟩ := hmarked
  obtain ⟨w1, hchanged, rfl | rfl | ⟨_, _, rfl⟩ | ⟨b, last, rec, hcommits, rfl⟩⟩ := h
  · exact ⟨place, hchanged.lateralPlace.trans hplace⟩
  · exact ⟨place, hchanged.lateralPlace.trans hplace⟩
  · exact ⟨place, hchanged.lateralPlace.trans hplace⟩
  · exact ⟨_, lateralPlace_afterCommit hcommits.pce⟩

/-- The rule is among the enabled rules of every run, and nobody but the detectors and the
collector does anything. -/
def RuleInForce (rule : LateralRule)
    (rounds : List (LateralRun × List (Answer DetectionStore))) : Prop :=
  ∀ r ∈ rounds, rule ∈ r.1.active ∧ ∀ a ∈ r.2, Detects a

theorem isChain_moves (hrounds : RuleInForce rule rounds)
    (hmarked : ∃ place, lateralPlace w0 = some place) :
    List.IsChain (Moves rule) (w0 :: lateralEvaluations rounds w0) := by
  refine Program.chain_runs Detects (I := fun w => ∃ place, lateralPlace w = some place)
    (fun _ _ hw hmoves => hmoves.marked hw) ?_ hmarked
  intro p hp
  obtain ⟨r, hr, rfl⟩ := List.mem_map.1 hp
  obtain ⟨hrule, hanswers⟩ := hrounds r hr
  refine ⟨fun w answers hanswers hplace => ?_, hanswers⟩
  obtain ⟨place, hplace⟩ := hplace
  exact safe_evaluateLateral hrule w answers hanswers hplace

/-- Two relations along one chain. -/
theorem isChain_and {σ : Type} {R S : σ → σ → Prop} {s : σ} {v : List σ}
    (hR : List.IsChain R (s :: v)) (hS : List.IsChain S (s :: v)) :
    List.IsChain (fun s t => R s t ∧ S s t) (s :: v) := by
  induction v generalizing s with
  | nil => exact List.isChain_singleton s
  | cons t v ih =>
      obtain ⟨hst, hv⟩ := List.isChain_cons_cons.1 hR
      obtain ⟨hst', hv'⟩ := List.isChain_cons_cons.1 hS
      exact List.isChain_cons_cons.2 ⟨⟨hst, hst'⟩, ih hv hv'⟩

end Runs

/-- Over every sequence of runs, each failing or stopped anywhere, while passes of the detectors
write: where every step is timely, every detection stored since the watermark was set is not read
yet and ahead of it, or was evaluated by a committed batch, and the rule alerted if it takes it. -/
theorem detections_alerted {w0 : LateralState} {rule : LateralRule}
    {rounds : List (LateralRun × List (Answer DetectionStore))}
    (hlog : w0.batches = []) (hmarked : ∃ place, lateralPlace w0 = some place)
    (hcooldown : rule.cooldownMinutes = 0) (hthrottle : rule.throttle = none)
    (hrounds : RuleInForce rule rounds)
    (htimely : List.IsChain (Timely w0.world.flow.detections.sequence)
      (w0 :: lateralEvaluations rounds w0)) :
    ∀ w ∈ w0 :: lateralEvaluations rounds w0,
      NoneMissed rule w0.world.flow.detections.sequence w := by
  intro w hw
  obtain ⟨place, hplace⟩ := hmarked
  have hchain := isChain_and (isChain_moves hrounds ⟨place, hplace⟩) htimely
  refine Following.noneMissed (Program.inv_of_isChain (fun s t hs hst => ?_)
    (following_start hlog hplace) hchain w hw)
  exact hs.step hcooldown hthrottle hst.1 hst.2

/-! ## A pass that writes behind the watermark -/

/-- A fan-out of a host. -/
def fanoutOf (host : String) : DetectionWrite where
  detector := .fanout
  fingerprint := host
  subjectKey := host
  severity := .high
  firstSeen := 0
  lastSeen := 0
  criticalAsset := false
  evidence := ⟨"\x7b\x7d", "\x7b\x7d", "\x7b\x7d"⟩
  ends := []

/-- A rule that takes every fan-out. -/
def fanoutRule : LateralRule where
  id := "1"
  name := "fanout"
  packKey := none
  enabled := true
  notify := true
  severity := none
  cooldownMinutes := 0
  throttle := none
  detectors := [.fanout]
  minSeverity := .low
  criticalAssetsOnly := false
  exclude := none

/-- One detection, of a pass that started at the tenth millisecond. -/
def oneDetection : DetectionTable :=
  DetectionTable.insert ⟨[], 0, DetectionTable.nil_ordered, DetectionTable.nil_bounded⟩
    (fanoutOf "a") false 10000

/-- The watermark was set to it. -/
def watched : LateralState where
  world :=
    { pce := ("https://pce", "1")
      generation := 0
      flow := ⟨oneDetection, true, ⟨fun _ => [], fun _ => [], fun _ => []⟩⟩
      app := ⟨fun _ => none, [], 0, [], fun
        | .lateral => some ⟨("https://pce", "1"), .stamp (some 10000) 1⟩
        | _ => none⟩ }
  batches := []

/-- A pass that started at a time writes a second detection. -/
def writesOf (t : Int) : Answer DetectionStore where
  others w :=
    { w with flow := [.pass ⟨t, false, [fanoutOf "b"], fun _ => 0⟩].foldl DetectionChange.apply w.flow }
  fails := false

def quiet : Answer DetectionStore := ⟨fun w => w, false⟩

/-- One run, while the pass writes. -/
def oneRun (t : Int) : List (LateralRun × List (Answer DetectionStore)) :=
  [(⟨60, [fanoutRule], [], []⟩, writesOf t :: List.replicate 9 quiet)]

theorem ruleInForce_oneRun (t : Int) : RuleInForce fanoutRule (oneRun t) := by
  intro r hr
  obtain rfl := List.mem_singleton.1 hr
  refine ⟨List.mem_singleton.2 rfl, fun a ha => ?_⟩
  rcases List.mem_cons.1 ha with rfl | ha
  · exact ⟨_, rfl⟩
  · rw [List.eq_of_mem_replicate ha]
    exact ⟨[], rfl⟩

/-- A pass that starts after the watermark: one alert, and no detection is missed. -/
theorem detections_alerted_fanout :
    (lastState watched (lateralEvaluations (oneRun 20000) watched)).world.app.alerts.length = 1 ∧
    ∀ w ∈ watched :: lateralEvaluations (oneRun 20000) watched, NoneMissed fanoutRule 1 w := by
  refine ⟨by decide +kernel, ?_⟩
  exact detections_alerted rfl ⟨_, rfl⟩ rfl rfl (ruleInForce_oneRun 20000) (by decide +kernel)

theorem AlertedOnce.isRead {rule : LateralRule} {w : LateralState} {id : Nat}
    (h : AlertedOnce rule w id) : isRead w id = true := by
  obtain ⟨b, hb, r, hr, hid, -⟩ := h
  exact List.any_eq_true.2 ⟨_, hb, List.any_eq_true.2 ⟨r, hr, decide_eq_true hid⟩⟩

/-- A pass that started before the watermark writes its detection after the watermark was set; no
run reads it. -/
theorem late_pass_unread :
    ¬ ∀ (w0 : LateralState) (rule : LateralRule)
        (rounds : List (LateralRun × List (Answer DetectionStore))),
      w0.batches = [] → (∃ place, lateralPlace w0 = some place) → rule.cooldownMinutes = 0 →
      rule.throttle = none → RuleInForce rule rounds →
      ∀ w ∈ w0 :: lateralEvaluations rounds w0,
        NoneMissed rule w0.world.flow.detections.sequence w := by
  intro h
  obtain ⟨w, hlast⟩ : ∃ w, w = lastState watched (lateralEvaluations (oneRun 5000) watched) :=
    ⟨_, rfl⟩
  have hmissed := h watched fanoutRule (oneRun 5000) rfl ⟨_, rfl⟩ rfl rfl
    (ruleInForce_oneRun 5000) w (hlast ▸ lastState_mem _ _)
  have hstored : ∃ d ∈ w.world.flow.detections.rows, d.id = 2 ∧ d.updatedAt = 5000 := by
    rw [hlast]
    decide +kernel
  have hunread : isRead w 2 = false := by
    rw [hlast]
    decide +kernel
  have hplace : lateralPlace w = some (some 10000, 1) := by
    rw [hlast]
    decide +kernel
  obtain ⟨d, hd, hid, hstamp⟩ := hstored
  have hbase : watched.world.flow.detections.sequence < d.id := by
    rw [hid]
    decide
  rcases hmissed d hd hbase with ⟨-, place, hmark, hlt⟩ | halerted
  · rw [hplace] at hmark
    rw [← Option.some.inj hmark, DetectionRow.key, hstamp, hid] at hlt
    exact absurd hlt (by decide)
  · rw [hid] at halerted
    rw [halerted.isRead] at hunread
    exact absurd hunread (by simp)

end IllumioOps.Alerts
