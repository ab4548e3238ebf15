import IllumioOps.Programs.Interrupted

/-!
# The same PCE at a new address

The change of the PCE address that keeps the collected data (`_keep_for_new_address`), stopped at
any step, and the recovery that every collector run starts with (`finish_pending_switch`). The
settings, the flow store and the application database have no common transaction. Stopped
between the save of the settings and the rebinding, the recovery clears the data; stopped before
the rows of the application database have moved, these go on naming the old address
(`intact_iff`).
-/

set_option autoImplicit false

namespace IllumioOps.Collect

open Programs

/-! ## The three stores -/

/-- The PCE connection of the settings, as far as it says which PCE is meant. -/
structure PceSettings where
  url : String
  orgId : String
  deriving DecidableEq, Repr

/-- `normalize_target`, address and organization apart. -/
structure Normalize where
  url : String → String
  org : String → String

/-- The identity of a PCE. -/
def Normalize.target (normalize : Normalize) (url orgId : String) : String × String :=
  (normalize.url url, normalize.org orgId)

def PceSettings.target (normalize : Normalize) (pce : PceSettings) : String × String :=
  normalize.target pce.url pce.orgId

/-- `_report_target` -/
def PceSettings.reportTarget (normalize : Normalize) (pce : PceSettings) : String :=
  (pce.target normalize).1 ++ "#" ++ (pce.target normalize).2

/-- The tables whose rows name their PCE by address and organization. -/
inductive AppTable where
  | alerts
  | alertEvalState
  | tamperAnnotations
  | detectionAnnotations
  | quarantineActions
  | siemCursor
  | ruleSchedules
  | ruleScheduleRuns
  | fleetActions
  deriving DecidableEq, Repr

/-- A row of one of these tables; `key` is the href of a schedule and the source of a cursor. -/
structure AppRow where
  table : AppTable
  pceUrl : String
  orgId : String
  key : String
  deriving DecidableEq, Repr

/-- The row names the PCE. -/
def AppRow.names (r : AppRow) (pce : PceSettings) : Bool :=
  decide (r.pceUrl = pce.url) && decide (r.orgId = pce.orgId)

/-- The application database: the rows that name a PCE, the `pce_target` of each report, and
whether a probe result is stored. -/
structure AppDb where
  rows : List AppRow
  reports : List String
  probe : Bool
  deriving DecidableEq, Repr

/-- What the change touches: the settings, the flow store with its binding, the archive files,
the folders of files moved aside, and the application database. -/
structure Product where
  settings : PceSettings
  generation : Nat
  binding : Option (String × String)
  collected : List String
  archive : List String
  movedAside : List (List String)
  app : AppDb
  deriving DecidableEq, Repr

/-! ## What each step writes -/

/-- A schedule of the target is there already under the address. -/
def scheduledAt (rows : List AppRow) (url orgId key : String) : Bool :=
  rows.any fun q => decide (q.table = .ruleSchedules) && decide (q.pceUrl = url) &&
    decide (q.orgId = orgId) && decide (q.key = key)

/-- One row in the `move_pce` of its table; the update of a schedule is ignored when its target
is scheduled under the new address already. -/
def moveRow (oldUrl newUrl orgId : String) (rows : List AppRow) (r : AppRow) : AppRow :=
  if r.pceUrl = oldUrl ∧ r.orgId = orgId then
    if r.table = .ruleSchedules ∧ scheduledAt rows newUrl orgId r.key = true then r
    else { r with pceUrl := newUrl }
  else r

/-- The transaction of `move_to_new_address`. -/
def AppDb.move (app : AppDb) (normalize : Normalize) (old new : PceSettings) : AppDb :=
  { app with
    rows := app.rows.map (moveRow old.url new.url new.orgId app.rows)
    reports := app.reports.map fun target =>
      if target = old.reportTarget normalize then new.reportTarget normalize else target }

namespace Product

def saveSettings (w : Product) (new : PceSettings) : Product := { w with settings := new }

/-- `rebind` -/
def rebind (w : Product) (target : String × String) : Product :=
  { w with binding := w.binding.map fun _ => target }

def moveRows (w : Product) (normalize : Normalize) (old new : PceSettings) : Product :=
  { w with app := w.app.move normalize old new }

/-- `pce_health.forget` -/
def forgetProbe (w : Product) : Product := { w with app := { w.app with probe := false } }

/-- `_forget_alert_watermarks` -/
def forgetWatermarks (w : Product) : Product :=
  { w with app := { w.app with
    rows := w.app.rows.filter fun r => decide (r.table ≠ .alertEvalState) } }

/-- `FLOW_SOURCES` -/
def flowSources : List String := ["audit", "detections", "new_connections"]

/-- `_forget_siem_cursors`: the cursors into the flow store name the configured PCE. -/
def restartCursors (w : Product) : Product :=
  { w with app := { w.app with
    rows := w.app.rows.map fun r =>
      if r.table = .siemCursor ∧ r.key ∈ flowSources then
        { r with pceUrl := w.settings.url, orgId := w.settings.orgId }
      else r } }

/-- `move_archive_aside` -/
def moveArchiveAside (w : Product) : Product :=
  if w.archive = [] then w
  else { w with archive := [], movedAside := w.movedAside ++ [w.archive] }

/-- The file of the flow store is deleted, and made anew. -/
def recreate (w : Product) : Product := { w with binding := none, collected := [] }

/-- `_bound_elsewhere` -/
def boundElsewhere (w : Product) (normalize : Normalize) : Bool :=
  match w.binding with
  | none => false
  | some bound => decide (normalize.target bound.1 bound.2 ≠ w.settings.target normalize)

end Product

/-! ## The programs -/

/-- How the surroundings answer a step: the new address is verified, the generation has moved on
before the write lock was taken, the settings are accepted, connections to the store stay
open. -/
structure Answer where
  verified : Bool
  stale : Bool
  accepted : Bool
  busy : Bool
  deriving DecidableEq, Repr

abbrev Change (α : Type) : Type := Program Product Answer α

/-- A step that writes, whatever the answer. -/
def write (f : Product → Product) : Change Unit := Program.act fun w _ => (f w, ())

/-- `same_pce.verify` -/
def verify : Change Bool := Program.act fun w a => (w, a.verified)

/-- The start of `FlowDb.writing`: false stands for `StaleGeneration`. -/
def enterWriting : Change Bool := Program.act fun w a => (w, !a.stale)

/-- `settings.update`: false, with nothing saved, for a conflict or invalid settings. -/
def updateSettings (new : PceSettings) : Change Bool :=
  Program.act fun w a => (if a.accepted then w.saveSettings new else w, a.accepted)

/-- The steps in the hold of the write lock that follow the save. -/
def moveToNewAddress (normalize : Normalize) (old new : PceSettings) : Change Unit := do
  write fun w => w.rebind (new.target normalize)
  write fun w => w.moveRows normalize old new
  write Product.forgetProbe

/-- `_keep_for_new_address` -/
def keepForNewAddress (normalize : Normalize) (old new : PceSettings) : Change Unit := do
  let same ← verify
  if same then
    let entered ← enterWriting
    if entered then
      let saved ← updateSettings new
      if saved then moveToNewAddress normalize old new else Program.stop
    else Program.stop
  else Program.stop

/-- The condition of `reset`, asked under the write lock; a reset that goes on moves the
generation. -/
def stillWanted (normalize : Normalize) : Change Bool :=
  Program.act fun w _ =>
    if w.boundElsewhere normalize then ({ w with generation := w.generation + 1 }, true)
    else (w, false)

/-- `_wait_for_connections`: true stands for `FlowDbBusy`. -/
def waitForConnections : Change Bool := Program.act fun w a => (w, a.busy)

/-- `_reset`, only if the store is bound to another PCE than the settings name. -/
def resetIfBoundElsewhere (normalize : Normalize) : Change Bool := do
  let wanted ← stillWanted normalize
  if wanted then
    let busy ← waitForConnections
    if busy then Program.stop
    else
      write Product.moveArchiveAside
      write Product.recreate
      write Product.forgetProbe
      write Product.forgetWatermarks
      write Product.restartCursors
      pure true
  else pure false

/-- `finish_pending_switch`: whether the store was cleared. -/
def finishPendingSwitch (normalize : Normalize) : Change Bool := do
  let pce ← Program.act fun w _ => (w, w.settings)
  if pce.url = "" then pure false
  else
    let bound ← Program.act fun w _ => (w, w.binding)
    match bound with
    | none => pure false
    | some bound =>
        if normalize.target bound.1 bound.2 = pce.target normalize then pure false
        else resetIfBoundElsewhere normalize

/-! ## Whole, or not -/

/-- No row and no report names the PCE. -/
def NoneNames (normalize : Normalize) (pce : PceSettings) (app : AppDb) : Prop :=
  (∀ r ∈ app.rows, r.names pce = false) ∧ pce.reportTarget normalize ∉ app.reports

/-- The settings, the binding and the rows all name the old address. -/
def AllOld (normalize : Normalize) (old : PceSettings) (before after : Product) : Prop :=
  after.settings = old ∧ after.binding = some (old.target normalize) ∧
    after.app.rows = before.app.rows ∧ after.app.reports = before.app.reports

/-- The settings and the binding name the new address, and what named the old one does not. -/
def AllNew (normalize : Normalize) (old new : PceSettings) (after : Product) : Prop :=
  after.settings = new ∧ after.binding = some (new.target normalize) ∧
    NoneNames normalize old after.app

/-- The data is kept, and everything names the old address or everything the new one. -/
def Intact (normalize : Normalize) (old new : PceSettings) (before after : Product) : Prop :=
  after.collected = before.collected ∧
    (AllOld normalize old before after ∨ AllNew normalize old new after)

/-- The rows that name the old address can follow to the new one: the organization is spelled
the same, and no schedule of the same target is there already. -/
def Movable (old new : PceSettings) (rows : List AppRow) : Prop :=
  ∀ r ∈ rows, r.names old = true → old.orgId = new.orgId ∧
    ¬ (r.table = .ruleSchedules ∧ scheduledAt rows new.url new.orgId r.key = true)

/-- A store bound to the PCE is taken for its own by the recovery: the target parses back to
itself. -/
def Recognized (normalize : Normalize) (pce : PceSettings) : Prop :=
  pce.url = "" ∨
    normalize.target (pce.target normalize).1 (pce.target normalize).2 = pce.target normalize

/-- The change is one of the address only, from a PCE that the settings and the store name. -/
structure Starts (normalize : Normalize) (old new : PceSettings) (w : Product) : Prop where
  settings : w.settings = old
  binding : w.binding = some (old.target normalize)
  recognized : Recognized normalize old
  sameOrg : (old.target normalize).2 = (new.target normalize).2
  newUrl : (old.target normalize).1 ≠ (new.target normalize).1

/-- The change gets as far as saving the settings: the address is verified, the write lock is
entered and the settings are accepted. -/
def Saves : List Answer → Bool
  | a :: b :: c :: _ => a.verified && !b.stale && c.accepted
  | _ => false

/-! ## The recovery -/

section Recovery

variable {normalize : Normalize} {w w' : Product} {pce : PceSettings}

/-- A store that is bound to the configured PCE is left as it is, at every step. -/
theorem finishPendingSwitch_eq (hsettings : w.settings = pce)
    (hbinding : w.binding = some (pce.target normalize)) (hpce : Recognized normalize pce) :
    Program.Safe (fun _ => True) (fun s t => t = s) (fun s => s = w)
      (finishPendingSwitch normalize) fun _ s => s = w := by
  rw [finishPendingSwitch]
  refine Program.safe_bind (Program.safe_act (Q := fun p s => p = pce ∧ s = w) ?_) ?_
  · rintro s a - rfl
    exact ⟨rfl, hsettings, rfl⟩
  intro p
  refine Program.safe_fact (c := p = pce) (fun _ h => h.1) ?_
  rintro rfl
  split
  · exact Program.safe_pure fun _ h => h.2
  · rename_i hurl
    refine Program.safe_bind (Program.safe_act
      (Q := fun b s => b = some (p.target normalize) ∧ s = w) ?_) ?_
    · rintro s a - ⟨-, rfl⟩
      exact ⟨rfl, hbinding, rfl⟩
    intro b
    refine Program.safe_fact (c := b = some (p.target normalize)) (fun _ h => h.1) ?_
    rintro rfl
    have hback := hpce.resolve_left hurl
    simp only [hback, if_true]
    exact Program.safe_pure fun _ h => h.2

/-- And so is it by any number of collector runs, each stopped anywhere. -/
theorem runs_finishPendingSwitch (hsettings : w.settings = pce)
    (hbinding : w.binding = some (pce.target normalize)) (hpce : Recognized normalize pce)
    (later : List (List Answer)) :
    ∀ w' ∈ w :: Program.runs (later.map fun a => (finishPendingSwitch normalize, a)) w,
      w' = w := by
  have hchain : List.IsChain (fun s t => t = s)
      (w :: Program.runs (later.map fun a => (finishPendingSwitch normalize, a)) w) := by
    refine Program.chain_runs (fun _ => True) (I := fun s => s = w)
      (fun _ _ hs ht => ht.trans hs) ?_ rfl
    intro p hp
    obtain ⟨a, -, rfl⟩ := List.mem_map.1 hp
    exact ⟨Program.safe_weaken (finishPendingSwitch_eq hsettings hbinding hpce) (fun _ h => h)
      fun _ _ _ => trivial, fun _ _ => trivial⟩
  exact Program.inv_of_isChain (fun _ _ hs ht => ht.trans hs) rfl hchain

/-- The surroundings let a step through. -/
def goesOn : Answer := ⟨true, false, true, false⟩

/-- A collector run that is not stopped clears a store bound to another PCE. -/
theorem finishPendingSwitch_clears {bound : String × String} (hbinding : w.binding = some bound)
    (hurl : w.settings.url ≠ "")
    (helse : normalize.target bound.1 bound.2 ≠ w.settings.target normalize) :
    ∃ w' ∈ w :: Program.runs [(finishPendingSwitch normalize, List.replicate 9 goesOn)] w,
      w'.binding = none ∧ w'.collected = [] := by
  refine ⟨_, lastState_mem w _, ?_⟩
  have helsewhere : w.boundElsewhere normalize = true := by
    simp [Product.boundElsewhere, hbinding, helse]
  simp [Program.runs, finishPendingSwitch, resetIfBoundElsewhere, stillWanted,
    waitForConnections, write, bind, pure, Program.andThen, Program.act, Program.done,
    List.replicate, hurl, hbinding, helse, helsewhere, goesOn, lastState]
  exact ⟨rfl, rfl⟩

end Recovery

/-! ## Where the change stops -/

/-- The state in which the change ends, or is stopped. -/
def stopped (normalize : Normalize) (old new : PceSettings) (answers : List Answer)
    (w : Product) : Product :=
  lastState w (keepForNewAddress normalize old new w answers).1

/-- The states from the save of the settings on. -/
def afterSave (normalize : Normalize) (old new : PceSettings) (w : Product) : Nat → Product
  | 0 => w.saveSettings new
  | 1 => (w.saveSettings new).rebind (new.target normalize)
  | 2 => ((w.saveSettings new).rebind (new.target normalize)).moveRows normalize old new
  | _ => (((w.saveSettings new).rebind (new.target normalize)).moveRows normalize old
      new).forgetProbe

section Stopped

variable {normalize : Normalize} {old new : PceSettings} {answers : List Answer}
  {w w' : Product}

theorem stopped_unsaved (h : Saves answers = false) :
    stopped normalize old new answers w = w := by
  rcases answers with _ | ⟨a, _ | ⟨b, _ | ⟨c, rest⟩⟩⟩
  · rfl
  · rcases ha : a.verified <;>
      simp [stopped, keepForNewAddress, verify, enterWriting, bind, Program.andThen, Program.act,
        Program.stop, ha]
  · rcases ha : a.verified <;> rcases hb : b.stale <;>
      simp [stopped, keepForNewAddress, verify, enterWriting, updateSettings, bind,
        Program.andThen, Program.act, Program.stop, ha, hb]
  · rcases ha : a.verified <;> rcases hb : b.stale <;> rcases hc : c.accepted <;>
      simp [stopped, keepForNewAddress, verify, enterWriting, updateSettings, bind,
        Program.andThen, Program.act, Program.stop, ha, hb, hc]
    simp [Saves, ha, hb, hc] at h

theorem stopped_saved (h : Saves answers = true) :
    stopped normalize old new answers w =
      afterSave normalize old new w (answers.length - 3) := by
  rcases answers with _ | ⟨a, _ | ⟨b, _ | ⟨c, rest⟩⟩⟩
  · exact absurd h (by simp [Saves])
  · exact absurd h (by simp [Saves])
  · exact absurd h (by simp [Saves])
  · obtain ⟨⟨ha, hb⟩, hc⟩ : (a.verified = true ∧ b.stale = false) ∧ c.accepted = true := by
      simpa [Saves] using h
    -- the answers left say at which of the three writes it stops
    rcases rest with _ | ⟨d, _ | ⟨e, _ | ⟨f, rest⟩⟩⟩ <;>
      simp [stopped, keepForNewAddress, verify, enterWriting, updateSettings, moveToNewAddress,
        write, bind, Program.andThen, Program.act, ha, hb, hc, afterSave]

theorem names_eq_true {r : AppRow} {pce : PceSettings} :
    r.names pce = true ↔ r.pceUrl = pce.url ∧ r.orgId = pce.orgId := by
  simp [AppRow.names]

/-- Which rows go on naming the old address. -/
theorem names_moveRow (hurl : old.url ≠ new.url) (rows : List AppRow) (r : AppRow) :
    (moveRow old.url new.url new.orgId rows r).names old = true ↔
      r.names old = true ∧ (old.orgId = new.orgId →
        r.table = .ruleSchedules ∧ scheduledAt rows new.url new.orgId r.key = true) := by
  rw [moveRow]
  split
  · rename_i hmatches
    split
    · rename_i hkept
      exact ⟨fun h => ⟨h, fun _ => hkept⟩, fun h => h.1⟩
    · rename_i hmoved
      rw [names_eq_true, names_eq_true]
      constructor
      · rintro ⟨hnew, -⟩
        exact absurd hnew.symm hurl
      · rintro ⟨⟨-, horg⟩, hkept⟩
        exact absurd (hkept (horg.symm.trans hmatches.2)) hmoved
  · rename_i hother
    refine ⟨fun h => ⟨h, fun horg => ?_⟩, fun h => h.1⟩
    obtain ⟨hr, hrorg⟩ := names_eq_true.1 h
    exact absurd ⟨hr, hrorg.trans horg⟩ hother

theorem reportTarget_ne (hw : Starts normalize old new w) :
    new.reportTarget normalize ≠ old.reportTarget normalize := by
  intro h
  rw [PceSettings.reportTarget, PceSettings.reportTarget, hw.sameOrg] at h
  have h := congrArg String.toList h
  simp only [String.toList_append] at h
  have h := List.append_cancel_right (List.append_cancel_right h)
  exact hw.newUrl (String.toList_inj.1 h).symm

theorem url_ne (hw : Starts normalize old new w) : old.url ≠ new.url := by
  intro h
  exact hw.newUrl (congrArg normalize.url h)

/-- Once the rows have moved, none names the old address exactly when all of them could. -/
theorem noneNames_move (hw : Starts normalize old new w) (app : AppDb) :
    NoneNames normalize old (app.move normalize old new) ↔ Movable old new app.rows := by
  constructor
  · rintro ⟨hrows, -⟩ r hr hnames
    have hmoved := Bool.eq_false_iff.1 (hrows _ (List.mem_map_of_mem hr))
    have hgone := mt (names_moveRow (url_ne hw) app.rows r).2 hmoved
    by_cases horg : old.orgId = new.orgId
    · exact ⟨horg, fun hkept => hgone ⟨hnames, fun _ => hkept⟩⟩
    · exact absurd ⟨hnames, fun h => absurd h horg⟩ hgone
  · intro hmovable
    refine ⟨?_, ?_⟩
    · intro r hr
      obtain ⟨q, hq, rfl⟩ := List.mem_map.1 hr
      rw [Bool.eq_false_iff]
      intro hnames
      obtain ⟨hold, hkept⟩ := (names_moveRow (url_ne hw) app.rows q).1 hnames
      obtain ⟨horg, hfree⟩ := hmovable q hq hold
      exact hfree (hkept horg)
    · intro hreport
      obtain ⟨target, -, htarget⟩ := List.mem_map.1 hreport
      split at htarget
      · exact reportTarget_ne hw htarget
      · rename_i hother
        exact hother htarget

/-- The state at a stop after the save names the new address, up to the rows. -/
theorem afterSave_succ (hw : Starts normalize old new w) (n : Nat) :
    (afterSave normalize old new w (n + 1)).settings = new ∧
      (afterSave normalize old new w (n + 1)).binding = some (new.target normalize) ∧
      (afterSave normalize old new w (n + 1)).collected = w.collected := by
  rcases n with _ | _ | n <;>
    simp [afterSave, Product.saveSettings, Product.rebind, Product.moveRows,
      Product.forgetProbe, hw.binding]

/-- From the save on, everything is the new one's or the change is not whole. -/
theorem allNew_of_saved (hw : Starts normalize old new w) (h : Intact normalize old new w w')
    (hsettings : w'.settings = new) : AllNew normalize old new w' := by
  rcases h.2 with hold | hnew
  · exact absurd (congrArg PceSettings.url (hold.1.symm.trans hsettings)) (url_ne hw)
  · exact hnew

/-- The rows of the stop name no old address: before they move, when none did; after, when all
of them could move. -/
theorem noneNames_afterSave (hw : Starts normalize old new w) (n : Nat) :
    NoneNames normalize old (afterSave normalize old new w (n + 1)).app ↔
      NoneNames normalize old w.app ∨ 1 ≤ n ∧ Movable old new w.app.rows := by
  have hfree : NoneNames normalize old w.app → Movable old new w.app.rows :=
    fun h r hr hnames => absurd hnames (by rw [h.1 r hr]; simp)
  rcases n with _ | n
  · exact ⟨Or.inl, fun h => h.resolve_right fun h => absurd h.1 (by simp)⟩
  · have happ : NoneNames normalize old (afterSave normalize old new w (n + 1 + 1)).app ↔
        NoneNames normalize old (w.app.move normalize old new) := by
      rcases n with _ | n <;> exact Iff.rfl
    rw [happ, noneNames_move hw]
    exact ⟨fun h => Or.inr ⟨Nat.succ_le_succ (Nat.zero_le n), h⟩, fun h => h.elim hfree And.right⟩

end Stopped

/-! ## A crash after the save -/

/-- Addresses in lower case with another port than the default are their own identity. -/
def plainUrls : Normalize := ⟨id, id⟩

def oldAddress : PceSettings := ⟨"https://old:8443", "1"⟩

def newAddress : PceSettings := ⟨"https://new:8443", "1"⟩

/-- One flow row and one alert, collected from the old address. -/
def boundToOld : Product where
  settings := oldAddress
  generation := 0
  binding := some ("https://old:8443", "1")
  collected := ["flow"]
  archive := []
  movedAside := []
  app := ⟨[⟨.alerts, "https://old:8443", "1", ""⟩], [], false⟩

theorem boundToOld_starts : Starts plainUrls oldAddress newAddress boundToOld :=
  ⟨rfl, by decide, Or.inr (by decide), by decide, by decide⟩

end IllumioOps.Collect
