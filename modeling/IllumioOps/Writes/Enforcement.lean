import IllumioOps.Tables.Distinct
import IllumioOps.Writes.Settled

/-!
# The enforcement progression

`apply` of `services.fleet_write`: chosen hosts move from the mode the preview showed to a target
mode. A host is written only when the mode read for it is still the one shown and the configured PCE
is still the one it was when the apply began (`Progression.Confirmed`).
-/

set_option autoImplicit false

namespace IllumioOps.PceWrites

open Programs SiemText

/-! ## The targets -/

/-- A managed workload in the inventory. -/
structure Workload where
  hostname : Option String
  name : Option String
  enforcementMode : Option String

def validProgressions : String → List String
  | "idle" => ["visibility_only", "selective", "full"]
  | "visibility_only" => ["selective", "full"]
  | "selective" => ["full"]
  | _ => []

/-- `refusal`: why a host cannot move, none when it can. -/
def refusal (current : Option String) (target : String) : Option Reason :=
  if current = some target then some .sameMode
  else if target ∉ validProgressions (current.getD "") then some .notForward
  else none

structure FleetTarget extends Target where
  current : Option String

structure EnforcementHost where
  key : String
  fromMode : String

/-- A call of `apply`: the hosts with the modes the preview showed, the mode they move to, whether
the write key is set, and the inventory. -/
structure Progression where
  hosts : List EnforcementHost
  target : String
  writeKey : Bool
  inventory : String → Option Workload

structure FleetOutcome where
  target : String
  results : List Result

namespace Progression

variable (p : Progression)

/-- The keys of `shown`: every host once. -/
def keys : List String := (p.hosts.map EnforcementHost.key).eraseDups

/-- `shown`: the mode the preview showed for a host, the last one where it is named twice. -/
def shown (key : String) : String :=
  ((p.hosts.reverse.find? fun h => h.key == key).map EnforcementHost.fromMode).getD ""

/-- `_targets`, for one key. -/
def targetOf (key : String) : FleetTarget :=
  let unmanaged := "ip:".toList.isPrefixOf key.toList
  let w := if unmanaged then none else p.inventory key
  let reason :=
    match w with
    | some w => refusal w.enforcementMode p.target
    | none => if unmanaged then some .unmanaged else some .notInInventory
  { key := key
    name := w.bind fun w => (w.hostname.filter (· ≠ "")).or w.name
    ok := reason.isNone
    reason := reason
    current := w.bind Workload.enforcementMode }

/-- The inventory moved on since the preview: not what was confirmed. -/
def confirm (t : FleetTarget) : FleetTarget :=
  if t.ok ∧ t.current ≠ some (p.shown t.key) then
    { t with ok := false, reason := some .modeChanged }
  else t

def targets : List FleetTarget := p.keys.map fun key => p.confirm (p.targetOf key)

end Progression

/-! ## The apply -/

def noWriteKey : String := "no_write_key"

/-- `_Batch.refuse` -/
def refuse : List FleetTarget → Step Unit
  | [] => pure ()
  | t :: rest => do
      if t.ok then
        let _ ← record ⟨t.key, t.name, none, [], .refused, some noWriteKey⟩
        refuse rest
      else refuse rest

/-- `_Batch.done` -/
def doneHost (t : FleetTarget) (status : Status) (detail previous : Option String)
    (row : Option Nat) : Step Result :=
  done t.toTarget status detail previous [] previous row

/-- `set_enforcement_mode`, unless the store was switched to another PCE meanwhile. -/
def setEnforcementMode (gen : Nat) (key mode : String) : Step Unit :=
  step fun s a => (if a.ident.generation = gen then s.log (.inventoried key mode) else s, ())

namespace Progression

variable (py : Python) (p : Progression)

/-- What a write of the target mode sends. -/
def modeBody : Json := .obj [("enforcement_mode", .str p.target)]

/-- The write: the intent first, then the call, and its answer on the same row. -/
def writeMode (gen : Nat) (t : FleetTarget) (previous : Option String) : Step Result := do
  let row ← record ⟨t.key, t.name, previous, [], .pending, none⟩
  match ← put t.key p.modeBody with
  | .lost error => doneHost t .unknown (some error) previous (some row)
  | .answered status text _ =>
      if accepted status then
        let result ← doneHost t .ok none previous (some row)
        setEnforcementMode gen t.key p.target
        pure result
      else doneHost t .failed (some (detailOf py status text)) previous (some row)

/-- The checks between the read of a workload and its write. -/
def checkMode (ident : Ident) (gen : Nat) (t : FleetTarget) (body : Json) : Step Result := do
  let live := body.get "enforcement_mode"
  let previous := textOf? py live
  let now ← readIdent
  if now ≠ ident then doneHost t .failed (some pceChanged) previous none
  else if isFalse (body.get "managed") then
    doneHost t .skipped (some Reason.unmanaged.text) previous none
  else if !isText (p.shown t.key) live then
    doneHost t .skipped (some Reason.modeChanged.text) previous none
  else p.writeMode py gen t previous

/-- One target of the loop. -/
def handle (ident : Ident) (gen : Nat) (t : FleetTarget) : Step (Except Raised Result) := do
  let now ← readIdent
  if now ≠ ident then returning (doneHost t .failed (some pceChanged) none none)
  else if !t.ok then
    returning (doneHost t .skipped (t.reason.map Reason.text) t.current none)
  else
    match ← get t.key with
    | .lost error => returning (doneHost t .failed (some error) none none)
    | .answered status text json =>
        match jsonOf 200 status json with
        | .error e => pure (.error e)
        | .ok body =>
            if body.isObj then returning (p.checkMode py ident gen t body)
            else returning (doneHost t .failed (some (detailOf py status text)) none none)

/-- `_apply` -/
def apply : Step (Except Raised FleetOutcome) := do
  let ident ← readIdent
  if !p.writeKey then
    refuse p.targets
    pure (.error .noWriteKey)
  else
    let gen ← readGeneration
    match ← forEach (p.handle py ident gen) p.targets with
    | .error e => pure (.error e)
    | .ok results => pure (.ok ⟨p.target, results⟩)

end Progression

/-! ## What a write of a mode has behind it -/

/-- A workload that was answered with 200 and a body that is not JSON. -/
def Event.notJson : Event → Bool
  | .got _ (.answered status _ none) => status = 200
  | _ => false

namespace Progression

variable (py : Python) (p : Progression)

/-- A write comes after three steps: the workload was read and had the mode shown, the configured
PCE was still the first one, and a pending row of the host was put on record. -/
def Confirmed (before : List Event) : Event → Prop
  | .put key body _ => ∃ start text workload id row,
      before.head? = some (.identRead start) ∧
        [.got key (.answered 200 text (some workload)), .identRead start, .recorded id row]
          <:+ before ∧
        row.workloadHref = key ∧ row.result = .pending ∧
        workload.get "enforcement_mode" = .str (p.shown key) ∧ body = p.modeBody
  | _ => True

/-- The apply of a progression that began under this PCE. -/
def discipline (ident : Ident) : Discipline where
  Justified := p.Confirmed
  Base events := events.head? = some (.identRead ident) ∧ ∀ e ∈ events, e.notJson = false
  Fine e := e.notJson = false
  justified_of_not_put before e he := by cases e <;> trivial
  base_snoc events e := by
    rintro ⟨hfirst, hjson⟩ he
    refine ⟨head?_snoc hfirst e, ?_⟩
    intro e' he'
    rcases List.mem_append.1 he' with he' | he'
    · exact hjson e' he'
    · exact List.mem_singleton.1 he' ▸ he
  fine_of_not_reading e he := by cases e <;> trivial

variable {py p} {ident : Ident} {gen : Nat} {t : FleetTarget} {results : List Result}

theorem writes_doneHost_new {recent : List Event} {status : Status}
    {detail previous : Option String} (hfine : ∀ e ∈ recent, e.notJson = false) :
    Writes (p.discipline ident) (Held (p.discipline ident) none results
        (Since (p.discipline ident) recent))
      (doneHost t status detail previous none) (HasResult (p.discipline ident) results t.key) :=
  writes_done_new hfine

/-- The change of the inventory leaves the result as it is. -/
theorem writes_setEnforcementMode {mode : String} {result : Result} (hkey : result.key = t.key) :
    Writes (p.discipline ident) (HasResult (p.discipline ident) results t.key result)
      (setEnforcementMode gen t.key mode)
      fun _ => HasResult (p.discipline ident) results t.key result := by
  refine Program.safe_weaken (P := Held (p.discipline ident) none (results ++ [result])
    (p.discipline ident).Base) (writes_step ?_) (fun s hs => hs.2) fun _ _ hs => hs
  intro s a hs
  dsimp only
  split
  · have hsnoc := hs.inOrder.snoc ((p.discipline ident).justified_of_not_put _
      (.inventoried t.key mode) rfl)
    exact ⟨hsnoc, hkey, hsnoc, hs.settled.log rfl, (p.discipline ident).base_snoc _ _ hs.log rfl⟩
  · exact ⟨hs.inOrder, hkey, hs⟩

/-- The write itself, after a read that found the mode shown. -/
theorem writes_writeMode {text : String} {workload : Json} {previous : Option String}
    {recent : List Event} (hshown : workload.get "enforcement_mode" = .str (p.shown t.key))
    (hrecent : [.got t.key (.answered 200 text (some workload)), .identRead ident] <:+ recent)
    (hfine : ∀ e ∈ recent, e.notJson = false) :
    Writes (p.discipline ident) (Held (p.discipline ident) none results
        (Since (p.discipline ident) recent))
      (p.writeMode py gen t previous) (HasResult (p.discipline ident) results t.key) := by
  obtain ⟨row, hrow⟩ : ∃ row : ActionRow,
    row = ⟨t.key, t.name, previous, [], .pending, none⟩ := ⟨_, rfl⟩
  unfold writeMode
  rw [← hrow]
  refine Program.safe_bind (writes_record row) fun id => ?_
  -- the log now ends with what justifies the write
  have hput : ∀ events reply,
      Since (p.discipline ident) (recent ++ [.recorded id row]) events →
        p.Confirmed events (.put t.key p.modeBody reply) := by
    rintro events reply ⟨earlier, rfl, hfirst, -⟩
    refine ⟨ident, text, workload, id, row, ?_, ?_, by rw [hrow], by rw [hrow], hshown, rfl⟩
    · rw [List.head?_append, hfirst]
      rfl
    · exact (suffix_snoc hrecent _).trans (List.suffix_append _ _)
  have hfine' : ∀ reply, ∀ e ∈ recent ++ [.recorded id row] ++ [.put t.key p.modeBody reply],
      e.notJson = false := by
    intro reply e he
    simp only [List.mem_append, List.mem_singleton] at he
    obtain (he | rfl) | rfl := he
    · exact hfine e he
    · rfl
    · rfl
  have hopen : row.workloadHref = t.key := by rw [hrow]
  refine Program.safe_bind (writes_put hput) fun reply => ?_
  cases reply with
  | lost error => exact writes_done_open hopen (hfine' _)
  | answered status text' json =>
      dsimp only
      split
      · -- done: the inventory is told, and nothing else changes
        refine Program.safe_bind (writes_done_open hopen (hfine' _)) fun result => ?_
        refine Program.safe_fact (c := result.key = t.key) (fun s hs => hs.1) fun hkey => ?_
        refine Program.safe_bind (Q := fun _ => HasResult (p.discipline ident) results t.key result)
          ?_ fun _ => Program.safe_pure fun s hs => hs
        exact writes_setEnforcementMode hkey
      · exact writes_done_open hopen (hfine' _)

/-- The checks: only a workload whose mode is the one shown, under the same PCE, is written. -/
theorem writes_checkMode {text : String} {workload : Json} {recent : List Event}
    (hrecent : [.got t.key (.answered 200 text (some workload))] <:+ recent)
    (hfine : ∀ e ∈ recent, e.notJson = false) :
    Writes (p.discipline ident) (Held (p.discipline ident) none results
        (Since (p.discipline ident) recent))
      (p.checkMode py ident gen t workload) (HasResult (p.discipline ident) results t.key) := by
  unfold checkMode
  refine Program.safe_bind writes_readIdent fun now => ?_
  have hfine' : ∀ e ∈ recent ++ [.identRead now], e.notJson = false := by
    intro e he
    rcases List.mem_append.1 he with he | he
    · exact hfine e he
    · exact List.mem_singleton.1 he ▸ rfl
  split
  · exact writes_doneHost_new hfine'
  · next hsame =>
    obtain rfl : now = ident := not_not.1 hsame
    split
    · exact writes_doneHost_new hfine'
    · split
      · exact writes_doneHost_new hfine'
      · next hlive =>
        have hshown : isText (p.shown t.key) (workload.get "enforcement_mode") = true := by
          simpa using hlive
        exact writes_writeMode (isText_iff.1 hshown) (suffix_snoc hrecent _) hfine'

/-- One target: its result, or an answer that is not JSON. -/
theorem writes_handle (t : FleetTarget) (results : List Result) :
    Writes (p.discipline ident)
      (Held (p.discipline ident) none results (p.discipline ident).Base)
      (p.handle py ident gen t) (Handled (p.discipline ident) results t.key) := by
  have hstart : ∀ s, Held (p.discipline ident) none results (p.discipline ident).Base s →
      Held (p.discipline ident) none results (Since (p.discipline ident) []) s :=
    fun s hs => ⟨hs.inOrder, hs.settled, since_nil hs.log⟩
  unfold handle
  refine Program.safe_bind (Program.safe_weaken writes_readIdent hstart fun _ _ h => h)
    fun now => ?_
  have hread : ∀ e ∈ [] ++ [Event.identRead now], e.notJson = false := by simp [Event.notJson]
  split
  · exact writes_returning (writes_doneHost_new hread)
  split
  · exact writes_returning (writes_doneHost_new hread)
  refine Program.safe_bind (writes_get t.key) fun reply => ?_
  have hgot : ∀ reply, (Event.got t.key reply).notJson = false →
      ∀ e ∈ [] ++ [Event.identRead now] ++ [.got t.key reply], e.notJson = false := by
    intro reply hreply e he
    rcases List.mem_append.1 he with he | he
    · exact hread e he
    · exact List.mem_singleton.1 he ▸ hreply
  cases reply with
  | lost error => exact writes_returning (writes_doneHost_new (hgot _ rfl))
  | answered status text json =>
      dsimp only
      by_cases hstatus : status = 200
      · subst hstatus
        cases json with
        | none =>
            -- the exception that ends the apply
            apply Program.safe_pure
            rintro s ⟨hinOrder, -, hlog⟩
            obtain ⟨before, hevents, hbase⟩ := hlog.base_before hread
            exact ⟨hinOrder, before, t.key, _, hevents, hbase, Bool.noConfusion⟩
        | some body =>
            rw [jsonOf_some]
            dsimp only
            split
            · exact writes_returning (writes_checkMode (List.suffix_append _ _) (hgot _ rfl))
            · exact writes_returning (writes_doneHost_new (hgot _ rfl))
      · have hreply : (Event.got t.key (.answered status text json)).notJson = false := by
          cases json <;> simp [Event.notJson, hstatus]
        rw [jsonOf_of_ne hstatus]
        exact writes_returning (writes_doneHost_new (hgot _ hreply))

/-! ## The whole apply -/

/-- The hosts that are refused are put on record, and nothing is written. -/
theorem writes_refuse (targets : List FleetTarget) :
    Program.Safe (fun _ => True) (fun _ w => InOrder p.Confirmed w.events)
      (fun s => InOrder p.Confirmed s.events) (refuse targets)
      fun _ s => InOrder p.Confirmed s.events := by
  induction targets with
  | nil => exact Program.safe_pure fun s hs => hs
  | cons t targets ih =>
      unfold refuse
      split
      · refine Program.safe_bind ?_ fun _ => ih
        apply Program.safe_act
        intro s a _ hs
        have hsnoc : ∀ row, InOrder p.Confirmed
            ((a.others.foldl State.outside s).record row).events := by
          intro row
          refine InOrder.snoc ?_ trivial
          rw [s.events_outsides]
          exact hs
        exact ⟨hsnoc _, hsnoc _⟩
      · exact ih

/-- What a progression needs to end with its results: the write key, and answers that are JSON. -/
def CanEnd (p : Progression) (events : List Event) : Prop :=
  p.writeKey = true ∧ ∀ e ∈ events, e.notJson = false

theorem writes_apply (py : Python) (p : Progression) :
    Program.Safe (fun _ => True) (fun _ w => InOrder p.Confirmed w.events)
      (fun s => s.events = []) (p.apply py)
      (EndsAs p.Confirmed FleetOutcome.results (p.targets.map fun t => t.key) p.CanEnd) := by
  unfold apply
  refine Program.safe_bind (Q := fun ident =>
    Held (p.discipline ident) none [] (p.discipline ident).Base) ?_ fun ident => ?_
  · -- the first event is the read of what is configured
    apply Program.safe_act
    intro s a _ hs
    have hevents : ((a.others.foldl State.outside s).log (.identRead a.ident)).events =
        [.identRead a.ident] := by
      unfold State.log
      rw [s.events_outsides, hs]
      rfl
    have hlog : InOrder p.Confirmed
        ((a.others.foldl State.outside s).log (.identRead a.ident)).events := by
      rw [hevents]
      exact (inOrder_nil p.Confirmed).snoc trivial
    refine ⟨hlog, hlog, (settled_nil ((s.events_outsides a.others).trans hs)).log rfl, ?_⟩
    change ((a.others.foldl State.outside s).log (.identRead a.ident)).events.head? = _ ∧ _
    rw [hevents]
    exact ⟨rfl, by simp [Event.notJson]⟩
  · split
    · next hkey =>
      have hkey : ¬ p.writeKey = true := by simpa using hkey
      refine Program.safe_bind (Program.safe_weaken (writes_refuse p.targets)
        (fun s hs => hs.inOrder) fun _ _ h => h) fun _ => ?_
      exact Program.safe_pure fun s hs => ⟨hs, fun hcan => hkey hcan.1⟩
    · next hkey =>
      have hkey : p.writeKey = true := by simpa using hkey
      refine Program.safe_bind (Q := fun _ =>
        Held (p.discipline ident) none [] (p.discipline ident).Base)
        (writes_step fun s a hs => ⟨hs.inOrder, hs⟩) fun gen => ?_
      refine Program.safe_bind (writes_forEach (fun t => t.key)
        (fun t _ results => writes_handle t results) []) fun outcome => ?_
      cases outcome with
      | error e =>
          apply Program.safe_pure
          rintro s ⟨hinOrder, before, key, reply, hevents, -, hbad⟩
          refine ⟨hinOrder, fun hcan => hbad (hcan.2 _ ?_)⟩
          rw [hevents]
          exact List.mem_append_right _ List.mem_cons_self
      | ok results =>
          apply Program.safe_pure
          rintro s ⟨hkeys, hs⟩
          exact ⟨hs.inOrder, ⟨hkey, hs.log.2⟩, hkeys, hs.settled⟩

/-! ## Its steps -/

theorem endsBy_writeMode (gen : Nat) (t : FleetTarget) (previous : Option String) :
    Program.EndsBy 4 (p.writeMode py gen t previous) := by
  have hdone : ∀ status detail row, Program.EndsBy 2 (doneHost t status detail previous row) :=
    fun _ _ _ => (endsBy_done _ _ _ _ _ _ _).mono (by omega)
  unfold writeMode
  refine (endsBy_step _).bind (k := 3) fun row => (endsBy_step _).bind (k := 2) fun reply => ?_
  cases reply with
  | lost error => exact hdone _ _ _
  | answered status text json =>
      dsimp only
      split
      · refine (endsBy_done _ _ _ _ _ _ _).bind (k := 1) fun result => ?_
        exact (endsBy_step _).bind fun _ => Program.endsBy_pure _
      · exact hdone _ _ _

theorem endsBy_checkMode (ident : Ident) (gen : Nat) (t : FleetTarget) (body : Json) :
    Program.EndsBy 5 (p.checkMode py ident gen t body) := by
  have hdone : ∀ status detail previous,
      Program.EndsBy 4 (doneHost t status detail previous none) :=
    fun _ _ _ => (endsBy_done _ _ _ _ _ _ _).mono (by omega)
  unfold checkMode
  refine (endsBy_step _).bind (k := 4) fun now => ?_
  split
  · exact hdone _ _ _
  split
  · exact hdone _ _ _
  split
  · exact hdone _ _ _
  · exact endsBy_writeMode gen t _

theorem endsBy_handle (ident : Ident) (gen : Nat) (t : FleetTarget) :
    Program.EndsBy 7 (p.handle py ident gen t) := by
  have hdone : ∀ n status detail previous, 1 ≤ n →
      Program.EndsBy n (returning (doneHost t status detail previous none)) :=
    fun _ _ _ _ hn => endsBy_returning ((endsBy_done _ _ _ _ _ _ _).mono hn)
  unfold handle
  refine (endsBy_step _).bind (k := 6) fun now => ?_
  split
  · exact hdone _ _ _ _ (by omega)
  split
  · exact hdone _ _ _ _ (by omega)
  refine (endsBy_step _).bind (k := 5) fun reply => ?_
  cases reply with
  | lost error => exact hdone _ _ _ _ (by omega)
  | answered status text json =>
      dsimp only
      split
      · exact (Program.endsBy_pure _).mono (Nat.zero_le _)
      · split
        · exact endsBy_returning (endsBy_checkMode ident gen t _)
        · exact hdone _ _ _ _ (by omega)

theorem endsBy_refuse (targets : List FleetTarget) :
    Program.EndsBy targets.length (refuse targets) := by
  induction targets with
  | nil => exact Program.endsBy_pure _
  | cons t targets ih =>
      unfold refuse
      split
      · have hlength : (t :: targets).length = 1 + targets.length := Nat.add_comm _ _
        exact hlength ▸ (endsBy_step _).bind fun _ => ih
      · exact ih.mono (Nat.le_succ _)

/-- The apply ends, whatever the answers are. -/
theorem endsBy_apply (py : Python) (p : Progression) :
    Program.EndsBy (1 + (1 + p.targets.length * 7)) (p.apply py) := by
  unfold apply
  refine (endsBy_step _).bind fun ident => ?_
  split
  · refine Program.EndsBy.mono ((endsBy_refuse p.targets).bind fun _ => Program.endsBy_pure _) ?_
    omega
  · refine (endsBy_step _).bind fun gen => ?_
    refine Program.EndsBy.bind (k := 0) (endsBy_forEach (endsBy_handle ident gen) p.targets)
      fun outcome => ?_
    cases outcome with
    | error e => exact Program.endsBy_pure _
    | ok results => exact Program.endsBy_pure _

/-- Every host once. -/
theorem nodup_keys (p : Progression) : (p.targets.map fun t => t.key).Nodup := by
  have hkeys : (p.targets.map fun t => t.key) = p.keys := by
    unfold targets
    rw [List.map_map]
    refine (List.map_congr_left fun key _ => ?_).trans (List.map_id _)
    dsimp only [Function.comp, confirm]
    split <;> rfl
  rw [hkeys]
  exact Tables.nodup_eraseDups _

end Progression

end IllumioOps.PceWrites
