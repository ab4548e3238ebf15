import Mathlib.Logic.Function.Basic

/-!
# Positions in the flow store and its resets

A reset recreates the flow store and then clears the positions taken from it: the watermarks of the alert
evaluations and the cursors of the SIEM destinations, which are in another database. A forwarding run and the
evaluations go on meanwhile. Most of what they write is written after the generation of the store, or the PCE,
was compared; the comparison and the write are not one step, and some writes follow no comparison.

Once a reset is over every position is one of the store there is, as long as nothing in flight while a table is
cleared goes on to write a position of the store before (`current_of_safe`). A position carries the number of
the store it was read from, which the program does not have.
-/

set_option autoImplicit false

namespace IllumioOps.Resets

/-! ## Positions -/

/-- A place in one of the stores that follow each other: an id, a time, or a time with an id. -/
structure Position where
  store : Nat
  place : Nat
  deriving DecidableEq, Repr

/-- `MAX(last_id, :last)` -/
def furthest (p q : Position) : Position := if p.place < q.place then q else p

/-- As far as `reach` among what the store holds behind a position; the position itself where there is
nothing. -/
def onward (store newest : Nat) (last : Position) (reach : Nat) : Position :=
  if last.place < min reach newest then ⟨store, min reach newest⟩ else last

theorem furthest_store {p q : Position} {store : Nat} (hp : p.store = store) (hq : q.store = store) :
    (furthest p q).store = store := by
  unfold furthest
  split
  · exact hq
  · exact hp

theorem onward_store {store newest reach : Nat} {last : Position} (h : last.store = store) :
    (onward store newest last reach).store = store := by
  unfold onward
  split
  · rfl
  · exact h

/-- A row of `siem_cursor` or `alert_eval_state`: a position, and the PCE it belongs to. -/
structure Mark (π : Type) where
  pce : π
  last : Position
  deriving DecidableEq, Repr

inductive EvalSource where
  | events
  | traffic
  | lateral
  | system
  deriving DecidableEq, Repr

/-- How far a reset is: `announced` has moved the generation on, `rebuilt` has recreated the store. -/
inductive ResetPhase where
  | idle
  | announced
  | rebuilt
  | watermarksCleared
  deriving DecidableEq, Repr

variable {κ π : Type}

/-- What the runs share: the settings, the store with the newest places of its tables, and the positions.
`κ` names a destination with one of its sources in the flow store. -/
structure World (κ π : Type) where
  pce : π
  generation : Nat
  store : Nat
  newestRecord : κ → Nat
  newestMark : EvalSource → Nat
  reset : ResetPhase
  cursors : κ → Option (Mark π)
  watermarks : EvalSource → Option (Mark π)

/-! ## Reset -/

inductive ResetStep where
  | announce
  | giveUp
  | rebuild
  | clearWatermarks
  | restartCursors
  deriving DecidableEq, Repr

/-- `restart_flow_cursors`, with the PCE of the settings. -/
def restarted (w : World κ π) : World κ π :=
  { w with cursors := fun k => (w.cursors k).map fun _ => ⟨w.pce, ⟨w.store, 0⟩⟩, reset := .idle }

/-- `_reset`: under the write lock the generation moves on and the store is recreated, or the reset gives up
because the store is in use (`FlowDbBusy`); the positions are cleared afterwards. -/
def ResetStep.apply (w : World κ π) : ResetStep → World κ π
  | .announce =>
      if w.reset = .idle then { w with generation := w.generation + 1, reset := .announced } else w
  | .giveUp => if w.reset = .announced then { w with reset := .idle } else w
  | .rebuild =>
      if w.reset = .announced then
        { w with
          store := w.store + 1
          newestRecord := fun _ => 0
          newestMark := fun _ => 0
          reset := .rebuilt }
      else w
  | .clearWatermarks =>
      if w.reset = .rebuilt then { w with watermarks := fun _ => none, reset := .watermarksCleared } else w
  | .restartCursors => if w.reset = .watermarksCleared then restarted w else w

variable [DecidableEq κ] [DecidableEq π]

/-! ## A forwarding run -/

/-- A batch that was read: how far it was sent, the record that could not be, if there is one, and its last
record. -/
structure Batch where
  consumed : Position
  head : Option Position
  last : Position
  deriving DecidableEq, Repr

/-- Where a run is in `_run_source`, or between two sources. -/
inductive SiemPhase where
  | noting
  | between
  | looking
  | newest
  | starting (newest : Position)
  | reading (last : Position)
  | checking (batch : Batch)
  | advancing (batch : Batch)
  | probing (head last : Position)
  | advancingPast (reached : Position)
  | ended
  deriving DecidableEq, Repr

/-- The run, with the PCE it began with and the generation it noted. -/
structure SiemRun (κ π : Type) where
  key : κ
  pce : π
  generation : Nat
  phase : SiemPhase

/-- What is found on the way: whether the run goes on, how far the records reach, which is the last of the
batch, and which one could not be sent. -/
structure Found where
  more : Bool
  reach : Nat
  batch : Nat
  failed : Option Nat
  deriving DecidableEq, Repr

/-- `siem_store.advance`: nothing where the cursor belongs to another PCE. -/
def advance (w : World κ π) (r : SiemRun κ π) (p : Position) : Option (World κ π) :=
  match w.cursors r.key with
  | some c =>
      if c.pce = r.pce then
        some { w with cursors := Function.update w.cursors r.key (some ⟨c.pce, furthest c.last p⟩) }
      else none
  | none => none

/-- The next batch: it is read from the store there is now. -/
def readBatch (w : World κ π) (key : κ) (last : Position) (found : Found) : Batch :=
  let reached := onward w.store (w.newestRecord key) last
  ⟨reached found.reach, found.failed.map reached, reached found.batch⟩

/-- Where the run goes after a batch: the next one, the record that failed, or the next source. -/
def afterBatch (batch : Batch) (more : Bool) : SiemPhase :=
  if more then
    match batch.head with
    | none => .reading batch.consumed
    | some head => .probing head batch.last
  else .between

/-- A record behind the head that went through: one of the batch, or one read ahead, from the store there is
now and whatever its generation. The head itself where the run does not wait for one. -/
def probed (w : World κ π) (key : κ) (head last : Position) (found : Found) : Position :=
  if found.more then onward last.store last.place head found.reach
  else onward w.store (w.newestRecord key) head found.reach

/-- One step of a run. -/
def siemStep (w : World κ π) (r : SiemRun κ π) (found : Found) : World κ π × SiemRun κ π :=
  match r.phase with
  | .noting => (w, { r with generation := w.generation, phase := .between })
  | .between => (w, { r with phase := .ended })
  | .looking =>
      match w.cursors r.key with
      | some c => (w, { r with phase := if c.pce = r.pce then .reading c.last else .newest })
      | none => (w, { r with phase := .newest })
  | .newest => (w, { r with phase := .starting ⟨w.store, w.newestRecord r.key⟩ })
  | .starting newest =>
      ({ w with cursors := Function.update w.cursors r.key (some ⟨r.pce, newest⟩) },
        { r with phase := .between })
  | .reading last =>
      if found.more ∧ last.place < w.newestRecord r.key then
        (w, { r with phase := .checking (readBatch w r.key last found) })
      else (w, { r with phase := .between })
  | .checking batch =>
      (w, { r with phase := if w.generation = r.generation then .advancing batch else .ended })
  | .advancing batch =>
      match advance w r batch.consumed with
      | none => (w, { r with phase := .between })
      | some w' => (w', { r with phase := afterBatch batch found.more })
  | .probing head last => (w, { r with phase := .advancingPast (probed w r.key head last found) })
  | .advancingPast reached => ((advance w r reached).getD w, { r with phase := .between })
  | .ended => (w, r)

/-! ## An evaluation -/

/-- What an evaluation does: it looks at its watermark, makes its recorder, which notes the generation, reads,
asks for the newest place, compares PCE and generation, writes the watermark, or sets a first one. -/
inductive Instr where
  | look
  | record
  | read
  | newest
  | check
  | write
  | set
  deriving DecidableEq, Repr

/-- The order of each of the four. -/
def script : EvalSource → List Instr
  | .events | .lateral => [.look, .record, .read, .check, .write]
  | .traffic => [.record, .newest, .look, .check, .write]
  | .system => [.look, .read, .record, .check, .write]

/-- Without a watermark of this PCE one is set; the system checks go on with it. -/
def firstScript (rest : List Instr) : EvalSource → List Instr
  | .events | .lateral => [.newest, .set]
  | .traffic => [.set]
  | .system => [.newest, .set, .newest] ++ rest

/-- Events and detections are written batch by batch. -/
def batched (source : EvalSource) : Bool := source = .events ∨ source = .lateral

structure EvalRun (π : Type) where
  source : EvalSource
  pce : π
  generation : Nat
  todo : List Instr
  found : Position

def setWatermark (w : World κ π) (r : EvalRun π) : World κ π :=
  { w with watermarks := Function.update w.watermarks r.source (some ⟨r.pce, r.found⟩) }

/-- One step of an evaluation. -/
def evalStep (w : World κ π) (r : EvalRun π) (found : Found) : World κ π × EvalRun π :=
  match r.todo with
  | [] => (w, r)
  | .look :: rest =>
      match (w.watermarks r.source).filter fun m => m.pce = r.pce with
      | some m =>
          (w, { r with
            todo := rest, found := if r.source = .traffic then furthest m.last r.found else m.last })
      | none => (w, { r with todo := if found.more then firstScript rest r.source else [] })
  | .record :: rest => (w, { r with todo := rest, generation := w.generation })
  | .read :: rest =>
      if found.more then
        (w, { r with todo := rest, found := onward w.store (w.newestMark r.source) r.found found.reach })
      else (w, { r with todo := [] })
  | .newest :: rest => (w, { r with todo := rest, found := ⟨w.store, w.newestMark r.source⟩ })
  | .check :: rest =>
      (w, { r with todo := if w.pce = r.pce ∧ w.generation = r.generation then rest else [] })
  | .write :: rest =>
      (setWatermark w r,
        { r with todo := if found.more ∧ batched r.source then [.read, .check, .write] else rest })
  | .set :: rest => (setWatermark w r, { r with todo := rest })

/-! ## The system -/

/-- One forwarding run and one evaluation of each source at a time, by their locks. -/
structure System (κ π : Type) where
  world : World κ π
  siem : SiemRun κ π
  evals : EvalSource → EvalRun π

/-- What can happen next: the settings name a PCE, records are collected, the reset takes a step, a run begins,
takes a source, takes a step, or ends with an exception. -/
inductive Action (κ π : Type) where
  | saved (pce : π)
  | collected (record : κ → Nat) (mark : EvalSource → Nat)
  | reset (step : ResetStep)
  | siemBegins
  | siemTakes (key : κ)
  | siem (found : Found)
  | siemFails
  | evalBegins (source : EvalSource)
  | eval (source : EvalSource) (found : Found)
  | evalFails (source : EvalSource)

def EvalRun.begun (w : World κ π) (source : EvalSource) : EvalRun π :=
  ⟨source, w.pce, w.generation, script source, ⟨w.store, 0⟩⟩

def System.setEval (s : System κ π) (source : EvalSource) (r : EvalRun π) : System κ π :=
  { s with evals := Function.update s.evals source r }

def Action.apply (s : System κ π) : Action κ π → System κ π
  | .saved pce => { s with world := { s.world with pce := pce } }
  | .collected record mark =>
      { s with
        world := { s.world with
          newestRecord := fun k => max (s.world.newestRecord k) (record k)
          newestMark := fun source => max (s.world.newestMark source) (mark source) } }
  | .reset step => { s with world := step.apply s.world }
  | .siemBegins =>
      if s.siem.phase = .ended then
        { s with siem := { s.siem with pce := s.world.pce, phase := .noting } }
      else s
  | .siemTakes key =>
      if s.siem.phase = .between then { s with siem := { s.siem with key := key, phase := .looking } } else s
  | .siem found =>
      { s with world := (siemStep s.world s.siem found).1, siem := (siemStep s.world s.siem found).2 }
  | .siemFails => { s with siem := { s.siem with phase := .ended } }
  | .evalBegins source =>
      if (s.evals source).todo = [] then s.setEval source (EvalRun.begun s.world source) else s
  | .eval source found =>
      let next := evalStep s.world (s.evals source) found
      { s with world := next.1 }.setEval source next.2
  | .evalFails source => s.setEval source { s.evals source with todo := [] }

def after (s : System κ π) (actions : List (Action κ π)) : System κ π := actions.foldl Action.apply s

section
attribute [local simp] Action.apply siemStep ResetStep.apply
end

/-- An installation before its first collection. -/
def installed (pce : π) (key : κ) : System κ π where
  world := ⟨pce, 0, 0, fun _ => 0, fun _ => 0, .idle, fun _ => none, fun _ => none⟩
  siem := ⟨key, pce, 0, .ended⟩
  evals := fun source => ⟨source, pce, 0, [], ⟨0, 0⟩⟩

/-! ## Positions of the store there is -/

def World.CursorsCurrent (w : World κ π) : Prop :=
  ∀ key c, w.cursors key = some c → c.last.store = w.store

def World.MarksCurrent (w : World κ π) : Prop :=
  ∀ source m, w.watermarks source = some m → m.last.store = w.store

def Batch.Of (store : Nat) (batch : Batch) : Prop :=
  batch.consumed.store = store ∧ (∀ head, batch.head = some head → head.store = store) ∧
    batch.last.store = store

/-- The run's cursor is another PCE's by now, and `advance` leaves it. -/
def SiemRun.Displaced (w : World κ π) (r : SiemRun κ π) : Prop :=
  ∀ c, w.cursors r.key = some c → c.pce ≠ r.pce

/-- What the run still writes of what it holds is of the store there is. Before the comparison an earlier
generation is enough. -/
def SiemRun.Settled (w : World κ π) (r : SiemRun κ π) : Prop :=
  match r.phase with
  | .noting | .between | .looking | .newest | .ended => True
  | .starting newest => newest.store = w.store
  | .reading last => r.generation < w.generation ∨ r.Displaced w ∨ last.store = w.store
  | .checking batch => r.generation < w.generation ∨ r.Displaced w ∨ batch.Of w.store
  | .advancing batch => r.Displaced w ∨ batch.Of w.store
  | .probing head last => r.Displaced w ∨ head.store = w.store ∧ last.store = w.store
  | .advancingPast reached => r.Displaced w ∨ reached.store = w.store

/-- Whether what an evaluation holds is written: nothing takes its place before, and no comparison that fails
(`stale`) comes before. -/
def exposes (source : EvalSource) (stale : Bool) : List Instr → Bool
  | [] => false
  | .look :: _ => source = .traffic
  | .newest :: _ => false
  | .read :: rest => exposes source stale rest
  | .record :: rest => exposes source false rest
  | .check :: rest => !stale && exposes source stale rest
  | .write :: _ => true
  | .set :: _ => true

/-- The comparison of PCE and generation would fail. -/
def EvalRun.stale (w : World κ π) (r : EvalRun π) : Bool := r.generation < w.generation ∨ w.pce ≠ r.pce

def EvalRun.Settled (w : World κ π) (r : EvalRun π) : Prop :=
  exposes r.source (r.stale w) r.todo → r.found.store = w.store

/-! ## One step of a run -/

theorem exposes_of_le {source : EvalSource} {stale stale' : Bool} (hle : stale' → stale) {todo : List Instr}
    (h : exposes source stale todo) : exposes source stale' todo := by
  induction todo with
  | nil => exact h
  | cons instr rest ih =>
    cases instr with
    | read => exact ih h
    | check =>
      have hall := Bool.and_eq_true_iff.mp h
      have hnot : stale' = false := by
        cases hstale : stale' with
        | false => rfl
        | true => simp [hle hstale] at hall
      have hrest := ih hall.2
      rw [hnot] at hrest ⊢
      exact hrest
    | record => exact h
    | look => exact h
    | newest => exact h
    | write => exact h
    | set => exact h

omit [DecidableEq π] in
/-- A table that holds positions of one store only, after another of them is written. -/
theorem update_current {α : Type} [DecidableEq α] {table : α → Option (Mark π)} {a : α} {m : Mark π}
    {store : Nat} (htable : ∀ b c, table b = some c → c.last.store = store) (hm : m.last.store = store) :
    ∀ b c, Function.update table a (some m) b = some c → c.last.store = store := by
  intro b c hc
  by_cases hb : b = a
  · subst hb
    rw [Function.update_self] at hc
    cases hc
    exact hm
  · rw [Function.update_of_ne hb] at hc
    exact htable b c hc

omit [DecidableEq κ] in
/-- An evaluation writes watermarks only. -/
theorem evalStep_world (w : World κ π) (r : EvalRun π) (found : Found) :
    ∃ watermarks, (evalStep w r found).1 = { w with watermarks := watermarks } := by
  unfold evalStep
  split
  case h_2 => split <;> exact ⟨_, rfl⟩
  case h_4 => split <;> exact ⟨_, rfl⟩
  all_goals exact ⟨_, rfl⟩

omit [DecidableEq κ] [DecidableEq π] in
theorem setWatermark_current {w : World κ π} {r : EvalRun π} (hw : w.MarksCurrent)
    (hfound : r.found.store = w.store) : (setWatermark w r).MarksCurrent :=
  update_current hw hfound

omit [DecidableEq κ] in
/-- An evaluation that holds only what it may write leaves only positions of the store there is. -/
theorem evalStep_settled {w : World κ π} {r : EvalRun π} (found : Found) (hw : w.MarksCurrent)
    (hr : r.Settled w) :
    (evalStep w r found).1.MarksCurrent ∧ (evalStep w r found).2.Settled w := by
  obtain ⟨source, pce, generation, todo, held⟩ := r
  cases todo with
  | nil => exact ⟨hw, hr⟩
  | cons instr rest =>
    cases instr with
    | look =>
      simp only [evalStep]
      split
      · rename_i m hm
        have hlast : m.last.store = w.store := hw source m (Option.eq_some_of_filter_eq_some hm)
        refine ⟨hw, fun _ => ?_⟩
        dsimp only
        split
        · rename_i htraffic
          -- the newest place was asked for before the watermark was looked at
          exact furthest_store hlast (hr (by simpa [exposes] using htraffic))
        · exact hlast
      · refine ⟨hw, fun hexposed => ?_⟩
        dsimp only at hexposed ⊢
        split at hexposed
        · cases source with
          | traffic => exact hr rfl
          | events => cases hexposed
          | lateral => cases hexposed
          | system => cases hexposed
        · cases hexposed
    | record =>
      -- the generation is noted now, so that the comparison fails for the PCE only
      refine ⟨hw, fun hexposed => ?_⟩
      have hrest : exposes source false rest := exposes_of_le (by simp) hexposed
      exact hr hrest
    | read =>
      simp only [evalStep]
      split
      · exact ⟨hw, fun hexposed => onward_store (hr hexposed)⟩
      · exact ⟨hw, fun hexposed => by cases hexposed⟩
    | newest => exact ⟨hw, fun _ => rfl⟩
    | check =>
      refine ⟨hw, fun hexposed => ?_⟩
      simp only [evalStep] at hexposed ⊢
      split at hexposed
      · rename_i hsame
        have hstale : EvalRun.stale w ⟨source, pce, generation, rest, held⟩ = false := by
          simp [EvalRun.stale, hsame]
        have hrest : exposes source false rest := by
          rw [← hstale]
          exact hexposed
        refine hr ?_
        rw [show EvalRun.stale w ⟨source, pce, generation, .check :: rest, held⟩ = false from hstale]
        exact hrest
      · cases hexposed
    | write => exact ⟨setWatermark_current hw (hr rfl), fun _ => hr rfl⟩
    | set => exact ⟨setWatermark_current hw (hr rfl), fun _ => hr rfl⟩

theorem advance_eq_some {w w' : World κ π} {r : SiemRun κ π} {p : Position} (h : advance w r p = some w') :
    ∃ c, w.cursors r.key = some c ∧ c.pce = r.pce ∧
      w' = { w with cursors := Function.update w.cursors r.key (some ⟨c.pce, furthest c.last p⟩) } := by
  unfold advance at h
  split at h
  · rename_i c hc
    split at h
    · exact ⟨c, hc, ‹_›, (Option.some.inj h).symm⟩
    · cases h
  · cases h

theorem not_displaced {w w' : World κ π} {r : SiemRun κ π} {p : Position} (h : advance w r p = some w') :
    ¬ r.Displaced w := by
  obtain ⟨c, hc, hpce, -⟩ := advance_eq_some h
  exact fun hdisplaced => hdisplaced c hc hpce

theorem advance_current {w w' : World κ π} {r : SiemRun κ π} {p : Position} (hw : w.CursorsCurrent)
    (hp : p.store = w.store) (h : advance w r p = some w') : w'.CursorsCurrent := by
  obtain ⟨c, hc, -, rfl⟩ := advance_eq_some h
  exact update_current hw (furthest_store (hw r.key c hc) hp)

theorem advance_store {w w' : World κ π} {r : SiemRun κ π} {p : Position} (h : advance w r p = some w') :
    w'.store = w.store := by
  obtain ⟨c, -, -, rfl⟩ := advance_eq_some h
  rfl

/-- A forwarding run writes cursors only. -/
theorem siemStep_world (w : World κ π) (r : SiemRun κ π) (found : Found) :
    ∃ cursors, (siemStep w r found).1 = { w with cursors := cursors } := by
  have hadvance : ∀ p w', advance w r p = some w' → ∃ cursors, w' = { w with cursors := cursors } :=
    fun p w' h => by
      obtain ⟨c, -, -, rfl⟩ := advance_eq_some h
      exact ⟨_, rfl⟩
  unfold siemStep
  split
  case h_3 => split <;> exact ⟨_, rfl⟩
  case h_6 => split <;> exact ⟨_, rfl⟩
  case h_8 =>
    split
    · exact ⟨_, rfl⟩
    · exact hadvance _ _ ‹_›
  case h_10 =>
    cases hnext : advance w r _ with
    | none => exact ⟨_, rfl⟩
    | some w' => exact hadvance _ _ hnext
  all_goals exact ⟨_, rfl⟩

omit [DecidableEq κ] [DecidableEq π] in
theorem readBatch_of {w : World κ π} {key : κ} {last : Position} (found : Found) (h : last.store = w.store) :
    (readBatch w key last found).Of w.store := by
  refine ⟨onward_store h, fun head hhead => ?_, onward_store h⟩
  obtain ⟨id, -, rfl⟩ := Option.map_eq_some_iff.mp hhead
  exact onward_store h

omit [DecidableEq κ] [DecidableEq π] in
theorem probed_store {w : World κ π} {key : κ} {head last : Position} (found : Found)
    (hhead : head.store = w.store) (hlast : last.store = w.store) :
    (probed w key head last found).store = w.store := by
  unfold probed
  split
  · rw [hlast]
    exact onward_store hhead
  · exact onward_store hhead

omit [DecidableEq κ] [DecidableEq π] in
theorem afterBatch_settled {w : World κ π} {batch : Batch} (r : SiemRun κ π) (more : Bool)
    (hbatch : batch.Of w.store) : { r with phase := afterBatch batch more }.Settled w := by
  unfold afterBatch
  split
  · split
    · exact Or.inr (Or.inr hbatch.1)
    · exact Or.inr ⟨hbatch.2.1 _ ‹_›, hbatch.2.2⟩
  · trivial

/-- A forwarding run that holds only what it may write leaves only positions of the store there is. -/
theorem siemStep_settled {w : World κ π} {r : SiemRun κ π} (found : Found) (hw : w.CursorsCurrent)
    (hr : r.Settled w) :
    (siemStep w r found).1.CursorsCurrent ∧ (siemStep w r found).2.Settled (siemStep w r found).1 := by
  obtain ⟨key, pce, generation, phase⟩ := r
  cases phase with
  | noting => exact ⟨hw, trivial⟩
  | between => exact ⟨hw, trivial⟩
  | newest => exact ⟨hw, rfl⟩
  | ended => exact ⟨hw, trivial⟩
  | looking =>
    simp only [siemStep]
    split
    · rename_i c hc
      refine ⟨hw, ?_⟩
      dsimp only
      split
      · exact Or.inr (Or.inr (hw key c hc))
      · trivial
    · exact ⟨hw, trivial⟩
  | starting newest => exact ⟨update_current hw hr, trivial⟩
  | reading last =>
    simp only [siemStep]
    split
    · exact ⟨hw, hr.imp_right (Or.imp_right (readBatch_of found))⟩
    · exact ⟨hw, trivial⟩
  | checking batch =>
    refine ⟨hw, ?_⟩
    simp only [siemStep]
    split
    · rename_i hsame
      exact hr.resolve_left fun hlt => absurd hsame (Nat.ne_of_gt hlt)
    · trivial
  | advancing batch =>
    simp only [siemStep]
    split
    · exact ⟨hw, trivial⟩
    · rename_i w' hnext
      have hbatch : batch.Of w.store := hr.resolve_left (not_displaced hnext)
      have hbatch' : batch.Of w'.store := advance_store hnext ▸ hbatch
      exact ⟨advance_current hw hbatch.1 hnext, afterBatch_settled ⟨key, pce, generation, .advancing batch⟩ _ hbatch'⟩
  | probing head last =>
    exact ⟨hw, hr.imp_right fun h => probed_store found h.1 h.2⟩
  | advancingPast reached =>
    simp only [siemStep]
    cases hnext : advance w ⟨key, pce, generation, .advancingPast reached⟩ reached with
    | none => exact ⟨hw, trivial⟩
    | some w' => exact ⟨advance_current hw (hr.resolve_left (not_displaced hnext)) hnext, trivial⟩

/-! ## A whole run -/

omit [DecidableEq κ] [DecidableEq π] in
/-- What a forwarding run may write, it may still write after the generation moved on. -/
theorem SiemRun.Settled.later {w w' : World κ π} {r : SiemRun κ π} (h : r.Settled w) (hstore : w'.store = w.store)
    (hcursors : w'.cursors = w.cursors) (hgeneration : w.generation ≤ w'.generation) : r.Settled w' := by
  have hdisplaced : r.Displaced w → r.Displaced w' := fun hd => by
    unfold SiemRun.Displaced
    rwa [hcursors]
  obtain ⟨key, pce, generation, phase⟩ := r
  cases phase <;> simp only [SiemRun.Settled, hstore] at h ⊢
  case starting => exact h
  case reading => exact h.imp (fun hlt => Nat.lt_of_lt_of_le hlt hgeneration) (Or.imp_left hdisplaced)
  case checking => exact h.imp (fun hlt => Nat.lt_of_lt_of_le hlt hgeneration) (Or.imp_left hdisplaced)
  case advancing => exact h.imp_left hdisplaced
  case probing => exact h.imp_left hdisplaced
  case advancingPast => exact h.imp_left hdisplaced

omit [DecidableEq κ] in
theorem EvalRun.Settled.later {w w' : World κ π} {r : EvalRun π} (h : r.Settled w) (hstore : w'.store = w.store)
    (hpce : w'.pce = w.pce) (hgeneration : w.generation ≤ w'.generation) : r.Settled w' := by
  intro hexposed
  rw [hstore]
  refine h (exposes_of_le (fun hstale => ?_) hexposed)
  simp only [EvalRun.stale, decide_eq_true_eq, hpce] at hstale ⊢
  exact hstale.imp_left fun hlt => Nat.lt_of_lt_of_le hlt hgeneration

/-- What holds between the steps. The cursors are those of the store until it is recreated, and again once they
are restarted; the watermarks again once they are cleared. -/
structure Tidy (s : System κ π) : Prop where
  cursors : s.world.reset = .idle ∨ s.world.reset = .announced →
    s.world.CursorsCurrent ∧ s.siem.Settled s.world
  marks : s.world.reset ≠ .rebuilt → s.world.MarksCurrent ∧ ∀ source, (s.evals source).Settled s.world

/-- When a table is cleared, nothing in flight goes on to write a position of an earlier store into it; and the
settings are not set back to the PCE of an evaluation that would. -/
def Action.Safe (s : System κ π) : Action κ π → Prop
  | .saved pce => s.world.reset ≠ .rebuilt → ∀ source, (s.evals source).Settled { s.world with pce := pce }
  | .reset .clearWatermarks => s.world.reset = .rebuilt → ∀ source, (s.evals source).Settled s.world
  | .reset .restartCursors => s.world.reset = .watermarksCleared → s.siem.Settled (restarted s.world)
  | _ => True

omit [DecidableEq κ] [DecidableEq π] in
theorem restarted_current (w : World κ π) : (restarted w).CursorsCurrent := by
  intro key c hc
  obtain ⟨c', -, rfl⟩ := Option.map_eq_some_iff.mp hc
  rfl

omit [DecidableEq κ] in
theorem Tidy.resetStep {s : System κ π} (h : Tidy s) (step : ResetStep)
    (hsafe : (Action.reset step : Action κ π).Safe s) : Tidy { s with world := step.apply s.world } := by
  cases step with
  | announce =>
    simp only [ResetStep.apply]
    split
    · rename_i hidle
      have hcursors := h.cursors (Or.inl hidle)
      have hmarks := h.marks (by simp [hidle])
      exact ⟨fun _ => ⟨hcursors.1, hcursors.2.later rfl rfl (Nat.le_succ _)⟩,
        fun _ => ⟨hmarks.1, fun source => (hmarks.2 source).later rfl rfl (Nat.le_succ _)⟩⟩
    · exact h
  | giveUp =>
    simp only [ResetStep.apply]
    split
    · rename_i hannounced
      exact ⟨fun _ => h.cursors (Or.inr hannounced), fun _ => h.marks (by simp [hannounced])⟩
    · exact h
  | rebuild =>
    simp only [ResetStep.apply]
    split
    · exact ⟨fun hphase => by simp at hphase, fun hphase => absurd rfl hphase⟩
    · exact h
  | clearWatermarks =>
    simp only [ResetStep.apply]
    split
    · rename_i hrebuilt
      exact ⟨fun hphase => by simp at hphase, fun _ => ⟨fun _ _ hm => by simp at hm, hsafe hrebuilt⟩⟩
    · exact h
  | restartCursors =>
    simp only [ResetStep.apply]
    split
    · rename_i hcleared
      exact ⟨fun _ => ⟨restarted_current _, hsafe hcleared⟩, fun _ => h.marks (by simp [hcleared])⟩
    · exact h

omit [DecidableEq κ] in
theorem Tidy.setEval {s : System κ π} (h : Tidy s) {source : EvalSource} {r : EvalRun π}
    (hr : s.world.reset ≠ .rebuilt → r.Settled s.world) : Tidy (s.setEval source r) := by
  refine ⟨h.cursors, fun hphase => ⟨(h.marks hphase).1, fun source' => ?_⟩⟩
  by_cases hsource : source' = source
  · subst hsource
    simp only [System.setEval, Function.update_self]
    exact hr hphase
  · simp only [System.setEval, Function.update_of_ne hsource]
    exact (h.marks hphase).2 source'

theorem Tidy.siemStep {s : System κ π} (h : Tidy s) (found : Found) :
    Tidy ((Action.siem found : Action κ π).apply s) := by
  obtain ⟨cursors, hworld⟩ := siemStep_world s.world s.siem found
  constructor
  · intro hphase
    simp only [Action.apply, hworld] at hphase
    have hcursors := h.cursors hphase
    exact siemStep_settled found hcursors.1 hcursors.2
  · intro hphase
    simp only [Action.apply, hworld] at hphase ⊢
    have hmarks := h.marks hphase
    exact ⟨hmarks.1, fun source => (hmarks.2 source).later rfl rfl (Nat.le_refl _)⟩

theorem Tidy.evalStep {s : System κ π} (h : Tidy s) (source : EvalSource) (found : Found) :
    Tidy ((Action.eval source found : Action κ π).apply s) := by
  obtain ⟨watermarks, hworld⟩ := evalStep_world s.world (s.evals source) found
  have hstep : s.world.reset ≠ .rebuilt →
      (Resets.evalStep s.world (s.evals source) found).1.MarksCurrent ∧
        (Resets.evalStep s.world (s.evals source) found).2.Settled s.world := fun hphase =>
    evalStep_settled found (h.marks hphase).1 ((h.marks hphase).2 source)
  simp only [hworld] at hstep
  have hmid : Tidy { s with world := { s.world with watermarks := watermarks } } :=
    ⟨fun hphase => ⟨(h.cursors hphase).1, (h.cursors hphase).2.later rfl rfl (Nat.le_refl _)⟩,
      fun hphase => ⟨(hstep hphase).1,
        fun source' => ((h.marks hphase).2 source').later rfl rfl (Nat.le_refl _)⟩⟩
  simp only [Action.apply, hworld]
  exact hmid.setEval fun hphase => (hstep hphase).2.later rfl rfl (Nat.le_refl _)

omit [DecidableEq κ] in
theorem Tidy.setSiem {s : System κ π} (h : Tidy s) {r : SiemRun κ π} (hr : r.Settled s.world) :
    Tidy { s with siem := r } :=
  ⟨fun hphase => ⟨(h.cursors hphase).1, hr⟩, h.marks⟩

theorem Tidy.step {s : System κ π} (h : Tidy s) (a : Action κ π) (hsafe : a.Safe s) : Tidy (a.apply s) := by
  cases a with
  | saved pce =>
    exact ⟨fun hphase => ⟨(h.cursors hphase).1, (h.cursors hphase).2.later rfl rfl (Nat.le_refl _)⟩,
      fun hphase => ⟨(h.marks hphase).1, hsafe hphase⟩⟩
  | collected record mark =>
    exact ⟨fun hphase => ⟨(h.cursors hphase).1, (h.cursors hphase).2.later rfl rfl (Nat.le_refl _)⟩,
      fun hphase => ⟨(h.marks hphase).1,
        fun source => ((h.marks hphase).2 source).later rfl rfl (Nat.le_refl _)⟩⟩
  | reset step => exact h.resetStep step hsafe
  | siemBegins =>
    simp only [Action.apply]
    split
    · exact h.setSiem trivial
    · exact h
  | siemTakes key =>
    simp only [Action.apply]
    split
    · exact h.setSiem trivial
    · exact h
  | siem found => exact h.siemStep found
  | siemFails => exact h.setSiem trivial
  | evalBegins source =>
    simp only [Action.apply]
    split
    · exact h.setEval fun _ _ => rfl
    · exact h
  | eval source found => exact h.evalStep source found
  | evalFails source => exact h.setEval fun _ hexposed => by cases hexposed

omit [DecidableEq κ] in
theorem tidy_installed (pce : π) (key : κ) : Tidy (installed pce key) :=
  ⟨fun _ => ⟨fun _ _ hc => (Option.some_ne_none _ hc.symm).elim, trivial⟩,
    fun _ => ⟨fun _ _ hm => (Option.some_ne_none _ hm.symm).elim, fun _ hexposed => by cases hexposed⟩⟩

/-- Every step of a run, in the state before it. -/
def AllSafe (s : System κ π) : List (Action κ π) → Prop
  | [] => True
  | a :: rest => a.Safe s ∧ AllSafe (a.apply s) rest

theorem Tidy.after {s : System κ π} (h : Tidy s) (actions : List (Action κ π)) (hsafe : AllSafe s actions) :
    Tidy (after s actions) := by
  induction actions generalizing s with
  | nil => exact h
  | cons a rest ih => exact ih (h.step a hsafe.1) hsafe.2

/-- Whenever no reset is under way, every cursor and every watermark is a position of the store there is, if
nothing in flight while a table was cleared went on to write one of the store before. -/
theorem current_of_safe (pce : π) (key : κ) (actions : List (Action κ π))
    (hsafe : AllSafe (installed pce key) actions)
    (hidle : (after (installed pce key) actions).world.reset = .idle) :
    (after (installed pce key) actions).world.CursorsCurrent ∧
      (after (installed pce key) actions).world.MarksCurrent := by
  have htidy := (tidy_installed pce key).after actions hsafe
  exact ⟨(htidy.cursors (Or.inl hidle)).1, (htidy.marks (by simp [hidle])).1⟩

/-- What a batch of 500 records finds when all of it is sent and nothing comes after. -/
def sentAll : Found := ⟨true, 500, 500, none⟩

def noMore : Found := ⟨false, 0, 0, none⟩

/-- A destination gets its cursor, and 500 records are collected. -/
def cursorSet : List (Action Unit Unit) :=
  [.siemBegins, .siem noMore, .siemTakes (), .siem noMore, .siem noMore, .siem noMore, .siemFails,
    .collected (fun _ => 500) (fun _ => 500)]

/-- The next run reads a batch of 500 and compares the generation. -/
def batchOut : List (Action Unit Unit) :=
  [.siemBegins, .siem noMore, .siemTakes (), .siem noMore, .siem sentAll, .siem noMore]

/-- The collected data is cleared, for the same PCE. -/
def dataCleared : List (Action Unit Unit) :=
  [.reset .announce, .reset .rebuild, .reset .clearWatermarks, .reset .restartCursors]

/-- A destination has its cursor, and no run is under way: it starts again with the new store. -/
theorem current_of_safe_cleared :
    (after (installed () ()) (cursorSet ++ dataCleared)).world.cursors () = some ⟨(), ⟨1, 0⟩⟩ ∧
      (after (installed () ()) (cursorSet ++ dataCleared)).world.CursorsCurrent ∧
      (after (installed () ()) (cursorSet ++ dataCleared)).world.MarksCurrent :=
  ⟨rfl, current_of_safe () () (cursorSet ++ dataCleared)
    ⟨trivial, trivial, trivial, trivial, trivial, trivial, trivial, trivial, trivial, trivial,
      (fun _ _ hexposed => nomatch hexposed), fun _ => trivial, trivial⟩ rfl⟩

/-- The same clearing between the comparison and `advance`: the cursor of the new store is at record 500 of the
store before, and the run has ended. -/
theorem current_passed_over :
    ¬ ∀ actions : List (Action Unit Unit),
      (after (installed () ()) actions).world.reset = .idle →
      (after (installed () ()) actions).siem.phase = .ended →
      (∀ source, ((after (installed () ()) actions).evals source).todo = []) →
      (after (installed () ()) actions).world.CursorsCurrent ∧
        (after (installed () ()) actions).world.MarksCurrent := by
  intro h
  have hrun := h (cursorSet ++ batchOut ++ dataCleared ++ [.siem noMore, .siem noMore]) rfl rfl fun source => by
    cases source <;> rfl
  have hcursor := hrun.1 () ⟨(), ⟨0, 500⟩⟩ rfl
  exact absurd hcursor (by decide)

end IllumioOps.Resets
