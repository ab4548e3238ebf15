import Mathlib.Data.List.Basic
import Mathlib.Order.Basic

/-!
# The gate of the flow store

`store.flowdb.db`: the file of the flow store is deleted and created again when the PCE changes, while other threads
open connections, read without a lock and write under one. `connect` passes a gate that is closed while a reset
waits; a reset deletes the file once no connection is open or being opened, and moves the generation on before.
A connection in use is on the file that is there, a writer's generation is the current one, and a reading that finds
the generation it noted was of the file that is there (`gated_after`), unless it noted it between the moment a reset
moved it on and the moment it closed the gate (`early_reading`).

The files that follow each other are numbered, which the program does not do.
-/

set_option autoImplicit false

namespace IllumioOps.Gate

/-! ## The store -/

/-- Where a connection is: its generation was noted; `connect` let it in and counts it in `_opening`; the file was
opened; it is in `_open`; it is marked as closed, and its handle is not yet; it is gone, after a reading of that file
or without one. -/
inductive Place where
  | noted
  | opening
  | attached (file : Nat)
  | registered (file : Nat)
  | closing (file : Nat)
  | gone (file : Option Nat)
  deriving DecidableEq, Repr

/-- The file that was read, or is. -/
def Place.file : Place → Option Nat
  | .attached f => some f
  | .registered f => some f
  | .closing f => some f
  | .gone f => f
  | _ => none

/-- What `_wait_for_connections` counts. -/
def Place.counted : Place → Bool
  | .opening => true
  | .attached _ => true
  | .registered _ => true
  | _ => false

/-- A connection with the generation that was noted before it; `early` is whether a reset had moved the generation on
by then and not closed the gate. -/
structure Conn where
  generation : Nat
  early : Bool
  place : Place
  deriving DecidableEq, Repr

/-- How far a reset is that holds the write lock. -/
inductive ResetPhase where
  | asking
  | announced
  | waiting
  | allClosed
  | anchorDropped
  | unlinked
  | opened
  deriving DecidableEq, Repr

inductive WriteLock where
  | free
  | writer (generation : Nat)
  | reset (phase : ResetPhase)
  deriving DecidableEq, Repr

/-- `FlowDb`, its connections, and the number of the file. -/
structure World where
  file : Nat
  generation : Nat
  resetting : Bool
  anchor : Option Nat
  lock : WriteLock
  conns : List Conn
  deriving DecidableEq, Repr

def World.start : World := ⟨0, 0, false, none, .free, []⟩

/-! ## Steps -/

inductive Action where
  /-- A thread notes the generation. -/
  | note
  /-- `connect` passes the gate. -/
  | enter (n : Nat)
  /-- The file is opened. -/
  | attach (n : Nat)
  /-- `_opened`, with the connection. -/
  | register (n : Nat)
  /-- `_opened(None)`, the connection being closed where there is one. -/
  | fail (n : Nat)
  | markClosed (n : Nat)
  | close (n : Nat)
  /-- `close`: a throwaway store lets go of its anchor. -/
  | letGo
  /-- `writing` -/
  | write (generation : Nat)
  | written
  /-- `reset` takes the write lock. -/
  | lockReset
  /-- `still_wanted` says no. -/
  | decline
  | announce
  | shutGate
  /-- `_wait_for_connections` finds none. -/
  | allClosed
  | dropAnchor
  | unlink
  | openGate
  /-- The reset is over: its last connection is closed. -/
  | done
  /-- `FlowDbBusy`, or what the reset does besides raises. -/
  | giveUp
  deriving DecidableEq, Repr

def World.place (w : World) (n : Nat) : Option Place := w.conns[n]?.map Conn.place

def World.put (w : World) (n : Nat) (place : Place) : World :=
  { w with conns := w.conns.modify n fun c => { c with place := place } }

/-- A reset in the phase goes on to the next. -/
def World.goOn (w : World) (phase : ResetPhase) (next : World) : World :=
  if w.lock = .reset phase then next else w

def Action.apply (w : World) : Action → World
  | .note =>
      { w with conns := w.conns ++ [⟨w.generation, w.lock = .reset .announced, .noted⟩] }
  | .enter n => if w.place n = some .noted ∧ w.resetting = false then w.put n .opening else w
  | .attach n => if w.place n = some .opening then w.put n (.attached w.file) else w
  | .register n =>
      match w.place n with
      | some (.attached f) => { w.put n (.registered f) with anchor := w.anchor.or (some w.file) }
      | _ => w
  | .fail n =>
      match w.place n with
      | some .opening => w.put n (.gone none)
      | some (.attached f) => w.put n (.gone (some f))
      | _ => w
  | .markClosed n =>
      match w.place n with
      | some (.registered f) => w.put n (.closing f)
      | _ => w
  | .close n =>
      match w.place n with
      | some (.closing f) => w.put n (.gone (some f))
      | _ => w
  | .letGo => { w with anchor := none }
  | .write g => if w.lock = .free ∧ w.generation = g then { w with lock := .writer g } else w
  | .written =>
      match w.lock with
      | .writer _ => { w with lock := .free }
      | _ => w
  | .lockReset => if w.lock = .free then { w with lock := .reset .asking } else w
  | .decline => w.goOn .asking { w with lock := .free }
  | .announce => w.goOn .asking { w with generation := w.generation + 1, lock := .reset .announced }
  | .shutGate => w.goOn .announced { w with resetting := true, lock := .reset .waiting }
  | .allClosed =>
      if w.conns.all fun c => !c.place.counted then w.goOn .waiting { w with lock := .reset .allClosed } else w
  | .dropAnchor => w.goOn .allClosed { w with anchor := none, lock := .reset .anchorDropped }
  | .unlink => w.goOn .anchorDropped { w with file := w.file + 1, lock := .reset .unlinked }
  | .openGate => w.goOn .unlinked { w with resetting := false, lock := .reset .opened }
  | .done => w.goOn .opened { w with lock := .free }
  | .giveUp =>
      match w.lock with
      | .reset .waiting => { w with resetting := false, lock := .free }
      | .reset .allClosed => { w with resetting := false, lock := .free }
      | .reset .anchorDropped => { w with resetting := false, lock := .free }
      | .reset .unlinked => { w with resetting := false, lock := .free }
      | _ => w

def after (actions : List Action) : World := actions.foldl Action.apply .start

-- The equations of the steps, made once for all that follows.
section
attribute [local simp] Action.apply
end

/-! ## What holds -/

/-- The gate is closed. -/
def ResetPhase.shut : ResetPhase → Bool
  | .waiting => true
  | .allClosed => true
  | .anchorDropped => true
  | .unlinked => true
  | _ => false

/-- Every connection was seen closed, and the gate is closed. -/
def ResetPhase.quiet : ResetPhase → Bool
  | .allClosed => true
  | .anchorDropped => true
  | .unlinked => true
  | _ => false

def WriteLock.phase : WriteLock → Option ResetPhase
  | .reset phase => some phase
  | _ => none

/-- What a connection is to the store. -/
structure Conn.Ok (w : World) (c : Conn) : Prop where
  noted : c.generation ≤ w.generation
  inUse : ∀ f, c.place = .attached f ∨ c.place = .registered f → f = w.file
  announced : w.lock = .reset .announced → c.early = false → c.generation < w.generation
  shut : w.resetting = true → c.early = false → c.place ≠ .noted → c.generation < w.generation
  current : c.early = false → c.generation = w.generation → ∀ f, c.place.file = some f → f = w.file

structure World.Ok (w : World) : Prop where
  gate : w.resetting = true ↔ ∃ phase, w.lock = .reset phase ∧ phase.shut = true
  quiet : ∀ phase, w.lock = .reset phase → phase.quiet = true → ∀ c ∈ w.conns, c.place.counted = false
  anchor : ∀ f, w.anchor = some f → f = w.file
  dropped : w.lock = .reset .anchorDropped → w.anchor = none
  writer : ∀ g, w.lock = .writer g → g = w.generation
  conns : ∀ c ∈ w.conns, c.Ok w

variable {w : World} {n : Nat}

theorem ok_start : World.start.Ok where
  gate := by simp [World.start]
  quiet _ h := by cases h
  anchor _ h := by cases h
  dropped h := by cases h
  writer _ h := by cases h
  conns _ h := absurd h List.not_mem_nil

theorem mem_put {place : Place} {c : Conn} (hc : c ∈ (w.put n place).conns) :
    c ∈ w.conns ∨ ∃ c₀ ∈ w.conns, w.place n = some c₀.place ∧ c = { c₀ with place := place } := by
  obtain ⟨i, hi⟩ := List.mem_iff_getElem?.1 hc
  rw [World.put, List.getElem?_modify, Option.map_eq_map, Option.map_eq_some_iff] at hi
  obtain ⟨c₀, hc₀, rfl⟩ := hi
  by_cases hn : n = i
  · rw [if_pos hn]
    refine Or.inr ⟨c₀, List.mem_of_getElem? hc₀, ?_, rfl⟩
    rw [World.place, hn, hc₀]
    rfl
  · rw [if_neg hn]
    exact Or.inl (List.mem_of_getElem? hc₀)

theorem World.Ok.not_shut (h : w.Ok) (hopen : w.resetting = false) {phase : ResetPhase} (hlock : w.lock = .reset phase) :
    phase.shut = false := by
  by_contra hshut
  have hclosed := h.gate.2 ⟨phase, hlock, by simpa using hshut⟩
  rw [hopen] at hclosed
  cases hclosed

theorem shut_of_quiet {phase : ResetPhase} (h : phase.quiet = true) : phase.shut = true := by
  cases phase <;> first | rfl | cases h

/-- A connection goes on: not through a closed gate, and not to another file. -/
theorem World.Ok.put (h : w.Ok) {old new : Place} (hold : w.place n = some old)
    (hinUse : ∀ f, new = .attached f ∨ new = .registered f → f = w.file)
    (hgate : w.resetting = true → old ≠ .noted ∧ (new.counted = true → old.counted = true))
    (hfile : ∀ f, new.file = some f → old.file = some f ∨ f = w.file) : (w.put n new).Ok where
  gate := h.gate
  quiet phase hlock hquiet c hc := by
    rcases mem_put hc with hc | ⟨c₀, hc₀, hplace, rfl⟩
    · exact h.quiet phase hlock hquiet c hc
    · have hnot := h.quiet phase hlock hquiet c₀ hc₀
      obtain rfl := Option.some.inj (hold.symm.trans hplace)
      by_contra hcounted
      have hshut := h.gate.2 ⟨phase, hlock, shut_of_quiet hquiet⟩
      rw [(hgate hshut).2 (by simpa using hcounted)] at hnot
      cases hnot
  anchor := h.anchor
  dropped := h.dropped
  writer := h.writer
  conns c hc := by
    rcases mem_put hc with hc | ⟨c₀, hc₀, hplace, rfl⟩
    · exact ⟨(h.conns c hc).noted, (h.conns c hc).inUse, (h.conns c hc).announced, (h.conns c hc).shut,
        (h.conns c hc).current⟩
    · have hok := h.conns c₀ hc₀
      obtain rfl := Option.some.inj (hold.symm.trans hplace)
      refine ⟨hok.noted, hinUse, hok.announced, fun hshut hearly _ => ?_, fun hearly hgen f hf => ?_⟩
      · exact hok.shut hshut hearly (hgate hshut).1
      · exact (hfile f hf).elim (hok.current hearly hgen f) id

/-- The anchor is opened, or let go. -/
theorem World.Ok.setAnchor (h : w.Ok) {anchor : Option Nat} (hanchor : ∀ f, anchor = some f → f = w.file)
    (hdropped : w.lock = .reset .anchorDropped → anchor = none) : { w with anchor := anchor }.Ok where
  gate := h.gate
  quiet := h.quiet
  anchor := hanchor
  dropped := hdropped
  writer := h.writer
  conns c hc := ⟨(h.conns c hc).noted, (h.conns c hc).inUse, (h.conns c hc).announced, (h.conns c hc).shut,
    (h.conns c hc).current⟩

/-- A thread notes the generation. -/
theorem World.Ok.note (h : w.Ok) : (Action.note.apply w).Ok where
  gate := h.gate
  quiet phase hlock hquiet c hc := by
    rcases List.mem_append.1 hc with hc | hc
    · exact h.quiet phase hlock hquiet c hc
    · obtain rfl := List.mem_singleton.1 hc
      rfl
  anchor := h.anchor
  dropped := h.dropped
  writer := h.writer
  conns c hc := by
    rcases List.mem_append.1 hc with hc | hc
    · exact ⟨(h.conns c hc).noted, (h.conns c hc).inUse, (h.conns c hc).announced, (h.conns c hc).shut,
        (h.conns c hc).current⟩
    · obtain rfl := List.mem_singleton.1 hc
      refine ⟨Nat.le_refl _, fun f hf => by simp at hf, fun hlock hearly => ?_, fun _ _ hplace => absurd rfl hplace,
        fun _ _ f hf => nomatch hf⟩
      -- what is noted while a reset is announced is early
      simp only [decide_eq_false_iff_not] at hearly
      exact absurd hlock hearly

/-- The lock changes hands with the gate open, and no reset is announced. -/
theorem World.Ok.setLock (h : w.Ok) {lock : WriteLock} (hopen : w.resetting = false)
    (hshut : ∀ phase, lock = .reset phase → phase.shut = false) (hannounced : lock ≠ .reset .announced)
    (hwriter : ∀ g, lock = .writer g → g = w.generation) : { w with lock := lock }.Ok where
  gate := by
    constructor
    · intro hclosed
      rw [show w.resetting = false from hopen] at hclosed
      cases hclosed
    · rintro ⟨phase, hlock, hphase⟩
      rw [hshut phase hlock] at hphase
      cases hphase
  quiet phase hlock hquiet := by
    have hphase := hshut phase hlock
    rw [shut_of_quiet hquiet] at hphase
    cases hphase
  anchor := h.anchor
  dropped hlock := by
    have hphase := hshut _ hlock
    cases hphase
  writer := hwriter
  conns c hc := ⟨(h.conns c hc).noted, (h.conns c hc).inUse, fun hlock => absurd hlock hannounced,
    (h.conns c hc).shut, (h.conns c hc).current⟩

/-! ## Each step -/

variable {a : Action}

theorem World.Ok.enter (h : w.Ok) (n : Nat) : ((Action.enter n).apply w).Ok := by
  simp only [Action.apply]
  split
  · rename_i hguard
    refine h.put hguard.1 (fun f hf => by simp at hf) (fun hshut => ?_) (fun f hf => nomatch hf)
    rw [hguard.2] at hshut
    cases hshut
  · exact h

theorem World.Ok.attach (h : w.Ok) (n : Nat) : ((Action.attach n).apply w).Ok := by
  simp only [Action.apply]
  split
  · rename_i hplace
    refine h.put hplace (fun f hf => by simpa [eq_comm] using hf) (fun _ => ⟨by simp, fun _ => rfl⟩) (fun f hf => ?_)
    exact Or.inr (Option.some.inj hf).symm
  · exact h

theorem World.Ok.register (h : w.Ok) (n : Nat) : ((Action.register n).apply w).Ok := by
  simp only [Action.apply]
  split
  · rename_i f hplace
    obtain ⟨c, hc, hcplace⟩ := Option.map_eq_some_iff.1 hplace
    have hmem := List.mem_of_getElem? hc
    have hhere := (h.conns c hmem).inUse f (Or.inl hcplace)
    have hput : (w.put n (.registered f)).Ok := by
      refine h.put hplace (fun f' hf' => ?_) (fun _ => ⟨by simp, fun _ => rfl⟩) (fun f' hf' => Or.inl hf')
      simp only [reduceCtorEq, Place.registered.injEq, false_or] at hf'
      exact hf'.symm.trans hhere
    refine hput.setAnchor (fun f' hf' => ?_) (fun hlock => ?_)
    · cases hanchor : w.anchor with
      | none =>
        rw [hanchor] at hf'
        exact (Option.some.inj hf').symm
      | some f'' =>
        rw [hanchor] at hf'
        exact h.anchor f' (hanchor.trans hf')
    · -- the connection is counted, so no reset is that far
      have hnot := h.quiet _ hlock rfl c hmem
      rw [hcplace] at hnot
      cases hnot
  · exact h

theorem World.Ok.fail (h : w.Ok) (n : Nat) : ((Action.fail n).apply w).Ok := by
  simp only [Action.apply]
  split
  · rename_i hplace
    exact h.put hplace (fun f hf => by simp at hf) (fun _ => ⟨by simp, fun _ => rfl⟩) (fun f hf => nomatch hf)
  · rename_i f hplace
    exact h.put hplace (fun f hf => by simp at hf) (fun _ => ⟨by simp, fun _ => rfl⟩) (fun f' hf' => Or.inl hf')
  · exact h

theorem World.Ok.markClosed (h : w.Ok) (n : Nat) : ((Action.markClosed n).apply w).Ok := by
  simp only [Action.apply]
  split
  · rename_i f hplace
    exact h.put hplace (fun f hf => by simp at hf) (fun _ => ⟨by simp, fun _ => rfl⟩) (fun f' hf' => Or.inl hf')
  · exact h

theorem World.Ok.close (h : w.Ok) (n : Nat) : ((Action.close n).apply w).Ok := by
  simp only [Action.apply]
  split
  · rename_i f hplace
    exact h.put hplace (fun f hf => by simp at hf) (fun _ => ⟨by simp, fun hc => nomatch hc⟩) (fun f' hf' => Or.inl hf')
  · exact h

/-- While the lock is not a reset's, the gate is open. -/
theorem World.Ok.open_of (h : w.Ok) (hlock : ∀ phase, w.lock = .reset phase → phase.shut = false) :
    w.resetting = false := by
  by_contra hshut
  obtain ⟨phase, hreset, hphase⟩ := h.gate.1 (by simpa using hshut)
  rw [hlock phase hreset] at hphase
  cases hphase

theorem World.Ok.write (h : w.Ok) (g : Nat) : ((Action.write g).apply w).Ok := by
  simp only [Action.apply]
  split
  · rename_i hguard
    refine h.setLock (h.open_of fun phase hlock => ?_) (fun phase hlock => nomatch hlock) (fun hlock => nomatch hlock)
      (fun g' hlock => ?_)
    · rw [hguard.1] at hlock
      cases hlock
    · obtain rfl := WriteLock.writer.inj hlock
      exact hguard.2.symm
  · exact h

/-- The lock is let go with the gate open. -/
theorem World.Ok.free (h : w.Ok) (hopen : w.resetting = false) : { w with lock := .free }.Ok :=
  h.setLock hopen (fun _ hlock => nomatch hlock) (fun hlock => nomatch hlock) (fun _ hlock => nomatch hlock)

theorem World.Ok.written (h : w.Ok) : (Action.written.apply w).Ok := by
  simp only [Action.apply]
  split
  · rename_i g hlock
    refine h.free (h.open_of fun phase hreset => ?_)
    rw [hlock] at hreset
    cases hreset
  · exact h

theorem World.Ok.lockReset (h : w.Ok) : (Action.lockReset.apply w).Ok := by
  simp only [Action.apply]
  split
  · rename_i hfree
    refine h.setLock (h.open_of fun phase hreset => ?_) (fun phase hlock => ?_) (fun hlock => nomatch hlock)
      (fun _ hlock => nomatch hlock)
    · rw [hfree] at hreset
      cases hreset
    · obtain rfl := WriteLock.reset.inj hlock
      rfl
  · exact h

/-- The gate is open in a phase that does not shut it. -/
theorem World.Ok.open_phase (h : w.Ok) {phase : ResetPhase} (hlock : w.lock = .reset phase) (hphase : phase.shut = false) :
    w.resetting = false := by
  refine h.open_of fun phase' hlock' => ?_
  obtain rfl := WriteLock.reset.inj (hlock.symm.trans hlock')
  exact hphase

theorem World.Ok.decline (h : w.Ok) : (Action.decline.apply w).Ok := by
  simp only [Action.apply, World.goOn]
  split
  · exact h.free (h.open_phase ‹_› rfl)
  · exact h

theorem World.Ok.announce (h : w.Ok) : (Action.announce.apply w).Ok := by
  simp only [Action.apply, World.goOn]
  split
  · rename_i hlock
    have hopen := h.open_phase hlock rfl
    refine ⟨⟨fun hshut => ?_, fun ⟨phase, hreset, hphase⟩ => ?_⟩, fun phase hreset hquiet => ?_, h.anchor,
      fun hreset => (nomatch hreset), fun g hwriter => (nomatch hwriter), fun c hc => ?_⟩
    · rw [show w.resetting = false from hopen] at hshut
      cases hshut
    · obtain rfl := WriteLock.reset.inj hreset
      cases hphase
    · obtain rfl := WriteLock.reset.inj hreset
      cases hquiet
    · -- what was noted before is behind from now on
      have hlt : c.generation < w.generation + 1 := Nat.lt_succ_of_le (h.conns c hc).noted
      exact ⟨Nat.le_of_lt hlt, (h.conns c hc).inUse, fun _ _ => hlt, fun _ _ _ => hlt, fun _ hgen => absurd hgen (Nat.ne_of_lt hlt)⟩
  · exact h

theorem World.Ok.shutGate (h : w.Ok) : (Action.shutGate.apply w).Ok := by
  simp only [Action.apply, World.goOn]
  split
  · rename_i hlock
    refine ⟨⟨fun _ => ⟨_, rfl, rfl⟩, fun _ => rfl⟩, fun phase hreset hquiet => ?_, h.anchor,
      fun hreset => (nomatch hreset), fun g hwriter => (nomatch hwriter), fun c hc => ?_⟩
    · obtain rfl := WriteLock.reset.inj hreset
      cases hquiet
    · exact ⟨(h.conns c hc).noted, (h.conns c hc).inUse, fun hreset => (nomatch hreset),
        fun _ hearly _ => (h.conns c hc).announced hlock hearly, (h.conns c hc).current⟩
  · exact h

/-- A reset goes from one phase with the gate shut to the next, every connection being closed. -/
theorem World.Ok.quieten (h : w.Ok) {phase next : ResetPhase} (hlock : w.lock = .reset phase)
    (hphase : phase.shut = true) (hnext : next.quiet = true) (hclosed : ∀ c ∈ w.conns, c.place.counted = false)
    {file : Nat} {anchor : Option Nat} (hanchor : ∀ f, anchor = some f → f = file)
    (hdropped : next = .anchorDropped → anchor = none) (hfile : file = w.file ∨ next ≠ .announced ∧ w.file ≤ file) :
    { w with file := file, anchor := anchor, lock := .reset next }.Ok where
  gate := ⟨fun _ => ⟨next, rfl, shut_of_quiet hnext⟩, fun _ => h.gate.2 ⟨phase, hlock, hphase⟩⟩
  quiet _ _ _ := hclosed
  anchor := hanchor
  dropped hreset := hdropped (WriteLock.reset.inj hreset)
  writer g hwriter := nomatch hwriter
  conns c hc := by
    have hok := h.conns c hc
    have hshut := h.gate.2 ⟨phase, hlock, hphase⟩
    have hnot := hclosed c hc
    refine ⟨hok.noted, fun f hf => ?_, fun hreset => ?_, hok.shut, fun hearly hgen f hf => ?_⟩
    · rcases hf with hf | hf <;> rw [hf] at hnot <;> cases hnot
    · obtain rfl := WriteLock.reset.inj hreset
      cases hnext
    · -- a connection that read anything was noted before the reset
      have hplace : c.place ≠ .noted := by
        intro hplace
        rw [hplace] at hf
        cases hf
      exact absurd hgen (Nat.ne_of_lt (hok.shut hshut hearly hplace))

theorem World.Ok.allClosed (h : w.Ok) : (Action.allClosed.apply w).Ok := by
  simp only [Action.apply, World.goOn]
  split
  · rename_i hall
    split
    · rename_i hlock
      refine h.quieten hlock rfl rfl (fun c hc => ?_) h.anchor (fun hnext => nomatch hnext) (Or.inl rfl)
      simpa using List.all_eq_true.1 hall c hc
    · exact h
  · exact h

theorem World.Ok.dropAnchor (h : w.Ok) : (Action.dropAnchor.apply w).Ok := by
  simp only [Action.apply, World.goOn]
  split
  · rename_i hlock
    exact h.quieten hlock rfl rfl (h.quiet _ hlock rfl) (fun _ hnone => nomatch hnone) (fun _ => rfl) (Or.inl rfl)
  · exact h

theorem World.Ok.unlink (h : w.Ok) : (Action.unlink.apply w).Ok := by
  simp only [Action.apply, World.goOn]
  split
  · rename_i hlock
    refine h.quieten hlock rfl rfl (h.quiet _ hlock rfl) (fun f hf => ?_) (fun hnext => nomatch hnext)
      (Or.inr ⟨by decide, Nat.le_succ _⟩)
    rw [h.dropped hlock] at hf
    cases hf
  · exact h

/-- The gate opens as the lock goes to a holder that has it open. -/
theorem World.Ok.reopen (h : w.Ok) {lock : WriteLock} (hshut : ∀ phase, lock = .reset phase → phase.shut = false)
    (hannounced : lock ≠ .reset .announced) (hwriter : ∀ g, lock ≠ .writer g) :
    { w with resetting := false, lock := lock }.Ok where
  gate := by
    constructor
    · intro hclosed
      cases hclosed
    · rintro ⟨phase, hlock, hphase⟩
      rw [hshut phase hlock] at hphase
      cases hphase
  quiet phase hlock hquiet := by
    have hphase := hshut phase hlock
    rw [shut_of_quiet hquiet] at hphase
    cases hphase
  anchor := h.anchor
  dropped hlock := nomatch hshut _ hlock
  writer g hlock := absurd hlock (hwriter g)
  conns c hc := ⟨(h.conns c hc).noted, (h.conns c hc).inUse, fun hlock => absurd hlock hannounced,
    fun hclosed => (nomatch hclosed), (h.conns c hc).current⟩

theorem World.Ok.openGate (h : w.Ok) : (Action.openGate.apply w).Ok := by
  simp only [Action.apply, World.goOn]
  split
  · refine h.reopen (fun phase hlock => ?_) (fun hlock => nomatch hlock) (fun g hlock => nomatch hlock)
    obtain rfl := WriteLock.reset.inj hlock
    rfl
  · exact h

theorem World.Ok.done (h : w.Ok) : (Action.done.apply w).Ok := by
  simp only [Action.apply, World.goOn]
  split
  · exact h.free (h.open_phase ‹_› rfl)
  · exact h

theorem World.Ok.giveUp (h : w.Ok) : (Action.giveUp.apply w).Ok := by
  have hreopen : { w with resetting := false, lock := .free }.Ok :=
    h.reopen (fun phase hlock => nomatch hlock) (fun hlock => nomatch hlock) (fun g hlock => nomatch hlock)
  simp only [Action.apply]
  split
  · exact hreopen
  · exact hreopen
  · exact hreopen
  · exact hreopen
  · exact h

theorem World.Ok.step (h : w.Ok) (a : Action) : (a.apply w).Ok := by
  cases a with
  | note => exact h.note
  | enter n => exact h.enter n
  | attach n => exact h.attach n
  | register n => exact h.register n
  | fail n => exact h.fail n
  | markClosed n => exact h.markClosed n
  | close n => exact h.close n
  | letGo => exact h.setAnchor (fun _ hnone => nomatch hnone) fun _ => rfl
  | write g => exact h.write g
  | written => exact h.written
  | lockReset => exact h.lockReset
  | decline => exact h.decline
  | announce => exact h.announce
  | shutGate => exact h.shutGate
  | allClosed => exact h.allClosed
  | dropAnchor => exact h.dropAnchor
  | unlink => exact h.unlink
  | openGate => exact h.openGate
  | done => exact h.done
  | giveUp => exact h.giveUp

theorem ok_after (actions : List Action) : (after actions).Ok := by
  have hrun : ∀ (actions : List Action) (w : World), w.Ok → (actions.foldl Action.apply w).Ok := by
    intro actions
    induction actions with
    | nil => exact fun _ h => h
    | cons a actions ih => exact fun w h => ih _ (h.step a)
  exact hrun actions _ ok_start

/-! ## Runs -/

/-- A reading that finds the generation it noted was of the file that is there. -/
def Current (w : World) (c : Conn) : Prop :=
  c.generation = w.generation → ∀ f, c.place.file = some f → f = w.file

/-- What users of the store rely on: a connection that is being opened or in use is on the file that is there, the
anchor too, a writer's generation is the current one, and a reading that finds the generation it noted was of the
file that is there, where it was not noted between a reset's announcement and its gate. -/
structure Gated (w : World) : Prop where
  inUse : ∀ c ∈ w.conns, ∀ f, c.place = .attached f ∨ c.place = .registered f → f = w.file
  anchor : ∀ f, w.anchor = some f → f = w.file
  writer : ∀ g, w.lock = .writer g → g = w.generation
  readings : ∀ c ∈ w.conns, c.early = false → Current w c

/-- However connections, readings, writers and resets take turns. -/
theorem gated_after (actions : List Action) : Gated (after actions) where
  inUse c hc := ((ok_after actions).conns c hc).inUse
  anchor := (ok_after actions).anchor
  writer := (ok_after actions).writer
  readings c hc := ((ok_after actions).conns c hc).current

/-- A reading notes the generation that a reset has just announced, and gets in before the gate is closed. The reset
waits for it and then deletes the file. -/
def earlyReading : List Action :=
  [.lockReset, .announce, .note, .enter 0, .attach 0, .register 0, .shutGate, .markClosed 0, .allClosed, .dropAnchor,
    .unlink, .openGate, .done]

/-- It finds the generation it noted, and its file is gone. -/
theorem early_reading : ∃ c ∈ (after earlyReading).conns, ¬ Current (after earlyReading) c :=
  ⟨⟨1, true, .closing 0⟩, by decide, fun h => nomatch h rfl 0 rfl⟩

end IllumioOps.Gate
