import IllumioOps.Collect.AddressChange
import Mathlib.Logic.Function.Basic

/-!
# Collectors and the switch to another PCE

A collector notes the generation of the flow store, then reads the settings, fetches from their PCE, and writes
in several transactions; meanwhile the settings may name another PCE, and the store may be recreated. Every
write compares the generation under the write lock, and the first one with records compares what the store is
bound to. A record is never in a store that is bound to another PCE than it was fetched from, and after a switch
the store holds records of the PCE of the settings only (`one_pce`). The change of the address of one PCE is in
`Collect.AddressChange`.
-/

set_option autoImplicit false

namespace IllumioOps.Switches

open Collect (PceSettings Normalize)

variable {δ : Type}

/-- What is stored, and the PCE it was fetched from. -/
structure Record (δ : Type) where
  source : PceSettings
  data : δ

/-! ## The collectors -/

/-- A write transaction: one of the bookkeeping, without records; one that starts with `ensure_binding`; one
that follows such a write. -/
inductive Write where
  | note
  | checked
  | following
  deriving DecidableEq, Repr

/-- The collectors, with how many pieces, details or batches they come to. -/
inductive Collector where
  | traffic (pieces : Nat)
  | events
  | inventory (details : Nat)
  | backfill (pieces : Nat)
  | reread (batches : Nat)
  deriving DecidableEq, Repr

/-- The inventory checks the binding with the workloads; the IP lists, the services, the label groups, the
summary and the details follow. -/
def Collector.writes : Collector → List Write
  | .traffic pieces => .note :: List.replicate pieces .checked
  | .events => [.note, .checked]
  | .inventory details => [.note, .checked] ++ List.replicate (details + 4) .following ++ [.note, .note]
  | .backfill pieces => .note :: (List.replicate pieces .checked ++ [.note])
  | .reread batches => .note :: List.replicate batches .checked

/-- A collector that runs: the generation it noted, the settings once it has read them, and the writes to
come. -/
structure Run where
  generation : Nat
  settings : Option PceSettings
  todo : List Write

def Run.ended (r : Run) : Run := { r with todo := [] }

/-- The settings, the store, and the collectors. `resetting` while a reset holds the write lock. -/
structure Product (δ : Type) where
  settings : PceSettings
  generation : Nat
  resetting : Bool
  binding : Option (String × String)
  records : List (Record δ)
  runs : Nat → Run

/-- `ensure_binding`: what the store is bound to afterwards; none stands for `BindingMismatch`. -/
def ensureBinding (normalize : Normalize) (binding : Option (String × String)) (pce : PceSettings) :
    Option (String × String) :=
  match binding with
  | none => some (pce.target normalize)
  | some bound =>
      if normalize.target bound.1 bound.2 = pce.target normalize then some bound else none

/-- What becomes of the records of a write: rows that were there are kept or not, and those fetched are added;
or it fails, as where the database is busy. -/
inductive Outcome (δ : Type) where
  | committed (kept : Record δ → Bool) (fetched : List δ)
  | refused

def Product.commit (w : Product δ) (pce : PceSettings) (kept : Record δ → Bool) (fetched : List δ) :
    Product δ :=
  { w with records := w.records.filter kept ++ fetched.map fun d => ⟨pce, d⟩ }

/-- The records of one write, and the collector after it. -/
def store (w : Product δ) (r : Run) (pce : PceSettings) (rest : List Write) : Outcome δ → Product δ × Run
  | .committed kept fetched => (w.commit pce kept fetched, { r with todo := rest })
  | .refused => (w, r.ended)

/-- The next write, by `FlowDb.writing`: it waits for the lock, and ends the collector (`StaleGeneration`) when
the generation has moved on. -/
def writeStep (normalize : Normalize) (w : Product δ) (r : Run) (out : Outcome δ) : Product δ × Run :=
  if w.resetting then (w, r)
  else
    match r.settings, r.todo with
    | some pce, write :: rest =>
        if w.generation ≠ r.generation then (w, r.ended)
        else
          match write with
          | .note => (w, { r with todo := rest })
          | .following => store w r pce rest out
          | .checked =>
              match ensureBinding normalize w.binding pce with
              | none => (w, r.ended)
              -- the binding has a transaction of its own, before the records
              | some bound => store { w with binding := some bound } r pce rest out
    | _, _ => (w, r)

/-! ## The reset -/

/-- `_bound_elsewhere` -/
def Product.boundElsewhere (normalize : Normalize) (w : Product δ) : Bool :=
  match w.binding with
  | none => false
  | some bound => decide (normalize.target bound.1 bound.2 ≠ w.settings.target normalize)

/-- `start` takes the write lock and moves the generation on; only if the store is bound elsewhere, as
`finish_pending_switch` asks. It gives up while connections stay open (`FlowDbBusy`), or recreates the
store. -/
inductive ResetStep where
  | start (onlyIfBoundElsewhere : Bool)
  | giveUp
  | recreate
  deriving DecidableEq, Repr

def ResetStep.apply (normalize : Normalize) (w : Product δ) : ResetStep → Product δ
  | .start only =>
      if w.resetting = true ∨ (only = true ∧ w.boundElsewhere normalize = false) then w
      else { w with generation := w.generation + 1, resetting := true }
  | .giveUp => { w with resetting := false }
  | .recreate => if w.resetting then { w with resetting := false, binding := none, records := [] } else w

/-! ## The steps -/

/-- What can happen next: the settings are saved, the reset takes a step, a collector notes the generation,
reads the settings, writes, or ends. -/
inductive Action (δ : Type) where
  | saved (pce : PceSettings)
  | reset (step : ResetStep)
  | notes (run : Nat) (collector : Collector)
  | reads (run : Nat)
  | writes (run : Nat) (out : Outcome δ)
  | ends (run : Nat)

def Product.setRun (w : Product δ) (run : Nat) (r : Run) : Product δ :=
  { w with runs := Function.update w.runs run r }

def Action.apply (normalize : Normalize) (w : Product δ) : Action δ → Product δ
  | .saved pce => { w with settings := pce }
  | .reset step => step.apply normalize w
  | .notes run collector => w.setRun run ⟨w.generation, none, collector.writes⟩
  | .reads run =>
      match (w.runs run).settings with
      | none => w.setRun run { w.runs run with settings := some w.settings }
      | some _ => w
  | .writes run out =>
      let next := writeStep normalize w (w.runs run) out
      next.1.setRun run next.2
  | .ends run => w.setRun run (w.runs run).ended

def after (normalize : Normalize) (w : Product δ) (actions : List (Action δ)) : Product δ :=
  actions.foldl (Action.apply normalize) w

/-- An installation before its first collection. -/
def installed (pce : PceSettings) : Product δ := ⟨pce, 0, false, none, [], fun _ => ⟨0, none, []⟩⟩

/-! ## A store and what it is bound to -/

/-- The store is bound to the PCE: it holds its target, or one that is read as it. -/
def BoundTo (normalize : Normalize) (binding : Option (String × String)) (pce : PceSettings) : Prop :=
  ∃ bound, binding = some bound ∧
    (bound = pce.target normalize ∨ normalize.target bound.1 bound.2 = pce.target normalize)

/-- The next records are written without a comparison of the binding. -/
def follows : List Write → Bool
  | [] => false
  | .note :: rest => follows rest
  | .checked :: _ => false
  | .following :: _ => true

theorem follows_writes (c : Collector) : follows c.writes = false := by
  have hchecked : ∀ n, follows (List.replicate n Write.checked) = false := fun n => by
    cases n <;> rfl
  cases c with
  | traffic pieces => exact hchecked pieces
  | events => rfl
  | inventory details => rfl
  | backfill pieces =>
    cases pieces <;> rfl
  | reread batches => exact hchecked batches

theorem boundTo_ensureBinding {normalize : Normalize} {binding : Option (String × String)} {pce : PceSettings}
    {bound : String × String} (h : ensureBinding normalize binding pce = some bound) :
    BoundTo normalize (some bound) pce := by
  unfold ensureBinding at h
  split at h
  · exact ⟨bound, rfl, Or.inl (Option.some.inj h).symm⟩
  · split at h
    · rename_i b hsame
      obtain rfl := Option.some.inj h
      exact ⟨b, rfl, Or.inr hsame⟩
    · cases h

/-- A bound store stays bound to what it was. -/
theorem ensureBinding_bound {normalize : Normalize} {pce : PceSettings} {b bound : String × String}
    (h : ensureBinding normalize (some b) pce = some bound) : bound = b := by
  simp only [ensureBinding] at h
  split at h
  · exact (Option.some.inj h).symm
  · cases h

/-- A collector of the generation there is that writes without a comparison of the binding made it before, in
the same store. -/
structure Run.Follows (normalize : Normalize) (w : Product δ) (r : Run) : Prop where
  noted : r.generation ≤ w.generation
  bound : r.generation = w.generation → follows r.todo →
    w.resetting = false ∧ ∃ pce, r.settings = some pce ∧ BoundTo normalize w.binding pce

structure Consistent (normalize : Normalize) (w : Product δ) : Prop where
  records : ∀ r ∈ w.records, BoundTo normalize w.binding r.source
  runs : ∀ i, (w.runs i).Follows normalize w

/-! ## One write -/

section WriteStep

variable {normalize : Normalize} {w : Product δ} {r : Run}

/-- What a write does to the store: records of the collector's PCE are added, after the comparison of the
binding, or following it. -/
structure Stores (normalize : Normalize) (w : Product δ) (r : Run) (pce : PceSettings)
    (binding : Option (String × String)) (records : List (Record δ)) : Prop where
  free : w.resetting = false
  current : r.generation = w.generation
  settings : r.settings = some pce
  fetched : ∀ x ∈ records, x ∈ w.records ∨ x.source = pce
  bound : (follows r.todo = true ∧ binding = w.binding) ∨
    ∃ bound, ensureBinding normalize w.binding pce = some bound ∧ binding = some bound

theorem store_eq (w : Product δ) (r : Run) (pce : PceSettings) (rest : List Write) (out : Outcome δ) :
    ∃ records todo, store w r pce rest out = ({ w with records := records }, { r with todo := todo }) ∧
      ∀ x ∈ records, x ∈ w.records ∨ x.source = pce := by
  cases out with
  | refused => exact ⟨w.records, [], rfl, fun x hx => Or.inl hx⟩
  | committed kept fetched =>
    refine ⟨_, rest, rfl, fun x hx => ?_⟩
    rcases List.mem_append.1 hx with hold | hnew
    · exact Or.inl (List.mem_filter.1 hold).1
    · obtain ⟨d, -, rfl⟩ := List.mem_map.1 hnew
      exact Or.inr rfl

/-- A write leaves the store as it is, or stores. -/
theorem writeStep_cases (normalize : Normalize) (w : Product δ) (r : Run) (out : Outcome δ) :
    (∃ todo, writeStep normalize w r out = (w, { r with todo := todo }) ∧ (follows todo → follows r.todo)) ∨
      ∃ pce binding records todo, Stores normalize w r pce binding records ∧
        writeStep normalize w r out =
          ({ w with binding := binding, records := records }, { r with todo := todo }) := by
  obtain ⟨generation, settings, todo⟩ := r
  unfold writeStep
  split
  · exact Or.inl ⟨todo, rfl, fun h => h⟩
  rename_i hfree
  rw [Bool.not_eq_true] at hfree
  split
  · rename_i pce write rest hsettings htodo
    obtain rfl : settings = some pce := hsettings
    obtain rfl : todo = write :: rest := htodo
    split
    · exact Or.inl ⟨[], rfl, fun h => nomatch h⟩
    rename_i hcurrent
    rw [not_not] at hcurrent
    cases write with
    | note => exact Or.inl ⟨rest, rfl, fun h => h⟩
    | following =>
      obtain ⟨records, todo, hstore, hfetched⟩ :=
        store_eq w ⟨generation, some pce, .following :: rest⟩ pce rest out
      exact Or.inr ⟨pce, w.binding, records, todo,
        ⟨hfree, hcurrent.symm, rfl, hfetched, Or.inl ⟨rfl, rfl⟩⟩, hstore⟩
    | checked =>
      dsimp only
      split
      · exact Or.inl ⟨[], rfl, fun h => nomatch h⟩
      · rename_i bound hbound
        obtain ⟨records, todo, hstore, hfetched⟩ :=
          store_eq { w with binding := some bound } ⟨generation, some pce, .checked :: rest⟩ pce rest out
        exact Or.inr ⟨pce, some bound, records, todo,
          ⟨hfree, hcurrent.symm, rfl, hfetched, Or.inr ⟨bound, hbound, rfl⟩⟩, hstore⟩
  · exact Or.inl ⟨todo, rfl, fun h => h⟩

/-- What a store was bound to it stays bound to. -/
theorem Stores.keeps {pce pce' : PceSettings} {binding : Option (String × String)} {records : List (Record δ)}
    (h : Stores normalize w r pce binding records) (hbound : BoundTo normalize w.binding pce') :
    BoundTo normalize binding pce' := by
  rcases h.bound with ⟨-, rfl⟩ | ⟨bound, hensure, rfl⟩
  · exact hbound
  · obtain ⟨b, hb, hsame⟩ := hbound
    rw [hb] at hensure
    obtain rfl := ensureBinding_bound hensure
    exact ⟨bound, rfl, hsame⟩

/-- After a write the store is bound to the PCE of the collector. -/
theorem Stores.boundTo {pce : PceSettings} {binding : Option (String × String)} {records : List (Record δ)}
    (h : Stores normalize w r pce binding records) (hr : r.Follows normalize w) :
    BoundTo normalize binding pce := by
  rcases h.bound with ⟨hfollows, rfl⟩ | ⟨bound, hensure, rfl⟩
  · obtain ⟨-, pce', hsettings, hbound⟩ := hr.bound h.current hfollows
    rw [h.settings] at hsettings
    obtain rfl := Option.some.inj hsettings
    exact hbound
  · exact boundTo_ensureBinding hensure

end WriteStep

/-! ## Every step -/

section Steps

variable {normalize : Normalize} {w : Product δ}

theorem Consistent.setRun (h : Consistent normalize w) (run : Nat) {r : Run} (hr : r.Follows normalize w) :
    Consistent normalize (w.setRun run r) := by
  refine ⟨h.records, fun i => ?_⟩
  by_cases hi : i = run
  · subst hi
    simp only [Product.setRun, Function.update_self]
    exact ⟨hr.noted, hr.bound⟩
  · simp only [Product.setRun, Function.update_of_ne hi]
    exact ⟨(h.runs i).noted, (h.runs i).bound⟩

theorem Consistent.reset (h : Consistent normalize w) (step : ResetStep) :
    Consistent normalize (step.apply normalize w) := by
  cases step with
  | start only =>
    simp only [ResetStep.apply]
    split
    · exact h
    · -- no collector in flight noted the generation that begins
      refine ⟨h.records, fun i => ⟨Nat.le_succ_of_le (h.runs i).noted, fun hcurrent => ?_⟩⟩
      exact absurd hcurrent (Nat.ne_of_lt (Nat.lt_succ_of_le (h.runs i).noted))
  | giveUp =>
    refine ⟨h.records, fun i => ⟨(h.runs i).noted, fun hcurrent hfollows => ?_⟩⟩
    exact ⟨rfl, ((h.runs i).bound hcurrent hfollows).2⟩
  | recreate =>
    simp only [ResetStep.apply]
    split
    · rename_i hresetting
      refine ⟨fun r hr => (nomatch hr), fun i => ⟨(h.runs i).noted, fun hcurrent hfollows => ?_⟩⟩
      have hfree := ((h.runs i).bound hcurrent hfollows).1
      rw [hresetting] at hfree
      cases hfree
    · exact h

theorem Consistent.write (h : Consistent normalize w) (run : Nat) (out : Outcome δ) :
    Consistent normalize ((Action.writes run out).apply normalize w) := by
  simp only [Action.apply]
  rcases writeStep_cases normalize w (w.runs run) out with ⟨todo, heq, hfollows⟩ |
    ⟨pce, binding, records, todo, hstores, heq⟩
  · rw [heq]
    exact h.setRun run ⟨(h.runs run).noted, fun hcurrent hnext => (h.runs run).bound hcurrent (hfollows hnext)⟩
  · rw [heq]
    have hbound : BoundTo normalize binding pce := hstores.boundTo (h.runs run)
    have hnext : Consistent normalize { w with binding := binding, records := records } := by
      refine ⟨fun x hx => ?_, fun i => ⟨(h.runs i).noted, fun hcurrent hfollows => ?_⟩⟩
      · rcases hstores.fetched x hx with hold | hnew
        · exact hstores.keeps (h.records x hold)
        · rw [hnew]
          exact hbound
      · obtain ⟨hfree, pce', hsettings, hbound'⟩ := (h.runs i).bound hcurrent hfollows
        exact ⟨hfree, pce', hsettings, hstores.keeps hbound'⟩
    exact hnext.setRun run ⟨(h.runs run).noted, fun _ _ => ⟨hstores.free, pce, hstores.settings, hbound⟩⟩

theorem Consistent.step (h : Consistent normalize w) (a : Action δ) : Consistent normalize (a.apply normalize w) := by
  cases a with
  | saved pce => exact ⟨h.records, fun i => ⟨(h.runs i).noted, (h.runs i).bound⟩⟩
  | reset step => exact h.reset step
  | notes run collector =>
    refine h.setRun run ⟨Nat.le_refl _, fun _ hfollows => ?_⟩
    rw [follows_writes] at hfollows
    cases hfollows
  | reads run =>
    simp only [Action.apply]
    split
    · rename_i hnone
      refine h.setRun run ⟨(h.runs run).noted, fun hcurrent hfollows => ?_⟩
      obtain ⟨-, pce, hsettings, -⟩ := (h.runs run).bound hcurrent hfollows
      rw [hnone] at hsettings
      cases hsettings
    · exact h
  | writes run out => exact h.write run out
  | ends run => exact h.setRun run ⟨(h.runs run).noted, fun _ hfollows => nomatch hfollows⟩

theorem Consistent.after (h : Consistent normalize w) (actions : List (Action δ)) :
    Consistent normalize (after normalize w actions) :=
  List.foldlRecOn actions _ h fun _ hw a _ => hw.step a

end Steps

theorem consistent_installed (normalize : Normalize) (pce : PceSettings) :
    Consistent normalize (installed pce : Product δ) :=
  ⟨fun _ hr => (nomatch hr), fun _ => ⟨Nat.le_refl _, fun _ hfollows => nomatch hfollows⟩⟩

/-! ## After a switch -/

section Switch

variable {normalize : Normalize} {q : String × String} {w : Product δ}

/-- The settings name the PCE, and so do those that a collector of the generation there is has read. -/
structure Switched (normalize : Normalize) (q : String × String) (w : Product δ) : Prop where
  settings : w.settings.target normalize = q
  runs : ∀ i pce, (w.runs i).generation = w.generation → (w.runs i).settings = some pce →
    pce.target normalize = q

/-- The store is bound to the PCE or not bound, and holds its records only. -/
structure HoldsOnly (normalize : Normalize) (q : String × String) (w : Product δ) : Prop where
  binding : ∀ bound, w.binding = some bound → bound = q
  records : ∀ x ∈ w.records, x.source.target normalize = q

/-- The settings are saved for the same PCE only. -/
def Action.Keeps (normalize : Normalize) (q : String × String) : Action δ → Prop
  | .saved pce => pce.target normalize = q
  | _ => True

theorem Switched.setRun (h : Switched normalize q w) (run : Nat) {r : Run}
    (hr : r.generation = w.generation → ∀ pce, r.settings = some pce → pce.target normalize = q) :
    Switched normalize q (w.setRun run r) := by
  refine ⟨h.settings, fun i pce hcurrent hsettings => ?_⟩
  by_cases hi : i = run
  · subst hi
    simp only [Product.setRun, Function.update_self] at hcurrent hsettings
    exact hr hcurrent pce hsettings
  · simp only [Product.setRun, Function.update_of_ne hi] at hcurrent hsettings
    exact h.runs i pce hcurrent hsettings

/-- The settings are saved before the reset starts, and a collector that notes the generation it moves on to
reads them afterwards. -/
theorem Consistent.switched (h : Consistent normalize w) (only : Bool)
    (hstarts : w.generation < ((ResetStep.start only).apply normalize w).generation) :
    Switched normalize (w.settings.target normalize) ((ResetStep.start only).apply normalize w) := by
  simp only [ResetStep.apply] at hstarts ⊢
  split at hstarts
  · exact absurd hstarts (Nat.lt_irrefl _)
  · rename_i hstart
    rw [if_neg hstart]
    exact ⟨rfl, fun i pce hcurrent => absurd hcurrent (Nat.ne_of_lt (Nat.lt_succ_of_le (h.runs i).noted))⟩

theorem Switched.reset (h : Switched normalize q w) (hw : Consistent normalize w) (step : ResetStep) :
    Switched normalize q (step.apply normalize w) := by
  cases step with
  | start only =>
    simp only [ResetStep.apply]
    split
    · exact h
    · exact ⟨h.settings,
        fun i pce hcurrent => absurd hcurrent (Nat.ne_of_lt (Nat.lt_succ_of_le (hw.runs i).noted))⟩
  | giveUp => exact ⟨h.settings, h.runs⟩
  | recreate =>
    simp only [ResetStep.apply]
    split
    · exact ⟨h.settings, h.runs⟩
    · exact h

theorem Switched.step (h : Switched normalize q w) (hw : Consistent normalize w) {a : Action δ}
    (ha : a.Keeps normalize q) : Switched normalize q (a.apply normalize w) := by
  cases a with
  | saved pce => exact ⟨ha, h.runs⟩
  | reset step => exact h.reset hw step
  | notes run collector => exact h.setRun run fun _ pce hsettings => by cases hsettings
  | reads run =>
    simp only [Action.apply]
    split
    · refine h.setRun run fun _ pce hsettings => ?_
      obtain rfl := Option.some.inj hsettings
      exact h.settings
    · exact h
  | writes run out =>
    simp only [Action.apply]
    rcases writeStep_cases normalize w (w.runs run) out with ⟨todo, heq, -⟩ | ⟨pce, binding, records, todo, -, heq⟩
    · rw [heq]
      exact h.setRun run fun hcurrent pce => h.runs run pce hcurrent
    · rw [heq]
      have hnext : Switched normalize q { w with binding := binding, records := records } :=
        ⟨h.settings, h.runs⟩
      exact hnext.setRun run fun hcurrent pce => h.runs run pce hcurrent
  | ends run => exact h.setRun run fun hcurrent pce => h.runs run pce hcurrent

theorem HoldsOnly.reset (h : HoldsOnly normalize q w) (step : ResetStep) :
    HoldsOnly normalize q (step.apply normalize w) := by
  cases step with
  | start only =>
    simp only [ResetStep.apply]
    split
    · exact h
    · exact ⟨h.binding, h.records⟩
  | giveUp => exact ⟨h.binding, h.records⟩
  | recreate =>
    simp only [ResetStep.apply]
    split
    · exact ⟨fun bound hbound => (nomatch hbound), fun x hx => nomatch hx⟩
    · exact h

theorem HoldsOnly.write (h : HoldsOnly normalize q w) (hw : Switched normalize q w) (run : Nat)
    (out : Outcome δ) : HoldsOnly normalize q ((Action.writes run out).apply normalize w) := by
  simp only [Action.apply]
  rcases writeStep_cases normalize w (w.runs run) out with ⟨todo, heq, -⟩ |
    ⟨pce, binding, records, todo, hstores, heq⟩
  · rw [heq]
    exact ⟨h.binding, h.records⟩
  · rw [heq]
    have hpce : pce.target normalize = q := hw.runs run pce hstores.current hstores.settings
    refine ⟨fun bound hbound => ?_, fun x hx => ?_⟩
    · change binding = some bound at hbound
      rcases hstores.bound with ⟨-, rfl⟩ | ⟨bound', hensure, rfl⟩
      · exact h.binding bound hbound
      · obtain rfl := Option.some.inj hbound
        cases hnow : w.binding with
        | none =>
          rw [hnow] at hensure
          exact (Option.some.inj hensure).symm.trans hpce
        | some b =>
          rw [hnow] at hensure
          exact (ensureBinding_bound hensure).trans (h.binding b hnow)
    · rcases hstores.fetched x hx with hold | hnew
      · exact h.records x hold
      · rw [hnew]
        exact hpce

theorem HoldsOnly.step (h : HoldsOnly normalize q w) (hw : Switched normalize q w) (a : Action δ) :
    HoldsOnly normalize q (a.apply normalize w) := by
  cases a with
  | saved pce => exact ⟨h.binding, h.records⟩
  | reset step => exact h.reset step
  | notes run collector => exact ⟨h.binding, h.records⟩
  | reads run =>
    simp only [Action.apply]
    split
    · exact ⟨h.binding, h.records⟩
    · exact h
  | writes run out => exact h.write hw run out
  | ends run => exact ⟨h.binding, h.records⟩

theorem Switched.after (h : Switched normalize q w) (hw : Consistent normalize w) {actions : List (Action δ)}
    (hactions : ∀ a ∈ actions, a.Keeps normalize q) : Switched normalize q (after normalize w actions) := by
  have hboth := List.foldlRecOn (motive := fun w => Consistent normalize w ∧ Switched normalize q w) actions
    (Action.apply normalize) ⟨hw, h⟩ fun w' h' a ha => ⟨h'.1.step a, h'.2.step h'.1 (hactions a ha)⟩
  exact hboth.2

theorem HoldsOnly.after (h : HoldsOnly normalize q w) (hs : Switched normalize q w) (hw : Consistent normalize w)
    {actions : List (Action δ)} (hactions : ∀ a ∈ actions, a.Keeps normalize q) :
    HoldsOnly normalize q (after normalize w actions) := by
  have hall := List.foldlRecOn
    (motive := fun w => Consistent normalize w ∧ Switched normalize q w ∧ HoldsOnly normalize q w) actions
    (Action.apply normalize) ⟨hw, hs, h⟩ fun w' h' a ha =>
      ⟨h'.1.step a, h'.2.1.step h'.1 (hactions a ha), h'.2.2.step h'.2.1 a⟩
  exact hall.2.2

end Switch

/-- A run in which a reset starts, and recreates the store in the same hold of the write lock; the settings go
on to name the PCE they named when it started. -/
structure Finishes (normalize : Normalize) (start : Product δ) (before : List (Action δ)) (only : Bool)
    (during later : List (Action δ)) : Prop where
  starts : (after normalize start before).generation <
    (after normalize start (before ++ [.reset (.start only)])).generation
  holds : (after normalize start (before ++ [.reset (.start only)] ++ during)).resetting = true
  keeps : ∀ a ∈ during ++ later,
    a.Keeps normalize ((after normalize start before).settings.target normalize)

theorem after_append (normalize : Normalize) (w : Product δ) (xs ys : List (Action δ)) :
    after normalize w (xs ++ ys) = after normalize (after normalize w xs) ys :=
  List.foldl_append

/-- However collectors, saves and resets follow one another, every record in the store was fetched from the PCE
that the store is bound to; and after a reset has recreated the store, it is bound to the PCE that the settings
named when the reset started, if to any, and holds its records only, until the settings name another one. -/
theorem one_pce (normalize : Normalize) (pce : PceSettings) :
    (∀ actions : List (Action δ), ∀ x ∈ (after normalize (installed pce) actions).records,
      BoundTo normalize (after normalize (installed pce) actions).binding x.source) ∧
    ∀ (before : List (Action δ)) (only : Bool) (during later : List (Action δ)),
      Finishes normalize (installed pce) before only during later →
      HoldsOnly normalize ((after normalize (installed pce) before).settings.target normalize)
        (after normalize (installed pce)
          (before ++ [.reset (.start only)] ++ during ++ [.reset .recreate] ++ later)) := by
  refine ⟨fun actions => ((consistent_installed normalize pce).after actions).records, ?_⟩
  intro before only during later h
  have hbefore : Consistent normalize (after normalize (installed pce) before) :=
    (consistent_installed normalize pce).after before
  have hstarts := h.starts
  have hholds := h.holds
  simp only [after_append] at hstarts hholds ⊢
  set w := after normalize (installed pce) before
  set started := after normalize w [.reset (.start only)]
  have hstarted : Consistent normalize started := hbefore.after _
  have hswitched : Switched normalize (w.settings.target normalize) started := hbefore.switched only hstarts
  have hkeeps := h.keeps
  rw [List.forall_mem_append] at hkeeps
  have hduring : Consistent normalize (after normalize started during) := hstarted.after during
  have hswitched' := hswitched.after hstarted hkeeps.1
  -- the store that is recreated is bound to none and holds nothing
  have hcleared : HoldsOnly normalize (w.settings.target normalize)
      (after normalize (after normalize started during) [.reset .recreate]) := by
    change HoldsOnly normalize _ (ResetStep.recreate.apply normalize (after normalize started during))
    simp only [ResetStep.apply, if_pos hholds]
    exact ⟨fun bound hbound => (nomatch hbound), fun x hx => nomatch hx⟩
  exact hcleared.after (hswitched'.reset hduring .recreate) (hduring.step (.reset .recreate)) hkeeps.2

def firstPce : PceSettings := ⟨"https://one", "1"⟩
def otherPce : PceSettings := ⟨"https://two", "1"⟩
def asWritten : Normalize := ⟨id, id⟩

/-- A traffic cycle of the first PCE is on its way when the other PCE is saved. -/
def cycleOut : List (Action Nat) :=
  [.notes 0 (.traffic 2), .reads 0, .writes 0 (.committed (fun _ => true) []),
    .writes 0 (.committed (fun _ => true) [1]), .saved otherPce]

/-- It goes on after the reset; a cycle of the other PCE collects one record. -/
def cycleAfter : List (Action Nat) :=
  [.writes 0 (.committed (fun _ => true) [2]), .notes 1 .events, .reads 1,
    .writes 1 (.committed (fun _ => true) []), .writes 1 (.committed (fun _ => true) [3])]

theorem one_pce_switched :
    (after asWritten (installed firstPce)
        (cycleOut ++ [.reset (.start false)] ++ [] ++ [.reset .recreate] ++ cycleAfter)).records =
        [⟨otherPce, 3⟩] ∧
      HoldsOnly asWritten (otherPce.target asWritten)
        (after asWritten (installed firstPce)
          (cycleOut ++ [.reset (.start false)] ++ [] ++ [.reset .recreate] ++ cycleAfter)) :=
  ⟨rfl, (one_pce asWritten firstPce).2 cycleOut false [] cycleAfter
    ⟨by decide, rfl, by simp [cycleAfter, Action.Keeps]⟩⟩

end IllumioOps.Switches
