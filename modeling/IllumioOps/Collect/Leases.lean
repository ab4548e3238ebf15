import IllumioOps.Domain.Values
import IllumioOps.Programs.Leased

/-!
# The pulled period of the workbench

`services.workbench_store`: a period that the install keeps no traffic of is read from the PCE once and held for the
clicks that follow. A request leases the held pull for as long as it reads it; a pull that another takes the place of,
that is too old or that is of another PCE is retired, and goes when its last reader is done. Requests run side by
side, and the settings and the store may change under them.

In every order of their steps a pull is closed at most once and never while a request reads it, what a request reads
covers its period and is what it asked for, and no pull is left over (`leased_after`).
-/

set_option autoImplicit false

namespace IllumioOps.Workbench

open Programs (LeaseTable Leasable)

variable {π : Type}

/-! ## Requests and pulls -/

/-- `KEEP` -/
def keep : Int := minutes 30

/-- `_floor` -/
def floorHour (t : Int) : Int := hourStart t

/-- `_ceil` -/
def ceilHour (t : Int) : Int := if floorHour t = t then floorHour t else floorHour t + hours 1

theorem floorHour_le (t : Int) : floorHour t ≤ t := by
  simp only [floorHour, hourStart, hours, minutes, seconds, milliseconds]
  omega

theorem le_ceilHour (t : Int) : t ≤ ceilHour t := by
  unfold ceilHour
  by_cases h : floorHour t = t
  · rw [if_pos h]
    exact Int.le_of_eq h.symm
  · rw [if_neg h]
    simp only [floorHour, hourStart, hours, minutes, seconds, milliseconds]
    omega

/-- The PCE of the settings, by its address and org, and the generation of the install's store. -/
structure Key (π : Type) where
  pce : π
  generation : Nat
  deriving DecidableEq

/-- `_Held`, and the generation of the install's store when the period had been read. -/
structure Pull (π : Type) where
  key : Key π
  start : Int
  stop : Int
  since : Int
  opened : Nat

/-- Where a request is in `lease`: it noted the PCE; it noted the generation as well; nothing that is held answers it;
it has `_pull_lock`; it reads the period from the PCE; it reads a pull; it is done. -/
inductive Phase where
  | started
  | keyed
  | waiting
  | locked
  | pulling
  | reading (pull : Nat)
  | done
  deriving DecidableEq, Repr

/-- A request for `[start, stop)`, with the PCE that a check of it has read so far. -/
structure Request (π : Type) where
  key : Key π
  start : Int
  stop : Int
  clock : Int
  phase : Phase
  checking : Option π

/-- `_pull_lock`, which other pages use too. -/
inductive PullLock where
  | free
  | request (n : Nat)
  | other
  deriving DecidableEq, Repr

structure World (π : Type) where
  pce : π
  generation : Nat
  table : LeaseTable (Pull π)
  pullLock : PullLock
  requests : List (Request π)

def World.start (pce : π) : World π := ⟨pce, 0, .empty, .free, []⟩

/-! ## Steps -/

section Steps

variable [DecidableEq π]

/-- `_covering`: the held pull where it answers the request, leased. A stale one is retired. -/
def covering (table : LeaseTable (Pull π)) (r : Request π) : LeaseTable (Pull π) × Option Nat :=
  match table.current.bind fun i => table.values[i]?.map fun h => (i, h) with
  | none => (table, none)
  | some (i, h) =>
      if h.key ≠ r.key ∨ keep < r.clock - h.since then (table.retire i, none)
      else if h.start ≤ r.start ∧ r.stop ≤ h.stop then (table.lease i, some i)
      else (table, none)

/-- `drop`, and what is done to the pull that another takes the place of. -/
def retireHeld (table : LeaseTable (Pull π)) : LeaseTable (Pull π) :=
  match table.current with
  | some i => table.retire i
  | none => table

/-- `check` retires the pull unless something else has. -/
def retireStale (table : LeaseTable (Pull π)) (i : Nat) : LeaseTable (Pull π) :=
  match table.items[i]? with
  | some h => if h.retired then table else table.retire i
  | none => table

inductive Action (π : Type) where
  /-- The settings name this PCE from now on. -/
  | settings (pce : π)
  /-- A reset of the install's store moves its generation on. -/
  | reset
  /-- A request notes the PCE and its clock. -/
  | start (start stop clock : Int)
  /-- It notes the generation. -/
  | key (n : Nat)
  | look (n : Nat)
  /-- It gets `_pull_lock`. -/
  | lock (n : Nat)
  | lookAgain (n : Nat)
  /-- `open_period` raises. -/
  | fail (n : Nat)
  /-- `open_period` returns, and its pull is held. -/
  | publish (n : Nat)
  /-- `check` reads the PCE of the settings. -/
  | checkPce (n : Nat)
  /-- It reads the generation and compares both. -/
  | checkGeneration (n : Nat)
  | release (n : Nat)
  | drop
  | otherLock
  | otherUnlock

def World.put (w : World π) (n : Nat) (r : Request π) : World π := { w with requests := w.requests.set n r }

/-- A step of the request that is in the phase. -/
def World.inPhase (w : World π) (n : Nat) (phase : Phase) (f : Request π → World π) : World π :=
  match w.requests[n]? with
  | some r => if r.phase = phase then f r else w
  | none => w

/-- A step of a request that reads a pull. -/
def World.readingPull (w : World π) (n : Nat) (f : Request π → Nat → World π) : World π :=
  match w.requests[n]? with
  | some r =>
      match r.phase with
      | .reading i => f r i
      | _ => w
  | none => w

/-- The request reads what answers it, or goes on to the next phase. -/
def World.goOn (w : World π) (n : Nat) (r : Request π) (next : Phase) : World π :=
  match covering w.table r with
  | (table, some i) => { w.put n { r with phase := .reading i } with table := table }
  | (table, none) => { w.put n { r with phase := next } with table := table }

/-- What the request pulled: whole hours around its period. -/
def World.pulled (w : World π) (r : Request π) : Pull π :=
  { key := r.key
    start := floorHour r.start
    stop := ceilHour r.stop
    since := r.clock
    opened := w.generation }

/-- `_pull_lock` is let go where the request has got a pull. -/
def World.unlockReading (w : World π) (n : Nat) : World π :=
  w.readingPull n fun _ _ => { w with pullLock := .free }

def Action.apply (w : World π) : Action π → World π
  | .settings pce => { w with pce := pce }
  | .reset => { w with generation := w.generation + 1 }
  | .start lo hi clock => { w with requests := w.requests ++ [⟨⟨w.pce, 0⟩, lo, hi, clock, .started, none⟩] }
  | .key n => w.inPhase n .started fun r => w.put n { r with key := ⟨r.key.pce, w.generation⟩, phase := .keyed }
  | .look n => w.inPhase n .keyed fun r => w.goOn n r .waiting
  | .lock n =>
      w.inPhase n .waiting fun r =>
        if w.pullLock = .free then { w.put n { r with phase := .locked } with pullLock := .request n } else w
  | .lookAgain n => w.inPhase n .locked fun r => (w.goOn n r .pulling).unlockReading n
  | .fail n => w.inPhase n .pulling fun r => { w.put n { r with phase := .done } with pullLock := .free }
  | .publish n =>
      w.inPhase n .pulling fun r =>
        { w.put n { r with phase := .reading w.table.items.length } with
          table := (retireHeld w.table).publish (w.pulled r), pullLock := .free }
  | .checkPce n => w.readingPull n fun r _ => w.put n { r with checking := some w.pce }
  | .checkGeneration n =>
      w.readingPull n fun r i =>
        match r.checking with
        | some pce =>
            if pce = r.key.pce ∧ w.generation = r.key.generation then w.put n { r with checking := none }
            else { w.put n { r with checking := none } with table := retireStale w.table i }
        | none => w
  | .release n =>
      w.readingPull n fun r i => { w.put n { r with phase := .done } with table := w.table.release i }
  | .drop => { w with table := retireHeld w.table }
  | .otherLock => if w.pullLock = .free then { w with pullLock := .other } else w
  | .otherUnlock => if w.pullLock = .other then { w with pullLock := .free } else w

def after (pce : π) (actions : List (Action π)) : World π := actions.foldl Action.apply (World.start pce)

attribute [local simp] Action.apply

end Steps

/-! ## What holds -/

/-- How many requests read a pull. -/
def readers (requests : List (Request π)) (i : Nat) : Nat :=
  requests.countP fun r => r.phase = .reading i

/-- The pull is what the request asked for: of its PCE and generation, around its period, and not too old. -/
structure Answers (h : Pull π) (r : Request π) : Prop where
  key : h.key = r.key
  start : h.start ≤ r.start
  stop : r.stop ≤ h.stop
  age : r.clock - h.since ≤ keep

structure World.Ok (w : World π) : Prop where
  table : w.table.Ok (readers w.requests)
  reading : ∀ r ∈ w.requests, ∀ i, r.phase = .reading i → ∃ h, w.table.values[i]? = some h ∧ Answers h r
  opened : ∀ h ∈ w.table.values, h.key.generation ≤ h.opened ∧ h.opened ≤ w.generation
  noted : ∀ r ∈ w.requests, r.key.generation ≤ w.generation
  locked : ∀ n r, w.requests[n]? = some r → r.phase = .locked ∨ r.phase = .pulling → w.pullLock = .request n

section Readers

variable {requests : List (Request π)} {n i : Nat} {r r' : Request π}

theorem readers_set (hr : requests[n]? = some r) (r' : Request π) (i : Nat) :
    readers (requests.set n r') i + (if r.phase = .reading i then 1 else 0) =
      readers requests i + if r'.phase = .reading i then 1 else 0 := by
  obtain ⟨hlt, rfl⟩ := List.getElem?_eq_some_iff.1 hr
  have hle := List.boole_getElem_le_countP (p := fun r : Request π => decide (r.phase = .reading i)) hlt
  unfold readers
  rw [List.countP_set hlt]
  simp only [decide_eq_true_eq] at hle ⊢
  omega

/-- A request goes on without a pull, or with the one it has. -/
theorem readers_keep (hr : requests[n]? = some r) (h : ∀ i, r'.phase = .reading i ↔ r.phase = .reading i) :
    readers (requests.set n r') = readers requests := by
  funext i
  have hset := readers_set hr r' i
  simp only [h i] at hset
  omega

/-- A request gets a pull. -/
theorem readers_gain (hr : requests[n]? = some r) (hnone : ∀ j, r.phase ≠ .reading j) (hphase : r'.phase = .reading i) :
    readers (requests.set n r') = Function.update (readers requests) i (readers requests i + 1) := by
  funext j
  have hset := readers_set hr r' j
  rw [if_neg (hnone j)] at hset
  by_cases hj : j = i
  · subst hj
    rw [if_pos hphase] at hset
    rw [Function.update_self]
    exact hset
  · rw [if_neg (by simp [hphase, Ne.symm hj])] at hset
    rw [Function.update_of_ne hj]
    exact hset

/-- A request is done with its pull. -/
theorem readers_lose (hr : requests[n]? = some r) (hphase : r.phase = .reading i) (hnone : ∀ j, r'.phase ≠ .reading j) :
    readers requests i ≠ 0 ∧
      readers (requests.set n r') = Function.update (readers requests) i (readers requests i - 1) := by
  have hpos : readers requests i ≠ 0 := by
    have hset := readers_set hr r' i
    rw [if_pos hphase, if_neg (hnone i)] at hset
    omega
  refine ⟨hpos, funext fun j => ?_⟩
  have hset := readers_set hr r' j
  rw [if_neg (hnone j)] at hset
  by_cases hj : j = i
  · subst hj
    rw [if_pos hphase] at hset
    rw [Function.update_self]
    omega
  · rw [if_neg (by simp [hphase, Ne.symm hj])] at hset
    rw [Function.update_of_ne hj]
    exact hset

end Readers

variable {w : World π} {n : Nat} {r r' : Request π}

theorem ok_start (pce : π) : (World.start pce).Ok where
  table := LeaseTable.ok_empty
  reading _ hr := absurd hr List.not_mem_nil
  opened _ hh := absurd hh List.not_mem_nil
  noted _ hr := absurd hr List.not_mem_nil
  locked _ _ hr := by cases hr

/-- A request goes on, and the pulls and the lock with it. -/
theorem World.Ok.goesOn (h : w.Ok) (hr : w.requests[n]? = some r) {table : LeaseTable (Pull π)} {lock : PullLock}
    (htable : table.Ok (readers (w.requests.set n r')))
    (hvalues : ∀ (i : Nat) (p : Pull π), w.table.values[i]? = some p → table.values[i]? = some p)
    (hopened : ∀ p ∈ table.values, p.key.generation ≤ p.opened ∧ p.opened ≤ w.generation)
    (hreading : ∀ i, r'.phase = .reading i → ∃ p, table.values[i]? = some p ∧ Answers p r')
    (hnoted : r'.key.generation ≤ w.generation)
    (hlocked : r'.phase = .locked ∨ r'.phase = .pulling → lock = .request n)
    (hlock : lock = w.pullLock ∨ w.pullLock = .free ∨ w.pullLock = .request n) :
    World.Ok { w with requests := w.requests.set n r', table := table, pullLock := lock } where
  table := htable
  reading q hq i hphase := by
    rcases List.mem_or_eq_of_mem_set hq with hq | rfl
    · obtain ⟨p, hp, hanswers⟩ := h.reading q hq i hphase
      exact ⟨p, hvalues i p hp, hanswers⟩
    · exact hreading i hphase
  opened := hopened
  noted q hq := by
    rcases List.mem_or_eq_of_mem_set hq with hq | rfl
    · exact h.noted q hq
    · exact hnoted
  locked m q hq hphase := by
    by_cases hm : m = n
    · subst hm
      have hlt := (List.getElem?_eq_some_iff.1 hr).1
      obtain rfl : r' = q := by simpa [hlt] using hq
      exact hlocked hphase
    · rw [List.getElem?_set_ne (Ne.symm hm)] at hq
      have hother := h.locked m q hq hphase
      rcases hlock with rfl | hfree | hown
      · exact hother
      · rw [hother] at hfree
        cases hfree
      · rw [hother] at hown
        exact absurd (PullLock.request.inj hown) hm

/-- The same without a change of the pulls. -/
theorem World.Ok.goesOnAlone (h : w.Ok) (hr : w.requests[n]? = some r) {lock : PullLock}
    (hphase : ∀ i, r'.phase = .reading i ↔ r.phase = .reading i)
    (hanswers : ∀ i p, r'.phase = .reading i → Answers p r → Answers p r')
    (hnoted : r'.key.generation ≤ w.generation)
    (hlocked : r'.phase = .locked ∨ r'.phase = .pulling → lock = .request n)
    (hlock : lock = w.pullLock ∨ w.pullLock = .free ∨ w.pullLock = .request n) :
    World.Ok { w with requests := w.requests.set n r', pullLock := lock } := by
  have htable : w.table.Ok (readers (w.requests.set n r')) := by
    rw [readers_keep hr hphase]
    exact h.table
  refine h.goesOn hr htable (fun _ _ hp => hp) h.opened (fun i hreads => ?_) hnoted hlocked hlock
  · obtain ⟨p, hp, hanswer⟩ := h.reading r (List.mem_of_getElem? hr) i ((hphase i).1 hreads)
    exact ⟨p, hp, hanswers i p hreads hanswer⟩

/-- The pulls change under the requests. -/
theorem World.Ok.setTable (h : w.Ok) {table : LeaseTable (Pull π)} (htable : table.Ok (readers w.requests))
    (hvalues : table.values = w.table.values) : World.Ok { w with table := table } where
  table := htable
  reading q hq i hphase := by
    rw [hvalues]
    exact h.reading q hq i hphase
  opened p hp := h.opened p (hvalues ▸ hp)
  noted := h.noted
  locked := h.locked

/-! ## Each step -/

/-- A request whose phase the step is for. -/
theorem inPhase_cases (w : World π) (n : Nat) (phase : Phase) (f : Request π → World π) :
    w.inPhase n phase f = w ∨ ∃ r, w.requests[n]? = some r ∧ r.phase = phase ∧ w.inPhase n phase f = f r := by
  unfold World.inPhase
  split
  · rename_i r hr
    split
    · exact Or.inr ⟨r, hr, ‹_›, rfl⟩
    · exact Or.inl rfl
  · exact Or.inl rfl

theorem readingPull_cases (w : World π) (n : Nat) (f : Request π → Nat → World π) :
    w.readingPull n f = w ∨
      ∃ r i, w.requests[n]? = some r ∧ r.phase = .reading i ∧ w.readingPull n f = f r i := by
  unfold World.readingPull
  split
  · rename_i r hr
    split
    · exact Or.inr ⟨r, _, hr, ‹_›, rfl⟩
    · exact Or.inl rfl
  · exact Or.inl rfl

/-- The lock is let go by the request that has it, once it reads a pull. -/
theorem World.Ok.unlockReading (h : w.Ok) (hlock : w.pullLock = .request n) : (w.unlockReading n).Ok := by
  unfold World.unlockReading
  rcases readingPull_cases w n _ with heq | ⟨r, i, hr, hphase, heq⟩ <;> rw [heq]
  · exact h
  · refine ⟨h.table, h.reading, h.opened, h.noted, fun m q hq hq' => ?_⟩
    -- only the holder can be behind the lock, and it reads
    have hm := PullLock.request.inj ((h.locked m q hq hq').symm.trans hlock)
    subst hm
    obtain rfl := Option.some.inj (hr.symm.trans hq)
    rw [hphase] at hq'
    rcases hq' with hq' | hq' <;> cases hq'

theorem retireHeld_ok {table : LeaseTable (Pull π)} {leases : Nat → Nat} (h : table.Ok leases) :
    (retireHeld table).Ok leases ∧ (retireHeld table).values = table.values ∧ (retireHeld table).current = none := by
  unfold retireHeld
  cases hcurrent : table.current with
  | none => exact ⟨h, rfl, hcurrent⟩
  | some i =>
    obtain ⟨x, hx, hopen⟩ := h.current i hcurrent
    refine ⟨h.retire hx hopen, LeaseTable.values_retire _ _, ?_⟩
    simp [LeaseTable.retire, hcurrent]

theorem retireStale_ok {table : LeaseTable (Pull π)} {leases : Nat → Nat} (h : table.Ok leases) (i : Nat) :
    (retireStale table i).Ok leases ∧ (retireStale table i).values = table.values := by
  unfold retireStale
  split
  · rename_i x hx
    split
    · exact ⟨h, rfl⟩
    · rename_i hopen
      exact ⟨h.retire hx (by simpa using hopen), LeaseTable.values_retire _ _⟩
  · exact ⟨h, rfl⟩

section Steps

variable [DecidableEq π]

/-- What `_covering` finds answers the request and is leased; where it finds nothing it may have retired the held
pull. -/
theorem covering_cases {table : LeaseTable (Pull π)} {leases : Nat → Nat} (h : table.Ok leases) (r : Request π) :
    (∃ i p, table.values[i]? = some p ∧ Answers p r ∧ covering table r = (table.lease i, some i) ∧
      (table.lease i).Ok (Function.update leases i (leases i + 1))) ∨
    ∃ table', covering table r = (table', none) ∧ table'.Ok leases ∧ table'.values = table.values := by
  unfold covering
  cases hheld : table.current.bind fun i => table.values[i]?.map fun h => (i, h) with
  | none => exact Or.inr ⟨table, rfl, h, rfl⟩
  | some found =>
    obtain ⟨i, hcurrent, hmap⟩ := Option.bind_eq_some_iff.1 hheld
    obtain ⟨p, hp, rfl⟩ := Option.map_eq_some_iff.1 hmap
    dsimp only
    split
    · obtain ⟨x, hx, hopen⟩ := h.current i hcurrent
      exact Or.inr ⟨_, rfl, h.retire hx hopen, LeaseTable.values_retire _ _⟩
    · rename_i hfresh
      rw [not_or, not_not, Int.not_lt] at hfresh
      split
      · rename_i hperiod
        exact Or.inl ⟨i, p, hp, ⟨hfresh.1, hperiod.1, hperiod.2, hfresh.2⟩, rfl, h.lease hcurrent⟩
      · exact Or.inr ⟨table, rfl, h, rfl⟩

/-- A request that noted the generation looks for a pull. -/
theorem World.Ok.looks (h : w.Ok) (hr : w.requests[n]? = some r) (hnone : ∀ i, r.phase ≠ .reading i) {next : Phase}
    (hnext : ∀ i, next ≠ .reading i) (hlocked : next = .locked ∨ next = .pulling → w.pullLock = .request n) :
    (w.goOn n r next).Ok := by
  have hnoted := h.noted r (List.mem_of_getElem? hr)
  unfold World.goOn
  rcases covering_cases h.table r with ⟨i, p, hp, hanswers, hcovering, htable⟩ | ⟨table, hcovering, htable, hvalues⟩
  · rw [hcovering]
    refine h.goesOn hr ?_ (fun j q hq => ?_) (fun q hq => ?_) (fun j hj => ?_) hnoted (fun hphase => ?_) (Or.inl rfl)
    · rw [readers_gain hr hnone rfl]
      exact htable
    · rwa [LeaseTable.values_lease]
    · rw [LeaseTable.values_lease] at hq
      exact h.opened q hq
    · obtain rfl := Phase.reading.inj hj
      rw [LeaseTable.values_lease]
      exact ⟨p, hp, hanswers.key, hanswers.start, hanswers.stop, hanswers.age⟩
    · rcases hphase with hphase | hphase <;> cases hphase
  · rw [hcovering]
    refine h.goesOn hr ?_ (fun j q hq => ?_) (fun q hq => ?_) (fun j hj => absurd hj (hnext j)) hnoted hlocked
      (Or.inl rfl)
    · rw [readers_keep hr fun i => iff_of_false (hnext i) (hnone i)]
      exact htable
    · rwa [hvalues]
    · rw [hvalues] at hq
      exact h.opened q hq

theorem World.Ok.settings (h : w.Ok) (pce : π) : ((Action.settings pce).apply w).Ok :=
  ⟨h.table, h.reading, h.opened, h.noted, h.locked⟩

theorem World.Ok.reset (h : w.Ok) : (Action.reset.apply w).Ok :=
  ⟨h.table, h.reading, fun p hp => ⟨(h.opened p hp).1, Nat.le_succ_of_le (h.opened p hp).2⟩,
    fun r hr => Nat.le_succ_of_le (h.noted r hr), h.locked⟩

theorem World.Ok.start (h : w.Ok) (lo hi clock : Int) : ((Action.start lo hi clock).apply w).Ok where
  table := by
    have hsame : readers (w.requests ++ [⟨⟨w.pce, 0⟩, lo, hi, clock, .started, none⟩]) = readers w.requests := by
      funext i
      simp [readers]
    simp only [Action.apply, hsame]
    exact h.table
  reading r hr i hphase := by
    rcases List.mem_append.1 hr with hr | hr
    · exact h.reading r hr i hphase
    · obtain rfl := List.mem_singleton.1 hr
      cases hphase
  opened := h.opened
  noted r hr := by
    rcases List.mem_append.1 hr with hr | hr
    · exact h.noted r hr
    · obtain rfl := List.mem_singleton.1 hr
      exact Nat.zero_le _
  locked m r hr hphase := by
    simp only [Action.apply, List.getElem?_append] at hr
    split at hr
    · exact h.locked m r hr hphase
    · obtain rfl := List.mem_singleton.1 (List.mem_of_getElem? hr)
      rcases hphase with hphase | hphase <;> cases hphase

theorem World.Ok.key (h : w.Ok) (n : Nat) : ((Action.key n).apply w).Ok := by
  simp only [Action.apply]
  rcases inPhase_cases w n .started _ with heq | ⟨r, hr, hphase, heq⟩ <;> rw [heq]
  · exact h
  · refine h.goesOnAlone hr (fun i => ?_) (fun i p hreads => by cases hreads) (Nat.le_refl _) (fun hnext => ?_)
      (Or.inl rfl)
    · simp [hphase]
    · rcases hnext with hnext | hnext <;> cases hnext

theorem World.Ok.look (h : w.Ok) (n : Nat) : ((Action.look n).apply w).Ok := by
  simp only [Action.apply]
  rcases inPhase_cases w n .keyed _ with heq | ⟨r, hr, hphase, heq⟩ <;> rw [heq]
  · exact h
  · refine h.looks hr (fun i => by simp [hphase]) (fun i => by simp) (fun hnext => ?_)
    rcases hnext with hnext | hnext <;> cases hnext

theorem World.Ok.lock (h : w.Ok) (n : Nat) : ((Action.lock n).apply w).Ok := by
  simp only [Action.apply]
  rcases inPhase_cases w n .waiting _ with heq | ⟨r, hr, hphase, heq⟩ <;> rw [heq]
  · exact h
  · split
    · rename_i hfree
      refine h.goesOnAlone hr (fun i => by simp [hphase]) (fun i p hreads => by cases hreads)
        (h.noted r (List.mem_of_getElem? hr)) (fun _ => rfl) (Or.inr (Or.inl hfree))
    · exact h

theorem World.Ok.lookAgain (h : w.Ok) (n : Nat) : ((Action.lookAgain n).apply w).Ok := by
  simp only [Action.apply]
  rcases inPhase_cases w n .locked _ with heq | ⟨r, hr, hphase, heq⟩ <;> rw [heq]
  · exact h
  · have hlock := h.locked n r hr (Or.inl hphase)
    refine (h.looks hr (fun i => by simp [hphase]) (fun i => by simp) fun _ => hlock).unlockReading ?_
    unfold World.goOn
    split <;> exact hlock

theorem World.Ok.fail (h : w.Ok) (n : Nat) : ((Action.fail n).apply w).Ok := by
  simp only [Action.apply]
  rcases inPhase_cases w n .pulling _ with heq | ⟨r, hr, hphase, heq⟩ <;> rw [heq]
  · exact h
  · refine h.goesOnAlone hr (fun i => by simp [hphase]) (fun i p hreads => by cases hreads)
      (h.noted r (List.mem_of_getElem? hr)) (fun hnext => ?_) (Or.inr (Or.inr (h.locked n r hr (Or.inr hphase))))
    rcases hnext with hnext | hnext <;> cases hnext

theorem World.Ok.publish (h : w.Ok) (n : Nat) : ((Action.publish n).apply w).Ok := by
  simp only [Action.apply]
  rcases inPhase_cases w n .pulling _ with heq | ⟨r, hr, hphase, heq⟩ <;> rw [heq]
  · exact h
  · obtain ⟨hretired, hvalues, hnone⟩ := retireHeld_ok h.table
    have hlength : (retireHeld w.table).items.length = w.table.items.length := by
      simpa [LeaseTable.values] using congrArg List.length hvalues
    have hpublished := hretired.publish hnone (w.pulled r)
    have hnobody : readers w.requests w.table.items.length = 0 := h.table.absent _ (Nat.le_refl _)
    have hnoted := h.noted r (List.mem_of_getElem? hr)
    have hlast : (w.table.values ++ [w.pulled r])[w.table.items.length]? = some (w.pulled r) := by
      simp [LeaseTable.values]
    refine h.goesOn hr ?_ (fun i p hp => ?_) (fun p hp => ?_) (fun i hreads => ?_) hnoted (fun hnext => ?_)
      (Or.inr (Or.inr (h.locked n r hr (Or.inr hphase))))
    · rw [readers_gain hr (fun i => by simp [hphase]) rfl, hnobody, ← hlength]
      exact hpublished
    · rw [LeaseTable.values_publish, hvalues, List.getElem?_append_left (List.getElem?_eq_some_iff.1 hp).1]
      exact hp
    · rw [LeaseTable.values_publish, hvalues] at hp
      rcases List.mem_append.1 hp with hp | hp
      · exact h.opened p hp
      · obtain rfl := List.mem_singleton.1 hp
        exact ⟨hnoted, Nat.le_refl _⟩
    · obtain rfl := Phase.reading.inj hreads
      rw [LeaseTable.values_publish, hvalues]
      refine ⟨_, hlast, rfl, floorHour_le _, le_ceilHour _, ?_⟩
      change r.clock - r.clock ≤ keep
      rw [Int.sub_self]
      decide
    · rcases hnext with hnext | hnext <;> cases hnext

theorem World.Ok.checkPce (h : w.Ok) (n : Nat) : ((Action.checkPce n).apply w).Ok := by
  simp only [Action.apply]
  rcases readingPull_cases w n _ with heq | ⟨r, i, hr, hphase, heq⟩ <;> rw [heq]
  · exact h
  · exact h.goesOnAlone hr (fun i => Iff.rfl) (fun i p _ ha => ⟨ha.key, ha.start, ha.stop, ha.age⟩)
      (h.noted r (List.mem_of_getElem? hr)) (h.locked n r hr) (Or.inl rfl)

theorem World.Ok.checkGeneration (h : w.Ok) (n : Nat) : ((Action.checkGeneration n).apply w).Ok := by
  simp only [Action.apply]
  rcases readingPull_cases w n _ with heq | ⟨r, i, hr, hphase, heq⟩ <;> rw [heq]
  · exact h
  · have hchecked : (w.put n { r with checking := none }).Ok :=
      h.goesOnAlone hr (fun i => Iff.rfl) (fun i p _ ha => ⟨ha.key, ha.start, ha.stop, ha.age⟩)
        (h.noted r (List.mem_of_getElem? hr)) (h.locked n r hr) (Or.inl rfl)
    split
    · split
      · exact hchecked
      · obtain ⟨htable, hvalues⟩ := retireStale_ok hchecked.table i
        exact hchecked.setTable htable hvalues
    · exact h

theorem World.Ok.release (h : w.Ok) (n : Nat) : ((Action.release n).apply w).Ok := by
  simp only [Action.apply]
  rcases readingPull_cases w n _ with heq | ⟨r, i, hr, hphase, heq⟩ <;> rw [heq]
  · exact h
  · have hdone : ∀ j, ({ r with phase := .done } : Request π).phase ≠ .reading j := fun j => by simp
    obtain ⟨hleased, hreaders⟩ := readers_lose hr hphase hdone
    refine h.goesOn hr ?_ (fun j p hp => ?_) (fun p hp => ?_) (fun j hreads => by cases hreads)
      (h.noted r (List.mem_of_getElem? hr)) (fun hnext => ?_) (Or.inl rfl)
    · rw [hreaders]
      exact h.table.release hleased
    · rwa [LeaseTable.values_release]
    · rw [LeaseTable.values_release] at hp
      exact h.opened p hp
    · rcases hnext with hnext | hnext <;> cases hnext

theorem World.Ok.drop (h : w.Ok) : (Action.drop.apply w).Ok := by
  obtain ⟨htable, hvalues, -⟩ := retireHeld_ok h.table
  exact h.setTable htable hvalues

/-- Another page takes the lock where it is free. -/
theorem World.Ok.otherLock (h : w.Ok) : (Action.otherLock.apply w).Ok := by
  simp only [Action.apply]
  split
  · rename_i hfree
    refine ⟨h.table, h.reading, h.opened, h.noted, fun m q hq hq' => ?_⟩
    rw [h.locked m q hq hq'] at hfree
    cases hfree
  · exact h

theorem World.Ok.otherUnlock (h : w.Ok) : (Action.otherUnlock.apply w).Ok := by
  simp only [Action.apply]
  split
  · rename_i hother
    refine ⟨h.table, h.reading, h.opened, h.noted, fun m q hq hq' => ?_⟩
    rw [h.locked m q hq hq'] at hother
    cases hother
  · exact h

theorem World.Ok.step (h : w.Ok) (a : Action π) : (a.apply w).Ok := by
  cases a with
  | settings pce => exact h.settings pce
  | reset => exact h.reset
  | start lo hi clock => exact h.start lo hi clock
  | key n => exact h.key n
  | look n => exact h.look n
  | lock n => exact h.lock n
  | lookAgain n => exact h.lookAgain n
  | fail n => exact h.fail n
  | publish n => exact h.publish n
  | checkPce n => exact h.checkPce n
  | checkGeneration n => exact h.checkGeneration n
  | release n => exact h.release n
  | drop => exact h.drop
  | otherLock => exact h.otherLock
  | otherUnlock => exact h.otherUnlock

theorem ok_after (pce : π) (actions : List (Action π)) : (after pce actions).Ok := by
  have hrun : ∀ (actions : List (Action π)) (w : World π), w.Ok → (actions.foldl Action.apply w).Ok := by
    intro actions
    induction actions with
    | nil => exact fun _ h => h
    | cons a actions ih => exact fun w h => ih _ (h.step a)
  exact hrun actions _ (ok_start pce)

end Steps

/-! ## Runs -/

/-- A pull is closed at most once; what a request reads is open and answers it; what is open is held or read; at most
one request reads from the PCE; and a pull of the store's generation was read under it. -/
structure Leased (w : World π) : Prop where
  once : ∀ h ∈ w.table.items, h.closes ≤ 1
  open_read : ∀ r ∈ w.requests, ∀ i, r.phase = .reading i →
    ∃ h, w.table.items[i]? = some h ∧ h.closes = 0 ∧ Answers h.value r
  noneLeft : ∀ (i : Nat) (h : Leasable (Pull π)), w.table.items[i]? = some h → h.closes = 0 →
    w.table.current = some i ∨ ∃ r ∈ w.requests, r.phase = .reading i
  onePull : ∀ (n m : Nat) (r q : Request π), w.requests[n]? = some r → w.requests[m]? = some q →
    r.phase = .pulling → q.phase = .pulling → n = m
  sameStore : ∀ h ∈ w.table.items, h.value.key.generation = w.generation → h.value.opened = w.generation

theorem leased_of_ok {w : World π} (h : w.Ok) : Leased w where
  once _ hx := h.table.closes_le hx
  open_read r hr i hphase := by
    obtain ⟨p, hp, hanswers⟩ := h.reading r hr i hphase
    have hleased : readers w.requests i ≠ 0 := by
      have hpos : 0 < readers w.requests i := List.countP_pos_iff.2 ⟨r, hr, by simpa using hphase⟩
      omega
    obtain ⟨x, hx, hopen⟩ := h.table.open_of_leased hleased
    refine ⟨x, hx, hopen, ?_⟩
    have hvalue : w.table.values[i]? = some x.value := by
      rw [LeaseTable.values, List.getElem?_map, hx]
      rfl
    obtain rfl := Option.some.inj (hp.symm.trans hvalue)
    exact hanswers
  noneLeft i x hx hopen := by
    refine (h.table.current_or_leased hx hopen).imp_right fun hleased => ?_
    obtain ⟨r, hr, hphase⟩ := List.countP_pos_iff.1 (Nat.pos_of_ne_zero hleased)
    exact ⟨r, hr, by simpa using hphase⟩
  onePull n m r q hr hq hpulling hpulling' := by
    have hlock := h.locked n r hr (Or.inr hpulling)
    exact PullLock.request.inj (hlock.symm.trans (h.locked m q hq (Or.inr hpulling')))
  sameStore x hx hgeneration := by
    obtain ⟨hle, hge⟩ := h.opened x.value (List.mem_map_of_mem hx)
    omega

/-- In every order of the requests' steps, of the changes of the settings and of the resets. -/
theorem leased_after [DecidableEq π] (pce : π) (actions : List (Action π)) : Leased (after pce actions) :=
  leased_of_ok (ok_after pce actions)

end IllumioOps.Workbench
