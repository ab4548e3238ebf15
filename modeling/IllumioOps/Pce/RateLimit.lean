import IllumioOps.Buckets.Levels
import IllumioOps.Programs.Interrupted
import Mathlib.Data.NNRat.Defs
import Mathlib.Data.Rat.Floor

/-!
# The budget of requests to the PCE

The token bucket that every request to the PCE passes. Threads share it: what one of them does under the
lock is one step, and between its steps others may take tokens and the rate may be changed. The clock only
goes forward; times and rates are exact.
-/

set_option autoImplicit false

namespace IllumioOps.RateLimit

open Programs
open Buckets (Bucket Use)

/-! ## The limiter -/

structure RateLimiter where
  ratePerMinute : Int
  ratePerSec : Rat
  capacity : Int
  tokens : Rat
  lastRefill : Rat
  deriving DecidableEq

/-- The default burst of a rate. -/
def defaultBurst (ratePerMinute : Int) : Int := max (ratePerMinute / 6) 1

/-- `RateLimiter(rate_per_minute, burst)` -/
def RateLimiter.new (ratePerMinute : Int) (burst : Option Int) (now : Rat) :
    Except String RateLimiter :=
  if ratePerMinute < 1 then .error "rate_per_minute must be >= 1"
  else
    let capacity := burst.getD (defaultBurst ratePerMinute)
    .ok ⟨ratePerMinute, ratePerMinute / 60, capacity, capacity, now⟩

/-- `_refill_locked` -/
def RateLimiter.refill (l : RateLimiter) (now : Rat) : RateLimiter :=
  { l with
    tokens := min (l.capacity : Rat) (l.tokens + (now - l.lastRefill) * l.ratePerSec)
    lastRefill := now }

/-- What `acquire` does under the lock: a token is taken, or there is a time to wait for one. -/
def RateLimiter.take (l : RateLimiter) (now : Rat) : RateLimiter × Option Rat :=
  let l := l.refill now
  if 1 ≤ l.tokens then ({ l with tokens := l.tokens - 1 }, none)
  else (l, some ((1 - l.tokens) / l.ratePerSec))

/-- What `set_rate` does under the lock: settled at the old rate first, the burst back to the default. -/
def RateLimiter.change (l : RateLimiter) (ratePerMinute : Int) (now : Rat) : RateLimiter :=
  let l := l.refill now
  { l with
    ratePerMinute := ratePerMinute
    ratePerSec := ratePerMinute / 60
    capacity := defaultBurst ratePerMinute
    tokens := min l.tokens (defaultBurst ratePerMinute) }

/-! ## What happens -/

/-- What happens to the limiter: a token was granted, or refused with a time to wait, or the rate was
changed. -/
inductive Event where
  | granted
  | refused (wait : Rat)
  | rated (ratePerMinute : Int)
  deriving DecidableEq

/-- The limiter, the time, and what happened with it, in order. -/
structure World where
  limiter : RateLimiter
  clock : Rat
  log : List (Rat × Event)

/-- A limiter that was just made. -/
def World.start (l : RateLimiter) (now : Rat) : World := ⟨l, now, []⟩

/-- A token is asked for now. -/
def World.take (w : World) : World × Option Rat :=
  let r := w.limiter.take w.clock
  let event := match r.2 with
    | none => Event.granted
    | some wait => Event.refused wait
  (⟨r.1, w.clock, w.log ++ [(w.clock, event)]⟩, r.2)

/-- The rate is changed now, unless it is refused. -/
def World.setRate (w : World) (ratePerMinute : Int) : World :=
  if ratePerMinute < 1 then w
  else ⟨w.limiter.change ratePerMinute w.clock, w.clock,
    w.log ++ [(w.clock, .rated ratePerMinute)]⟩

/-- What another thread does under the lock. -/
inductive Other where
  | take
  | setRate (ratePerMinute : Int)

/-- Time passes, and then another thread has the lock. -/
def World.other (w : World) (o : NNRat × Other) : World :=
  let w := { w with clock := w.clock + o.1 }
  match o.2 with
  | .take => w.take.1
  | .setRate ratePerMinute => w.setRate ratePerMinute

/-- What happens before a step: other threads, and the time that passes after them. -/
structure Answer where
  others : List (NNRat × Other)
  elapsed : NNRat

def World.pass (w : World) (a : Answer) : World :=
  let w := a.others.foldl World.other w
  { w with clock := w.clock + a.elapsed }

/-! ## Calls -/

/-- A program over the limiter. -/
abbrev Limiting := Program World Answer

/-- A step, after what happens before it. -/
def step {α : Type} (f : World → World × α) : Limiting α := Program.act fun w a => f (w.pass a)

def monotonic : Limiting Rat := step fun w => (w, w.clock)

/-- `time.sleep`: at least so long. -/
def sleep (seconds : Rat) : Limiting Unit :=
  Program.act fun w a => ({ w.pass a with clock := max (w.clock + seconds) (w.pass a).clock }, ())

def takeLocked : Limiting (Option Rat) := step World.take

/-- A turn of the loop of `acquire`. -/
def acquireTurn (timeout deadline : Rat) : Limiting (Unit ⊕ Bool) := do
  let wait ← takeLocked
  match wait with
  | none => pure (.inr true)
  | some wait => do
      let now ← monotonic
      if timeout ≤ 0 ∨ deadline - now ≤ 0 then pure (.inr false)
      else do
        sleep (min wait (deadline - now))
        pure (.inl ())

/-- `acquire` -/
def acquire (timeout : Rat) : Limiting Bool := do
  let now ← monotonic
  Program.loop (fun _ => acquireTurn timeout (now + timeout)) ()

/-- `set_rate`: false where it raises. -/
def setRate (ratePerMinute : Int) : Limiting Bool :=
  if ratePerMinute < 1 then pure false
  else step fun w => (w.setRate ratePerMinute, true)

/-- A call of the limiter. -/
inductive Call where
  | acquire (timeout : Rat)
  | setRate (ratePerMinute : Int)

def Call.run : Call → Limiting Bool
  | .acquire timeout => RateLimit.acquire timeout
  | .setRate ratePerMinute => RateLimit.setRate ratePerMinute

/-- One call after the other; a call whose answers end has not returned. -/
def runs (calls : List (Call × List Answer)) (w : World) : List World :=
  Program.runs (calls.map fun c => (c.1.run, c.2)) w

/-! ## What is asked -/

/-- The use of the bucket that an event stands for. -/
def use : Event → Use Rat
  | .granted => .take
  | .refused _ => .look
  | .rated ratePerMinute => .change (defaultBurst ratePerMinute) (ratePerMinute / 60)

def uses (log : List (Rat × Event)) : List (Rat × Use Rat) := log.map fun e => (e.1, use e.2)

/-- The tokens granted. -/
def grants (log : List (Rat × Event)) : Nat := log.countP fun e => decide (e.2 = .granted)

/-- The capacity in force after what happened. -/
def capacityAfter (capacity : Int) (log : List (Rat × Event)) : Int :=
  log.foldl (fun capacity e => match e.2 with
    | .rated ratePerMinute => defaultBurst ratePerMinute
    | _ => capacity) capacity

/-- The rate in force after what happened, for a second. -/
def rateAfter (rate : Rat) (log : List (Rat × Event)) : Rat :=
  log.foldl (fun rate e => match e.2 with
    | .rated ratePerMinute => ratePerMinute / 60
    | _ => rate) rate

/-- What the limiter owes, since it was made: its tokens lie between nothing and the capacity; over any
interval, which starts after some of what happened and ends before the rest, at most the capacity at its
start and the integral of the rate are granted; and after a refusal a token is granted from the time that
was named on, and not before. -/
structure Limited (l : RateLimiter) (w : World) : Prop where
  nonneg : 0 ≤ w.limiter.tokens
  le : w.limiter.tokens ≤ w.limiter.capacity
  capacity : w.limiter.capacity = capacityAfter l.capacity w.log
  grants : ∀ before during after, w.log = before ++ during ++ after → ∀ a z, l.lastRefill ≤ a → a ≤ z →
    (∀ e ∈ before, e.1 ≤ a) → (∀ e ∈ during, a ≤ e.1 ∧ e.1 ≤ z) →
      (grants during : Rat) ≤ capacityAfter l.capacity before +
        Buckets.inflow (rateAfter l.ratePerSec before) a (uses during) z
  waits : ∀ before t wait, w.log = before ++ [(t, .refused wait)] → ∀ t', t ≤ t' →
    ((w.limiter.take t').2 = none ↔ t + wait ≤ t')

/-! ## The limiter is a bucket -/

/-- The limiter as a bucket. -/
def RateLimiter.bucket (l : RateLimiter) : Bucket Rat :=
  ⟨l.capacity, l.ratePerSec, l.tokens, l.lastRefill⟩

theorem bucket_refill (l : RateLimiter) (now : Rat) : (l.refill now).bucket = l.bucket.settle now := rfl

theorem bucket_change (l : RateLimiter) (ratePerMinute : Int) (now : Rat) :
    (l.change ratePerMinute now).bucket = l.bucket.after now (use (.rated ratePerMinute)) := rfl

/-- A token is granted when the level is one, and the limiter is the bucket after that. -/
theorem take_spec (l : RateLimiter) (now : Rat) :
    (1 ≤ l.bucket.level now ∧ (l.take now).2 = none ∧
        (l.take now).1.bucket = l.bucket.after now .take) ∨
      (l.bucket.level now < 1 ∧ (l.take now).2 = some ((1 - l.bucket.level now) / l.ratePerSec) ∧
        (l.take now).1 = l.refill now) := by
  by_cases hone : 1 ≤ (l.refill now).tokens
  · left
    refine ⟨hone, ?_, ?_⟩
    · simp only [RateLimiter.take, if_pos hone]
    · simp only [RateLimiter.take, if_pos hone]
      rfl
  · right
    refine ⟨not_le.mp hone, ?_, ?_⟩
    · simp only [RateLimiter.take, if_neg hone]
      rfl
    · simp only [RateLimiter.take, if_neg hone]

/-! ## The invariant -/

section Runs

variable {l : RateLimiter} {w : World}

/-- The limiter is the bucket that all that happened leaves, and every use was allowed. -/
structure Kept (l : RateLimiter) (w : World) : Prop where
  bucket : w.limiter.bucket = l.bucket.afterAll (uses w.log)
  allows : l.bucket.AllowsAll (uses w.log)
  ordered : Buckets.Ordered l.bucket.since (uses w.log) w.clock
  rate : 0 < w.limiter.ratePerSec
  capacity : 1 ≤ w.limiter.capacity
  refused : ∀ before t wait, w.log = before ++ [(t, .refused wait)] →
    w.limiter.lastRefill = t ∧ wait = (1 - w.limiter.tokens) / w.limiter.ratePerSec

theorem uses_append (log : List (Rat × Event)) (t : Rat) (e : Event) :
    uses (log ++ [(t, e)]) = uses log ++ [(t, use e)] := List.map_append

/-- Time passes. -/
theorem Kept.later (h : Kept l w) {t : Rat} (ht : w.clock ≤ t) : Kept l { w with clock := t } := by
  refine ⟨h.bucket, h.allows, ?_, h.rate, h.capacity, h.refused⟩
  have hordered := Buckets.ordered_iff.mp h.ordered
  exact Buckets.ordered_iff.mpr ⟨hordered.1.trans ht,
    fun u hu => ⟨(hordered.2.1 u hu).1, (hordered.2.1 u hu).2.trans ht⟩, hordered.2.2⟩

/-- One more use, which the bucket allows. -/
theorem Kept.use (h : Kept l w) {l' : RateLimiter} {e : Event}
    (hbucket : l'.bucket = w.limiter.bucket.after w.clock (use e))
    (hallows : w.limiter.bucket.Allows w.clock (use e)) (hrate : 0 < l'.ratePerSec)
    (hcapacity : 1 ≤ l'.capacity)
    (hrefused : ∀ wait, e = .refused wait →
      l'.lastRefill = w.clock ∧ wait = (1 - l'.tokens) / l'.ratePerSec) :
    Kept l ⟨l', w.clock, w.log ++ [(w.clock, e)]⟩ := by
  have hordered := Buckets.ordered_iff.mp h.ordered
  refine ⟨?_, ?_, ?_, hrate, hcapacity, ?_⟩
  · rw [uses_append, Buckets.afterAll_append, ← h.bucket]
    exact hbucket
  · rw [uses_append, Buckets.allowsAll_append, ← h.bucket]
    exact ⟨h.allows, hallows, trivial⟩
  · rw [uses_append]
    refine Buckets.ordered_iff.mpr ⟨hordered.1, ?_, ?_⟩
    · intro u hu
      rcases List.mem_append.mp hu with hu | hu
      · exact hordered.2.1 u hu
      · rw [List.mem_singleton.mp hu]
        exact ⟨hordered.1, le_refl _⟩
    · refine List.pairwise_append.mpr ⟨hordered.2.2, List.pairwise_singleton _ _, ?_⟩
      intro u hu v hv
      rw [List.mem_singleton.mp hv]
      exact (hordered.2.1 u hu).2
  · intro before t wait hlog
    obtain ⟨-, hlast⟩ := List.append_inj' hlog rfl
    obtain ⟨rfl, rfl⟩ := Prod.mk.inj (List.cons.inj hlast).1
    exact hrefused wait rfl

theorem Kept.take (h : Kept l w) : Kept l w.take.1 := by
  rcases take_spec w.limiter w.clock with ⟨hone, hnone, hbucket⟩ | ⟨hless, hwait, hlimiter⟩
  · have hworld : w.take.1 = ⟨(w.limiter.take w.clock).1, w.clock, w.log ++ [(w.clock, .granted)]⟩ := by
      simp only [World.take, hnone]
    have hrate : (w.limiter.take w.clock).1.ratePerSec = w.limiter.ratePerSec :=
      congrArg Bucket.rate hbucket
    rw [hworld]
    refine h.use hbucket hone (hrate ▸ h.rate) ?_ fun wait hevent => Event.noConfusion hevent
    have hcapacity : ((w.limiter.take w.clock).1.capacity : Rat) = w.limiter.capacity :=
      congrArg Bucket.capacity hbucket
    rw [Int.cast_inj.mp hcapacity]
    exact h.capacity
  · have hworld : w.take.1 = ⟨w.limiter.refill w.clock, w.clock, w.log ++
        [(w.clock, .refused ((1 - w.limiter.bucket.level w.clock) / w.limiter.ratePerSec))]⟩ := by
      simp only [World.take, hwait, hlimiter]
    rw [hworld]
    refine h.use rfl trivial h.rate h.capacity fun wait hevent => ?_
    obtain rfl := Event.refused.inj hevent
    exact ⟨rfl, rfl⟩

theorem one_le_defaultBurst (ratePerMinute : Int) : 1 ≤ defaultBurst ratePerMinute :=
  le_max_right _ _

theorem rate_pos {ratePerMinute : Int} (h : ¬ ratePerMinute < 1) : 0 < (ratePerMinute : Rat) / 60 := by
  have hpos : (0 : Rat) < ratePerMinute := Int.cast_pos.mpr (by omega)
  exact div_pos hpos (by norm_num)

theorem Kept.setRate (h : Kept l w) (ratePerMinute : Int) : Kept l (w.setRate ratePerMinute) := by
  rw [World.setRate]
  split
  · exact h
  · rename_i hrate
    have hburst : (0 : Rat) ≤ defaultBurst ratePerMinute :=
      Int.cast_nonneg (le_trans zero_le_one (one_le_defaultBurst ratePerMinute))
    exact h.use (bucket_change w.limiter ratePerMinute w.clock)
      ⟨hburst, le_of_lt (rate_pos hrate)⟩ (rate_pos hrate) (one_le_defaultBurst ratePerMinute)
      fun wait hevent => Event.noConfusion hevent

theorem Kept.pass (h : Kept l w) (a : Answer) : Kept l (w.pass a) := by
  have hothers : Kept l (a.others.foldl World.other w) := by
    generalize a.others = others
    induction others generalizing w with
    | nil => exact h
    | cons o others ih =>
        refine ih ?_
        have hlater := h.later (le_add_of_nonneg_right (NNRat.cast_nonneg o.1) :
          w.clock ≤ w.clock + (o.1 : Rat))
        obtain ⟨elapsed, act⟩ := o
        cases act with
        | take => exact hlater.take
        | setRate ratePerMinute => exact hlater.setRate ratePerMinute
  exact hothers.later (le_add_of_nonneg_right (NNRat.cast_nonneg a.elapsed))

/-! ## The calls -/

/-- Every step keeps the invariant. -/
abbrev Keeping {α : Type} (l : RateLimiter) (m : Limiting α) : Prop :=
  Program.Safe (fun _ => True) (fun _ w' => Kept l w') (Kept l) m fun _ => Kept l

theorem keeping_step {α : Type} {f : World → World × α} (hf : ∀ w, Kept l w → Kept l (f w).1) :
    Keeping l (step f) :=
  Program.safe_act fun _ a _ hw => ⟨hf _ (hw.pass a), hf _ (hw.pass a)⟩

theorem keeping_sleep (seconds : Rat) : Keeping l (sleep seconds) :=
  Program.safe_act fun _ a _ hw =>
    ⟨(hw.pass a).later (le_max_right _ _), (hw.pass a).later (le_max_right _ _)⟩

theorem keeping_acquireTurn (timeout deadline : Rat) : Keeping l (acquireTurn timeout deadline) := by
  apply Program.safe_bind (keeping_step fun w hw => hw.take)
  intro wait
  cases wait with
  | none => exact Program.safe_pure fun w hw => hw
  | some wait =>
      apply Program.safe_bind (keeping_step fun w hw => hw)
      intro now
      split
      · exact Program.safe_pure fun w hw => hw
      · apply Program.safe_bind (keeping_sleep _)
        intro _
        exact Program.safe_pure fun w hw => hw

theorem keeping_run (c : Call) : Keeping l c.run := by
  cases c with
  | acquire timeout =>
      apply Program.safe_bind (keeping_step fun w hw => hw)
      intro now
      refine Program.safe_loop (I := fun _ => Kept l) (fun _ => ?_) ()
      refine Program.safe_weaken (keeping_acquireTurn timeout (now + timeout)) (fun _ h => h) ?_
      rintro (next | granted) _ hw
      · exact hw
      · exact hw
  | setRate ratePerMinute =>
      change Keeping l (if _ then _ else _)
      split
      · exact Program.safe_pure fun w hw => hw
      · exact keeping_step fun w hw => hw.setRate ratePerMinute

/-! ## What the invariant says -/

/-- What is in force after the log is what the bucket has after it. -/
theorem afterAll_uses (l : RateLimiter) (log : List (Rat × Event)) :
    (l.bucket.afterAll (uses log)).capacity = capacityAfter l.capacity log ∧
      (l.bucket.afterAll (uses log)).rate = rateAfter l.ratePerSec log := by
  induction log using List.reverseRecOn with
  | nil => exact ⟨rfl, rfl⟩
  | append_singleton log e ih =>
      obtain ⟨t, event⟩ := e
      rw [uses_append, Buckets.afterAll_append, capacityAfter, rateAfter, List.foldl_append,
        List.foldl_append]
      cases event with
      | granted => exact ih
      | refused wait => exact ih
      | rated ratePerMinute => exact ⟨rfl, rfl⟩

theorem taken_uses (log : List (Rat × Event)) : Buckets.taken (uses log) = grants log := by
  rw [Buckets.taken, uses, List.countP_map, grants]
  refine List.countP_congr fun e _ => ?_
  obtain ⟨t, event⟩ := e
  cases event <;> simp [use]

theorem limited_of_kept (hl : l.bucket.Sound) (h : Kept l w) : Limited l w := by
  obtain ⟨hsound, hsince⟩ := Buckets.sound_afterAll hl h.allows h.ordered
  rw [← h.bucket] at hsound hsince
  have hordered := Buckets.ordered_iff.mp h.ordered
  constructor
  · exact hsound.nonneg
  · exact hsound.le
  · have hcapacity := (afterAll_uses l w.log).1
    rw [← h.bucket] at hcapacity
    exact Int.cast_inj.mp hcapacity
  · intro before during after hlog a z hstart haz hbefore hduring
    have huses : uses w.log = uses before ++ uses during ++ uses after := by
      rw [hlog, uses, List.map_append, List.map_append]
      rfl
    have hallows := h.allows
    have hpairs := hordered.2.2
    rw [huses] at hallows hpairs
    have hdone := Buckets.allowsAll_append.mp (Buckets.allowsAll_append.mp hallows).1
    have hpair := (List.pairwise_append.mp (List.pairwise_append.mp hpairs).1)
    -- the bucket where the interval starts
    obtain ⟨hsound', hsince'⟩ := Buckets.sound_afterAll (z := a) hl hdone.1
      (Buckets.ordered_iff.mpr ⟨hstart, by
        intro u hu
        have hu' : u ∈ uses w.log := by
          rw [huses]
          exact List.mem_append_left _ (List.mem_append_left _ hu)
        obtain ⟨e, he, rfl⟩ := List.mem_map.mp hu
        exact ⟨(hordered.2.1 _ hu').1, hbefore e he⟩, hpair.1⟩)
    have hduring' : Buckets.Ordered a (uses during) z := by
      refine Buckets.ordered_iff.mpr ⟨haz, fun u hu => ?_, hpair.2.1⟩
      obtain ⟨e, he, rfl⟩ := List.mem_map.mp hu
      exact hduring e he
    have hpotential := Buckets.taken_add_level_le hsound' hsince' hduring' hdone.2
    have hlevel := Buckets.level_le (l.bucket.afterAll (uses before)) a
    have hend := Buckets.sound_afterAll (z := z) hsound' hdone.2
      (Buckets.ordered_iff.mpr ⟨hsince'.trans haz, fun u hu =>
        ⟨hsince'.trans ((Buckets.ordered_iff.mp hduring').2.1 u hu).1,
          ((Buckets.ordered_iff.mp hduring').2.1 u hu).2⟩, hpair.2.1⟩)
    have hleft := hend.1.level_nonneg hend.2
    rw [taken_uses, (afterAll_uses l before).2] at hpotential
    rw [(afterAll_uses l before).1] at hlevel
    linarith
  · intro before t wait hlog t' ht
    obtain ⟨hrefill, hwait⟩ := h.refused before t wait hlog
    have hcapacity : (1 : Rat) ≤ w.limiter.capacity := by exact_mod_cast h.capacity
    have hiff := Buckets.one_le_level_iff (b := w.limiter.bucket) (t := t') hcapacity h.rate
    have hwhen : w.limiter.bucket.since + (1 - w.limiter.bucket.tokens) / w.limiter.bucket.rate =
        t + wait := by
      rw [hwait, ← hrefill]
      rfl
    rw [hwhen] at hiff
    rw [← hiff]
    rcases take_spec w.limiter t' with ⟨hone, hnone, -⟩ | ⟨hless, hsome, -⟩
    · exact iff_of_true hnone hone
    · rw [hsome]
      exact iff_of_false (Option.some_ne_none _) (not_le.mpr hless)

end Runs

/-- **The budget holds** at every step of every sequence of calls, with other threads between the steps:
the tokens lie between nothing and the capacity, no interval grants more than its capacity at the start
and the integral of the rate, and a refusal names the time from which a token is there. -/
theorem limited_runs {ratePerMinute : Int} {burst : Option Int} {now : Rat} {l : RateLimiter}
    (hnew : RateLimiter.new ratePerMinute burst now = .ok l) (hcapacity : 1 ≤ l.capacity)
    (calls : List (Call × List Answer)) :
    ∀ w ∈ World.start l now :: runs calls (World.start l now), Limited l w := by
  obtain ⟨hrate, hfull, hstart⟩ : 0 < l.ratePerSec ∧ l.tokens = l.capacity ∧ l.lastRefill = now := by
    rw [RateLimiter.new] at hnew
    split at hnew
    · cases hnew
    · rename_i hpositive
      obtain rfl := Except.ok.inj hnew
      exact ⟨rate_pos hpositive, rfl, rfl⟩
  have hsound : l.bucket.Sound :=
    ⟨le_of_lt hrate, le_of_le_of_eq (by exact_mod_cast le_trans zero_le_one hcapacity) hfull.symm,
      le_of_eq hfull⟩
  have hkept : Kept l (World.start l now) :=
    ⟨rfl, trivial, le_of_eq hstart, hrate, hcapacity, fun before t wait hlog =>
      absurd hlog (by simp [World.start])⟩
  have hchain : List.IsChain (fun _ w' => Kept l w')
      (World.start l now :: runs calls (World.start l now)) := by
    refine Program.chain_runs (fun _ => True) (I := Kept l) (fun _ _ _ h => h) ?_ hkept
    intro p hp
    obtain ⟨c, -, rfl⟩ := List.mem_map.mp hp
    exact ⟨Program.safe_weaken (keeping_run c.1) (fun _ h => h) fun _ _ _ => trivial,
      fun _ _ => trivial⟩
  intro w hw
  exact limited_of_kept hsound
    (Program.inv_of_isChain (I := Kept l) (fun _ _ _ h => h) hkept hchain w hw)

/-- A limiter of one token in a second, two at once. -/
def oneASecond : RateLimiter := ⟨60, ((60 : Int) : Rat) / 60, 2, ((2 : Int) : Rat), 0⟩

/-- Three tokens are asked for at once, and the third is refused. -/
def threeAsked : List (Call × List Answer) :=
  List.replicate 3 (.acquire 0, List.replicate 3 ⟨[], 0⟩)

theorem limited_runs_three :
    (lastState (World.start oneASecond 0) (runs threeAsked (World.start oneASecond 0))).log =
        [(0, .granted), (0, .granted), (0, .refused 1)] ∧
      ∀ w ∈ World.start oneASecond 0 :: runs threeAsked (World.start oneASecond 0),
        Limited oneASecond w :=
  ⟨by decide +kernel, limited_runs (show RateLimiter.new 60 (some 2) 0 = .ok oneASecond from rfl)
    (by decide) threeAsked⟩

end IllumioOps.RateLimit
