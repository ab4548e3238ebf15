import IllumioOps.Alerts.Gates
import Mathlib.Data.List.Chain

/-!
# What a gate lets through

The triggers of one rule for one subject, over the commits of its evaluations: each is let through
exactly when the cooldown and the throttle, taken over everything let through before, allow it
(`gate_exact`). The gate keeps only the last of these and those of the last period; what it forgets lies
before every window that a later trigger ends.
-/

set_option autoImplicit false

namespace IllumioOps.Alerts

/-! ## The two limits -/

/-- The times of what was let through keep the cooldown and the throttle of the rule: two in a row are
the cooldown apart, and no half-open window of the period, open at either end, holds more than the
throttle's count. -/
structure Respects (rule : RuleBase) (times : List Int) : Prop where
  cooldown : times.IsChain fun s t => s + minutes rule.cooldownMinutes ≤ t
  throttle : ∀ th ∈ rule.throttle, ∀ a : Int,
    times.countP (fun t => decide (a ≤ t ∧ t < a + minutes th.periodMinutes)) ≤ th.count ∧
      times.countP (fun t => decide (a < t ∧ t ≤ a + minutes th.periodMinutes)) ≤ th.count

/-- A state keeps of the times that were let through what a gate from now on reads: the last, and those of
any period that ends from now on. -/
structure Remembers (rule : RuleBase) (past : List Int) (now : Int) (st : RuleState) : Prop where
  last : st.lastFiredAt = past.getLast?
  recent : ∀ th ∈ rule.throttle, ∀ t, now ≤ t →
    st.recent.filter (fun s => decide (t - minutes th.periodMinutes < s)) =
      past.filter fun s => decide (t - minutes th.periodMinutes < s)
  past_le : ∀ s ∈ past, s ≤ now

section Gate

variable {rule : RuleBase} {past : List Int} {now : Int} {st : RuleState}

theorem remembers_nil : Remembers rule [] now ⟨none, []⟩ :=
  ⟨rfl, fun _ _ _ _ => rfl, fun _ h => absurd h List.not_mem_nil⟩

theorem Remembers.mono {now' : Int} (h : Remembers rule past now st) (hnow : now ≤ now') :
    Remembers rule past now' st :=
  ⟨h.last, fun th hth t ht => h.recent th hth t (Int.le_trans hnow ht),
    fun s hs => Int.le_trans (h.past_le s hs) hnow⟩

/-- The cooldown allows another time when it is over. -/
theorem chain_snoc_iff {c : Int} (hchain : past.IsChain fun s t => s + c ≤ t) :
    (past ++ [now]).IsChain (fun s t => s + c ≤ t) ↔ ∀ s ∈ past.getLast?, s + c ≤ now := by
  rw [List.isChain_append]
  constructor
  · rintro ⟨-, -, h⟩ s hs
    exact h s hs now rfl
  · intro h
    refine ⟨hchain, List.isChain_singleton _, fun s hs t ht => ?_⟩
    obtain rfl := Option.some.inj ht
    exact h s hs

/-- The throttle allows another time when the window that it ends has room. -/
theorem windows_snoc_iff (p : Int) (count : Nat) (hp : 0 < p) (hpast : ∀ s ∈ past, s ≤ now)
    (hwindows : ∀ a : Int, past.countP (fun t => decide (a ≤ t ∧ t < a + p)) ≤ count ∧
      past.countP (fun t => decide (a < t ∧ t ≤ a + p)) ≤ count) :
    (∀ a : Int, (past ++ [now]).countP (fun t => decide (a ≤ t ∧ t < a + p)) ≤ count ∧
        (past ++ [now]).countP (fun t => decide (a < t ∧ t ≤ a + p)) ≤ count) ↔
      (past.filter fun s => decide (now - p < s)).length < count := by
  rw [← List.countP_eq_length_filter]
  have hsnoc : ∀ f : Int → Bool,
      (past ++ [now]).countP f = past.countP f + if f now = true then 1 else 0 := fun f => by
    rw [List.countP_append, List.countP_singleton]
  constructor
  · -- the window that ends now, its end included
    intro h
    have hnow := (h (now - p)).2
    rw [hsnoc, if_pos (decide_eq_true (by omega))] at hnow
    have hall : past.countP (fun t => decide (now - p < t ∧ t ≤ now - p + p)) =
        past.countP fun s => decide (now - p < s) := by
      refine List.countP_congr fun s hs => ?_
      have hle := hpast s hs
      simp only [decide_eq_true_eq]
      omega
    omega
  · intro h a
    -- a window with the new time in it reaches back no further than the one that ends now
    have hbound : ∀ f : Int → Bool, (∀ s ∈ past, f s = true → now - p < s) → past.countP f < count :=
      fun f hf => lt_of_le_of_lt
        (List.countP_mono_left fun s hs hfs => decide_eq_true (hf s hs hfs)) h
    rw [hsnoc, hsnoc]
    refine ⟨?_, ?_⟩
    · split
      · rename_i hin
        have hlt := hbound (fun t => decide (a ≤ t ∧ t < a + p)) fun s _ hs => by
          simp only [decide_eq_true_eq] at hs hin
          omega
        omega
      · exact (hwindows a).1
    · split
      · rename_i hin
        have hlt := hbound (fun t => decide (a < t ∧ t ≤ a + p)) fun s _ hs => by
          simp only [decide_eq_true_eq] at hs hin
          omega
        omega
      · exact (hwindows a).2

/-- The throttle of a rule, as its settings allow it. -/
def RuleBase.Valid (rule : RuleBase) : Prop :=
  ∀ th ∈ rule.throttle, 1 ≤ th.count ∧ 1 ≤ th.periodMinutes

/-- The times a gate still reads, of the period that ends now. -/
def gateRecent (rule : RuleBase) (st : RuleState) (now : Int) : List Int :=
  st.recent.filter fun t =>
    (rule.throttle.map fun th => minutes th.periodMinutes).any fun p => decide (now - p < t)

theorem gateRecent_eq {th : Throttle} (hth : rule.throttle = some th) :
    gateRecent rule st now =
      st.recent.filter fun t => decide (now - minutes th.periodMinutes < t) := by
  simp only [gateRecent, hth, Option.map_some, Option.any_some]

/-- The cooldown is not over. -/
def gateLate (rule : RuleBase) (st : RuleState) (now : Int) : Bool :=
  (if rule.cooldownMinutes = 0 then none
    else st.lastFiredAt.map fun t => t + minutes rule.cooldownMinutes).any fun t => decide (now < t)

/-- The throttle's period is full. -/
def gateFull (rule : RuleBase) (st : RuleState) (now : Int) : Bool :=
  rule.throttle.any fun th => decide (th.count ≤ (gateRecent rule st now).length)

/-- A gate is closed by the cooldown or by the throttle, and then only trims what is kept; an open one
adds the time. -/
theorem gate_cases (rule : RuleBase) (st : RuleState) (now : Int) :
    ((gateLate rule st now || gateFull rule st now) = true ∧
        (gate rule (some st) now).allowed = false ∧
        (gate rule (some st) now).state = ⟨st.lastFiredAt, gateRecent rule st now⟩) ∨
      ((gateLate rule st now || gateFull rule st now) = false ∧
        (gate rule (some st) now).allowed = true ∧
        (gate rule (some st) now).state =
          ⟨some now, if rule.throttle.isSome then gateRecent rule st now ++ [now] else []⟩) := by
  have hgate : gate rule (some st) now =
      if gateLate rule st now then ⟨.cooldown, _, ⟨st.lastFiredAt, gateRecent rule st now⟩⟩
      else if gateFull rule st now then ⟨.throttle, _, ⟨st.lastFiredAt, gateRecent rule st now⟩⟩
      else ⟨.ok, none,
        ⟨some now, if rule.throttle.isSome then gateRecent rule st now ++ [now] else []⟩⟩ := rfl
  cases hlate : gateLate rule st now <;> cases hfull : gateFull rule st now <;>
    simp [hgate, hlate, hfull, GateResult.allowed]

theorem gateLate_iff (h : Remembers rule past now st) :
    gateLate rule st now = false ↔
      ∀ s ∈ past.getLast?, s + minutes rule.cooldownMinutes ≤ now := by
  rw [gateLate, h.last]
  cases hlast : past.getLast? with
  | none => simp
  | some s =>
    have hle := h.past_le s (List.mem_of_getLast? hlast)
    by_cases hzero : rule.cooldownMinutes = 0
    · simpa [hzero, minutes, seconds, milliseconds] using hle
    · simp [hzero]

theorem gateFull_iff (h : Remembers rule past now st) :
    gateFull rule st now = false ↔
      ∀ th ∈ rule.throttle,
        (past.filter fun s => decide (now - minutes th.periodMinutes < s)).length < th.count := by
  rw [gateFull]
  cases hth : rule.throttle with
  | none => simp
  | some th =>
    rw [gateRecent_eq hth, h.recent th hth now (Int.le_refl now)]
    simp

/-- The gate lets a trigger through exactly when the limits allow it. -/
theorem gate_allowed_iff (hvalid : rule.Valid) (hpast : Respects rule past)
    (h : Remembers rule past now st) :
    (gate rule (some st) now).allowed = true ↔ Respects rule (past ++ [now]) := by
  have hrespects : Respects rule (past ++ [now]) ↔
      (∀ s ∈ past.getLast?, s + minutes rule.cooldownMinutes ≤ now) ∧
        ∀ th ∈ rule.throttle,
          (past.filter fun s => decide (now - minutes th.periodMinutes < s)).length < th.count := by
    have hwindows : ∀ th ∈ rule.throttle, _ := fun th hth =>
      windows_snoc_iff (minutes th.periodMinutes) th.count
        (by have := (hvalid th hth).2; simp only [minutes, seconds, milliseconds]; omega) h.past_le
        (hpast.throttle th hth)
    constructor
    · exact fun hr => ⟨(chain_snoc_iff hpast.cooldown).1 hr.cooldown,
        fun th hth => (hwindows th hth).1 (hr.throttle th hth)⟩
    · exact fun hr => ⟨(chain_snoc_iff hpast.cooldown).2 hr.1,
        fun th hth => (hwindows th hth).2 (hr.2 th hth)⟩
  rw [hrespects, ← gateLate_iff h, ← gateFull_iff h, ← Bool.or_eq_false_iff]
  rcases gate_cases rule st now with ⟨hclosed, hallowed, -⟩ | ⟨hopen, hallowed, -⟩
  · simp [hclosed, hallowed]
  · simp [hopen, hallowed]

/-- What a gate leaves remembers what it let through. -/
theorem remembers_gate (h : Remembers rule past now st) :
    Remembers rule (if (gate rule (some st) now).allowed then past ++ [now] else past) now
      (gate rule (some st) now).state := by
  have hkept : Remembers rule past now ⟨st.lastFiredAt, gateRecent rule st now⟩ := by
    refine ⟨h.last, fun th hth t ht => ?_, h.past_le⟩
    rw [gateRecent_eq hth, ← h.recent th hth t ht, List.filter_filter]
    refine List.filter_congr fun s _ => ?_
    -- what is trimmed now lies before every period that ends later
    by_cases hs : t - minutes th.periodMinutes < s
    · have hnow : now - minutes th.periodMinutes < s := by omega
      simp [hs, hnow]
    · simp [hs]
  rcases gate_cases rule st now with ⟨-, hallowed, hstate⟩ | ⟨-, hallowed, hstate⟩
  · rw [hallowed, hstate]
    exact hkept
  · rw [hallowed, hstate, if_pos rfl]
    refine ⟨by simp, fun th hth t ht => ?_, fun s hs => ?_⟩
    · rw [Option.mem_def] at hth
      rw [hth, Option.isSome_some, if_pos rfl, List.filter_append, List.filter_append,
        hkept.recent th hth t ht]
    · rcases List.mem_append.1 hs with hs | hs
      · exact h.past_le s hs
      · exact Int.le_of_eq (List.mem_singleton.1 hs)

end Gate

/-! ## Commits -/

/-- What the gate of a rule decides of the triggers for a subject, in the order they are written: when,
and whether each was let through. -/
def decisions (rec : Recorder) (ruleId subject : String) :
    Writing → List (RuleBase × Trigger) → List (Int × Bool)
  | _, [] => []
  | w, rt :: rts =>
      let rest := decisions rec ruleId subject (rec.writeTrigger w rt) rts
      if isAbout ruleId subject rt then
        (rec.now, (gate rt.1 (w.db.ruleState rt.1.id rt.2.subjectKey) rec.now).allowed) :: rest
      else rest

/-- A commit of an evaluation. -/
structure Commit where
  batch : Recorder
  source : Source
  mark : Option Watermark

/-- What is decided over commits, one after the other. -/
def decisionsOver (ruleId subject : String) : AlertDb → List Commit → List (Int × Bool)
  | _, [] => []
  | db, c :: cs =>
      decisions c.batch ruleId subject ⟨db, [], 0, 0⟩ c.batch.triggers ++
        decisionsOver ruleId subject (c.batch.change c.source c.mark db).1 cs

/-- The times of what was let through. -/
def allowedTimes (ds : List (Int × Bool)) : List Int := (ds.filter Prod.snd).map Prod.fst

theorem allowedTimes_append (ds es : List (Int × Bool)) :
    allowedTimes (ds ++ es) = allowedTimes ds ++ allowedTimes es := by
  rw [allowedTimes, List.filter_append, List.map_append, allowedTimes, allowedTimes]

/-- After what was let through, every decision is the one the limits make of what is let through before
it. -/
def Exact (rule : RuleBase) (past : List Int) (ds : List (Int × Bool)) : Prop :=
  Respects rule (past ++ allowedTimes ds) ∧
    ∀ before d after, ds = before ++ d :: after →
      (d.2 = true ↔ Respects rule (past ++ allowedTimes before ++ [d.1]))

theorem exact_nil {rule : RuleBase} {past : List Int} (h : Respects rule past) : Exact rule past [] := by
  refine ⟨by rwa [allowedTimes, List.filter_nil, List.map_nil, List.append_nil], ?_⟩
  intro before d after h
  simp at h

theorem exact_cons {rule : RuleBase} {past : List Int} {now : Int} {ok : Bool}
    {ds : List (Int × Bool)} (hok : ok = true ↔ Respects rule (past ++ [now]))
    (h : Exact rule (if ok then past ++ [now] else past) ds) : Exact rule past ((now, ok) :: ds) := by
  have hpast : ∀ es : List (Int × Bool), past ++ allowedTimes ((now, ok) :: es) =
      (if ok then past ++ [now] else past) ++ allowedTimes es := fun es => by
    cases ok <;> simp [allowedTimes]
  refine ⟨by rw [hpast]; exact h.1, fun before d after heq => ?_⟩
  cases before with
  | nil =>
    obtain ⟨rfl, rfl⟩ := List.cons.inj heq
    simpa [allowedTimes] using hok
  | cons e before =>
    obtain ⟨rfl, rfl⟩ := List.cons.inj heq
    rw [hpast]
    exact h.2 before d after rfl

theorem exact_append {rule : RuleBase} {past : List Int} {ds es : List (Int × Bool)}
    (hds : Exact rule past ds) (hes : Exact rule (past ++ allowedTimes ds) es) :
    Exact rule past (ds ++ es) := by
  refine ⟨by rw [allowedTimes_append, ← List.append_assoc]; exact hes.1, fun before d after heq => ?_⟩
  rcases List.append_eq_append_iff.1 heq with ⟨cs, rfl, hcs⟩ | ⟨cs, rfl, hcs⟩
  · rw [allowedTimes_append, ← List.append_assoc]
    exact hes.2 cs d after hcs
  · cases cs with
    | nil =>
      rw [List.nil_append] at hcs
      have h := hes.2 [] d after hcs.symm
      simpa [allowedTimes] using h
    | cons c cs =>
      obtain ⟨rfl, -⟩ := List.cons.inj hcs
      exact hds.2 before _ cs rfl

section Runs

variable {rule : RuleBase} {subject : String}

/-- One trigger: its decision, and what the state remembers after it. -/
theorem decide_trigger (hvalid : rule.Valid) {rec : Recorder} {w : Writing} {rt : RuleBase × Trigger}
    (hrule : rt.1.id = rule.id → rt.1 = rule) {past : List Int} (hpast : Respects rule past)
    (h : Remembers rule past rec.now (w.db.stateOf rule.id subject)) :
    (isAbout rule.id subject rt = false ∧
        Remembers rule past rec.now ((rec.writeTrigger w rt).db.stateOf rule.id subject)) ∨
      (isAbout rule.id subject rt = true ∧ ∃ ok,
        (gate rt.1 (w.db.ruleState rt.1.id rt.2.subjectKey) rec.now).allowed = ok ∧
        (ok = true ↔ Respects rule (past ++ [rec.now])) ∧
        Remembers rule (if ok then past ++ [rec.now] else past) rec.now
          ((rec.writeTrigger w rt).db.stateOf rule.id subject)) := by
  obtain ⟨base, t⟩ := rt
  have hwrite := (writeTrigger_cases rec w base t).1 rule.id subject
  cases habout : isAbout rule.id subject (base, t) with
  | false =>
    refine Or.inl ⟨rfl, ?_⟩
    have hnot : ¬ (base.id = rule.id ∧ t.subjectKey = subject) := fun hand => by
      rw [isAbout_iff.2 hand] at habout
      cases habout
    rw [AlertDb.stateOf, hwrite, if_neg hnot]
    exact h
  | true =>
    obtain ⟨hid, hsubject⟩ := isAbout_iff.1 habout
    obtain rfl : base = rule := hrule hid
    obtain rfl : t.subjectKey = subject := hsubject
    have hgate : gate base (w.db.ruleState base.id t.subjectKey) rec.now =
        gate base (some (w.db.stateOf base.id t.subjectKey)) rec.now := rfl
    refine Or.inr ⟨rfl, _, rfl, ?_, ?_⟩
    · rw [hgate]
      exact gate_allowed_iff hvalid hpast h
    · have hstate : (rec.writeTrigger w (base, t)).db.stateOf base.id t.subjectKey =
          (gate base (some (w.db.stateOf base.id t.subjectKey)) rec.now).state := by
        rw [AlertDb.stateOf, hwrite, if_pos ⟨rfl, rfl⟩, hgate]
        rfl
      rw [hstate, hgate]
      exact remembers_gate h

/-- The triggers of a transaction. -/
theorem exact_decisions (hvalid : rule.Valid) {rec : Recorder} {rts : List (RuleBase × Trigger)}
    (hrule : ∀ rt ∈ rts, rt.1.id = rule.id → rt.1 = rule) {w : Writing} {past : List Int}
    (hpast : Respects rule past) (h : Remembers rule past rec.now (w.db.stateOf rule.id subject)) :
    Exact rule past (decisions rec rule.id subject w rts) ∧
      Remembers rule (past ++ allowedTimes (decisions rec rule.id subject w rts)) rec.now
        ((rts.foldl rec.writeTrigger w).db.stateOf rule.id subject) := by
  induction rts generalizing w past with
  | nil =>
    refine ⟨exact_nil hpast, ?_⟩
    simpa [decisions, allowedTimes] using h
  | cons rt rts ih =>
    have hrest := fun q hq => hrule q (List.mem_cons_of_mem rt hq)
    rcases decide_trigger hvalid (hrule rt List.mem_cons_self) hpast h with
      ⟨hnot, hnext⟩ | ⟨habout, ok, hgate, hok, hnext⟩
    · rw [decisions, if_neg (by simp [hnot])]
      exact ih hrest hpast hnext
    · have hpast' : Respects rule (if ok then past ++ [rec.now] else past) := by
        cases ok with
        | true => exact hok.1 rfl
        | false => exact hpast
      obtain ⟨hexact, hremembers⟩ := ih hrest hpast' hnext
      rw [decisions, if_pos habout, hgate]
      refine ⟨exact_cons hok hexact, ?_⟩
      cases ok <;> simpa [allowedTimes] using hremembers

/-- A commit, and the commits after it. -/
theorem exact_decisionsOver (hvalid : rule.Valid) {cs : List Commit}
    (hrule : ∀ c ∈ cs, ∀ rt ∈ c.batch.triggers, rt.1.id = rule.id → rt.1 = rule)
    (hnow : cs.Pairwise fun c d => c.batch.now ≤ d.batch.now) {db : AlertDb} {past : List Int}
    (hpast : Respects rule past)
    (h : ∀ c ∈ cs, Remembers rule past c.batch.now (db.stateOf rule.id subject)) :
    Exact rule past (decisionsOver rule.id subject db cs) := by
  induction cs generalizing db past with
  | nil => exact exact_nil hpast
  | cons c cs ih =>
    rw [List.pairwise_cons] at hnow
    have hstart : Remembers rule past c.batch.now
        ((⟨db, [], 0, 0⟩ : Writing).db.stateOf rule.id subject) := h c List.mem_cons_self
    obtain ⟨hexact, hremembers⟩ :=
      exact_decisions hvalid (hrule c List.mem_cons_self) hpast hstart
    -- the rest of the transaction leaves the state as the triggers left it
    have hstate : (c.batch.change c.source c.mark db).1.stateOf rule.id subject =
        ((c.batch.triggers.foldl c.batch.writeTrigger ⟨db, [], 0, 0⟩).db).stateOf rule.id subject := by
      rw [← stateOf_foldl_writeSeen c.batch.seen, Recorder.change, Recorder.written.eq_def]
      cases c.mark <;> rfl
    refine exact_append hexact (ih (fun d hd => hrule d (List.mem_cons_of_mem c hd)) hnow.2 hexact.1
      fun d hd => ?_)
    rw [hstate]
    exact hremembers.mono (hnow.1 d hd)

/-- Over all commits of evaluations with the rule, what is let through for a subject keeps the cooldown
and the throttle, and a trigger is held back only if letting it through would break one of them. -/
theorem gate_exact (rule : RuleBase) (subject : String) (db : AlertDb) (cs : List Commit)
    (hvalid : rule.Valid) (hnew : db.ruleState rule.id subject = none)
    (hrule : ∀ c ∈ cs, ∀ rt ∈ c.batch.triggers, rt.1.id = rule.id → rt.1 = rule)
    (hnow : cs.Pairwise fun c d => c.batch.now ≤ d.batch.now) :
    Respects rule (allowedTimes (decisionsOver rule.id subject db cs)) ∧
      ∀ before t ok after, decisionsOver rule.id subject db cs = before ++ (t, ok) :: after →
        (ok = true ↔ Respects rule (allowedTimes before ++ [t])) := by
  have hempty : Respects rule [] :=
    ⟨List.isChain_nil, fun _ _ _ => ⟨Nat.zero_le _, Nat.zero_le _⟩⟩
  have hstate : db.stateOf rule.id subject = ⟨none, []⟩ := by
    rw [AlertDb.stateOf, hnew]
    rfl
  have h : Exact rule [] (decisionsOver rule.id subject db cs) :=
    exact_decisionsOver hvalid hrule hnow hempty fun c _ => by
      rw [hstate]
      exact remembers_nil
  exact ⟨h.1, fun before t ok after heq => h.2 before (t, ok) after heq⟩

end Runs

/-- Once in ten minutes, and twice in an hour. -/
def twiceAnHour : RuleBase where
  id := "r"
  name := ""
  packKey := none
  enabled := true
  notify := true
  severity := none
  cooldownMinutes := 10
  throttle := some ⟨2, 60⟩

/-- A trigger of that rule at a minute. -/
def triggerAt (m : Int) : Commit where
  batch :=
    { now := minutes m
      pce := ("", "")
      generation := 0
      channels := []
      pending := [(twiceAnHour, [⟨"r", "s", .low, 0, 0, false, .detection 0 false .low, none⟩])]
      seen := [] }
  source := .lateral
  mark := none

theorem gate_exact_twiceAnHour :
    Respects twiceAnHour (allowedTimes
      (decisionsOver "r" "s" noAlerts ([0, 5, 10, 20, 60].map triggerAt))) ∧
    allowedTimes (decisionsOver "r" "s" noAlerts ([0, 5, 10, 20, 60].map triggerAt)) =
      [minutes 0, minutes 10, minutes 60] := by
  refine ⟨(gate_exact twiceAnHour "s" noAlerts _ ?_ rfl ?_ ?_).1, by decide +kernel⟩
  · intro th hth
    obtain rfl := Option.some.inj hth
    decide
  · intro c hc rt hrt hid
    obtain ⟨m, -, rfl⟩ := List.mem_map.1 hc
    obtain rfl := List.mem_singleton.1 hrt
    rfl
  · decide

end IllumioOps.Alerts
