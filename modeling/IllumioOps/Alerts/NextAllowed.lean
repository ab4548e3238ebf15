import IllumioOps.Alerts.Throttled
import Mathlib.Order.Bounds.Basic

/-!
# When a gate opens again

A gate that holds a trigger back names the instant from which it would let one through. When the throttle
is what holds it back, that is the least such instant: at most the throttle's count of times is kept, so
the gate opens when the first of them leaves the period. A cooldown names its own end and does not look at
the throttle, which may hold longer (`next_allowed_iff`, `cooldown_ends_first`).
-/

set_option autoImplicit false

namespace IllumioOps.Alerts

/-- The state of a rule after the gate's results at these times, each recorded. -/
def recorded (rule : RuleBase) (times : List Int) : Option RuleState :=
  times.foldl (fun st t => some (gate rule st t).state) none

/-- The instant a gate names is the least one from now on at which it would let a trigger through, with
nothing recorded in between. -/
def IsNextAllowed (rule : RuleBase) (st : Option RuleState) (now : Int) : Prop :=
  ∃ next, (gate rule st now).nextAllowedAt = some next ∧
    IsLeast {t | now ≤ t ∧ (gate rule (some (gate rule st now).state) t).allowed = true} next

/-- When the cooldown ends, if it has not ended yet, the throttle has room. -/
def CooldownEndsLast (rule : RuleBase) (st : Option RuleState) (now : Int) : Prop :=
  ∀ s ∈ st, ∀ fired ∈ s.lastFiredAt, now < fired + minutes rule.cooldownMinutes →
    ∀ th ∈ rule.throttle, (s.recent.filter fun t =>
      decide (fired + minutes rule.cooldownMinutes - minutes th.periodMinutes < t)).length < th.count

section Gate

variable {rule : RuleBase} {st : RuleState} {now : Int}

/-! ## What is kept -/

/-- What a state keeps: times in order, none of them after now, and no more than the throttle's count. -/
structure Keeps (rule : RuleBase) (st : RuleState) (now : Int) : Prop where
  sorted : st.recent.Pairwise (· ≤ ·)
  past : ∀ t ∈ st.recent, t ≤ now
  room : ∀ th ∈ rule.throttle, st.recent.length ≤ th.count

theorem keeps_empty : Keeps rule ⟨none, []⟩ now :=
  ⟨List.Pairwise.nil, fun _ h => absurd h List.not_mem_nil, fun _ _ => Nat.zero_le _⟩

theorem Keeps.mono {now' : Int} (h : Keeps rule st now) (hnow : now ≤ now') : Keeps rule st now' :=
  ⟨h.sorted, fun t ht => Int.le_trans (h.past t ht) hnow, h.room⟩

/-- A gate's result keeps its times in order, and adds one only while there is room. -/
theorem keeps_gate (h : Keeps rule st now) : Keeps rule (gate rule (some st) now).state now := by
  have hsub : (gateRecent rule st now).Sublist st.recent := List.filter_sublist
  have hpast : ∀ t ∈ gateRecent rule st now, t ≤ now := fun t ht => h.past t (hsub.subset ht)
  rcases gate_cases rule st now with ⟨-, -, hstate⟩ | ⟨hopen, -, hstate⟩
  · rw [hstate]
    exact ⟨h.sorted.sublist hsub, hpast, fun th hth => hsub.length_le.trans (h.room th hth)⟩
  · rw [hstate]
    cases hth : rule.throttle with
    | none =>
        refine ⟨List.Pairwise.nil, fun _ h => absurd h List.not_mem_nil, fun th hmem => ?_⟩
        rw [hth] at hmem
        cases hmem
    | some th =>
        have hfull : (gateRecent rule st now).length < th.count := by
          have hnot := (Bool.or_eq_false_iff.mp hopen).2
          simpa [gateFull, hth] using hnot
        have hlength : (gateRecent rule st now ++ [now]).length ≤ th.count := by
          rw [List.length_append]
          exact hfull
        constructor
        · refine List.pairwise_append.mpr ⟨h.sorted.sublist hsub, List.pairwise_singleton _ _, ?_⟩
          intro t ht s hs
          rw [List.mem_singleton.mp hs]
          exact hpast t ht
        · intro t ht
          rcases List.mem_append.mp ht with ht | ht
          · exact hpast t ht
          · exact Int.le_of_eq (List.mem_singleton.mp ht)
        · intro th' hth'
          rw [hth] at hth'
          obtain rfl := Option.some.inj hth'
          exact hlength

theorem keeps_recorded {times : List Int} (htimes : (times ++ [now]).Pairwise (· ≤ ·)) :
    Keeps rule ((recorded rule times).getD ⟨none, []⟩) now := by
  induction times using List.reverseRecOn generalizing now with
  | nil => exact keeps_empty
  | append_singleton times t ih =>
      have hsplit := List.pairwise_append.mp htimes
      have hbefore : Keeps rule ((recorded rule times).getD ⟨none, []⟩) t := ih hsplit.1
      have hle : t ≤ now := hsplit.2.2 t (by simp) now (by simp)
      have hrecorded : recorded rule (times ++ [t]) =
          some (gate rule (some ((recorded rule times).getD ⟨none, []⟩)) t).state := by
        rw [recorded, List.foldl_append]
        rfl
      rw [hrecorded]
      exact (keeps_gate hbefore).mono hle

/-! ## The two limits from now on -/

theorem gateLate_eq (hcooldown : 0 < rule.cooldownMinutes) (st : RuleState) (t : Int) :
    gateLate rule st t =
      st.lastFiredAt.any fun fired => decide (t < fired + minutes rule.cooldownMinutes) := by
  rw [gateLate, if_neg (Nat.ne_of_gt hcooldown), Option.any_map]

/-- What a closed gate trims makes no difference from now on. -/
theorem allowed_after_closed (hclosed : (gate rule (some st) now).allowed = false) {t : Int}
    (ht : now ≤ t) :
    (gate rule (some (gate rule (some st) now).state) t).allowed = true ↔
      gateLate rule st t = false ∧ gateFull rule st t = false := by
  have hstate : (gate rule (some st) now).state = ⟨st.lastFiredAt, gateRecent rule st now⟩ := by
    rcases gate_cases rule st now with ⟨-, -, hstate⟩ | ⟨-, hallowed, -⟩
    · exact hstate
    · rw [hallowed] at hclosed
      cases hclosed
  have hrecent : gateRecent rule ⟨st.lastFiredAt, gateRecent rule st now⟩ t = gateRecent rule st t := by
    cases hth : rule.throttle with
    | none => simp [gateRecent, hth]
    | some th =>
        rw [gateRecent_eq hth, gateRecent_eq hth, gateRecent_eq hth, List.filter_filter]
        refine List.filter_congr fun s _ => ?_
        by_cases hs : t - minutes th.periodMinutes < s
        · have hnow : now - minutes th.periodMinutes < s := by omega
          simp [hs, hnow]
        · simp [hs]
  have hfull : gateFull rule ⟨st.lastFiredAt, gateRecent rule st now⟩ t = gateFull rule st t := by
    rw [gateFull, gateFull, hrecent]
  have hlate : gateLate rule ⟨st.lastFiredAt, gateRecent rule st now⟩ t = gateLate rule st t := rfl
  rw [hstate, ← Bool.or_eq_false_iff, ← hlate, ← hfull]
  rcases gate_cases rule ⟨st.lastFiredAt, gateRecent rule st now⟩ t with
    ⟨hshut, hallowed, -⟩ | ⟨hopen, hallowed, -⟩
  · rw [hshut, hallowed]
    exact iff_of_false Bool.false_ne_true Bool.true_eq_false.mp
  · rw [hopen, hallowed]
    exact iff_of_true rfl rfl

/-- The instant a closed gate names: the end of the cooldown, or else when the first of the kept times
leaves the period. -/
theorem nextAllowedAt_of_closed {th : Throttle} (hth : rule.throttle = some th)
    (hcooldown : 0 < rule.cooldownMinutes) (hclosed : (gate rule (some st) now).allowed = false) :
    (∃ fired, st.lastFiredAt = some fired ∧ now < fired + minutes rule.cooldownMinutes ∧
        (gate rule (some st) now).nextAllowedAt = some (fired + minutes rule.cooldownMinutes)) ∨
      gateLate rule st now = false ∧ th.count ≤ (gateRecent rule st now).length ∧
        (gate rule (some st) now).nextAllowedAt =
          (gateRecent rule st now).head?.map fun t => t + minutes th.periodMinutes := by
  have hgate : gate rule (some st) now =
      if gateLate rule st now then
        ⟨.cooldown, if rule.cooldownMinutes = 0 then none
          else st.lastFiredAt.map fun t => t + minutes rule.cooldownMinutes,
          ⟨st.lastFiredAt, gateRecent rule st now⟩⟩
      else if gateFull rule st now then
        ⟨.throttle, (gateRecent rule st now).head?.map fun t =>
          t + (rule.throttle.map fun t => minutes t.periodMinutes).getD 0,
          ⟨st.lastFiredAt, gateRecent rule st now⟩⟩
      else ⟨.ok, none,
        ⟨some now, if rule.throttle.isSome then gateRecent rule st now ++ [now] else []⟩⟩ := rfl
  cases hlate : gateLate rule st now with
  | true =>
      left
      rw [hlate, if_pos rfl, if_neg (Nat.ne_of_gt hcooldown)] at hgate
      rw [gateLate_eq hcooldown] at hlate
      cases hfired : st.lastFiredAt with
      | none =>
          rw [hfired] at hlate
          cases hlate
      | some fired =>
          rw [hfired] at hlate
          exact ⟨fired, rfl, of_decide_eq_true hlate, by rw [hgate, hfired]; rfl⟩
  | false =>
      right
      rw [hlate, if_neg Bool.false_ne_true] at hgate
      cases hfull : gateFull rule st now with
      | false =>
          rw [hgate, hfull, if_neg Bool.false_ne_true] at hclosed
          cases hclosed
      | true =>
          refine ⟨rfl, ?_, ?_⟩
          · simpa [gateFull, hth] using hfull
          · rw [hgate, hfull, if_pos rfl, hth]
            rfl

/-! ## The instant named -/

/-- A throttle opens when the first of the times it keeps leaves the period, and not before. -/
theorem gateFull_iff_lt {th : Throttle} (hth : rule.throttle = some th) (hkeeps : Keeps rule st now)
    {first : Int} (hfirst : (gateRecent rule st now).head? = some first)
    (hfull : th.count ≤ (gateRecent rule st now).length) {t : Int} (ht : now ≤ t) :
    gateFull rule st t = true ↔ t < first + minutes th.periodMinutes := by
  obtain ⟨rest, hrecent⟩ : ∃ rest, gateRecent rule st now = first :: rest := by
    cases hlist : gateRecent rule st now with
    | nil =>
        rw [hlist] at hfirst
        cases hfirst
    | cons s rest =>
        rw [hlist] at hfirst
        exact ⟨rest, congrArg (· :: rest) (Option.some.inj hfirst)⟩
  have hsorted : (first :: rest).Pairwise (· ≤ ·) := by
    rw [← hrecent]
    exact hkeeps.sorted.sublist List.filter_sublist
  have hlength : (first :: rest).length ≤ th.count := by
    rw [← hrecent]
    exact (List.length_filter_le _ _).trans (hkeeps.room th hth)
  -- the times of the later period are those of this one that it still holds
  have hlater : gateRecent rule st t =
      (first :: rest).filter fun s => decide (t - minutes th.periodMinutes < s) := by
    rw [← hrecent, gateRecent_eq hth, gateRecent_eq hth, List.filter_filter]
    refine List.filter_congr fun s _ => ?_
    by_cases hs : t - minutes th.periodMinutes < s
    · have hnow : now - minutes th.periodMinutes < s := by omega
      simp [hs, hnow]
    · simp [hs]
  rw [hrecent] at hfull
  have hcount : gateFull rule st t = true ↔ th.count ≤ (gateRecent rule st t).length := by
    simp [gateFull, hth]
  rw [hcount, hlater]
  constructor
  · intro hstill
    by_contra hover
    -- the first time has left, so there is room
    rw [List.filter_cons_of_neg (by simp; omega)] at hstill
    have hle := List.length_filter_le (fun s => decide (t - minutes th.periodMinutes < s)) rest
    rw [List.length_cons] at hlength
    omega
  · intro hbefore
    rwa [List.filter_eq_self.mpr]
    intro s hs
    have hle : first ≤ s := by
      rcases List.mem_cons.mp hs with rfl | hs
      · exact Int.le_refl _
      · exact List.rel_of_pairwise_cons hsorted hs
    exact decide_eq_true (by omega)

end Gate

/-- The instant a closed gate names is the least at which it would let a trigger through, exactly when a
cooldown that holds the trigger back ends with room in the throttle. -/
theorem next_allowed_iff {rule : RuleBase} {th : Throttle} (hth : rule.throttle = some th)
    (hvalid : rule.Valid) (hcooldown : 0 < rule.cooldownMinutes) {times : List Int} {now : Int}
    (htimes : (times ++ [now]).Pairwise (· ≤ ·))
    (hclosed : (gate rule (recorded rule times) now).allowed = false) :
    IsNextAllowed rule (recorded rule times) now ↔
      CooldownEndsLast rule (recorded rule times) now := by
  have hkeeps : Keeps rule ((recorded rule times).getD ⟨none, []⟩) now := keeps_recorded htimes
  obtain ⟨st, hst⟩ : ∃ st, (recorded rule times).getD ⟨none, []⟩ = st := ⟨_, rfl⟩
  have hgate : gate rule (recorded rule times) now = gate rule (some st) now := by
    rw [← hst]
    rfl
  rw [hst] at hkeeps
  rw [hgate] at hclosed
  -- the condition speaks of the state, or of none, which has fired nothing
  have hcondition : CooldownEndsLast rule (recorded rule times) now ↔
      ∀ fired, st.lastFiredAt = some fired → now < fired + minutes rule.cooldownMinutes →
        gateFull rule st (fired + minutes rule.cooldownMinutes) = false := by
    have hroom : ∀ s : RuleState, ∀ until', gateFull rule s until' = false ↔
        ∀ th ∈ rule.throttle, (s.recent.filter fun t =>
          decide (until' - minutes th.periodMinutes < t)).length < th.count := by
      intro s until'
      simp [gateFull, gateRecent, hth]
    simp only [CooldownEndsLast, ← hroom]
    cases hrecorded : recorded rule times with
    | none =>
        rw [hrecorded] at hst
        simp [← hst]
    | some s =>
        rw [hrecorded] at hst
        simp [← hst]
  have hallowed : ∀ t, now ≤ t ∧ (gate rule (some (gate rule (some st) now).state) t).allowed = true ↔
      now ≤ t ∧ gateLate rule st t = false ∧ gateFull rule st t = false :=
    fun t => and_congr_right fun ht => allowed_after_closed hclosed ht
  rw [IsNextAllowed, hgate, hcondition]
  simp only [hallowed]
  rcases nextAllowedAt_of_closed hth hcooldown hclosed with
    ⟨fired, hfired, hlt, hnext⟩ | ⟨hover, hfull, hnext⟩
  · -- the cooldown's end is the least instant unless the throttle is full then
    have hlate : ∀ t, gateLate rule st t = false ↔ fired + minutes rule.cooldownMinutes ≤ t := by
      intro t
      rw [gateLate_eq hcooldown, hfired]
      simp
    rw [hnext, hfired]
    constructor
    · rintro ⟨next, hsome, hleast⟩ fired' hfired' -
      obtain rfl := Option.some.inj hfired'
      obtain rfl := Option.some.inj hsome
      exact hleast.1.2.2
    · intro hroom
      refine ⟨_, rfl, ⟨Int.le_of_lt hlt, (hlate _).mpr (Int.le_refl _), hroom fired rfl hlt⟩, ?_⟩
      rintro t ⟨-, ht, -⟩
      exact (hlate t).mp ht
  · -- the throttle opens when the first of its times leaves the period
    refine iff_of_true ?_ ?_
    · cases hhead : (gateRecent rule st now).head? with
      | none =>
          rw [List.head?_eq_none_iff] at hhead
          rw [hhead] at hfull
          exact absurd (hvalid th hth).1 (by simpa using hfull)
      | some first =>
          rw [hnext, hhead]
          have hopens := fun {t : Int} (ht : now ≤ t) =>
            gateFull_iff_lt hth hkeeps hhead hfull ht
          have hnow : now < first + minutes th.periodMinutes := by
            have hmem := List.mem_of_mem_head? hhead
            rw [gateRecent_eq hth] at hmem
            have hin := of_decide_eq_true (List.mem_filter.mp hmem).2
            omega
          have hstill : ∀ t, now ≤ t → gateLate rule st t = false := by
            intro t ht
            rw [gateLate_eq hcooldown] at hover ⊢
            cases hfired : st.lastFiredAt with
            | none => rfl
            | some fired =>
                rw [hfired] at hover
                have hle := of_decide_eq_false hover
                exact decide_eq_false (by omega)
          refine ⟨_, rfl, ⟨Int.le_of_lt hnow, hstill _ (Int.le_of_lt hnow), ?_⟩, ?_⟩
          · have hnot := (hopens (Int.le_of_lt hnow)).not.mpr (Int.lt_irrefl _)
            simpa using hnot
          · rintro t ⟨ht, -, hopen⟩
            by_contra hbefore
            have hfull' := (hopens ht).mpr (not_le.mp hbefore)
            rw [hopen] at hfull'
            cases hfull'
    · intro fired hfired hlt
      rw [gateLate_eq hcooldown, hfired] at hover
      exact absurd hlt (of_decide_eq_false hover)

/-- Five minutes after the first alert the cooldown holds, and when it ends one of two is used. -/
theorem next_allowed_twiceAnHour :
    IsNextAllowed twiceAnHour (recorded twiceAnHour [minutes 0]) (minutes 5) := by
  refine (next_allowed_iff rfl ?_ (by decide) (by decide) (by decide)).mpr ?_
  · intro th hth
    obtain rfl := Option.some.inj hth
    decide
  · intro s hs fired hfired _ th hth
    obtain rfl : ⟨some (minutes 0), [minutes 0]⟩ = s := Option.some.inj hs
    obtain rfl := Option.some.inj hfired
    obtain rfl := Option.some.inj hth
    decide

/-- A rule with a cooldown of a minute that alerts once in an hour: thirty seconds after an alert the end
of the cooldown is named, and the throttle holds for an hour. -/
theorem cooldown_ends_first :
    ¬ ∀ (rule : RuleBase) (th : Throttle), rule.throttle = some th → rule.Valid →
      0 < rule.cooldownMinutes → ∀ (times : List Int) (now : Int),
        (times ++ [now]).Pairwise (· ≤ ·) →
        (gate rule (recorded rule times) now).allowed = false →
        IsNextAllowed rule (recorded rule times) now := by
  intro h
  obtain ⟨next, hnext, hleast⟩ := h { twiceAnHour with cooldownMinutes := 1, throttle := some ⟨1, 60⟩ }
    ⟨1, 60⟩ rfl (by rintro th hth; obtain rfl := Option.some.inj hth; decide) (by decide)
    [seconds 0] (seconds 30) (by decide) (by decide)
  obtain rfl : seconds 60 = next := Option.some.inj hnext
  exact absurd hleast.1.2 (by decide)

end IllumioOps.Alerts
