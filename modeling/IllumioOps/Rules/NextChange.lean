import IllumioOps.Domain.Values
import IllumioOps.Rules.Schedules
import Mathlib.Algebra.Order.Group.Int
import Mathlib.Data.Char
import Mathlib.Data.Int.LeastGreatest
import Mathlib.Data.List.Lex
import Mathlib.Order.Bounds.Basic

/-!
# The next change of a plan

`next_change` of `domain.rule_schedule`: the next moment at which what a target should be changes. A
weekly plan lives in the wall-clock time of a zone, whose offset jumps; the candidates are the jumps of the
next nine days and the starts and ends of the plan on the local dates from yesterday on. They are ten
dates, and the nine days reach into an eleventh: a change that a jump of the clock pushed there is not
found (`nextChange_right_iff`).
-/

set_option autoImplicit false

namespace IllumioOps.PlanChanges

open RuleSchedules (Want)

/-! ## Plans -/

inductive Weekday where
  | mon | tue | wed | thu | fri | sat | sun
  deriving DecidableEq, Repr

/-- `WEEKDAYS[d.weekday()]`, of the number of a date; date 0 was a Thursday. -/
def day (date : Int) : Weekday :=
  [Weekday.mon, .tue, .wed, .thu, .fri, .sat, .sun].getD ((date + 3) % 7).toNat .sun

/-- The first of each ten decimal digits, as `\d` takes them. -/
def digitZeros : List Nat :=
  [0x30, 0x660, 0x6F0, 0x7C0, 0x966, 0x9E6, 0xA66, 0xAE6, 0xB66, 0xBE6, 0xC66, 0xCE6, 0xD66,
    0xDE6, 0xE50, 0xED0, 0xF20, 0x1040, 0x1090, 0x17E0, 0x1810, 0x1946, 0x19D0, 0x1A80, 0x1A90,
    0x1B50, 0x1BB0, 0x1C40, 0x1C50, 0xA620, 0xA8D0, 0xA900, 0xA9D0, 0xA9F0, 0xAA50, 0xABF0,
    0xFF10, 0x104A0, 0x10D30, 0x11066, 0x110F0, 0x11136, 0x111D0, 0x112F0, 0x11450, 0x114D0,
    0x11650, 0x116C0, 0x11730, 0x118E0, 0x11950, 0x11C50, 0x11D50, 0x11DA0, 0x11F50, 0x16A60,
    0x16AC0, 0x16B50, 0x1D7CE, 0x1D7D8, 0x1D7E2, 0x1D7EC, 0x1D7F6, 0x1E140, 0x1E2F0, 0x1E4F0,
    0x1E950, 0x1FBF0]

/-- The value of a decimal digit. -/
def digit? (c : Char) : Option Nat :=
  (digitZeros.find? fun z => decide (z ≤ c.toNat ∧ c.toNat < z + 10)).map fun z => c.toNat - z

/-- The hour and the minute of a text that `_HHMM` matches, as `int` reads them. The end of the pattern
stands before a line break too. -/
def hhmm? (text : List Char) : Option (Int × Int) :=
  match text with
  | a :: b :: ':' :: c :: d :: rest => do
      guard (rest = [] ∨ rest = ['\n'])
      guard (a = '0' ∨ a = '1' ∨ (a = '2' ∧ b ∈ ['0', '1', '2', '3']))
      guard (c ∈ ['0', '1', '2', '3', '4', '5'])
      let tens ← digit? a
      let hour ← digit? b
      let sixths ← digit? c
      let minute ← digit? d
      pure ((10 * tens + hour : Nat), (10 * sixths + minute : Nat))
  | _ => none

/-- A time of a plan: its text, and what its parts are read as. -/
structure Time where
  text : List Char
  hour : Int
  minute : Int
  read : hhmm? text = some (hour, minute)

/-- The minute of the day. -/
def Time.minutes (x : Time) : Int := x.hour * 60 + x.minute

/-- `strftime("%H:%M")`, of a minute of the day. -/
def clock (m : Int) : List Char :=
  let d (n : Int) : Char := Char.ofNat (48 + n.toNat)
  [d (m / 600), d (m / 60 % 10), ':', d (m % 60 / 10), d (m % 10)]

/-- A zone: its offset from UTC in minutes, in each minute of UTC, and the offset that a wall-clock
minute is read with, by its fold. -/
structure Zone where
  offset : Int → Int
  wallOffset : Int → Bool → Int
  spaced : ∀ m n, offset (m - 1) ≠ offset m → offset (n - 1) ≠ offset n → m < n → m + 60 ≤ n

/-- `utcoffset` of an instant. -/
def Zone.offsetAt (z : Zone) (t : Int) : Int := z.offset (t / minutes 1)

/-- The wall-clock minute an instant lies in. -/
def Zone.localMinute (z : Zone) (t : Int) : Int := t / minutes 1 + z.offsetAt t

def Zone.localDate (z : Zone) (t : Int) : Int := z.localMinute t / 1440

structure Weekly where
  days : List Weekday
  start : Time
  stop : Time
  zone : Zone
  enableInWindow : Bool
  days_ne : days ≠ []
  days_nodup : days.Nodup
  times_ne : start.text ≠ stop.text

inductive Plan where
  | weekly (w : Weekly)
  | expiry (expireAt : Int)

/-- Whether the window is open in a wall-clock minute; the texts of the times are compared. -/
def windowAt (w : Weekly) (l : Int) : Bool :=
  let cur := clock (l % 1440)
  let today := day (l / 1440)
  let yesterday := day (l / 1440 - 1)
  if w.start.text < w.stop.text then
    decide (today ∈ w.days) && (decide (w.start.text ≤ cur) && decide (cur < w.stop.text))
  else
    (decide (today ∈ w.days) && decide (w.start.text ≤ cur)) ||
      (decide (yesterday ∈ w.days) && decide (cur < w.stop.text))

def inWindow (w : Weekly) (now : Int) : Bool := windowAt w (w.zone.localMinute now)

def desired (plan : Plan) (now : Int) : Want :=
  match plan with
  | .expiry expireAt => if expireAt ≤ now then .expired else .enabled
  | .weekly w => if inWindow w now = w.enableInWindow then .enabled else .disabled

/-- The plan as the schedules hold it. -/
def Plan.scheduled (plan : Plan) (note : String) : RuleSchedules.Plan :=
  match plan with
  | .weekly w => .weekly (inWindow w) w.enableInWindow note
  | .expiry expireAt => .expiry expireAt note

theorem desired_scheduled (plan : Plan) (note : String) (now : Int) :
    RuleSchedules.desired (plan.scheduled note) now = desired plan now := by
  cases plan <;> rfl

/-! ## `next_change` -/

def nextDays : Nat := 8

/-- That wall-clock time on that day as instants, in both readings. -/
def walls (date : Int) (x : Time) (z : Zone) : List Int :=
  [false, true].map fun fold =>
    let l := date * 1440 + x.minutes
    (l - z.wallOffset l fold) * minutes 1

/-- The end of the minute in which the offset of `lo` ends, by halving; six halvings of an hour leave less
than a minute. -/
def bisect (z : Zone) : Nat → Int → Int → Int
  | 0, _, hi => hi
  | n + 1, lo, hi =>
      if minutes 1 < hi - lo then
        let mid := lo + (hi - lo) / 2
        if z.offsetAt mid = z.offsetAt lo then bisect z n mid hi else bisect z n lo mid
      else hi

def transitionsFrom (z : Zone) (stop : Int) : Nat → Int → List Int
  | 0, _ => []
  | n + 1, t =>
      if t < stop then
        let nxt := t + hours 1
        let found :=
          if z.offsetAt t ≠ z.offsetAt nxt then [bisect z 6 t nxt / minutes 1 * minutes 1] else []
        found ++ transitionsFrom z stop n nxt
      else []

/-- The instants the offset changes between start and stop, to the minute. -/
def transitions (start stop : Int) (z : Zone) : List Int :=
  transitionsFrom z stop ((stop - start) / hours 1 + 1).toNat start

def horizon (now : Int) : Int := now + days (nextDays + 1)

def candidates (w : Weekly) (now : Int) : List Int :=
  let first := w.zone.localDate now - 1
  transitions now (horizon now) w.zone ++
    (List.range (nextDays + 2)).flatMap fun (i : Nat) =>
      [w.start, w.stop].flatMap fun x => walls (first + i) x w.zone

def nextChange (plan : Plan) (now : Int) : Option Int :=
  match plan with
  | .expiry expireAt => if now < expireAt then some expireAt else none
  | .weekly w =>
      ((candidates w now).filter fun c =>
        decide (now < c ∧ c ≤ horizon now ∧ desired plan c ≠ desired plan (c - seconds 1))).min?

/-! ## The right answer -/

/-- What a plan wants differs from what it wanted just before. -/
def Flip (plan : Plan) (t : Int) : Prop := desired plan t ≠ desired plan (t - 1)

/-- The changes in the period that is looked at. -/
def Flips (plan : Plan) (now : Int) : Set Int :=
  {t | now < t ∧ t ≤ horizon now ∧ Flip plan t}

/-- The first change, and nothing changes before it; or none, and nothing changes in the period. -/
def RightAnswer (plan : Plan) (now : Int) : Option Int → Prop
  | some t => IsLeast (Flips plan now) t ∧ ∀ s, now ≤ s → s < t → desired plan s = desired plan now
  | none => ∀ s, now ≤ s → s ≤ horizon now → desired plan s = desired plan now

/-- The offset changes with a minute of UTC. -/
def Zone.Changes (z : Zone) (m : Int) : Prop := z.offset (m - 1) ≠ z.offset m

/-- An instant is a change of the offset, or the start or end of the plan on a local date from yesterday
to eight days on. -/
def LookedAt (w : Weekly) (now t : Int) : Prop :=
  w.zone.Changes (t / minutes 1) ∨
    ∃ d, w.zone.localDate now - 1 ≤ d ∧ d ≤ w.zone.localDate now + 8 ∧
      (t ∈ walls d w.start w.zone ∨ t ∈ walls d w.stop w.zone)

/-- Every instant is a reading of its own wall-clock minute. -/
def Zone.Regular (z : Zone) : Prop :=
  ∀ m, ∃ fold, z.wallOffset (m + z.offset m) fold = z.offset m

/-- The text is the five characters of the time. -/
def Time.Plain (x : Time) : Prop := x.text = clock x.minutes

/-! ## Minutes -/

theorem minute_eq : minutes 1 = 60000000 := rfl

theorem hour_eq : hours 1 = 3600000000 := rfl

/-- Nothing changes within a minute. -/
theorem desired_congr {w : Weekly} {s t : Int} (h : s / minutes 1 = t / minutes 1) :
    desired (.weekly w) s = desired (.weekly w) t := by
  have hin : inWindow w s = inWindow w t := by
    simp only [inWindow, Zone.localMinute, Zone.offsetAt, h]
  simp only [desired, hin]

/-- A change is at a whole minute. -/
theorem whole_of_flip {w : Weekly} {t : Int} (h : Flip (.weekly w) t) :
    t = t / minutes 1 * minutes 1 := by
  by_contra hne
  refine h (desired_congr ?_)
  simp only [minute_eq] at *
  omega

theorem flip_iff {w : Weekly} {m : Int} :
    Flip (.weekly w) (m * minutes 1) ↔
      desired (.weekly w) (m * minutes 1) ≠ desired (.weekly w) (m * minutes 1 - seconds 1) := by
  have h : (m * minutes 1 - 1) / minutes 1 = (m * minutes 1 - seconds 1) / minutes 1 := by
    simp only [minutes, seconds, milliseconds]
    omega
  rw [Flip, desired_congr h]

/-- With no change on the way, nothing is changed at its end. -/
theorem desired_eq_of_no_flip {plan : Plan} {a b : Int} (hab : a ≤ b)
    (h : ∀ t, a < t → t ≤ b → ¬ Flip plan t) : desired plan b = desired plan a := by
  induction b, hab using Int.leInduction with
  | base => rfl
  | succ b hab ih =>
    have hstep : desired plan (b + 1) = desired plan b := by
      have hb := h (b + 1) (by omega) (by omega)
      rw [Flip, not_not, show b + 1 - 1 = b by omega] at hb
      exact hb
    exact hstep.trans (ih fun t hat htb => h t hat (by omega))

/-- The first change of a period, if there is a change. -/
theorem exists_first {plan : Plan} {now : Int} (h : (Flips plan now).Nonempty) :
    ∃ t, IsLeast (Flips plan now) t := by
  obtain ⟨t, ht⟩ := h
  obtain ⟨least, hleast, hmin⟩ :=
    Int.exists_least_of_bdd (P := fun t => t ∈ Flips plan now) ⟨now, fun s hs => hs.1.le⟩ ⟨t, ht⟩
  exact ⟨least, hleast, hmin⟩

/-- Up to the first change nothing changes. -/
theorem desired_eq_before {plan : Plan} {now t : Int} (h : IsLeast (Flips plan now) t) {s : Int}
    (hnow : now ≤ s) (hs : s < t) : desired plan s = desired plan now := by
  refine desired_eq_of_no_flip hnow fun r hr hrs hflip => ?_
  have hle : t ≤ r := h.2 ⟨hr, le_trans (by omega) h.1.2.1, hflip⟩
  omega

/-! ## The changes of the offset -/

theorem offset_eq_of_no_change {z : Zone} {a b : Int} (hab : a ≤ b)
    (h : ∀ m, a < m → m ≤ b → ¬ z.Changes m) : z.offset b = z.offset a := by
  induction b, hab using Int.leInduction with
  | base => rfl
  | succ b hab ih =>
    have hstep : z.offset (b + 1) = z.offset b := by
      have hb := h (b + 1) (by omega) (by omega)
      rw [Zone.Changes, not_not, show b + 1 - 1 = b by omega] at hb
      exact hb.symm
    exact hstep.trans (ih fun m ham hmb => h m ham (by omega))

/-- Between two times the offset changes once, at the start of the minute. -/
def Zone.Splits (z : Zone) (lo hi m : Int) : Prop :=
  ∀ s, lo ≤ s → s ≤ hi → (z.offsetAt s = z.offsetAt lo ↔ s < m * minutes 1)

/-- Within an hour after a time, a change is the only one. -/
theorem splits_of_change {z : Zone} {t m : Int} (hm : z.Changes m) (hlo : t < m * minutes 1)
    (hhi : m * minutes 1 ≤ t + hours 1) : z.Splits t (t + hours 1) m := by
  have honly : ∀ n, t < n * minutes 1 → n * minutes 1 ≤ t + hours 1 → z.Changes n → n = m := by
    intro n hn hn' hc
    rcases lt_trichotomy n m with hlt | heq | hgt
    · have := z.spaced n m hc hm hlt
      simp only [minute_eq, hour_eq] at *
      omega
    · exact heq
    · have := z.spaced m n hm hc hgt
      simp only [minute_eq, hour_eq] at *
      omega
  -- On either side of the change the offset stays as it is.
  have hbefore : ∀ s, t ≤ s → s < m * minutes 1 → z.offsetAt s = z.offsetAt t := by
    intro s hs hsm
    refine offset_eq_of_no_change (by rw [minute_eq]; omega) fun n hn hns hc => ?_
    have := honly n (by simp only [minute_eq] at *; omega)
      (by simp only [minute_eq, hour_eq] at *; omega) hc
    simp only [minute_eq] at *
    omega
  have hafter : ∀ s, m * minutes 1 ≤ s → s ≤ t + hours 1 → z.offsetAt s = z.offset m := by
    intro s hs hst
    refine offset_eq_of_no_change (by simp only [minute_eq] at *; omega) fun n hn hns hc => ?_
    have := honly n (by simp only [minute_eq] at *; omega)
      (by simp only [minute_eq, hour_eq] at *; omega) hc
    omega
  intro s hs hs'
  constructor
  · intro heq
    by_contra hge
    have hold : z.offset (m - 1) = z.offsetAt t := by
      have h := hbefore (m * minutes 1 - 1) (by omega) (by omega)
      rwa [Zone.offsetAt, show (m * minutes 1 - 1) / minutes 1 = m - 1 by
        rw [minute_eq]; omega] at h
    exact hm (hold.trans (heq.symm.trans (hafter s (by omega) hs')))
  · exact hbefore s hs

/-- Halving ends within a minute after the change. -/
theorem bisect_spec {z : Zone} {m : Int} {n : Nat} {lo hi : Int} (h : z.Splits lo hi m)
    (hlo : lo < m * minutes 1) (hhi : m * minutes 1 ≤ hi) (hn : hi - lo ≤ minutes 1 * 2 ^ n) :
    m * minutes 1 ≤ bisect z n lo hi ∧ bisect z n lo hi < m * minutes 1 + minutes 1 := by
  induction n generalizing lo hi with
  | zero =>
    simp only [bisect, pow_zero, minute_eq] at *
    omega
  | succ n ih =>
    rw [bisect]
    by_cases hgap : minutes 1 < hi - lo
    · rw [if_pos hgap]
      have hmid : lo ≤ lo + (hi - lo) / 2 ∧ lo + (hi - lo) / 2 ≤ hi := by
        rw [minute_eq] at hgap
        omega
      have hsplit := h _ hmid.1 hmid.2
      rw [pow_succ, ← mul_assoc] at hn
      by_cases heq : z.offsetAt (lo + (hi - lo) / 2) = z.offsetAt lo
      · rw [if_pos heq]
        refine ih (fun s hs hs' => ?_) (hsplit.1 heq) hhi ?_
        · rw [heq]
          exact h s (hmid.1.trans hs) hs'
        · generalize minutes 1 * 2 ^ n = k at hn ⊢
          omega
      · rw [if_neg heq]
        refine ih (fun s hs hs' => h s hs (hs'.trans hmid.2)) hlo ?_ ?_
        · by_contra hlt
          exact heq (hsplit.2 (by omega))
        · generalize minutes 1 * 2 ^ n = k at hn ⊢
          omega
    · rw [if_neg hgap]
      simp only [minute_eq] at *
      omega

/-- In the hour after a time the offset differs at the ends exactly when it changes on the way; halving
gives the minute of the change. -/
theorem found_iff {z : Zone} {t c : Int} :
    (z.offsetAt t ≠ z.offsetAt (t + hours 1) ∧
        c = bisect z 6 t (t + hours 1) / minutes 1 * minutes 1) ↔
      ∃ m, z.Changes m ∧ c = m * minutes 1 ∧ t < c ∧ c ≤ t + hours 1 := by
  -- A change within the hour is what halving comes to.
  have hbisect : ∀ m, z.Changes m → t < m * minutes 1 → m * minutes 1 ≤ t + hours 1 →
      bisect z 6 t (t + hours 1) / minutes 1 * minutes 1 = m * minutes 1 := by
    intro m hm hlo hhi
    have h := bisect_spec (n := 6) (splits_of_change hm hlo hhi) hlo hhi
      (by simp only [minute_eq, hour_eq]; omega)
    simp only [minute_eq] at *
    omega
  constructor
  · rintro ⟨hne, rfl⟩
    by_contra hnone
    simp only [not_exists] at hnone
    refine hne (offset_eq_of_no_change ?_ fun m hm hm' hc => ?_).symm
    · simp only [minute_eq, hour_eq]
      omega
    · have hlo : t < m * minutes 1 := by
        simp only [minute_eq] at *
        omega
      have hhi : m * minutes 1 ≤ t + hours 1 := by
        simp only [minute_eq, hour_eq] at *
        omega
      exact hnone m ⟨hc, hbisect m hc hlo hhi, by rwa [hbisect m hc hlo hhi],
        by rwa [hbisect m hc hlo hhi]⟩
  · rintro ⟨m, hm, rfl, hlo, hhi⟩
    refine ⟨fun heq => ?_, (hbisect m hm hlo hhi).symm⟩
    have hle : t ≤ t + hours 1 := by simp only [hour_eq]; omega
    have := (splits_of_change hm hlo hhi _ hle le_rfl).1 heq.symm
    omega

theorem mem_transitionsFrom_cons {z : Zone} {stop t c : Int} {n : Nat} (ht : t < stop) :
    c ∈ transitionsFrom z stop (n + 1) t ↔
      (∃ m, z.Changes m ∧ c = m * minutes 1 ∧ t < c ∧ c ≤ t + hours 1) ∨
        c ∈ transitionsFrom z stop n (t + hours 1) := by
  rw [transitionsFrom, if_pos ht, List.mem_append, ← found_iff]
  by_cases hne : z.offsetAt t = z.offsetAt (t + hours 1) <;> simp [hne]

/-- What is listed is a change of the offset. -/
theorem changes_of_mem_transitionsFrom {z : Zone} {stop c : Int} {n : Nat} {t : Int}
    (h : c ∈ transitionsFrom z stop n t) : ∃ m, z.Changes m ∧ c = m * minutes 1 := by
  induction n generalizing t with
  | zero => simp [transitionsFrom] at h
  | succ n ih =>
    by_cases ht : t < stop
    · rcases (mem_transitionsFrom_cons ht).1 h with ⟨m, hm, hc, -⟩ | hrest
      · exact ⟨m, hm, hc⟩
      · exact ih hrest
    · simp [transitionsFrom, ht] at h

/-- Every change of the offset up to the stop is listed. -/
theorem mem_transitionsFrom {z : Zone} {stop m : Int} (hm : z.Changes m)
    (hstop : m * minutes 1 ≤ stop) {n : Nat} {t : Int} (hlo : t < m * minutes 1)
    (hhi : m * minutes 1 ≤ t + hours n) : m * minutes 1 ∈ transitionsFrom z stop n t := by
  induction n generalizing t with
  | zero =>
    simp only [hours, minutes, seconds, milliseconds] at *
    omega
  | succ n ih =>
    rw [mem_transitionsFrom_cons (hlo.trans_le hstop)]
    by_cases hthis : m * minutes 1 ≤ t + hours 1
    · exact Or.inl ⟨m, hm, rfl, hlo, hthis⟩
    · refine Or.inr (ih (by omega) ?_)
      simp only [hours, minutes, seconds, milliseconds] at *
      omega

theorem mem_transitions {z : Zone} {start stop m : Int} (hm : z.Changes m)
    (hlo : start < m * minutes 1) (hhi : m * minutes 1 ≤ stop) :
    m * minutes 1 ∈ transitions start stop z := by
  refine mem_transitionsFrom hm hhi hlo (hhi.trans ?_)
  simp only [hours, minutes, seconds, milliseconds]
  omega

/-! ## The candidates -/

theorem mem_candidates {w : Weekly} {now c : Int} :
    c ∈ candidates w now ↔ c ∈ transitions now (horizon now) w.zone ∨
      ∃ d, w.zone.localDate now - 1 ≤ d ∧ d ≤ w.zone.localDate now + 8 ∧
        (c ∈ walls d w.start w.zone ∨ c ∈ walls d w.stop w.zone) := by
  simp only [candidates, List.mem_append, List.mem_flatMap, List.mem_range, List.mem_cons,
    List.not_mem_nil, or_false, nextDays]
  refine or_congr_right ⟨?_, ?_⟩
  · rintro ⟨i, hi, x, rfl | rfl, hc⟩
    · exact ⟨_, by omega, by omega, Or.inl hc⟩
    · exact ⟨_, by omega, by omega, Or.inr hc⟩
  · rintro ⟨d, hlo, hhi, hc⟩
    have hd : w.zone.localDate now - 1 + ((d - (w.zone.localDate now - 1)).toNat : Int) = d := by
      omega
    refine ⟨(d - (w.zone.localDate now - 1)).toNat, by omega, ?_⟩
    rw [hd]
    rcases hc with hc | hc
    · exact ⟨_, Or.inl rfl, hc⟩
    · exact ⟨_, Or.inr rfl, hc⟩

/-- A candidate is a whole minute. -/
theorem whole_of_mem_candidates {w : Weekly} {now c : Int} (h : c ∈ candidates w now) :
    ∃ m, c = m * minutes 1 := by
  have hwall : ∀ {d : Int} {x : Time}, c ∈ walls d x w.zone → ∃ m, c = m * minutes 1 := by
    intro d x hc
    obtain ⟨fold, -, rfl⟩ := List.mem_map.1 hc
    exact ⟨_, rfl⟩
  rcases mem_candidates.1 h with ht | ⟨d, -, -, hc | hc⟩
  · obtain ⟨m, -, hm⟩ := changes_of_mem_transitionsFrom ht
    exact ⟨m, hm⟩
  · exact hwall hc
  · exact hwall hc

/-- What is chosen from: the changes among the candidates. -/
theorem mem_flips {w : Weekly} {now c : Int} :
    c ∈ (candidates w now).filter (fun c => decide (now < c ∧ c ≤ horizon now ∧
        desired (.weekly w) c ≠ desired (.weekly w) (c - seconds 1))) ↔
      c ∈ candidates w now ∧ c ∈ Flips (.weekly w) now := by
  rw [List.mem_filter, decide_eq_true_iff]
  refine and_congr_right fun hc => ?_
  obtain ⟨m, rfl⟩ := whole_of_mem_candidates hc
  exact and_congr_right fun _ => and_congr_right fun _ => flip_iff.symm

/-- A first change that is looked at is a candidate. -/
theorem mem_candidates_of_lookedAt {w : Weekly} {now t : Int} (ht : t ∈ Flips (.weekly w) now)
    (h : LookedAt w now t) : t ∈ candidates w now := by
  rcases h with hchange | hwall
  · refine mem_candidates.2 (Or.inl ?_)
    have hwhole := whole_of_flip ht.2.2
    rw [hwhole]
    exact mem_transitions hchange (hwhole ▸ ht.1) (hwhole ▸ ht.2.1)
  · exact mem_candidates.2 (Or.inr hwall)

theorem lookedAt_of_mem_candidates {w : Weekly} {now t : Int} (h : t ∈ candidates w now) :
    LookedAt w now t := by
  rcases mem_candidates.1 h with ht | hwall
  · obtain ⟨m, hm, rfl⟩ := changes_of_mem_transitionsFrom ht
    refine Or.inl ?_
    rwa [Int.mul_ediv_cancel m (by rw [minute_eq]; omega)]
  · exact Or.inr hwall

/-! ## When the answer is right -/

/-- The answer is right exactly when the first change is looked at. -/
theorem right_iff (w : Weekly) (now : Int) :
    RightAnswer (.weekly w) now (nextChange (.weekly w) now) ↔
      ∀ t, IsLeast (Flips (.weekly w) now) t → LookedAt w now t := by
  constructor
  · intro hright t ht
    cases hanswer : nextChange (.weekly w) now with
    | none =>
      rw [hanswer] at hright
      refine absurd ?_ ht.1.2.2
      have hnow : now ≤ t - 1 := by have := ht.1.1; omega
      rw [hright t ht.1.1.le ht.1.2.1, hright (t - 1) hnow (by have := ht.1.2.1; omega)]
    | some c =>
      rw [hanswer] at hright
      obtain rfl : t = c := ht.unique hright.1
      rw [nextChange, List.min?_eq_some_iff] at hanswer
      exact lookedAt_of_mem_candidates (mem_flips.1 hanswer.1).1
  · intro hall
    by_cases hflips : (Flips (.weekly w) now).Nonempty
    · obtain ⟨t, ht⟩ := exists_first hflips
      have hanswer : nextChange (.weekly w) now = some t := by
        rw [nextChange, List.min?_eq_some_iff]
        refine ⟨mem_flips.2 ⟨mem_candidates_of_lookedAt ht.1 (hall t ht), ht.1⟩, fun c hc => ?_⟩
        exact ht.2 (mem_flips.1 hc).2
      rw [hanswer]
      exact ⟨ht, fun s hs hst => desired_eq_before ht hs hst⟩
    · have hanswer : nextChange (.weekly w) now = none := by
        rw [nextChange, List.min?_eq_none_iff, List.eq_nil_iff_forall_not_mem]
        exact fun c hc => hflips ⟨c, (mem_flips.1 hc).2⟩
      rw [hanswer]
      refine fun s hs hs' => desired_eq_of_no_flip hs fun t ht hts hflip => hflips ⟨t, ht, ?_, hflip⟩
      omega

/-! ## Where a plain plan changes -/

theorem digit_lt_iff : ∀ m n : Fin 10,
    (Char.ofNat (48 + m) < Char.ofNat (48 + n) ↔ m < n) ∧
      (Char.ofNat (48 + m) = Char.ofNat (48 + n) ↔ m = n) := by
  decide

/-- The texts of two minutes of a day are in the order of the minutes. -/
theorem clock_lt_iff {a b : Int} (ha : 0 ≤ a ∧ a < 1440) (hb : 0 ≤ b ∧ b < 1440) :
    clock a < clock b ↔ a < b := by
  have hdigit : ∀ {m n : Int}, 0 ≤ m → m < 10 → 0 ≤ n → n < 10 →
      ((Char.ofNat (48 + m.toNat) < Char.ofNat (48 + n.toNat) ↔ m < n) ∧
        (Char.ofNat (48 + m.toNat) = Char.ofNat (48 + n.toNat) ↔ m = n)) := by
    intro m n hm hm' hn hn'
    have h := digit_lt_iff ⟨m.toNat, by omega⟩ ⟨n.toNat, by omega⟩
    simp only [Fin.mk_lt_mk, Fin.mk.injEq] at h
    exact ⟨h.1.trans (by omega), h.2.trans (by omega)⟩
  have h1 := hdigit (m := a / 600) (n := b / 600) (by omega) (by omega) (by omega) (by omega)
  have h2 := hdigit (m := a / 60 % 10) (n := b / 60 % 10) (by omega) (by omega) (by omega) (by omega)
  have h3 := hdigit (m := a % 60 / 10) (n := b % 60 / 10) (by omega) (by omega) (by omega) (by omega)
  have h4 := hdigit (m := a % 10) (n := b % 10) (by omega) (by omega) (by omega) (by omega)
  simp only [clock, List.cons_lt_cons_iff, h1.1, h1.2, h2.1, h2.2, h3.1, h3.2, h4.1, h4.2]
  simp
  omega

theorem clock_le_iff {a b : Int} (ha : 0 ≤ a ∧ a < 1440) (hb : 0 ≤ b ∧ b < 1440) :
    clock a ≤ clock b ↔ a ≤ b := by
  rw [← Int.not_lt, ← clock_lt_iff hb ha, not_lt]

theorem digit_lt {c : Char} {n : Nat} (h : digit? c = some n) : n < 10 := by
  obtain ⟨z, hz, rfl⟩ := Option.map_eq_some_iff.1 h
  have hin := List.find?_some hz
  simp only [decide_eq_true_eq] at hin
  omega

/-- A time lies in a day. -/
theorem Time.minutes_bounds (x : Time) : 0 ≤ x.minutes ∧ x.minutes < 1440 := by
  have hread := x.read
  unfold hhmm? at hread
  split at hread
  case h_1 a b c d rest _ =>
    simp only [Option.bind_eq_bind, Option.bind_eq_some_iff, Option.guard_eq_some', Option.pure_def,
      Option.some.injEq, Prod.mk.injEq] at hread
    obtain ⟨-, -, -, ha, -, hc, tens, htens, hour, hhour, sixths, hsixths, minute, hminute, hh, hm⟩ :=
      hread
    have hlow := digit_lt hhour
    have hlow' := digit_lt hminute
    have hfive : sixths < 6 := by
      have hall : ∀ c ∈ ['0', '1', '2', '3', '4', '5'], ∀ n ∈ digit? c, n < 6 := by
        simp only [List.forall_mem_cons, List.not_mem_nil, false_implies, implies_true]
        decide +kernel
      exact hall c hc sixths hsixths
    have hday : 10 * tens + hour < 24 := by
      rcases ha with rfl | rfl | ⟨rfl, hb⟩
      · have : tens = 0 := by
          have hzero : digit? '0' = some 0 := by decide +kernel
          rw [hzero] at htens
          exact (Option.some.inj htens).symm
        omega
      · have : tens = 1 := by
          have hone : digit? '1' = some 1 := by decide +kernel
          rw [hone] at htens
          exact (Option.some.inj htens).symm
        omega
      · have : tens = 2 := by
          have htwo : digit? '2' = some 2 := by decide +kernel
          rw [htwo] at htens
          exact (Option.some.inj htens).symm
        have hall : ∀ c ∈ ['0', '1', '2', '3'], ∀ n ∈ digit? c, n < 4 := by
          simp only [List.forall_mem_cons, List.not_mem_nil, false_implies, implies_true]
          decide +kernel
        have := hall b hb hour hhour
        omega
    simp only [Time.minutes, ← hh, ← hm]
    omega
  case h_2 => cases hread

/-- The window of a plain plan opens and closes at its start and its end only. -/
theorem edge_of_windowAt_ne {w : Weekly} (hstart : w.start.Plain) (hstop : w.stop.Plain) {l : Int}
    (h : windowAt w l ≠ windowAt w (l - 1)) :
    l % 1440 = w.start.minutes ∨ l % 1440 = w.stop.minutes := by
  have hs := w.start.minutes_bounds
  have he := w.stop.minutes_bounds
  have hcur : ∀ k : Int, 0 ≤ k % 1440 ∧ k % 1440 < 1440 := fun k => by omega
  simp only [windowAt, show w.start.text = _ from hstart, show w.stop.text = _ from hstop,
    clock_lt_iff hs he, clock_lt_iff (hcur _) he, clock_le_iff hs (hcur _)] at h
  by_contra hneither
  rw [not_or] at hneither
  refine h ?_
  by_cases hzero : l % 1440 = 0
  · -- midnight: the minute before is the last of the day before
    have hlast : (l - 1) % 1440 = 1439 := by omega
    have hday : (l - 1) / 1440 = l / 1440 - 1 := by omega
    rw [hzero, hlast, hday]
    by_cases hlt : w.start.minutes < w.stop.minutes
    · have h1 : ¬ w.start.minutes ≤ 0 := by omega
      have h2 : ¬ (1439 : Int) < w.stop.minutes := by omega
      simp [hlt, h1, h2]
    · have h1 : ¬ w.start.minutes ≤ 0 := by omega
      have h2 : ¬ (1439 : Int) < w.stop.minutes := by omega
      have h3 : (0 : Int) < w.stop.minutes := by omega
      have h4 : w.start.minutes ≤ 1439 := by omega
      simp [hlt, h1, h2, h3, h4]
  · have hbefore : (l - 1) % 1440 = l % 1440 - 1 := by omega
    have hday : (l - 1) / 1440 = l / 1440 := by omega
    have h1 : w.start.minutes ≤ l % 1440 - 1 ↔ w.start.minutes ≤ l % 1440 := by omega
    have h2 : l % 1440 - 1 < w.stop.minutes ↔ l % 1440 < w.stop.minutes := by omega
    simp only [hbefore, hday, h1, h2]

/-- In a regular zone, the change of a plain plan that is no change of the offset is a start or an end
on its local date. -/
theorem mem_walls_of_flip {w : Weekly} (hzone : w.zone.Regular) (hstart : w.start.Plain)
    (hstop : w.stop.Plain) {t : Int} (ht : Flip (.weekly w) t)
    (hno : ¬ w.zone.Changes (t / minutes 1)) :
    t ∈ walls (w.zone.localDate t) w.start w.zone ∨ t ∈ walls (w.zone.localDate t) w.stop w.zone := by
  have hwhole := whole_of_flip ht
  have hl : w.zone.localMinute (t - 1) = w.zone.localMinute t - 1 := by
    have hprev : (t - 1) / minutes 1 = t / minutes 1 - 1 := by
      simp only [minute_eq] at *
      omega
    rw [Zone.Changes, not_not] at hno
    simp only [Zone.localMinute, Zone.offsetAt, hprev, hno]
    omega
  have hne : windowAt w (w.zone.localMinute t) ≠ windowAt w (w.zone.localMinute t - 1) := by
    intro heq
    refine ht ?_
    simp only [desired, inWindow, hl, heq]
  obtain ⟨fold, hfold⟩ := hzone (t / minutes 1)
  have hread : ∀ x : Time, w.zone.localMinute t % 1440 = x.minutes →
      t ∈ walls (w.zone.localDate t) x w.zone := by
    intro x hx
    have hminute : w.zone.localDate t * 1440 + x.minutes = w.zone.localMinute t := by
      rw [← hx, Zone.localDate]
      omega
    have hoffset : w.zone.wallOffset (w.zone.localMinute t) fold = w.zone.offset (t / minutes 1) := hfold
    refine List.mem_map.2 ⟨fold, by cases fold <;> simp, ?_⟩
    simp only [hminute, hoffset]
    rw [show w.zone.localMinute t = t / minutes 1 + w.zone.offset (t / minutes 1) from rfl,
      add_sub_cancel_right, ← hwhole]
  exact (edge_of_windowAt_ne hstart hstop hne).imp (hread _) (hread _)

/-- The answer is right exactly when the first change of the period, if there is one, is looked at; the
first change of a plain plan in a regular zone is looked at when its local date is one of the ten. -/
theorem nextChange_right_iff (w : Weekly) (now : Int) :
    (RightAnswer (.weekly w) now (nextChange (.weekly w) now) ↔
      ∀ t, IsLeast (Flips (.weekly w) now) t → LookedAt w now t) ∧
    (w.zone.Regular → w.start.Plain → w.stop.Plain →
      ∀ t, IsLeast (Flips (.weekly w) now) t → w.zone.localDate now - 1 ≤ w.zone.localDate t →
        w.zone.localDate t ≤ w.zone.localDate now + 8 → LookedAt w now t) := by
  refine ⟨right_iff w now, fun hzone hstart hstop t ht hlo hhi => ?_⟩
  by_cases hchange : w.zone.Changes (t / minutes 1)
  · exact Or.inl hchange
  · exact Or.inr ⟨_, hlo, hhi, mem_walls_of_flip hzone hstart hstop ht.1.2.2 hchange⟩

/-- The clock goes from five to four hours behind UTC on 14 March 2027, at 07:00 UTC. -/
def springForward : Zone where
  offset m := if m < 30083460 then -300 else -240
  wallOffset l fold := if l < 30083460 + (if fold then -300 else -240) then -300 else -240
  spaced m n hm hn _ := by
    have hjump : ∀ k : Int, (if k - 1 < 30083460 then (-300 : Int) else -240) ≠
        (if k < 30083460 then -300 else -240) → k = 30083460 := fun k => by
      split <;> split <;> omega
    have := hjump m hm
    have := hjump n hn
    omega

/-- Sundays from 02:15 to 02:45, an hour that the clock skips on that day. -/
def skippedHour : Weekly where
  days := [.sun]
  start := ⟨['0', '2', ':', '1', '5'], 2, 15, by decide +kernel⟩
  stop := ⟨['0', '2', ':', '4', '5'], 2, 45, by decide +kernel⟩
  zone := springForward
  enableInWindow := true
  days_ne := by decide
  days_nodup := by decide
  times_ne := by decide

/-- On the Friday before, at 17:00 UTC: the window of the next Sunday is skipped and that of the Sunday
after opens within nine days, and the answer is that nothing changes. -/
theorem not_right_skippedHour :
    ¬ RightAnswer (.weekly skippedHour) (minutes 30081180)
      (nextChange (.weekly skippedHour) (minutes 30081180)) := by
  have hnone : nextChange (.weekly skippedHour) (minutes 30081180) = none := by decide +kernel
  rw [hnone]
  intro h
  exact absurd (h (minutes 30093495) (by decide +kernel) (by decide +kernel)) (by decide +kernel)

end IllumioOps.PlanChanges
