import IllumioOps.Calendar.Gregorian
import IllumioOps.Domain.Values
import Mathlib.Algebra.Order.Group.Int
import Mathlib.Logic.Function.Basic
import Mathlib.Order.Bounds.Basic

/-!
# Report schedules

`services.reports.schedules`: when a schedule is due in the display zone, and the ticks that enqueue what
came due. `due_time` is the first run after a time (`dueTime_spec`), and a tick enqueues one report for all
the runs it finds missed. The mark of a schedule is moved before its report is enqueued, so a run whose
enqueueing raises is lost: the ticks are right exactly when none does (`ticks_right_iff`).
-/

set_option autoImplicit false

namespace IllumioOps.ReportSchedules

open Calendar

/-! ## Schedules and zones -/

/-- `frequency`, with the day that goes with it. -/
inductive Frequency where
  | daily
  | weekly (dayOfWeek : Int)
  | monthly (dayOfMonth : Int)
  deriving DecidableEq, Repr

/-- The bounds of the settings. -/
def Frequency.Valid : Frequency → Prop
  | .daily => True
  | .weekly dayOfWeek => 0 ≤ dayOfWeek ∧ dayOfWeek ≤ 6
  | .monthly dayOfMonth => 1 ≤ dayOfMonth ∧ dayOfMonth ≤ 31

structure ReportSchedule where
  id : String
  enabled : Bool
  frequency : Frequency
  hour : Int
  minute : Int
  frequency_valid : frequency.Valid
  hour_bounds : 0 ≤ hour ∧ hour ≤ 23
  minute_bounds : 0 ≤ minute ∧ minute ≤ 59

/-- A zone: its offset from UTC at each instant, and the offset that a wall-clock time is read with, the
first reading of a time that comes twice. Offsets are less than a day, and no clock jumps by more than a
day. -/
structure Zone where
  offset : Int → Int
  wallOffset : Int → Int
  offset_bounds : ∀ t, -days 1 < offset t ∧ offset t < days 1
  wallOffset_bounds : ∀ l, -days 1 < wallOffset l ∧ wallOffset l < days 1
  first_reading : ∀ t, offset t ≤ wallOffset (t + offset t)
  jump : ∀ l l', l + days 1 ≤ l' → l - wallOffset l ≤ l' - wallOffset l'

/-- `t.astimezone(tz).date()` -/
def Zone.localDate (z : Zone) (t : Int) : Int := (t + z.offset t) / days 1

/-! ## When a schedule is due -/

/-- `_day_matches` -/
def dayMatches (s : ReportSchedule) (d : Int) : Bool :=
  match s.frequency with
  | .weekly dayOfWeek => decide (weekday d = dayOfWeek)
  | .monthly dayOfMonth => decide (dayOf d = min dayOfMonth (monthLength (monthOf d)))
  | .daily => true

/-- `datetime.combine(d, time(s.hour, s.minute))` -/
def wall (s : ReportSchedule) (d : Int) : Int := days d + hours s.hour + minutes s.minute

/-- `_at` -/
def at_ (d : Int) (s : ReportSchedule) (z : Zone) : Int := wall s d - z.wallOffset (wall s d)

/-- The loop of `due_time` over `n` dates from `d` on. -/
def dueFrom (s : ReportSchedule) (z : Zone) (after : Int) : Nat → Int → Option Int
  | 0, _ => none
  | n + 1, d =>
      if dayMatches s d && decide (after < at_ d s z) then some (at_ d s z)
      else dueFrom s z after n (d + 1)

/-- `due_time`; none when it raises. -/
def dueTime (s : ReportSchedule) (z : Zone) (after : Int) : Option Int :=
  dueFrom s z after 400 (z.localDate after - 1)

/-- The run instants of a schedule. -/
def IsRun (s : ReportSchedule) (z : Zone) (t : Int) : Prop :=
  ∃ d, dayMatches s d = true ∧ at_ d s z = t

section Due

variable {s : ReportSchedule} {z : Zone} {after d d' t : Int} {n : Nat}

theorem day_eq (n : Int) : days n = n * 86400000000 := by
  simp only [days, hours, minutes, seconds, milliseconds]
  omega

/-- The wall-clock time of a schedule lies in its date. -/
theorem wall_bounds : days d ≤ wall s d ∧ wall s d < days (d + 1) := by
  obtain ⟨hhour, hhour'⟩ := s.hour_bounds
  obtain ⟨hminute, hminute'⟩ := s.minute_bounds
  simp only [wall, days, hours, minutes, seconds, milliseconds]
  omega

/-- On a later date a schedule runs no earlier. -/
theorem at_le_at (h : d < d') : at_ d s z ≤ at_ d' s z := by
  refine z.jump _ _ ?_
  simp only [wall, day_eq]
  omega

/-- On a date before the one that the search begins with, nothing runs any more. -/
theorem at_le_of_lt (h : d < z.localDate after - 1) : at_ d s z ≤ after := by
  have hwall := (wall_bounds (s := s) (d := d)).2
  have hjump := z.jump (wall s d) (after + z.offset after) (by
    rw [Zone.localDate, day_eq] at h
    simp only [day_eq] at *
    omega)
  have hfirst := z.first_reading after
  rw [at_]
  omega

/-- Two dates on, everything runs later. -/
theorem lt_at_of_lt (h : z.localDate after + 2 < d) : after < at_ d s z := by
  have hwall := (wall_bounds (s := s) (d := d)).1
  have hoffset := z.offset_bounds after
  have hreading := z.wallOffset_bounds (wall s d)
  rw [Zone.localDate, day_eq] at h
  simp only [at_, day_eq] at *
  omega

/-- Within two months from a date there is one that matches. -/
theorem exists_dayMatches (s : ReportSchedule) (d : Int) :
    ∃ d', d ≤ d' ∧ d' ≤ d + 61 ∧ dayMatches s d' = true := by
  have hvalid := s.frequency_valid
  cases hfrequency : s.frequency with
  | daily => exact ⟨d, le_rfl, by omega, by rw [dayMatches, hfrequency]⟩
  | weekly dayOfWeek =>
      rw [hfrequency] at hvalid
      obtain ⟨d', hlo, hhi, hday⟩ := exists_weekday d hvalid.1 hvalid.2
      exact ⟨d', hlo, by omega, by rw [dayMatches, hfrequency]; exact decide_eq_true hday⟩
  | monthly dayOfMonth =>
      rw [hfrequency] at hvalid
      obtain ⟨d', hlo, hhi, hday⟩ := exists_dayOf d hvalid.1
      exact ⟨d', hlo, hhi, by rw [dayMatches, hfrequency]; exact decide_eq_true hday⟩

/-- The search ends at the first date that matches with a run after the time. -/
theorem dueFrom_eq_some (h : dueFrom s z after n d = some t) :
    ∃ d', d ≤ d' ∧ dayMatches s d' = true ∧ after < at_ d' s z ∧ at_ d' s z = t ∧
      ∀ e, d ≤ e → e < d' → dayMatches s e = true → at_ e s z ≤ after := by
  induction n generalizing d with
  | zero => exact absurd h (by simp [dueFrom])
  | succ n ih =>
      rw [dueFrom] at h
      split at h
      · rename_i hfound
        rw [Bool.and_eq_true, decide_eq_true_eq] at hfound
        exact ⟨d, le_rfl, hfound.1, hfound.2, Option.some.inj h, fun e hle hlt => by omega⟩
      · rename_i hnot
        obtain ⟨d', hle, hmatches, hafter, hat, hbefore⟩ := ih h
        refine ⟨d', by omega, hmatches, hafter, hat, fun e hde hed' he => ?_⟩
        rcases hde.eq_or_lt with rfl | hlt
        · rw [Bool.and_eq_true, decide_eq_true_eq] at hnot
          exact not_lt.1 fun hlt => hnot ⟨he, hlt⟩
        · exact hbefore e hlt hed' he

/-- The search finds a run where there is one among its dates. -/
theorem dueFrom_isSome (hlo : d ≤ d') (hhi : d' < d + n) (hmatches : dayMatches s d' = true)
    (hafter : after < at_ d' s z) : (dueFrom s z after n d).isSome := by
  induction n generalizing d with
  | zero => omega
  | succ n ih =>
      rw [dueFrom]
      split
      · rfl
      · rename_i hnot
        refine ih ?_ (by omega)
        rcases hlo.eq_or_lt with rfl | hlt
        · simp [hmatches, hafter] at hnot
        · exact hlt

/-- `due_time` is the first run after the time, and it never raises. -/
theorem dueTime_spec (s : ReportSchedule) (z : Zone) (after : Int) :
    ∃ t, dueTime s z after = some t ∧ IsLeast {x | IsRun s z x ∧ after < x} t := by
  obtain ⟨d, hlo, hhi, hmatches⟩ := exists_dayMatches s (z.localDate after + 3)
  have hafter : after < at_ d s z := lt_at_of_lt (by omega)
  obtain ⟨t, ht⟩ := Option.isSome_iff_exists.1 (dueFrom_isSome (n := 400)
    (d := z.localDate after - 1) (by omega) (by omega) hmatches hafter)
  refine ⟨t, ht, ?_⟩
  obtain ⟨d', hfrom, hmatches', hafter, rfl, hbefore⟩ := dueFrom_eq_some ht
  refine ⟨⟨⟨d', hmatches', rfl⟩, hafter⟩, ?_⟩
  rintro x ⟨⟨e, he, rfl⟩, hx⟩
  rcases lt_trichotomy e d' with hlt | rfl | hgt
  · -- an earlier date is before the search, or was passed over
    by_cases hstart : z.localDate after - 1 ≤ e
    · exact absurd (hbefore e hstart hlt he) (not_le.2 hx)
    · exact absurd (at_le_of_lt (not_le.1 hstart)) (not_le.2 hx)
  · exact le_rfl
  · exact at_le_at hgt

end Due

/-! ## The ticks -/

/-- The loop over the runs missed: the last one up to now. -/
def latestDue (s : ReportSchedule) (z : Zone) (now latest : Int) : Option Int :=
  match _h : dueTime s z latest with
  | none => none
  | some following => if _hle : following ≤ now then latestDue s z now following else some latest
termination_by (now - latest).toNat
decreasing_by
  obtain ⟨t, ht, hleast⟩ := dueTime_spec s z latest
  obtain rfl := Option.some.inj (_h.symm.trans ht)
  have hlt : latest < following := hleast.1.2
  omega

/-- A tick: when it is, the settings it finds, and of which schedules an enqueueing returns. -/
structure Tick where
  now : Int
  schedules : List ReportSchedule
  zone : Zone
  enqueue : String → Bool
  ids_nodup : (schedules.map ReportSchedule.id).Nodup

/-- `report_schedule_state`, and beside it, for no operation to read, when each schedule was first
seen. -/
structure State where
  lastDue : String → Option Int
  firstSeen : String → Option Int

/-- No schedule was seen. -/
def State.start : State := ⟨fun _ => none, fun _ => none⟩

/-- A report is enqueued for a run, and `enqueue` returns or raises. -/
structure Attempt where
  id : String
  due : Int
  returned : Bool
  deriving DecidableEq, Repr

/-- `set_schedule_last_due` -/
def State.setLastDue (w : State) (id : String) (due : Int) : State :=
  { w with lastDue := Function.update w.lastDue id (some due) }

/-- A schedule is seen for the first time. -/
def State.see (w : State) (id : String) (now : Int) : State :=
  { w.setLastDue id now with firstSeen := Function.update w.firstSeen id (some now) }

/-- `forget_schedules_except` -/
def State.forgetExcept (w : State) (keep : List String) : State where
  lastDue id := if id ∈ keep then w.lastDue id else none
  firstSeen id := if id ∈ keep then w.firstSeen id else none

/-- What one schedule's turn does: nothing, an attempt, or it raises. -/
inductive Turn where
  | passed (w : State)
  | attempted (w : State) (attempt : Attempt)
  | raised

/-- One schedule's turn in the loop of `tick_schedules`; `last` is what was read before it. -/
def turn (t : Tick) (last : String → Option Int) (w : State) (s : ReportSchedule) : Turn :=
  if !s.enabled then .passed w
  else match last s.id with
    | none => .passed (w.see s.id t.now)
    | some mark =>
        match dueTime s t.zone mark with
        | none => .raised
        | some next =>
            if t.now < next then .passed w
            else match latestDue s t.zone t.now next with
              | none => .raised
              | some latest =>
                  .attempted (w.setLastDue s.id latest) ⟨s.id, latest, t.enqueue s.id⟩

/-- The loop: it ends where something raises. -/
def turns (t : Tick) (last : String → Option Int) : State → List ReportSchedule →
    State × List Attempt
  | w, [] => (w, [])
  | w, s :: schedules =>
      match turn t last w s with
      | .passed w => turns t last w schedules
      | .raised => (w, [])
      | .attempted w attempt =>
          if attempt.returned then
            let rest := turns t last w schedules
            (rest.1, attempt :: rest.2)
          else (w, [attempt])

/-- `tick_schedules`, with the attempts it makes. -/
def State.tick (w : State) (t : Tick) : State × List Attempt :=
  turns t w.lastDue (w.forgetExcept (t.schedules.map ReportSchedule.id)) t.schedules

/-- The ticks of a run, each with the state it starts from. -/
def course : State → List Tick → List (State × Tick)
  | _, [] => []
  | w, t :: ticks => (w, t) :: course (w.tick t).1 ticks

/-- All the attempts of a run. -/
def attempts (w : State) (ticks : List Tick) : List Attempt :=
  (course w ticks).flatMap fun p => (p.1.tick p.2).2

/-- The runs of a schedule after its mark, up to now. -/
def Missed (s : ReportSchedule) (t : Tick) (mark : Int) : Set Int :=
  {x | IsRun s t.zone x ∧ mark < x ∧ x ≤ t.now}

/-- A schedule's missed runs are still due after the tick. -/
def StillDue (s : ReportSchedule) (t : Tick) (mark : Int) (w : State) : Prop :=
  ∃ x ∈ Missed s t mark, ∃ mark', w.lastDue s.id = some mark' ∧ mark' < x

/-- How ticks must be: a schedule has one attempt in a tick at most, for the last of the runs it missed
and after it was first seen; missed runs are made up by it, or a tick in which an enqueueing raised
leaves them due; and no run of a schedule is attempted twice. -/
structure TicksRight (ticks : List Tick) : Prop where
  once : ∀ p ∈ course .start ticks, ((p.1.tick p.2).2.map Attempt.id).Nodup
  due : ∀ p ∈ course .start ticks, ∀ a ∈ (p.1.tick p.2).2, ∃ s ∈ p.2.schedules,
    s.id = a.id ∧ s.enabled = true ∧ ∃ mark, p.1.lastDue s.id = some mark ∧
      IsGreatest (Missed s p.2 mark) a.due
  seen : ∀ p ∈ course .start ticks, ∀ a ∈ (p.1.tick p.2).2,
    ∃ seen, p.1.firstSeen a.id = some seen ∧ seen < a.due
  served : ∀ p ∈ course .start ticks, ∀ s ∈ p.2.schedules, s.enabled = true →
    ∀ mark, p.1.lastDue s.id = some mark → (Missed s p.2 mark).Nonempty →
      (∃ a ∈ (p.1.tick p.2).2, a.id = s.id ∧ a.returned = true ∧
        (p.1.tick p.2).1.lastDue s.id = some a.due) ∨
      ((∃ a ∈ (p.1.tick p.2).2, a.returned = false) ∧ StillDue s p.2 mark (p.1.tick p.2).1)
  distinct : (attempts .start ticks).Pairwise fun a b => a.id = b.id → a.due < b.due

/-! ## What a turn does -/

section Turns

variable {s : ReportSchedule} {z : Zone} {t : Tick} {w w' : State} {last : String → Option Int}
  {now latest mark : Int} {a : Attempt} {id : String}

/-- The loop over the runs missed ends at the last of them. -/
theorem latestDue_spec (hrun : IsRun s z latest) (hle : latest ≤ now) :
    ∃ x, latestDue s z now latest = some x ∧
      IsGreatest {x | IsRun s z x ∧ latest ≤ x ∧ x ≤ now} x := by
  induction hn : (now - latest).toNat using Nat.strong_induction_on generalizing latest with
  | _ n ih =>
      obtain ⟨following, hfollowing, ⟨hnext, hlt⟩, hleast⟩ := dueTime_spec s z latest
      rw [latestDue]
      split
      · rename_i hnone
        exact absurd (hnone.symm.trans hfollowing) (by simp)
      · rename_i f hf
        obtain rfl : f = following := Option.some.inj (hf.symm.trans hfollowing)
        split
        · rename_i hle'
          obtain ⟨x, hx, ⟨hrunx, hfx, hxnow⟩, hgreatest⟩ :=
            ih (now - f).toNat (by omega) hnext hle' rfl
          refine ⟨x, hx, ⟨hrunx, by omega, hxnow⟩, fun y hy => ?_⟩
          by_cases hfy : f ≤ y
          · exact hgreatest ⟨hy.1, hfy, hy.2.2⟩
          · omega
        · rename_i hend
          refine ⟨latest, rfl, ⟨hrun, le_rfl, hle⟩, fun y hy => ?_⟩
          by_contra hlatest
          exact hend (le_trans (hleast ⟨hy.1, by omega⟩) hy.2.2)

/-- A schedule that missed runs gets an attempt for the last of them. -/
theorem turn_attempted {next : Int} (henabled : s.enabled = true) (hlast : last s.id = some mark)
    (hnext : dueTime s t.zone mark = some next) (hle : next ≤ t.now)
    (hlatest : latestDue s t.zone t.now next = some latest) :
    turn t last w s = .attempted (w.setLastDue s.id latest) ⟨s.id, latest, t.enqueue s.id⟩ := by
  rw [turn.eq_def, henabled, hlast]
  simp only [Bool.not_true, Bool.false_eq_true, if_false, hnext]
  rw [if_neg (not_lt.2 hle), hlatest]

/-- What a turn can do: it passes a schedule that has missed nothing, or one that is seen for the first
time, or it makes an attempt for the last of the missed runs. -/
theorem turn_cases (t : Tick) (last : String → Option Int) (w : State) (s : ReportSchedule) :
    (turn t last w s = .passed w ∧ (s.enabled = true → ∃ mark, last s.id = some mark ∧
      ¬(Missed s t mark).Nonempty)) ∨
    (turn t last w s = .passed (w.see s.id t.now) ∧ s.enabled = true ∧ last s.id = none) ∨
    ∃ mark due, turn t last w s =
        .attempted (w.setLastDue s.id due) ⟨s.id, due, t.enqueue s.id⟩ ∧
      s.enabled = true ∧ last s.id = some mark ∧ IsGreatest (Missed s t mark) due := by
  by_cases henabled : s.enabled = true
  · cases hlast : last s.id with
    | none =>
        refine Or.inr (Or.inl ⟨?_, henabled, rfl⟩)
        rw [turn.eq_def, henabled, hlast]
        rfl
    | some mark =>
        obtain ⟨next, hnext, ⟨hrun, hlt⟩, hleast⟩ := dueTime_spec s t.zone mark
        by_cases hdue : t.now < next
        · refine Or.inl ⟨?_, fun _ => ⟨mark, rfl, ?_⟩⟩
          · rw [turn.eq_def, henabled, hlast]
            simp only [Bool.not_true, Bool.false_eq_true, if_false, hnext, if_pos hdue]
          · rintro ⟨x, hx⟩
            exact absurd (le_trans (hleast ⟨hx.1, hx.2.1⟩) hx.2.2) (not_le.2 hdue)
        · obtain ⟨x, hx, ⟨hrunx, hnextx, hxnow⟩, hgreatest⟩ :=
            latestDue_spec hrun (not_lt.1 hdue)
          refine Or.inr (Or.inr ⟨mark, x, turn_attempted henabled hlast hnext (not_lt.1 hdue) hx,
            henabled, rfl, ⟨hrunx, by omega, hxnow⟩, fun y hy => ?_⟩)
          exact hgreatest ⟨hy.1, hleast ⟨hy.1, hy.2.1⟩, hy.2.2⟩
  · refine Or.inl ⟨?_, fun h => absurd h henabled⟩
    rw [Bool.not_eq_true] at henabled
    rw [turn.eq_def, henabled]
    rfl

/-- What comes of a schedule in a tick. -/
inductive Outcome (t : Tick) (last : String → Option Int) (w w' : State) (made : List Attempt)
    (s : ReportSchedule) : Prop where
  | passed (mark_eq : w'.lastDue s.id = w.lastDue s.id) (seen_eq : w'.firstSeen s.id = w.firstSeen s.id)
      (others : ∀ a ∈ made, a.id ≠ s.id)
      (reason : s.enabled = true → ∀ mark, last s.id = some mark → (Missed s t mark).Nonempty →
        ∃ a ∈ made, a.returned = false)
  | seen (mark_eq : w'.lastDue s.id = some t.now) (seen_eq : w'.firstSeen s.id = some t.now)
      (others : ∀ a ∈ made, a.id ≠ s.id) (new : last s.id = none)
  | attempted (a : Attempt) (mark : Int) (mem : a ∈ made) (id_eq : a.id = s.id)
      (enabled : s.enabled = true) (mark_eq : last s.id = some mark)
      (greatest : IsGreatest (Missed s t mark) a.due) (moved : w'.lastDue s.id = some a.due)
      (seen_eq : w'.firstSeen s.id = w.firstSeen s.id)

/-- The outcome of a later turn, seen from before an earlier one. -/
theorem Outcome.from_before {w₁ : State} {made : List Attempt} (earlier : Option Attempt)
    (h : Outcome t last w₁ w' made s) (hmark : w₁.lastDue s.id = w.lastDue s.id)
    (hseen : w₁.firstSeen s.id = w.firstSeen s.id) (hearlier : ∀ a ∈ earlier, a.id ≠ s.id) :
    Outcome t last w w' (earlier.toList ++ made) s := by
  cases h with
  | passed mark_eq seen_eq others reason =>
      refine .passed (mark_eq.trans hmark) (seen_eq.trans hseen) (fun a ha => ?_) ?_
      · rcases List.mem_append.1 ha with ha | ha
        · exact hearlier a (Option.mem_toList.1 ha)
        · exact others a ha
      · intro henabled mark hlast hmissed
        obtain ⟨a, ha, hraised⟩ := reason henabled mark hlast hmissed
        exact ⟨a, List.mem_append_right _ ha, hraised⟩
  | seen mark_eq seen_eq others new =>
      refine .seen mark_eq seen_eq (fun a ha => ?_) new
      rcases List.mem_append.1 ha with ha | ha
      · exact hearlier a (Option.mem_toList.1 ha)
      · exact others a ha
  | attempted a mark mem id_eq enabled mark_eq greatest moved seen_eq =>
      exact .attempted a mark (List.mem_append_right _ mem) id_eq enabled mark_eq greatest moved
        (seen_eq.trans hseen)

/-- What the loop does: it touches the marks of its schedules only, makes one attempt for each at most,
and leaves each with its outcome. -/
theorem turns_spec (t : Tick) (last : String → Option Int) (w : State)
    (schedules : List ReportSchedule) (hnodup : (schedules.map ReportSchedule.id).Nodup) :
    (∀ id, id ∉ schedules.map ReportSchedule.id →
      (turns t last w schedules).1.lastDue id = w.lastDue id ∧
        (turns t last w schedules).1.firstSeen id = w.firstSeen id) ∧
    ((turns t last w schedules).2.map Attempt.id).Nodup ∧
    (∀ a ∈ (turns t last w schedules).2, a.id ∈ schedules.map ReportSchedule.id) ∧
    ∀ s ∈ schedules,
      Outcome t last w (turns t last w schedules).1 (turns t last w schedules).2 s := by
  induction schedules generalizing w with
  | nil => simp [turns]
  | cons s schedules ih =>
      rw [List.map_cons, List.nodup_cons] at hnodup
      have hother : ∀ s' ∈ schedules, s'.id ≠ s.id := fun s' hs' heq =>
        hnodup.1 (heq ▸ List.mem_map_of_mem hs')
      rw [turns]
      rcases turn_cases t last w s with ⟨hturn, hreason⟩ | ⟨hturn, henabled, hlast⟩ |
        ⟨mark, due, hturn, henabled, hlast, hgreatest⟩
      · obtain ⟨hframe, hids, hmem, houtcome⟩ := ih w hnodup.2
        rw [hturn]
        refine ⟨fun id hid => hframe id (fun h => hid (List.mem_cons_of_mem _ h)), hids,
          fun a ha => List.mem_cons_of_mem _ (hmem a ha), ?_⟩
        rintro s' (_ | ⟨_, hs'⟩)
        · obtain ⟨hmark, hseen⟩ := hframe s.id hnodup.1
          refine .passed hmark hseen (fun a ha heq => hnodup.1 (heq ▸ hmem a ha)) ?_
          intro henabled mark hlast hmissed
          obtain ⟨mark', hlast', hnone⟩ := hreason henabled
          obtain rfl := Option.some.inj (hlast.symm.trans hlast')
          exact absurd hmissed hnone
        · exact houtcome s' hs'
      · obtain ⟨hframe, hids, hmem, houtcome⟩ := ih (w.see s.id t.now) hnodup.2
        rw [hturn]
        refine ⟨fun id hid => ?_, hids, fun a ha => List.mem_cons_of_mem _ (hmem a ha), ?_⟩
        · obtain ⟨hne, hid⟩ := List.ne_and_not_mem_of_not_mem_cons hid
          obtain ⟨hmark, hseen⟩ := hframe id hid
          exact ⟨hmark.trans (Function.update_of_ne hne _ _),
            hseen.trans (Function.update_of_ne hne _ _)⟩
        · rintro s' (_ | ⟨_, hs'⟩)
          · obtain ⟨hmark, hseen⟩ := hframe s.id hnodup.1
            exact .seen (hmark.trans (Function.update_self _ _ _))
              (hseen.trans (Function.update_self _ _ _))
              (fun a ha heq => hnodup.1 (heq ▸ hmem a ha)) hlast
          · exact (houtcome s' hs').from_before none
              (Function.update_of_ne (hother s' hs') _ _)
              (Function.update_of_ne (hother s' hs') _ _) (by simp)
      · obtain ⟨hframe, hids, hmem, houtcome⟩ := ih (w.setLastDue s.id due) hnodup.2
        rw [hturn]
        simp only
        split
        · refine ⟨fun id hid => ?_, ?_, ?_, ?_⟩
          · obtain ⟨hne, hid⟩ := List.ne_and_not_mem_of_not_mem_cons hid
            obtain ⟨hmark, hseen⟩ := hframe id hid
            exact ⟨hmark.trans (Function.update_of_ne hne _ _), hseen⟩
          · rw [List.map_cons, List.nodup_cons]
            refine ⟨fun h => ?_, hids⟩
            obtain ⟨a, ha, heq⟩ := List.mem_map.1 h
            have hmem := hmem a ha
            rw [heq] at hmem
            exact hnodup.1 hmem
          · rintro a (_ | ⟨_, ha⟩)
            · exact List.mem_cons_self
            · exact List.mem_cons_of_mem _ (hmem a ha)
          · rintro s' (_ | ⟨_, hs'⟩)
            · obtain ⟨hmark, hseen⟩ := hframe s.id hnodup.1
              exact .attempted _ mark List.mem_cons_self rfl henabled hlast hgreatest
                (hmark.trans (Function.update_self _ _ _)) hseen
            · exact (houtcome s' hs').from_before (some ⟨s.id, due, t.enqueue s.id⟩)
                (Function.update_of_ne (hother s' hs') _ _) rfl
                fun a ha => Option.mem_some.1 ha ▸ (hother s' hs').symm
        · rename_i hraised
          -- the exception ends the tick: the schedules behind are not looked at
          refine ⟨fun id hid => ?_, List.nodup_singleton _, fun a ha => ?_, ?_⟩
          · exact ⟨Function.update_of_ne (List.ne_and_not_mem_of_not_mem_cons hid).1 _ _, rfl⟩
          · rw [List.mem_singleton.1 ha]
            exact List.mem_cons_self
          · rintro s' (_ | ⟨_, hs'⟩)
            · exact .attempted _ mark List.mem_cons_self rfl henabled hlast hgreatest
                (Function.update_self _ _ _) rfl
            · refine .passed (Function.update_of_ne (hother s' hs') _ _) rfl (fun a ha => ?_) ?_
              · rw [List.mem_singleton.1 ha]
                exact (hother s' hs').symm
              · exact fun _ _ _ _ => ⟨_, List.mem_cons_self, Bool.not_eq_true _ ▸ hraised⟩

/-- What comes of a schedule of the tick. -/
theorem tick_outcome (w : State) (t : Tick) (hs : s ∈ t.schedules) :
    Outcome t w.lastDue w (w.tick t).1 (w.tick t).2 s := by
  obtain ⟨-, -, -, houtcome⟩ := turns_spec t w.lastDue
    (w.forgetExcept (t.schedules.map ReportSchedule.id)) t.schedules t.ids_nodup
  have hkept : s.id ∈ t.schedules.map ReportSchedule.id := List.mem_map_of_mem hs
  exact (houtcome s hs).from_before none (if_pos hkept) (if_pos hkept) (by simp)

theorem nodup_tick (w : State) (t : Tick) : ((w.tick t).2.map Attempt.id).Nodup :=
  (turns_spec t w.lastDue _ t.schedules t.ids_nodup).2.1

/-- An attempt is for the last run that its schedule missed, and moves the schedule's mark to it. -/
theorem attempt_spec (ha : a ∈ (w.tick t).2) : ∃ s ∈ t.schedules, s.id = a.id ∧ s.enabled = true ∧
    ∃ mark, w.lastDue s.id = some mark ∧ IsGreatest (Missed s t mark) a.due ∧
      (w.tick t).1.lastDue s.id = some a.due := by
  obtain ⟨-, -, hmem, -⟩ := turns_spec t w.lastDue
    (w.forgetExcept (t.schedules.map ReportSchedule.id)) t.schedules t.ids_nodup
  obtain ⟨s, hs, hid⟩ := List.mem_map.1 (hmem a ha)
  refine ⟨s, hs, hid, ?_⟩
  cases tick_outcome w t hs with
  | passed _ _ others _ => exact absurd hid.symm (others a ha)
  | seen _ _ others _ => exact absurd hid.symm (others a ha)
  | attempted b mark mem id_eq enabled mark_eq greatest moved _ =>
      have hab : b = a := List.inj_on_of_nodup_map (nodup_tick w t) mem ha (id_eq.trans hid)
      rw [← hab]
      exact ⟨enabled, mark, mark_eq, greatest, moved⟩

/-! ## What holds between two ticks -/

/-- After the ticks up to now: a mark is not in the future, nor before the schedule was first seen, nor
before a run that was attempted. -/
structure Marked (w : State) (now : Int) (past : List Attempt) : Prop where
  mark : ∀ id mark, w.lastDue id = some mark → mark ≤ now ∧
    (∃ seen, w.firstSeen id = some seen ∧ seen ≤ mark) ∧ ∀ a ∈ past, a.id = id → a.due ≤ mark
  past : ∀ a ∈ past, a.due ≤ now

theorem marked_start (now : Int) : Marked .start now [] where
  mark _ _ h := absurd h (by simp [State.start])
  past _ h := absurd h List.not_mem_nil

/-- What one tick preserves. -/
theorem Marked.tick {past : List Attempt} (h : Marked w now past) (hnow : now ≤ t.now) :
    Marked (w.tick t).1 t.now (past ++ (w.tick t).2) where
  mark id mark hmark := by
    obtain ⟨hframe, -, hmem, -⟩ := turns_spec t w.lastDue
      (w.forgetExcept (t.schedules.map ReportSchedule.id)) t.schedules t.ids_nodup
    by_cases hkept : id ∈ t.schedules.map ReportSchedule.id
    · obtain ⟨s, hs, rfl⟩ := List.mem_map.1 hkept
      cases tick_outcome w t hs with
      | passed mark_eq seen_eq others _ =>
          rw [mark_eq] at hmark
          obtain ⟨hle, hseen, hpast⟩ := h.mark s.id mark hmark
          refine ⟨by omega, by rwa [seen_eq], fun a ha hid => ?_⟩
          rcases List.mem_append.1 ha with ha | ha
          · exact hpast a ha hid
          · exact absurd hid (others a ha)
      | seen mark_eq seen_eq others _ =>
          obtain rfl := Option.some.inj (mark_eq.symm.trans hmark)
          refine ⟨le_rfl, ⟨t.now, seen_eq, le_rfl⟩, fun a ha hid => ?_⟩
          rcases List.mem_append.1 ha with ha | ha
          · exact (h.past a ha).trans hnow
          · exact absurd hid (others a ha)
      | attempted b before mem id_eq enabled mark_eq greatest moved seen_eq =>
          obtain rfl := Option.some.inj (moved.symm.trans hmark)
          obtain ⟨hle, ⟨seen, hseen, hseenle⟩, hpast⟩ := h.mark s.id before mark_eq
          have hlater : before < b.due := greatest.1.2.1
          refine ⟨greatest.1.2.2, ⟨seen, seen_eq.trans hseen, by omega⟩, fun a ha hid => ?_⟩
          rcases List.mem_append.1 ha with ha | ha
          · exact (hpast a ha hid).trans hlater.le
          · have hab : a = b :=
              List.inj_on_of_nodup_map (nodup_tick w t) ha mem (hid.trans id_eq.symm)
            rw [hab]
    · -- a schedule that is gone from the settings has no mark
      have hforgotten := (hframe id hkept).1.trans (if_neg hkept)
      exact absurd (hmark.symm.trans hforgotten) (by simp)
  past a ha := by
    rcases List.mem_append.1 ha with ha | ha
    · exact (h.past a ha).trans hnow
    · obtain ⟨s, -, -, -, mark, -, hgreatest, -⟩ := attempt_spec ha
      exact hgreatest.1.2.2

/-- What a run preserves: it meets every tick with marks that are right, and attempts the runs of each
schedule in their order. -/
theorem Marked.course {past : List Attempt} {ticks : List Tick} (h : Marked w now past)
    (hnow : ∀ t ∈ ticks, now ≤ t.now) (hticks : ticks.Pairwise fun (a b : Tick) => a.now ≤ b.now)
    (hpast : past.Pairwise fun a b => a.id = b.id → a.due < b.due) :
    (∀ p ∈ course w ticks, ∃ before now, Marked p.1 now before) ∧
      (past ++ attempts w ticks).Pairwise fun a b => a.id = b.id → a.due < b.due := by
  induction ticks generalizing w now past with
  | nil =>
      refine ⟨fun p hp => absurd hp List.not_mem_nil, ?_⟩
      rwa [attempts, ReportSchedules.course, List.flatMap_nil, List.append_nil]
  | cons t ticks ih =>
      rw [List.pairwise_cons] at hticks
      have hnow' := hnow t List.mem_cons_self
      have hmade : (past ++ (w.tick t).2).Pairwise fun a b => a.id = b.id → a.due < b.due := by
        refine List.pairwise_append.2 ⟨hpast, ?_, fun a ha b hb hid => ?_⟩
        · exact (List.pairwise_map.1 (nodup_tick w t)).imp fun hne heq => absurd heq hne
        · -- a run that is attempted lies after the mark
          obtain ⟨s, -, hs, -, mark, hmark, hgreatest, -⟩ := attempt_spec hb
          have hle := (h.mark s.id mark hmark).2.2 a ha (hid.trans hs.symm)
          exact hle.trans_lt hgreatest.1.2.1
      obtain ⟨hcourse, hattempts⟩ := ih (h.tick hnow') hticks.1 hticks.2 hmade
      refine ⟨?_, ?_⟩
      · rintro p (_ | ⟨_, hp⟩)
        · exact ⟨past, now, h⟩
        · exact hcourse p hp
      · rwa [attempts, ReportSchedules.course, List.flatMap_cons, ← List.append_assoc]

end Turns

/-- Where the ticks are right, no enqueueing raises: the mark is at the run that was attempted, and none
of the runs missed lies after it. -/
theorem TicksRight.returned {ticks : List Tick} (h : TicksRight ticks) {a : Attempt}
    (ha : a ∈ attempts .start ticks) : a.returned = true := by
  obtain ⟨p, hp, ha⟩ := List.mem_flatMap.1 ha
  obtain ⟨s, hs, hid, henabled, mark, hmark, hgreatest, hmoved⟩ := attempt_spec ha
  rcases h.served p hp s hs henabled mark hmark ⟨a.due, hgreatest.1⟩ with
    ⟨b, hb, hid', hreturned, -⟩ | ⟨-, x, hx, mark', hmark', hlt⟩
  · rw [← List.inj_on_of_nodup_map (nodup_tick p.1 p.2) hb ha (hid'.trans hid)]
    exact hreturned
  · obtain rfl := Option.some.inj (hmoved.symm.trans hmark')
    exact absurd (hgreatest.2 hx) (not_le.2 hlt)

/-- A schedule's due time is its first run after a time. Over ticks at times that never go back, each
with its own settings, everything is as it should be if and only if no enqueueing raises. -/
theorem ticks_right_iff (ticks : List Tick) (hticks : ticks.Pairwise fun (a b : Tick) => a.now ≤ b.now) :
    (∀ s z after, ∃ t, dueTime s z after = some t ∧ IsLeast {x | IsRun s z x ∧ after < x} t) ∧
      (TicksRight ticks ↔ ∀ a ∈ attempts .start ticks, a.returned = true) := by
  refine ⟨dueTime_spec, fun hright a ha => hright.returned ha, fun hreturned => ?_⟩
  · obtain ⟨hcourse, hdistinct⟩ : (∀ p ∈ course .start ticks, ∃ before now,
        Marked p.1 now before) ∧
        (([] : List Attempt) ++ attempts .start ticks).Pairwise fun a b =>
          a.id = b.id → a.due < b.due := by
      cases ticks with
      | nil => exact ⟨fun p hp => absurd hp List.not_mem_nil, List.Pairwise.nil⟩
      | cons t ticks =>
          refine (marked_start t.now).course ?_ hticks List.Pairwise.nil
          rintro t' (_ | ⟨_, ht'⟩)
          · exact le_rfl
          · exact (List.pairwise_cons.1 hticks).1 t' ht'
    refine ⟨fun p _ => nodup_tick p.1 p.2, fun p hp a ha => ?_, fun p hp a ha => ?_,
      fun p hp s hs henabled mark hmark hmissed => ?_, hdistinct⟩
    · obtain ⟨s, hs, hid, henabled, mark, hmark, hgreatest, -⟩ := attempt_spec ha
      exact ⟨s, hs, hid, henabled, mark, hmark, hgreatest⟩
    · obtain ⟨s, hs, hid, henabled, mark, hmark, hgreatest, -⟩ := attempt_spec ha
      obtain ⟨before, now, hmarked⟩ := hcourse p hp
      obtain ⟨-, ⟨seen, hseen, hle⟩, -⟩ := hmarked.mark s.id mark hmark
      exact ⟨seen, hid ▸ hseen, hle.trans_lt hgreatest.1.2.1⟩
    · have hall : ∀ a ∈ (p.1.tick p.2).2, a.returned = true := fun a ha =>
        hreturned a (List.mem_flatMap.2 ⟨p, hp, ha⟩)
      cases tick_outcome p.1 p.2 hs with
      | passed _ _ _ reason =>
          obtain ⟨a, ha, hraised⟩ := reason henabled mark hmark hmissed
          exact absurd (hall a ha) (by simp [hraised])
      | seen _ _ _ new => exact absurd (hmark.symm.trans new) (by simp)
      | attempted a mark mem id_eq enabled mark_eq greatest moved seen_eq =>
          exact Or.inl ⟨a, mem, id_eq, hall a mem, moved⟩

/-! ## A report that is lost -/

def utc : Zone where
  offset _ := 0
  wallOffset _ := 0
  offset_bounds _ := by decide
  wallOffset_bounds _ := by decide
  first_reading _ := le_rfl
  jump l l' h := by
    rw [day_eq] at h
    omega

/-- Daily at nine. -/
def atNine : ReportSchedule where
  id := "a"
  enabled := true
  frequency := .daily
  hour := 9
  minute := 0
  frequency_valid := trivial
  hour_bounds := by decide
  minute_bounds := by decide

/-- A tick at midnight. -/
def midnight : Tick := ⟨0, [atNine], utc, fun _ => true, by decide⟩

/-- A tick at ten o'clock. -/
def ten (enqueued : Bool) : Tick := ⟨hours 10, [atNine], utc, fun _ => enqueued, by decide⟩

theorem latestDue_atNine : latestDue atNine utc (hours 10) (hours 9) = some (hours 9) := by
  rw [latestDue]
  split
  · rename_i h
    exact absurd h (by decide)
  · rename_i following h
    obtain rfl : hours 33 = following :=
      Option.some.inj ((by decide : some (hours 33) = dueTime atNine utc (hours 9)).trans h)
    rw [dif_neg (by decide)]

/-- The schedule is seen at midnight, and one report is attempted at ten. -/
theorem attempts_ten (enqueued : Bool) :
    attempts .start [midnight, ten enqueued] = [⟨"a", hours 9, enqueued⟩] := by
  have hdue : dueTime atNine utc 0 = some (hours 9) := by decide
  have hle : hours 9 ≤ hours 10 := by decide
  have hmark : (State.start.tick midnight).1.lastDue "a" = some 0 := rfl
  have hturn : ∀ w, turn (ten enqueued) (State.start.tick midnight).1.lastDue w atNine =
      .attempted (w.setLastDue "a" (hours 9)) ⟨"a", hours 9, enqueued⟩ := fun w =>
    turn_attempted rfl hmark hdue hle latestDue_atNine
  have hten : ((State.start.tick midnight).1.tick (ten enqueued)).2 = [⟨"a", hours 9, enqueued⟩] := by
    change (turns (ten enqueued) (State.start.tick midnight).1.lastDue _ [atNine]).2 = _
    rw [turns, hturn]
    cases enqueued <;> rfl
  calc attempts .start [midnight, ten enqueued]
      = (State.start.tick midnight).2 ++
          (((State.start.tick midnight).1.tick (ten enqueued)).2 ++ []) := rfl
    _ = [⟨"a", hours 9, enqueued⟩] := by rw [hten]; rfl

theorem ticks_right_iff_enqueued :
    (∀ s z after, ∃ t, dueTime s z after = some t ∧ IsLeast {x | IsRun s z x ∧ after < x} t) ∧
      (TicksRight [midnight, ten true] ↔
        ∀ a ∈ attempts .start [midnight, ten true], a.returned = true) :=
  ticks_right_iff [midnight, ten true] (by decide)

/-- The report of nine o'clock is enqueued at ten, and the enqueueing raises: it is not due again. -/
theorem not_ticksRight_lost : ¬TicksRight [midnight, ten false] := by
  intro hright
  have ha : (⟨"a", hours 9, false⟩ : Attempt) ∈ attempts .start [midnight, ten false] := by
    rw [attempts_ten]
    exact List.mem_singleton_self _
  exact absurd (hright.returned ha) (by decide)

end IllumioOps.ReportSchedules
