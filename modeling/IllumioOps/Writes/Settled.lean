import IllumioOps.Writes.Batch

/-!
# What an apply keeps at every step

Every row that an apply put on record carries the result of its target, except the one that is
pending; others may write their own rows at any time. `Discipline` is what one kind of apply adds:
what justifies an event, what its log satisfies between two targets, and which answers it can read.
The rules (`writes_get`, `writes_put`, …) are one for each step, and `writes_forEach` is the rule of
the loop.
-/

set_option autoImplicit false

namespace IllumioOps.PceWrites

open Programs Tables

/-! ## Rows that are settled -/

/-- The row of this number carries a result of its target. -/
def Carries (results : List Result) (s : State) (id : Nat) (row : ActionRow) : Prop :=
  ∃ r ∈ results, r.key = row.workloadHref ∧ ∃ kept, s.actions.find? id = some kept ∧
    kept.workloadHref = row.workloadHref ∧ kept.result = .ended r.status ∧ kept.detail = r.detail

/-- Every row put on record carries its target's result, except the one that is open; that one is
as it was put on record. -/
structure Settled (unsettled : Option (Nat × ActionRow)) (results : List Result) (s : State) :
    Prop where
  carried : ∀ id row, .recorded id row ∈ s.events →
    unsettled = some (id, row) ∨ Carries results s id row
  kept : ∀ id row, unsettled = some (id, row) →
    .recorded id row ∈ s.events ∧ s.actions.find? id = some row

theorem Carries.of_find? {results more : List Result} {s s' : State} {id : Nat} {row : ActionRow}
    (h : Carries results s id row)
    (hfind : ∀ kept, s.actions.find? id = some kept → s'.actions.find? id = some kept)
    (hresults : ∀ r ∈ results, r ∈ more) : Carries more s' id row := by
  obtain ⟨r, hr, hkey, kept, hkept, hrest⟩ := h
  exact ⟨r, hresults r hr, hkey, kept, hfind kept hkept, hrest⟩

section

variable {unsettled : Option (Nat × ActionRow)} {results : List Result} {s : State} {id : Nat}
  {row : ActionRow}

theorem mem_recordedIds : id ∈ s.recordedIds ↔ ∃ row, .recorded id row ∈ s.events := by
  unfold State.recordedIds
  rw [List.mem_filterMap]
  constructor
  · rintro ⟨e, he, hid⟩
    cases e <;> simp [Event.recordedId] at hid
    subst hid
    exact ⟨_, he⟩
  · rintro ⟨row, hrow⟩
    exact ⟨_, hrow, rfl⟩

/-- What happens to the table and to the log, as long as no row of the apply is put on record and
those that are stay as they are. -/
theorem Settled.of_same {s' : State} (h : Settled unsettled results s)
    (hevents : ∀ id row, .recorded id row ∈ s'.events ↔ .recorded id row ∈ s.events)
    (hfind : ∀ id row kept, .recorded id row ∈ s.events → s.actions.find? id = some kept →
      s'.actions.find? id = some kept) : Settled unsettled results s' where
  carried id row hmem := by
    rw [hevents] at hmem
    exact (h.carried id row hmem).imp_right fun hcarries =>
      hcarries.of_find? (fun kept => hfind id row kept hmem) fun _ hr => hr
  kept id row hopen := by
    obtain ⟨hmem, hkept⟩ := h.kept id row hopen
    exact ⟨(hevents id row).2 hmem, hfind id row row hmem hkept⟩

/-- Another apply does not touch the rows of this one. -/
theorem Settled.outside (h : Settled unsettled results s) (w : OtherWrite) :
    Settled unsettled results (s.outside w) := by
  cases w with
  | added other =>
      refine h.of_same (fun _ _ => Iff.rfl) ?_
      intro id row kept _ hkept
      exact Numbered.find?_add_of_some hkept other
  | finished changed result detail previous =>
      unfold State.outside
      dsimp only
      split
      · exact h
      · next hmine =>
        refine h.of_same (fun _ _ => Iff.rfl) ?_
        intro id row kept hmem hkept
        -- the row it finishes has another number
        have hne : id ≠ changed := fun heq => hmine (mem_recordedIds.2 ⟨row, heq ▸ hmem⟩)
        exact Numbered.find?_modify_of_ne hkept hne _

theorem State.events_outside (s : State) (w : OtherWrite) : (s.outside w).events = s.events := by
  cases w with
  | added _ => rfl
  | finished id _ _ _ =>
      unfold State.outside
      dsimp only
      split <;> rfl

theorem Settled.log (h : Settled unsettled results s) {e : Event} (he : e.recordedId = none) :
    Settled unsettled results (s.log e) := by
  refine h.of_same ?_ fun _ _ _ _ hkept => hkept
  intro id row
  constructor
  · intro hmem
    rcases List.mem_append.1 hmem with hmem | hmem
    · exact hmem
    · obtain rfl := List.mem_singleton.1 hmem
      exact absurd he (by simp [Event.recordedId])
  · exact List.mem_append_left _

/-- A row put on record is open. -/
theorem Settled.record (h : Settled none results s) (row : ActionRow) :
    Settled (some (s.actions.nextId, row)) results (s.record row) where
  carried id row' hmem := by
    rcases List.mem_append.1 hmem with hmem | hmem
    · rcases h.carried id row' hmem with hopen | hcarries
      · exact absurd hopen (by simp)
      · exact Or.inr (hcarries.of_find? (fun kept hkept => Numbered.find?_add_of_some hkept row)
          fun _ hr => hr)
    · left
      have heq := List.mem_singleton.1 hmem
      simp only [Event.recorded.injEq] at heq
      rw [heq.1, heq.2]
  kept id row' hopen := by
    simp only [Option.some.injEq, Prod.mk.injEq] at hopen
    obtain ⟨rfl, rfl⟩ := hopen
    exact ⟨List.mem_append_right _ List.mem_cons_self, Numbered.find?_add_nextId _ _⟩

/-- A row put on record with a result of its target. -/
theorem Settled.record_ended (h : Settled none results s) {r : Result}
    (hkey : r.key = row.workloadHref) (hresult : row.result = .ended r.status)
    (hdetail : row.detail = r.detail) :
    Settled none (results ++ [r]) (s.record row) where
  carried id row' hmem := by
    right
    rcases (h.record row).carried id row' hmem with hopen | hcarries
    · obtain ⟨rfl, rfl⟩ : s.actions.nextId = id ∧ row = row' := by simpa using hopen
      exact ⟨r, List.mem_append_right _ List.mem_cons_self, hkey, row,
        ((h.record row).kept _ _ rfl).2, rfl, hresult, hdetail⟩
    · exact hcarries.of_find? (fun _ hkept => hkept) fun _ hr => List.mem_append_left _ hr
  kept _ _ hopen := absurd hopen (by simp)

/-- The open row is given the result of its target. -/
theorem Settled.finish (h : Settled (some (id, row)) results s) {r : Result}
    (hkey : r.key = row.workloadHref) (previous : Option String) :
    Settled none (results ++ [r]) (s.finish id r.status r.detail previous) where
  carried id' row' hmem := by
    right
    have hmem : .recorded id' row' ∈ s.events := by
      rcases List.mem_append.1 hmem with hmem | hmem
      · exact hmem
      · exact absurd (List.mem_singleton.1 hmem) (by simp)
    rcases h.carried id' row' hmem with hopen | hcarries
    · obtain ⟨rfl, rfl⟩ : id = id' ∧ row = row' := by simpa using hopen
      exact ⟨r, List.mem_append_right _ List.mem_cons_self, hkey, _,
        Numbered.find?_modify_self (h.kept _ _ rfl).2 _, rfl, rfl, rfl⟩
    · by_cases hid : id' = id
      · -- one number, one row: the result goes to the row that was open
        subst hid
        obtain ⟨_, _, _, kept, hkept, hrow, _⟩ := hcarries
        obtain rfl : row = kept := by
          have hfound := (h.kept _ _ rfl).2
          rw [hkept] at hfound
          exact (Option.some.inj hfound).symm
        exact ⟨r, List.mem_append_right _ List.mem_cons_self, hkey.trans hrow, _,
          Numbered.find?_modify_self hkept _, hrow, rfl, rfl⟩
      · exact hcarries.of_find? (fun _ hkept => Numbered.find?_modify_of_ne hkept hid _)
          fun _ hr => List.mem_append_left _ hr
  kept _ _ hopen := absurd hopen (by simp)

end

/-! ## The judgement -/

/-- A write to the PCE. -/
def Event.isPut : Event → Bool
  | .put _ _ _ => true
  | _ => false

/-- An answer of the PCE that the apply reads. -/
def Event.isReading : Event → Bool
  | .got _ _ => true
  | .created _ => true
  | _ => false

/-- What a kind of apply keeps: the writes that are justified by what came before, what its log
satisfies where no target is being handled, and the answers it can read. -/
structure Discipline where
  Justified : List Event → Event → Prop
  Base : List Event → Prop
  Fine : Event → Prop
  justified_of_not_put : ∀ before e, e.isPut = false → Justified before e
  base_snoc : ∀ events e, Base events → Fine e → Base (events ++ [e])
  fine_of_not_reading : ∀ e, e.isReading = false → Fine e

variable {D : Discipline} {unsettled : Option (Nat × ActionRow)} {results : List Result}
  {recent : List Event} {α : Type}

/-- The log since the last target: what it was then, and these events. -/
def Since (D : Discipline) (recent events : List Event) : Prop :=
  ∃ earlier, events = earlier ++ recent ∧ D.Base earlier

theorem since_nil {events : List Event} (h : D.Base events) : Since D [] events :=
  ⟨events, (List.append_nil _).symm, h⟩

theorem Since.snoc {events : List Event} (h : Since D recent events) (e : Event) :
    Since D (recent ++ [e]) (events ++ [e]) := by
  obtain ⟨earlier, rfl, hbase⟩ := h
  exact ⟨earlier, List.append_assoc _ _ _, hbase⟩

/-- Events that the apply can read leave the log as it has to be. -/
theorem Since.base {events : List Event} (h : Since D recent events)
    (hfine : ∀ e ∈ recent, D.Fine e) : D.Base events := by
  obtain ⟨earlier, rfl, hbase⟩ := h
  induction recent generalizing earlier with
  | nil => rwa [List.append_nil]
  | cons e recent ih =>
      have hmore := ih (fun e' he' => hfine e' (List.mem_cons_of_mem e he')) (earlier ++ [e])
        (D.base_snoc _ _ hbase (hfine e List.mem_cons_self))
      rwa [List.append_assoc] at hmore

/-- The same of what came before the last event. -/
theorem Since.base_before {e : Event} {events : List Event} (h : Since D (recent ++ [e]) events)
    (hfine : ∀ e ∈ recent, D.Fine e) : ∃ before, events = before ++ [e] ∧ D.Base before := by
  obtain ⟨earlier, rfl, hbase⟩ := h
  have hsince : Since D recent (earlier ++ recent) := ⟨earlier, rfl, hbase⟩
  exact ⟨earlier ++ recent, (List.append_assoc _ _ _).symm, hsince.base hfine⟩

/-- Where an apply is: its writes are justified, its rows settled but for the open one, and its
log is `L`. -/
structure Held (D : Discipline) (unsettled : Option (Nat × ActionRow)) (results : List Result)
    (L : List Event → Prop) (s : State) : Prop where
  inOrder : InOrder D.Justified s.events
  settled : Settled unsettled results s
  log : L s.events

variable {L : List Event → Prop}

theorem Held.outside {s : State} (h : Held D unsettled results L s) (others : List OtherWrite) :
    Held D unsettled results L (others.foldl State.outside s) := by
  induction others generalizing s with
  | nil => exact h
  | cons w others ih =>
      apply ih
      have hevents := s.events_outside w
      exact ⟨hevents ▸ h.inOrder, h.settled.outside w, hevents ▸ h.log⟩

/-- Whatever the answers, every step leaves the writes justified. -/
abbrev Writes (D : Discipline) (P : State → Prop) (m : Step α) (Q : α → State → Prop) : Prop :=
  Program.Safe (fun _ => True) (fun _ w => InOrder D.Justified w.events) P m Q

theorem writes_step {f : State → Answer → State × α} {Q : α → State → Prop}
    (h : ∀ s a, Held D unsettled results L s →
      InOrder D.Justified (f s a).1.events ∧ Q (f s a).2 (f s a).1) :
    Writes D (Held D unsettled results L) (step f) Q :=
  Program.safe_act fun _ a _ hs => h _ a (hs.outside a.others)

/-- A step that only adds to the log. -/
theorem writes_log {e : Answer → Event} {g : Answer → α}
    (he : ∀ a, (e a).recordedId = none)
    (hjustified : ∀ events a, Since D recent events → D.Justified events (e a)) :
    Writes D (Held D unsettled results (Since D recent)) (step fun s a => (s.log (e a), g a))
      fun r s => ∃ a, r = g a ∧ Held D unsettled results (Since D (recent ++ [e a])) s := by
  apply writes_step
  intro s a hs
  have hsnoc := hs.inOrder.snoc (hjustified _ a hs.log)
  exact ⟨hsnoc, a, rfl, hsnoc, hs.settled.log (he a), hs.log.snoc _⟩

theorem writes_readIdent :
    Writes D (Held D unsettled results (Since D recent)) readIdent
      fun ident => Held D unsettled results (Since D (recent ++ [.identRead ident])) := by
  refine Program.safe_weaken (writes_log (fun _ => rfl) fun events a _ =>
    D.justified_of_not_put events _ rfl) (fun _ h => h) ?_
  rintro _ s ⟨a, rfl, hs⟩
  exact hs

theorem writes_get (key : String) :
    Writes D (Held D unsettled results (Since D recent)) (get key)
      fun reply => Held D unsettled results (Since D (recent ++ [.got key reply])) := by
  refine Program.safe_weaken (writes_log (fun _ => rfl) fun events a _ =>
    D.justified_of_not_put events _ rfl) (fun _ h => h) ?_
  rintro _ s ⟨a, rfl, hs⟩
  exact hs

/-- A write has to be justified by the log before it. -/
theorem writes_put {key : String} {body : Json}
    (h : ∀ events reply, Since D recent events → D.Justified events (.put key body reply)) :
    Writes D (Held D unsettled results (Since D recent)) (put key body)
      fun reply => Held D unsettled results (Since D (recent ++ [.put key body reply])) := by
  refine Program.safe_weaken (writes_log (fun _ => rfl) fun events a hs =>
    h events a.reply hs) (fun _ h => h) ?_
  rintro _ s ⟨a, rfl, hs⟩
  exact hs

theorem writes_record (row : ActionRow) :
    Writes D (Held D none results (Since D recent)) (record row)
      fun id => Held D (some (id, row)) results (Since D (recent ++ [.recorded id row])) := by
  apply writes_step
  intro s a hs
  have hsnoc := hs.inOrder.snoc (D.justified_of_not_put _ (.recorded s.actions.nextId row) rfl)
  exact ⟨hsnoc, hsnoc, hs.settled.record row, hs.log.snoc _⟩

/-! ## Results -/

/-- A target has its result: one more, under its key, with everything settled. -/
def HasResult (D : Discipline) (results : List Result) (key : String) (r : Result)
    (s : State) : Prop :=
  r.key = key ∧ Held D none (results ++ [r]) D.Base s

section

variable {t : Target} {status : Status} {detail previous update : Option String}
  {original : List Json}

theorem writes_done_new (hfine : ∀ e ∈ recent, D.Fine e) :
    Writes D (Held D none results (Since D recent))
      (done t status detail previous original update none) (HasResult D results t.key) := by
  unfold done
  refine Program.safe_bind (Q := fun _ s => Held D none
    (results ++ [⟨t.key, t.name, status, detail, previous⟩]) D.Base s) ?_ fun _ =>
    Program.safe_pure fun s hs => ⟨rfl, hs⟩
  apply writes_step
  intro s a hs
  have hsnoc := hs.inOrder.snoc (D.justified_of_not_put _
    (.recorded s.actions.nextId ⟨t.key, t.name, previous, original, .ended status, detail⟩) rfl)
  refine ⟨hsnoc, hsnoc, hs.settled.record_ended rfl rfl rfl, (hs.log.snoc _).base ?_⟩
  intro e he
  rcases List.mem_append.1 he with he | he
  · exact hfine e he
  · exact List.mem_singleton.1 he ▸ D.fine_of_not_reading _ rfl

theorem writes_done_open {id : Nat} {row : ActionRow} (hrow : row.workloadHref = t.key)
    (hfine : ∀ e ∈ recent, D.Fine e) :
    Writes D (Held D (some (id, row)) results (Since D recent))
      (done t status detail previous original update (some id)) (HasResult D results t.key) := by
  unfold done
  refine Program.safe_bind (Q := fun _ s => Held D none
    (results ++ [⟨t.key, t.name, status, detail, previous⟩]) D.Base s) ?_ fun _ =>
    Program.safe_pure fun s hs => ⟨rfl, hs⟩
  apply writes_step
  intro s a hs
  have hsnoc := hs.inOrder.snoc (D.justified_of_not_put _ (.finished id status) rfl)
  have hsettled := hs.settled.finish (r := ⟨t.key, t.name, status, detail, previous⟩)
    hrow.symm update
  refine ⟨hsnoc, hsnoc, hsettled, (hs.log.snoc _).base ?_⟩
  intro e he
  rcases List.mem_append.1 he with he | he
  · exact hfine e he
  · exact List.mem_singleton.1 he ▸ D.fine_of_not_reading _ rfl

end

/-- The log ends with an answer that cannot be read. -/
def Spoiled (D : Discipline) (events : List Event) : Prop :=
  ∃ before key reply, events = before ++ [.got key reply] ∧ D.Base before ∧
    ¬ D.Fine (.got key reply)

/-- How the handling of a target ends: with its result, or with an answer that cannot be read. -/
def Handled (D : Discipline) (results : List Result) (key : String) :
    Except Raised Result → State → Prop
  | .ok r, s => HasResult D results key r s
  | .error _, s => InOrder D.Justified s.events ∧ Spoiled D s.events

theorem writes_returning {P : State → Prop} {key : String} {m : Step Result}
    (h : Writes D P m (HasResult D results key)) :
    Writes D P (returning m) (Handled D results key) :=
  Program.safe_bind h fun _ => Program.safe_pure fun _ hs => hs

/-- How the loop ends: with one result for each target, or with an answer that cannot be read. -/
def AllHandled (D : Discipline) (results : List Result) (keys : List String) :
    Except Raised (List Result) → State → Prop
  | .ok more, s => more.map Result.key = keys ∧ Held D none (results ++ more) D.Base s
  | .error _, s => InOrder D.Justified s.events ∧ Spoiled D s.events

/-- The rule of the loop. -/
theorem writes_forEach {τ : Type} {handle : τ → Step (Except Raised Result)} {targets : List τ}
    (key : τ → String)
    (hhandle : ∀ t ∈ targets, ∀ results,
      Writes D (Held D none results D.Base) (handle t) (Handled D results (key t)))
    (results : List Result) :
    Writes D (Held D none results D.Base) (forEach handle targets)
      (AllHandled D results (targets.map key)) := by
  induction targets generalizing results with
  | nil =>
      apply Program.safe_pure
      intro s hs
      exact ⟨rfl, by rwa [List.append_nil]⟩
  | cons t targets ih =>
      unfold forEach
      refine Program.safe_bind (hhandle t List.mem_cons_self results) ?_
      intro first
      cases first with
      | error e => exact Program.safe_pure fun s hs => hs
      | ok r =>
          refine Program.safe_fact (c := r.key = key t) (fun s hs => hs.1) fun hkey => ?_
          -- the rest of the targets starts from the results so far
          have hrest := ih (fun t' ht' => hhandle t' (List.mem_cons_of_mem t ht'))
            (results ++ [r])
          refine Program.safe_bind (Program.safe_weaken hrest (fun s hs => hs.2)
            fun _ _ h => h) ?_
          intro outcome
          cases outcome with
          | error e => exact Program.safe_pure fun s hs => hs
          | ok more =>
              apply Program.safe_pure
              rintro s ⟨hkeys, hs⟩
              refine ⟨?_, by rwa [List.append_cons]⟩
              rw [List.map_cons, List.map_cons, hkey, hkeys]

/-! ## How an apply ends -/

/-- What an apply answers for: its writes were justified, it returned exactly one result for each
target, in their order, and every row it put on record carries its target's result. -/
structure Accounted {ο : Type} (Justified : List Event → Event → Prop)
    (resultsOf : ο → List Result) (keys : List String) (outcome : Except Raised ο) (s : State) :
    Prop where
  inOrder : InOrder Justified s.events
  distinct : keys.Nodup
  one_each : ∃ o, outcome = .ok o ∧ (resultsOf o).map Result.key = keys ∧
    Settled none (resultsOf o) s

/-- Every way an apply ends: accounted for when `Can` holds of its log, by an exception when it
does not. -/
def EndsAs {ο : Type} (Justified : List Event → Event → Prop) (resultsOf : ο → List Result)
    (keys : List String) (Can : List Event → Prop) : Except Raised ο → State → Prop
  | .ok o, s => InOrder Justified s.events ∧ Can s.events ∧
      (resultsOf o).map Result.key = keys ∧ Settled none (resultsOf o) s
  | .error _, s => InOrder Justified s.events ∧ ¬ Can s.events

theorem EndsAs.accounted_iff {ο : Type} {Justified : List Event → Event → Prop}
    {resultsOf : ο → List Result} {keys : List String} {Can : List Event → Prop}
    {outcome : Except Raised ο} {s : State} (hkeys : keys.Nodup)
    (h : EndsAs Justified resultsOf keys Can outcome s) :
    Accounted Justified resultsOf keys outcome s ↔ Can s.events := by
  constructor
  · rintro ⟨-, -, o, rfl, -⟩
    exact h.2.1
  · intro hcan
    cases outcome with
    | ok o => exact ⟨h.1, hkeys, o, rfl, h.2.2⟩
    | error e => exact absurd hcan h.2

/-- Nothing is put on record yet. -/
theorem settled_nil {s : State} (h : s.events = []) : Settled none [] s where
  carried id row hmem := absurd (h ▸ hmem) List.not_mem_nil
  kept _ _ hopen := absurd hopen (by simp)

theorem State.events_outsides (s : State) (others : List OtherWrite) :
    (others.foldl State.outside s).events = s.events := by
  induction others generalizing s with
  | nil => rfl
  | cons w others ih => exact (ih (s.outside w)).trans (s.events_outside w)

/-! ## Steps until the end -/

theorem endsBy_step (f : State → Answer → State × α) : Program.EndsBy 1 (step f) :=
  Program.endsBy_act _

theorem endsBy_done (t : Target) (status : Status) (detail previous : Option String)
    (original : List Json) (update : Option String) (row : Option Nat) :
    Program.EndsBy 1 (done t status detail previous original update row) := by
  cases row with
  | none => exact (endsBy_step _).bind fun _ => Program.endsBy_pure _
  | some id => exact (endsBy_step _).bind fun _ => Program.endsBy_pure _

theorem endsBy_returning {n : Nat} {m : Step Result} (h : Program.EndsBy n m) :
    Program.EndsBy n (returning m) := h.bind fun _ => Program.endsBy_pure _

/-- The loop ends within as many steps for each target as its handling takes. -/
theorem endsBy_forEach {τ : Type} {handle : τ → Step (Except Raised Result)} {n : Nat}
    (h : ∀ t, Program.EndsBy n (handle t)) (targets : List τ) :
    Program.EndsBy (targets.length * n) (forEach handle targets) := by
  induction targets with
  | nil => exact (Program.endsBy_pure _).mono (Nat.zero_le _)
  | cons t targets ih =>
      have hlength : (t :: targets).length * n = n + targets.length * n := by
        rw [List.length_cons, Nat.succ_mul, Nat.add_comm]
      rw [hlength]
      refine (h t).bind fun first => ?_
      cases first with
      | error e => exact (Program.endsBy_pure _).mono (Nat.zero_le _)
      | ok r =>
          refine ih.bind (k := 0) fun rest => ?_
          cases rest with
          | error e => exact Program.endsBy_pure _
          | ok more => exact Program.endsBy_pure _

end IllumioOps.PceWrites
