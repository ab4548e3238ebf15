import IllumioOps.Settings.Store

/-!
# A failed write of the settings

`_write` step by step, with the temporary file it fills. The digest of the new bytes is noted
before the temporary file is made, so a write that raises later leaves the digest of bytes that
were never written: the next update takes the store's own file for an edit by hand, and an edit by
hand that has these bytes for its own. A failed write is harmless exactly when it raises while the
settings are serialised, or the file holds the bytes already (`failedWrite_harmless_iff`).
-/

set_option autoImplicit false

namespace IllumioOps.SettingsStore

/-- Where `_write` raises: while the settings are serialised, the temporary file is made, its bytes
are written, synced and its mode is set, or the file is replaced. -/
inductive Step where
  | serialise
  | create
  | fill
  | replace
  deriving DecidableEq, Repr

/-- The store with its file, and the names of the temporary files beside it. -/
structure Directory (ρ β δ κ : Type) extends State ρ β δ κ where
  temporary : List String

section Operations

variable {ρ β δ κ : Type} (f : Format ρ β δ)

/-- `_write`: `tmp` is the name that `mkstemp` finds, and `raises` the step that raises. Without
`replace` a file that is there is not replaced. -/
def Directory.write (d : Directory ρ β δ κ) (s : Settings β) (replace : Bool) (tmp : String)
    (raises : Option Step) : Directory ρ β δ κ × Except Failure Unit :=
  if raises = some .serialise then (d, .error .notWritten)
  else
    let d := { d with diskDigest := some (f.digest (f.render s)) }
    if raises = some .create then (d, .error .notWritten)
    else
      let d := { d with temporary := tmp :: d.temporary }
      -- what raises from here on is caught, and the temporary file removed
      if raises.isSome || (!replace && d.file.isSome) then
        ({ d with temporary := d.temporary.erase tmp }, .error .notWritten)
      else
        ({ d with file := some (f.render s), temporary := d.temporary.erase tmp }, .ok ())

/-- `create`: the first settings file, from settings made elsewhere. -/
def Directory.create (d : Directory ρ β δ κ) (s : Settings β) (tmp : String)
    (raises : Option Step) : Directory ρ β δ κ × Except Failure (Settings β) :=
  match d.write f s false tmp raises with
  | (d, .error e) => (d, .error e)
  | (d, .ok ()) => ({ d with current := some s }, .ok s)

/-- The settings that an update of the current ones would write. -/
def State.candidate (w : State ρ β δ κ) (mutate : β → Option β) : Option (Settings β) :=
  w.current.bind fun cur => (mutate cur.body).map fun body => ⟨cur.revision + 1, body⟩

variable [DecidableEq δ]

/-- `update`, with the steps of its writing. -/
def Directory.update (d : Directory ρ β δ κ) (expected : Nat) (mutate : β → Option β)
    (tmp : String) (raises : Option Step) : Directory ρ β δ κ × Except Failure (Settings β) :=
  match d.toState.adoptOutsideEdit f with
  | (w, .error e) => ({ d with toState := w }, .error e)
  | (w, .ok ()) =>
      let d := { d with toState := w }
      match d.current with
      | none => (d, .error .notLoaded)
      | some cur =>
          if cur.revision ≠ expected then (d, .error (.conflict expected cur.revision))
          else match mutate cur.body with
            | none => (d, .error .refused)
            | some body =>
                match d.write f ⟨cur.revision + 1, body⟩ true tmp raises with
                | (d, .error e) => (d, .error e)
                | (d, .ok ()) =>
                    ({ d with current := some ⟨cur.revision + 1, body⟩ },
                      .ok ⟨cur.revision + 1, body⟩)

variable {f} {d : Directory ρ β δ κ} {w : State ρ β δ κ} {expected : Nat}
  {mutate : β → Option β} {tmp : String} {step : Step} {raises : Option Step} {raw : ρ}
  {s cur : Settings β} {body : β}

/-! ## What a write can do -/

omit [DecidableEq δ] in
/-- A write that goes through. -/
theorem write_none : d.write f s true tmp none =
    ({ d with file := some (f.render s), diskDigest := some (f.digest (f.render s)) }, .ok ()) := by
  simp only [Directory.write, reduceCtorEq, if_false, Option.isSome_none, Bool.not_true,
    Bool.false_and, Bool.or_self, Bool.false_eq_true, List.erase_cons_head]

omit [DecidableEq δ] in
/-- A write that raises while it serialises does nothing. -/
theorem write_serialise {replace : Bool} :
    d.write f s replace tmp (some .serialise) = (d, .error .notWritten) :=
  if_pos rfl

omit [DecidableEq δ] in
/-- A write that raises later has noted the digest of what it did not write. -/
theorem write_some {replace : Bool} (hstep : step ≠ .serialise) :
    d.write f s replace tmp (some step) =
      ({ d with diskDigest := some (f.digest (f.render s)) }, .error .notWritten) := by
  cases step with
  | serialise => exact absurd rfl hstep
  | create => rfl
  | fill => simp [Directory.write]
  | replace => simp [Directory.write]

/-! ## What an update does -/

/-- The file is the one last read or written. -/
theorem adoptOutsideEdit_noted (hfile : w.file = some raw)
    (hnoted : w.diskDigest = some (f.digest raw)) : w.adoptOutsideEdit f = (w, .ok ()) := by
  rw [State.adoptOutsideEdit, hfile, hnoted]
  exact if_pos rfl

/-- Where there is no edit by hand to adopt, the store is as it was. -/
theorem adoptOutsideEdit_unchanged {w' : State ρ β δ κ}
    (hok : w.adoptOutsideEdit f = (w', .ok ())) : w' = w := by
  rw [State.adoptOutsideEdit.eq_def] at hok
  split at hok
  · simp at hok
  · exact (Prod.mk.inj hok).1.symm
  · split at hok
    · exact (Prod.mk.inj hok).1.symm
    · split at hok <;> simp at hok

/-- A file with other bytes than those noted is taken for an edit by hand. -/
theorem adoptOutsideEdit_ok {noted : δ} {w' : State ρ β δ κ} (hnoted : w.diskDigest = some noted)
    (hok : w.adoptOutsideEdit f = (w', .ok ())) :
    w' = w ∧ ∃ raw, w.file = some raw ∧ f.digest raw = noted := by
  rcases adoptOutsideEdit_cases (f := f) w (Option.isSome_iff_exists.2 ⟨noted, hnoted⟩) with
    ⟨raw, hfile, hdigest, heq⟩ | ⟨e, heq⟩ | ⟨raw, disk, e, hfile, hparse, heq⟩
  · rw [heq] at hok
    exact ⟨(Prod.mk.inj hok).1.symm, raw, hfile, Option.some.inj (hdigest.symm.trans hnoted)⟩
  · rw [heq] at hok
    exact absurd (Prod.mk.inj hok).2 (by simp)
  · rw [heq] at hok
    exact absurd (Prod.mk.inj hok).2 (by simp)

/-- The adoption of an edit raises nothing that a write raises. -/
theorem adoptOutsideEdit_ne_notWritten {w' : State ρ β δ κ} :
    w.adoptOutsideEdit f ≠ (w', .error .notWritten) := by
  intro h
  rw [State.adoptOutsideEdit.eq_def] at h
  split at h
  · simp at h
  · simp at h
  · split at h
    · simp at h
    · split at h <;> simp at h

/-- An update of the settings as they were last read or written comes to its write. -/
theorem update_noted (hfile : d.file = some raw) (hnoted : d.diskDigest = some (f.digest raw))
    (hcurrent : d.current = some cur) (hmutate : mutate cur.body = some body) :
    d.update f cur.revision mutate tmp raises =
      match d.write f ⟨cur.revision + 1, body⟩ true tmp raises with
      | (d, .error e) => (d, .error e)
      | (d, .ok ()) =>
          ({ d with current := some ⟨cur.revision + 1, body⟩ }, .ok ⟨cur.revision + 1, body⟩) := by
  rw [Directory.update, adoptOutsideEdit_noted hfile hnoted]
  simp only [hcurrent, ne_eq, not_true_eq_false, if_false, hmutate]

/-- An update that comes to its write, or ends with a value, has passed the check for edits by
hand. -/
theorem update_passed (hpassed : (d.update f expected mutate tmp raises).2 = .error .notWritten ∨
      ∃ s, (d.update f expected mutate tmp raises).2 = .ok s) :
    ∃ w cur body, d.toState.adoptOutsideEdit f = (w, .ok ()) ∧ w.current = some cur ∧
      cur.revision = expected ∧ mutate cur.body = some body := by
  rw [Directory.update] at hpassed
  split at hpassed
  · rename_i w e hadopt
    rcases hpassed with h | ⟨s, h⟩
    · obtain rfl := Except.error.inj h
      exact absurd hadopt adoptOutsideEdit_ne_notWritten
    · exact absurd h (by simp)
  · rename_i w hadopt
    simp only at hpassed
    split at hpassed
    · rcases hpassed with h | ⟨s, h⟩ <;> exact absurd h (by simp)
    · rename_i cur hcurrent
      split at hpassed
      · rcases hpassed with h | ⟨s, h⟩ <;> exact absurd h (by simp)
      · rename_i hrevision
        split at hpassed
        · rcases hpassed with h | ⟨s, h⟩ <;> exact absurd h (by simp)
        · rename_i body hmutate
          exact ⟨w, cur, body, hadopt, hcurrent, not_not.1 hrevision, hmutate⟩

/-- The same update as in the model without steps, unless it raises while it serialises. -/
theorem update_toState (hraises : raises ≠ some .serialise) :
    (d.update f expected mutate tmp raises).1.toState =
        (d.toState.update f expected mutate raises.isNone).1 ∧
      (d.update f expected mutate tmp raises).2 =
        (d.toState.update f expected mutate raises.isNone).2 := by
  rw [Directory.update, State.update]
  cases d.toState.adoptOutsideEdit f with
  | mk w result =>
    cases result with
    | error e => exact ⟨rfl, rfl⟩
    | ok _ =>
        cases hcurrent : w.current with
        | none => simp only [hcurrent, and_self]
        | some cur =>
            simp only [hcurrent]
            by_cases hrevision : cur.revision ≠ expected
            · rw [if_pos hrevision, if_pos hrevision]
              exact ⟨rfl, rfl⟩
            · rw [if_neg hrevision, if_neg hrevision]
              cases mutate cur.body with
              | none => exact ⟨rfl, rfl⟩
              | some body =>
                  cases raises with
                  | none =>
                      simp only [write_none]
                      exact ⟨rfl, rfl⟩
                  | some step =>
                      simp only [write_some fun h => hraises (congrArg some h)]
                      exact ⟨rfl, rfl⟩

end Operations

/-! ## Harmless failures -/

section Harmless

variable {ρ β δ κ : Type} (f : Format ρ β δ) [DecidableEq δ]

/-- What a failed write must leave: the settings, the file and the temporary files are what they
were; the next update of the current settings succeeds; the store's own file is not taken for an
edit by hand, and no other file for the store's own. -/
structure Harmless (d d' : Directory ρ β δ κ) : Prop where
  current : d'.current = d.current
  file : d'.file = d.file
  temporary : d'.temporary = d.temporary
  follows : ∀ cur mutate body tmp, d.current = some cur → mutate cur.body = some body →
    (d'.update f cur.revision mutate tmp none).2 = .ok ⟨cur.revision + 1, body⟩
  own : d'.toState.adoptOutsideEdit f = (d'.toState, .ok ())
  edited : ∀ file, file ≠ d.file → ∀ expected mutate tmp s,
    ({ d' with file := file }.update f expected mutate tmp none).2 ≠ .ok s

variable {f} {d : Directory ρ β δ κ} {w : State ρ β δ κ} {expected : Nat}
  {mutate : β → Option β} {tmp : String} {step : Step} {raw : ρ} {cur : Settings β} {body : β}

/-- A store whose file is the one last read or written. -/
theorem harmless_self (hfile : d.file = some raw) (hnoted : d.diskDigest = some (f.digest raw)) :
    Harmless f d d where
  current := rfl
  file := rfl
  temporary := rfl
  follows cur mutate body tmp hcurrent hmutate := by
    rw [update_noted hfile hnoted hcurrent hmutate, write_none]
  own := adoptOutsideEdit_noted hfile hnoted
  edited file hedited expected mutate tmp s hok := by
    obtain ⟨w, cur, body, hadopt, -⟩ := update_passed (Or.inr ⟨s, hok⟩)
    obtain ⟨-, raw', hraw', hdigest⟩ :=
      adoptOutsideEdit_ok (w := { d.toState with file := file }) hnoted hadopt
    -- bytes with the digest that is noted are the bytes it was noted of
    obtain rfl : raw' = raw := f.digest_injective hdigest
    exact hedited (hraw'.trans hfile.symm)

/-- An update whose writing raises: its state before the write, and what the write leaves. -/
theorem update_raised (hnoted : d.diskDigest.isSome)
    (hraised : (d.update f expected mutate tmp (some step)).2 = .error .notWritten) :
    ∃ raw cur body, d.file = some raw ∧ d.diskDigest = some (f.digest raw) ∧
      d.current = some cur ∧ mutate cur.body = some body ∧
      (d.update f expected mutate tmp (some step)).1 =
        (d.write f ⟨cur.revision + 1, body⟩ true tmp (some step)).1 := by
  obtain ⟨noted, hnoted⟩ := Option.isSome_iff_exists.1 hnoted
  obtain ⟨w, cur, body, hadopt, hcurrent, rfl, hmutate⟩ := update_passed (Or.inl hraised)
  obtain ⟨rfl, raw, hfile, rfl⟩ := adoptOutsideEdit_ok hnoted hadopt
  refine ⟨raw, cur, body, hfile, hnoted, hcurrent, hmutate, ?_⟩
  rw [update_noted hfile hnoted hcurrent hmutate]
  by_cases hstep : step = .serialise
  · rw [hstep, write_serialise]
  · rw [write_some hstep]

/-- One failed write: harmless when it raises while it serialises, or when the file has the bytes
that were to be written. -/
theorem update_harmless_iff (hnoted : d.diskDigest.isSome)
    (hraised : (d.update f expected mutate tmp (some step)).2 = .error .notWritten) :
    Harmless f d (d.update f expected mutate tmp (some step)).1 ↔
      step = .serialise ∨ d.file = (d.candidate mutate).map f.render := by
  obtain ⟨raw, cur, body, hfile, hdigest, hcurrent, hmutate, hleft⟩ := update_raised hnoted hraised
  have hcandidate : (d.candidate mutate).map f.render =
      some (f.render ⟨cur.revision + 1, body⟩) := by
    rw [State.candidate, hcurrent, Option.bind_some, hmutate]
    rfl
  rw [hleft, hcandidate]
  by_cases hstep : step = .serialise
  · rw [hstep, write_serialise]
    exact ⟨fun _ => Or.inl rfl, fun _ => harmless_self hfile hdigest⟩
  · rw [write_some hstep]
    constructor
    · -- the digest noted would be that of the store's own file
      intro hharmless
      obtain ⟨-, raw', hraw', hsame⟩ := adoptOutsideEdit_ok rfl hharmless.own
      exact Or.inr (hraw'.trans (congrArg some (f.digest_injective hsame)))
    · intro h
      have hsame := h.resolve_left hstep
      have hbytes : raw = f.render ⟨cur.revision + 1, body⟩ := Option.some.inj (hfile.symm.trans hsame)
      rw [← hbytes, ← hdigest]
      exact harmless_self hfile hdigest

end Harmless

/-! ## Runs -/

/-- What happens to the file and its store: someone edits or removes the file by hand, the store
loads it or creates it, or an update is made; `raises` is the step of its writing that raises. -/
inductive Act (ρ β : Type) where
  | edit (file : Option ρ)
  | load
  | create (s : Settings β) (tmp : String) (raises : Option Step)
  | update (expected : Nat) (mutate : β → Option β) (tmp : String) (raises : Option Step)

section Runs

variable {ρ β δ κ : Type} (f : Format ρ β δ) [DecidableEq δ]

/-- A store that has read nothing yet. -/
def Directory.unread (file : Option ρ) (temporary : List String) : Directory ρ β δ κ where
  file := file
  current := none
  diskDigest := none
  seen _ := []
  temporary := temporary

/-- One act. -/
def Directory.act (d : Directory ρ β δ κ) : Act ρ β → Directory ρ β δ κ
  | .edit file => { d with file := file }
  | .load => { d with toState := d.toState.load f }
  | .create s tmp raises => (d.create f s tmp raises).1
  | .update expected mutate tmp raises => (d.update f expected mutate tmp raises).1

variable {f} {d : Directory ρ β δ κ} {s : Settings β} {expected : Nat} {mutate : β → Option β}
  {tmp : String} {raises : Option Step} {replace : Bool}

/-- A digest is noted whenever there are current settings. -/
def Directory.Noted (d : Directory ρ β δ κ) : Prop := d.current.isSome → d.diskDigest.isSome

omit [DecidableEq δ] in
/-- A write leaves a digest noted. -/
theorem write_noted (hnoted : d.diskDigest.isSome) :
    (d.write f s replace tmp raises).1.diskDigest.isSome := by
  rw [Directory.write]
  split
  · exact hnoted
  · simp only
    split
    · rfl
    · split <;> rfl

/-- An update leaves a digest noted. -/
theorem update_noted_of_noted (hnoted : d.diskDigest.isSome) :
    (d.update f expected mutate tmp raises).1.diskDigest.isSome := by
  have hadopted : (d.toState.adoptOutsideEdit f).1.diskDigest.isSome := by
    rcases adoptOutsideEdit_cases (f := f) d.toState hnoted with
      ⟨raw, -, -, heq⟩ | ⟨e, heq⟩ | ⟨raw, disk, e, -, -, heq⟩
    · rw [heq]
      exact hnoted
    · rw [heq]
      exact hnoted
    · rw [heq]
      rfl
  rw [Directory.update]
  split
  · rename_i w e hadopt
    rwa [hadopt] at hadopted
  · rename_i w hadopt
    rw [hadopt] at hadopted
    simp only
    split
    · exact hadopted
    · rename_i cur hcurrent
      split
      · exact hadopted
      · split
        · exact hadopted
        · rename_i body hmutate
          have hwrite : (Directory.write f { d with toState := w } ⟨cur.revision + 1, body⟩ true
            tmp raises).1.diskDigest.isSome := write_noted hadopted
          split
          · rename_i d' e heq
            rwa [heq] at hwrite
          · rename_i d' heq
            rwa [heq] at hwrite

/-- An update of a store that has loaded nothing does nothing. -/
theorem update_unloaded (hcurrent : d.current = none) (hnoted : d.diskDigest = none) :
    (d.update f expected mutate tmp raises).1 = d := by
  rw [Directory.update, State.adoptOutsideEdit, hnoted]
  cases hfile : d.file with
  | none => rfl
  | some raw =>
      simp only [hcurrent]

/-- What one act preserves. -/
theorem Directory.Noted.act (h : d.Noted) (a : Act ρ β) : (d.act f a).Noted := by
  cases a with
  | edit file => exact h
  | load =>
      rw [Directory.act, State.load]
      split
      · exact h
      · split
        · exact h
        · exact fun _ => rfl
  | create s tmp raises =>
      rw [Directory.act, Directory.create]
      by_cases hraises : raises = some .serialise
      · rw [hraises, write_serialise]
        exact h
      · have hwrite : (d.write f s false tmp raises).1.diskDigest.isSome := by
          rw [Directory.write, if_neg hraises]
          simp only
          split
          · rfl
          · split <;> rfl
        intro _
        split
        · rename_i d' e heq
          rwa [heq] at hwrite
        · rename_i d' heq
          rwa [heq] at hwrite
  | update expected mutate tmp raises =>
      rw [Directory.act]
      cases hnoted : d.diskDigest with
      | some noted => exact fun _ => update_noted_of_noted (by rw [hnoted]; rfl)
      | none =>
          have hcurrent : d.current = none := by
            by_contra hcurrent
            have := h (Option.isSome_iff_ne_none.2 hcurrent)
            rw [hnoted] at this
            exact absurd this (by simp)
          rw [update_unloaded hcurrent hnoted]
          exact h

/-- What a run preserves. -/
theorem Directory.Noted.run (h : d.Noted) (acts : List (Act ρ β)) :
    (acts.foldl (Directory.act f) d).Noted := by
  induction acts generalizing d with
  | nil => exact h
  | cons a acts ih => exact ih (h.act a)

end Runs

/-- In every state of every store, after any edits by hand, loads, creations and updates whose
writes fail or go through: an update whose writing raises is harmless if and only if it raises while
the settings are serialised, or the file has already the bytes that were to be written. -/
theorem failedWrite_harmless_iff {ρ β δ κ : Type} [DecidableEq δ] (f : Format ρ β δ)
    (file : Option ρ) (temporary : List String) (acts : List (Act ρ β)) (expected : Nat)
    (mutate : β → Option β) (tmp : String) (step : Step) (d : Directory ρ β δ κ)
    (hd : d = acts.foldl (Directory.act f) (.unread file temporary))
    (hraised : (d.update f expected mutate tmp (some step)).2 = .error .notWritten) :
    Harmless f d (d.update f expected mutate tmp (some step)).1 ↔
      step = .serialise ∨ d.file = (d.candidate mutate).map f.render := by
  have hnoted : d.Noted := by
    rw [hd]
    exact Directory.Noted.run (fun h => absurd h (by simp [Directory.unread])) acts
  refine update_harmless_iff (hnoted ?_) hraised
  -- a write raises only where there are current settings
  obtain ⟨w, cur, body, hadopt, hcurrent, -⟩ := update_passed (Or.inl hraised)
  obtain rfl := adoptOutsideEdit_unchanged hadopt
  rw [hcurrent]
  rfl

/-! ## A full disk -/

/-- A store that has loaded the seventh revision. -/
def loaded : Directory (Settings String) String (Settings String) Unit :=
  [Act.load].foldl (Directory.act plain) (.unread (some ⟨7, "loaded"⟩) [])

/-- The disk is full when the temporary file is written. -/
theorem failedWrite_harmless_iff_diskFull :
    Harmless plain loaded
        (loaded.update plain 7 (fun _ => some "second") ".settings.a.tmp" (some .fill)).1 ↔
      Step.fill = .serialise ∨ loaded.file = (loaded.candidate fun _ => some "second").map id :=
  failedWrite_harmless_iff plain (some ⟨7, "loaded"⟩) [] [.load] 7 (fun _ => some "second")
    ".settings.a.tmp" .fill loaded rfl rfl

/-- Nobody edits the file, and yet the next update of the same revision gets a conflict. -/
theorem diskFull_not_harmless :
    (loaded.update plain 7 (fun _ => some "second") ".settings.a.tmp" (some .fill)).2 =
        .error .notWritten ∧
      ¬ Harmless plain loaded
        (loaded.update plain 7 (fun _ => some "second") ".settings.a.tmp" (some .fill)).1 := by
  refine ⟨rfl, fun hharmless => ?_⟩
  have hfollows := hharmless.follows ⟨7, "loaded"⟩ (fun _ => some "second") "second"
    ".settings.b.tmp" rfl rfl
  exact absurd hfollows (by decide)

end IllumioOps.SettingsStore
