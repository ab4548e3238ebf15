import Mathlib.Data.List.Basic
import Mathlib.Logic.Function.Basic

/-!
# The settings store

`SettingsStore`: one file, read and written by `load`, `current` and `update`, while the file may
be edited by hand between two of them. An update names the revision its caller read; a digest of
the bytes last read or written detects an edit. An update that succeeds changes what its caller
read as long as no content becomes current under a revision that a caller holds with another
content (`updates_see_content`); a hand edit that keeps the revision number does that
(`unseen_edit_overwritten`).
-/

set_option autoImplicit false

namespace IllumioOps.SettingsStore

/-- The settings: a revision, and everything else. -/
structure Settings (β : Type) where
  revision : Nat
  body : β
  deriving DecidableEq, Repr

/-- How settings are kept in a file: `parse` reads and validates its bytes, `render` writes them,
and `digest` stands for their SHA-256. -/
structure Format (ρ β δ : Type) where
  parse : ρ → Option (Settings β)
  render : Settings β → ρ
  digest : ρ → δ
  parse_render : ∀ s, parse (render s) = some s
  digest_injective : Function.Injective digest

/-- Why a call ends with an exception: another revision is current (`SettingsConflict`), the file
or the candidate is not valid (`SettingsInvalid`), nothing was loaded, the mutation raised, or the
write failed. -/
inductive Failure where
  | conflict (expected actual : Nat)
  | invalid
  | notLoaded
  | refused
  | notWritten
  deriving DecidableEq, Repr

/-- The file, the store's fields, and what each caller has read, which no operation looks at. -/
structure State (ρ β δ κ : Type) where
  file : Option ρ
  current : Option (Settings β)
  diskDigest : Option δ
  seen : κ → List (Settings β)

/-! ## The operations -/

section Operations

variable {ρ β δ κ : Type} (f : Format ρ β δ)

/-- What the file holds. -/
def State.content (w : State ρ β δ κ) : Option (Settings β) := w.file.bind f.parse

/-- `load` -/
def State.load (w : State ρ β δ κ) : State ρ β δ κ :=
  match w.file with
  | none => w
  | some raw =>
      match f.parse raw with
      | none => w
      | some s => { w with current := some s, diskDigest := some (f.digest raw) }

/-- `_write`, and memory following it. The digest is that of the new bytes already when the write
fails. -/
def State.changed (w : State ρ β δ κ) (new : Settings β) (written : Bool) :
    State ρ β δ κ × Except Failure (Settings β) :=
  if written then
    ({ w with file := some (f.render new), current := some new,
              diskDigest := some (f.digest (f.render new)) }, .ok new)
  else ({ w with diskDigest := some (f.digest (f.render new)) }, .error .notWritten)

variable [DecidableEq δ]

/-- `_adopt_outside_edit`: nothing when the bytes are those last read or written; otherwise the
edit is taken when it is valid, and the call fails. -/
def State.adoptOutsideEdit (w : State ρ β δ κ) : State ρ β δ κ × Except Failure Unit :=
  match w.file, w.diskDigest with
  | none, _ => (w, .error .invalid)
  | some _, none => (w, .ok ())
  | some raw, some noted =>
      if f.digest raw = noted then (w, .ok ())
      else match f.parse raw, w.current with
        | none, _ => (w, .error .invalid)
        | some _, none => (w, .error .notLoaded)
        | some disk, some stale =>
            ({ w with current := some disk, diskDigest := some (f.digest raw) },
              .error (.conflict stale.revision disk.revision))

/-- `update`: `mutate` is the caller's change with the validation of its result, `written` whether
the write succeeds. -/
def State.update (w : State ρ β δ κ) (expected : Nat) (mutate : β → Option β) (written : Bool) :
    State ρ β δ κ × Except Failure (Settings β) :=
  match w.adoptOutsideEdit f with
  | (w, .error e) => (w, .error e)
  | (w, .ok ()) =>
      match w.current with
      | none => (w, .error .notLoaded)
      | some cur =>
          if cur.revision ≠ expected then (w, .error (.conflict expected cur.revision))
          else match mutate cur.body with
            | none => (w, .error .refused)
            | some body => w.changed f ⟨cur.revision + 1, body⟩ written

variable {f} {w : State ρ β δ κ} {expected : Nat} {mutate : β → Option β} {written : Bool}

/-- The adoption of an outside edit: nothing to adopt, nothing that can be adopted, or an edit. -/
theorem adoptOutsideEdit_cases (w : State ρ β δ κ) (hloaded : w.diskDigest.isSome) :
    (∃ raw, w.file = some raw ∧ w.diskDigest = some (f.digest raw) ∧
      w.adoptOutsideEdit f = (w, .ok ())) ∨
    (∃ e, w.adoptOutsideEdit f = (w, .error e)) ∨
    ∃ raw disk e, w.file = some raw ∧ f.parse raw = some disk ∧
      w.adoptOutsideEdit f =
        ({ w with current := some disk, diskDigest := some (f.digest raw) }, .error e) := by
  obtain ⟨noted, hnoted⟩ := Option.isSome_iff_exists.1 hloaded
  rw [State.adoptOutsideEdit.eq_def]
  cases hfile : w.file with
  | none => exact Or.inr (Or.inl ⟨_, rfl⟩)
  | some raw =>
      simp only [hnoted]
      by_cases hsame : f.digest raw = noted
      · exact Or.inl ⟨raw, rfl, by rw [hsame], by rw [if_pos hsame]⟩
      · rw [if_neg hsame]
        cases hparse : f.parse raw with
        | none => exact Or.inr (Or.inl ⟨_, rfl⟩)
        | some disk =>
            cases hcurrent : w.current with
            | none => exact Or.inr (Or.inl ⟨_, rfl⟩)
            | some stale => exact Or.inr (Or.inr ⟨raw, disk, _, rfl, hparse, rfl⟩)

/-- What an update can do: nothing, take an outside edit, or change the current settings, which it
does only when the file's bytes are those last noted. -/
theorem update_cases (w : State ρ β δ κ) (hloaded : w.diskDigest.isSome) :
    (∃ e, w.update f expected mutate written = (w, .error e)) ∨
    (∃ raw disk e, w.file = some raw ∧ f.parse raw = some disk ∧
      w.update f expected mutate written =
        ({ w with current := some disk, diskDigest := some (f.digest raw) }, .error e)) ∨
    ∃ raw cur body, w.file = some raw ∧ w.diskDigest = some (f.digest raw) ∧
      w.current = some cur ∧ cur.revision = expected ∧ mutate cur.body = some body ∧
      w.update f expected mutate written = w.changed f ⟨cur.revision + 1, body⟩ written := by
  rw [State.update.eq_def]
  rcases adoptOutsideEdit_cases (f := f) w hloaded with
    ⟨raw, hfile, hnoted, hadopt⟩ | ⟨e, hadopt⟩ | ⟨raw, disk, e, hfile, hparse, hadopt⟩
  · rw [hadopt]
    simp only
    split
    · exact Or.inl ⟨_, rfl⟩
    · rename_i cur hcurrent
      split
      · exact Or.inl ⟨_, rfl⟩
      · rename_i hrevision
        split
        · exact Or.inl ⟨_, rfl⟩
        · rename_i body hmutate
          refine Or.inr (Or.inr ⟨raw, cur, body, hfile, hnoted, hcurrent, ?_, hmutate, rfl⟩)
          exact not_not.1 hrevision
  · rw [hadopt]
    exact Or.inl ⟨e, rfl⟩
  · rw [hadopt]
    exact Or.inr (Or.inl ⟨raw, disk, e, hfile, hparse, rfl⟩)

end Operations

/-! ## Runs -/

/-- What happens one after the other: someone edits or removes the file by hand, the store loads
it, a caller reads the current settings, or updates the settings it read. -/
inductive Op (ρ β κ : Type) where
  | edit (file : Option ρ)
  | load
  | read (caller : κ)
  | update (caller : κ) (basis : Settings β) (mutate : β → Option β) (written : Bool)

section Runs

variable {ρ β δ κ : Type} (f : Format ρ β δ)

/-- No caller holds another content under the revision. -/
def State.Names (w : State ρ β δ κ) (s : Settings β) : Prop :=
  ∀ caller, ∀ x ∈ w.seen caller, x.revision = s.revision → x = s

/-- An update's basis is something its caller has read. -/
def Op.Honest (w : State ρ β δ κ) : Op ρ β κ → Prop
  | .update caller basis _ _ => basis ∈ w.seen caller
  | _ => True

/-- What is taken from the file, and what an update is about to write, has a revision under which
no caller holds another content; and no edit has the bytes last noted with another content. -/
def Op.Fresh (w : State ρ β δ κ) : Op ρ β κ → Prop
  | .edit file => ∀ raw, file = some raw → w.diskDigest = some (f.digest raw) →
      f.parse raw = w.current
  | .load => ∀ s, w.content f = some s → w.Names s
  | .read _ => True
  | .update _ basis mutate _ =>
      (∀ s, w.content f = some s → w.Names s) ∧
        ∀ body, w.content f = some basis → mutate basis.body = some body →
          w.Names ⟨basis.revision + 1, body⟩

/-- The current settings are the only ones any caller holds under their revision, and they are
what the file holds while its bytes are those last noted. -/
structure Good (w : State ρ β δ κ) : Prop where
  loaded : w.diskDigest.isSome
  names : ∀ s, w.current = some s → w.Names s
  noted : ∀ raw, w.file = some raw → w.diskDigest = some (f.digest raw) → f.parse raw = w.current

variable {f} {w : State ρ β δ κ} {op : Op ρ β κ} {s : Settings β} {raw : ρ}

theorem content_eq (hfile : w.file = some raw) : w.content f = f.parse raw := by
  rw [State.content, hfile, Option.bind_some]

/-- Content taken from the file. -/
theorem Good.taken (hfile : w.file = some raw) (hparse : f.parse raw = some s) (hnames : w.Names s) :
    Good f { w with current := some s, diskDigest := some (f.digest raw) } := by
  refine ⟨rfl, fun x hx => Option.some.inj hx ▸ hnames, fun q hq hdigest => ?_⟩
  obtain rfl := Option.some.inj (hfile.symm.trans hq)
  exact hparse

variable (f) [DecidableEq δ]

/-- An update that succeeds changes the content its caller read; one that fails leaves the file as
it is. -/
def SeesContent (w : State ρ β δ κ) : Op ρ β κ → Prop
  | .update _ basis mutate written =>
      match w.update f basis.revision mutate written with
      | (_, .ok _) => w.content f = some basis
      | (w', .error _) => w'.file = w.file
  | _ => True

variable {f}

/-- While the store is good, an update that succeeds changes what its caller read. -/
theorem Good.seesContent (h : Good f w) (hop : op.Honest w) : SeesContent f w op := by
  cases op with
  | edit file => trivial
  | load => trivial
  | read caller => trivial
  | update caller basis mutate written =>
      rw [SeesContent]
      rcases update_cases (f := f) w h.loaded with ⟨e, heq⟩ | ⟨raw, disk, e, hfile, hparse, heq⟩ |
        ⟨raw, cur, body, hfile, hnoted, hcurrent, hrevision, hmutate, heq⟩
      · rw [heq]
      · rw [heq]
      · rw [heq, State.changed]
        cases written with
        | false => rfl
        | true =>
            have hbasis : basis = cur := h.names cur hcurrent caller basis hop hrevision.symm
            rw [hbasis]
            exact (content_eq hfile).trans ((h.noted raw hfile hnoted).trans hcurrent)

variable (f) [DecidableEq κ]

/-- A caller has read the settings. -/
def State.sees (w : State ρ β δ κ) (caller : κ) (s : Settings β) : State ρ β δ κ :=
  { w with seen := Function.update w.seen caller (s :: w.seen caller) }

/-- One operation; a caller whose update succeeds gets the new settings back. -/
def State.step (w : State ρ β δ κ) : Op ρ β κ → State ρ β δ κ
  | .edit file => { w with file := file }
  | .load => w.load f
  | .read caller =>
      match w.current with
      | none => w
      | some s => w.sees caller s
  | .update caller basis mutate written =>
      match w.update f basis.revision mutate written with
      | (w, .error _) => w
      | (w, .ok new) => w.sees caller new

/-- The operations of a run, each with the state it starts from. -/
def trace : State ρ β δ κ → List (Op ρ β κ) → List (State ρ β δ κ × Op ρ β κ)
  | _, [] => []
  | w, op :: ops => (w, op) :: trace (w.step f op) ops

variable {f} {caller : κ}

omit [DecidableEq δ] in
/-- What a caller reads does not change what the others hold. -/
theorem State.Names.sees (h : w.Names s) : (w.sees caller s).Names s := by
  intro c x hx hrevision
  have hx : x ∈ Function.update w.seen caller (s :: w.seen caller) c := hx
  by_cases hc : c = caller
  · subst hc
    rw [Function.update_self] at hx
    rcases List.mem_cons.1 hx with rfl | hx
    · rfl
    · exact h c x hx hrevision
  · rw [Function.update_of_ne hc] at hx
    exact h c x hx hrevision

omit [DecidableEq δ] in
theorem Good.sees (h : Good f w) (hcurrent : w.current = some s) : Good f (w.sees caller s) := by
  refine ⟨h.loaded, fun x hx => ?_, h.noted⟩
  obtain rfl := Option.some.inj (hcurrent.symm.trans hx)
  exact (h.names s hcurrent).sees

/-- What one operation preserves. -/
theorem Good.step (h : Good f w) (hop : op.Honest w) (hfresh : op.Fresh f w) :
    Good f (w.step f op) := by
  cases op with
  | edit file => exact ⟨h.loaded, h.names, hfresh⟩
  | load =>
      rw [State.step, State.load]
      split
      · exact h
      · rename_i raw hfile
        split
        · exact h
        · rename_i s hparse
          exact Good.taken hfile hparse (hfresh s ((content_eq hfile).trans hparse))
  | read caller =>
      rw [State.step]
      split
      · exact h
      · rename_i s hcurrent
        exact h.sees hcurrent
  | update caller basis mutate written =>
      rw [State.step]
      rcases update_cases (f := f) w h.loaded with ⟨e, heq⟩ | ⟨raw, disk, e, hfile, hparse, heq⟩ |
        ⟨raw, cur, body, hfile, hnoted, hcurrent, hrevision, hmutate, heq⟩
      · rw [heq]
        exact h
      · rw [heq]
        exact Good.taken hfile hparse (hfresh.1 disk ((content_eq hfile).trans hparse))
      · have hcontent : f.parse raw = some cur := (h.noted raw hfile hnoted).trans hcurrent
        have hbasis : basis = cur := h.names cur hcurrent caller basis hop hrevision.symm
        subst hbasis
        rw [heq, State.changed]
        cases written with
        | true =>
            have hnames := hfresh.2 body ((content_eq hfile).trans hcontent) hmutate
            have hgood : Good f { w with
                file := some (f.render ⟨basis.revision + 1, body⟩),
                current := some ⟨basis.revision + 1, body⟩,
                diskDigest := some (f.digest (f.render ⟨basis.revision + 1, body⟩)) } :=
              Good.taken (w := { w with file := some (f.render ⟨basis.revision + 1, body⟩) }) rfl
                (f.parse_render _) hnames
            exact hgood.sees rfl
        | false =>
            -- the old bytes are not those that were to be written
            refine ⟨rfl, h.names, fun q hq hdigest => ?_⟩
            obtain rfl := Option.some.inj (hfile.symm.trans hq)
            have hsame := f.digest_injective (Option.some.inj hdigest)
            rw [← hsame, f.parse_render] at hcontent
            exact absurd (congrArg Settings.revision (Option.some.inj hcontent)) (Nat.succ_ne_self _)

/-- What a run preserves, at each operation. -/
theorem good_trace {ops : List (Op ρ β κ)} (hw : Good f w)
    (hops : ∀ p ∈ trace f w ops, p.2.Honest p.1 ∧ p.2.Fresh f p.1) :
    ∀ p ∈ trace f w ops, Good f p.1 := by
  induction ops generalizing w with
  | nil => exact fun p hp => absurd hp List.not_mem_nil
  | cons op ops ih =>
      intro p hp
      obtain ⟨hhonest, hfresh⟩ := hops (w, op) List.mem_cons_self
      rcases List.mem_cons.1 hp with rfl | hp
      · exact hw
      · exact ih (hw.step hhonest hfresh) (fun q hq => hops q (List.mem_cons_of_mem _ hq)) p hp

/-- A store that was loaded from its file, before anyone reads it. -/
structure Starts (f : Format ρ β δ) (w : State ρ β δ κ) : Prop where
  loaded : ∃ raw s, w.file = some raw ∧ f.parse raw = some s ∧ w.current = some s ∧
    w.diskDigest = some (f.digest raw)
  unread : ∀ caller, w.seen caller = []

omit [DecidableEq δ] [DecidableEq κ] in
theorem Starts.good (h : Starts f w) : Good f w := by
  obtain ⟨raw, s, hfile, hparse, hcurrent, hdigest⟩ := h.loaded
  refine ⟨by rw [hdigest]; rfl, fun _ _ caller x hx => ?_, fun q hq _ => ?_⟩
  · rw [h.unread caller] at hx
    exact absurd hx List.not_mem_nil
  · obtain rfl := Option.some.inj (hfile.symm.trans hq)
    exact hparse.trans hcurrent.symm

end Runs

/-- Over every interleaving of reads, updates, loads and edits by hand: where every operation is
fresh, an update that succeeds changes what its caller read, and one that fails leaves the file as
it is. -/
theorem updates_see_content {ρ β δ κ : Type} [DecidableEq δ] [DecidableEq κ] {f : Format ρ β δ}
    {w : State ρ β δ κ} (hw : Starts f w) {ops : List (Op ρ β κ)}
    (hops : ∀ p ∈ trace f w ops, p.2.Honest p.1 ∧ p.2.Fresh f p.1) :
    ∀ p ∈ trace f w ops, SeesContent f p.1 p.2 := by
  intro p hp
  exact (good_trace hw.good hops p hp).seesContent (hops p hp).1

/-! ## An edit that is overwritten unseen -/

/-- The file holds the settings themselves. -/
def plain : Format (Settings String) String (Settings String) where
  parse := some
  render := id
  digest := id
  parse_render _ := rfl
  digest_injective := Function.injective_id

/-- The settings of the seventh revision, as they were loaded. -/
def seventh : State (Settings String) String (Settings String) Bool :=
  ⟨some ⟨7, "loaded"⟩, some ⟨7, "loaded"⟩, some ⟨7, "loaded"⟩, fun _ => []⟩

theorem starts_seventh : Starts plain seventh :=
  ⟨⟨_, _, rfl, rfl, rfl, rfl⟩, fun _ => rfl⟩

/-- Two callers read the settings, and one after the other update them. -/
def twoUpdates : List (Op (Settings String) String Bool) :=
  [.read true, .read false, .update false ⟨7, "loaded"⟩ (fun _ => some "second") true,
    .update true ⟨7, "loaded"⟩ (fun _ => some "first") true]

/-- The same with an edit by hand after they read, which keeps the revision. -/
def editedBetween : List (Op (Settings String) String Bool) :=
  [.read true, .read false, .edit (some ⟨7, "by hand"⟩),
    .update false ⟨7, "loaded"⟩ (fun _ => some "second") true,
    .update true ⟨7, "loaded"⟩ (fun _ => some "first") true]

/-- The first of the two updates succeeds and the second gets a conflict, so the two are as they
should be. -/
theorem updates_see_content_twice :
    (twoUpdates.foldl (State.step plain) seventh).file = some ⟨8, "second"⟩ ∧
      ∀ p ∈ trace plain seventh twoUpdates, SeesContent plain p.1 p.2 := by
  refine ⟨by decide, updates_see_content starts_seventh ?_⟩
  intro p hp
  simp only [twoUpdates, trace, List.mem_cons, List.not_mem_nil, or_false] at hp
  rcases hp with rfl | rfl | rfl | rfl
  · exact ⟨trivial, trivial⟩
  · exact ⟨trivial, trivial⟩
  · refine ⟨List.mem_singleton_self _, ?_, ?_⟩
    · intro s hs caller
      obtain rfl : (⟨7, "loaded"⟩ : Settings String) = s := Option.some.inj hs
      cases caller <;> decide
    · -- both callers hold the seventh revision only
      intro body _ _ caller x hx hrevision
      cases caller with
      | false =>
          obtain rfl : x = ⟨7, "loaded"⟩ := List.mem_singleton.1 hx
          exact absurd hrevision (Nat.succ_ne_self 7).symm
      | true =>
          obtain rfl : x = ⟨7, "loaded"⟩ := List.mem_singleton.1 hx
          exact absurd hrevision (Nat.succ_ne_self 7).symm
  · refine ⟨List.mem_singleton_self _, ?_, ?_⟩
    · intro s hs caller
      obtain rfl : (⟨8, "second"⟩ : Settings String) = s := Option.some.inj hs
      cases caller <;> decide
    · intro body hcontent
      exact absurd hcontent (by decide)

/-- After the edit by hand, the first update gets a conflict and takes the edit; the second one
overwrites it, and its caller never saw it. -/
theorem unseen_edit_overwritten :
    ¬ ∀ (w : State (Settings String) String (Settings String) Bool)
        (ops : List (Op (Settings String) String Bool)),
        Starts plain w → (∀ p ∈ trace plain w ops, p.2.Honest p.1) →
          ∀ p ∈ trace plain w ops, SeesContent plain p.1 p.2 := by
  intro h
  have hhonest : ∀ p ∈ trace plain seventh editedBetween, p.2.Honest p.1 := by
    intro p hp
    simp only [editedBetween, trace, List.mem_cons, List.not_mem_nil, or_false] at hp
    rcases hp with rfl | rfl | rfl | rfl | rfl
    · trivial
    · trivial
    · trivial
    · exact List.mem_singleton_self _
    · exact List.mem_singleton_self _
  have hlast := h seventh editedBetween starts_seventh hhonest
    (_, .update true ⟨7, "loaded"⟩ (fun _ => some "first") true)
    (List.mem_of_getLast? (l := trace plain seventh editedBetween) rfl)
  -- the update succeeds, while the file holds the edit
  have hcontent : some (⟨7, "by hand"⟩ : Settings String) = some ⟨7, "loaded"⟩ := hlast
  exact absurd hcontent (by decide)

end IllumioOps.SettingsStore
