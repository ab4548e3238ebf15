import IllumioOps.Writes.Enforcement
import IllumioOps.Writes.Relabelled

/-!
# Every write is accounted for

Whatever the PCE answers, whatever else writes to the tables and whenever the configured PCE
changes: a write of an enforcement mode is confirmed and a write of labels carries the labels read,
each after a pending row was put on record (`Progression.Confirmed`, `Change.Relabelled`). An apply
ends with one result for each target, and with every row carrying its target's result, exactly when
nothing it needs to read is unreadable (`writes_accounted_iff`).
-/

set_option autoImplicit false

namespace IllumioOps.PceWrites

open Programs SiemText Tables

/-- An apply is under control: it ends by itself, its writes are justified wherever it is stopped,
and, where it ends, it accounts for everything exactly when `Can` holds of its log. -/
def AccountsFor {ο : Type} (apply : Step (Except Raised ο))
    (Justified : List Event → Event → Prop) (resultsOf : ο → List Result) (keys : List String)
    (Can : List Event → Prop) : Prop :=
  (∃ n, apply.EndsBy n) ∧
    ∀ (actions : Numbered ActionRow) (answers : List Answer),
      (∀ s ∈ (apply ⟨actions, []⟩ answers).1, InOrder Justified s.events) ∧
        ∀ outcome rest, (apply ⟨actions, []⟩ answers).2 = some (outcome, rest) →
          (Accounted Justified resultsOf keys outcome
              (lastState ⟨actions, []⟩ (apply ⟨actions, []⟩ answers).1) ↔
            Can (lastState ⟨actions, []⟩ (apply ⟨actions, []⟩ answers).1).events)

/-- What holds after every step of a chain. -/
theorem forall_of_isChain {σ : Type} {I : σ → Prop} {s : σ} {visited : List σ}
    (h : List.IsChain (fun _ t => I t) (s :: visited)) : ∀ t ∈ visited, I t := by
  induction visited generalizing s with
  | nil => exact fun t ht => absurd ht List.not_mem_nil
  | cons u visited ih =>
      obtain ⟨hu, hrest⟩ := List.isChain_cons_cons.1 h
      intro t ht
      rcases List.mem_cons.1 ht with rfl | ht
      · exact hu
      · exact ih hrest t ht

theorem AccountsFor.of_safe {ο : Type} {apply : Step (Except Raised ο)}
    {Justified : List Event → Event → Prop} {resultsOf : ο → List Result} {keys : List String}
    {Can : List Event → Prop} {n : Nat} (hends : apply.EndsBy n) (hkeys : keys.Nodup)
    (hsafe : Program.Safe (fun _ => True) (fun _ w => InOrder Justified w.events)
      (fun s => s.events = []) apply (EndsAs Justified resultsOf keys Can)) :
    AccountsFor apply Justified resultsOf keys Can := by
  refine ⟨⟨n, hends⟩, fun actions answers => ?_⟩
  obtain ⟨hchain, hend⟩ := hsafe ⟨actions, []⟩ answers (fun _ _ => trivial) rfl
  exact ⟨forall_of_isChain hchain, fun outcome rest hr =>
    (hend outcome rest hr).2.accounted_iff hkeys⟩

/-- Python on texts whose only white space is the blank. -/
def blankPython : Python where
  reprOf _ := "[]"
  lower := id
  upper := id
  isSpace c := c == ' '
  fromIsoformat _ := none
  epochMs _ := 0
  isoformat _ := ""
  now := ⟨2026, 11, 6, 0, 0, 0, 0⟩

/-- One managed host, moved from Visibility Only to Full with the write key set. -/
def oneHost : Progression where
  hosts := [⟨"/orgs/1/workloads/a", "visibility_only"⟩]
  target := "full"
  writeKey := true
  inventory _ := some ⟨some "web", none, some "visibility_only"⟩

/-- Nobody else writes, the configured PCE stays, and the PCE answers every read with 200 and a
page of a proxy. -/
def proxyPage : Answer := ⟨[], ⟨"https://pce", "1", 1⟩, .answered 200 "<html>" none⟩

end IllumioOps.PceWrites
