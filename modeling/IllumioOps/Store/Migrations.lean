import Mathlib.Data.List.Basic
import Mathlib.Data.List.Sort
import Mathlib.Logic.Function.Basic

/-!
# Migrations of a database

`store.db.migrate`: processes of the same build or of different ones open a database at the same moment, and
each brings it to its own version, one transaction for each migration file. A step takes the write lock first
and reads the version again under it. However the processes interleave, fail or crash, the database holds
what the migrations 1 up to its version make of it, each run once and in order, together with what was
written to it besides (`migrated_after`).

A script and what is written besides are functions of the content; its version is only the migrations' to set.
-/

set_option autoImplicit false

namespace IllumioOps.Migrations

variable {σ : Type}

/-! ## Files -/

/-- A migration file: what its statements make of a content, or nothing where one of them fails. -/
structure Migration (σ : Type) where
  version : Nat
  script : σ → Option σ

/-- `_migrations`: nothing where the files are not numbered 1..N. -/
def ofFiles (files : List (Migration σ)) : Option (List (Migration σ)) :=
  let out := files.insertionSort fun m n => m.version ≤ n.version
  if out.map Migration.version = List.range' 1 out.length then some out else none

/-- The version of the last one. -/
def latest (migrations : List (Migration σ)) : Nat :=
  (migrations.getLast?.map Migration.version).getD 0

/-! ## Processes -/

structure Db (σ : Type) where
  version : Nat
  content : σ

/-- Where a call of `migrate` is: between two transactions; in one, before its statements and after them;
over, with a version or refused as older than the database, or with another error. -/
inductive Place (σ : Type) where
  | idle
  | between (pending : List (Migration σ))
  | begun (next : Migration σ) (rest : List (Migration σ))
  | executed (applied : Option (Migration σ)) (rest : List (Migration σ)) (db : Db σ)
  | returned (version : Nat)
  | refused (version : Nat)
  | failed

/-- In a transaction. -/
def Place.holds : Place σ → Bool
  | .begun _ _ => true
  | .executed _ _ _ => true
  | _ => false

/-- In a call. -/
def Place.running : Place σ → Bool
  | .between _ => true
  | p => p.holds

structure Process (σ : Type) where
  files : List (Migration σ)
  place : Place σ

/-- What was committed. -/
inductive Entry (σ : Type) where
  | migrated (m : Migration σ)
  | wrote (change : σ → σ)

def Entry.migration? : Entry σ → Option (Migration σ)
  | .migrated m => some m
  | .wrote _ => none

structure World (σ : Type) where
  db : Db σ
  lock : Option Nat
  processes : Nat → Process σ
  history : List (Entry σ)

/-- A new database, and processes with the files of their builds. -/
def World.start (content : σ) (files : Nat → List (Migration σ)) : World σ :=
  ⟨⟨0, content⟩, none, fun p => ⟨files p, .idle⟩, []⟩

/-! ## Steps -/

inductive Action (σ : Type) where
  /-- A call begins: it reads the version. -/
  | start (p : Nat)
  /-- `BEGIN IMMEDIATE` -/
  | begin (p : Nat)
  /-- The lock did not come free in time. -/
  | busy (p : Nat)
  /-- The version is read again, and the statements run where they are still wanted. -/
  | execute (p : Nat)
  | commit (p : Nat)
  /-- The commit fails. -/
  | rollback (p : Nat)
  /-- Nothing is pending any more. -/
  | finish (p : Nat)
  | crash (p : Nat)
  /-- Another connection writes. -/
  | write (change : σ → σ)

def World.place (w : World σ) (p : Nat) : Place σ := (w.processes p).place

def World.put (w : World σ) (p : Nat) (place : Place σ) : World σ :=
  { w with processes := Function.update w.processes p { w.processes p with place := place } }

/-- The start of a call. -/
def opening (db : Db σ) (files : List (Migration σ)) : Place σ :=
  match ofFiles files with
  | none => .failed
  | some migrations =>
      if latest migrations < db.version then .refused db.version
      else
        let pending := migrations.filter fun m => db.version < m.version
        if pending.isEmpty then .returned db.version else .between pending

/-- The statements of a step, under the lock. -/
def executing (db : Db σ) (next : Migration σ) (rest : List (Migration σ)) : Option (Place σ) :=
  if db.version < next.version then
    (next.script db.content).map fun content => .executed (some next) rest ⟨next.version, content⟩
  else some (.executed none rest db)

/-- A transaction is over, with nothing of it kept. -/
def World.release (w : World σ) (p : Nat) (place : Place σ) : World σ :=
  { w.put p place with lock := if (w.place p).holds then none else w.lock }

def Action.apply (w : World σ) : Action σ → World σ
  | .start p => if (w.place p).running then w else w.put p (opening w.db (w.processes p).files)
  | .begin p =>
      match w.place p with
      | .between (next :: rest) =>
          if w.lock.isNone then { w.put p (.begun next rest) with lock := some p } else w
      | _ => w
  | .busy p =>
      match w.place p with
      | .between _ => w.put p .failed
      | _ => w
  | .execute p =>
      match w.place p with
      | .begun next rest =>
          match executing w.db next rest with
          | some place => w.put p place
          | none => w.release p .failed
      | _ => w
  | .commit p =>
      match w.place p with
      | .executed applied rest db =>
          { w.release p (.between rest) with
            db := db
            history := w.history ++ applied.toList.map .migrated }
      | _ => w
  | .rollback p => if (w.place p).holds then w.release p .failed else w
  | .finish p =>
      match w.place p with
      | .between [] => w.put p (.returned w.db.version)
      | _ => w
  | .crash p => w.release p .idle
  | .write change =>
      if w.lock.isNone then
        { w with
          db := { w.db with content := change w.db.content }
          history := w.history ++ [.wrote change] }
      else w

def World.after (w : World σ) (actions : List (Action σ)) : World σ := actions.foldl Action.apply w

/-! ## What is asked -/

/-- What a history makes of a content. -/
def replay (content : σ) (history : List (Entry σ)) : Option σ :=
  history.foldlM (fun content e =>
    match e with
    | .migrated m => m.script content
    | .wrote change => some (change content)) content

def migrated (history : List (Entry σ)) : List (Migration σ) := history.filterMap Entry.migration?

/-- What a place says of the database. -/
structure Told (w : World σ) (p : Nat) : Prop where
  /-- Whoever returns has the database at its version or a later one. -/
  returned : ∀ v, w.place p = .returned v →
    ∃ migrations, ofFiles (w.processes p).files = some migrations ∧ migrations.length ≤ v ∧ v ≤ w.db.version
  refused : ∀ v, w.place p = .refused v →
    ∃ migrations, ofFiles (w.processes p).files = some migrations ∧ migrations.length < v ∧ v ≤ w.db.version

structure Migrated (content : σ) (w : World σ) : Prop where
  /-- No half of a script, none without its version. -/
  whole : replay content w.history = some w.db.content
  /-- Each once, in order, none left out. -/
  inOrder : (migrated w.history).map Migration.version = List.range' 1 w.db.version
  ours : ∀ m ∈ migrated w.history, ∃ p migrations,
    ofFiles (w.processes p).files = some migrations ∧ m ∈ migrations
  alone : ∀ p p', (w.place p).holds = true → (w.place p').holds = true → p = p'
  told : ∀ p, Told w p

/-! ## Files that are numbered -/

section Files

variable {files migrations before rest : List (Migration σ)} {m : Migration σ}

theorem numbered (h : ofFiles files = some migrations) :
    migrations.map Migration.version = List.range' 1 migrations.length := by
  rw [ofFiles] at h
  split at h
  · rename_i hnumbered
    exact Option.some.inj h ▸ hnumbered
  · cases h

/-- The version of a file is its place. -/
theorem version_of_split (h : ofFiles files = some (before ++ m :: rest)) :
    m.version = before.length + 1 := by
  have hplace := congrArg (fun versions => versions[before.length]?) (numbered h)
  simp only [List.map_append, List.map_cons] at hplace
  rw [List.getElem?_append_right (by simp), List.getElem?_range' (by simp)] at hplace
  simp only [List.length_map, Nat.sub_self, List.getElem?_cons_zero, Option.some.injEq] at hplace
  omega

theorem latest_eq (h : ofFiles files = some migrations) : latest migrations = migrations.length := by
  rw [latest, ← List.getLast?_map, numbered h, List.getLast?_range']
  split
  · rename_i hnone
    exact hnone.symm
  · exact Nat.add_sub_cancel_left 1 _

/-- Those after a version are those that stand after so many. -/
theorem filter_eq_drop {a v : Nat}
    (h : migrations.map Migration.version = List.range' (a + 1) migrations.length) :
    (migrations.filter fun m => v < m.version) = migrations.drop (v - a) := by
  induction migrations generalizing a with
  | nil => rw [List.filter_nil, List.drop_nil]
  | cons m migrations ih =>
      rw [List.map_cons, List.length_cons, List.range'_succ] at h
      obtain ⟨hversion, htail⟩ := List.cons.inj h
      have hrest := ih htail
      rcases Nat.lt_or_ge v (a + 1) with hless | hmore
      · have hnone : v - (a + 1) = 0 := by omega
        have hstart : v - a = 0 := by omega
        rw [hnone, List.drop_zero] at hrest
        rw [List.filter_cons_of_pos (by simpa [hversion] using hless), hrest, hstart, List.drop_zero]
      · have hstart : v - a = (v - (a + 1)) + 1 := by omega
        rw [List.filter_cons_of_neg (by simpa [hversion] using hmore), hrest, hstart, List.drop_succ_cons]

/-- `pending_migrations` -/
def pendingMigrations (migrations : List (Migration σ)) (db : Db σ) : Nat :=
  migrations.length - db.version

/-- It counts what a call would run. -/
theorem length_pending (h : ofFiles files = some migrations) (db : Db σ) :
    (migrations.filter fun m => db.version < m.version).length = pendingMigrations migrations db := by
  rw [filter_eq_drop (a := 0) (numbered h), List.length_drop]
  rfl

end Files

/-! ## The invariant -/

/-- What is left to do: the files before it are done. -/
def Pending (files : List (Migration σ)) (version : Nat) (pending : List (Migration σ)) : Prop :=
  ∃ before, ofFiles files = some (before ++ pending) ∧ before.length ≤ version

/-- What a transaction makes of the database: nothing, or one migration, which is the next one. -/
def Applied (files : List (Migration σ)) (db db' : Db σ) : Option (Migration σ) → Prop
  | none => db' = db
  | some m => (∃ migrations, ofFiles files = some migrations ∧ m ∈ migrations) ∧
      m.version = db.version + 1 ∧ db'.version = m.version ∧ m.script db.content = some db'.content

def Place.Ok (files : List (Migration σ)) (db : Db σ) : Place σ → Prop
  | .between pending => Pending files db.version pending
  | .begun next rest => Pending files db.version (next :: rest)
  | .executed applied rest db' => Pending files db'.version rest ∧ Applied files db db' applied
  | .returned v => ∃ migrations, ofFiles files = some migrations ∧ migrations.length ≤ v ∧ v ≤ db.version
  | .refused v => ∃ migrations, ofFiles files = some migrations ∧ migrations.length < v ∧ v ≤ db.version
  | _ => True

structure Ok (content : σ) (w : World σ) : Prop where
  whole : replay content w.history = some w.db.content
  inOrder : (migrated w.history).map Migration.version = List.range' 1 w.db.version
  ours : ∀ m ∈ migrated w.history, ∃ p migrations,
    ofFiles (w.processes p).files = some migrations ∧ m ∈ migrations
  lock : ∀ p, (w.place p).holds = true ↔ w.lock = some p
  places : ∀ p, (w.place p).Ok (w.processes p).files w.db

section Steps

variable {content : σ} {w : World σ} {p : Nat} {place : Place σ} {files : List (Migration σ)}
  {db db' : Db σ}

@[simp] theorem place_put_self : (w.put p place).place p = place := by
  simp [World.place, World.put]

theorem place_put_ne {q : Nat} (h : q ≠ p) : (w.put p place).place q = w.place q := by
  simp [World.place, World.put, Function.update_of_ne h]

@[simp] theorem files_put (q : Nat) : ((w.put p place).processes q).files = (w.processes q).files := by
  by_cases h : q = p
  · subst h
    simp [World.put]
  · simp [World.put, Function.update_of_ne h]

theorem Pending.mono {pending : List (Migration σ)} {v v' : Nat} (h : Pending files v pending)
    (hv : v ≤ v') : Pending files v' pending := by
  obtain ⟨before, hfiles, hbefore⟩ := h
  exact ⟨before, hfiles, hbefore.trans hv⟩

/-- What is true of a place outside a transaction stays so in a later version. -/
theorem Place.Ok.later (h : place.Ok files db) (hfree : place.holds = false)
    (hv : db.version ≤ db'.version) : place.Ok files db' := by
  cases place with
  | idle => trivial
  | between pending => exact Pending.mono h hv
  | begun next rest => exact absurd hfree (by simp [Place.holds])
  | executed applied rest db => exact absurd hfree (by simp [Place.holds])
  | returned v =>
      obtain ⟨migrations, hfiles, hlength, hle⟩ := h
      exact ⟨migrations, hfiles, hlength, hle.trans hv⟩
  | refused v =>
      obtain ⟨migrations, hfiles, hlength, hle⟩ := h
      exact ⟨migrations, hfiles, hlength, hle.trans hv⟩
  | failed => trivial

theorem opening_ok (db : Db σ) (files : List (Migration σ)) : (opening db files).Ok files db := by
  rw [opening]
  split
  · trivial
  · rename_i migrations hfiles
    split
    · rename_i hnewer
      rw [latest_eq hfiles] at hnewer
      exact ⟨migrations, hfiles, hnewer, Nat.le_refl _⟩
    · have hdrop := filter_eq_drop (a := 0) (v := db.version) (numbered hfiles)
      rw [Nat.sub_zero] at hdrop
      simp only [hdrop]
      split
      · rename_i hempty
        refine ⟨migrations, hfiles, ?_, Nat.le_refl _⟩
        exact List.drop_eq_nil_iff.mp (List.isEmpty_iff.mp hempty)
      · refine ⟨migrations.take db.version, ?_, List.length_take_le _ _⟩
        rw [List.take_append_drop]
        exact hfiles

theorem holds_opening (db : Db σ) (files : List (Migration σ)) : (opening db files).holds = false := by
  rw [opening]
  split
  · rfl
  · split
    · rfl
    · simp only
      split
      · rfl
      · rfl

/-- A process goes on without taking or leaving the lock. -/
theorem Ok.put (h : Ok content w) (hplace : place.Ok (w.processes p).files w.db)
    (hholds : place.holds = (w.place p).holds) : Ok content (w.put p place) := by
  refine ⟨h.whole, h.inOrder, ?_, ?_, ?_⟩
  · intro m hm
    obtain ⟨q, migrations, hfiles, hmem⟩ := h.ours m hm
    exact ⟨q, migrations, by rw [files_put, hfiles], hmem⟩
  · intro q
    rw [← show w.lock = (w.put p place).lock from rfl, ← h.lock q]
    by_cases hq : q = p
    · subst hq
      rw [place_put_self, hholds]
    · rw [place_put_ne hq]
  · intro q
    rw [files_put]
    by_cases hq : q = p
    · subst hq
      rw [place_put_self]
      exact hplace
    · rw [place_put_ne hq]
      exact h.places q

/-- A process leaves its transaction, and what it changed becomes the database. -/
theorem Ok.leave (h : Ok content w) (hfree : place.holds = false) (hholds : (w.place p).holds = true)
    {entries : List (Entry σ)} (hplace : place.Ok (w.processes p).files db)
    (hv : w.db.version ≤ db.version)
    (hwhole : replay content (w.history ++ entries) = some db.content)
    (hinOrder : (migrated (w.history ++ entries)).map Migration.version = List.range' 1 db.version)
    (hours : ∀ m ∈ migrated entries, ∃ migrations,
      ofFiles (w.processes p).files = some migrations ∧ m ∈ migrations) :
    Ok content { w.release p place with db := db, history := w.history ++ entries } := by
  have hlock := (h.lock p).mp hholds
  refine ⟨hwhole, hinOrder, ?_, ?_, ?_⟩
  · intro m hm
    rw [show migrated (w.history ++ entries) = migrated w.history ++ migrated entries from
      List.filterMap_append] at hm
    rcases List.mem_append.mp hm with hm | hm
    · obtain ⟨q, migrations, hfiles, hmem⟩ := h.ours m hm
      exact ⟨q, migrations, (congrArg ofFiles (files_put q)).trans hfiles, hmem⟩
    · obtain ⟨migrations, hfiles, hmem⟩ := hours m hm
      exact ⟨p, migrations, (congrArg ofFiles (files_put p)).trans hfiles, hmem⟩
  · intro q
    have hnone : (w.release p place).lock = none := if_pos hholds
    change ((w.put p place).place q).holds = true ↔ (w.release p place).lock = some q
    rw [hnone]
    refine iff_of_false ?_ (by simp)
    by_cases hq : q = p
    · subst hq
      rw [place_put_self, hfree]
      exact Bool.false_ne_true
    · rw [place_put_ne hq, h.lock q, hlock]
      exact fun hsame => hq (Option.some.inj hsame).symm
  · intro q
    change ((w.put p place).place q).Ok ((w.put p place).processes q).files db
    rw [files_put]
    by_cases hq : q = p
    · subst hq
      rw [place_put_self]
      exact hplace
    · rw [place_put_ne hq]
      refine (h.places q).later ?_ hv
      refine Bool.eq_false_iff.mpr fun hother => hq ?_
      exact (Option.some.inj (hlock.symm.trans ((h.lock q).mp hother))).symm

/-- A transaction that leaves nothing behind. -/
theorem Ok.release (h : Ok content w) (hfree : place.holds = false)
    (hplace : place.Ok (w.processes p).files w.db) : Ok content (w.release p place) := by
  by_cases hholds : (w.place p).holds = true
  · have hwhole : replay content (w.history ++ []) = some w.db.content := by rw [List.append_nil, h.whole]
    have hinOrder : (migrated (w.history ++ [])).map Migration.version = List.range' 1 w.db.version := by
      rw [List.append_nil, h.inOrder]
    have hleave := h.leave hfree hholds hplace (Nat.le_refl _) hwhole hinOrder
      (fun m hm => absurd hm List.not_mem_nil)
    rw [List.append_nil] at hleave
    exact hleave
  · have hsame : w.release p place = w.put p place := by
      rw [World.release, if_neg hholds]
      rfl
    rw [hsame]
    exact h.put hplace (hfree.trans (Bool.eq_false_iff.mpr hholds).symm)

theorem executing_ok {next : Migration σ} {rest : List (Migration σ)}
    (h : Pending files db.version (next :: rest)) {place : Place σ}
    (hplace : executing db next rest = some place) : place.Ok files db ∧ place.holds = true := by
  obtain ⟨before, hfiles, hbefore⟩ := h
  have hversion := version_of_split hfiles
  have hdone : ofFiles files = some ((before ++ [next]) ++ rest) := by rwa [← List.append_cons]
  rw [executing] at hplace
  split at hplace
  · rename_i hless
    obtain ⟨content, hscript, rfl⟩ := Option.map_eq_some_iff.mp hplace
    refine ⟨⟨⟨before ++ [next], hdone, ?_⟩, ⟨_, hfiles, ?_⟩, ?_, rfl, hscript⟩, rfl⟩
    · rw [List.length_append, List.length_singleton, hversion]
    · exact List.mem_append_right _ List.mem_cons_self
    · omega
  · obtain rfl := Option.some.inj hplace
    refine ⟨⟨⟨before ++ [next], hdone, ?_⟩, rfl⟩, rfl⟩
    rw [List.length_append, List.length_singleton]
    omega

theorem replay_snoc (history : List (Entry σ)) (e : Entry σ) :
    replay content (history ++ [e]) = (replay content history).bind fun content =>
      match e with
      | .migrated m => m.script content
      | .wrote change => some (change content) := by
  rw [replay, List.foldlM_append]
  refine congrArg (Option.bind (replay content history)) (funext fun content => ?_)
  cases e with
  | migrated m =>
      rw [List.foldlM_cons]
      exact bind_pure _
  | wrote change => rfl

/-- The commit of a step. -/
theorem Ok.commit (h : Ok content w) {applied : Option (Migration σ)} {rest : List (Migration σ)}
    (hplace : w.place p = .executed applied rest db) :
    Ok content { w.release p (.between rest) with
      db := db
      history := w.history ++ applied.toList.map .migrated } := by
  have hholds : (w.place p).holds = true := by rw [hplace]; rfl
  have hok := h.places p
  rw [hplace] at hok
  obtain ⟨hpending, happlied⟩ := hok
  cases applied with
  | none =>
      obtain rfl : db = w.db := happlied
      refine h.leave rfl hholds hpending (Nat.le_refl _) ?_ ?_ fun m hm => absurd hm List.not_mem_nil
      · rw [Option.toList_none, List.map_nil, List.append_nil, h.whole]
      · rw [Option.toList_none, List.map_nil, List.append_nil, h.inOrder]
  | some m =>
      obtain ⟨hours, hnext, hversion, hscript⟩ := happlied
      refine h.leave rfl hholds hpending (by omega) ?_ ?_ ?_
      · rw [Option.toList_some, List.map_singleton, replay_snoc, h.whole]
        exact hscript
      · rw [migrated, List.filterMap_append, List.map_append, ← migrated, h.inOrder, hversion, hnext,
          List.range'_1_concat, Nat.add_comm 1]
        exact congrArg (fun v => List.range' 1 w.db.version ++ [v]) hnext
      · intro m' hm
        rw [List.mem_singleton.mp hm]
        exact hours

/-- A write of another connection, which leaves the version. -/
theorem Ok.write (h : Ok content w) (hlock : w.lock = none) (change : σ → σ) :
    Ok content { w with
      db := { w.db with content := change w.db.content }
      history := w.history ++ [.wrote change] } := by
  have hnone : migrated (w.history ++ [.wrote change]) = migrated w.history := by
    rw [migrated, List.filterMap_append]
    exact List.append_nil _
  refine ⟨?_, ?_, ?_, h.lock, ?_⟩
  · rw [replay_snoc, h.whole]
    rfl
  · exact hnone.symm ▸ h.inOrder
  · exact hnone.symm ▸ h.ours
  · intro q
    refine (h.places q).later (Bool.eq_false_iff.mpr fun hholds => ?_) (Nat.le_refl _)
    exact absurd (hlock.symm.trans ((h.lock q).mp hholds)) (by simp)

theorem Ok.step (h : Ok content w) (action : Action σ) : Ok content (action.apply w) := by
  cases action with
  | start p =>
      dsimp only [Action.apply]
      split
      · exact h
      · rename_i hidle
        refine h.put (opening_ok _ _) (holds_opening _ _ |>.trans ?_)
        cases hplace : w.place p with
        | begun next rest => exact absurd (by rw [hplace]; rfl) hidle
        | executed applied rest db => exact absurd (by rw [hplace]; rfl) hidle
        | _ => rfl
  | begin p =>
      dsimp only [Action.apply]
      split
      · rename_i next rest hplace
        split
        · rename_i hfree
          have hpending := h.places p
          rw [hplace] at hpending
          refine ⟨h.whole, h.inOrder, ?_, ?_, ?_⟩
          · intro m hm
            obtain ⟨q, migrations, hfiles, hmem⟩ := h.ours m hm
            exact ⟨q, migrations, (congrArg ofFiles (files_put q)).trans hfiles, hmem⟩
          · intro q
            change ((w.put p (.begun next rest)).place q).holds = true ↔ some p = some q
            by_cases hq : q = p
            · subst hq
              rw [place_put_self]
              exact iff_of_true rfl rfl
            · rw [place_put_ne hq, h.lock q, Option.isNone_iff_eq_none.mp hfree]
              exact iff_of_false (by simp) fun hsame => hq (Option.some.inj hsame).symm
          · intro q
            change ((w.put p (.begun next rest)).place q).Ok
              ((w.put p (.begun next rest)).processes q).files w.db
            rw [files_put]
            by_cases hq : q = p
            · subst hq
              rw [place_put_self]
              exact hpending
            · rw [place_put_ne hq]
              exact h.places q
        · exact h
      · exact h
  | busy p =>
      dsimp only [Action.apply]
      split
      · rename_i pending hplace
        exact h.put trivial (by rw [hplace]; rfl)
      · exact h
  | execute p =>
      dsimp only [Action.apply]
      split
      · rename_i next rest hplace
        have hpending := h.places p
        rw [hplace] at hpending
        split
        · rename_i place hexecuting
          obtain ⟨hok, hholds⟩ := executing_ok hpending hexecuting
          exact h.put hok (by rw [hholds, hplace]; rfl)
        · exact h.release rfl trivial
      · exact h
  | commit p =>
      dsimp only [Action.apply]
      split
      · rename_i applied rest db hplace
        exact h.commit hplace
      · exact h
  | rollback p =>
      dsimp only [Action.apply]
      split
      · exact h.release rfl trivial
      · exact h
  | finish p =>
      dsimp only [Action.apply]
      split
      · rename_i hplace
        have hpending := h.places p
        rw [hplace] at hpending
        obtain ⟨before, hfiles, hbefore⟩ := hpending
        rw [List.append_nil] at hfiles
        exact h.put ⟨before, hfiles, hbefore, Nat.le_refl _⟩ (by rw [hplace]; rfl)
      · exact h
  | crash p => exact h.release rfl trivial
  | write change =>
      dsimp only [Action.apply]
      split
      · rename_i hfree
        exact h.write (Option.isNone_iff_eq_none.mp hfree) change
      · exact h

theorem ok_after (h : Ok content w) (actions : List (Action σ)) : Ok content (w.after actions) := by
  induction actions generalizing w with
  | nil => exact h
  | cons action actions ih => exact ih (h.step action)

end Steps

theorem ok_start (content : σ) (files : Nat → List (Migration σ)) :
    Ok content (World.start content files) := by
  refine ⟨rfl, rfl, fun m hm => absurd hm List.not_mem_nil, ?_, fun p => trivial⟩
  intro p
  exact iff_of_false Bool.false_ne_true (by simp [World.start])

/-- **Every migration runs once, in order and whole**, however processes of the same build or of different
ones interleave, fail or crash: the database holds what the migrations 1 up to its version make of it,
together with what was written besides; at most one process is in a transaction; whoever returns from
`migrate` has the database at the version of its build or a later one, and whoever is refused is older. -/
theorem migrated_after (content : σ) (files : Nat → List (Migration σ)) (actions : List (Action σ)) :
    Migrated content ((World.start content files).after actions) := by
  have h := ok_after (ok_start content files) actions
  generalize (World.start content files).after actions = w at h
  refine ⟨h.whole, h.inOrder, h.ours, ?_, fun p => ⟨?_, ?_⟩⟩
  · intro p p' hp hp'
    exact Option.some.inj (((h.lock p).mp hp).symm.trans ((h.lock p').mp hp'))
  · intro v hplace
    have hok := h.places p
    rw [hplace] at hok
    exact hok
  · intro v hplace
    have hok := h.places p
    rw [hplace] at hok
    exact hok

/-! ## Older and newer builds -/

/-- One build has one migration, the other one more. -/
def twoBuilds (p : Nat) : List (Migration Nat) :=
  (⟨1, fun n => some (n + 1)⟩ : Migration Nat) :: if p = 0 then [] else [⟨2, fun n => some (n * 10)⟩]

def Place.version? : Place σ → Option Nat
  | .returned v => some v
  | _ => none

/-- That a database is newer is only looked at when a call begins: a call of the older build that began in
time returns with the database at the newer version. -/
theorem older_returns_newer :
    (((World.start 0 twoBuilds).after [.start 0, .start 1, .begin 1, .execute 1, .commit 1, .begin 1,
      .execute 1, .commit 1, .finish 1, .begin 0, .execute 0, .commit 0, .finish 0]).place 0).version? =
        some 2 ∧ (ofFiles (twoBuilds 0)).map latest = some 1 := by
  decide +kernel

end IllumioOps.Migrations
