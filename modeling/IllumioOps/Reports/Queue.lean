import IllumioOps.Domain.Values
import Mathlib.Data.List.Pairwise
import Mathlib.Logic.Function.Basic

/-!
# The queue of reports

`store.reports`, `services.reports.generate` and `services.reports.retention`: a request or a schedule queues a row, the
reports job makes the oldest queued report and writes its files, and removals delete rows and then their files. They
run side by side, and the service may stop at any point; the reports it was making are made again from the start.

The id of the newest report comes again once that report is deleted, so what a removal or an email still has in hand
under the id may reach the report that was queued next. In every order of the steps that is all that goes wrong
(`kept_after`): what is served under an id was written whole by the run that made that very report.
-/

set_option autoImplicit false

namespace IllumioOps.ReportQueue

/-! ## Rows, files and the job -/

inductive ReportStatus where
  | queued
  | running
  | done
  | failed
  deriving DecidableEq, Repr

inductive ReportFormat where
  | html
  | xlsx
  | json
  | csv
  deriving DecidableEq, Repr

def ReportFormat.value : ReportFormat → String
  | .html => "html"
  | .xlsx => "xlsx"
  | .json => "json"
  | .csv => "csv"

/-- A row of `reports`. `serial` tells reports apart whose ids are the same, `run` is the run that claimed the report
last, `emailOf` the report that the row's email columns are about. `reused`: the report was queued while a removal or
an email of an earlier one with its id was under way. -/
structure ReportRow where
  id : Nat
  serial : Nat
  status : ReportStatus
  scheduleId : Option String
  createdAt : Int
  errorKey : Option String
  files : List String
  run : Nat
  emailOf : Option Nat
  reused : Bool

/-- The report that a file was written for, and the run that wrote it. -/
structure Origin where
  serial : Nat
  run : Nat
  deriving DecidableEq, Repr

/-- The files of a report's directory. -/
abbrev Dir : Type := List (String × Origin)

/-- Where `run_queued` is: the document is built; the files are written, the formats left with it; it is about to
remove the files of a report that cannot be made; to record it; to email the finished report. -/
inductive Phase where
  | building
  | writing (stem : String) (written : List String) (left : List ReportFormat)
  | failing (key : String)
  | cleared (key : String)
  | mailing
  deriving DecidableEq, Repr

structure Job where
  id : Nat
  serial : Nat
  run : Nat
  phase : Phase

/-- A removal: the ids it picked, with the report that each was picked for; once the rows are deleted, the ids whose
files are still to go. -/
structure Removal where
  targets : List (Nat × Nat)
  deleted : Bool

/-- `rows` in the order of their ids, `recovered` as in the reports job. -/
structure World where
  rows : List ReportRow
  dirs : Nat → Option Dir
  job : Option Job
  recovered : Bool
  removals : List Removal
  nextSerial : Nat
  nextRun : Nat

def World.start : World := ⟨[], fun _ => none, none, false, [], 0, 0⟩

/-! ## The store -/

/-- The id of an inserted row: ids are not kept from coming again. -/
def nextId (rows : List ReportRow) : Nat := (rows.map ReportRow.id).foldr max 0 + 1

/-- `UPDATE reports … WHERE id = ?` -/
def updateRow (rows : List ReportRow) (id : Nat) (f : ReportRow → ReportRow) : List ReportRow :=
  rows.map fun r => if r.id = id then f r else r

/-- The oldest queued report. -/
def oldestQueued (rows : List ReportRow) : Option ReportRow := rows.find? fun r => r.status = .queued

/-- `requeue_running` -/
def requeueRunning (rows : List ReportRow) : List ReportRow :=
  rows.map fun r => if r.status = .running then { r with status := .queued } else r

/-- `ids_created_before` -/
def idsCreatedBefore (rows : List ReportRow) (before : Int) : List (Nat × Nat) :=
  (rows.filter fun r => r.createdAt < before ∧ r.status ≠ .running).map fun r => (r.id, r.serial)

/-- `ids_beyond_keep` -/
def idsBeyondKeep (rows : List ReportRow) (scheduleId : String) (keep : Nat) : List (Nat × Nat) :=
  ((rows.filter fun r => r.scheduleId = some scheduleId ∧ (r.status = .done ∨ r.status = .failed)).reverse.drop
    keep).map fun r => (r.id, r.serial)

/-- What `DELETE FROM reports WHERE id = ? AND status != 'running'` is about. -/
def deletable (id : Nat) (r : ReportRow) : Bool := r.id = id && r.status ≠ .running

/-- `delete`: the rows left, and what was deleted. -/
def delete (rows : List ReportRow) : List Nat → List ReportRow × List (Nat × Nat)
  | [] => (rows, [])
  | i :: ids =>
      let rest := delete (rows.filter fun r => !deletable i r) ids
      match rows.find? (deletable i) with
      | some r => (rest.1, (i, r.serial) :: rest.2)
      | none => rest

/-! ## Files -/

/-- `_file_name`; the type and the last day make the stem. -/
def fileName (stem : String) (id : Nat) (fmt : ReportFormat) : String := s!"{stem}-{id}.{fmt.value}"

def fileAt (dirs : Nat → Option Dir) (id : Nat) (name : String) : Option Origin :=
  ((dirs id).bind fun dir => dir.find? fun f => f.1 = name).map Prod.snd

/-- `part.replace(out_dir / name)` -/
def Dir.replace (dir : Dir) (name : String) (o : Origin) : Dir := (name, o) :: dir.filter fun f => f.1 ≠ name

def Dir.unlink (dir : Dir) (name : String) : Dir := dir.filter fun f => f.1 ≠ name

/-- `report_file` -/
def World.reportFile (w : World) (id : Nat) (name : String) : Option Origin :=
  match w.rows.find? fun r => r.id = id with
  | some r => if r.status = .done ∧ name ∈ r.files then fileAt w.dirs id name else none
  | none => none

/-! ## Steps -/

/-- The ids that a removal or the job has in hand. -/
def World.pendingIds (w : World) : List Nat :=
  (w.removals.flatMap fun rm => rm.targets.map Prod.fst) ++ (w.job.map Job.id).toList

/-- A step of the job while it is busy. -/
def World.busy (w : World) (f : Job → World) : World :=
  match w.job with
  | some j => f j
  | none => w

def World.inPhase (w : World) (phase : Phase) (f : Job → World) : World :=
  w.busy fun j => if j.phase = phase then f j else w

def World.goTo (w : World) (j : Job) (phase : Phase) : World := { w with job := some { j with phase := phase } }

/-- `insert`, with `error_key` where the report cannot be made. -/
def World.insert (w : World) (scheduleId : Option String) (createdAt : Int) (reason : Option String) : World :=
  let id := nextId w.rows
  let row : ReportRow :=
    { id := id, serial := w.nextSerial, status := if reason.isSome then .failed else .queued,
      scheduleId := scheduleId, createdAt := createdAt, errorKey := reason, files := [], run := 0, emailOf := none,
      reused := id ∈ w.pendingIds }
  { w with rows := w.rows ++ [row], nextSerial := w.nextSerial + 1 }

/-- `claim_next` -/
def World.claimNext (w : World) : World :=
  match oldestQueued w.rows with
  | some r =>
      { w with
        rows := updateRow w.rows r.id fun r => { r with status := .running, run := w.nextRun }
        job := some ⟨r.id, r.serial, w.nextRun, .building⟩
        nextRun := w.nextRun + 1 }
  | none => w

/-- One turn of the loop of `_write`, or the failure of the first `open` after the directory went. -/
def World.write (w : World) (j : Job) (stem : String) (written : List String) (fmt : ReportFormat)
    (left : List ReportFormat) : World :=
  match w.dirs j.id with
  | some dir =>
      let name := fileName stem j.id fmt
      { w.goTo j (.writing stem (written ++ [name]) left) with
        dirs := Function.update w.dirs j.id (some (dir.replace name ⟨j.serial, j.run⟩)) }
  | none => w.goTo j (.failing "rpt_err_internal")

/-- `finish` of a report that was made, and whether it goes out by email. -/
def World.finishDone (w : World) (j : Job) (written : List String) (email : Bool) : World :=
  { w with
    rows := updateRow w.rows j.id fun r => { r with status := .done, files := written, errorKey := none }
    job := if email then some { j with phase := .mailing } else none }

/-- `finish` of a report that cannot be made. -/
def World.finishFailed (w : World) (j : Job) (key : String) : World :=
  { w with
    rows := updateRow w.rows j.id fun r => { r with status := .failed, files := [], errorKey := some key }
    job := none }

/-- `set_email` -/
def World.setEmail (w : World) (j : Job) : World :=
  { w with rows := updateRow w.rows j.id fun r => { r with emailOf := some j.serial } }

/-- A step of a removal. -/
def World.removing (w : World) (n : Nat) (f : Removal → World) : World :=
  match w.removals[n]? with
  | some rm => f rm
  | none => w

/-- A step of the removal's `rmtree`, which is at the first of its ids. -/
def World.clearing (w : World) (n : Nat) (f : Nat → List (Nat × Nat) → World) : World :=
  w.removing n fun rm =>
    match rm.deleted, rm.targets with
    | true, (id, _) :: rest => f id rest
    | _, _ => w

inductive Action where
  | enqueue (scheduleId : Option String) (createdAt : Int) (reason : Option String)
  /-- `recover_running`, once in the life of the process. -/
  | recover
  | claim
  /-- The document is built and the directory made. -/
  | built (stem : String) (formats : List ReportFormat)
  | write
  /-- Building or writing raises. -/
  | raises (key : String)
  | finish (email : Bool)
  | clear
  | record
  /-- The row says that the email is going out. -/
  | sending
  /-- It says how that went, and the job is over. -/
  | delivered
  /-- The job ends with an error of the database or of the email's files. -/
  | dies
  /-- The service stops. -/
  | crash
  /-- `remove_report` reads the row. -/
  | removeReport (id : Nat)
  /-- `run_report_retention` reads what is too old. -/
  | retention (before : Int)
  /-- It reads what is beyond a schedule's `keep`. -/
  | beyondKeep (n : Nat) (scheduleId : String) (keep : Nat)
  | delete (n : Nat)
  /-- `rmtree` removes a file. -/
  | unlink (n : Nat) (name : String)
  /-- It removes the directory where nothing is in it. -/
  | rmdir (n : Nat)
  /-- It is done with the directory; whatever it could not remove stays. -/
  | next (n : Nat)

def Action.apply (w : World) : Action → World
  | .enqueue scheduleId createdAt reason => w.insert scheduleId createdAt reason
  | .recover =>
      if w.recovered = false ∧ w.job.isNone then { w with rows := requeueRunning w.rows, recovered := true } else w
  | .claim => if w.recovered = true ∧ w.job.isNone then w.claimNext else w
  | .built stem formats =>
      w.inPhase .building fun j =>
        { w.goTo j (.writing stem [] formats) with
          dirs := Function.update w.dirs j.id (some ((w.dirs j.id).getD [])) }
  | .write =>
      w.busy fun j =>
        match j.phase with
        | .writing stem written (fmt :: left) => w.write j stem written fmt left
        | _ => w
  | .raises key =>
      w.busy fun j =>
        match j.phase with
        | .building | .writing .. => w.goTo j (.failing key)
        | _ => w
  | .finish email =>
      w.busy fun j =>
        match j.phase with
        | .writing _ written [] => w.finishDone j written email
        | _ => w
  | .clear =>
      w.busy fun j =>
        match j.phase with
        | .failing key => { w.goTo j (.cleared key) with dirs := Function.update w.dirs j.id none }
        | _ => w
  | .record =>
      w.busy fun j =>
        match j.phase with
        | .cleared key => w.finishFailed j key
        | _ => w
  | .sending => w.inPhase .mailing fun j => w.setEmail j
  | .delivered => w.inPhase .mailing fun j => { w.setEmail j with job := none }
  | .dies => { w with job := none }
  | .crash => { w with job := none, recovered := false, removals := [] }
  | .removeReport id =>
      match w.rows.find? fun r => r.id = id with
      | some r =>
          if r.status = .running then w
          else { w with removals := w.removals ++ [⟨[(r.id, r.serial)], false⟩] }
      | none => w
  | .retention before => { w with removals := w.removals ++ [⟨idsCreatedBefore w.rows before, false⟩] }
  | .beyondKeep n scheduleId keep =>
      w.removing n fun rm =>
        if rm.deleted then w
        else
          { w with
            removals := w.removals.set n { rm with targets := rm.targets ++ idsBeyondKeep w.rows scheduleId keep } }
  | .delete n =>
      w.removing n fun rm =>
        if rm.deleted then w
        else
          let left := ReportQueue.delete w.rows ((rm.targets.map Prod.fst).dedup.mergeSort fun a b => a ≤ b)
          { w with rows := left.1, removals := w.removals.set n ⟨left.2, true⟩ }
  | .unlink n name =>
      w.clearing n fun id _ =>
        { w with dirs := Function.update w.dirs id ((w.dirs id).map fun dir => dir.unlink name) }
  | .rmdir n =>
      w.clearing n fun id _ =>
        if w.dirs id = some [] then { w with dirs := Function.update w.dirs id none } else w
  | .next n => w.clearing n fun _ rest => { w with removals := w.removals.set n ⟨rest, true⟩ }

def after (actions : List Action) : World := actions.foldl Action.apply World.start

section
attribute [local simp] Action.apply
end

/-! ## What holds -/

/-- The report's own file is there, or the report was queued under an id still in hand and the file went with the
earlier report's. -/
def ReportRow.Has (dirs : Nat → Option Dir) (r : ReportRow) (name : String) : Prop :=
  fileAt dirs r.id name = some ⟨r.serial, r.run⟩ ∨ (r.reused = true ∧ fileAt dirs r.id name = none)

/-- Nothing half-made: only a finished report lists files, and all of them are there; only a failed one has an
error. -/
structure ReportRow.Sound (dirs : Nat → Option Dir) (r : ReportRow) : Prop where
  unmade : r.status = .queued ∨ r.status = .running → r.files = [] ∧ r.errorKey = none
  failed : r.status = .failed → r.files = [] ∧ r.errorKey.isSome
  done : r.status = .done → r.errorKey = none ∧ ∀ name ∈ r.files, r.Has dirs name
  mailed : ∀ s, r.emailOf = some s → s = r.serial ∨ r.reused = true

/-- The row that the job is making. -/
structure Job.Makes (j : Job) (dirs : Nat → Option Dir) (r : ReportRow) : Prop where
  id : r.id = j.id
  serial : r.serial = j.serial
  run : r.run = j.run
  status : r.status = .running
  written : ∀ stem written left, j.phase = .writing stem written left → ∀ name ∈ written, r.Has dirs name

/-- The job makes a report that is older than every queued one; an email is about its own report. -/
structure Job.Ok (rows : List ReportRow) (dirs : Nat → Option Dir) (j : Job) : Prop where
  making : j.phase ≠ .mailing →
    (∃ r ∈ rows, j.Makes dirs r) ∧ ∀ r ∈ rows, r.status = .queued → j.id < r.id
  mailing : j.phase = .mailing → ∀ r ∈ rows, r.id = j.id → r.serial = j.serial ∨ r.reused = true

/-- A removal deletes what it was asked for, and then has no row's files in hand, but for those of reports queued
under its ids. -/
def Removal.Ok (rows : List ReportRow) (rm : Removal) : Prop :=
  ∀ p ∈ rm.targets, ∀ r ∈ rows, r.id = p.1 → r.reused = true ∨ (rm.deleted = false ∧ r.serial = p.2)

structure World.Kept (w : World) : Prop where
  ordered : w.rows.Pairwise fun a b => a.id < b.id ∧ a.serial < b.serial
  fresh : ∀ r ∈ w.rows, r.serial < w.nextSerial
  sound : ∀ r ∈ w.rows, r.Sound w.dirs
  job : ∀ j, w.job = some j → j.Ok w.rows w.dirs
  removals : ∀ rm ∈ w.removals, rm.Ok w.rows

/-! ## The store's statements -/

section Store

variable {rows : List ReportRow} {r r' : ReportRow} {id : Nat}

/-- Ids are distinct. -/
theorem eq_of_id_eq (h : rows.Pairwise fun a b => a.id < b.id ∧ a.serial < b.serial) (hr : r ∈ rows)
    (hr' : r' ∈ rows) (hid : r.id = r'.id) : r = r' := by
  by_contra hne
  have hpair : rows.Pairwise fun a b => a.id ≠ b.id := h.imp fun hlt => Nat.ne_of_lt hlt.1
  have : Std.Symm fun a b : ReportRow => a.id ≠ b.id := ⟨fun _ _ hne => hne.symm⟩
  exact hpair.forall hr hr' hne hid

theorem lt_nextId (hr : r ∈ rows) : r.id < nextId rows := by
  unfold nextId
  induction rows with
  | nil => cases hr
  | cons q rows ih =>
    simp only [List.map_cons, List.foldr_cons]
    rcases List.mem_cons.1 hr with rfl | hr
    · omega
    · have := ih hr
      omega

/-- The oldest queued report is before all the others. -/
theorem oldestQueued_spec (h : rows.Pairwise fun a b => a.id < b.id ∧ a.serial < b.serial)
    (hr : oldestQueued rows = some r) :
    r ∈ rows ∧ r.status = .queued ∧ ∀ q ∈ rows, q.status = .queued → q.id ≠ r.id → r.id < q.id := by
  obtain ⟨hstatus, before, rest, rfl, hbefore⟩ := List.find?_eq_some_iff_append.1 hr
  refine ⟨by simp, by simpa using hstatus, fun q hq hqueued hne => ?_⟩
  rcases List.mem_append.1 hq with hq | hq
  · simpa [hqueued] using hbefore q hq
  · rcases List.mem_cons.1 hq with rfl | hq
    · exact absurd rfl hne
    · exact ((List.pairwise_cons.1 (List.pairwise_append.1 h).2.1).1 q hq).1

/-- What is left is what no deletion is about, and a deleted report's id is left to none. -/
theorem delete_spec (h : rows.Pairwise fun a b => a.id < b.id ∧ a.serial < b.serial) (ids : List Nat) :
    ((delete rows ids).1 = rows.filter fun r => ids.all fun i => !deletable i r) ∧
      ∀ p ∈ (delete rows ids).2, ∀ r ∈ (delete rows ids).1, r.id ≠ p.1 := by
  induction ids generalizing rows with
  | nil =>
    refine ⟨?_, fun p hp => nomatch hp⟩
    simp [delete]
  | cons i ids ih =>
    obtain ⟨hleft, hgone⟩ := ih (h.filter fun r => !deletable i r)
    have hrows : (delete (rows.filter fun r => !deletable i r) ids).1 =
        rows.filter fun r => (i :: ids).all fun i => !deletable i r := by
      rw [hleft, List.filter_filter]
      refine List.filter_congr fun r _ => ?_
      rw [List.all_cons, Bool.and_comm]
    unfold delete
    dsimp only
    cases hfound : rows.find? (deletable i) with
    | none => exact ⟨hrows, hgone⟩
    | some q =>
      refine ⟨hrows, fun p hp r hr => ?_⟩
      rcases List.mem_cons.1 hp with rfl | hp
      · -- the row of the id is the one that was deleted
        intro hid
        have hdel := List.find?_some hfound
        rw [hrows, List.mem_filter] at hr
        have hid' : q.id = i := by
          have := hdel
          simp only [deletable, Bool.and_eq_true, decide_eq_true_eq] at this
          exact this.1
        obtain rfl := eq_of_id_eq h hr.1 (List.mem_of_find?_eq_some hfound) (hid.trans hid'.symm)
        have hkept := hr.2
        rw [List.all_cons, hdel] at hkept
        cases hkept
      · exact hgone p hp r hr

theorem mem_idsCreatedBefore {before : Int} {p : Nat × Nat} (hp : p ∈ idsCreatedBefore rows before) :
    ∃ r ∈ rows, p = (r.id, r.serial) := by
  obtain ⟨r, hr, rfl⟩ := List.mem_map.1 hp
  exact ⟨r, (List.mem_filter.1 hr).1, rfl⟩

theorem mem_idsBeyondKeep {scheduleId : String} {keep : Nat} {p : Nat × Nat}
    (hp : p ∈ idsBeyondKeep rows scheduleId keep) : ∃ r ∈ rows, p = (r.id, r.serial) := by
  obtain ⟨r, hr, rfl⟩ := List.mem_map.1 hp
  exact ⟨r, (List.mem_filter.1 (List.mem_reverse.1 (List.mem_of_mem_drop hr))).1, rfl⟩

end Store

/-! ## Files -/

section Files

variable {dirs : Nat → Option Dir} {id i : Nat} {name n : String}

theorem fileAt_update_of_ne (h : i ≠ id) (dir : Option Dir) :
    fileAt (Function.update dirs id dir) i n = fileAt dirs i n := by
  unfold fileAt
  rw [Function.update_of_ne h]

/-- A directory that is made is empty. -/
theorem fileAt_mkdir : fileAt (Function.update dirs id (some ((dirs id).getD []))) i n = fileAt dirs i n := by
  by_cases hi : i = id
  · subst hi
    unfold fileAt
    rw [Function.update_self]
    cases dirs i <;> rfl
  · exact fileAt_update_of_ne hi _

theorem fileAt_rmdir (h : dirs id = some []) : fileAt (Function.update dirs id none) i n = fileAt dirs i n := by
  by_cases hi : i = id
  · subst hi
    unfold fileAt
    rw [Function.update_self, h]
    rfl
  · exact fileAt_update_of_ne hi _

theorem Dir.find_unlink (dir : Dir) (hn : n ≠ name) :
    (dir.unlink name).find? (fun f => f.1 = n) = dir.find? fun f => f.1 = n := by
  unfold Dir.unlink
  rw [List.find?_filter]
  congr 1
  funext f
  by_cases hf : f.1 = n
  · simp [hf, hn]
  · simp [hf]

theorem fileAt_replace {dir : Dir} (h : dirs id = some dir) (o : Origin) :
    fileAt (Function.update dirs id (some (dir.replace name o))) id n =
      if n = name then some o else fileAt dirs id n := by
  unfold fileAt
  rw [Function.update_self, h]
  by_cases hn : n = name
  · simp [Dir.replace, hn]
  · have hfind := Dir.find_unlink dir hn
    unfold Dir.unlink at hfind
    rw [if_neg hn]
    simp only [Option.bind_some, Dir.replace, List.find?_cons, decide_eq_false (Ne.symm hn), hfind]

theorem fileAt_unlink :
    fileAt (Function.update dirs id ((dirs id).map fun dir => dir.unlink name)) id n =
      if n = name then none else fileAt dirs id n := by
  unfold fileAt
  rw [Function.update_self]
  cases dirs id with
  | none => simp
  | some dir =>
    by_cases hn : n = name
    · subst hn
      simp [Dir.unlink]
    · rw [if_neg hn]
      simp only [Option.map_some, Option.bind_some, Dir.find_unlink dir hn]

variable {r : ReportRow} {dirs' : Nat → Option Dir}

theorem ReportRow.Has.congr (h : r.Has dirs n) (hfile : fileAt dirs' r.id n = fileAt dirs r.id n) :
    r.Has dirs' n := by
  unfold ReportRow.Has
  rw [hfile]
  exact h

/-- A file goes, of a report queued under an id that was still in hand. -/
theorem ReportRow.Has.unlinked (h : r.Has dirs n) (hreused : r.id = id → r.reused = true) :
    r.Has (Function.update dirs id ((dirs id).map fun dir => dir.unlink name)) n := by
  by_cases hid : r.id = id
  · subst hid
    unfold ReportRow.Has
    rw [fileAt_unlink]
    by_cases hn : n = name
    · rw [if_pos hn]
      exact Or.inr ⟨hreused rfl, rfl⟩
    · rw [if_neg hn]
      exact h
  · exact h.congr (fileAt_update_of_ne hid _)

/-- Other directories are left alone, and in its own a report's files stay where it lists any. -/
theorem ReportRow.Sound.congr (h : r.Sound dirs)
    (hfile : r.status = .done → ∀ name ∈ r.files, r.Has dirs name → r.Has dirs' name) : r.Sound dirs' where
  unmade := h.unmade
  failed := h.failed
  done hdone := ⟨(h.done hdone).1, fun name hname => hfile hdone name hname ((h.done hdone).2 name hname)⟩
  mailed := h.mailed

end Files

/-! ## Each step -/

section Steps

variable {w : World} {j : Job} {r q : ReportRow}

theorem kept_start : World.start.Kept where
  ordered := List.Pairwise.nil
  fresh _ hr := nomatch hr
  sound _ hr := nomatch hr
  job _ hj := nomatch hj
  removals _ hrm := nomatch hrm

/-- A running row shares its id with no finished one. -/
theorem World.Kept.ne_running (h : w.Kept) (hr : r ∈ w.rows) (hrunning : r.status = .running) (hq : q ∈ w.rows)
    (hdone : q.status = .done) : q.id ≠ r.id := by
  intro hid
  obtain rfl := eq_of_id_eq h.ordered hq hr hid
  rw [hdone] at hrunning
  cases hrunning

/-- An `UPDATE` of rows that leaves them what they are. -/
theorem World.Kept.edit (h : w.Kept) {g : ReportRow → ReportRow}
    (hg : ∀ r, (g r).id = r.id ∧ (g r).serial = r.serial ∧ (g r).reused = r.reused)
    (hsound : ∀ r ∈ w.rows, (g r).Sound w.dirs) (job : Option Job) (recovered : Bool) (nextRun : Nat)
    (hjob : ∀ j, job = some j → j.Ok (w.rows.map g) w.dirs) :
    World.Kept { w with rows := w.rows.map g, job := job, recovered := recovered, nextRun := nextRun } where
  ordered := by
    refine List.pairwise_map.2 (h.ordered.imp fun {a b} hab => ?_)
    rw [(hg a).1, (hg b).1, (hg a).2.1, (hg b).2.1]
    exact hab
  fresh := by
    intro r hr
    obtain ⟨q, hq, rfl⟩ := List.mem_map.1 hr
    rw [(hg q).2.1]
    exact h.fresh q hq
  sound := by
    intro r hr
    obtain ⟨q, hq, rfl⟩ := List.mem_map.1 hr
    exact hsound q hq
  job := hjob
  removals := by
    intro rm hrm p hp r hr hid
    obtain ⟨q, hq, rfl⟩ := List.mem_map.1 hr
    rw [(hg q).1] at hid
    rw [(hg q).2.1, (hg q).2.2]
    exact h.removals rm hrm p hp q hq hid

/-- The directories change, and what finished reports list stays. -/
theorem World.Kept.setDirs (h : w.Kept) {dirs : Nat → Option Dir} (job : Option Job)
    (hfiles : ∀ r ∈ w.rows, r.status = .done → ∀ name ∈ r.files, r.Has w.dirs name → r.Has dirs name)
    (hjob : ∀ j, job = some j → j.Ok w.rows dirs) : World.Kept { w with dirs := dirs, job := job } where
  ordered := h.ordered
  fresh := h.fresh
  sound r hr := (h.sound r hr).congr (hfiles r hr)
  job := hjob
  removals := h.removals

/-- Removals change, and have the same in hand or what is there. -/
theorem World.Kept.setRemovals (h : w.Kept) {removals : List Removal} (hok : ∀ rm ∈ removals, rm.Ok w.rows) :
    World.Kept { w with removals := removals } where
  ordered := h.ordered
  fresh := h.fresh
  sound := h.sound
  job := h.job
  removals := hok

theorem World.Kept.insert (h : w.Kept) (scheduleId : Option String) (createdAt : Int) (reason : Option String) :
    (w.insert scheduleId createdAt reason).Kept := by
  unfold World.insert
  dsimp only
  set new : ReportRow :=
    { id := nextId w.rows, serial := w.nextSerial, status := if reason.isSome then .failed else .queued,
      scheduleId := scheduleId, createdAt := createdAt, errorKey := reason, files := [], run := 0, emailOf := none,
      reused := nextId w.rows ∈ w.pendingIds } with hnew
  have hfailed : new.status = .failed ∨ new.status = .queued := by
    simp only [hnew]
    split <;> simp
  refine ⟨?_, fun r hr => ?_, fun r hr => ?_, fun j hj => ⟨fun hphase => ?_, fun hphase r hr hid => ?_⟩,
    fun rm hrm p hp r hr hid => ?_⟩
  · refine List.pairwise_append.2 ⟨h.ordered, List.pairwise_singleton _ _, fun a ha b hb => ?_⟩
    obtain rfl := List.mem_singleton.1 hb
    exact ⟨lt_nextId ha, h.fresh a ha⟩
  · rcases List.mem_append.1 hr with hr | hr
    · exact Nat.lt_succ_of_lt (h.fresh r hr)
    · obtain rfl := List.mem_singleton.1 hr
      exact Nat.lt_succ_self _
  · rcases List.mem_append.1 hr with hr | hr
    · exact h.sound r hr
    · obtain rfl := List.mem_singleton.1 hr
      refine ⟨fun hstatus => ⟨rfl, ?_⟩, fun hstatus => ⟨rfl, ?_⟩, fun hstatus => ?_, fun s hs => nomatch hs⟩
      · cases reason with
        | none => rfl
        | some key => rcases hstatus with hstatus | hstatus <;> cases hstatus
      · cases reason with
        | none => cases hstatus
        | some key => rfl
      · rcases hfailed with hne | hne <;> (rw [hne] at hstatus; cases hstatus)
  · obtain ⟨⟨r, hr, hmakes⟩, holdest⟩ := (h.job j hj).making hphase
    refine ⟨⟨r, List.mem_append_left _ hr, hmakes⟩, fun q hq hqueued => ?_⟩
    rcases List.mem_append.1 hq with hq | hq
    · exact holdest q hq hqueued
    · obtain rfl := List.mem_singleton.1 hq
      rw [← hmakes.id]
      exact lt_nextId hr
  · rcases List.mem_append.1 hr with hr | hr
    · exact (h.job j hj).mailing hphase r hr hid
    · -- the email of an earlier report with this id is under way
      obtain rfl := List.mem_singleton.1 hr
      refine Or.inr (decide_eq_true (List.mem_append_right _ ?_))
      have hid' : nextId w.rows = j.id := hid
      simp [show w.job = some j from hj, hid']
  · rcases List.mem_append.1 hr with hr | hr
    · exact h.removals rm hrm p hp r hr hid
    · obtain rfl := List.mem_singleton.1 hr
      have hid' : nextId w.rows = p.1 := hid
      refine Or.inl (decide_eq_true (List.mem_append_left _ (List.mem_flatMap.2 ⟨rm, hrm, ?_⟩)))
      exact List.mem_map.2 ⟨p, hp, hid'.symm⟩

theorem World.Kept.requeued (h : w.Kept) (hidle : w.job = none) :
    World.Kept { w with rows := requeueRunning w.rows, recovered := true } := by
  refine h.edit (fun r => ?_) (fun r hr => ?_) w.job true w.nextRun fun j hj => ?_
  · split <;> exact ⟨rfl, rfl, rfl⟩
  · have hsound := h.sound r hr
    split
    · rename_i hrunning
      exact ⟨fun _ => hsound.unmade (Or.inr hrunning), (nomatch ·), (nomatch ·), hsound.mailed⟩
    · exact hsound
  · rw [hidle] at hj
    cases hj

theorem World.Kept.claimNext (h : w.Kept) : w.claimNext.Kept := by
  unfold World.claimNext
  cases holdest : oldestQueued w.rows with
  | none => exact h
  | some r =>
    obtain ⟨hr, hqueued, hfirst⟩ := oldestQueued_spec h.ordered holdest
    dsimp only
    refine h.edit (fun q => by split <;> exact ⟨rfl, rfl, rfl⟩) (fun q hq => ?_) _ _ _ fun j hj => ?_
    · have hsound := h.sound q hq
      split
      · rename_i hid
        obtain rfl := eq_of_id_eq h.ordered hq hr hid
        exact ⟨fun _ => hsound.unmade (Or.inl hqueued), (nomatch ·), (nomatch ·), hsound.mailed⟩
      · exact hsound
    · obtain rfl := Option.some.inj hj
      refine ⟨fun _ => ⟨⟨_, List.mem_map_of_mem hr, ?_⟩, fun q hq hstatus => ?_⟩, fun hne => nomatch hne⟩
      · rw [if_pos rfl]
        exact ⟨rfl, rfl, rfl, rfl, fun _ _ _ hne => nomatch hne⟩
      · obtain ⟨q', hq', rfl⟩ := List.mem_map.1 hq
        by_cases hid : q'.id = r.id
        · rw [if_pos hid] at hstatus
          cases hstatus
        · rw [if_neg hid] at hstatus ⊢
          exact hfirst q' hq' hstatus hid

/-! ## The job -/

section

variable (hj : w.job = some j)
include hj

/-- Building, writing and failing leave the row and the queue alone. -/
theorem World.Kept.goTo (h : w.Kept) (hmaking : j.phase ≠ .mailing) {phase : Phase} {dirs : Nat → Option Dir}
    (hne : phase ≠ .mailing)
    (hfiles : ∀ r ∈ w.rows, r.id ≠ j.id → ∀ name, fileAt dirs r.id name = fileAt w.dirs r.id name)
    (hwritten : ∀ r, j.Makes w.dirs r → ∀ stem written left, phase = .writing stem written left →
      ∀ name ∈ written, r.Has dirs name) :
    World.Kept { w.goTo j phase with dirs := dirs } := by
  obtain ⟨⟨r, hr, hmakes⟩, holdest⟩ := (h.job j hj).making hmaking
  refine h.setDirs (some { j with phase := phase }) (fun q hq hdone name _ hhas => ?_) fun j' hj' => ?_
  · refine hhas.congr (hfiles q hq ?_ name)
    rw [← hmakes.id]
    exact h.ne_running hr hmakes.status hq hdone
  · obtain rfl := Option.some.inj hj'
    exact ⟨fun _ => ⟨⟨r, hr, hmakes.id, hmakes.serial, hmakes.run, hmakes.status, hwritten r hmakes⟩, holdest⟩,
      fun hmailing => absurd hmailing hne⟩

theorem World.Kept.write (h : w.Kept) {stem : String} {written : List String} {fmt : ReportFormat}
    {left : List ReportFormat} (hphase : j.phase = .writing stem written (fmt :: left)) :
    (w.write j stem written fmt left).Kept := by
  have hmaking : j.phase ≠ .mailing := by rw [hphase]; exact (nomatch ·)
  unfold World.write
  split
  · rename_i dir hdir
    refine h.goTo hj hmaking (nomatch ·) (fun q _ hid name => fileAt_update_of_ne hid _)
      fun r hmakes stem' written' left' heq n hn => ?_
    obtain ⟨rfl, rfl, rfl⟩ := Phase.writing.inj heq
    unfold ReportRow.Has
    rw [hmakes.id, fileAt_replace hdir]
    by_cases hname : n = fileName stem j.id fmt
    · rw [if_pos hname, hmakes.serial, hmakes.run]
      exact Or.inl rfl
    · rw [if_neg hname, ← hmakes.id]
      rcases List.mem_append.1 hn with hn | hn
      · exact hmakes.written _ _ _ hphase n hn
      · exact absurd (List.mem_singleton.1 hn) hname
  · exact h.goTo hj hmaking (nomatch ·) (fun _ _ _ _ => rfl) fun _ _ _ _ _ heq => nomatch heq

/-- The row that the job made is recorded: only that row changes. -/
theorem World.Kept.record (h : w.Kept) (hmaking : j.phase ≠ .mailing) {f : ReportRow → ReportRow} {job : Option Job}
    (hf : ∀ r, (f r).id = r.id ∧ (f r).serial = r.serial ∧ (f r).reused = r.reused)
    (hsound : ∀ r, j.Makes w.dirs r → r.Sound w.dirs → (f r).Sound w.dirs)
    (hjob : ∀ j', job = some j' → j'.id = j.id ∧ j'.serial = j.serial ∧ j'.phase = .mailing) :
    World.Kept { w with rows := updateRow w.rows j.id f, job := job } := by
  obtain ⟨⟨r, hr, hmakes⟩, -⟩ := (h.job j hj).making hmaking
  refine h.edit (fun q => ?_) (fun q hq => ?_) job w.recovered w.nextRun fun j' hj' => ?_
  · split
    · exact hf q
    · exact ⟨rfl, rfl, rfl⟩
  · split
    · rename_i hid
      obtain rfl := eq_of_id_eq h.ordered hq hr (hid.trans hmakes.id.symm)
      exact hsound q hmakes (h.sound q hq)
    · exact h.sound q hq
  · obtain ⟨hid, hserial, hphase⟩ := hjob j' hj'
    refine ⟨fun hne => absurd hphase hne, fun _ q hq hqid => Or.inl ?_⟩
    obtain ⟨q', hq', rfl⟩ := List.mem_map.1 hq
    have hsame : (if q'.id = j.id then f q' else q').id = q'.id ∧
        (if q'.id = j.id then f q' else q').serial = q'.serial := by
      split
      · exact ⟨(hf q').1, (hf q').2.1⟩
      · exact ⟨rfl, rfl⟩
    rw [hsame.1, hid] at hqid
    obtain rfl := eq_of_id_eq h.ordered hq' hr (hqid.trans hmakes.id.symm)
    rw [hsame.2, hserial, hmakes.serial]

theorem World.Kept.finishDone (h : w.Kept) {stem : String} {written : List String}
    (hphase : j.phase = .writing stem written []) (email : Bool) : (w.finishDone j written email).Kept := by
  refine h.record hj (by rw [hphase]; exact (nomatch ·)) (fun _ => ⟨rfl, rfl, rfl⟩) (fun r hmakes hsound => ?_) ?_
  · refine ⟨fun hne => ?_, (nomatch ·), fun _ => ⟨rfl, ?_⟩, hsound.mailed⟩
    · rcases hne with hne | hne <;> cases hne
    · exact hmakes.written _ _ _ hphase
  · intro j' hj'
    cases email with
    | false => cases hj'
    | true =>
      obtain rfl := Option.some.inj hj'
      exact ⟨rfl, rfl, rfl⟩

theorem World.Kept.finishFailed (h : w.Kept) {key : String} (hphase : j.phase = .cleared key) :
    (w.finishFailed j key).Kept := by
  refine h.record hj (by rw [hphase]; exact (nomatch ·)) (fun _ => ⟨rfl, rfl, rfl⟩) (fun r _ hsound => ?_)
    fun _ hj' => nomatch hj'
  refine ⟨fun hne => ?_, fun _ => ⟨rfl, rfl⟩, (nomatch ·), hsound.mailed⟩
  rcases hne with hne | hne <;> cases hne

/-- What the email did is said on the row with the id. -/
theorem World.Kept.setEmail (h : w.Kept) (hphase : j.phase = .mailing) : (w.setEmail j).Kept := by
  have hmailing := (h.job j hj).mailing hphase
  refine h.edit (fun q => by split <;> exact ⟨rfl, rfl, rfl⟩) (fun q hq => ?_) w.job w.recovered w.nextRun
    fun j' hj' => ?_
  · have hsound := h.sound q hq
    split
    · rename_i hid
      refine ⟨hsound.unmade, hsound.failed, hsound.done, fun s hs => ?_⟩
      obtain rfl := Option.some.inj hs
      exact (hmailing q hq hid).imp_left Eq.symm
    · exact hsound
  · obtain rfl := Option.some.inj (hj.symm.trans hj')
    refine ⟨fun hne => absurd hphase hne, fun _ q hq hid => ?_⟩
    obtain ⟨q', hq', rfl⟩ := List.mem_map.1 hq
    split at hid
    · rename_i hid'
      rw [if_pos hid']
      exact hmailing q' hq' hid'
    · contradiction

end

/-- The job is over, and where the service stopped nothing else goes on either. -/
theorem World.Kept.stop (h : w.Kept) {removals : List Removal} (hsub : removals ⊆ w.removals) {recovered : Bool} :
    World.Kept { w with job := none, recovered := recovered, removals := removals } where
  ordered := h.ordered
  fresh := h.fresh
  sound := h.sound
  job _ hj := nomatch hj
  removals rm hrm := h.removals rm (hsub hrm)

/-! ## Removals -/

/-- What a statement of a removal read. -/
theorem World.Kept.picked (h : w.Kept) {picks : List (Nat × Nat)}
    (hpicks : ∀ p ∈ picks, ∃ r ∈ w.rows, p = (r.id, r.serial)) : Removal.Ok w.rows ⟨picks, false⟩ := by
  intro p hp r hr hid
  obtain ⟨q, hq, rfl⟩ := hpicks p hp
  obtain rfl := eq_of_id_eq h.ordered hr hq hid
  exact Or.inr ⟨rfl, rfl⟩

theorem World.Kept.picks (h : w.Kept) {picks : List (Nat × Nat)}
    (hpicks : ∀ p ∈ picks, ∃ r ∈ w.rows, p = (r.id, r.serial)) :
    World.Kept { w with removals := w.removals ++ [⟨picks, false⟩] } := by
  refine h.setRemovals fun rm hrm => ?_
  rcases List.mem_append.1 hrm with hrm | hrm
  · exact h.removals rm hrm
  · obtain rfl := List.mem_singleton.1 hrm
    exact h.picked hpicks

theorem World.Kept.setRemoval (h : w.Kept) {n : Nat} {rm : Removal} (hok : rm.Ok w.rows) :
    World.Kept { w with removals := w.removals.set n rm } := by
  refine h.setRemovals fun rm' hrm => ?_
  rcases List.mem_or_eq_of_mem_set hrm with hrm | rfl
  · exact h.removals rm' hrm
  · exact hok

/-- Rows go, but for the running ones; the ids that are deleted are left to none. -/
theorem World.Kept.delete (h : w.Kept) (n : Nat) (ids : List Nat) :
    World.Kept
      { w with
        rows := (ReportQueue.delete w.rows ids).1
        removals := w.removals.set n ⟨(ReportQueue.delete w.rows ids).2, true⟩ } := by
  obtain ⟨hleft, hgone⟩ := delete_spec h.ordered ids
  have hsub : ∀ r ∈ (ReportQueue.delete w.rows ids).1, r ∈ w.rows := by
    intro r hr
    rw [hleft] at hr
    exact (List.mem_filter.1 hr).1
  refine ⟨?_, fun r hr => h.fresh r (hsub r hr), fun r hr => h.sound r (hsub r hr),
    fun j hj => ⟨fun hphase => ?_, fun hphase r hr => (h.job j hj).mailing hphase r (hsub r hr)⟩,
    fun rm hrm p hp r hr hid => ?_⟩
  · dsimp only
    rw [hleft]
    exact h.ordered.filter _
  · obtain ⟨⟨r, hr, hmakes⟩, holdest⟩ := (h.job j hj).making hphase
    refine ⟨⟨r, ?_, hmakes⟩, fun q hq => holdest q (hsub q hq)⟩
    dsimp only
    rw [hleft, List.mem_filter, List.all_eq_true]
    refine ⟨hr, fun i _ => ?_⟩
    simp [deletable, hmakes.status]
  · rcases List.mem_or_eq_of_mem_set hrm with hrm | rfl
    · exact h.removals rm hrm p hp r (hsub r hr) hid
    · exact absurd hid (hgone p hp r hr)

theorem removing_cases (w : World) (n : Nat) (f : Removal → World) :
    w.removing n f = w ∨ ∃ rm, w.removals[n]? = some rm ∧ w.removing n f = f rm := by
  unfold World.removing
  cases w.removals[n]? with
  | none => exact Or.inl rfl
  | some rm => exact Or.inr ⟨rm, rfl, rfl⟩

/-- A directory is cleared for a removal that has deleted rows: what is under its ids by now was queued late. -/
theorem World.Kept.clearing (h : w.Kept) (n : Nat) (f : Nat → List (Nat × Nat) → World)
    (hf : ∀ id rest, (∀ r ∈ w.rows, r.id = id → r.reused = true) → Removal.Ok w.rows ⟨rest, true⟩ →
      (f id rest).Kept) : (w.clearing n f).Kept := by
  unfold World.clearing
  rcases removing_cases w n _ with heq | ⟨rm, hrm, heq⟩ <;> rw [heq]
  · exact h
  · have hok := h.removals rm (List.mem_of_getElem? hrm)
    split
    · rename_i id serial rest hdeleted htargets
      refine hf id rest (fun r hr hid => ?_) fun p hp r hr hid => ?_
      · rcases hok (id, serial) (by rw [htargets]; exact List.mem_cons_self) r hr hid with hreused | ⟨hne, -⟩
        · exact hreused
        · rw [hdeleted] at hne
          cases hne
      · rcases hok p (by rw [htargets]; exact List.mem_cons_of_mem _ hp) r hr hid with hreused | ⟨hne, -⟩
        · exact Or.inl hreused
        · rw [hdeleted] at hne
          cases hne
    · exact h

/-- A file goes under the removal's hands. -/
theorem World.Kept.unlink (h : w.Kept) {id : Nat} (hreused : ∀ r ∈ w.rows, r.id = id → r.reused = true)
    (name : String) :
    World.Kept
      { w with dirs := Function.update w.dirs id ((w.dirs id).map fun dir => dir.unlink name) } := by
  refine h.setDirs w.job (fun r hr _ n _ hhas => hhas.unlinked (hreused r hr)) fun j hj => ?_
  refine ⟨fun hphase => ?_, (h.job j hj).mailing⟩
  obtain ⟨⟨r, hr, hmakes⟩, holdest⟩ := (h.job j hj).making hphase
  refine ⟨⟨r, hr, hmakes.id, hmakes.serial, hmakes.run, hmakes.status, ?_⟩, holdest⟩
  intro stem written left heq n hn
  exact (hmakes.written stem written left heq n hn).unlinked (hreused r hr)

theorem World.Kept.rmdir (h : w.Kept) {id : Nat} (hdir : w.dirs id = some []) :
    World.Kept { w with dirs := Function.update w.dirs id none } := by
  refine h.setDirs w.job (fun r hr _ n _ hhas => hhas.congr (fileAt_rmdir hdir)) fun j hj => ?_
  refine ⟨fun hphase => ?_, (h.job j hj).mailing⟩
  obtain ⟨⟨r, hr, hmakes⟩, holdest⟩ := (h.job j hj).making hphase
  refine ⟨⟨r, hr, hmakes.id, hmakes.serial, hmakes.run, hmakes.status, ?_⟩, holdest⟩
  intro stem written left heq n hn
  exact (hmakes.written stem written left heq n hn).congr (fileAt_rmdir hdir)

/-! ## Runs -/

theorem busy_cases (w : World) (f : Job → World) :
    w.busy f = w ∨ ∃ j, w.job = some j ∧ w.busy f = f j := by
  unfold World.busy
  cases w.job with
  | none => exact Or.inl rfl
  | some j => exact Or.inr ⟨j, rfl, rfl⟩

theorem inPhase_cases (w : World) (phase : Phase) (f : Job → World) :
    w.inPhase phase f = w ∨ ∃ j, w.job = some j ∧ j.phase = phase ∧ w.inPhase phase f = f j := by
  unfold World.inPhase
  rcases busy_cases w fun j => if j.phase = phase then f j else w with heq | ⟨j, hj, heq⟩ <;> rw [heq]
  · exact Or.inl rfl
  · split
    · exact Or.inr ⟨j, hj, ‹_›, rfl⟩
    · exact Or.inl rfl

theorem World.Kept.step (h : w.Kept) (a : Action) : (a.apply w).Kept := by
  cases a with
  | enqueue scheduleId createdAt reason => exact h.insert scheduleId createdAt reason
  | recover =>
    dsimp only [Action.apply]
    split
    · rename_i hidle
      exact h.requeued (Option.isNone_iff_eq_none.1 hidle.2)
    · exact h
  | claim =>
    dsimp only [Action.apply]
    split
    · exact h.claimNext
    · exact h
  | built stem formats =>
    dsimp only [Action.apply]
    rcases inPhase_cases w .building _ with heq | ⟨j, hj, hphase, heq⟩ <;> rw [heq]
    · exact h
    · refine h.goTo hj (by rw [hphase]; exact (nomatch ·)) (nomatch ·) (fun _ _ _ _ => fileAt_mkdir) ?_
      intro r _ stem' written left hwriting name hname
      obtain ⟨-, rfl, -⟩ := Phase.writing.inj hwriting
      cases hname
  | write =>
    dsimp only [Action.apply]
    rcases busy_cases w _ with heq | ⟨j, hj, heq⟩ <;> rw [heq]
    · exact h
    · split
      · exact h.write hj ‹_›
      · exact h
  | raises key =>
    dsimp only [Action.apply]
    rcases busy_cases w _ with heq | ⟨j, hj, heq⟩ <;> rw [heq]
    · exact h
    · split
      · exact h.goTo hj (by rename_i hphase; rw [hphase]; exact (nomatch ·)) (nomatch ·) (fun _ _ _ _ => rfl)
          fun _ _ _ _ _ hwriting => nomatch hwriting
      · exact h.goTo hj (by rename_i hphase; rw [hphase]; exact (nomatch ·)) (nomatch ·) (fun _ _ _ _ => rfl)
          fun _ _ _ _ _ hwriting => nomatch hwriting
      · exact h
  | finish email =>
    dsimp only [Action.apply]
    rcases busy_cases w _ with heq | ⟨j, hj, heq⟩ <;> rw [heq]
    · exact h
    · split
      · exact h.finishDone hj ‹_› email
      · exact h
  | clear =>
    dsimp only [Action.apply]
    rcases busy_cases w _ with heq | ⟨j, hj, heq⟩ <;> rw [heq]
    · exact h
    · split
      · exact h.goTo hj (by rename_i hphase; rw [hphase]; exact (nomatch ·)) (nomatch ·)
          (fun _ _ hid _ => fileAt_update_of_ne hid _) fun _ _ _ _ _ hwriting => nomatch hwriting
      · exact h
  | record =>
    dsimp only [Action.apply]
    rcases busy_cases w _ with heq | ⟨j, hj, heq⟩ <;> rw [heq]
    · exact h
    · split
      · exact h.finishFailed hj ‹_›
      · exact h
  | sending =>
    dsimp only [Action.apply]
    rcases inPhase_cases w .mailing _ with heq | ⟨j, hj, hphase, heq⟩ <;> rw [heq]
    · exact h
    · exact h.setEmail hj hphase
  | delivered =>
    dsimp only [Action.apply]
    rcases inPhase_cases w .mailing _ with heq | ⟨j, hj, hphase, heq⟩ <;> rw [heq]
    · exact h
    · exact (h.setEmail hj hphase).stop (List.Subset.refl _)
  | dies => exact h.stop (List.Subset.refl _)
  | crash => exact h.stop (List.nil_subset _)
  | removeReport id =>
    dsimp only [Action.apply]
    split
    · rename_i r hr
      split
      · exact h
      · refine h.picks fun p hp => ⟨r, List.mem_of_find?_eq_some hr, ?_⟩
        exact List.mem_singleton.1 hp
    · exact h
  | retention before => exact h.picks fun p hp => mem_idsCreatedBefore hp
  | beyondKeep n scheduleId keep =>
    dsimp only [Action.apply]
    rcases removing_cases w n _ with heq | ⟨rm, hrm, heq⟩ <;> rw [heq]
    · exact h
    · split
      · exact h
      · rename_i hpending
        refine h.setRemoval fun p hp r hr hid => ?_
        rcases List.mem_append.1 hp with hp | hp
        · exact h.removals rm (List.mem_of_getElem? hrm) p hp r hr hid
        · have hpicked : Removal.Ok w.rows ⟨idsBeyondKeep w.rows scheduleId keep, false⟩ :=
            h.picked fun p hp => mem_idsBeyondKeep hp
          exact (hpicked p hp r hr hid).imp_right fun hsame => ⟨by simpa using hpending, hsame.2⟩
  | delete n =>
    dsimp only [Action.apply]
    rcases removing_cases w n _ with heq | ⟨rm, -, heq⟩ <;> rw [heq]
    · exact h
    · split
      · exact h
      · exact h.delete n _
  | unlink n name => exact h.clearing n _ fun id _ hreused _ => h.unlink hreused name
  | rmdir n =>
    refine h.clearing n _ fun id _ _ _ => ?_
    split
    · exact h.rmdir ‹_›
    · exact h
  | next n => exact h.clearing n _ fun _ rest _ hrest => h.setRemoval hrest

theorem kept_foldl (h : w.Kept) (actions : List Action) : (actions.foldl Action.apply w).Kept := by
  induction actions generalizing w with
  | nil => exact h
  | cons a rest ih => exact ih (h.step a)

/-- What is served under an id was written by the run that made the report with the id. -/
def World.ServesOwn (w : World) : Prop :=
  ∀ id name o, w.reportFile id name = some o →
    ∃ r ∈ w.rows, r.id = id ∧ r.status = .done ∧ name ∈ r.files ∧ o = ⟨r.serial, r.run⟩

theorem World.Kept.servesOwn (h : w.Kept) : w.ServesOwn := by
  intro id name o ho
  unfold World.reportFile at ho
  split at ho
  · rename_i r hr
    split at ho
    · rename_i hlisted
      have hmem := List.mem_of_find?_eq_some hr
      have hid : r.id = id := by simpa using List.find?_some hr
      refine ⟨r, hmem, hid, hlisted.1, hlisted.2, ?_⟩
      rcases ((h.sound r hmem).done hlisted.1).2 name hlisted.2 with hfile | ⟨-, hfile⟩
      · rw [hid, ho] at hfile
        exact Option.some.inj hfile
      · rw [hid, ho] at hfile
        cases hfile
    · cases ho
  · cases ho

end Steps

/-- A report is removed, and the next one queued before the removed one's files go: it is finished without a file. -/
def reusedRun : List Action :=
  [.recover, .enqueue none 0 none, .claim, .built "audit" [.html], .write, .finish false,
    .removeReport 1, .delete 0, .enqueue none 1 none, .claim, .built "audit" [.html], .write, .finish false,
    .unlink 0 "audit-1.html"]

theorem reused_without_file :
    ((after reusedRun).rows.map fun r => (r.id, r.status, r.files)) = [(1, .done, ["audit-1.html"])] ∧
      (after reusedRun).reportFile 1 "audit-1.html" = none := by
  decide +kernel

end IllumioOps.ReportQueue
