import IllumioOps.Domain.Values
import Mathlib.Logic.Function.Basic

/-!
# The archive and what retention deletes

The archive writes a file for every complete day, between an entry in `archive_log` that says so and one that
says it is finished; a row that changes marks its day stale. Retention deletes rows of archived days only. A day
that is stale is written again, with the lines of its file whose rows are not stored any more, provided the
retention of now says that they may have been deleted: what retention deleted is in the file of its day as long
as no file is rewritten without it (`kept_of_spares`).

The module is about one kind of rows, flows or events; an event is a connection of its own. `deleted` has the
rows that retention deleted, without those whose file the retention of the archive removed since.
-/

set_option autoImplicit false

namespace IllumioOps.Archive

variable {κ γ β : Type}

/-! ## The store and the files -/

/-- A row of `flows` or `events`: its identity across rewrites, its connection, its time and the rest. -/
structure Row (κ γ β : Type) where
  key : κ
  conn : γ
  time : Int
  body : β
  deriving DecidableEq, Repr

def Row.day (r : Row κ γ β) : Int := dbDay r.time

/-- A row of `archive_log`; `rows` is none while the file is being written (`WRITING`). -/
structure Entry where
  rows : Option Nat
  stale : Bool
  deriving DecidableEq, Repr

/-- Where the archive job is with a day: its entry was made, its lines were read in one snapshot, or its file
was replaced by them. -/
inductive Phase (κ γ β : Type) where
  | next
  | begun (day : Int)
  | snapshot (day : Int) (lines : List (Row κ γ β))
  | replaced (day : Int) (count : Nat)

/-- A run of the archive job, with the day up to which retention may have thinned, and the one before which files
expire, if they do. -/
structure Job (κ γ β : Type) where
  thinned : Int
  expires : Option Int
  todo : List Int
  phase : Phase κ γ β

structure Store (κ γ β : Type) where
  rows : List (Row κ γ β)
  log : Int → Option Entry
  files : Int → Option (List (Row κ γ β))
  job : Option (Job κ γ β)
  deleted : List (Row κ γ β)

/-- `archived_days` -/
def archived (log : Int → Option Entry) (day : Int) : Bool :=
  match log day with
  | some e => e.rows.isSome && !e.stale
  | none => false

/-- `mark_stale` -/
def markStale (log : Int → Option Entry) (days : List Int) : Int → Option Entry := fun day =>
  if day ∈ days then (log day).map fun e => { e with stale := true } else log day

variable [DecidableEq κ] [DecidableEq γ]

/-! ## The writers -/

/-- What an upsert writes, new or changed: its days are marked, and those that the rows had before. -/
def upsert (s : Store κ γ β) (written : List (Row κ γ β)) : Store κ γ β :=
  let replaced := s.rows.filter fun r => r.key ∈ written.map Row.key
  { s with
    rows := (s.rows.filter fun r => r.key ∉ written.map Row.key) ++ written
    log := markStale s.log (replaced.map Row.day ++ written.map Row.day) }

/-- The row goes: the newest of its connection is older than the cutoff, and all of them lie on archived days. -/
def doomed (s : Store κ γ β) (cutoff : Int) (chosen : γ → Bool) (r : Row κ γ β) : Bool :=
  chosen r.conn && s.rows.all fun q => q.conn ≠ r.conn || (q.time < dbTime cutoff && archived s.log q.day)

/-- One batch of a retention run, over the connections of its page. -/
def retain (s : Store κ γ β) (cutoff : Int) (chosen : γ → Bool) : Store κ γ β :=
  { s with
    rows := s.rows.filter fun r => !doomed s cutoff chosen r
    deleted := s.deleted ++ s.rows.filter (doomed s cutoff chosen) }

/-! ## The archive job -/

/-- The days to write: complete, with rows, and not archived. -/
def archiveDays (s : Store κ γ β) (today : Int) : List Int :=
  ((s.rows.map Row.day).dedup.mergeSort).filter fun day => day < today && !archived s.log day

/-- `_archive`, to its first day. -/
def startArchive (s : Store κ γ β) (now : Int) (flowDays archiveRetention : Nat) : Job κ γ β :=
  { thinned := dbDay (now - days flowDays)
    expires := if 0 < archiveRetention then some (dbDay (now - days archiveRetention)) else none
    todo := archiveDays s (dbDay now)
    phase := .next }

/-- `_day_lines` -/
def dayLines (s : Store κ γ β) (day : Int) (keepOld : Bool) : List (Row κ γ β) :=
  (if keepOld then ((s.files day).getD []).filter fun r => s.rows.all fun q => q.key ≠ r.key else []) ++
    s.rows.filter fun r => r.day = day

/-- `finish`: the entry is left as it is where the day became stale, or is not being written. -/
def finish (log : Int → Option Entry) (day : Int) (count : Nat) : Int → Option Entry :=
  if log day = some ⟨none, false⟩ then Function.update log day (some ⟨some count, false⟩) else log

/-- The file of the day expires: it was written before the cutoff and has no rows in the store. -/
def expired (s : Store κ γ β) (cutoff day : Int) : Bool :=
  (s.log day).isSome && day < cutoff && s.rows.all fun r => r.day ≠ day

def expireFiles (s : Store κ γ β) (cutoff : Int) : Store κ γ β :=
  { s with
    log := fun day => if expired s cutoff day then none else s.log day
    files := fun day => if expired s cutoff day then none else s.files day
    deleted := s.deleted.filter fun r => !expired s cutoff r.day }

/-- The next step of the job. -/
def jobStep (s : Store κ γ β) (job : Job κ γ β) : Store κ γ β :=
  match job.phase with
  | .next =>
      match job.todo with
      | day :: rest =>
          { s with
            log := Function.update s.log day (some ⟨none, false⟩)
            job := some { job with todo := rest, phase := .begun day } }
      | [] =>
          match job.expires with
          | some cutoff => { expireFiles s cutoff with job := none }
          | none => { s with job := none }
  | .begun day => { s with job := some { job with phase := .snapshot day (dayLines s day (day ≤ job.thinned)) } }
  | .snapshot day lines =>
      { s with
        files := Function.update s.files day (some lines)
        job := some { job with phase := .replaced day lines.length } }
  | .replaced day count => { s with log := finish s.log day count, job := some { job with phase := .next } }

/-! ## The steps -/

inductive Action (κ γ β : Type) where
  | upserts (written : List (Row κ γ β))
  | retains (cutoff : Int) (chosen : γ → Bool)
  | archiveStarts (now : Int) (flowDays archiveRetention : Nat)
  | archiveSteps
  | archiveDies

def Action.apply (s : Store κ γ β) : Action κ γ β → Store κ γ β
  | .upserts written => upsert s written
  | .retains cutoff chosen => retain s cutoff chosen
  | .archiveStarts now flowDays archiveRetention =>
      if s.job.isNone then { s with job := some (startArchive s now flowDays archiveRetention) } else s
  | .archiveSteps =>
      match s.job with
      | some job => jobStep s job
      | none => s
  | .archiveDies => { s with job := none }

def after (s : Store κ γ β) (actions : List (Action κ γ β)) : Store κ γ β := actions.foldl Action.apply s

def empty : Store κ γ β := ⟨[], fun _ => none, fun _ => none, none, []⟩

/-! ## What is in a file -/

def InFile (files : Int → Option (List (Row κ γ β))) (r : Row κ γ β) : Prop :=
  ∃ lines, files r.day = some lines ∧ r ∈ lines

/-- A day that is being written: no row of it is deleted. -/
def Writing (log : Int → Option Entry) (day : Int) : Prop := ∃ e, log day = some e ∧ e.rows = none

/-- If no row of the day changed since its entry was made, `P` holds of those that are stored. -/
def FreshRows (s : Store κ γ β) (day : Int) (P : Row κ γ β → Prop) : Prop :=
  s.log day = some ⟨none, false⟩ → ∀ r ∈ s.rows, r.day = day → P r

/-- What the job holds of the day it writes. -/
def Job.Holds (s : Store κ γ β) (job : Job κ γ β) : Prop :=
  match job.phase with
  | .next => True
  | .begun day => Writing s.log day
  | .snapshot day lines => Writing s.log day ∧ (∀ r ∈ s.deleted, r.day = day → r ∈ lines) ∧
      FreshRows s day (· ∈ lines)
  | .replaced day _ => Writing s.log day ∧ FreshRows s day (InFile s.files)

/-- What is deleted, and what may be, is in the file of its day. -/
structure Kept (s : Store κ γ β) : Prop where
  deleted : ∀ r ∈ s.deleted, InFile s.files r
  archived : ∀ r ∈ s.rows, archived s.log r.day → InFile s.files r
  job : ∀ job, s.job = some job → job.Holds s

/-- When a file is about to be rewritten, what retention deleted from the day is spared: the day may have been
thinned by the retention of now, and the row is not stored again, or is stored as it was. -/
def Action.Spares (s : Store κ γ β) : Action κ γ β → Prop
  | .archiveSteps => ∀ job day, s.job = some job → job.phase = .begun day →
      ∀ r ∈ s.deleted, r.day = day → (day ≤ job.thinned ∧ ∀ q ∈ s.rows, q.key ≠ r.key) ∨ r ∈ s.rows
  | _ => True

section Steps

variable {s : Store κ γ β}

omit [DecidableEq κ] [DecidableEq γ] in
theorem not_archived_of_writing {log : Int → Option Entry} {day : Int} (h : Writing log day) :
    archived log day = false := by
  obtain ⟨e, he, hrows⟩ := h
  simp [archived, he, hrows]

omit [DecidableEq κ] [DecidableEq γ] in
theorem Writing.markStale {log : Int → Option Entry} {day : Int} (h : Writing log day) (days : List Int) :
    Writing (markStale log days) day := by
  obtain ⟨e, he, hrows⟩ := h
  by_cases hday : day ∈ days
  · exact ⟨{ e with stale := true }, by simp [Archive.markStale, hday, he], hrows⟩
  · exact ⟨e, by simp [Archive.markStale, hday, he], hrows⟩

omit [DecidableEq κ] [DecidableEq γ] in
/-- A day that was marked is not archived, and what is left of the others is as it was. -/
theorem markStale_fresh {log : Int → Option Entry} {days : List Int} {day : Int} {e : Entry}
    (h : markStale log days day = some e) (hfresh : e.stale = false) : day ∉ days ∧ log day = some e := by
  unfold markStale at h
  split at h
  · obtain ⟨e', -, rfl⟩ := Option.map_eq_some_iff.1 h
    cases hfresh
  · exact ⟨‹_›, h⟩

omit [DecidableEq κ] [DecidableEq γ] in
theorem archived_eq_true {log : Int → Option Entry} {day : Int} (h : archived log day = true) :
    ∃ e, log day = some e ∧ e.rows.isSome ∧ e.stale = false := by
  unfold archived at h
  split at h
  · rename_i e he
    rw [Bool.and_eq_true] at h
    exact ⟨e, he, h.1, by simpa using h.2⟩
  · cases h

omit [DecidableEq γ] in
/-- On a day that an upsert does not mark it writes nothing. -/
theorem mem_upsert {written : List (Row κ γ β)} {r : Row κ γ β} (hr : r ∈ (upsert s written).rows)
    {days : List Int} (hday : r.day ∉ days ++ written.map Row.day) : r ∈ s.rows := by
  rcases List.mem_append.1 hr with hr | hr
  · exact (List.mem_filter.1 hr).1
  · exact absurd (List.mem_append_right _ (List.mem_map_of_mem hr)) hday

omit [DecidableEq γ] in
theorem freshRows_upsert {written : List (Row κ γ β)} {day : Int} {P : Row κ γ β → Prop}
    (h : FreshRows s day P) : FreshRows (upsert s written) day P := by
  intro hfresh r hr hday
  obtain ⟨hunmarked, hlog⟩ := markStale_fresh hfresh rfl
  exact h hlog r (mem_upsert hr (hday ▸ hunmarked)) hday

omit [DecidableEq γ] in
theorem Kept.upsert (h : Kept s) (written : List (Row κ γ β)) : Kept (upsert s written) where
  deleted := h.deleted
  archived r hr harchived := by
    obtain ⟨e, he, hrows, hfresh⟩ := archived_eq_true harchived
    obtain ⟨hunmarked, hlog⟩ := markStale_fresh he hfresh
    refine h.archived r (mem_upsert hr hunmarked) ?_
    simp [Archive.archived, hlog, hrows, hfresh]
  job job hjob := by
    have hholds := h.job job hjob
    unfold Job.Holds at hholds ⊢
    split
    · trivial
    · rename_i hphase
      rw [hphase] at hholds
      exact hholds.markStale _
    · rename_i hphase
      rw [hphase] at hholds
      exact ⟨hholds.1.markStale _, hholds.2.1, freshRows_upsert hholds.2.2⟩
    · rename_i hphase
      rw [hphase] at hholds
      exact ⟨hholds.1.markStale _, freshRows_upsert hholds.2⟩

omit [DecidableEq κ] in
/-- A row that goes lies on an archived day. -/
theorem archived_of_doomed {cutoff : Int} {chosen : γ → Bool} {r : Row κ γ β} (hr : r ∈ s.rows)
    (h : doomed s cutoff chosen r = true) : archived s.log r.day = true := by
  unfold doomed at h
  rw [Bool.and_eq_true, List.all_eq_true] at h
  have hown := h.2 r hr
  simp only [ne_eq, not_true_eq_false, decide_false, Bool.false_or, Bool.and_eq_true] at hown
  exact hown.2

omit [DecidableEq κ] in
theorem Kept.retain (h : Kept s) (cutoff : Int) (chosen : γ → Bool) : Kept (retain s cutoff chosen) where
  deleted r hr := by
    rcases List.mem_append.1 hr with hr | hr
    · exact h.deleted r hr
    · obtain ⟨hmem, hdoomed⟩ := List.mem_filter.1 hr
      exact h.archived r hmem (archived_of_doomed hmem hdoomed)
  archived r hr := h.archived r (List.mem_filter.1 hr).1
  job job hjob := by
    have hholds := h.job job hjob
    have hfresh : ∀ {day P}, FreshRows s day P → FreshRows (Archive.retain s cutoff chosen) day P :=
      fun hrows hlog r hr => hrows hlog r (List.mem_filter.1 hr).1
    unfold Job.Holds at hholds ⊢
    split
    · trivial
    · rename_i hphase
      rw [hphase] at hholds
      exact hholds
    · rename_i day lines hphase
      rw [hphase] at hholds
      refine ⟨hholds.1, fun r hr hday => ?_, hfresh hholds.2.2⟩
      rcases List.mem_append.1 hr with hr | hr
      · exact hholds.2.1 r hr hday
      · -- no row of a day that is being written goes
        obtain ⟨hmem, hdoomed⟩ := List.mem_filter.1 hr
        have hnot := not_archived_of_writing hholds.1
        rw [← hday, archived_of_doomed hmem hdoomed] at hnot
        cases hnot
    · rename_i hphase
      rw [hphase] at hholds
      exact ⟨hholds.1, hfresh hholds.2⟩

omit [DecidableEq κ] [DecidableEq γ] in
theorem archived_update {log : Int → Option Entry} {day day' : Int} {count : Option Nat}
    (h : archived (Function.update log day (some ⟨count, false⟩)) day' = true) :
    (day' = day ∧ count.isSome) ∨ (day' ≠ day ∧ archived log day' = true) := by
  by_cases hday : day' = day
  · subst hday
    refine Or.inl ⟨rfl, ?_⟩
    simpa [archived] using h
  · refine Or.inr ⟨hday, ?_⟩
    simpa [archived, Function.update_of_ne hday] using h

omit [DecidableEq κ] [DecidableEq γ] in
theorem inFile_update {files : Int → Option (List (Row κ γ β))} {day : Int} {lines : List (Row κ γ β)}
    {r : Row κ γ β} (h : r.day ≠ day → InFile files r) (hlines : r.day = day → r ∈ lines) :
    InFile (Function.update files day (some lines)) r := by
  by_cases hday : r.day = day
  · exact ⟨lines, by rw [hday, Function.update_self], hlines hday⟩
  · obtain ⟨lines', hfile, hr⟩ := h hday
    exact ⟨lines', by rw [Function.update_of_ne hday]; exact hfile, hr⟩

omit [DecidableEq κ] [DecidableEq γ] in
/-- The day begins: it is not archived until it is finished. -/
theorem Kept.begin (h : Kept s) (job : Job κ γ β) (day : Int) (rest : List Int) :
    Kept { s with
      log := Function.update s.log day (some ⟨none, false⟩)
      job := some { job with todo := rest, phase := .begun day } } where
  deleted := h.deleted
  archived r hr harchived := by
    rcases archived_update harchived with ⟨-, hcount⟩ | ⟨-, hbefore⟩
    · cases hcount
    · exact h.archived r hr hbefore
  job job' hjob := by
    obtain rfl := Option.some.inj hjob
    exact ⟨⟨none, false⟩, Function.update_self .., rfl⟩

omit [DecidableEq γ] in
/-- The snapshot: the day's rows, and of its file what retention deleted, where it is spared. -/
theorem Kept.snapshot (h : Kept s) {job : Job κ γ β} {day : Int} (hjob : s.job = some job)
    (hphase : job.phase = .begun day)
    (hspares : ∀ r ∈ s.deleted, r.day = day →
      (day ≤ job.thinned ∧ ∀ q ∈ s.rows, q.key ≠ r.key) ∨ r ∈ s.rows) :
    Kept { s with job := some { job with phase := .snapshot day (dayLines s day (day ≤ job.thinned)) } } where
  deleted := h.deleted
  archived := h.archived
  job job' hjob' := by
    obtain rfl := Option.some.inj hjob'
    have hwriting : Writing s.log day := by
      have hholds := h.job job hjob
      unfold Job.Holds at hholds
      rw [hphase] at hholds
      exact hholds
    have hrows : ∀ r ∈ s.rows, r.day = day → r ∈ dayLines s day (day ≤ job.thinned) := fun r hr hday =>
      List.mem_append_right _ (List.mem_filter.2 ⟨hr, by simpa using hday⟩)
    refine ⟨hwriting, fun r hr hday => ?_, fun _ => hrows⟩
    rcases hspares r hr hday with ⟨hthinned, hkey⟩ | hstored
    · obtain ⟨lines, hfile, hline⟩ := h.deleted r hr
      rw [hday] at hfile
      refine List.mem_append_left _ ?_
      rw [if_pos (by simpa using hthinned), hfile]
      exact List.mem_filter.2 ⟨hline, by simpa using hkey⟩
    · exact hrows r hstored hday

omit [DecidableEq κ] [DecidableEq γ] in
/-- The file is replaced. -/
theorem Kept.replace (h : Kept s) {job : Job κ γ β} {day : Int} {lines : List (Row κ γ β)}
    (hwriting : Writing s.log day) (hdeleted : ∀ r ∈ s.deleted, r.day = day → r ∈ lines)
    (hfresh : FreshRows s day (· ∈ lines)) :
    Kept { s with
      files := Function.update s.files day (some lines)
      job := some { job with phase := .replaced day lines.length } } where
  deleted r hr := inFile_update (fun _ => h.deleted r hr) (hdeleted r hr)
  archived r hr harchived := by
    have hday : r.day ≠ day := fun heq => by
      rw [heq, not_archived_of_writing hwriting] at harchived
      cases harchived
    exact inFile_update (fun _ => h.archived r hr harchived) fun heq => absurd heq hday
  job job' hjob := by
    obtain rfl := Option.some.inj hjob
    exact ⟨hwriting, fun hlog r hr hday =>
      inFile_update (fun hne => absurd hday hne) fun _ => hfresh hlog r hr hday⟩

omit [DecidableEq κ] [DecidableEq γ] in
/-- The entry is finished, where no row of the day has changed. -/
theorem Kept.finish (h : Kept s) {job : Job κ γ β} {day : Int} {count : Nat}
    (hfresh : FreshRows s day (InFile s.files)) :
    Kept { s with log := finish s.log day count, job := some { job with phase := .next } } where
  deleted := h.deleted
  archived r hr harchived := by
    unfold Archive.finish at harchived
    split at harchived
    · rename_i hlog
      rcases archived_update harchived with ⟨hday, -⟩ | ⟨-, hbefore⟩
      · exact hfresh hlog r hr hday
      · exact h.archived r hr hbefore
    · exact h.archived r hr harchived
  job job' hjob := by
    obtain rfl := Option.some.inj hjob
    trivial

omit [DecidableEq κ] [DecidableEq γ] in
theorem Kept.expireFiles (h : Kept s) (cutoff : Int) :
    Kept { expireFiles s cutoff with job := none } where
  deleted r hr := by
    obtain ⟨hmem, hkept⟩ := List.mem_filter.1 hr
    obtain ⟨lines, hfile, hline⟩ := h.deleted r hmem
    refine ⟨lines, ?_, hline⟩
    simp only [Archive.expireFiles]
    rw [if_neg (by simpa using hkept)]
    exact hfile
  archived r hr harchived := by
    -- a day with rows does not expire
    have hnot : expired s cutoff r.day = false := by
      rw [Bool.eq_false_iff]
      intro hexpired
      simp only [expired, Bool.and_eq_true, List.all_eq_true] at hexpired
      have hne : r.day ≠ r.day := of_decide_eq_true (hexpired.2 r hr)
      exact hne rfl
    obtain ⟨lines, hfile, hline⟩ := h.archived r hr (by
      simpa [Archive.archived, Archive.expireFiles, hnot] using harchived)
    exact ⟨lines, by simpa [Archive.expireFiles, hnot] using hfile, hline⟩
  job _ hjob := nomatch hjob

omit [DecidableEq κ] [DecidableEq γ] in
theorem Kept.endJob (h : Kept s) : Kept { s with job := none } :=
  ⟨h.deleted, h.archived, fun _ hjob => nomatch hjob⟩

omit [DecidableEq γ] in
theorem Kept.jobStep (h : Kept s) {job : Job κ γ β} (hjob : s.job = some job)
    (hspares : (Action.archiveSteps : Action κ γ β).Spares s) : Kept (jobStep s job) := by
  have hholds := h.job job hjob
  unfold Archive.jobStep
  unfold Job.Holds at hholds
  split
  · split
    · exact h.begin job _ _
    · split
      · exact h.expireFiles _
      · exact h.endJob
  · rename_i day hphase
    exact h.snapshot hjob hphase (hspares job day hjob hphase)
  · rename_i day lines hphase
    rw [hphase] at hholds
    exact h.replace hholds.1 hholds.2.1 hholds.2.2
  · rename_i day count hphase
    rw [hphase] at hholds
    exact h.finish hholds.2

theorem Kept.step (h : Kept s) (a : Action κ γ β) (hspares : a.Spares s) : Kept (a.apply s) := by
  cases a with
  | upserts written => exact h.upsert written
  | retains cutoff chosen => exact h.retain cutoff chosen
  | archiveStarts now flowDays archiveRetention =>
    simp only [Action.apply]
    split
    · exact ⟨h.deleted, h.archived, fun job hjob => by
        obtain rfl := Option.some.inj hjob
        trivial⟩
    · exact h
  | archiveSteps =>
    simp only [Action.apply]
    split
    · exact h.jobStep ‹_› hspares
    · exact h
  | archiveDies => exact h.endJob

end Steps

/-- Every step of a run, in the state before it. -/
def AllSpare (s : Store κ γ β) : List (Action κ γ β) → Prop
  | [] => True
  | a :: rest => a.Spares s ∧ AllSpare (a.apply s) rest

theorem Kept.after {s : Store κ γ β} (h : Kept s) (actions : List (Action κ γ β)) (hspare : AllSpare s actions) :
    Kept (after s actions) := by
  induction actions generalizing s with
  | nil => exact h
  | cons a rest ih => exact ih (h.step a hspare.1) hspare.2

omit [DecidableEq κ] [DecidableEq γ] in
theorem kept_empty : Kept (empty : Store κ γ β) :=
  ⟨fun _ hr => absurd hr List.not_mem_nil, fun _ hr => absurd hr List.not_mem_nil, fun _ hjob => nomatch hjob⟩

/-- Whatever the order of upserts, retention and archive runs, and wherever a run stops: what retention deleted is
in the file of its day, as it was, until that file expires, if every file that is rewritten spares it. -/
theorem kept_of_spares (actions : List (Action κ γ β)) (hspare : AllSpare empty actions) :
    ∀ r ∈ (after empty actions).deleted, InFile (after empty actions).files r :=
  (kept_empty.after actions hspare).deleted

omit [DecidableEq κ] [DecidableEq γ] in
/-- Where nothing was deleted nothing has to be spared. -/
theorem spares_of_nil {s : Store κ γ β} (h : s.deleted = []) : (Action.archiveSteps : Action κ γ β).Spares s := by
  intro job day _ _ r hr
  rw [h] at hr
  cases hr

/-- A row of the first day, one found for it later, and a run of the archive that writes one day. -/
def firstRow : Row Nat Nat Unit := ⟨1, 1, 0, ()⟩
def lateRow : Row Nat Nat Unit := ⟨2, 2, 0, ()⟩

def archiveRun (flowDays : Nat) : List (Action Nat Nat Unit) :=
  [.archiveStarts (days 5) flowDays 0, .archiveSteps, .archiveSteps, .archiveSteps, .archiveSteps, .archiveSteps]

/-- The day is archived, and deleted afterwards. -/
def archivedDay : List (Action Nat Nat Unit) :=
  .upserts [firstRow] :: (archiveRun 1 ++ [.retains (days 4) fun _ => true])

/-- It is written again for a late row. -/
def lateDay (flowDays : Nat) : List (Action Nat Nat Unit) :=
  archivedDay ++ .upserts [lateRow] :: archiveRun flowDays

theorem kept_of_spares_archived :
    firstRow ∈ (after empty archivedDay).deleted ∧
      ∀ r ∈ (after empty archivedDay).deleted, InFile (after empty archivedDay).files r :=
  ⟨by decide +kernel, kept_of_spares archivedDay
    ⟨trivial, trivial, spares_of_nil (by decide +kernel), spares_of_nil (by decide +kernel),
      spares_of_nil (by decide +kernel), spares_of_nil (by decide +kernel), spares_of_nil (by decide +kernel),
      trivial, trivial⟩⟩

/-- The retention is raised before a late row comes: the file is written again without the row that was
deleted. -/
theorem deleted_left_out :
    ¬ ∀ actions : List (Action Nat Nat Unit), ∀ r ∈ (after empty actions).deleted,
      InFile (after empty actions).files r := by
  intro h
  obtain ⟨lines, hfile, hr⟩ := h (lateDay 30) firstRow (by decide +kernel)
  have hlate : (after empty (lateDay 30)).files firstRow.day = some [lateRow] := by decide +kernel
  obtain rfl := Option.some.inj (hfile.symm.trans hlate)
  exact absurd hr (by decide)

end IllumioOps.Archive
