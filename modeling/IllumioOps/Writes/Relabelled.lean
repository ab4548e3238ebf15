import IllumioOps.Writes.Quarantine

/-!
# What a write of labels carries

Of the labels read for a workload, a write carries each object with an href that is not of the key
`Quarantine`, by its key or by its href, and at most the label that was asked for
(`Change.Relabelled`). An apply of `_change` ends with its results exactly when the answers it read
are JSON and the hrefs it looked up are not arrays or objects (`Change.CanEnd`).
-/

set_option autoImplicit false

namespace IllumioOps.PceWrites

open Programs SiemText

/-! ## The labels of a workload -/

/-- The href of a Quarantine label. -/
def knownHref (every : LabelDict) : Json → Bool
  | .str href => (every.lookup href).isSome
  | _ => false

/-- A Quarantine label, by its key or by its href. -/
def ofQuarantine (every : LabelDict) (lb : Json) : Bool :=
  isText quarantineKey (lb.get "key") || knownHref every (lb.get "href")

/-- A label that a write has to carry. -/
def carried (every : LabelDict) (lb : Json) : Bool :=
  lb.isObj && (lb.get "href").truthy && !ofQuarantine every lb

/-- The labels that a write sends: those to be carried, by their hrefs, and the one asked for. -/
def sentLabels (py : Python) (every : LabelDict) (labels : List Json) (target : Option String) :
    List Json :=
  (labels.filter (carried every)).map (fun lb => hrefLabel (strOf py (lb.get "href"))) ++
    requestedLabel target

/-- The first Quarantine label is found: no label before it has an array or object for an href. -/
def previousReads (every : LabelDict) (labels : List Json) : Bool :=
  (labels.takeWhile fun lb => !ofQuarantine every lb).all fun lb => hashable (lb.get "href")

/-- A label that `relabel` keeps or leaves out: of another key, its href is not a list or a dict
with members. -/
def relabelReads (lb : Json) : Bool :=
  isText quarantineKey (lb.get "key") || !(lb.get "href").truthy || hashable (lb.get "href")

/-- The hrefs of a workload's labels can be looked up. -/
def hrefsRead (every : LabelDict) (labels : List Json) : Bool :=
  previousReads every labels && labels.all relabelReads

section

variable {py : Python} {every : LabelDict} {labels : List Json} {value lb : Json}

theorem hashable_of_known (h : knownHref every value = true) : hashable value = true := by
  cases value <;> first | rfl | exact absurd h (by simp [knownHref])

theorem find_of_hashable (every : LabelDict) (h : hashable value = true) :
    ∃ level, every.find value = .ok level ∧ level.isSome = knownHref every value := by
  unfold LabelDict.find
  rw [if_pos h]
  cases value <;> exact ⟨_, rfl, rfl⟩

theorem find_of_not_hashable (h : hashable value = false) :
    every.find value = .error .unhashable := by
  unfold LabelDict.find
  rw [if_neg (by simp [h])]

/-- What `_previous` finds, or that it raises. -/
theorem previousLevel_cases (py : Python) (every : LabelDict) (labels : List Json) :
    (previousReads every labels = true ∧ ∃ previous, previousLevel py every labels = .ok previous ∧
        (previous = none → ∀ lb ∈ labels, hashable (lb.get "href") = true)) ∨
      (previousReads every labels = false ∧
        previousLevel py every labels = .error .unhashable) := by
  induction labels with
  | nil => exact Or.inl ⟨rfl, none, rfl, fun _ _ h => absurd h List.not_mem_nil⟩
  | cons lb labels ih =>
      unfold previousLevel
      by_cases hkey : isText quarantineKey (lb.get "key") = true
      · -- of the key itself: the search ends here
        rw [if_pos hkey]
        refine Or.inl ⟨?_, _, rfl, fun h => absurd h (by simp)⟩
        simp [previousReads, ofQuarantine, hkey]
      · rw [if_neg hkey]
        by_cases hhash : hashable (lb.get "href") = true
        · obtain ⟨level, hfind, hknown⟩ := find_of_hashable every hhash
          rw [hfind]
          cases level with
          | some level =>
              -- of a known href
              have hknown : knownHref every (lb.get "href") = true := hknown.symm
              refine Or.inl ⟨?_, _, rfl, fun h => absurd h (by simp)⟩
              simp [previousReads, ofQuarantine, hknown]
          | none =>
              have hknown : knownHref every (lb.get "href") = false := hknown.symm
              have hreads : previousReads every (lb :: labels) = previousReads every labels := by
                simp [previousReads, ofQuarantine, hkey, hknown, hhash]
              rw [hreads]
              rcases ih with ⟨hread, previous, hprevious, hnone⟩ | hraise
              · refine Or.inl ⟨hread, previous, hprevious, fun h lb' hlb => ?_⟩
                rcases List.mem_cons.1 hlb with rfl | hlb
                · exact hhash
                · exact hnone h lb' hlb
              · exact Or.inr hraise
        · have hhash : hashable (lb.get "href") = false := by simpa using hhash
          have hknown : knownHref every (lb.get "href") = false := by
            by_contra hknown
            exact absurd (hashable_of_known (by simpa using hknown)) (by simp [hhash])
          rw [find_of_not_hashable hhash]
          refine Or.inr ⟨?_, rfl⟩
          simp [previousReads, ofQuarantine, hkey, hknown, hhash]

/-- The labels kept are the ones that have to be carried, by their hrefs. -/
theorem keptLabels_eq (hobj : ∀ lb ∈ labels, lb.isObj = true)
    (hread : labels.all relabelReads = true) :
    keptLabels py every labels =
      .ok ((labels.filter (carried every)).map fun lb => hrefLabel (strOf py (lb.get "href"))) := by
  induction labels with
  | nil => rfl
  | cons lb labels ih =>
      rw [List.all_cons, Bool.and_eq_true] at hread
      have hrest := ih (fun lb' h => hobj lb' (List.mem_cons_of_mem lb h)) hread.2
      have hlb := hobj lb List.mem_cons_self
      have hhead := hread.1
      unfold keptLabels
      by_cases hkeep : ((lb.get "href").truthy && !isText quarantineKey (lb.get "key")) = true
      · rw [if_pos hkeep]
        obtain ⟨htruthy, hkey⟩ := Bool.and_eq_true_iff.1 hkeep
        have hkey : isText quarantineKey (lb.get "key") = false := by simpa using hkey
        have hhash : hashable (lb.get "href") = true := by
          simpa [relabelReads, hkey, htruthy] using hhead
        obtain ⟨level, hfind, hknown⟩ := find_of_hashable every hhash
        rw [hfind, hrest]
        cases level with
        | some level =>
            have hcarried : carried every lb = false := by
              simp [carried, ofQuarantine, hlb, ← hknown]
            rw [List.filter_cons_of_neg (by simp [hcarried])]
        | none =>
            have hcarried : carried every lb = true := by
              simp [carried, ofQuarantine, hlb, htruthy, hkey, ← hknown]
            rw [List.filter_cons_of_pos hcarried]
            rfl
      · rw [if_neg hkeep, hrest]
        have hcarried : carried every lb = false := by
          by_contra hcarried
          simp only [Bool.not_eq_false, carried, ofQuarantine, Bool.and_eq_true,
            Bool.not_eq_true', Bool.or_eq_false_iff] at hcarried
          exact hkeep (by simp [hcarried.1.2, hcarried.2.1])
        rw [List.filter_cons_of_neg (by simp [hcarried])]

theorem keptLabels_error (hread : labels.all relabelReads = false) :
    keptLabels py every labels = .error .unhashable := by
  induction labels with
  | nil => exact absurd hread (by simp)
  | cons lb labels ih =>
      unfold keptLabels
      by_cases hhead : relabelReads lb = true
      · have hrest : labels.all relabelReads = false := by simpa [hhead] using hread
        rw [ih hrest]
        split
        · split
          · next e hfind =>
            -- of what relabel reads nothing raises but a container
            unfold LabelDict.find at hfind
            split at hfind
            · split at hfind <;> exact absurd hfind (by simp)
            · exact congrArg Except.error (Except.error.inj hfind).symm
          · rfl
          · rfl
        · rfl
      · have hhead : relabelReads lb = false := by simpa using hhead
        simp only [relabelReads, Bool.or_eq_false_iff, Bool.not_eq_false'] at hhead
        rw [if_pos (by simp [hhead]), find_of_not_hashable hhead.2]

/-- Of the objects among the labels read, `relabel` gives what a write has to send. -/
theorem relabel_eq {target : Option String}
    (hread : (labels.filter Json.isObj).all relabelReads = true) :
    relabel py (labels.filter Json.isObj) target every =
      .ok (sentLabels py every labels target) := by
  have hobj : ∀ lb ∈ labels.filter Json.isObj, lb.isObj = true :=
    fun lb hlb => (List.mem_filter.1 hlb).2
  have hcarried : (labels.filter Json.isObj).filter (carried every) =
      labels.filter (carried every) := by
    rw [List.filter_filter]
    apply List.filter_congr
    intro lb _
    cases hlb : lb.isObj <;> simp [carried, hlb]
  unfold relabel
  rw [keptLabels_eq hobj hread, hcarried]
  rfl

theorem relabel_error {target : Option String} (hread : labels.all relabelReads = false) :
    relabel py labels target every = .error .unhashable := by
  unfold relabel
  rw [keptLabels_error hread]
  rfl

end

/-! ## What a write of labels has behind it -/

namespace Change

variable (py : Python) (c : Change)

/-- The label an answer to its POST names, with the level asked for. -/
def createdLabel : Event → Option (String × String)
  | .created (.answered status _ (some body)) =>
      if status = 201 ∧ (body.get "href").truthy then
        c.level.map fun level => (strOf py (body.get "href"), level.text)
      else none
  | _ => none

/-- The Quarantine labels known: those of the check, and the one created. -/
def everyIn (events : List Event) : LabelDict :=
  events.filterMap (c.createdLabel py) ++ c.allLabels

/-- The href of the label asked for. -/
def requestedIn (events : List Event) : Option String :=
  (c.level.bind c.labels).or ((events.filterMap (c.createdLabel py)).head?.map Prod.fst)

/-- A write comes after two steps: the workload was read, and a pending row was put on record. It
carries the labels read that are objects with an href and not of the key `Quarantine`, and at most
the one asked for. -/
def Relabelled (before : List Event) : Event → Prop
  | .put key body _ => ∃ text workload labels id row,
      [.got key (.answered 200 text (some workload)), .recorded id row] <:+ before ∧
        row.workloadHref = key ∧ row.result = .pending ∧ workload.get "labels" = .arr labels ∧
        body = .obj [("labels",
          .arr (sentLabels py (c.everyIn py before) labels (c.requestedIn py before)))]
  | _ => True

/-- An answer that can be read: to a workload, JSON with hrefs that can be looked up; to the POST
of a label, one that comes, and is JSON when it is 201. -/
def readable (every : LabelDict) : Event → Bool
  | .got _ (.answered status _ json) =>
      match jsonOf 200 status json with
      | .error _ => false
      | .ok body =>
          match body.get "labels" with
          | .arr labels => hrefsRead every (labels.filter Json.isObj)
          | _ => true
  | .created (.lost _) => false
  | .created (.answered status _ json) => (jsonOf 201 status json).isOk
  | _ => true

/-- What a change needs to end with its results: answers that it can read. -/
def CanEnd (events : List Event) : Prop :=
  ∀ e ∈ events, readable (c.everyIn py events) e = true

/-- The loop of a change, once it is known which label to put on. -/
def discipline (l : Labelling) : Discipline where
  Justified := c.Relabelled py
  Base events := c.everyIn py events = l.every ∧ c.requestedIn py events = l.target ∧
    ∀ e ∈ events, readable l.every e = true
  Fine e := c.createdLabel py e = none ∧ readable l.every e = true
  justified_of_not_put before e he := by cases e <;> trivial
  base_snoc events e := by
    rintro ⟨hevery, htarget, hread⟩ ⟨hcreated, he⟩
    have hsame : (events ++ [e]).filterMap (c.createdLabel py) =
        events.filterMap (c.createdLabel py) := by
      rw [List.filterMap_append, List.filterMap_cons_none hcreated]
      exact List.append_nil _
    refine ⟨?_, ?_, ?_⟩
    · rw [everyIn, hsame]
      exact hevery
    · rw [requestedIn, hsame]
      exact htarget
    · intro e' he'
      rcases List.mem_append.1 he' with he' | he'
      · exact hread e' he'
      · exact List.mem_singleton.1 he' ▸ he
  fine_of_not_reading e he := by
    cases e <;> first | exact ⟨rfl, rfl⟩ | exact absurd he (by simp [Event.isReading])

variable {py c} {l : Labelling} {t : Target} {results : List Result}

/-- Events that are no answers to a POST leave what is known of the labels. -/
theorem filterMap_createdLabel_append (earlier : List Event) {recent : List Event}
    (hrecent : ∀ e ∈ recent, c.createdLabel py e = none) :
    (earlier ++ recent).filterMap (c.createdLabel py) =
      earlier.filterMap (c.createdLabel py) := by
  rw [List.filterMap_append, List.filterMap_eq_nil_iff.2 hrecent, List.append_nil]

/-- The write itself, of a workload whose labels could be read. -/
theorem writes_writeLabels {text : String} {workload : Json} {labels original : List Json}
    {previous : Option String} {recent : List Event}
    (hworkload : workload.get "labels" = .arr labels)
    (hrecent : [.got t.key (.answered 200 text (some workload))] <:+ recent)
    (hfine : ∀ e ∈ recent, (c.discipline py l).Fine e) :
    Writes (c.discipline py l) (Held (c.discipline py l) none results
        (Since (c.discipline py l) recent))
      (writeLabels py t original previous (sentLabels py l.every labels l.target))
      (HasResult (c.discipline py l) results t.key) := by
  obtain ⟨row, hrow⟩ : ∃ row : ActionRow,
    row = ⟨t.key, t.name, previous, original.map keptLabel, .pending, none⟩ := ⟨_, rfl⟩
  unfold writeLabels
  rw [← hrow]
  refine Program.safe_bind (writes_record row) fun id => ?_
  have hfine' : ∀ e ∈ recent ++ [.recorded id row], (c.discipline py l).Fine e := by
    intro e he
    rcases List.mem_append.1 he with he | he
    · exact hfine e he
    · exact List.mem_singleton.1 he ▸ ⟨rfl, rfl⟩
  -- the log now ends with what justifies the write
  have hput : ∀ events reply, Since (c.discipline py l) (recent ++ [.recorded id row]) events →
      c.Relabelled py events (.put t.key
        (.obj [("labels", .arr (sentLabels py l.every labels l.target))]) reply) := by
    rintro events reply ⟨earlier, rfl, hevery, htarget, -⟩
    have hsame := filterMap_createdLabel_append earlier fun e he => (hfine' e he).1
    refine ⟨text, workload, labels, id, row, ?_, by rw [hrow], by rw [hrow], hworkload, ?_⟩
    · exact (suffix_snoc hrecent _).trans (List.suffix_append _ _)
    · rw [everyIn, requestedIn, hsame]
      rw [everyIn] at hevery
      rw [requestedIn] at htarget
      rw [hevery, htarget]
  have hopen : row.workloadHref = t.key := by rw [hrow]
  refine Program.safe_bind (writes_put hput) fun reply => ?_
  have hdone : ∀ body, ∀ e ∈ recent ++ [.recorded id row] ++ [.put t.key body reply],
      (c.discipline py l).Fine e := by
    intro body e he
    rcases List.mem_append.1 he with he | he
    · exact hfine' e he
    · exact List.mem_singleton.1 he ▸ ⟨rfl, rfl⟩
  cases reply with
  | lost error => exact writes_done_open hopen (hdone _)
  | answered status text' json =>
      dsimp only
      split
      · exact writes_done_open hopen (hdone _)
      · exact writes_done_open hopen (hdone _)

/-- A workload that was read is given its labels, or an href could not be looked up. -/
theorem writes_changeLabels {text : String} {workload : Json} {labels : List Json}
    {recent : List Event} (hworkload : workload.get "labels" = .arr labels)
    (hfine : ∀ e ∈ recent, (c.discipline py l).Fine e) :
    Writes (c.discipline py l) (Held (c.discipline py l) none results
        (Since (c.discipline py l) (recent ++ [.got t.key (.answered 200 text (some workload))])))
      (c.changeLabels py l t (labels.filter Json.isObj))
      (Handled (c.discipline py l) results t.key) := by
  have hreadable : readable l.every (.got t.key (.answered 200 text (some workload))) =
      hrefsRead l.every (labels.filter Json.isObj) := by
    simp only [readable, jsonOf_some, hworkload]
  have hgot : hrefsRead l.every (labels.filter Json.isObj) = true →
      ∀ e ∈ recent ++ [.got t.key (.answered 200 text (some workload))],
        (c.discipline py l).Fine e := by
    intro hread e he
    rcases List.mem_append.1 he with he | he
    · exact hfine e he
    · exact List.mem_singleton.1 he ▸ ⟨rfl, hreadable.trans hread⟩
  -- where an href cannot be looked up, the answer ends the log
  have hraised : ∀ e, hrefsRead l.every (labels.filter Json.isObj) = false →
      Writes (c.discipline py l) (Held (c.discipline py l) none results
        (Since (c.discipline py l) (recent ++ [.got t.key (.answered 200 text (some workload))])))
        (pure (.error e)) (Handled (c.discipline py l) results t.key) := by
    intro e hread
    apply Program.safe_pure
    rintro s ⟨hinOrder, -, hlog⟩
    obtain ⟨before, hevents, hbase⟩ := hlog.base_before hfine
    refine ⟨hinOrder, before, t.key, _, hevents, hbase, fun h => ?_⟩
    exact absurd (hreadable.symm.trans h.2) (by simp [hread])
  unfold changeLabels
  rcases previousLevel_cases py l.every (labels.filter Json.isObj) with
    ⟨hprevious, previous, hlevel, hnone⟩ | ⟨hprevious, hlevel⟩
  · rw [hlevel]
    dsimp only
    by_cases hread : (labels.filter Json.isObj).all relabelReads = true
    · have hfine := hgot (by simp [hrefsRead, hprevious, hread])
      split
      · exact writes_returning (writes_done_new hfine)
      · rw [relabel_eq hread]
        exact writes_returning (writes_writeLabels hworkload (List.suffix_append _ _) hfine)
    · have hread : (labels.filter Json.isObj).all relabelReads = false := by simpa using hread
      split
      · next hunchanged =>
        -- no Quarantine label was found, so every href was looked up
        have hall : (labels.filter Json.isObj).all relabelReads = true := by
          rw [List.all_eq_true]
          intro lb hlb
          have hprevious : previous = none := by
            simpa using (Bool.and_eq_true_iff.1 hunchanged).2
          simp [relabelReads, hnone hprevious lb hlb]
        exact absurd hall (by simp [hread])
      · rw [relabel_error hread]
        exact hraised _ (by simp [hrefsRead, hread])
  · rw [hlevel]
    exact hraised _ (by simp [hrefsRead, hprevious])

/-- One target: its result, or an answer that cannot be read. -/
theorem writes_handle (t : Target) (results : List Result) :
    Writes (c.discipline py l)
      (Held (c.discipline py l) none results (c.discipline py l).Base)
      (c.handle py l t) (Handled (c.discipline py l) results t.key) := by
  have hstart : ∀ s, Held (c.discipline py l) none results (c.discipline py l).Base s →
      Held (c.discipline py l) none results (Since (c.discipline py l) []) s :=
    fun s hs => ⟨hs.inOrder, hs.settled, since_nil hs.log⟩
  unfold handle
  refine Program.safe_bind (Program.safe_weaken writes_readIdent hstart fun _ _ h => h)
    fun now => ?_
  have hread : ∀ e ∈ [] ++ [Event.identRead now], (c.discipline py l).Fine e := by
    intro e he
    rw [List.nil_append, List.mem_singleton] at he
    exact he ▸ ⟨rfl, rfl⟩
  split
  · exact writes_returning (writes_done_new hread)
  split
  · exact writes_returning (writes_done_new hread)
  split
  · exact writes_returning (writes_done_new hread)
  refine Program.safe_bind (writes_get t.key) fun reply => ?_
  have hgot : ∀ reply, readable l.every (.got t.key reply) = true →
      ∀ e ∈ [] ++ [Event.identRead now] ++ [.got t.key reply], (c.discipline py l).Fine e := by
    intro reply hreply e he
    rcases List.mem_append.1 he with he | he
    · exact hread e he
    · exact List.mem_singleton.1 he ▸ ⟨rfl, hreply⟩
  cases reply with
  | lost error => exact writes_returning (writes_done_new (hgot _ rfl))
  | answered status text json =>
      dsimp only
      by_cases hstatus : status = 200
      · subst hstatus
        cases json with
        | none =>
            -- the exception that ends the apply
            apply Program.safe_pure
            rintro s ⟨hinOrder, -, hlog⟩
            obtain ⟨before, hevents, hbase⟩ := hlog.base_before hread
            exact ⟨hinOrder, before, t.key, _, hevents, hbase, fun h => Bool.noConfusion h.2⟩
        | some body =>
            rw [jsonOf_some]
            dsimp only
            split
            · next labels hlabels =>
              exact writes_changeLabels hlabels hread
            · next hlabels =>
              refine writes_returning (writes_done_new (hgot _ ?_))
              simp only [readable, jsonOf_some]
      · have hreply : readable l.every (.got t.key (.answered status text json)) = true := by
          simp only [readable, jsonOf_of_ne hstatus]
          rfl
        rw [jsonOf_of_ne hstatus]
        exact writes_returning (writes_done_new (hgot _ hreply))

/-! ## The whole change -/

/-- How it is settled which label to put on: the loop can begin, or the change is over. -/
def Labelled (py : Python) (c : Change) : Except Raised Labelling → State → Prop
  | .ok l, s => Held (c.discipline py l) none [] (c.discipline py l).Base s
  | .error _, s => InOrder (c.Relabelled py) s.events ∧ ¬ c.CanEnd py s.events

/-- The log of a change after the POST of a label. -/
theorem held_created {s : State} {reply : Reply} (hevents : s.events = [.created reply])
    (hevery : c.everyIn py [.created reply] = l.every)
    (htarget : c.requestedIn py [.created reply] = l.target)
    (hread : readable l.every (.created reply) = true) :
    Held (c.discipline py l) none [] (c.discipline py l).Base s where
  inOrder := hevents ▸ (inOrder_nil (c.Relabelled py)).snoc trivial
  settled :=
    { carried := fun id row hmem => absurd (List.mem_singleton.1 (hevents ▸ hmem)) (by simp)
      kept := fun _ _ hopen => absurd hopen (by simp) }
  log := by
    rw [hevents]
    exact ⟨hevery, htarget, fun e he => List.mem_singleton.1 he ▸ hread⟩

/-- Without a POST the log is empty when the loop begins. -/
theorem held_nil {s : State} {target : Option String} {created : Bool} {error : Option String}
    (hevents : s.events = []) (htarget : c.level.bind c.labels = target) :
    Held (c.discipline py ⟨target, c.allLabels, created, error⟩) none []
      (c.discipline py ⟨target, c.allLabels, created, error⟩).Base s where
  inOrder := hevents ▸ inOrder_nil (c.Relabelled py)
  settled := settled_nil hevents
  log := by
    rw [hevents]
    refine ⟨rfl, ?_, fun e he => absurd he List.not_mem_nil⟩
    rw [requestedIn, htarget]
    exact Option.or_none

/-- An answer to the POST that cannot be read ends the change; any other leaves what is known of
the labels as the log has it. -/
theorem created_cases (py : Python) {level : Level} (hlevel : c.level = some level)
    (hnone : c.labels level = none) (reply : Reply) :
    (∃ e, c.created py level reply = .error e ∧
        ∀ every, readable every (.created reply) = false) ∨
      ∃ l, c.created py level reply = .ok l ∧ c.everyIn py [.created reply] = l.every ∧
        c.requestedIn py [.created reply] = l.target ∧
        readable l.every (.created reply) = true := by
  cases reply with
  | lost error => exact Or.inl ⟨.noAnswer error, rfl, fun _ => rfl⟩
  | answered status text json =>
      by_cases hstatus : status = 201
      · subst hstatus
        cases json with
        | none => exact Or.inl ⟨.notJson, rfl, fun _ => rfl⟩
        | some body =>
            refine Or.inr ?_
            by_cases hhref : (body.get "href").truthy = true
            · refine ⟨⟨some (strOf py (body.get "href")),
                (strOf py (body.get "href"), level.text) :: c.allLabels, true, none⟩,
                ?_, ?_, ?_, rfl⟩
              · simp only [created, jsonOf_some]
                exact if_pos hhref
              · simp [everyIn, createdLabel, hhref, hlevel]
              · simp [requestedIn, createdLabel, hhref, hlevel, hnone]
            · refine ⟨⟨none, c.allLabels, false, some (detailOf py 201 text)⟩, ?_, ?_, ?_, rfl⟩
              · simp only [created, jsonOf_some]
                exact if_neg hhref
              · simp [everyIn, createdLabel, hhref]
              · simp [requestedIn, createdLabel, hhref, hlevel, hnone]
      · have hunknown : c.createdLabel py (.created (.answered status text json)) = none := by
          cases json <;> simp [createdLabel, hstatus]
        refine Or.inr ⟨⟨none, c.allLabels, false, some (detailOf py status text)⟩, ?_, ?_, ?_, ?_⟩
        · simp only [created, jsonOf_of_ne hstatus]
          rfl
        · simp [everyIn, hunknown]
        · simp [requestedIn, hunknown, hlevel, hnone]
        · simp only [readable, jsonOf_of_ne hstatus]
          rfl

theorem writes_labelling (py : Python) (c : Change) :
    Program.Safe (fun _ => True) (fun _ w => InOrder (c.Relabelled py) w.events)
      (fun s => s.events = []) (c.labelling py) (Labelled py c) := by
  unfold labelling
  split
  · next hlevel =>
    exact Program.safe_pure fun s hs => held_nil hs (by rw [hlevel]; rfl)
  · next level hlevel =>
    split
    · next href hhref =>
      exact Program.safe_pure fun s hs => held_nil hs (by rw [hlevel]; exact hhref)
    · next hhref =>
      have hnone : c.level.bind c.labels = none := by rw [hlevel]; exact hhref
      split
      · refine Program.safe_bind (Q := fun reply s => s.events = [.created reply]) ?_
          fun reply => Program.safe_pure fun s hs => ?_
        · apply Program.safe_act
          intro s a _ hs
          have hevents : ((a.others.foldl State.outside s).log (.created a.reply)).events =
              [.created a.reply] := by
            unfold State.log
            rw [s.events_outsides, hs]
            rfl
          exact ⟨hevents ▸ (inOrder_nil (c.Relabelled py)).snoc trivial, hevents⟩
        · rcases created_cases py hlevel hhref reply with
            ⟨e, hcreated, hread⟩ | ⟨l, hcreated, hevery, htarget, hread⟩
          · rw [hcreated]
            refine ⟨hs ▸ (inOrder_nil (c.Relabelled py)).snoc trivial, fun hcan => ?_⟩
            have hmem : Event.created reply ∈ s.events := hs ▸ List.mem_cons_self
            exact absurd (hcan _ hmem) (by simp [hread])
          · rw [hcreated]
            exact held_created hs hevery htarget hread
      · exact Program.safe_pure fun s hs => held_nil hs hnone

theorem writes_change (py : Python) (c : Change) :
    Program.Safe (fun _ => True) (fun _ w => InOrder (c.Relabelled py) w.events)
      (fun s => s.events = []) (c.change py)
      (EndsAs (c.Relabelled py) QuarantineOutcome.results (c.targets.map Target.key)
        (c.CanEnd py)) := by
  unfold change
  refine Program.safe_bind (writes_labelling py c) fun labelled => ?_
  cases labelled with
  | error e => exact Program.safe_pure fun s hs => hs
  | ok l =>
      refine Program.safe_bind (writes_forEach Target.key
        (fun t _ results => writes_handle t results) []) fun outcome => ?_
      cases outcome with
      | error e =>
          apply Program.safe_pure
          rintro s ⟨hinOrder, before, key, reply, hevents, ⟨hevery, -⟩, hbad⟩
          refine ⟨hinOrder, fun hcan => hbad ⟨rfl, ?_⟩⟩
          have hsame : c.everyIn py s.events = l.every := by
            rw [hevents, everyIn, filterMap_createdLabel_append _ (by simp [createdLabel])]
            exact hevery
          rw [← hsame]
          apply hcan
          rw [hevents]
          exact List.mem_append_right _ List.mem_cons_self
      | ok results =>
          apply Program.safe_pure
          rintro s ⟨hkeys, hs⟩
          obtain ⟨hevery, -, hread⟩ := hs.log
          exact ⟨hs.inOrder, fun e he => hevery ▸ hread e he, hkeys, hs.settled⟩

/-! ## Its steps -/

theorem endsBy_writeLabels (t : Target) (original : List Json) (previous : Option String)
    (labels : List Json) : Program.EndsBy 3 (writeLabels py t original previous labels) := by
  unfold writeLabels
  refine (endsBy_step _).bind (k := 2) fun row => (endsBy_step _).bind (k := 1) fun reply => ?_
  cases reply with
  | lost error => exact endsBy_done _ _ _ _ _ _ _
  | answered status text json =>
      dsimp only
      split
      · exact endsBy_done _ _ _ _ _ _ _
      · exact endsBy_done _ _ _ _ _ _ _

theorem endsBy_changeLabels (l : Labelling) (t : Target) (original : List Json) :
    Program.EndsBy 3 (c.changeLabels py l t original) := by
  have hraise : ∀ e : Raised,
      Program.EndsBy 3 (pure (.error e) : Step (Except Raised Result)) :=
    fun _ => (Program.endsBy_pure _).mono (Nat.zero_le _)
  unfold changeLabels
  split
  · exact hraise _
  · split
    · exact (endsBy_returning (endsBy_done _ _ _ _ _ _ _)).mono (by omega)
    · split
      · exact hraise _
      · exact endsBy_returning (endsBy_writeLabels t original _ _)

theorem endsBy_handle (l : Labelling) (t : Target) : Program.EndsBy 5 (c.handle py l t) := by
  have hdone : ∀ n status detail, 1 ≤ n →
      Program.EndsBy n (returning (done t status detail none [] none none)) :=
    fun _ _ _ hn => endsBy_returning ((endsBy_done _ _ _ _ _ _ _).mono hn)
  unfold handle
  refine (endsBy_step _).bind (k := 4) fun now => ?_
  split
  · exact hdone _ _ _ (by omega)
  split
  · exact hdone _ _ _ (by omega)
  split
  · exact hdone _ _ _ (by omega)
  refine (endsBy_step _).bind (k := 3) fun reply => ?_
  cases reply with
  | lost error => exact hdone _ _ _ (by omega)
  | answered status text json =>
      dsimp only
      split
      · exact (Program.endsBy_pure _).mono (Nat.zero_le _)
      · split
        · exact endsBy_changeLabels l t _
        · exact hdone _ _ _ (by omega)

theorem endsBy_labelling (py : Python) (c : Change) : Program.EndsBy 1 (c.labelling py) := by
  have hknown : ∀ l : Labelling,
      Program.EndsBy 1 (pure (.ok l) : Step (Except Raised Labelling)) :=
    fun _ => (Program.endsBy_pure _).mono (Nat.zero_le _)
  unfold labelling
  split
  · exact hknown _
  · split
    · exact hknown _
    · split
      · exact (endsBy_step _).bind fun reply => Program.endsBy_pure _
      · exact hknown _

/-- The change ends, whatever the answers are. -/
theorem endsBy_change (py : Python) (c : Change) :
    Program.EndsBy (1 + c.targets.length * 5) (c.change py) := by
  unfold change
  refine (endsBy_labelling py c).bind fun labelled => ?_
  cases labelled with
  | error e => exact (Program.endsBy_pure _).mono (Nat.zero_le _)
  | ok l =>
      refine Program.EndsBy.bind (k := 0) (endsBy_forEach (endsBy_handle l) c.targets)
        fun outcome => ?_
      cases outcome with
      | error e => exact Program.endsBy_pure _
      | ok results => exact Program.endsBy_pure _

end Change

end IllumioOps.PceWrites
