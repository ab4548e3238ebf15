import IllumioOps.Writes.Settled

/-!
# Quarantine

`_change` of `services.quarantine`, with `relabel` of `domain.quarantine`: a workload is isolated by
a label of the key `Quarantine`, and set free by taking it off. The PCE replaces the whole set of
labels, so a write carries the labels it read, except those of the key `Quarantine`, and the one
that was asked for (`Change.Relabelled`).
-/

set_option autoImplicit false

namespace IllumioOps.PceWrites

open Programs SiemText

/-! ## Labels -/

/-- `KEY` -/
def quarantineKey : String := "Quarantine"

inductive Level where
  | mild
  | moderate
  | severe
  deriving DecidableEq, Repr

def Level.text : Level → String
  | .mild => "Mild"
  | .moderate => "Moderate"
  | .severe => "Severe"

/-- The labels of the key `Quarantine`, by href: each with its level. -/
abbrev LabelDict : Type := List (String × String)

/-- A value that a dict can be asked for. -/
def hashable : Json → Bool
  | .arr _ => false
  | .obj _ => false
  | _ => true

/-- `every.get(value)`: an array or an object is an error, and only a text can be a key. -/
def LabelDict.find (every : LabelDict) (value : Json) : Except Raised (Option String) :=
  if hashable value then
    match value with
    | .str href => .ok (every.lookup href)
    | _ => .ok none
  else .error .unhashable

/-- `{"href": href}` -/
def hrefLabel (href : String) : Json := .obj [("href", .str href)]

/-- What is kept of a label read, on the row. -/
def keptLabel (lb : Json) : Json :=
  .obj [("href", lb.get "href"), ("key", lb.get "key"), ("value", lb.get "value")]

variable (py : Python)

/-- `_previous`: the level of the first Quarantine label, by its key or by its href. -/
def previousLevel (every : LabelDict) : List Json → Except Raised (Option String)
  | [] => .ok none
  | lb :: rest =>
      if isText quarantineKey (lb.get "key") then
        .ok (some (if (lb.get "value").truthy then strOf py (lb.get "value")
          else (every.lookup (strOf py (lb.get "href"))).getD "?"))
      else
        match every.find (lb.get "href") with
        | .error e => .error e
        | .ok (some level) => .ok (some (if level = "" then "?" else level))
        | .ok none => previousLevel every rest

/-- The labels `relabel` keeps. -/
def keptLabels (every : LabelDict) : List Json → Except Raised (List Json)
  | [] => .ok []
  | lb :: rest =>
      if (lb.get "href").truthy && !isText quarantineKey (lb.get "key") then
        match every.find (lb.get "href") with
        | .error e => .error e
        | .ok (some _) => keptLabels every rest
        | .ok none => (keptLabels every rest).map (hrefLabel (strOf py (lb.get "href")) :: ·)
      else keptLabels every rest

/-- The label asked for, if any. -/
def requestedLabel : Option String → List Json
  | some href => if href = "" then [] else [hrefLabel href]
  | none => []

/-- `relabel` -/
def relabel (labels : List Json) (target : Option String) (every : LabelDict) :
    Except Raised (List Json) :=
  (keptLabels py every labels).map (· ++ requestedLabel target)

/-! ## The change -/

/-- A call of `_change`: the hosts, the level asked for (none: taken off), what the check read of
the labels, whether a missing label is created, and the PCE the call began under. -/
structure Change where
  targets : List Target
  distinct : (targets.map Target.key).Nodup
  level : Option Level
  labels : Level → Option String
  allLabels : LabelDict
  create : Bool
  ident : Ident

/-- The label to put on, and what is known of the Quarantine labels. -/
structure Labelling where
  target : Option String
  every : LabelDict
  created : Bool
  error : Option String

structure QuarantineOutcome where
  level : Option Level
  labelCreated : Bool
  labelError : Option String
  results : List Result

/-- The POST of a label. -/
def post : Step Reply := step fun s a => (s.log (.created a.reply), a.reply)

namespace Change

variable (c : Change)

/-- How the answer to the POST of a level's label is taken. -/
def created (level : Level) : Reply → Except Raised Labelling
  | .lost error => .error (.noAnswer error)
  | .answered status text json =>
      match jsonOf 201 status json with
      | .error e => .error e
      | .ok body =>
          if (body.get "href").truthy then
            let href := strOf py (body.get "href")
            .ok ⟨some href, (href, level.text) :: c.allLabels, true, none⟩
          else .ok ⟨none, c.allLabels, false, some (detailOf py status text)⟩

/-- The level's label: the one the check found, or one created now. -/
def labelling : Step (Except Raised Labelling) :=
  match c.level with
  | none => pure (.ok ⟨none, c.allLabels, false, none⟩)
  | some level =>
      match c.labels level with
      | some href => pure (.ok ⟨some href, c.allLabels, false, none⟩)
      | none =>
          if c.create then do
            let reply ← post
            pure (c.created py level reply)
          else pure (.ok ⟨none, c.allLabels, false, none⟩)

/-- The write: the intent first, then the call, and its answer on the same row. -/
def writeLabels (t : Target) (original : List Json) (previous : Option String)
    (labels : List Json) : Step Result := do
  let row ← record ⟨t.key, t.name, previous, original.map keptLabel, .pending, none⟩
  match ← put t.key (.obj [("labels", .arr labels)]) with
  | .lost error => done t .unknown (some error) previous [] none (some row)
  | .answered status text _ =>
      if accepted status then done t .ok none previous [] none (some row)
      else done t .failed (some (detailOf py status text)) previous [] none (some row)

/-- What a workload that was read is given. -/
def changeLabels (l : Labelling) (t : Target) (original : List Json) :
    Step (Except Raised Result) :=
  match previousLevel py l.every original with
  | .error e => pure (.error e)
  | .ok previous =>
      if c.level.isNone && previous.isNone then
        returning (done t .notQuarantined none none (original.map keptLabel) none none)
      else
        match relabel py original l.target l.every with
        | .error e => pure (.error e)
        | .ok labels => returning (writeLabels py t original previous labels)

/-- One target of the loop. -/
def handle (l : Labelling) (t : Target) : Step (Except Raised Result) := do
  let now ← readIdent
  if now ≠ c.ident then returning (done t .failed (some pceChanged) none [] none none)
  else if !t.ok then returning (done t .skipped (t.reason.map Reason.text) none [] none none)
  else if c.level.isSome && l.target.isNone then
    returning (done t .failed l.error none [] none none)
  else
    match ← get t.key with
    | .lost error => returning (done t .failed (some error) none [] none none)
    | .answered status text json =>
        match jsonOf 200 status json with
        | .error e => pure (.error e)
        | .ok body =>
            match body.get "labels" with
            | .arr labels => c.changeLabels py l t (labels.filter Json.isObj)
            | _ => returning (done t .failed (some (detailOf py status text)) none [] none none)

/-- `_change` -/
def change : Step (Except Raised QuarantineOutcome) := do
  match ← c.labelling py with
  | .error e => pure (.error e)
  | .ok l =>
      match ← forEach (c.handle py l) c.targets with
      | .error e => pure (.error e)
      | .ok results => pure (.ok ⟨c.level, l.created, l.error, results⟩)

end Change

end IllumioOps.PceWrites
