import IllumioOps.Json.Concealed

/-!
# What a masked destination gets of an audit event

`mask_event` goes over an audit event with a list of rules, each for one part of it. As one policy
over the places of an event (`masks`) it conceals what it reaches (`maskEvent_eq_conceal`). Against
everything personal in an event (`personal`) the gap is `missed`: two events that differ only in
personal values are masked to the same event exactly when they agree on the personal values the
rules leave in sight (`masked_same_iff`), of which the full name of the acting user is one
(`full_name_unmasked`).
-/

set_option autoImplicit false

namespace IllumioOps.Siem

open Json

/-! ## `mask.py` -/

/-- `REDACTED` -/
def redacted : Json := .str "[REDACTED]"

/-- `if d.get(key): d[key] = REDACTED`, for the value found. -/
def redactValue (v : Json) : Json := if v.truthy then redacted else v

/-- `for key in keys: if user.get(key): user[key] = REDACTED` -/
def redactKeys (keys : List String) (user : Json) : Json :=
  keys.foldl (fun user key => user.update key redactValue) user

/-- `_mask_actor` -/
def maskActor (event : Json) : Json :=
  event.update "created_by" fun createdBy =>
    createdBy.update "user" (redactKeys ["username", "name", "email"])

/-- `_mask_action` -/
def maskAction (event : Json) : Json :=
  event.update "action" fun action => action.update "src_ip" redactValue

/-- `_USER_KEYS` -/
def userKeys : List String := ["username", "name", "full_name", "email"]

/-- `k in ("before", "after")` -/
def isBeforeAfter (k : String) : Bool := k == "before" || k == "after"

mutual

/-- `_redact_before_after` -/
def redactBeforeAfter : Json → Json
  | .obj fields => .obj (redactBeforeAfterFields fields)
  | .arr items => .arr (redactBeforeAfterItems items)
  | node => node

def redactBeforeAfterFields : List (String × Json) → List (String × Json)
  | [] => []
  | (k, v) :: rest =>
      (k, if isBeforeAfter k then redacted else redactBeforeAfter v) ::
        redactBeforeAfterFields rest

def redactBeforeAfterItems : List Json → List Json
  | [] => []
  | item :: rest => redactBeforeAfter item :: redactBeforeAfterItems rest

end

mutual

/-- `_redact_users`. The keys of a user object are redacted on the way into it: `user` says that the
node stands under the key `user`. -/
def redactUsers (user : Bool) : Json → Json
  | .obj fields => .obj (redactUsersFields user fields)
  | .arr items => .arr (redactUsersItems items)
  | node => node

def redactUsersFields (user : Bool) : List (String × Json) → List (String × Json)
  | [] => []
  | (k, v) :: rest =>
      (k, if user && userKeys.contains k && v.truthy then redacted
        else redactUsers (k == "user") v) :: redactUsersFields user rest

def redactUsersItems : List Json → List Json
  | [] => []
  | item :: rest => redactUsers false item :: redactUsersItems rest

end

/-- `_mask_changes` -/
def maskChanges (event : Json) : Json :=
  event.update "resource_changes" fun rc => rc.updateItems fun entry =>
    if entry.isObj then redactUsers false (entry.update "changes" redactBeforeAfter) else entry

def isSystem : Json → Bool
  | .str s => s == "System"
  | _ => false

/-- `_mask_top_level_actor` -/
def maskTopLevelActor (event : Json) : Json :=
  (event.update "actor" fun actor =>
    if actor.truthy && !isSystem actor then redacted else actor).update "source_ip" redactValue

/-- `_mask_notifications` -/
def maskNotifications (event : Json) : Json :=
  event.update "notifications" fun notes => notes.updateItems fun entry =>
    entry.update "info" fun info =>
      (info.update "user" (redactKeys ["username", "name", "email"])).update "src_ip" redactValue

/-- `mask_event` -/
def maskEvent (event : Json) (maskPii : Bool) : Json :=
  if maskPii && event.isObj then
    maskNotifications (maskChanges (maskAction (maskTopLevelActor (maskActor event))))
  else event

/-! ## The places of an event -/

/-- Where a value of an event stands: `tree` is anywhere in a change of a resource, `changes`
anywhere in its `changes`, `stray` anywhere in `resource_changes` outside a change, each of them
under the key `user` or not. -/
inductive Place where
  | event
  | creator
  | creatorUser
  | action
  | resourceChanges
  | tree (isUser : Bool)
  | change
  | changes (isUser : Bool)
  | stray (isUser : Bool)
  | notifications
  | note
  | info
  | infoUser
  | other
  deriving DecidableEq, Repr

/-- How an event is laid out. -/
def places : Places Place where
  enter
    | .event, k =>
        if k == "created_by" then .creator
        else if k == "action" then .action
        else if k == "resource_changes" then .resourceChanges
        else if k == "notifications" then .notifications
        else .other
    | .creator, k => if k == "user" then .creatorUser else .other
    | .change, k => if k == "changes" then .changes false else .tree (k == "user")
    | .tree _, k => .tree (k == "user")
    | .changes _, k => .changes (k == "user")
    | .resourceChanges, k | .stray _, k => .stray (k == "user")
    | .note, k => if k == "info" then .info else .other
    | .info, k => if k == "user" then .infoUser else .other
    | _, _ => .other
  item
    | .resourceChanges => .change
    | .tree _ => .tree false
    | .changes _ => .changes false
    | .change | .stray _ => .stray false
    | .notifications => .note
    | _ => .other

/-- What names a person: the user names of a user object, where they are not empty. -/
def namesPerson (k : String) (v : Json) : Bool :=
  (k == "username" || k == "name" || k == "full_name" || k == "email") && v.truthy

/-- Everything personal in an event: who acted, the users that notifications and changed resources
name, the addresses they acted from, and the texts before and after a change. -/
def personal : Policy Place
  | .creatorUser, k, v | .infoUser, k, v | .tree true, k, v | .stray true, k, v => namesPerson k v
  | .changes isUser, k, v => isBeforeAfter k || isUser && namesPerson k v
  | .action, k, _ | .info, k, _ => k == "src_ip"
  | _, _, _ => false

/-- What no rule of the mask is for: the full names of the acting user and of the users in
notifications, users in resource changes that are no list of objects, and addresses that are
empty. -/
def missed : Policy Place
  | .creatorUser, k, _ | .infoUser, k, _ => k == "full_name"
  | .stray _, _, _ => true
  | .action, _, v | .info, _, v => !v.truthy
  | _, _, _ => false

/-- What the mask redacts. -/
def masks : Policy Place
  | .event, k, v => k == "actor" && (v.truthy && !isSystem v) || k == "source_ip" && v.truthy
  | .creatorUser, k, v | .infoUser, k, v => ["username", "name", "email"].contains k && v.truthy
  | .tree true, k, v => userKeys.contains k && v.truthy
  | .changes isUser, k, v => isBeforeAfter k || isUser && userKeys.contains k && v.truthy
  | .action, k, v | .info, k, v => k == "src_ip" && v.truthy
  | _, _, _ => false

/-! ## The mask as one policy -/

theorem truthy_redactValue (v : Json) : (redactValue v).truthy = v.truthy := by
  rw [redactValue]
  cases h : v.truthy with
  | true => rfl
  | false => exact h

theorem redactKeys_obj (keys : List String) (fields : List (String × Json)) :
    redactKeys keys (.obj fields) = .obj (fields.map fun p =>
      (p.1, if keys.contains p.1 && p.2.truthy then redacted else p.2)) := by
  induction keys generalizing fields with
  | nil => exact congrArg Json.obj (List.map_id' fields).symm
  | cons key keys ih =>
      rw [redactKeys, List.foldl_cons, update, ← redactKeys, ih, List.map_map]
      refine congrArg Json.obj (List.map_congr_left fun p _ => ?_)
      simp only [Function.comp_apply, List.contains_cons]
      by_cases hk : p.1 == key
      · -- a key that is redacted already is not empty
        simp only [hk, if_true, truthy_redactValue, Bool.true_or, Bool.true_and]
        rw [redactValue]
        cases p.2.truthy <;> simp
      · simp only [hk, Bool.false_eq_true, if_false, Bool.false_or]

theorem redactBeforeAfter_obj (fields : List (String × Json)) :
    redactBeforeAfter (.obj fields) = .obj (fields.map fun p =>
      (p.1, if isBeforeAfter p.1 then redacted else redactBeforeAfter p.2)) := by
  rw [redactBeforeAfter]
  congr 1
  induction fields with
  | nil => rfl
  | cons p rest ih => rw [redactBeforeAfterFields, List.map_cons, ih]

theorem redactBeforeAfter_arr (items : List Json) :
    redactBeforeAfter (.arr items) = .arr (items.map redactBeforeAfter) := by
  rw [redactBeforeAfter]
  congr 1
  induction items with
  | nil => rfl
  | cons item rest ih => rw [redactBeforeAfterItems, List.map_cons, ih]

theorem redactUsers_obj (user : Bool) (fields : List (String × Json)) :
    redactUsers user (.obj fields) = .obj (fields.map fun p =>
      (p.1, if user && userKeys.contains p.1 && p.2.truthy then redacted
        else redactUsers (p.1 == "user") p.2)) := by
  rw [redactUsers]
  congr 1
  induction fields with
  | nil => rfl
  | cons p rest ih => rw [redactUsersFields, List.map_cons, ih]

theorem redactUsers_arr (user : Bool) (items : List Json) :
    redactUsers user (.arr items) = .arr (items.map (redactUsers false)) := by
  rw [redactUsers]
  congr 1
  induction items with
  | nil => rfl
  | cons item rest ih => rw [redactUsersItems, List.map_cons, ih]

/-- The recursion of the source: a user object's keys are redacted before the walk goes into it. -/
theorem redactUsers_redactKeys (user : Json) :
    redactUsers true user = redactUsers false (redactKeys userKeys user) := by
  cases user with
  | obj fields =>
      rw [redactKeys_obj, redactUsers_obj, redactUsers_obj, List.map_map]
      congr 1
      refine List.map_congr_left fun p _ => ?_
      simp only [Function.comp_apply, Bool.true_and, Bool.false_and]
      split <;> rfl
  | arr items => rfl
  | _ => rfl

theorem truthy_redactBeforeAfter (j : Json) : (redactBeforeAfter j).truthy = j.truthy := by
  cases j with
  | arr items => rw [redactBeforeAfter_arr]; cases items <;> rfl
  | obj fields => rw [redactBeforeAfter_obj]; cases fields <;> rfl
  | _ => rfl

theorem conceal_other (j : Json) : conceal places masks redacted .other j = j :=
  conceal_eq_self (fun s => s = .other) (by rintro _ _ rfl; rfl) (by rintro _ rfl; rfl)
    (by rintro _ _ _ rfl; rfl) rfl j

theorem conceal_stray (isUser : Bool) (j : Json) :
    conceal places masks redacted (.stray isUser) j = j := by
  refine conceal_eq_self (fun s => ∃ isUser, s = .stray isUser) ?_ ?_ ?_ ⟨isUser, rfl⟩ j
  · rintro _ k ⟨_, rfl⟩
    exact ⟨_, rfl⟩
  · rintro _ ⟨_, rfl⟩
    exact ⟨_, rfl⟩
  · rintro _ k v ⟨_, rfl⟩
    rfl

theorem redactUsers_eq (user : Bool) (j : Json) :
    redactUsers user j = conceal places masks redacted (.tree user) j := by
  induction j using induction_members generalizing user with
  | arr items ih =>
      rw [redactUsers_arr, conceal, concealItems_eq]
      exact congrArg Json.arr (List.map_congr_left fun j hj => ih j hj false)
  | obj fields ih =>
      rw [redactUsers_obj, conceal, concealFields_eq]
      refine congrArg Json.obj (List.map_congr_left fun p hp => ?_)
      rw [ih p hp (p.1 == "user")]
      cases user <;> rfl
  | _ => rfl

theorem redactUsers_redactBeforeAfter (user : Bool) (j : Json) :
    redactUsers user (redactBeforeAfter j) = conceal places masks redacted (.changes user) j := by
  induction j using induction_members generalizing user with
  | arr items ih =>
      rw [redactBeforeAfter_arr, redactUsers_arr, conceal, concealItems_eq, List.map_map]
      exact congrArg Json.arr (List.map_congr_left fun j hj => ih j hj false)
  | obj fields ih =>
      rw [redactBeforeAfter_obj, redactUsers_obj, conceal, concealFields_eq, List.map_map]
      refine congrArg Json.obj (List.map_congr_left fun p hp => ?_)
      have hvalue := ih p hp (p.1 == "user")
      simp only [Function.comp_apply, masks]
      by_cases hb : isBeforeAfter p.1 = true
      · -- the mark is no user object, and its key names nobody
        simp only [hb, if_true, Bool.true_or]
        cases user && userKeys.contains p.1 && redacted.truthy <;> rfl
      · simp only [hb, Bool.false_eq_true, if_false, Bool.false_or, truthy_redactBeforeAfter,
          hvalue]
        rfl
  | _ => rfl

/-- An array that is no part of the layout stays as it is. -/
theorem conceal_arr_other {s : Place} (hs : places.item s = .other) (items : List Json) :
    conceal places masks redacted s (.arr items) = .arr items := by
  rw [conceal, concealItems_eq, hs, List.map_congr_left fun j _ => conceal_other j, List.map_id']

theorem redactKeys_eq {s : Place} (hs : s = .creatorUser ∨ s = .infoUser) (user : Json) :
    redactKeys ["username", "name", "email"] user = conceal places masks redacted s user := by
  have henter : ∀ k, places.enter s k = .other := by
    rcases hs with rfl | rfl <;> exact fun _ => rfl
  have hitem : places.item s = .other := by rcases hs with rfl | rfl <;> rfl
  have hmasks : ∀ k v, masks s k v = (["username", "name", "email"].contains k && v.truthy) := by
    rcases hs with rfl | rfl <;> exact fun _ _ => rfl
  cases user with
  | obj fields =>
      rw [redactKeys_obj, conceal, concealFields_eq]
      refine congrArg Json.obj (List.map_congr_left fun p _ => ?_)
      rw [hmasks, henter, conceal_other]
  | arr items => exact (conceal_arr_other hitem items).symm
  | _ => rfl

theorem enter_creator (k : String) :
    places.enter .creator k = if k == "user" then .creatorUser else .other := rfl

theorem enter_info (k : String) :
    places.enter .info k = if k == "user" then .infoUser else .other := rfl

theorem enter_note (k : String) :
    places.enter .note k = if k == "info" then .info else .other := rfl

theorem enter_change (k : String) :
    places.enter .change k = if k == "changes" then .changes false else .tree (k == "user") := rfl

theorem enter_event (k : String) :
    places.enter .event k = if k == "created_by" then .creator
      else if k == "action" then .action
      else if k == "resource_changes" then .resourceChanges
      else if k == "notifications" then .notifications
      else .other := rfl

theorem maskCreator_eq (createdBy : Json) :
    createdBy.update "user" (redactKeys ["username", "name", "email"]) =
      conceal places masks redacted .creator createdBy := by
  cases createdBy with
  | obj fields =>
      rw [update, conceal, concealFields_eq]
      refine congrArg Json.obj (List.map_congr_left fun p _ => ?_)
      rw [enter_creator, redactKeys_eq (Or.inl rfl)]
      by_cases hk : p.1 == "user"
      · rw [if_pos hk, if_pos hk]; rfl
      · rw [if_neg hk, if_neg hk, conceal_other]; rfl
  | arr items => exact (conceal_arr_other rfl items).symm
  | _ => rfl

theorem maskAddress_eq (action : Json) :
    action.update "src_ip" redactValue = conceal places masks redacted .action action := by
  cases action with
  | obj fields =>
      rw [update, conceal, concealFields_eq]
      refine congrArg Json.obj (List.map_congr_left fun p _ => ?_)
      rw [show places.enter .action p.1 = .other from rfl, conceal_other]
      by_cases hk : p.1 == "src_ip"
      · rw [if_pos hk, redactValue, masks, hk, Bool.true_and]
      · rw [if_neg hk, masks, if_neg (by simp [hk])]
  | arr items => exact (conceal_arr_other rfl items).symm
  | _ => rfl

theorem maskInfo_eq (info : Json) :
    (info.update "user" (redactKeys ["username", "name", "email"])).update "src_ip" redactValue =
      conceal places masks redacted .info info := by
  cases info with
  | obj fields =>
      rw [update, update, List.map_map, conceal, concealFields_eq]
      refine congrArg Json.obj (List.map_congr_left fun p _ => ?_)
      simp only [Function.comp_apply]
      rw [enter_info, redactKeys_eq (Or.inr rfl)]
      by_cases hk : p.1 == "user"
      · have hne : ¬ p.1 == "src_ip" := by rw [eq_of_beq hk]; decide
        rw [if_neg hne, if_pos hk, if_pos hk, masks, if_neg (by simp [hne])]
      · rw [if_neg hk, if_neg hk, conceal_other]
        by_cases hs : p.1 == "src_ip"
        · rw [if_pos hs, redactValue, masks, hs, Bool.true_and]
        · rw [if_neg hs, masks, if_neg (by simp [hs])]
  | arr items => exact (conceal_arr_other rfl items).symm
  | _ => rfl

theorem maskNote_eq (entry : Json) :
    entry.update "info" (fun info =>
      (info.update "user" (redactKeys ["username", "name", "email"])).update "src_ip" redactValue) =
      conceal places masks redacted .note entry := by
  cases entry with
  | obj fields =>
      rw [update, conceal, concealFields_eq]
      refine congrArg Json.obj (List.map_congr_left fun p _ => ?_)
      rw [enter_note, maskInfo_eq]
      by_cases hk : p.1 == "info"
      · rw [if_pos hk, if_pos hk]; rfl
      · rw [if_neg hk, if_neg hk, conceal_other]; rfl
  | arr items => exact (conceal_arr_other rfl items).symm
  | _ => rfl

theorem maskChange_eq (entry : Json) :
    (if entry.isObj then redactUsers false (entry.update "changes" redactBeforeAfter) else entry) =
      conceal places masks redacted .change entry := by
  cases entry with
  | obj fields =>
      rw [if_pos (show (Json.obj fields).isObj = true from rfl), update, redactUsers_obj,
        List.map_map, conceal, concealFields_eq]
      refine congrArg Json.obj (List.map_congr_left fun p _ => ?_)
      simp only [Function.comp_apply]
      simp only [Bool.false_and, Bool.false_eq_true, if_false, enter_change]
      by_cases hk : p.1 == "changes"
      · have hne : (p.1 == "user") = false := by rw [eq_of_beq hk]; decide
        rw [if_pos hk, if_pos hk, hne, redactUsers_redactBeforeAfter]; rfl
      · rw [if_neg hk, if_neg hk, redactUsers_eq]; rfl
  | arr items =>
      rw [conceal, concealItems_eq, show places.item .change = .stray false from rfl,
        List.map_congr_left fun j _ => conceal_stray false j, List.map_id']
      rfl
  | _ => rfl

theorem maskResourceChanges_eq (rc : Json) :
    rc.updateItems (fun entry => if entry.isObj then
        redactUsers false (entry.update "changes" redactBeforeAfter) else entry) =
      conceal places masks redacted .resourceChanges rc := by
  cases rc with
  | arr items =>
      rw [updateItems, conceal, concealItems_eq]
      exact congrArg Json.arr (List.map_congr_left fun j _ => maskChange_eq j)
  | obj fields =>
      rw [conceal, concealFields_eq]
      refine congrArg Json.obj ((List.map_id' fields).symm.trans ?_)
      exact List.map_congr_left fun p _ => by
        rw [show places.enter .resourceChanges p.1 = .stray (p.1 == "user") from rfl, conceal_stray]
        rfl
  | _ => rfl

theorem maskNotes_eq (notes : Json) :
    notes.updateItems (fun entry => entry.update "info" fun info =>
      (info.update "user" (redactKeys ["username", "name", "email"])).update "src_ip" redactValue) =
      conceal places masks redacted .notifications notes := by
  cases notes with
  | arr items =>
      rw [updateItems, conceal, concealItems_eq]
      exact congrArg Json.arr (List.map_congr_left fun j _ => maskNote_eq j)
  | obj fields =>
      rw [conceal, concealFields_eq]
      refine congrArg Json.obj ((List.map_id' fields).symm.trans ?_)
      exact List.map_congr_left fun p _ => by
        rw [show places.enter .notifications p.1 = .other from rfl, conceal_other]
        rfl
  | _ => rfl

theorem maskActor_eq (event : Json) :
    maskActor event = event.update "created_by" (conceal places masks redacted .creator) :=
  congrArg (fun f => event.update "created_by" f) (funext maskCreator_eq)

theorem maskAction_eq (event : Json) :
    maskAction event = event.update "action" (conceal places masks redacted .action) :=
  congrArg (fun f => event.update "action" f) (funext maskAddress_eq)

theorem maskChanges_eq (event : Json) :
    maskChanges event =
      event.update "resource_changes" (conceal places masks redacted .resourceChanges) :=
  congrArg (fun f => event.update "resource_changes" f) (funext maskResourceChanges_eq)

theorem maskNotifications_eq (event : Json) :
    maskNotifications event =
      event.update "notifications" (conceal places masks redacted .notifications) :=
  congrArg (fun f => event.update "notifications" f) (funext maskNotes_eq)

/-- Masking conceals what one policy hides. -/
theorem maskEvent_eq_conceal (event : Json) :
    maskEvent event true = conceal places masks redacted .event event := by
  cases event with
  | obj fields =>
      rw [maskEvent, isObj, Bool.and_self, if_pos rfl, maskNotifications_eq, maskChanges_eq,
        maskAction_eq, maskActor_eq, maskTopLevelActor]
      simp only [update, List.map_map]
      rw [conceal, concealFields_eq]
      refine congrArg Json.obj (List.map_congr_left fun p _ => ?_)
      simp only [Function.comp_apply]
      rw [enter_event]
      -- each rule is for one key of the event
      by_cases hcreator : p.1 = "created_by"
      · simp [hcreator, masks]
      by_cases hactor : p.1 = "actor"
      · simp [hactor, masks, conceal_other]
      by_cases haddress : p.1 = "source_ip"
      · simp [haddress, masks, redactValue, conceal_other]
      by_cases haction : p.1 = "action"
      · simp [haction, masks]
      by_cases hchanges : p.1 = "resource_changes"
      · simp [hchanges, masks]
      by_cases hnotes : p.1 = "notifications"
      · simp [hnotes, masks]
      · simp [hcreator, hactor, haddress, haction, hchanges, hnotes, masks, conceal_other]
  | arr items => exact (conceal_arr_other rfl items).symm
  | _ => rfl

/-! ## Events that differ in what is personal -/

theorem eq_of_alike_other {a b : Json} (h : Alike places personal .other a b) : a = b :=
  h.eq_of_plain (fun _ => rfl) rfl (fun _ _ => rfl)

theorem namesPerson_eq (k : String) (v : Json) :
    namesPerson k v = (userKeys.contains k && v.truthy) := by
  simp only [namesPerson, userKeys, List.contains_cons, List.contains_nil, Bool.or_false,
    Bool.or_assoc]

/-- The keys of an acting user that are not masked hold the full name. -/
theorem contains_of_namesPerson {k : String} {v : Json} (h : namesPerson k v = true) :
    (["username", "name", "email"].contains k && v.truthy) = !(k == "full_name") := by
  rw [namesPerson, Bool.and_eq_true] at h
  obtain ⟨hk, hv⟩ := h
  rw [hv, Bool.and_true]
  simp only [Bool.or_eq_true, beq_iff_eq] at hk
  rcases hk with ((rfl | rfl) | rfl) | rfl <;> rfl

theorem namesPerson_of_contains {k : String} {v : Json}
    (h : (["username", "name", "email"].contains k && v.truthy) = true) :
    namesPerson k v = true := by
  rw [Bool.and_eq_true] at h
  obtain ⟨hk, hv⟩ := h
  rw [namesPerson, hv, Bool.and_true]
  simp only [List.contains_cons, List.contains_nil, Bool.or_false, Bool.or_eq_true,
    beq_iff_eq] at hk
  rcases hk with rfl | rfl | rfl <;> rfl

/-- What is personal is masked, unless it is missed. -/
theorem masks_eq_of_personal {s : Place} {k : String} {v : Json} (h : personal s k v = true) :
    masks s k v = !missed s k v := by
  cases s with
  | creatorUser => exact contains_of_namesPerson h
  | infoUser => exact contains_of_namesPerson h
  | tree isUser =>
      cases isUser with
      | true => exact (namesPerson_eq k v).symm.trans h
      | false => exact absurd h Bool.false_ne_true
  | changes isUser =>
      rw [personal, namesPerson_eq, ← Bool.and_assoc] at h
      exact h
  | stray isUser => rfl
  | action =>
      rw [personal] at h
      rw [masks, missed, h, Bool.true_and, Bool.not_not]
  | info =>
      rw [personal] at h
      rw [masks, missed, h, Bool.true_and, Bool.not_not]
  | _ => exact absurd h Bool.false_ne_true

/-- What the mask redacts inside an event is personal. -/
theorem personal_of_masks {s : Place} {k : String} {v : Json} (h : masks s k v = true)
    (hs : s ≠ .event) : personal s k v = true := by
  cases s with
  | event => exact absurd rfl hs
  | creatorUser => exact namesPerson_of_contains h
  | infoUser => exact namesPerson_of_contains h
  | tree isUser =>
      cases isUser with
      | true => exact (namesPerson_eq k v).trans h
      | false => exact absurd h Bool.false_ne_true
  | changes isUser =>
      rw [masks, Bool.and_assoc, ← namesPerson_eq] at h
      exact h
  | action => exact (Bool.and_eq_true _ _ ▸ h : _ ∧ _).1
  | info => exact (Bool.and_eq_true _ _ ▸ h : _ ∧ _).1
  | _ => exact absurd h Bool.false_ne_true

/-- The actor and the address beside the event are texts of their own. -/
theorem enter_event_of_masks {k : String} {v : Json} (h : masks .event k v = true) :
    places.enter .event k = .other := by
  simp only [masks, Bool.or_eq_true, Bool.and_eq_true] at h
  rcases h with ⟨hk, -⟩ | ⟨hk, -⟩
  · rw [eq_of_beq hk]; rfl
  · rw [eq_of_beq hk]; rfl

/-- The mark is masked wherever another value is. -/
theorem masks_redacted {s : Place} {k : String} {v : Json} (h : masks s k v = true) :
    masks s k redacted = true := by
  cases s with
  | event =>
      simp only [masks, Bool.or_eq_true, Bool.and_eq_true] at h ⊢
      rcases h with ⟨hk, -⟩ | ⟨hk, -⟩
      · exact Or.inl ⟨hk, rfl, rfl⟩
      · exact Or.inr ⟨hk, rfl⟩
  | tree isUser =>
      cases isUser with
      | true => simp only [masks, Bool.and_eq_true] at h ⊢; exact ⟨h.1, rfl⟩
      | false => exact h
  | changes isUser =>
      simp only [masks, Bool.or_eq_true, Bool.and_eq_true] at h ⊢
      rcases h with hk | ⟨hk, -⟩
      · exact Or.inl hk
      · exact Or.inr ⟨hk, rfl⟩
  | creatorUser => simp only [masks, Bool.and_eq_true] at h ⊢; exact ⟨h.1, rfl⟩
  | infoUser => simp only [masks, Bool.and_eq_true] at h ⊢; exact ⟨h.1, rfl⟩
  | action => simp only [masks, Bool.and_eq_true] at h ⊢; exact ⟨h.1, rfl⟩
  | info => simp only [masks, Bool.and_eq_true] at h ⊢; exact ⟨h.1, rfl⟩
  | _ => exact h

/-- There is nothing to conceal in an empty value. -/
theorem conceal_of_not_truthy {s : Place} {v : Json} (h : v.truthy = false) :
    conceal places masks redacted s v = v := by
  cases v with
  | arr items =>
      cases items with
      | nil => rfl
      | cons j rest => exact absurd h (by simp [truthy])
  | obj fields =>
      cases fields with
      | nil => rfl
      | cons f rest => exact absurd h (by simp [truthy])
  | _ => rfl

/-- Under a key that is missed nothing more is masked. -/
theorem conceal_missed {s : Place} {k : String} {v : Json} (h : missed s k v = true) :
    conceal places masks redacted (places.enter s k) v = v := by
  cases s with
  | creatorUser => exact conceal_other v
  | infoUser => exact conceal_other v
  | stray isUser => exact conceal_stray _ v
  | action => exact conceal_of_not_truthy (Bool.not_eq_true' _ ▸ h)
  | info => exact conceal_of_not_truthy (Bool.not_eq_true' _ ▸ h)
  | _ => exact absurd h Bool.false_ne_true

theorem masks_but_missed : ConcealsBut places personal missed masks redacted where
  split _ _ _ h := masks_eq_of_personal h
  left s k v _ h := conceal_missed h
  shown s k v v' hv hv' hvv' := by
    by_cases hs : s = .event
    · subst hs
      have hsame : ∀ w, masks .event k w = true → v = v' := fun w hw =>
        eq_of_alike_other (enter_event_of_masks hw ▸ hvv')
      refine ⟨?_, hsame v⟩
      cases hmasks : masks .event k v with
      | true => rw [← hsame v hmasks, hmasks]
      | false =>
          cases hmasks' : masks .event k v' with
          | true => rw [← hmasks, ← hmasks', hsame v' hmasks']
          | false => rfl
    · -- what is not personal is not masked
      have hnot : ∀ w, personal s k w = false → masks s k w = false := fun w hw =>
        Bool.eq_false_iff.2 fun hm => absurd (personal_of_masks hm hs) (by rw [hw]; decide)
      rw [hnot v hv, hnot v' hv']
      exact ⟨rfl, fun h => absurd h Bool.false_ne_true⟩
  marked _ _ _ h := masks_redacted h

/-- Two events that differ only in what is personal are masked to the same event exactly when the
personal values that no rule of the mask is for are the same. -/
theorem masked_same_iff (a b : Json) (h : Alike places personal .event a b) :
    maskEvent a true = maskEvent b true ↔
      inSight places personal missed .event a = inSight places personal missed .event b := by
  rw [maskEvent_eq_conceal, maskEvent_eq_conceal]
  exact conceal_eq_iff masks_but_missed h

/-- A user signs in. -/
def signIn (username fullName : String) : Json :=
  .obj [("event_type", .str "user.sign_in"), ("created_by", .obj [("user",
    .obj [("username", .str username), ("full_name", .str fullName)])])]

theorem alike_signIn {username username' fullName fullName' : String} (h : username ≠ "")
    (h' : username' ≠ "") (hname : fullName ≠ "") (hname' : fullName' ≠ "") :
    Alike places personal .event (signIn username fullName) (signIn username' fullName') := by
  refine .obj (.shown rfl rfl (.same _ _) (.shown rfl rfl (.obj (.shown rfl rfl (.obj
    (.hidden ?_ ?_ (.hidden ?_ ?_ (.nil _)))) (.nil _))) (.nil _)))
  all_goals simpa [places, personal, namesPerson, truthy]

/-- Who signed in under another user name is masked, as long as the full name is the same. -/
theorem masked_same_iff_signIn :
    maskEvent (signIn "ann@lab" "Ann") true = maskEvent (signIn "ann@home" "Ann") true :=
  (masked_same_iff _ _ (alike_signIn (by decide) (by decide) (by decide) (by decide))).2 rfl

/-- The full name of who signed in is not masked. -/
theorem full_name_unmasked :
    Alike places personal .event (signIn "ann" "Ann") (signIn "ann" "Bob") ∧
      maskEvent (signIn "ann" "Ann") true ≠ maskEvent (signIn "ann" "Bob") true := by
  refine ⟨alike_signIn (by decide) (by decide) (by decide) (by decide), fun h => ?_⟩
  have hname : Json.str "Ann" = Json.str "Bob" :=
    congrArg (fun event => ((event.get "created_by").get "user").get "full_name") h
  exact absurd hname (by simp)

end IllumioOps.Siem
