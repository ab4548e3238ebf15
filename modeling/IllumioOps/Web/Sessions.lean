import IllumioOps.Rules.Schedules
import Mathlib.Data.List.Nodup

/-!
# Sessions of the admin

`web.auth`, and what `web.app` lets through: logins, logouts and changes of the password or the name, each a request
of several steps, side by side with one another and with changes of the settings. A session is the signed cookie and
the live entry under its `sid`; a change of the password or the name ends every other session and moves the signing
key on.

In every order of the steps a request is let through only for a live session, which a login opened with the name and
the password of the settings it read, and which no logout, login, change or expiry has ended (`safe_after`). A change
ends what was signed in before it, but for a login that had read the settings before the change and enters its session
after the others were ended: that session stays (`late_login_admitted`).
-/

set_option autoImplicit false

namespace IllumioOps.Sessions

/-! ## Settings, sessions and requests -/

/-- The `web` settings that signing in reads. -/
structure Web where
  username : String
  passwordHash : String
  secretKey : Nat
  mustChange : Bool
  lifetime : Int
  deriving DecidableEq, Repr

/-- `hash_password` and `verify_password` -/
structure Hashing where
  hash : String → String
  verify : String → String → Bool

/-- `str.strip` -/
def strip (text : String) : String := String.ofList (RuleSchedules.strip text.toList)

/-- A login whose name and password were right: what was typed, the version of the settings it read, and the name
these gave. -/
structure Login where
  typed : String
  password : String
  version : Nat
  name : String

/-- A live session. `version` is the newest version of the settings that it answers for: its login read it, or the
session made it. `names` are the names it signed in under. It is `late` where a change newer than what its login read
had ended the other sessions before it was entered. -/
structure Session where
  sid : Nat
  issued : Int
  login : Login
  version : Nat
  names : List String
  late : Bool

inductive Change where
  | password (new : String)
  | username (name : String)
  deriving DecidableEq, Repr

/-- The operations that need a session: those that `PASSWORD_CHANGE_OPS` names but for the public ones, the change of
the name, and all others. -/
inductive Op where
  | logout
  | password
  | me
  | username
  | other
  deriving DecidableEq, Repr

/-- `op_id in PASSWORD_CHANGE_OPS` -/
def Op.whileChanging : Op → Bool
  | .logout | .password | .me => true
  | .username | .other => false

/-- Where a request is. A login: its name and password are right; the old session is retired; expired ones are
pruned. A request that was let through. A change: what it read is right; it is saved; the other sessions are ended.
Last, the response is to be written. -/
inductive Phase where
  | arrived
  | checked (l : Login)
  | retired (l : Login)
  | pruned (l : Login)
  | admitted (op : Op)
  | asked (change : Change) (revision : Nat)
  | changed (change : Change) (key version : Nat)
  | revoked (change : Change) (key : Nat)
  | responding
  | done

/-- A request, with its session as the cookie gave it. -/
structure Request where
  sid : Option Nat
  user : Option String
  phase : Phase

/-- A cookie that was sent out, with the key it is signed with. -/
structure Cookie where
  sid : Option Nat
  user : Option String
  key : Nat

/-- The settings with those before them, the live sessions, the key of the application, and whatever cookies are in
someone's hands. `ended` are the ids of the sessions that are over, `changes` the versions that changes of the password
or the name made, `purged` the newest version that the others' sessions were ended for. -/
structure World where
  earlier : List Web
  web : Web
  revision : Nat
  appKey : Nat
  active : List Session
  requests : List Request
  cookies : List Cookie
  ended : List Nat
  changes : List Nat
  purged : Nat
  nextSid : Nat
  nextKey : Nat

def World.start (web : Web) : World :=
  ⟨[], web, 0, web.secretKey, [], [], [], [], [], 0, 0, web.secretKey + 1⟩

/-- The versions of the settings, oldest first. -/
def World.versions (w : World) : List Web := w.earlier ++ [w.web]

/-- The version that is current. -/
def World.version (w : World) : Nat := w.earlier.length

/-! ## What each request checks -/

/-- `PASSWORD_MIN_LEN` -/
def passwordMinLen : Nat := 12

/-- `PASSWORD_MAX_LEN` -/
def passwordMaxLen : Nat := 512

/-- `USERNAME_MAX_LEN` -/
def usernameMaxLen : Nat := 256

section Checks

variable (hashing : Hashing)

/-- The two checks of `login`. -/
def loginRight (web : Web) (username password : String) : Bool :=
  strip username = strip web.username && hashing.verify password web.passwordHash

/-- Why `change_password` refuses. -/
def passwordRefusal (cur : Web) (old : Option String) (new confirm : String) : Option String :=
  if cur.mustChange = false ∧ (old = none ∨ old = some "") then some "old_password_required"
  else if cur.mustChange = false ∧ (old.any fun p => hashing.verify p cur.passwordHash) = false then
    some "old_password_incorrect"
  else if ¬(passwordMinLen ≤ new.length ∧ new.length ≤ passwordMaxLen) ∨ new ≠ confirm then
    some "invalid_new_password"
  else none

/-- Why `change_username` refuses. -/
def usernameRefusal (cur : Web) (name current : String) : Option String :=
  if hashing.verify current cur.passwordHash = false then some "old_password_incorrect"
  else if ¬(1 ≤ (strip name).length ∧ (strip name).length ≤ usernameMaxLen) then some "invalid_username"
  else none

/-- `mutate` of either change. -/
def Change.mutate (web : Web) (key : Nat) : Change → Web
  | .password new => { web with passwordHash := hashing.hash new, secretKey := key, mustChange := false }
  | .username name => { web with username := name, secretKey := key }

end Checks

/-- The names that the change signs its session in under. -/
def Change.names : Change → List String
  | .password _ => []
  | .username name => [name]

/-- The session's user after the change. -/
def Change.user (change : Change) (user : Option String) : Option String :=
  match change with
  | .password _ => user
  | .username name => some name

/-! ## Steps -/

/-- `_load_user`: the live session of the request, under the current name. -/
def World.loadUser (w : World) (sid : Option Nat) (user : Option String) : Option Session :=
  if user = some w.web.username then sid.bind fun x => w.active.find? fun s => s.sid = x else none

/-- `require_login` of an operation that is not public: the session that the request is let through for. -/
def World.admits (w : World) (r : Request) (op : Op) : Option Session :=
  if w.web.mustChange = true ∧ op.whileChanging = false then none else w.loadUser r.sid r.user

def World.put (w : World) (n : Nat) (r : Request) : World := { w with requests := w.requests.set n r }

/-- A step of the request. -/
def World.ofRequest (w : World) (n : Nat) (f : Request → World) : World :=
  match w.requests[n]? with
  | some r => f r
  | none => w

/-- `_active().pop(session.get("sid", ""), None)` and `session.clear()` -/
def World.retire (w : World) (n : Nat) (r : Request) (next : Phase) : World :=
  { w.put n ⟨none, none, next⟩ with
    active := w.active.filter fun s => some s.sid ≠ r.sid
    ended := w.ended ++ r.sid.toList }

/-- `_prune_expired` -/
def World.pruneExpired (w : World) (now : Int) : World :=
  { w with
    active := w.active.filter fun s => ¬s.issued < now - w.web.lifetime
    ended := w.ended ++ (w.active.filter fun s => s.issued < now - w.web.lifetime).map Session.sid }

/-- The new session of a login. -/
def World.enter (w : World) (n : Nat) (l : Login) (now : Int) : World :=
  { w.put n ⟨some w.nextSid, some l.name, .responding⟩ with
    active := w.active ++ [⟨w.nextSid, now, l, l.version, [l.name], decide (l.version < w.purged)⟩]
    nextSid := w.nextSid + 1 }

/-- The settings become `web`. -/
def World.setWeb (w : World) (web : Web) (revision : Nat) : World :=
  { w with earlier := w.versions, web := web, revision := revision }

/-- The session answers for the version it made. -/
def Session.answerFor (s : Session) (version : Nat) (names : List String) : Session :=
  { s with version := version, names := s.names ++ names, late := false }

/-- `settings.update` of a change: its session answers for what it made. -/
def World.saveChange (hashing : Hashing) (w : World) (n : Nat) (r : Request) (change : Change) : World :=
  let w' := w.setWeb (change.mutate hashing w.web w.nextKey) (w.revision + 1)
  { w'.put n { r with phase := .changed change w.nextKey w'.version } with
    active := w.active.map fun s => if some s.sid = r.sid then s.answerFor w'.version change.names else s
    changes := w.changes ++ [w'.version]
    nextKey := w.nextKey + 1 }

/-- `_only_this_session` ends the other sessions. -/
def World.onlyThis (w : World) (n : Nat) (r : Request) (change : Change) (key version : Nat) : World :=
  { w.put n { r with phase := .revoked change key } with
    active := w.active.filter fun s => some s.sid = r.sid
    ended := w.ended ++ (w.active.filter fun s => some s.sid ≠ r.sid).map Session.sid
    purged := max w.purged version }

/-- The response carries the session, signed with the application's key. -/
def World.respond (w : World) (n : Nat) (r : Request) : World :=
  { w.put n { r with phase := .done } with cookies := w.cookies ++ [⟨r.sid, r.user, w.appKey⟩] }

inductive Action where
  /-- A request comes, with one of the cookies or without. -/
  | arrive (cookie : Option Nat)
  /-- `login` reads the settings and checks. -/
  | login (n : Nat) (username password : String)
  | retire (n : Nat)
  | prune (n : Nat) (now : Int)
  | enter (n : Nat) (now : Int)
  /-- `require_login` -/
  | allow (n : Nat) (op : Op)
  /-- Any other operation is done. -/
  | answer (n : Nat)
  | logout (n : Nat)
  /-- `change_password` reads the settings and checks. -/
  | changePassword (n : Nat) (old : Option String) (new confirm : String)
  /-- `change_username` reads the settings and checks. -/
  | changeUsername (n : Nat) (name current : String)
  | update (n : Nat) (written : Bool)
  | revoke (n : Nat)
  /-- The application's key moves on, and a new name is signed in. -/
  | rotate (n : Nat)
  | respond (n : Nat)
  /-- The settings change in another way: on another page, or by hand. -/
  | settings (web : Web) (revision : Nat)
  | restart

def Action.apply (hashing : Hashing) (w : World) : Action → World
  | .arrive cookie =>
      match cookie.bind fun i => w.cookies[i]? with
      | some c =>
          if c.key = w.appKey then { w with requests := w.requests ++ [⟨c.sid, c.user, .arrived⟩] }
          else { w with requests := w.requests ++ [⟨none, none, .arrived⟩] }
      | none => { w with requests := w.requests ++ [⟨none, none, .arrived⟩] }
  | .login n username password =>
      w.ofRequest n fun r =>
        match r.phase with
        | .arrived =>
            if loginRight hashing w.web username password then
              w.put n { r with phase := .checked ⟨username, password, w.version, w.web.username⟩ }
            else w.put n { r with phase := .responding }
        | _ => w
  | .retire n =>
      w.ofRequest n fun r =>
        match r.phase with
        | .checked l => w.retire n r (.retired l)
        | _ => w
  | .prune n now =>
      w.ofRequest n fun r =>
        match r.phase with
        | .retired l => (w.pruneExpired now).put n { r with phase := .pruned l }
        | _ => w
  | .enter n now =>
      w.ofRequest n fun r =>
        match r.phase with
        | .pruned l => w.enter n l now
        | _ => w
  | .allow n op =>
      w.ofRequest n fun r =>
        match r.phase with
        | .arrived =>
            if (w.admits r op).isSome then w.put n { r with phase := .admitted op }
            else w.put n { r with phase := .responding }
        | _ => w
  | .answer n =>
      w.ofRequest n fun r =>
        match r.phase with
        | .admitted .me | .admitted .other => w.put n { r with phase := .responding }
        | _ => w
  | .logout n =>
      w.ofRequest n fun r =>
        match r.phase with
        | .admitted .logout => w.retire n r .responding
        | _ => w
  | .changePassword n old new confirm =>
      w.ofRequest n fun r =>
        match r.phase with
        | .admitted .password =>
            match passwordRefusal hashing w.web old new confirm with
            | none => w.put n { r with phase := .asked (.password new) w.revision }
            | some _ => w.put n { r with phase := .responding }
        | _ => w
  | .changeUsername n name current =>
      w.ofRequest n fun r =>
        match r.phase with
        | .admitted .username =>
            match usernameRefusal hashing w.web name current with
            | none => w.put n { r with phase := .asked (.username (strip name)) w.revision }
            | some _ => w.put n { r with phase := .responding }
        | _ => w
  | .update n written =>
      w.ofRequest n fun r =>
        match r.phase with
        | .asked change revision =>
            if w.revision = revision ∧ written = true then w.saveChange hashing n r change
            else w.put n { r with phase := .responding }
        | _ => w
  | .revoke n =>
      w.ofRequest n fun r =>
        match r.phase with
        | .changed change key version => w.onlyThis n r change key version
        | _ => w
  | .rotate n =>
      w.ofRequest n fun r =>
        match r.phase with
        | .revoked change key =>
            { w.put n { r with user := change.user r.user, phase := .responding } with appKey := key }
        | _ => w
  | .respond n =>
      w.ofRequest n fun r =>
        match r.phase with
        | .responding => w.respond n r
        | _ => w
  | .settings web revision => w.setWeb web revision
  | .restart =>
      { w with
        appKey := w.web.secretKey, active := [], requests := []
        ended := w.ended ++ w.active.map Session.sid
        purged := w.version }

def after (hashing : Hashing) (web : Web) (actions : List Action) : World :=
  actions.foldl (Action.apply hashing) (World.start web)

/-! ## What holds -/

/-- The name and the password were those of the settings that the login read. -/
def Login.Right (hashing : Hashing) (versions : List Web) (l : Login) : Prop :=
  ∃ web, versions[l.version]? = some web ∧ loginRight hashing web l.typed l.password = true ∧ l.name = web.username

/-- The login that the request is. -/
def Phase.login : Phase → Option Login
  | .checked l | .retired l | .pruned l => some l
  | _ => none

/-- The version that the request made and has not ended the other sessions for. -/
def Phase.pending : Phase → Option Nat
  | .changed _ _ version => some version
  | _ => none

/-- The change that the request has saved and not signed in under yet. -/
def Phase.saved : Phase → Option Change
  | .changed change _ _ | .revoked change _ => some change
  | _ => none

theorem Phase.pending_eq_none {p : Phase} (h : p.saved = none) : p.pending = none := by
  cases p with
  | changed => cases h
  | _ => rfl

/-- A live session is not over, and answers for the newest change that ended the others, unless it is late. -/
structure Session.Ok (hashing : Hashing) (w : World) (s : Session) : Prop where
  sid : s.sid < w.nextSid
  live : s.sid ∉ w.ended
  login : s.login.Right hashing w.versions
  version : s.login.version ≤ s.version ∧ s.version ≤ w.version
  revoked : s.late = true ∨ w.purged ≤ s.version
  late : s.late = true → s.login.version < w.purged

/-- What a cookie or a request carries of a live session is one of its names. -/
structure Held (w : World) (sid : Option Nat) (user : Option String) : Prop where
  known : ∀ x, sid = some x → x < w.nextSid
  names : ∀ s ∈ w.active, sid = some s.sid → ∃ name ∈ s.names, user = some name

structure Request.Ok (hashing : Hashing) (w : World) (r : Request) : Prop where
  held : Held w r.sid r.user
  login : ∀ l, r.phase.login = some l → l.Right hashing w.versions
  pending : ∀ v, r.phase.pending = some v → v ≤ w.version ∧ ∀ s ∈ w.active, r.sid = some s.sid → v ≤ s.version
  saved : ∀ change, r.phase.saved = some change → ∀ s ∈ w.active, r.sid = some s.sid → change.names ⊆ s.names

structure World.Ok (hashing : Hashing) (w : World) : Prop where
  distinct : (w.active.map Session.sid).Nodup
  sessions : ∀ s ∈ w.active, s.Ok hashing w
  ended : ∀ x ∈ w.ended, x < w.nextSid
  requests : ∀ r ∈ w.requests, r.Ok hashing w
  cookies : ∀ c ∈ w.cookies, Held w c.sid c.user
  changes : ∀ v ∈ w.changes, v ≤ w.purged ∨ ∃ r ∈ w.requests, r.phase.pending = some v
  purged : w.purged ≤ w.version

/-- A world after another: versions are kept, and a live session is new or was live, with no more given up. -/
structure Later (w w' : World) : Prop where
  nextSid : w.nextSid ≤ w'.nextSid
  version : w.version ≤ w'.version
  versions : ∀ (v : Nat) (web : Web), w.versions[v]? = some web → w'.versions[v]? = some web
  active : ∀ s' ∈ w'.active, w.nextSid ≤ s'.sid ∨
    ∃ s ∈ w.active, s.sid = s'.sid ∧ s.names ⊆ s'.names ∧ s.version ≤ s'.version

section Later

variable {hashing : Hashing} {w w' : World} {n : Nat} {r r' : Request}

/-- Only live sessions go. -/
theorem Later.of_subset (hnext : w'.nextSid = w.nextSid) (hearlier : w'.earlier = w.earlier) (hweb : w'.web = w.web)
    (hactive : w'.active ⊆ w.active) : Later w w' where
  nextSid := Nat.le_of_eq hnext.symm
  version := by rw [World.version, World.version, hearlier]
  versions v web hv := by
    rw [World.versions, hearlier, hweb]
    exact hv
  active s hs := Or.inr ⟨s, hactive hs, rfl, List.Subset.refl _, Nat.le_refl _⟩

theorem Login.Right.later {l : Login} (h : l.Right hashing w.versions) (hlater : Later w w') :
    l.Right hashing w'.versions := by
  obtain ⟨web, hweb, hright, hname⟩ := h
  exact ⟨web, hlater.versions _ _ hweb, hright, hname⟩

theorem Login.Right.version_le {l : Login} (h : l.Right hashing w.versions) : l.version ≤ w.version := by
  obtain ⟨web, hweb, -⟩ := h
  have hlt := (List.getElem?_eq_some_iff.1 hweb).1
  rw [World.versions, List.length_append, List.length_singleton] at hlt
  exact Nat.le_of_lt_succ hlt

theorem Held.later {sid : Option Nat} {user : Option String} (h : Held w sid user) (hlater : Later w w') :
    Held w' sid user where
  known x hx := Nat.lt_of_lt_of_le (h.known x hx) hlater.nextSid
  names s' hs' hsid := by
    rcases hlater.active s' hs' with hnew | ⟨s, hs, heq, hnames, -⟩
    · exact absurd (h.known _ hsid) (Nat.not_lt.2 hnew)
    · obtain ⟨name, hname, huser⟩ := h.names s hs (hsid.trans (congrArg some heq.symm))
      exact ⟨name, hnames hname, huser⟩

theorem Request.Ok.later (h : r.Ok hashing w) (hlater : Later w w') : r.Ok hashing w' where
  held := h.held.later hlater
  login l hl := (h.login l hl).later hlater
  pending v hv := by
    obtain ⟨hle, hactive⟩ := h.pending v hv
    refine ⟨Nat.le_trans hle hlater.version, fun s' hs' hsid => ?_⟩
    rcases hlater.active s' hs' with hnew | ⟨s, hs, heq, -, hversion⟩
    · exact absurd (h.held.known _ hsid) (Nat.not_lt.2 hnew)
    · exact Nat.le_trans (hactive s hs (hsid.trans (congrArg some heq.symm))) hversion
  saved change hc s' hs' hsid := by
    rcases hlater.active s' hs' with hnew | ⟨s, hs, heq, hnames, -⟩
    · exact absurd (h.held.known _ hsid) (Nat.not_lt.2 hnew)
    · exact List.Subset.trans (h.saved change hc s hs (hsid.trans (congrArg some heq.symm))) hnames

theorem Held.nobody : Held w none none := ⟨fun _ hx => (nomatch hx), fun _ _ hx => (nomatch hx)⟩

theorem World.Ok.distinct_filter (h : w.Ok hashing) (p : Session → Bool) :
    ((w.active.filter p).map Session.sid).Nodup :=
  h.distinct.sublist (List.filter_sublist.map _)

/-- Sessions are told apart by their ids. -/
theorem World.Ok.eq_of_sid (h : w.Ok hashing) {s s' : Session} (hs : s ∈ w.active) (hs' : s' ∈ w.active)
    (hsid : s.sid = s'.sid) : s = s' :=
  List.inj_on_of_nodup_map h.distinct hs hs' hsid

/-- A request goes on, and the world with it. -/
theorem World.Ok.goesOn (h : w.Ok hashing) (hr : w.requests[n]? = some r) (hlater : Later w w')
    (hrequests : w'.requests = w.requests.set n r') (hr' : r'.Ok hashing w')
    (hdistinct : (w'.active.map Session.sid).Nodup) (hsessions : ∀ s ∈ w'.active, s.Ok hashing w') (hended : ∀ x ∈ w'.ended, x < w'.nextSid)
    (hcookies : ∀ c ∈ w'.cookies, c ∈ w.cookies ∨ Held w' c.sid c.user)
    (hchanges : ∀ v ∈ w'.changes, v ∈ w.changes ∨ r'.phase.pending = some v) (hpurged : w.purged ≤ w'.purged)
    (hpending : ∀ v, r.phase.pending = some v → v ≤ w'.purged) (hversion : w'.purged ≤ w'.version) :
    w'.Ok hashing where
  distinct := hdistinct
  sessions := hsessions
  ended := hended
  requests q hq := by
    rw [hrequests] at hq
    rcases List.mem_or_eq_of_mem_set hq with hq | rfl
    · exact (h.requests q hq).later hlater
    · exact hr'
  cookies c hc := by
    rcases hcookies c hc with hc | hc
    · exact (h.cookies c hc).later hlater
    · exact hc
  changes v hv := by
    obtain ⟨hn, rfl⟩ := List.getElem?_eq_some_iff.1 hr
    rw [hrequests]
    rcases hchanges v hv with hv | hv
    · rcases h.changes v hv with hle | ⟨q, hq, hpend⟩
      · exact Or.inl (Nat.le_trans hle hpurged)
      · obtain ⟨m, hm, rfl⟩ := List.mem_iff_getElem.1 hq
        by_cases hmn : m = n
        · subst hmn
          exact Or.inl (hpending v hpend)
        · refine Or.inr ⟨_, List.mem_iff_getElem.2 ⟨m, by simpa using hm, rfl⟩, ?_⟩
          rw [List.getElem_set_ne (Ne.symm hmn)]
          exact hpend
    · exact Or.inr ⟨r', List.mem_set hn r', hv⟩
  purged := hversion

/-- Only the phase of a request changes. -/
theorem World.Ok.setPhase (h : w.Ok hashing) (hr : w.requests[n]? = some r) {next : Phase}
    (hpending : r.phase.pending = none) (hnext : next.saved = none)
    (hlogin : ∀ l, next.login = some l → l.Right hashing w.versions) :
    World.Ok hashing (w.put n { r with phase := next }) := by
  have hlater : Later w (w.put n { r with phase := next }) := Later.of_subset rfl rfl rfl (List.Subset.refl _)
  have hheld := (h.requests r (List.mem_of_getElem? hr)).held
  refine h.goesOn hr hlater rfl ⟨hheld.later hlater, hlogin, fun v hv => ?_, fun c hc => ?_⟩ h.distinct
    (fun s hs => ?_) h.ended (fun c hc => Or.inl hc) (fun v hv => Or.inl hv) (Nat.le_refl _) (fun v hv => ?_) h.purged
  · rw [Phase.pending_eq_none hnext] at hv
    cases hv
  · rw [hnext] at hc
    cases hc
  · have hs' := h.sessions s hs
    exact ⟨hs'.sid, hs'.live, hs'.login, hs'.version, hs'.revoked, hs'.late⟩
  · rw [hpending] at hv
    cases hv

/-! ## Each step -/

theorem ok_start (web : Web) : (World.start web).Ok hashing where
  distinct := List.nodup_nil
  sessions _ hs := nomatch hs
  ended _ hx := nomatch hx
  requests _ hr := nomatch hr
  cookies _ hc := nomatch hc
  changes _ hv := nomatch hv
  purged := Nat.le_refl _

/-- A request comes. -/
theorem World.Ok.arrives (h : w.Ok hashing) {sid : Option Nat} {user : Option String} (hheld : Held w sid user) :
    World.Ok hashing { w with requests := w.requests ++ [⟨sid, user, .arrived⟩] } where
  distinct := h.distinct
  sessions s hs := by
    have hs' := h.sessions s hs
    exact ⟨hs'.sid, hs'.live, hs'.login, hs'.version, hs'.revoked, hs'.late⟩
  ended := h.ended
  requests q hq := by
    rcases List.mem_append.1 hq with hq | hq
    · exact (h.requests q hq).later (Later.of_subset rfl rfl rfl (List.Subset.refl _))
    · obtain rfl := List.mem_singleton.1 hq
      exact ⟨⟨hheld.known, hheld.names⟩, fun _ hl => (nomatch hl), fun _ hv => (nomatch hv), fun _ hc => (nomatch hc)⟩
  cookies c hc := (h.cookies c hc).later (Later.of_subset rfl rfl rfl (List.Subset.refl _))
  changes v hv := (h.changes v hv).imp_right fun ⟨q, hq, hpend⟩ => ⟨q, List.mem_append_left _ hq, hpend⟩
  purged := h.purged

/-- The sessions that are left are not over when those that went are. -/
theorem Session.Ok.left {s : Session} (h : s.Ok hashing w) (hearlier : w'.earlier = w.earlier) (hweb : w'.web = w.web)
    (hnext : w'.nextSid = w.nextSid) (hpurged : w'.purged = w.purged) (hlive : s.sid ∉ w'.ended) : s.Ok hashing w' where
  sid := by rw [hnext]; exact h.sid
  live := hlive
  login := by rw [World.versions, hearlier, hweb]; exact h.login
  version := by rw [World.version, hearlier]; exact h.version
  revoked := by rw [hpurged]; exact h.revoked
  late := by rw [hpurged]; exact h.late

theorem World.Ok.retire (h : w.Ok hashing) (hr : w.requests[n]? = some r) (hpending : r.phase.pending = none)
    {next : Phase} (hnext : next.saved = none) (hlogin : ∀ l, next.login = some l → l.Right hashing w.versions) :
    (w.retire n r next).Ok hashing := by
  have hlater : Later w (w.retire n r next) := Later.of_subset rfl rfl rfl fun s hs => (List.mem_filter.1 hs).1
  refine h.goesOn hr hlater rfl ⟨Held.nobody, hlogin, fun v hv => ?_, fun c hc => ?_⟩ (h.distinct_filter _)
    (fun s hs => ?_) (fun x hx => ?_) (fun c hc => Or.inl hc) (fun v hv => Or.inl hv) (Nat.le_refl _) (fun v hv => ?_)
    h.purged
  · rw [Phase.pending_eq_none hnext] at hv
    cases hv
  · rw [hnext] at hc
    cases hc
  · obtain ⟨hs, hother⟩ := List.mem_filter.1 hs
    refine (h.sessions s hs).left rfl rfl rfl rfl fun hended => ?_
    rcases List.mem_append.1 hended with hended | hended
    · exact (h.sessions s hs).live hended
    · rw [Option.mem_toList] at hended
      exact of_decide_eq_true hother hended.symm
  · rcases List.mem_append.1 hx with hx | hx
    · exact h.ended x hx
    · exact (h.requests r (List.mem_of_getElem? hr)).held.known x (Option.mem_toList.1 hx)
  · rw [hpending] at hv
    cases hv

/-- Sessions that are not kept are over. -/
theorem World.Ok.not_ended (h : w.Ok hashing) {s : Session} (hs : s ∈ w.active) {p : Session → Bool} (hp : p s = false) :
    s.sid ∉ w.ended ++ (w.active.filter p).map Session.sid := by
  intro hended
  rcases List.mem_append.1 hended with hended | hended
  · exact (h.sessions s hs).live hended
  · obtain ⟨q, hq, hsid⟩ := List.mem_map.1 hended
    obtain ⟨hq, hpq⟩ := List.mem_filter.1 hq
    rw [h.eq_of_sid hq hs hsid, hp] at hpq
    cases hpq

theorem World.Ok.ended_lt (h : w.Ok hashing) {p : Session → Bool} {x : Nat}
    (hx : x ∈ w.ended ++ (w.active.filter p).map Session.sid) : x < w.nextSid := by
  rcases List.mem_append.1 hx with hx | hx
  · exact h.ended x hx
  · obtain ⟨q, hq, rfl⟩ := List.mem_map.1 hx
    exact (h.sessions q (List.mem_filter.1 hq).1).sid

theorem World.Ok.pruneExpired (h : w.Ok hashing) (now : Int) : (w.pruneExpired now).Ok hashing := by
  have hlater : Later w (w.pruneExpired now) := Later.of_subset rfl rfl rfl fun s hs => (List.mem_filter.1 hs).1
  refine ⟨h.distinct_filter _, fun s hs => ?_, fun x hx => h.ended_lt hx, fun q hq => (h.requests q hq).later hlater,
    fun c hc => (h.cookies c hc).later hlater, h.changes, h.purged⟩
  obtain ⟨hs, hfresh⟩ := List.mem_filter.1 hs
  refine (h.sessions s hs).left rfl rfl rfl rfl (h.not_ended hs ?_)
  simpa using hfresh

theorem World.Ok.enter (h : w.Ok hashing) (hr : w.requests[n]? = some r) {l : Login} (hphase : r.phase = .pruned l)
    (now : Int) : (w.enter n l now).Ok hashing := by
  have hright := (h.requests r (List.mem_of_getElem? hr)).login l (by rw [hphase]; rfl)
  have hfresh : ∀ s ∈ w.active, s.sid ≠ w.nextSid := fun s hs => Nat.ne_of_lt (h.sessions s hs).sid
  have hlater : Later w (w.enter n l now) := by
    refine ⟨Nat.le_succ _, Nat.le_refl _, fun _ _ hv => hv, fun s hs => ?_⟩
    rcases List.mem_append.1 hs with hs | hs
    · exact Or.inr ⟨s, hs, rfl, List.Subset.refl _, Nat.le_refl _⟩
    · obtain rfl := List.mem_singleton.1 hs
      exact Or.inl (Nat.le_refl _)
  refine h.goesOn hr hlater rfl ⟨⟨fun x hx => ?_, fun s hs hsid => ?_⟩, fun _ hl => (nomatch hl),
    fun _ hv => (nomatch hv), fun _ hc => (nomatch hc)⟩ ?_ (fun s hs => ?_) (fun x hx => Nat.lt_succ_of_lt (h.ended x hx))
    (fun c hc => Or.inl hc) (fun v hv => Or.inl hv) (Nat.le_refl _) (fun v hv => ?_) h.purged
  · obtain rfl := Option.some.inj hx
    exact Nat.lt_succ_self _
  · rcases List.mem_append.1 hs with hs | hs
    · exact absurd (Option.some.inj hsid).symm (hfresh s hs)
    · obtain rfl := List.mem_singleton.1 hs
      exact ⟨l.name, List.mem_singleton_self _, rfl⟩
  · unfold World.enter
    rw [List.map_append, List.nodup_append]
    refine ⟨h.distinct, List.nodup_singleton _, fun x hx y hy => ?_⟩
    obtain ⟨s, hs, rfl⟩ := List.mem_map.1 hx
    obtain rfl := List.mem_singleton.1 hy
    exact hfresh s hs
  · rcases List.mem_append.1 hs with hs | hs
    · have hs' := h.sessions s hs
      exact ⟨Nat.lt_succ_of_lt hs'.sid, hs'.live, hs'.login, hs'.version, hs'.revoked, hs'.late⟩
    · obtain rfl := List.mem_singleton.1 hs
      refine ⟨Nat.lt_succ_self _, fun hended => Nat.lt_irrefl _ (h.ended _ hended), hright, ⟨Nat.le_refl _, hright.version_le⟩, ?_,
        of_decide_eq_true⟩
      by_cases hlt : l.version < w.purged
      · exact Or.inl (decide_eq_true hlt)
      · exact Or.inr (Nat.le_of_not_lt hlt)
  · rw [hphase] at hv
    cases hv

/-- The settings become others. -/
theorem later_setWeb (web : Web) (revision : Nat) : Later w (w.setWeb web revision) where
  nextSid := Nat.le_refl _
  version := by
    simp only [World.version, World.setWeb, World.versions, List.length_append]
    omega
  versions v web' hv := by
    have hlt := (List.getElem?_eq_some_iff.1 hv).1
    simp only [World.setWeb, World.versions] at hv hlt ⊢
    rw [List.getElem?_append_left hlt]
    exact hv
  active s hs := Or.inr ⟨s, hs, rfl, List.Subset.refl _, Nat.le_refl _⟩

theorem version_setWeb (web : Web) (revision : Nat) : (w.setWeb web revision).version = w.version + 1 := by
  simp [World.version, World.setWeb, World.versions]

theorem World.Ok.setWeb (h : w.Ok hashing) (web : Web) (revision : Nat) : (w.setWeb web revision).Ok hashing where
  distinct := h.distinct
  sessions s hs := by
    have hs' := h.sessions s hs
    have hlater : Later w (w.setWeb web revision) := later_setWeb web revision
    exact ⟨hs'.sid, hs'.live, hs'.login.later hlater,
      ⟨hs'.version.1, Nat.le_trans hs'.version.2 hlater.version⟩, hs'.revoked, hs'.late⟩
  ended := h.ended
  requests q hq := (h.requests q hq).later (later_setWeb web revision)
  cookies c hc := (h.cookies c hc).later (later_setWeb web revision)
  changes := h.changes
  purged := Nat.le_trans h.purged (later_setWeb web revision).version

theorem World.Ok.saveChange (h : w.Ok hashing) (hr : w.requests[n]? = some r) (hpending : r.phase.pending = none)
    (change : Change) : (w.saveChange hashing n r change).Ok hashing := by
  have h₁ := h.setWeb (change.mutate hashing w.web w.nextKey) (w.revision + 1)
  unfold World.saveChange
  dsimp only
  set w₁ := w.setWeb (change.mutate hashing w.web w.nextKey) (w.revision + 1)
  have hheld := (h₁.requests r (List.mem_of_getElem? hr)).held
  have hsid : ∀ s : Session, (if some s.sid = r.sid then s.answerFor w₁.version change.names else s).sid = s.sid := by
    intro s
    split <;> rfl
  -- the session of the request answers for the new version, and the others are as they were
  have hlater : Later w₁ { w₁.put n { r with phase := .changed change w.nextKey w₁.version } with
      active := w.active.map fun s => if some s.sid = r.sid then s.answerFor w₁.version change.names else s
      changes := w.changes ++ [w₁.version]
      nextKey := w.nextKey + 1 } := by
    refine ⟨Nat.le_refl _, Nat.le_refl _, fun _ _ hv => hv, fun s' hs' => ?_⟩
    obtain ⟨s, hs, rfl⟩ := List.mem_map.1 hs'
    refine Or.inr ⟨s, hs, (hsid s).symm, ?_⟩
    split
    · exact ⟨List.subset_append_left _ _, (h₁.sessions s hs).version.2⟩
    · exact ⟨List.Subset.refl _, Nat.le_refl _⟩
  refine h₁.goesOn hr hlater rfl ⟨hheld.later hlater, fun _ hl => (nomatch hl), fun v hv => ?_, fun c hc s' hs' hmine => ?_⟩
    ?_ (fun s' hs' => ?_) h₁.ended (fun c hc => Or.inl hc) (fun v hv => ?_) (Nat.le_refl _) (fun v hv => ?_) h₁.purged
  · obtain rfl := Option.some.inj hv
    refine ⟨Nat.le_refl _, fun s' hs' hmine => ?_⟩
    obtain ⟨s, hs, rfl⟩ := List.mem_map.1 hs'
    rw [hsid] at hmine
    rw [if_pos hmine.symm]
    exact Nat.le_refl _
  · obtain rfl := Option.some.inj hc
    obtain ⟨s, hs, rfl⟩ := List.mem_map.1 hs'
    rw [hsid] at hmine
    rw [if_pos hmine.symm]
    exact List.subset_append_right _ _
  · dsimp only
    rw [List.map_map, show Session.sid ∘ _ = Session.sid from funext hsid]
    exact h.distinct
  · obtain ⟨s, hs, rfl⟩ := List.mem_map.1 hs'
    have hs' := h₁.sessions s hs
    split
    · exact ⟨hs'.sid, hs'.live, hs'.login, ⟨hs'.login.version_le, Nat.le_refl _⟩, Or.inr h₁.purged,
        fun hlate => nomatch hlate⟩
    · exact ⟨hs'.sid, hs'.live, hs'.login, hs'.version, hs'.revoked, hs'.late⟩
  · rcases List.mem_append.1 hv with hv | hv
    · exact Or.inl hv
    · exact Or.inr (congrArg some (List.mem_singleton.1 hv).symm)
  · rw [hpending] at hv
    cases hv

theorem World.Ok.onlyThis (h : w.Ok hashing) (hr : w.requests[n]? = some r) {change : Change} {key version : Nat}
    (hphase : r.phase = .changed change key version) : (w.onlyThis n r change key version).Ok hashing := by
  have hr' := h.requests r (List.mem_of_getElem? hr)
  have hpending : r.phase.pending = some version := by rw [hphase]; rfl
  obtain ⟨hversion, hmine⟩ := hr'.pending version hpending
  have hlater : Later w (w.onlyThis n r change key version) :=
    Later.of_subset rfl rfl rfl fun s hs => (List.mem_filter.1 hs).1
  refine h.goesOn hr hlater rfl ⟨hr'.held.later hlater, fun _ hl => (nomatch hl), fun _ hv => (nomatch hv), ?_⟩
    (h.distinct_filter _) (fun s hs => ?_) (fun x hx => h.ended_lt hx) (fun c hc => Or.inl hc) (fun v hv => Or.inl hv)
    (Nat.le_max_left _ _) (fun v hv => ?_) (Nat.max_le.2 ⟨h.purged, hversion⟩)
  · intro c hc s hs
    obtain rfl := Option.some.inj hc
    exact hr'.saved change (by rw [hphase]; rfl) s (List.mem_filter.1 hs).1
  · obtain ⟨hs, hown⟩ := List.mem_filter.1 hs
    have hs' := h.sessions s hs
    have hsid : some s.sid = r.sid := of_decide_eq_true hown
    refine ⟨hs'.sid, h.not_ended hs (by simp [hsid]), hs'.login, hs'.version, ?_,
      fun hlate => Nat.lt_of_lt_of_le (hs'.late hlate) (Nat.le_max_left _ _)⟩
    exact hs'.revoked.imp_right fun hle => Nat.max_le.2 ⟨hle, hmine s hs hsid.symm⟩
  · obtain rfl := Option.some.inj (hpending.symm.trans hv)
    exact Nat.le_max_right _ _

theorem World.Ok.rotate (h : w.Ok hashing) (hr : w.requests[n]? = some r) {change : Change} {key : Nat}
    (hphase : r.phase = .revoked change key) :
    World.Ok hashing { w.put n { r with user := change.user r.user, phase := .responding } with appKey := key } := by
  have hr' := h.requests r (List.mem_of_getElem? hr)
  have hlater : Later w { w.put n { r with user := change.user r.user, phase := .responding } with appKey := key } :=
    Later.of_subset rfl rfl rfl (List.Subset.refl _)
  refine h.goesOn hr hlater rfl ⟨⟨hr'.held.known, fun s hs hsid => ?_⟩, fun _ hl => (nomatch hl),
    fun _ hv => (nomatch hv), fun _ hc => (nomatch hc)⟩ h.distinct
    (fun s hs => (h.sessions s hs).left rfl rfl rfl rfl (h.sessions s hs).live) h.ended (fun c hc => Or.inl hc)
    (fun v hv => Or.inl hv) (Nat.le_refl _) (fun v hv => ?_) h.purged
  · cases change with
    | password => exact hr'.held.names s hs hsid
    | username name =>
      refine ⟨name, hr'.saved _ (by rw [hphase]; rfl) s hs hsid ?_, rfl⟩
      exact List.mem_singleton_self name
  · rw [hphase] at hv
    cases hv

theorem World.Ok.respond (h : w.Ok hashing) (hr : w.requests[n]? = some r) (hpending : r.phase.pending = none) :
    (w.respond n r).Ok hashing := by
  have hheld := (h.requests r (List.mem_of_getElem? hr)).held
  have hlater : Later w (w.respond n r) := Later.of_subset rfl rfl rfl (List.Subset.refl _)
  refine h.goesOn hr hlater rfl ⟨hheld.later hlater, fun _ hl => (nomatch hl), fun _ hv => (nomatch hv),
    fun _ hc => (nomatch hc)⟩ h.distinct
    (fun s hs => (h.sessions s hs).left rfl rfl rfl rfl (h.sessions s hs).live) h.ended (fun c hc => ?_)
    (fun v hv => Or.inl hv) (Nat.le_refl _) (fun v hv => ?_) h.purged
  · refine (List.mem_append.1 hc).imp_right fun hc => ?_
    obtain rfl := List.mem_singleton.1 hc
    exact hheld.later hlater
  · rw [hpending] at hv
    cases hv

theorem World.Ok.restart (h : w.Ok hashing) : (Action.apply hashing w .restart).Ok hashing where
  distinct := List.nodup_nil
  sessions _ hs := nomatch hs
  ended x hx := by
    rcases List.mem_append.1 hx with hx | hx
    · exact h.ended x hx
    · obtain ⟨s, hs, rfl⟩ := List.mem_map.1 hx
      exact (h.sessions s hs).sid
  requests _ hq := nomatch hq
  cookies c hc := ⟨(h.cookies c hc).known, fun _ hs => (nomatch hs)⟩
  changes v hv := by
    refine Or.inl ?_
    rcases h.changes v hv with hle | ⟨q, hq, hpend⟩
    · exact Nat.le_trans hle h.purged
    · exact ((h.requests q hq).pending v hpend).1
  purged := Nat.le_refl _

/-! ## Runs -/

theorem ofRequest_ok (h : w.Ok hashing) {f : Request → World}
    (hf : ∀ r, w.requests[n]? = some r → (f r).Ok hashing) : (w.ofRequest n f).Ok hashing := by
  unfold World.ofRequest
  split
  · exact hf _ ‹_›
  · exact h

theorem World.Ok.step (h : w.Ok hashing) (a : Action) : (a.apply hashing w).Ok hashing := by
  cases a with
  | arrive cookie =>
    dsimp only [Action.apply]
    split
    · rename_i c hc
      obtain ⟨i, -, hi⟩ := Option.bind_eq_some_iff.1 hc
      split
      · exact h.arrives (h.cookies c (List.mem_of_getElem? hi))
      · exact h.arrives Held.nobody
    · exact h.arrives Held.nobody
  | login n username password =>
    refine ofRequest_ok h fun r hr => ?_
    split
    · rename_i hphase
      have hpending : r.phase.pending = none := by rw [hphase]; rfl
      split
      · refine h.setPhase hr hpending rfl fun l hl => ?_
        obtain rfl := Option.some.inj hl
        refine ⟨w.web, ?_, ‹_›, rfl⟩
        simp [World.versions, World.version]
      · exact h.setPhase hr hpending rfl fun _ hl => nomatch hl
    · exact h
  | retire n =>
    refine ofRequest_ok h fun r hr => ?_
    split
    · rename_i l hphase
      refine h.retire hr (by rw [hphase]; rfl) rfl fun l' hl => ?_
      obtain rfl := Option.some.inj hl
      exact (h.requests r (List.mem_of_getElem? hr)).login l (by rw [hphase]; rfl)
    · exact h
  | prune n now =>
    refine ofRequest_ok h fun r hr => ?_
    split
    · rename_i l hphase
      refine (h.pruneExpired now).setPhase (r := r) hr (by rw [hphase]; rfl) rfl fun l' hl => ?_
      obtain rfl := Option.some.inj hl
      exact (h.requests r (List.mem_of_getElem? hr)).login l (by rw [hphase]; rfl)
    · exact h
  | enter n now =>
    refine ofRequest_ok h fun r hr => ?_
    split
    · exact h.enter hr ‹_› now
    · exact h
  | allow n op =>
    refine ofRequest_ok h fun r hr => ?_
    split
    · rename_i hphase
      split <;> exact h.setPhase hr (by rw [hphase]; rfl) rfl fun _ hl => nomatch hl
    · exact h
  | answer n =>
    refine ofRequest_ok h fun r hr => ?_
    split
    · rename_i hphase
      exact h.setPhase hr (by rw [hphase]; rfl) rfl fun _ hl => nomatch hl
    · rename_i hphase
      exact h.setPhase hr (by rw [hphase]; rfl) rfl fun _ hl => nomatch hl
    · exact h
  | logout n =>
    refine ofRequest_ok h fun r hr => ?_
    split
    · rename_i hphase
      exact h.retire hr (by rw [hphase]; rfl) rfl fun _ hl => nomatch hl
    · exact h
  | changePassword n old new confirm =>
    refine ofRequest_ok h fun r hr => ?_
    split
    · rename_i hphase
      split <;> exact h.setPhase hr (by rw [hphase]; rfl) rfl fun _ hl => nomatch hl
    · exact h
  | changeUsername n name current =>
    refine ofRequest_ok h fun r hr => ?_
    split
    · rename_i hphase
      split <;> exact h.setPhase hr (by rw [hphase]; rfl) rfl fun _ hl => nomatch hl
    · exact h
  | update n written =>
    refine ofRequest_ok h fun r hr => ?_
    split
    · rename_i change revision hphase
      split
      · exact h.saveChange hr (by rw [hphase]; rfl) change
      · exact h.setPhase hr (by rw [hphase]; rfl) rfl fun _ hl => nomatch hl
    · exact h
  | revoke n =>
    refine ofRequest_ok h fun r hr => ?_
    split
    · exact h.onlyThis hr ‹_›
    · exact h
  | rotate n =>
    refine ofRequest_ok h fun r hr => ?_
    split
    · exact h.rotate hr ‹_›
    · exact h
  | respond n =>
    refine ofRequest_ok h fun r hr => ?_
    split
    · rename_i hphase
      exact h.respond hr (by rw [hphase]; rfl)
    · exact h
  | settings web revision => exact h.setWeb web revision
  | restart => exact h.restart

theorem ok_foldl (h : w.Ok hashing) (actions : List Action) : (actions.foldl (Action.apply hashing) w).Ok hashing := by
  induction actions generalizing w with
  | nil => exact h
  | cons a rest ih => exact ih (h.step a)

end Later

/-- What holds of a request that is let through, and of its session: it is live, under the current name, and a login
opened it with the name and the password of the settings that the login read; every change since was made by the
session itself, is about to end the others, or had ended them before the login, which had read older settings, entered
the session. -/
structure Admission (hashing : Hashing) (w : World) (r : Request) (op : Op) (s : Session) : Prop where
  session : s ∈ w.active ∧ r.sid = some s.sid ∧ s.sid ∉ w.ended
  name : r.user = some w.web.username ∧ w.web.username ∈ s.names
  login : s.login.Right hashing w.versions
  mustChange : w.web.mustChange = true → op.whileChanging = true
  changes : ∀ v ∈ w.changes, v ≤ s.version ∨ (∃ q ∈ w.requests, q.phase.pending = some v) ∨
    (s.late = true ∧ s.login.version < v)

def World.Safe (hashing : Hashing) (w : World) : Prop :=
  ∀ r ∈ w.requests, ∀ op s, w.admits r op = some s → Admission hashing w r op s

theorem World.Ok.safe {hashing : Hashing} {w : World} (h : w.Ok hashing) : w.Safe hashing := by
  intro r hr op s hadmits
  unfold World.admits at hadmits
  split at hadmits
  · cases hadmits
  · rename_i hop
    unfold World.loadUser at hadmits
    split at hadmits
    · rename_i huser
      obtain ⟨x, hsid, hfound⟩ := Option.bind_eq_some_iff.1 hadmits
      have hs := List.mem_of_find?_eq_some hfound
      have hx : s.sid = x := by simpa using List.find?_some hfound
      subst hx
      have hok := h.sessions s hs
      obtain ⟨name, hname, hname'⟩ := (h.requests r hr).held.names s hs hsid
      refine ⟨⟨hs, hsid, hok.live⟩, ⟨huser, ?_⟩, hok.login, fun hmust => ?_, fun v hv => ?_⟩
      · rw [Option.some.inj (huser.symm.trans hname')]
        exact hname
      · by_contra hnot
        exact hop ⟨hmust, by simpa using hnot⟩
      · by_cases hle : v ≤ s.version
        · exact Or.inl hle
        · rcases h.changes v hv with hpurged | hpend
          · rcases hok.revoked with hlate | hrevoked
            · exact Or.inr (Or.inr ⟨hlate, Nat.lt_of_le_of_lt hok.version.1 (Nat.lt_of_not_le hle)⟩)
            · exact absurd (Nat.le_trans hpurged hrevoked) hle
          · exact Or.inr (Or.inl hpend)
    · cases hadmits

/-- Passwords that are kept as they are. -/
def plain : Hashing := ⟨id, fun password stored => decide (password = stored)⟩

/-- One session changes the password while a login with the old one is under way. -/
def lateRun : List Action :=
  [.arrive none, .login 0 "admin" "old", .retire 0, .prune 0 0, .enter 0 0, .respond 0,
    .arrive none, .login 1 "admin" "old",
    .arrive (some 0), .allow 2 .password, .changePassword 2 none "correct horse" "correct horse", .update 2 true,
    .revoke 2, .rotate 2, .respond 2,
    .retire 1, .prune 1 0, .enter 1 0, .respond 1, .arrive (some 2)]

theorem late_login_admitted :
    let w := after plain ⟨"admin", "old", 0, true, 100⟩ lateRun
    w.web.passwordHash = "correct horse" ∧ w.changes = [1] ∧ w.purged = 1 ∧
      (w.requests[3]?.bind fun r => (w.admits r .other).map fun s => (s.login.password, s.late)) =
        some ("old", true) := by
  decide +kernel

end IllumioOps.Sessions
