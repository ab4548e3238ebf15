import Mathlib.Data.List.DropRight
import Mathlib.Data.List.Nodup

/-!
# Saved secrets

The settings pages never receive a saved secret: they show `MASK`, and a blank or masked field that comes back means
the saved one. `merge_siem_destinations`, `merge_channels` and the PCE connection page put it in again, and refuse
where it would go with an endpoint that the operator changed. Between that check and the save, which names a revision,
other requests may save, and whatever runs keeps the settings it began with.

In every order of the steps, no secret is kept with or sent to an endpoint that it was not typed for
(`typed_after`). For SIEM destinations and channels the merged secret and its endpoint are of one snapshot, so no
condition is needed; the PCE page leaves out what it keeps, and the save fills it in from what is current by then. A
request that names the revision of a change it has not been checked against moves the new key to the old endpoint
(`guessed_revision`). What a page shows, sent back as it is, changes nothing (`siem_sent_back`, `channels_sent_back`,
`pce_sent_back`).
-/

set_option autoImplicit false

namespace IllumioOps.Credentials

/-! ## Settings -/

/-- `MASK` -/
def MASK : String := "********"

/-- `in ("", MASK)` -/
def Blank (value : String) : Prop := value = "" ∨ value = MASK

instance (value : String) : Decidable (Blank value) := inferInstanceAs (Decidable (_ ∨ _))

/-- `str.rstrip("/")` -/
def rstrip (url : String) : String := String.ofList (url.toList.rdropWhile (· = '/'))

/-- `verify_tls`: a flag, or the path of a CA bundle. -/
inductive VerifyTls where
  | flag (on : Bool)
  | bundle (path : String)
  deriving DecidableEq, Repr

/-- `str(verify_tls)` -/
def VerifyTls.str : VerifyTls → String
  | .flag true => "True"
  | .flag false => "False"
  | .bundle path => path

/-- `_ca_bundle`, `_verify_tls`: "a CA bundle must be an absolute path". -/
def VerifyTls.Valid : VerifyTls → Prop
  | .flag _ => True
  | .bundle path => path.toList.head? = some '/'

instance : DecidablePred VerifyTls.Valid
  | .flag _ => inferInstanceAs (Decidable True)
  | .bundle _ => inferInstanceAs (Decidable (_ = _))

/-- `PceSettings`: the address, and the two pairs of keys. -/
structure Pce where
  url : String
  verifyTls : VerifyTls
  apiKey : String
  apiSecret : String
  writeApiKey : String
  writeApiSecret : String
  deriving DecidableEq, Repr

/-- `SiemTransport` -/
inductive Transport where
  | udp
  | tcp
  | tls
  | hec
  deriving DecidableEq, Repr

/-- `str(transport)` -/
def Transport.str : Transport → String
  | .udp => "udp"
  | .tcp => "tcp"
  | .tls => "tls"
  | .hec => "hec"

/-- `SiemDestination`: its id, where it sends, and the token. -/
structure Destination where
  id : String
  transport : Transport
  host : String
  port : Nat
  verifyTls : VerifyTls
  hecToken : String
  deriving DecidableEq, Repr

/-- `SmtpChannel.security` -/
inductive Security where
  | plain
  | starttls
  | tls
  deriving DecidableEq, Repr

/-- `SmtpChannel` -/
structure Smtp where
  host : String
  port : Nat
  security : Security
  username : String
  password : String
  deriving DecidableEq, Repr

/-- `AlertChannels`: the mail server, and the one secret of each other channel. -/
structure Channels where
  smtp : Smtp
  accessToken : String
  botToken : String
  webhookUrl : String
  url : String
  deriving DecidableEq, Repr

/-- `ChannelKind` -/
inductive ChannelKind where
  | smtp
  | line
  | telegram
  | teams
  | webhook
  deriving DecidableEq, Repr

/-- `Settings`, as the schema admits them: `_http_url` leaves no slash at the end of the address, a CA bundle is an
absolute path, and the ids of the destinations differ (`_unique`). -/
structure Settings where
  revision : Nat
  pce : Pce
  siem : List Destination
  channels : Channels
  address : rstrip pce.url = pce.url
  bundle : pce.verifyTls.Valid
  bundles : ∀ d ∈ siem, d.verifyTls.Valid
  ids : (siem.map Destination.id).Nodup

/-- What a secret is for: an endpoint with how its certificate is checked, or a channel of its own. -/
inductive Place where
  | pce (url : String) (verifyTls : VerifyTls)
  | siem (transport : Transport) (host : String) (port : Nat) (verifyTls : VerifyTls)
  | smtp (host : String) (port : Nat) (security : Security) (username : String)
  | line
  | telegram
  | teams
  | webhook
  deriving DecidableEq, Repr

def Place.IsPce : Place → Prop
  | .pce _ _ => True
  | _ => False

instance : DecidablePred Place.IsPce
  | .pce _ _ => inferInstanceAs (Decidable True)
  | .siem _ _ _ _ | .smtp _ _ _ _ | .line | .telegram | .teams | .webhook => inferInstanceAs (Decidable False)

/-- A secret at a place. -/
abbrev Entrusted := Place × String

/-! ### What is kept, and what is sent -/

def Pce.place (p : Pce) : Place := .pce p.url p.verifyTls

def Destination.place (d : Destination) : Place := .siem d.transport d.host d.port d.verifyTls

def Smtp.place (s : Smtp) : Place := .smtp s.host s.port s.security s.username

def Pce.held (p : Pce) : List Entrusted :=
  [(p.place, p.apiKey), (p.place, p.apiSecret), (p.place, p.writeApiKey), (p.place, p.writeApiSecret)]

def Destination.held (d : Destination) : List Entrusted := [(d.place, d.hecToken)]

def Channels.held (c : Channels) : List Entrusted :=
  [(c.smtp.place, c.smtp.password), (.line, c.accessToken), (.telegram, c.botToken), (.teams, c.webhookUrl),
    (.webhook, c.url)]

def Settings.held (s : Settings) : List Entrusted :=
  s.pce.held ++ s.siem.flatMap Destination.held ++ s.channels.held

/-- `pce_client` -/
def Pce.sends (p : Pce) : List Entrusted := [(p.place, p.apiKey), (p.place, p.apiSecret)]

/-- `pce_write_client`: nothing without both. -/
def Pce.sendsWriting (p : Pce) : List Entrusted :=
  if p.writeApiKey ≠ "" ∧ p.writeApiSecret ≠ "" then [(p.place, p.writeApiKey), (p.place, p.writeApiSecret)] else []

/-- Only the HEC transport has a token to send. -/
def Destination.sends (d : Destination) : List Entrusted := if d.transport = .hec then d.held else []

/-- `_https_only` -/
def HttpsOnly (url : String) : Prop := "https://".toList <+: url.toList

instance (url : String) : Decidable (HttpsOnly url) := inferInstanceAs (Decidable (_ <+: _))

/-- `send`: SMTP signs in where there is a username; a webhook is called at its URL. -/
def Channels.sends (c : Channels) : ChannelKind → List Entrusted
  | .smtp => if c.smtp.username ≠ "" then [(c.smtp.place, c.smtp.password)] else []
  | .line => [(.line, c.accessToken)]
  | .telegram => [(.telegram, c.botToken)]
  | .teams => if HttpsOnly c.webhookUrl then [(.teams, c.webhookUrl)] else []
  | .webhook => if HttpsOnly c.url then [(.webhook, c.url)] else []

theorem sends_mem_pce {p : Pce} {x : Entrusted} (h : x ∈ p.sends) : x ∈ p.held := by
  simp only [Pce.sends, List.mem_cons, List.not_mem_nil, or_false] at h
  rcases h with rfl | rfl <;> simp [Pce.held]

theorem sendsWriting_mem {p : Pce} {x : Entrusted} (h : x ∈ p.sendsWriting) : x ∈ p.held := by
  simp only [Pce.sendsWriting] at h
  split at h
  · simp only [List.mem_cons, List.not_mem_nil, or_false] at h
    rcases h with rfl | rfl <;> simp [Pce.held]
  · cases h

theorem sends_mem_siem {d : Destination} {x : Entrusted} (h : x ∈ d.sends) : x ∈ d.held := by
  simp only [Destination.sends] at h
  split at h
  · exact h
  · cases h

theorem sends_mem_channels {c : Channels} {kind : ChannelKind} {x : Entrusted} (h : x ∈ c.sends kind) :
    x ∈ c.held := by
  cases kind with
  | smtp =>
      simp only [Channels.sends] at h
      split at h
      · rw [List.mem_singleton.1 h]
        simp [Channels.held]
      · cases h
  | line =>
      rw [List.mem_singleton.1 h]
      simp [Channels.held]
  | telegram =>
      rw [List.mem_singleton.1 h]
      simp [Channels.held]
  | teams =>
      simp only [Channels.sends] at h
      split at h
      · rw [List.mem_singleton.1 h]
        simp [Channels.held]
      · cases h
  | webhook =>
      simp only [Channels.sends] at h
      split at h
      · rw [List.mem_singleton.1 h]
        simp [Channels.held]
      · cases h

/-! ## What a page shows -/

/-- `redact`, of one secret -/
def masked (secret : String) : String := if secret = "" then "" else MASK

/-- `redact`, of the PCE connection -/
def Pce.redact (p : Pce) : Pce :=
  { p with
    apiKey := masked p.apiKey, apiSecret := masked p.apiSecret,
    writeApiKey := masked p.writeApiKey, writeApiSecret := masked p.writeApiSecret }

/-- `redact`, of a SIEM destination -/
def Destination.redact (d : Destination) : Destination := { d with hecToken := masked d.hecToken }

/-- `redact`, of the channels -/
def Channels.redact (c : Channels) : Channels :=
  { smtp := { c.smtp with password := masked c.smtp.password }
    accessToken := masked c.accessToken
    botToken := masked c.botToken
    webhookUrl := masked c.webhookUrl
    url := masked c.url }

theorem blank_masked (secret : String) : Blank (masked secret) := by
  by_cases h : secret = ""
  · exact Or.inl (if_pos h)
  · exact Or.inr (if_neg h)

/-! ## The merges -/

/-- What a SIEM destination's saved token may not follow without being typed again (`_SIEM_DESTINATION`). -/
def Destination.texts (d : Destination) : List String :=
  [d.transport.str, d.host, toString d.port, d.verifyTls.str]

/-- `by_id.get(id)`: the last of those with one id. -/
def oldOf (saved : List Destination) (id : String) : Option Destination := saved.reverse.find? (·.id = id)

/-- One item of `merge_siem_destinations`; the error is the field of `CredentialsRequired`. -/
def mergeDestination (saved : List Destination) (d : Destination) : Except String Destination :=
  if Blank d.hecToken then
    match oldOf saved d.id with
    | none => .ok { d with hecToken := "" }
    | some old =>
        if old.hecToken = "" then .ok { d with hecToken := "" }
        else if d.texts ≠ old.texts then .error ("siem.destinations." ++ old.id ++ ".hec_token")
        else .ok { d with hecToken := old.hecToken }
  else .ok d

/-- `merge_siem_destinations` -/
def mergeSiemDestinations (saved : List Destination) : List Destination → Except String (List Destination)
  | [] => .ok []
  | d :: rest =>
      match mergeDestination saved d with
      | .error field => .error field
      | .ok d =>
          match mergeSiemDestinations saved rest with
          | .error field => .error field
          | .ok out => .ok (d :: out)

/-- A secret that the page sent, or the saved one where it sent none. -/
def orSaved (saved submitted : String) : String := if Blank submitted then saved else submitted

/-- `merge_channels` -/
def mergeChannels (saved submitted : Channels) : Except String Channels :=
  let out : Channels :=
    { smtp := { submitted.smtp with password := orSaved saved.smtp.password submitted.smtp.password }
      accessToken := orSaved saved.accessToken submitted.accessToken
      botToken := orSaved saved.botToken submitted.botToken
      webhookUrl := orSaved saved.webhookUrl submitted.webhookUrl
      url := orSaved saved.url submitted.url }
  let kept := Blank submitted.smtp.password ∧ saved.smtp.password ≠ ""
  let moved := out.smtp.host ≠ saved.smtp.host ∨ out.smtp.port ≠ saved.smtp.port ∨
    out.smtp.security ≠ saved.smtp.security ∨ out.smtp.username ≠ saved.smtp.username
  if kept ∧ moved then .error "channels.smtp.password" else .ok out

/-- `PceConnectionUpdate`: the connection as the page sent it. -/
structure PceUpdate where
  pce : Pce
  clearWriteKey : Bool
  deriving DecidableEq, Repr

/-- The fields an update sets: the address and its check, and each secret it does not keep. -/
structure PceFields where
  url : String
  verifyTls : VerifyTls
  apiKey : Option String
  apiSecret : Option String
  writeApiKey : Option String
  writeApiSecret : Option String
  deriving DecidableEq, Repr

/-- A secret field of the body, unless it is blank or masked. -/
def typedIn (value : String) : Option String := if Blank value then none else some value

/-- `fields`, without the secrets that are kept -/
def PceUpdate.fields (b : PceUpdate) : PceFields where
  url := b.pce.url
  verifyTls := b.pce.verifyTls
  apiKey := typedIn b.pce.apiKey
  apiSecret := typedIn b.pce.apiSecret
  writeApiKey := if b.clearWriteKey then some "" else typedIn b.pce.writeApiKey
  writeApiSecret := if b.clearWriteKey then some "" else typedIn b.pce.writeApiSecret

/-- `moved`: another address, or another check of its certificate. -/
def PceUpdate.Moved (b : PceUpdate) (saved : Pce) : Prop :=
  rstrip b.pce.url ≠ saved.url ∨ b.pce.verifyTls ≠ saved.verifyTls

instance (b : PceUpdate) (saved : Pce) : Decidable (b.Moved saved) := inferInstanceAs (Decidable (_ ∨ _))

/-- The checks of `update_connection` on the secrets it would keep; the error is the field of the failure. -/
def PceUpdate.check (b : PceUpdate) (saved : Pce) : Except String PceFields :=
  if (Blank b.pce.apiKey ∨ Blank b.pce.apiSecret) ∧ b.Moved saved ∧ (saved.apiKey ≠ "" ∨ saved.apiSecret ≠ "") then
    .error "api_key"
  else if (Blank b.pce.writeApiKey ∨ Blank b.pce.writeApiSecret) ∧ b.clearWriteKey = false ∧ b.Moved saved ∧
      (saved.writeApiKey ≠ "" ∨ saved.writeApiSecret ≠ "") then
    .error "write_api_key"
  else .ok b.fields

/-- `d["pce"].update(fields)`, and what `_http_url` makes of the address. -/
def PceFields.into (f : PceFields) (p : Pce) : Pce where
  url := rstrip f.url
  verifyTls := f.verifyTls
  apiKey := f.apiKey.getD p.apiKey
  apiSecret := f.apiSecret.getD p.apiSecret
  writeApiKey := f.writeApiKey.getD p.writeApiKey
  writeApiSecret := f.writeApiSecret.getD p.writeApiSecret

/-! ### What a merge gives -/

theorem rstrip_rstrip (url : String) : rstrip (rstrip url) = rstrip url := by
  rw [rstrip, rstrip, String.toList_ofList, List.rdropWhile_idempotent]

theorem oldOf_mem {saved : List Destination} {id : String} {old : Destination} (h : oldOf saved id = some old) :
    old ∈ saved :=
  List.mem_reverse.1 (List.mem_of_find?_eq_some h)

/-- A merged destination is the submitted one but for the token: none, the one typed, or a saved one whose endpoint
reads the same. -/
theorem mergeDestination_cases {saved : List Destination} {d merged : Destination}
    (h : mergeDestination saved d = .ok merged) :
    ∃ token, merged = { d with hecToken := token } ∧
      (token = "" ∨ (¬ Blank d.hecToken ∧ token = d.hecToken) ∨
        ∃ old ∈ saved, d.texts = old.texts ∧ token = old.hecToken) := by
  simp only [mergeDestination] at h
  split at h
  · cases hold : oldOf saved d.id with
    | none =>
        rw [hold] at h
        cases h
        exact ⟨"", rfl, Or.inl rfl⟩
    | some old =>
        rw [hold] at h
        simp only at h
        split at h
        · cases h
          exact ⟨"", rfl, Or.inl rfl⟩
        · split at h
          · cases h
          · rename_i hsame
            cases h
            exact ⟨old.hecToken, rfl, Or.inr (Or.inr ⟨old, oldOf_mem hold, not_not.1 hsame, rfl⟩)⟩
  · rename_i htyped
    cases h
    exact ⟨d.hecToken, rfl, Or.inr (Or.inl ⟨htyped, rfl⟩)⟩

/-- Each merged destination is the merge of a submitted one. -/
theorem mem_mergeSiemDestinations {saved : List Destination} {submitted merged : List Destination}
    (h : mergeSiemDestinations saved submitted = .ok merged) {m : Destination} (hm : m ∈ merged) :
    ∃ d ∈ submitted, mergeDestination saved d = .ok m := by
  induction submitted generalizing merged with
  | nil =>
      cases h
      cases hm
  | cons d rest ih =>
      simp only [mergeSiemDestinations] at h
      cases hd : mergeDestination saved d with
      | error field =>
          rw [hd] at h
          cases h
      | ok first =>
          rw [hd] at h
          simp only at h
          cases hrest : mergeSiemDestinations saved rest with
          | error field =>
              rw [hrest] at h
              cases h
          | ok out =>
              rw [hrest] at h
              cases h
              rcases List.mem_cons.1 hm with rfl | hm
              · exact ⟨d, List.mem_cons_self, hd⟩
              · obtain ⟨e, he, hmerged⟩ := ih hrest hm
                exact ⟨e, List.mem_cons_of_mem _ he, hmerged⟩

theorem Transport.str_injective {a b : Transport} (h : a.str = b.str) : a = b := by
  cases a <;> cases b <;> first | rfl | (exact absurd h (by decide))

/-- A flag never reads as an absolute path. -/
theorem VerifyTls.str_injective {a b : VerifyTls} (ha : a.Valid) (hb : b.Valid) (h : a.str = b.str) : a = b := by
  cases a with
  | flag on =>
      cases b with
      | flag on' => cases on <;> cases on' <;> first | rfl | (exact absurd h (by decide))
      | bundle path =>
          have hpath : path.toList.head? = some '/' := hb
          rw [← show (VerifyTls.flag on).str = path from h] at hpath
          cases on <;> exact absurd hpath (by decide)
  | bundle path =>
      have hpath : path.toList.head? = some '/' := ha
      cases b with
      | flag on =>
          rw [show path = (VerifyTls.flag on).str from h] at hpath
          cases on <;> exact absurd hpath (by decide)
      | bundle path' => rw [show path = path' from h]

theorem port_text_injective {m n : Nat} (h : toString m = toString n) : m = n := by
  have hdigits : Nat.toDigits 10 m = Nat.toDigits 10 n := String.ofList_injective h
  calc m = Nat.ofDigitChars 10 (Nat.toDigits 10 m) 0 := (Nat.ofDigitChars_toDigits (by decide) (Nat.le_refl 10)).symm
    _ = Nat.ofDigitChars 10 (Nat.toDigits 10 n) 0 := by rw [hdigits]
    _ = n := Nat.ofDigitChars_toDigits (by decide) (Nat.le_refl 10)

/-- Endpoints that read the same are the same. -/
theorem place_of_texts {d e : Destination} (hd : d.verifyTls.Valid) (he : e.verifyTls.Valid)
    (h : d.texts = e.texts) : d.place = e.place := by
  simp only [Destination.texts, List.cons.injEq, and_true] at h
  obtain ⟨htransport, hhost, hport, hverify⟩ := h
  simp only [Destination.place, Transport.str_injective htransport, hhost, port_text_injective hport,
    VerifyTls.str_injective hd he hverify]

/-- The SMTP password that is not typed stays with the server and the account it is saved for. -/
theorem mergeChannels_cases {saved submitted merged : Channels} (h : mergeChannels saved submitted = .ok merged) :
    merged.accessToken = orSaved saved.accessToken submitted.accessToken ∧
    merged.botToken = orSaved saved.botToken submitted.botToken ∧
    merged.webhookUrl = orSaved saved.webhookUrl submitted.webhookUrl ∧
    merged.url = orSaved saved.url submitted.url ∧
    merged.smtp.place = submitted.smtp.place ∧
    ((¬ Blank submitted.smtp.password ∧ merged.smtp.password = submitted.smtp.password) ∨
      (Blank submitted.smtp.password ∧ merged.smtp.password = saved.smtp.password ∧
        (saved.smtp.password = "" ∨ submitted.smtp.place = saved.smtp.place))) := by
  simp only [mergeChannels] at h
  split at h
  · cases h
  · rename_i hrefused
    cases h
    refine ⟨rfl, rfl, rfl, rfl, rfl, ?_⟩
    by_cases hblank : Blank submitted.smtp.password
    · refine Or.inr ⟨hblank, if_pos hblank, ?_⟩
      by_cases hempty : saved.smtp.password = ""
      · exact Or.inl hempty
      · refine Or.inr ?_
        have hstays := not_and.1 hrefused ⟨hblank, hempty⟩
        simp only [not_or, ne_eq, not_not] at hstays
        obtain ⟨hhost, hport, hsecurity, husername⟩ := hstays
        simp only [Smtp.place, hhost, hport, hsecurity, husername]
    · exact Or.inl ⟨hblank, if_neg hblank⟩

/-- A key that the PCE page keeps is empty, or its address and its check stay. -/
theorem check_cases {b : PceUpdate} {saved : Pce} {fields : PceFields} (h : b.check saved = .ok fields) :
    fields = b.fields ∧
    ((Blank b.pce.apiKey ∨ Blank b.pce.apiSecret) → (saved.apiKey = "" ∧ saved.apiSecret = "") ∨ ¬ b.Moved saved) ∧
    ((Blank b.pce.writeApiKey ∨ Blank b.pce.writeApiSecret) → b.clearWriteKey = false →
      (saved.writeApiKey = "" ∧ saved.writeApiSecret = "") ∨ ¬ b.Moved saved) := by
  simp only [PceUpdate.check] at h
  split at h
  · cases h
  · rename_i hread
    split at h
    · cases h
    · rename_i hwrite
      cases h
      refine ⟨rfl, fun hkept => ?_, fun hkept hclear => ?_⟩
      · by_cases hmoved : b.Moved saved
        · have hempty : ¬ (saved.apiKey ≠ "" ∨ saved.apiSecret ≠ "") := fun h => hread ⟨hkept, hmoved, h⟩
          exact Or.inl (by simpa only [not_or, ne_eq, not_not] using hempty)
        · exact Or.inr hmoved
      · by_cases hmoved : b.Moved saved
        · have hempty : ¬ (saved.writeApiKey ≠ "" ∨ saved.writeApiSecret ≠ "") :=
            fun h => hwrite ⟨hkept, hclear, hmoved, h⟩
          exact Or.inl (by simpa only [not_or, ne_eq, not_not] using hempty)
        · exact Or.inr hmoved

/-! ### What a page shows, sent back -/

theorem orSaved_masked (secret : String) : orSaved secret (masked secret) = secret :=
  if_pos (blank_masked secret)

theorem oldOf_self {saved : List Destination} (hids : (saved.map Destination.id).Nodup) {d : Destination}
    (hd : d ∈ saved) : oldOf saved d.id = some d := by
  cases hold : oldOf saved d.id with
  | none =>
      have := List.find?_eq_none.1 hold d (List.mem_reverse.2 hd)
      simp at this
  | some old =>
      have hid : old.id = d.id := of_decide_eq_true (List.find?_some (p := fun e : Destination => e.id = d.id) hold)
      rw [List.inj_on_of_nodup_map hids (oldOf_mem hold) hd hid]

/-- What the page shows of the destinations, sent back, is what is saved. -/
theorem siem_sent_back (s : Settings) :
    mergeSiemDestinations s.siem (s.siem.map Destination.redact) = .ok s.siem := by
  have hkept : ∀ d ∈ s.siem, mergeDestination s.siem d.redact = .ok d := by
    intro d hd
    have hblank : Blank d.redact.hecToken := blank_masked d.hecToken
    have hold : oldOf s.siem d.redact.id = some d := oldOf_self s.ids hd
    have hsame : ¬ d.redact.texts ≠ d.texts := not_not.2 rfl
    rw [mergeDestination, if_pos hblank, hold]
    dsimp only
    by_cases hempty : d.hecToken = ""
    · rw [if_pos hempty, ← hempty]
      rfl
    · rw [if_neg hempty, if_neg hsame]
      rfl
  suffices h : ∀ list : List Destination, (∀ d ∈ list, mergeDestination s.siem d.redact = .ok d) →
      mergeSiemDestinations s.siem (list.map Destination.redact) = .ok list from h _ hkept
  intro list
  induction list with
  | nil => exact fun _ => rfl
  | cons d rest ih =>
      intro h
      rw [List.map_cons, mergeSiemDestinations, h d List.mem_cons_self]
      dsimp only
      rw [ih fun e he => h e (List.mem_cons_of_mem _ he)]

/-- What the page shows of the channels, sent back, is what is saved. -/
theorem channels_sent_back (c : Channels) : mergeChannels c c.redact = .ok c := by
  simp only [mergeChannels, Channels.redact, orSaved_masked, ne_eq, not_true_eq_false, or_self, and_false, if_false]

theorem typedIn_masked (secret : String) : typedIn (masked secret) = none := if_pos (blank_masked secret)

/-- What the page shows of the connection, sent back, is what is saved. -/
theorem pce_sent_back (s : Settings) :
    ∃ fields, PceUpdate.check ⟨s.pce.redact, false⟩ s.pce = .ok fields ∧ fields.into s.pce = s.pce := by
  have hstays : ¬ PceUpdate.Moved ⟨s.pce.redact, false⟩ s.pce := by
    rintro (hurl | hverify)
    · exact hurl s.address
    · exact hverify rfl
  refine ⟨PceUpdate.fields ⟨s.pce.redact, false⟩, ?_, ?_⟩
  · rw [PceUpdate.check, if_neg fun h => hstays h.2.1, if_neg fun h => hstays h.2.2.1]
  · simp only [PceFields.into, PceUpdate.fields, Pce.redact, typedIn_masked, Bool.false_eq_true, if_false,
      Option.getD_none, s.address]

/-! ## Requests, saves and runs -/

/-- A change that a request checked, for its save to make. -/
inductive Change where
  | pce (fields : PceFields)
  | siem (destinations : List Destination)
  | channels (channels : Channels)

/-- A request between its check and its save: the revision it names, and that of the settings it was checked
against. -/
structure Saving where
  revision : Nat
  read : Nat
  change : Change

/-- The requests that hold secrets. `keep` is the verdict of `same_pce.verify`, where the PCE page asks for it. -/
inductive Request where
  | pce (revision : Nat) (body : PceUpdate) (keep : Option Bool)
  | siem (revision : Nat) (destinations : List Destination)
  | siemTest (destination : Destination)
  | channels (revision : Nat) (channels : Channels)
  | channelTest (kinds : List ChannelKind) (channels : Option Channels)

/-- What a run of the product uses of the settings it began with. -/
inductive Use where
  | pce
  | pceWriting
  | siem (id : String)
  | channel (kind : ChannelKind)

/-- The settings, the settings that runs began with, the requests that are to save, what was typed at which place, and
what was sent where. It is `ahead` once a change of the PCE connection was saved under a later revision than that of
the settings it was checked against. -/
structure World where
  settings : Settings
  runs : List Settings
  savings : List Saving
  typed : List Entrusted
  sent : List Entrusted
  ahead : Bool

/-- What comes next: a request arrives and is checked, the `n`th of those checked saves, another section of the
settings is saved, a run begins, or the `n`th run sends. `valid` is what the rest of the schema says. -/
inductive Action where
  | ask (r : Request) (valid : Bool)
  | save (n : Nat) (valid : Bool)
  | other
  | begin
  | send (n : Nat) (use : Use)

def Settings.sends (s : Settings) : Use → List Entrusted
  | .pce => s.pce.sends
  | .pceWriting => s.pce.sendsWriting
  | .siem id => (s.siem.filter (·.id = id)).flatMap Destination.sends
  | .channel kind => s.channels.sends kind

/-- The secrets that a body holds itself. -/
def typedOf (held : List Entrusted) : List Entrusted := held.filter (¬ Blank ·.2)

/-- The connection of a body, its address as the schema makes it. -/
def PceUpdate.submitted (b : PceUpdate) : Pce := { b.pce with url := rstrip b.pce.url }

/-- `mutate`, and `Settings.model_validate`: no settings where a bundle is no path, or ids repeat. -/
def Change.into (s : Settings) : Change → Option Settings
  | .pce f =>
      if h : f.verifyTls.Valid then
        some { s with
          revision := s.revision + 1, pce := f.into s.pce, address := rstrip_rstrip f.url, bundle := h }
      else none
  | .siem ds =>
      if h : (∀ d ∈ ds, d.verifyTls.Valid) ∧ (ds.map Destination.id).Nodup then
        some { s with revision := s.revision + 1, siem := ds, bundles := h.1, ids := h.2 }
      else none
  | .channels c => some { s with revision := s.revision + 1, channels := c }

/-- A body arrives. -/
def World.enter (w : World) (held : List Entrusted) : World := { w with typed := w.typed ++ typedOf held }

/-- A change that was checked waits for its save. -/
def World.await (w : World) (revision : Nat) (change : Change) : World :=
  { w with savings := w.savings ++ [⟨revision, w.settings.revision, change⟩] }

def World.transmit (w : World) (more : List Entrusted) : World := { w with sent := w.sent ++ more }

/-- `update_connection`, up to the save. The credentials are sent to the new address before anything is saved. -/
def World.askPce (w : World) (revision : Nat) (body : PceUpdate) (keep : Option Bool) (valid : Bool) : World :=
  match body.check w.settings.pce with
  | .error _ => w
  | .ok fields =>
      match keep with
      | none => w.await revision (.pce fields)
      | some same =>
          if valid = true ∧ fields.verifyTls.Valid then
            let w := w.transmit (fields.into w.settings.pce).sends
            if same then w.await revision (.pce fields) else w
          else w.await revision (.pce fields)

/-- `update_settings` of `web.routes.siem`, up to the save -/
def World.askSiem (w : World) (revision : Nat) (destinations : List Destination) : World :=
  match mergeSiemDestinations w.settings.siem destinations with
  | .error _ => w
  | .ok merged =>
      if ∀ d ∈ merged, d.verifyTls.Valid then w.await revision (.siem merged) else w

/-- `test_destination` -/
def World.testDestination (w : World) (destination : Destination) (valid : Bool) : World :=
  match mergeDestination w.settings.siem destination with
  | .error _ => w
  | .ok merged => if valid = true ∧ merged.verifyTls.Valid then w.transmit merged.sends else w

/-- `update_channels`, up to the save -/
def World.askChannels (w : World) (revision : Nat) (channels : Channels) : World :=
  match mergeChannels w.settings.channels channels with
  | .error _ => w
  | .ok merged => w.await revision (.channels merged)

/-- `test_channel` and `test_all_channels`, with the page's values or the saved ones -/
def World.testChannels (w : World) (kinds : List ChannelKind) (channels : Option Channels) (valid : Bool) : World :=
  match channels with
  | none => w.transmit (kinds.flatMap w.settings.channels.sends)
  | some channels =>
      match mergeChannels w.settings.channels channels with
      | .error _ => w
      | .ok merged => if valid = true then w.transmit (kinds.flatMap merged.sends) else w

def Change.IsPce : Change → Prop
  | .pce _ => True
  | _ => False

instance : DecidablePred Change.IsPce
  | .pce _ => inferInstanceAs (Decidable True)
  | .siem _ | .channels _ => inferInstanceAs (Decidable False)

/-- `SettingsStore.update`: under another revision, or with an invalid result, nothing changes. -/
def World.save (w : World) (s : Saving) (valid : Bool) : World :=
  if s.revision = w.settings.revision ∧ valid = true then
    match s.change.into w.settings with
    | none => w
    | some new =>
        { w with settings := new, ahead := w.ahead || decide (s.change.IsPce ∧ s.read ≠ s.revision) }
  else w

/-- What a body holds, each secret at the place it is submitted for. -/
def Request.held : Request → List Entrusted
  | .pce _ body _ => body.submitted.held
  | .siem _ destinations => destinations.flatMap Destination.held
  | .siemTest destination => destination.held
  | .channels _ submitted => submitted.held
  | .channelTest _ none => []
  | .channelTest _ (some submitted) => submitted.held

def Request.handle : Request → Bool → World → World
  | .pce revision body keep, valid, w => w.askPce revision body keep valid
  | .siem revision destinations, _, w => w.askSiem revision destinations
  | .siemTest destination, valid, w => w.testDestination destination valid
  | .channels revision submitted, _, w => w.askChannels revision submitted
  | .channelTest kinds submitted, valid, w => w.testChannels kinds submitted valid

def Action.apply : Action → World → World
  | .ask r valid, w => r.handle valid (w.enter r.held)
  | .save n valid, w =>
      match w.savings[n]? with
      | none => w
      | some s => { w with savings := w.savings.eraseIdx n }.save s valid
  | .other, w => { w with settings := { w.settings with revision := w.settings.revision + 1 } }
  | .begin, w => { w with runs := w.runs ++ [w.settings] }
  | .send n use, w =>
      match w.runs[n]? with
      | none => w
      | some s => w.transmit (s.sends use)

def after (w : World) (actions : List Action) : World := actions.foldl (fun w a => a.apply w) w

/-- The service with some settings, whose secrets count as typed where they are. -/
def start (s : Settings) : World where
  settings := s
  runs := []
  savings := []
  typed := s.held
  sent := []
  ahead := false

/-! ## What every run keeps -/

/-- There is no secret, or it was typed for that place; a key of the PCE may be elsewhere once a change of the
connection went ahead of its check. -/
def World.Covered (w : World) (x : Entrusted) : Prop :=
  x.2 = "" ∨ x ∈ w.typed ∨ (x.1.IsPce ∧ w.ahead = true)

/-- What the save of a checked change would keep. A change of the connection fills its gaps from the current settings,
so this is known of it only while no other change was saved. -/
def World.Fits (w : World) (s : Saving) : Prop :=
  match s.change with
  | .pce fields => s.read = w.settings.revision → ∀ x ∈ (fields.into w.settings.pce).held, w.Covered x
  | .siem ds => ∀ d ∈ ds, w.Covered (d.place, d.hecToken)
  | .channels c => ∀ x ∈ c.held, w.Covered x

structure World.Ok (w : World) : Prop where
  held : ∀ x ∈ w.settings.held, w.Covered x
  runs : ∀ s ∈ w.runs, ∀ x ∈ s.held, w.Covered x
  sent : ∀ x ∈ w.sent, w.Covered x
  savings : ∀ s ∈ w.savings, s.read ≤ w.settings.revision ∧ w.Fits s

section Steps

variable {w w' : World} {x : Entrusted}

theorem World.Covered.mono (h : w.Covered x) (htyped : w.typed ⊆ w'.typed) (hahead : w.ahead = true → w'.ahead = true) :
    w'.Covered x := by
  rcases h with hempty | htyped' | ⟨hpce, hset⟩
  · exact Or.inl hempty
  · exact Or.inr (Or.inl (htyped htyped'))
  · exact Or.inr (Or.inr ⟨hpce, hahead hset⟩)

/-- The settings and the typed secrets are all that a pending change depends on. -/
theorem World.Fits.mono {s : Saving} (h : w.Fits s) (hsettings : w'.settings = w.settings)
    (htyped : w.typed ⊆ w'.typed) (hahead : w.ahead = true → w'.ahead = true) : w'.Fits s := by
  obtain ⟨revision, read, change⟩ := s
  cases change with
  | pce fields =>
      intro hread x hx
      rw [hsettings] at hread hx
      exact (h hread x hx).mono htyped hahead
  | siem ds => exact fun d hd => (h d hd).mono htyped hahead
  | channels c => exact fun x hx => (h x hx).mono htyped hahead

theorem held_pce {s : Settings} (h : x ∈ s.pce.held) : x ∈ s.held :=
  List.mem_append_left _ (List.mem_append_left _ h)

theorem held_siem {s : Settings} {d : Destination} (hd : d ∈ s.siem) (h : x ∈ d.held) : x ∈ s.held :=
  List.mem_append_left _ (List.mem_append_right _ (List.mem_flatMap.2 ⟨d, hd, h⟩))

theorem held_channels {s : Settings} (h : x ∈ s.channels.held) : x ∈ s.held :=
  List.mem_append_right _ h

theorem settings_sends_mem {s : Settings} {use : Use} (h : x ∈ s.sends use) : x ∈ s.held := by
  cases use with
  | pce => exact held_pce (sends_mem_pce h)
  | pceWriting => exact held_pce (sendsWriting_mem h)
  | siem id =>
      obtain ⟨d, hd, hx⟩ := List.mem_flatMap.1 h
      exact held_siem (List.mem_filter.1 hd).1 (sends_mem_siem hx)
  | channel kind => exact held_channels (sends_mem_channels h)

/-! ### The steps of a request -/

theorem World.Ok.enter (ok : w.Ok) (held : List Entrusted) : (w.enter held).Ok where
  held x hx := (ok.held x hx).mono (List.subset_append_left _ _) id
  runs s hs x hx := (ok.runs s hs x hx).mono (List.subset_append_left _ _) id
  sent x hx := (ok.sent x hx).mono (List.subset_append_left _ _) id
  savings s hs := ⟨(ok.savings s hs).1, (ok.savings s hs).2.mono rfl (List.subset_append_left _ _) id⟩

theorem World.Ok.transmit (ok : w.Ok) {more : List Entrusted} (h : ∀ x ∈ more, w.Covered x) :
    (w.transmit more).Ok where
  held := ok.held
  runs := ok.runs
  sent x hx := (List.mem_append.1 hx).elim (ok.sent x) (h x)
  savings := ok.savings

theorem World.Ok.await (ok : w.Ok) {revision : Nat} {change : Change}
    (h : w.Fits ⟨revision, w.settings.revision, change⟩) : (w.await revision change).Ok where
  held := ok.held
  runs := ok.runs
  sent := ok.sent
  savings s hs := by
    rcases List.mem_append.1 hs with hs | hs
    · exact ok.savings s hs
    · rw [List.mem_singleton.1 hs]
      exact ⟨Nat.le_refl _, h⟩

theorem mem_typedOf {held : List Entrusted} (h : x ∈ held) (htyped : ¬ Blank x.2) : x ∈ typedOf held :=
  List.mem_filter.2 ⟨h, decide_eq_true htyped⟩

/-- A merged token is for the endpoint it goes with. -/
theorem mergeDestination_covered (ok : w.Ok) {d merged : Destination}
    (htyped : ∀ x ∈ typedOf d.held, x ∈ w.typed) (h : mergeDestination w.settings.siem d = .ok merged)
    (hvalid : merged.verifyTls.Valid) : w.Covered (merged.place, merged.hecToken) := by
  obtain ⟨token, rfl, hempty | ⟨hnotBlank, rfl⟩ | ⟨old, hold, htexts, rfl⟩⟩ := mergeDestination_cases h
  · exact Or.inl hempty
  · exact Or.inr (Or.inl (htyped _ (mem_typedOf List.mem_cons_self hnotBlank)))
  · have hplace : d.place = old.place := place_of_texts hvalid (w.settings.bundles old hold) htexts
    have hcovered := ok.held _ (held_siem hold List.mem_cons_self)
    rwa [← hplace] at hcovered

theorem orSaved_covered {place : Place} {saved submitted : String} (hsaved : w.Covered (place, saved))
    (htyped : ¬ Blank submitted → (place, submitted) ∈ w.typed) : w.Covered (place, orSaved saved submitted) := by
  by_cases hblank : Blank submitted
  · rwa [orSaved, if_pos hblank]
  · rw [orSaved, if_neg hblank]
    exact Or.inr (Or.inl (htyped hblank))

/-- Each merged secret is its own channel's, and the password goes with the server it is for. -/
theorem mergeChannels_covered (ok : w.Ok) {submitted merged : Channels}
    (htyped : ∀ x ∈ typedOf submitted.held, x ∈ w.typed) (h : mergeChannels w.settings.channels submitted = .ok merged) :
    ∀ x ∈ merged.held, w.Covered x := by
  have hheld : ∀ {x}, x ∈ w.settings.channels.held → w.Covered x := fun hx => ok.held _ (held_channels hx)
  have hsent : ∀ {x}, x ∈ submitted.held → ¬ Blank x.2 → x ∈ w.typed := fun hx hb => htyped _ (mem_typedOf hx hb)
  obtain ⟨hline, htelegram, hteams, hwebhook, hplace, hpassword⟩ := mergeChannels_cases h
  intro x hx
  simp only [Channels.held, List.mem_cons, List.not_mem_nil, or_false] at hx
  rcases hx with rfl | rfl | rfl | rfl | rfl
  · rw [hplace]
    rcases hpassword with ⟨hnotBlank, hsame⟩ | ⟨-, hsaved, hempty | hstays⟩
    · rw [hsame]
      exact Or.inr (Or.inl (hsent (by simp [Channels.held]) hnotBlank))
    · exact Or.inl (hsaved.trans hempty)
    · rw [hsaved, hstays]
      exact hheld (by simp [Channels.held])
  · rw [hline]
    exact orSaved_covered (hheld (by simp [Channels.held])) fun hb => hsent (by simp [Channels.held]) hb
  · rw [htelegram]
    exact orSaved_covered (hheld (by simp [Channels.held])) fun hb => hsent (by simp [Channels.held]) hb
  · rw [hteams]
    exact orSaved_covered (hheld (by simp [Channels.held])) fun hb => hsent (by simp [Channels.held]) hb
  · rw [hwebhook]
    exact orSaved_covered (hheld (by simp [Channels.held])) fun hb => hsent (by simp [Channels.held]) hb

/-- One key of the connection: the one typed with it, or the saved one, which is empty or stays where it is. -/
theorem key_covered {place : Place} {value saved : String} (htyped : ¬ Blank value → (place, value) ∈ w.typed)
    (hkept : Blank value → saved = "" ∨ w.Covered (place, saved)) : w.Covered (place, (typedIn value).getD saved) := by
  by_cases hblank : Blank value
  · rw [typedIn, if_pos hblank]
    exact (hkept hblank).elim Or.inl id
  · rw [typedIn, if_neg hblank]
    exact Or.inr (Or.inl (htyped hblank))

/-- A connection that passed the check keeps no key at an address that it is not for. -/
theorem check_covered (ok : w.Ok) {b : PceUpdate} {fields : PceFields}
    (htyped : ∀ x ∈ typedOf b.submitted.held, x ∈ w.typed) (h : b.check w.settings.pce = .ok fields) :
    ∀ x ∈ (fields.into w.settings.pce).held, w.Covered x := by
  obtain ⟨rfl, hread, hwrite⟩ := check_cases h
  have hplace : (b.fields.into w.settings.pce).place = b.submitted.place := rfl
  have hsent : ∀ {v}, (b.submitted.place, v) ∈ b.submitted.held → ¬ Blank v → (b.submitted.place, v) ∈ w.typed :=
    fun hx hb => htyped _ (mem_typedOf hx hb)
  have hstays : ∀ {v}, (w.settings.pce.place, v) ∈ w.settings.pce.held → ¬ b.Moved w.settings.pce →
      w.Covered (b.submitted.place, v) := by
    intro v hx hmoved
    simp only [PceUpdate.Moved, not_or, ne_eq, not_not] at hmoved
    have hsame : b.submitted.place = w.settings.pce.place := by
      simp only [Pce.place, PceUpdate.submitted, hmoved.1, hmoved.2]
    rw [hsame]
    exact ok.held _ (held_pce hx)
  intro x hx
  simp only [Pce.held, hplace, List.mem_cons, List.not_mem_nil, or_false] at hx
  rcases hx with rfl | rfl | rfl | rfl
  · exact key_covered (fun hb => hsent (by simp [Pce.held, PceUpdate.submitted]) hb)
      fun hb => (hread (Or.inl hb)).imp And.left (hstays (by simp [Pce.held]))
  · exact key_covered (fun hb => hsent (by simp [Pce.held, PceUpdate.submitted]) hb)
      fun hb => (hread (Or.inr hb)).imp And.right (hstays (by simp [Pce.held]))
  · cases hclear : b.clearWriteKey with
    | true =>
        refine Or.inl ?_
        simp only [PceFields.into, PceUpdate.fields, hclear, if_true, Option.getD_some]
    | false =>
        simp only [PceFields.into, PceUpdate.fields, hclear, Bool.false_eq_true, if_false]
        exact key_covered (fun hb => hsent (by simp [Pce.held, PceUpdate.submitted]) hb)
          fun hb => (hwrite (Or.inl hb) hclear).imp And.left (hstays (by simp [Pce.held]))
  · cases hclear : b.clearWriteKey with
    | true =>
        refine Or.inl ?_
        simp only [PceFields.into, PceUpdate.fields, hclear, if_true, Option.getD_some]
    | false =>
        simp only [PceFields.into, PceUpdate.fields, hclear, Bool.false_eq_true, if_false]
        exact key_covered (fun hb => hsent (by simp [Pce.held, PceUpdate.submitted]) hb)
          fun hb => (hwrite (Or.inr hb) hclear).imp And.right (hstays (by simp [Pce.held]))

/-! ### The steps of a request -/

theorem World.Ok.askPce (ok : w.Ok) {body : PceUpdate} (htyped : ∀ x ∈ typedOf body.submitted.held, x ∈ w.typed)
    (revision : Nat) (keep : Option Bool) (valid : Bool) : (w.askPce revision body keep valid).Ok := by
  rw [World.askPce]
  cases hcheck : body.check w.settings.pce with
  | error field => exact ok
  | ok fields =>
      have hcovered := check_covered ok htyped hcheck
      have okwaiting : (w.await revision (.pce fields)).Ok := ok.await fun _ => hcovered
      cases keep with
      | none => exact okwaiting
      | some same =>
          dsimp only
          split
          · -- the candidate goes to the new address with the keys that the save would keep
            have oksent := ok.transmit fun x hx => hcovered x (sends_mem_pce hx)
            cases same with
            | true => exact oksent.await fun _ => hcovered
            | false => exact oksent
          · exact okwaiting

theorem World.Ok.askSiem (ok : w.Ok) {destinations : List Destination}
    (htyped : ∀ x ∈ typedOf (destinations.flatMap Destination.held), x ∈ w.typed) (revision : Nat) :
    (w.askSiem revision destinations).Ok := by
  rw [World.askSiem]
  cases hmerge : mergeSiemDestinations w.settings.siem destinations with
  | error field => exact ok
  | ok merged =>
      dsimp only
      split
      · rename_i hvalid
        refine ok.await fun m hm => ?_
        obtain ⟨d, hd, hmerged⟩ := mem_mergeSiemDestinations hmerge hm
        refine mergeDestination_covered ok (fun x hx => htyped x ?_) hmerged (hvalid m hm)
        obtain ⟨hx, hnotBlank⟩ := List.mem_filter.1 hx
        exact List.mem_filter.2 ⟨List.mem_flatMap.2 ⟨d, hd, hx⟩, hnotBlank⟩
      · exact ok

theorem World.Ok.testDestination (ok : w.Ok) {destination : Destination}
    (htyped : ∀ x ∈ typedOf destination.held, x ∈ w.typed) (valid : Bool) :
    (w.testDestination destination valid).Ok := by
  rw [World.testDestination]
  cases hmerge : mergeDestination w.settings.siem destination with
  | error field => exact ok
  | ok merged =>
      dsimp only
      split
      · rename_i hvalid
        refine ok.transmit fun x hx => ?_
        rw [List.mem_singleton.1 (sends_mem_siem hx)]
        exact mergeDestination_covered ok htyped hmerge hvalid.2
      · exact ok

theorem World.Ok.askChannels (ok : w.Ok) {channels : Channels} (htyped : ∀ x ∈ typedOf channels.held, x ∈ w.typed)
    (revision : Nat) : (w.askChannels revision channels).Ok := by
  rw [World.askChannels]
  cases hmerge : mergeChannels w.settings.channels channels with
  | error field => exact ok
  | ok merged => exact ok.await (mergeChannels_covered ok htyped hmerge)

theorem World.Ok.testChannels (ok : w.Ok) {kinds : List ChannelKind} {channels : Option Channels}
    (htyped : ∀ x ∈ typedOf (Request.held (.channelTest kinds channels)), x ∈ w.typed) (valid : Bool) :
    (w.testChannels kinds channels valid).Ok := by
  cases channels with
  | none =>
      refine ok.transmit fun x hx => ?_
      obtain ⟨kind, -, hx⟩ := List.mem_flatMap.1 hx
      exact ok.held x (held_channels (sends_mem_channels hx))
  | some channels =>
      simp only [World.testChannels]
      cases hmerge : mergeChannels w.settings.channels channels with
      | error field => exact ok
      | ok merged =>
          dsimp only
          split
          · refine ok.transmit fun x hx => ?_
            obtain ⟨kind, -, hx⟩ := List.mem_flatMap.1 hx
            exact mergeChannels_covered ok htyped hmerge x (sends_mem_channels hx)
          · exact ok

theorem World.Ok.handle (ok : w.Ok) (r : Request) (htyped : ∀ x ∈ typedOf r.held, x ∈ w.typed) (valid : Bool) :
    (r.handle valid w).Ok := by
  cases r with
  | pce revision body keep => exact ok.askPce htyped revision keep valid
  | siem revision destinations => exact ok.askSiem htyped revision
  | siemTest destination => exact ok.testDestination htyped valid
  | channels revision channels => exact ok.askChannels htyped revision
  | channelTest kinds channels => exact ok.testChannels htyped valid

/-! ### The save -/

/-- A pending change is checked against settings that are not current any more, once others are saved. -/
theorem World.Fits.passed {s : Saving} (h : w.Fits s) (hread : s.read < w'.settings.revision)
    (htyped : w'.typed = w.typed) (hahead : w.ahead = true → w'.ahead = true) : w'.Fits s := by
  have hsub : w.typed ⊆ w'.typed := fun x hx => htyped ▸ hx
  obtain ⟨revision, read, change⟩ := s
  cases change with
  | pce fields => exact fun hcurrent => absurd hcurrent (Nat.ne_of_lt hread)
  | siem ds => exact fun d hd => (h d hd).mono hsub hahead
  | channels c => exact fun x hx => (h x hx).mono hsub hahead

/-- A save moves the revision on, and what it leaves was there before or was checked with its change. -/
theorem into_cases {s new : Settings} {change : Change} (h : change.into s = some new) :
    new.revision = s.revision + 1 ∧ ∀ x ∈ new.held, x ∈ s.held ∨
      match change with
      | .pce fields => x ∈ (fields.into s.pce).held
      | .siem ds => ∃ d ∈ ds, x = (d.place, d.hecToken)
      | .channels c => x ∈ c.held := by
  cases change with
  | pce fields =>
      simp only [Change.into] at h
      split at h
      · cases h
        refine ⟨rfl, fun x hx => ?_⟩
        rcases List.mem_append.1 hx with hx | hx
        · rcases List.mem_append.1 hx with hx | hx
          · exact Or.inr hx
          · exact Or.inl (List.mem_append_left _ (List.mem_append_right _ hx))
        · exact Or.inl (held_channels hx)
      · cases h
  | siem ds =>
      simp only [Change.into] at h
      split at h
      · cases h
        refine ⟨rfl, fun x hx => ?_⟩
        rcases List.mem_append.1 hx with hx | hx
        · rcases List.mem_append.1 hx with hx | hx
          · exact Or.inl (held_pce hx)
          · obtain ⟨d, hd, hx⟩ := List.mem_flatMap.1 hx
            exact Or.inr ⟨d, hd, List.mem_singleton.1 hx⟩
        · exact Or.inl (held_channels hx)
      · cases h
  | channels c =>
      cases h
      refine ⟨rfl, fun x hx => ?_⟩
      rcases List.mem_append.1 hx with hx | hx
      · exact Or.inl (List.mem_append_left _ hx)
      · exact Or.inr hx

theorem pce_held_isPce {p : Pce} (h : x ∈ p.held) : x.1.IsPce := by
  simp only [Pce.held, List.mem_cons, List.not_mem_nil, or_false] at h
  rcases h with rfl | rfl | rfl | rfl <;> trivial

theorem World.Ok.save (ok : w.Ok) {s : Saving} (hfits : w.Fits s) (valid : Bool) : (w.save s valid).Ok := by
  rw [World.save]
  split
  · rename_i hcurrent
    cases hinto : s.change.into w.settings with
    | none => exact ok
    | some new =>
        obtain ⟨hrevision, hnew⟩ := into_cases hinto
        obtain ⟨revision, read, change⟩ := s
        dsimp only at hnew hcurrent hinto ⊢
        have hmore : w.ahead = true → (w.ahead || decide (change.IsPce ∧ read ≠ revision)) = true :=
          fun h => by rw [h, Bool.true_or]
        refine ⟨fun x hx => ?_, fun t ht x hx => (ok.runs t ht x hx).mono (List.Subset.refl _) hmore,
          fun x hx => (ok.sent x hx).mono (List.Subset.refl _) hmore, fun t ht => ?_⟩
        · rcases hnew x hx with hx | hx
          · exact (ok.held x hx).mono (List.Subset.refl _) hmore
          · cases change with
            | pce fields =>
                by_cases hread : read = revision
                · exact (hfits (hread.trans hcurrent.1) x hx).mono (List.Subset.refl _) hmore
                · refine Or.inr (Or.inr ⟨pce_held_isPce hx, ?_⟩)
                  rw [decide_eq_true ⟨trivial, hread⟩, Bool.or_true]
            | siem ds =>
                obtain ⟨d, hd, rfl⟩ := hx
                exact (hfits d hd).mono (List.Subset.refl _) hmore
            | channels c => exact (hfits x hx).mono (List.Subset.refl _) hmore
        · obtain ⟨hle, hfitsOther⟩ := ok.savings t ht
          have hlt : t.read < new.revision := by
            rw [hrevision]
            exact Nat.lt_succ_of_le hle
          exact ⟨Nat.le_of_lt hlt, hfitsOther.passed hlt rfl hmore⟩
  · exact ok

/-! ### Every run -/

theorem World.Ok.step (ok : w.Ok) (a : Action) : (a.apply w).Ok := by
  cases a with
  | ask r valid => exact (ok.enter r.held).handle r (fun x hx => List.mem_append_right _ hx) valid
  | save n valid =>
      dsimp only [Action.apply]
      cases hn : w.savings[n]? with
      | none => exact ok
      | some s =>
          have hfits : w.Fits s := (ok.savings s (List.mem_of_getElem? hn)).2
          have oktaken : World.Ok { w with savings := w.savings.eraseIdx n } :=
            ⟨ok.held, ok.runs, ok.sent, fun t ht => ok.savings t (List.mem_of_mem_eraseIdx ht)⟩
          exact oktaken.save (hfits.mono rfl (List.Subset.refl _) id) valid
  | other =>
      refine ⟨ok.held, ok.runs, ok.sent, fun s hs => ?_⟩
      obtain ⟨hle, hfits⟩ := ok.savings s hs
      exact ⟨Nat.le_succ_of_le hle, hfits.passed (Nat.lt_succ_of_le hle) rfl id⟩
  | begin =>
      refine ⟨ok.held, fun s hs => ?_, ok.sent, ok.savings⟩
      rcases List.mem_append.1 hs with hs | hs
      · exact ok.runs s hs
      · rw [List.mem_singleton.1 hs]
        exact ok.held
  | send n use =>
      dsimp only [Action.apply]
      cases hn : w.runs[n]? with
      | none => exact ok
      | some s => exact ok.transmit fun x hx => ok.runs s (List.mem_of_getElem? hn) x (settings_sends_mem hx)

end Steps

theorem ok_start (s : Settings) : (start s).Ok where
  held _ hx := Or.inr (Or.inl hx)
  runs _ h := by cases h
  sent _ h := by cases h
  savings _ h := by cases h

theorem ok_after {w : World} (ok : w.Ok) (actions : List Action) : (after w actions).Ok := by
  induction actions generalizing w with
  | nil => exact ok
  | cons a rest ih => exact ih (ok.step a)

/-- What a run must keep: no secret is in the settings or was sent, but at a place that it was typed for; the PCE's
keys may be elsewhere once a change of the connection was saved ahead of its check. -/
structure World.Safe (w : World) : Prop where
  held : ∀ x ∈ w.settings.held, w.Covered x
  sent : ∀ x ∈ w.sent, w.Covered x

/-- **Secrets stay where they were typed**, in every order of requests, saves and runs. -/
theorem typed_after (s : Settings) (actions : List Action) : (after (start s) actions).Safe where
  held := (ok_after (ok_start s) actions).held
  sent := (ok_after (ok_start s) actions).sent

/-! ### A change ahead of its check -/

/-- A connection as the schema admits it, with no read secret and no other section. -/
def connection (url apiKey : String) (address : rstrip url = url) : Settings where
  revision := 0
  pce := ⟨url, .flag true, apiKey, "", "", ""⟩
  siem := []
  channels := ⟨⟨"", 25, .plain, "", ""⟩, "", "", "", ""⟩
  address := address
  bundle := trivial
  bundles _ h := by cases h
  ids := List.nodup_nil

/-- A page that keeps the key asks under a revision that is not there yet; meanwhile the connection moves, with a new
key, and that revision comes. Then the new key goes to the old address. -/
theorem guessed_revision :
    let w := after (start (connection "https://a" "old" (by decide +kernel)))
      [.ask (.pce 1 ⟨⟨"https://a", .flag true, "", "", "", ""⟩, false⟩ none) true,
        .ask (.pce 0 ⟨⟨"https://b", .flag true, "new", "none", "", ""⟩, false⟩ none) true,
        .save 1 true, .save 0 true, .begin, .send 0 .pce]
    (Place.pce "https://a" (.flag true), "new") ∈ w.sent ∧
      (Place.pce "https://a" (.flag true), "new") ∉ w.typed ∧ w.ahead = true := by
  decide +kernel

end IllumioOps.Credentials
