import IllumioOps.Siem.CefReads
import IllumioOps.Siem.StreamTransport
import IllumioOps.Text.Frames

/-!
# Lines on the wire

What a receiver makes of the lines of a destination. No formatter writes a line feed: CEF escapes or
flattens them and JSON escapes them (`oneLine_inner`). The RFC 5424 header puts the host name
between its spaces as it is, and for an audit event this is the `pce_fqdn` of the event: a syslog
line is one line exactly when the host name holds no line feed, and the header is split where it was
joined exactly when the host name holds no space (`framing_iff`). Counted octets are read back
whatever the texts are.
-/

set_option autoImplicit false

namespace IllumioOps.SiemText

open Text

/-! ## The receiver of a header -/

/-- The host name and the message of an RFC 5424 line: the third word, and what follows the
seventh. -/
def splitSyslog (line : String) : Option (String × String) :=
  (firstWords 7 line.toList).bind fun p =>
    p.1[2]?.map fun hostname => (String.ofList hostname, String.ofList p.2)

/-! ## One line -/

/-- A text without a line feed. -/
def OneLine (s : String) : Prop := '\n' ∉ s.toList

instance (s : String) : Decidable (OneLine s) :=
  inferInstanceAs (Decidable ('\n' ∉ s.toList))

theorem OneLine.append {s t : String} (hs : OneLine s) (ht : OneLine t) : OneLine (s ++ t) := by
  intro h
  rw [String.toList_append] at h
  exact (List.mem_append.1 h).elim hs ht

theorem oneLine_append_iff {s t : String} : OneLine (s ++ t) ↔ OneLine s ∧ OneLine t := by
  rw [OneLine, String.toList_append, List.mem_append, not_or]
  exact Iff.rfl

theorem oneLine_clean (s : String) : OneLine (clean s) := by
  intro h
  rw [toList_clean] at h
  obtain ⟨c, -, hc⟩ := List.mem_map.1 h
  exact flat_ne (Or.inr rfl) hc

theorem not_mem_escape {escapes : Escapes} (hwritten : ∀ c, escapes c ≠ some '\n')
    {s : List Char} (hbare : '\n' ∈ s → escapes '\n' ≠ none) : '\n' ∉ escape escapes s := by
  intro hmem
  obtain ⟨c, hc, hn⟩ := List.mem_flatMap.1 hmem
  rw [escapeChar] at hn
  cases hesc : escapes c with
  | some d =>
      rw [hesc] at hn
      rcases List.mem_cons.1 hn with hslash | hd
      · exact absurd hslash (by decide)
      · exact hwritten c (List.mem_singleton.1 hd ▸ hesc)
  | none =>
      rw [hesc] at hn
      obtain rfl := List.mem_singleton.1 hn
      exact hbare hc hesc

/-- An escaped value holds no line feed. -/
theorem not_mem_escape_value (s : List Char) : '\n' ∉ escape valueEscapes s := by
  refine not_mem_escape (fun c hc => ?_) fun _ => by decide
  exact absurd (readsBack_values.meaning c '\n' hc) (by simp [valueMeaning])

theorem oneLine_headerField (s : String) : OneLine (headerField s) := by
  rw [OneLine, toList_headerField]
  refine not_mem_escape (fun c hc => ?_) fun h => absurd h (oneLine_clean s)
  rw [separatorOnly] at hc
  split at hc
  · exact absurd (Option.some.inj hc) (by decide)
  · exact absurd hc (by simp)

theorem oneLine_opsHead (s : String) : OneLine (opsHead s) := by
  rw [OneLine, toList_opsHead]
  refine not_mem_escape (fun c hc => ?_) fun h => absurd h (oneLine_clean s)
  have hmeaning := readsBack_header.meaning c '\n' hc
  exact absurd hmeaning (by rw [itself_of_ne (by decide) (by decide)]; simp)

theorem oneLine_nat (n : Nat) : OneLine (toString n) := by
  intro h
  exact absurd (Json.isFloatChar_of_mem_nat h) (by decide)

/-- An extension is one line. -/
theorem oneLine_extension (d : Dialect) {es : List Entry} (h : AllProper es) :
    OneLine (" ".intercalate (es.map (Entry.text d.value))) := by
  intro hmem
  rw [String.toList_intercalate, List.map_map] at hmem
  rcases mem_of_mem_intercalate hmem with hspace | ⟨cs, hcs, hn⟩
  · exact absurd hspace (by decide)
  · obtain ⟨e, he, rfl⟩ := List.mem_map.1 hcs
    rw [Function.comp_apply, toList_text d (h e he), spellPair] at hn
    rcases List.mem_append.1 hn with hkey | hn
    · exact (h e he).key.oneLine hkey
    rcases List.mem_cons.1 hn with heq | hvalue
    · exact absurd heq (by decide)
    · exact not_mem_escape_value _ hvalue

theorem oneLine_formatEvent (py : Python) (f : CefFormatter) (event : Json) :
    OneLine (f.formatEvent py event) := by
  have hbar : OneLine "|" := by decide
  have hstart : OneLine "CEF:0|Illumio|PCE|" := by decide
  unfold CefFormatter.formatEvent header
  exact ((((((((hstart.append (oneLine_headerField _)).append hbar).append
    (oneLine_headerField _)).append hbar).append (oneLine_headerField _)).append hbar).append
    (oneLine_nat _)).append hbar).append (oneLine_extension f.dialect (allProper_ext py f event))

theorem oneLine_opsCef (py : Python) (rec : SiemRecord) : OneLine (opsCef py rec) := by
  have hbar : OneLine "|" := by decide
  have hstart : OneLine "CEF:0|Illumio|illumio-ops|" := by decide
  unfold opsCef
  exact ((((((((hstart.append (oneLine_opsHead _)).append hbar).append
    (oneLine_opsHead _)).append hbar).append (oneLine_opsHead _)).append hbar).append
    (oneLine_nat _)).append hbar).append (oneLine_extension .arcsight (allProper_opsExt py rec))

theorem oneLine_dumps (j : Json) : OneLine (Json.dumps j) := Json.not_mem_dumps (by decide) j

theorem oneLine_normalizedEvent (py : Python) {event : Json} {line : String}
    (h : normalizedEvent py event = some line) : OneLine line := by
  unfold normalizedEvent at h
  dsimp only at h
  split at h
  · obtain rfl := Option.some.inj h
    exact oneLine_dumps _
  · exact absurd h (by simp)

/-- No formatter writes a line feed. -/
theorem oneLine_inner (py : Python) (fmt : SiemFormat) (pceFqdn pceVersion : String)
    {rec : SiemRecord} {line : String}
    (h : (innerFormatter py fmt pceFqdn pceVersion).formatRecord rec = some line) :
    OneLine line := by
  have hcef : ∀ f, (pceNativeCef py f).formatRecord rec = some line → OneLine line := by
    intro f hf
    rw [Formatter.formatRecord] at hf
    split at hf
    · obtain rfl := Option.some.inj hf
      exact oneLine_formatEvent py f _
    · obtain rfl := Option.some.inj hf
      exact oneLine_opsCef py rec
  have hjson : (normalizedJson py).formatRecord rec = some line → OneLine line := by
    intro hf
    rw [Formatter.formatRecord] at hf
    split at hf
    · exact oneLine_normalizedEvent py hf
    · obtain rfl := Option.some.inj hf
      exact oneLine_dumps _
  cases fmt with
  | cef => exact hcef _ h
  | json => exact hjson h
  | syslogCef => exact hcef _ h
  | syslogJson => exact hjson h
  | cefPce => exact hcef _ h
  | syslogCefPce => exact hcef _ h

/-! ## The header -/

/-- The host a record's line is from. -/
def hostnameOf (py : Python) (host : String) (rec : SiemRecord) : String :=
  if rec.kind = .audit then eventHostname py host (.obj (rec.event.getD [])) else host

/-- A syslog line is a header around the line of the format within it. -/
theorem formatRecord_syslog (py : Python) {fmt : SiemFormat} (hfmt : fmt.isSyslog = true)
    {pceFqdn pceVersion host : String} {rec : SiemRecord} {line : String}
    (h : (formatterFor py fmt pceFqdn pceVersion host).formatRecord rec = some line) :
    ∃ inner severity timestamp,
      (innerFormatter py fmt pceFqdn pceVersion).formatRecord rec = some inner ∧
        line = wrapRfc5424 py inner severity (hostnameOf py host rec) timestamp := by
  rw [formatterFor, if_pos hfmt, Formatter.formatRecord] at h
  rw [hostnameOf, Formatter.formatRecord]
  by_cases hkind : rec.kind = .audit
  · rw [if_pos hkind] at h ⊢
    obtain ⟨inner, hinner, hline⟩ := Option.map_eq_some_iff.1 h
    rw [if_pos hkind]
    exact ⟨inner, _, _, hinner, hline.symm⟩
  · rw [if_neg hkind] at h ⊢
    rw [if_neg hkind]
    exact ⟨_, _, _, rfl, (Option.some.inj h).symm⟩

/-- A text without a space or a line feed. -/
def Graphic (s : String) : Prop := ∀ c ∈ s.toList, c ≠ ' ' ∧ c ≠ '\n'

instance (s : String) : Decidable (Graphic s) :=
  List.decidableBAll _ s.toList

theorem Graphic.append {s t : String} (hs : Graphic s) (ht : Graphic t) : Graphic (s ++ t) := by
  intro c hc
  rw [String.toList_append] at hc
  exact (List.mem_append.1 hc).elim (hs c) (ht c)

theorem Graphic.noSpace {s : String} (h : Graphic s) : ' ' ∉ s.toList := fun hc => (h _ hc).1 rfl

theorem Graphic.oneLine {s : String} (h : Graphic s) : OneLine s := fun hc => (h _ hc).2 rfl

theorem graphic_nat (n : Nat) : Graphic (toString n) := by
  intro c hc
  have hfloat := Json.isFloatChar_of_mem_nat hc
  constructor
  all_goals
    rintro rfl
    exact absurd hfloat (by decide)

theorem graphic_pad (width n : Nat) : Graphic (pad width n) := by
  refine Graphic.append (fun c hc => ?_) (graphic_nat n)
  rw [String.toList_ofList] at hc
  rw [List.eq_of_mem_replicate hc]
  decide

theorem Graphic.dropEnd {s : String} (h : Graphic s) (n : Nat) : Graphic (dropEnd n s) := by
  intro c hc
  rw [SiemText.dropEnd, String.toList_ofList] at hc
  exact h c (List.mem_of_mem_take hc)

theorem graphic_syslogTime (dt : Moment) : Graphic (syslogTime dt) := by
  have hdash : Graphic "-" := by decide
  have hcolon : Graphic ":" := by decide
  have ht : Graphic "T" := by decide
  have hdot : Graphic "." := by decide
  have hz : Graphic "Z" := by decide
  exact (((((((((((((graphic_nat _).append hdash).append (graphic_pad _ _)).append hdash).append
    (graphic_pad _ _)).append ht).append (graphic_pad _ _)).append hcolon).append
    (graphic_pad _ _)).append hcolon).append (graphic_pad _ _)).append hdot).append
    ((graphic_pad _ _).dropEnd _)).append hz

/-- The first word of a header. -/
def priWord (severity : Nat) : String := "<" ++ toString (8 + severity) ++ ">1"

theorem graphic_priWord (severity : Nat) : Graphic (priWord severity) :=
  (Graphic.append (by decide) (graphic_nat _)).append (by decide)

/-- A syslog line, character by character. -/
theorem toList_wrapRfc5424 (py : Python) (payload hostname : String) (severity : Nat)
    (timestamp : Option Moment) :
    (wrapRfc5424 py payload severity hostname timestamp).toList =
      (priWord severity).toList ++ ' ' :: ((syslogTime (timestamp.getD py.now)).toList ++ ' ' ::
        (hostname.toList ++ ' ' :: ("illumio-ops".toList ++ ' ' :: ("-".toList ++ ' ' ::
        ("-".toList ++ ' ' :: ("-".toList ++ ' ' :: payload.toList)))))) := by
  have hversion : ">1 ".toList = ">1".toList ++ [' '] := rfl
  have hspace : " ".toList = [' '] := rfl
  have happ : " illumio-ops - - - ".toList = ' ' :: ("illumio-ops".toList ++ ' ' ::
      ("-".toList ++ ' ' :: ("-".toList ++ ' ' :: ("-".toList ++ [' '])))) := rfl
  unfold wrapRfc5424 priWord
  simp only [String.toList_append, hversion, hspace, happ, List.append_assoc, List.cons_append,
    List.nil_append]

theorem oneLine_wrapRfc5424_iff (py : Python) {payload hostname : String} (severity : Nat)
    (timestamp : Option Moment) (hpayload : OneLine payload) :
    OneLine (wrapRfc5424 py payload severity hostname timestamp) ↔ OneLine hostname := by
  have hpri : OneLine ("<" ++ toString (8 + severity) ++ ">1 ") :=
    (OneLine.append (by decide) (oneLine_nat _)).append (by decide)
  have htime := (graphic_syslogTime (timestamp.getD py.now)).oneLine
  have hspace : OneLine " " := by decide
  have happ : OneLine " illumio-ops - - - " := by decide
  unfold wrapRfc5424
  constructor
  · intro h
    exact (oneLine_append_iff.1 (oneLine_append_iff.1 (oneLine_append_iff.1 h).1).1).2
  · intro hhost
    exact ((((hpri.append htime).append hspace).append hhost).append happ).append hpayload

/-- The header is split where it was joined exactly when the host name is one word. -/
theorem splitSyslog_wrapRfc5424_iff (py : Python) (payload hostname : String) (severity : Nat)
    (timestamp : Option Moment) :
    splitSyslog (wrapRfc5424 py payload severity hostname timestamp) = some (hostname, payload) ↔
      ' ' ∉ hostname.toList := by
  have happ : Graphic "illumio-ops" := by decide
  have hdash : Graphic "-" := by decide
  rw [splitSyslog, toList_wrapRfc5424, firstWords_append (graphic_priWord severity).noSpace,
    firstWords_append (graphic_syslogTime _).noSpace]
  constructor
  · intro h
    obtain ⟨p, hp, hsplit⟩ := Option.bind_eq_some_iff.1 h
    obtain ⟨word, hword, heq⟩ := Option.map_eq_some_iff.1 hsplit
    obtain ⟨q, hq, rfl⟩ := Option.map_eq_some_iff.1 hp
    obtain ⟨r, hr, rfl⟩ := Option.map_eq_some_iff.1 hq
    -- the third word is the first one of what follows the timestamp
    rw [firstWords, Option.bind_eq_some_iff] at hr
    obtain ⟨first, hfirst, hr⟩ := hr
    obtain ⟨t, -, rfl⟩ := Option.map_eq_some_iff.1 hr
    obtain rfl : first.1 = word := Option.some.inj hword
    have hhost : hostname.toList = first.1 := by
      rw [← (Prod.mk.inj heq).1, String.toList_ofList]
    rw [hhost]
    exact not_mem_firstWord hfirst
  · intro hhost
    rw [firstWords_append hhost, firstWords_append happ.noSpace, firstWords_append hdash.noSpace,
      firstWords_append hdash.noSpace, firstWords_append hdash.noSpace]
    simp [firstWords]

/-! ## What a receiver reads -/

theorem oneLine_formatRecord_iff (py : Python) {fmt : SiemFormat}
    {pceFqdn pceVersion host : String} {rec : SiemRecord} {line : String}
    (h : (formatterFor py fmt pceFqdn pceVersion host).formatRecord rec = some line) :
    OneLine line ↔ (fmt.isSyslog = true → OneLine (hostnameOf py host rec)) := by
  cases hfmt : fmt.isSyslog with
  | true =>
      obtain ⟨inner, severity, timestamp, hinner, rfl⟩ := formatRecord_syslog py hfmt h
      rw [oneLine_wrapRfc5424_iff py severity timestamp (oneLine_inner py fmt _ _ hinner)]
      exact ⟨fun hhost _ => hhost, fun hhost => hhost rfl⟩
  | false =>
      rw [formatterFor, hfmt, if_neg Bool.false_ne_true] at h
      exact iff_of_true (oneLine_inner py fmt _ _ h) fun h => absurd h Bool.false_ne_true

/-- What a receiver reads of the lines of a destination: one line a record on a stream of lines
exactly when no host name in a syslog header holds a line feed, every text on a stream of counted
octets, and the host name and the message of a syslog line exactly when the host name holds no
space. -/
theorem framing_iff (py : Python) (fmt : SiemFormat) (pceFqdn pceVersion host : String) :
    (∀ rec line, (formatterFor py fmt pceFqdn pceVersion host).formatRecord rec = some line →
      (OneLine line ↔ (fmt.isSyslog = true → OneLine (hostnameOf py host rec)))) ∧
    (∀ sent : List (SiemRecord × String),
      (∀ p ∈ sent,
        (formatterFor py fmt pceFqdn pceVersion host).formatRecord p.1 = some p.2) →
      (readTextLines ((sent.map Prod.snd).flatMap (Siem.framePayload · .lf)) =
          some (sent.map Prod.snd) ↔
        ∀ p ∈ sent, fmt.isSyslog = true → OneLine (hostnameOf py host p.1))) ∧
    (∀ payloads : List String,
      readTextOctets (payloads.flatMap (Siem.framePayload · .octetCounting)) = some payloads) ∧
    (fmt.isSyslog = true → ∀ rec line,
      (formatterFor py fmt pceFqdn pceVersion host).formatRecord rec = some line →
      ∃ message, (innerFormatter py fmt pceFqdn pceVersion).formatRecord rec = some message ∧
        (splitSyslog line = some (hostnameOf py host rec, message) ↔
          ' ' ∉ (hostnameOf py host rec).toList)) := by
  refine ⟨fun rec line h => oneLine_formatRecord_iff py h, ?_, readTextOctets_octets, ?_⟩
  · intro sent hsent
    refine (readTextLines_iff (sent.map Prod.snd)).trans ?_
    constructor
    · intro h p hp
      exact (oneLine_formatRecord_iff py (hsent p hp)).1 (h p.2 (List.mem_map_of_mem hp))
    · intro h s hs
      obtain ⟨p, hp, rfl⟩ := List.mem_map.1 hs
      exact (oneLine_formatRecord_iff py (hsent p hp)).2 (h p hp)
  · intro hfmt rec line h
    obtain ⟨message, severity, timestamp, hmessage, rfl⟩ := formatRecord_syslog py hfmt h
    exact ⟨message, hmessage, splitSyslog_wrapRfc5424_iff py _ _ severity timestamp⟩

/-- An audit event of a PCE. -/
def eventOf (pceFqdn : String) : SiemRecord where
  kind := .audit
  recordId := 1
  time := asciiPython.now
  event := some [("event_type", .str "user.login"), ("pce_fqdn", .str pceFqdn)]
  signature := ""
  name := ""
  severity := none
  summary := ""
  src := none
  dst := none
  port := none
  proto := none
  decision := none
  firstSeen := none
  lastSeen := none
  facts := []
  pceFqdn := ""

/-- A line feed in the name of the PCE makes two lines of one record, and a space in it is taken
for the end of the host name. -/
theorem hostname_breaks_header :
    (∃ line, (formatterFor asciiPython .syslogCef "" "26.2" "illumio-ops").formatRecord
      (eventOf "pce\nlab") = some line ∧ ¬ OneLine line) ∧
    ∃ line message, (formatterFor asciiPython .syslogCef "" "26.2" "illumio-ops").formatRecord
        (eventOf "pce lab") = some line ∧
      (innerFormatter asciiPython .syslogCef "" "26.2").formatRecord (eventOf "pce lab") =
        some message ∧
      splitSyslog line ≠ some ("pce lab", message) := by
  have hline : ∀ name, ∃ line,
      (formatterFor asciiPython .syslogCef "" "26.2" "illumio-ops").formatRecord (eventOf name) =
        some line := fun _ => ⟨_, rfl⟩
  constructor
  · obtain ⟨line, hline⟩ := hline "pce\nlab"
    refine ⟨line, hline, fun hone => ?_⟩
    exact absurd ((oneLine_formatRecord_iff asciiPython hline).1 hone rfl) (by decide)
  · obtain ⟨line, hline⟩ := hline "pce lab"
    obtain ⟨message, severity, timestamp, hmessage, hwrap⟩ :=
      formatRecord_syslog asciiPython rfl hline
    refine ⟨line, message, hline, hmessage, fun hsplit => ?_⟩
    rw [hwrap] at hsplit
    exact absurd ((splitSyslog_wrapRfc5424_iff asciiPython _ "pce lab" _ _).1 hsplit) (by decide)

end IllumioOps.SiemText
