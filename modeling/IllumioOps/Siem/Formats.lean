import IllumioOps.Alerts.Recorder
import IllumioOps.Json.Text
import IllumioOps.Text.Escaped

/-!
# How a SIEM line is written

The formatters of a SIEM destination: the PCE's own CEF shape in its two dialects, this product's
own events as CEF and as JSON, the normalized JSON of an audit event, and the RFC 5424 header of the
`syslog_*` formats. Case mapping, what is a space, the `str` of a list or a dict and the arithmetic
of dates are Python's, and a parameter here (`Python`).
-/

set_option autoImplicit false

namespace IllumioOps.SiemText

open Alerts (Severity)
open Text

/-! ## What is Python's -/

/-- A datetime in UTC. -/
structure Moment where
  year : Nat
  month : Nat
  day : Nat
  hour : Nat
  minute : Nat
  second : Nat
  microsecond : Nat
  deriving DecidableEq, Repr

/-- `str` of a list or a dict, the case mapping of a text and what it takes for white space, an ISO
8601 text as a moment in UTC, a moment as milliseconds since the epoch and as an ISO 8601 text, and
the time now. -/
structure Python where
  reprOf : Json → String
  lower : String → String
  upper : String → String
  isSpace : Char → Bool
  fromIsoformat : String → Option Moment
  epochMs : Moment → Int
  isoformat : Moment → String
  now : Moment

variable (py : Python)

/-- `str(value)` -/
def strOf : Json → String
  | .null => "None"
  | .bool true => "True"
  | .bool false => "False"
  | .int n => toString n
  | .float x => x.text
  | .str s => s
  | j => py.reprOf j

/-- `value.split()`: the words between white space. -/
def words (s : String) : List String :=
  ((s.toList.splitOnP py.isSpace).filter fun w => !w.isEmpty).map String.ofList

/-- `value.strip()` -/
def strip (s : String) : String :=
  String.ofList ((s.toList.dropWhile py.isSpace).reverse.dropWhile py.isSpace).reverse

/-- A number with leading zeros. -/
def pad (width n : Nat) : String :=
  String.ofList (List.replicate (width - (toString n).length) '0') ++ toString n

/-- `%b` -/
def monthName (month : Nat) : String :=
  ["Jan", "Feb", "Mar", "Apr", "May", "Jun", "Jul", "Aug", "Sep", "Oct", "Nov", "Dec"].getD
    (month - 1) ""

/-- A text without its last characters. -/
def dropEnd (n : Nat) (s : String) : String := String.ofList (s.toList.take (s.toList.length - n))

/-- The trailing `Z` of an ISO 8601 text as an offset. -/
def zoned (ts : String) : String :=
  if ts.toList.getLast? = some 'Z' then dropEnd 1 ts ++ "+00:00" else ts

/-- Whether a value is this text. -/
def isText (text : String) : Json → Bool
  | .str s => s == text
  | _ => false

/-! ## `cef_pce.py` -/

/-- `_AUDIT_SEVERITY.get(severity, 1)` -/
def auditSeverity : String → Nat
  | "debug" => 0
  | "info" | "informational" => 1
  | "notice" => 2
  | "warning" | "warn" => 3
  | "err" | "error" => 4
  | "critical" | "crit" => 5
  | "alert" => 6
  | "emerg" | "emergency" => 7
  | _ => 1

/-- `_CS2_CHUNK` -/
def cs2Chunk : Nat := 3995

/-- `_clean` -/
def clean (value : String) : String := replace '\n' " " (replace '\r' " " value)

/-- `_clean_value` -/
def cleanValue (value : String) : String := replace '=' "\\=" (replace '\\' "\\\\" (clean value))

/-- `_escape_arcsight` -/
def escapeArcsight (value : String) : String :=
  replace '\n' "\\n" (replace '\r' "\\r" (replace '=' "\\=" (replace '\\' "\\\\" value)))

/-- `_header_field` -/
def headerField (value : String) : String := replace '|' "\\|" (clean value)

/-- `w[:1].upper() + w[1:].lower()` -/
def capitalized (w : String) : String :=
  py.upper (String.ofList (w.toList.take 1)) ++ py.lower (String.ofList (w.toList.drop 1))

/-- `_title` -/
def title (sig : String) : String :=
  " ".intercalate ((words py (replace '_' " " (replace '.' " " sig))).map (capitalized py))

/-- `_header` -/
def header (sig name : String) (sev : Nat) (version : String) : String :=
  "CEF:0|Illumio|PCE|" ++ headerField version ++ "|" ++ headerField sig ++ "|" ++
    headerField name ++ "|" ++ toString sev ++ "|"

/-- `_parse_ts` -/
def parseTs (ts : String) : Option Moment :=
  if ts = "" then none else py.fromIsoformat (zoned ts)

/-- `_rt_epoch_ms` -/
def rtEpochMs (ts : String) : String :=
  match parseTs py ts with
  | some dt => toString (py.epochMs dt)
  | none => ""

/-- `_rt_audit` -/
def rtAudit (ts : String) : String :=
  match parseTs py ts with
  | some dt =>
      monthName dt.month ++ " " ++ pad 2 dt.day ++ " " ++ toString dt.year ++ " " ++
        pad 2 dt.hour ++ ":" ++ pad 2 dt.minute ++ ":" ++ pad 2 dt.second ++ "." ++
        pad 3 (dt.microsecond / 1000)
  | none => ""

/-- The entries of `resource_changes` without their changes. -/
def slim : Json → Json
  | .arr items => .arr (items.map fun
      | .obj fields => .obj (fields.filter fun f => f.1 != "changes")
      | e => e)
  | .obj fields => .arr (fields.map fun f => .str f.1)
  | .str s => .arr (s.toList.map fun c => .str (String.singleton c))
  | rc => rc

/-- `_resource_changes_chunks` -/
def resourceChangesChunks (rc : Json) : String × String :=
  let text := (Json.dumps rc).toList
  let text := if text.length > 2 * cs2Chunk then (Json.dumps (slim rc)).toList else text
  (String.ofList (text.take cs2Chunk), String.ofList ((text.take (2 * cs2Chunk)).drop cs2Chunk))

/-- `_href_tail` -/
def hrefTail (href : Json) : String :=
  let text := (strOf py (href.orElse (.str ""))).toList
  String.ofList ((text.reverse.dropWhile (· == '/')).takeWhile (· != '/')).reverse

/-- `_actor`: the user id, empty where the key is omitted, and the user name. -/
def actor (createdBy : Json) : String × String :=
  let cb := if createdBy.isObj then createdBy else .obj []
  if (cb.get? "system").isSome || !cb.truthy then ("", "system")
  else if (cb.get "user").isObj then
    let u := cb.get "user"
    (hrefTail py (u.get "href"),
      strOf py (((u.get "username").orElse (u.get "name")).orElse (.str "")))
  else if (cb.get "agent").isObj then
    let agent := cb.get "agent"
    let ven := if (cb.get "ven").isObj then cb.get "ven" else .obj []
    (hrefTail py ((ven.get "href").orElse (agent.get "href")),
      strOf py ((agent.get "hostname").orElse (.str "")))
  else if (cb.get "container_cluster").isObj then
    let cluster := cb.get "container_cluster"
    (hrefTail py (cluster.get "href"), strOf py ((cluster.get "name").orElse (.str "")))
  else if (cb.get "service_account").isObj then
    let account := cb.get "service_account"
    (hrefTail py (account.get "href"), strOf py ((account.get "name").orElse (.str "")))
  else ("", "system")

/-- The dialects of CEF. -/
inductive Dialect where
  | graylog
  | arcsight
  deriving DecidableEq, Repr

/-- The time of an audit event in a dialect. -/
def rtOf : Dialect → String → String
  | .graylog => rtAudit py
  | .arcsight => rtEpochMs py

/-- `self._v` -/
def Dialect.value : Dialect → String → String
  | .graylog => cleanValue
  | .arcsight => escapeArcsight

/-- One key of the extension: written by `_kv`, which escapes its value, or as it is. -/
structure Entry where
  key : String
  value : String
  escaped : Bool
  deriving DecidableEq, Repr

/-- `ext.append(f"{key}={value}")` -/
def plain (key value : String) : List Entry := [⟨key, value, false⟩]

/-- `_kv` with a text -/
def kvText (d : Dialect) (key text : String) : List Entry :=
  if text = "" ∧ d = .arcsight then [] else [⟨key, text, true⟩]

/-- `_kv` -/
def kv (d : Dialect) (key : String) : Json → List Entry
  | .null => kvText d key ""
  | value => kvText d key (strOf py value)

/-- `_kv` for a value that is there. -/
def kvPresent (d : Dialect) (key : String) : Json → List Entry
  | .null => []
  | value => kv py d key value

/-- The text of a key and its value. -/
def Entry.text (value : String → String) (e : Entry) : String :=
  e.key ++ "=" ++ if e.escaped then value e.value else e.value

/-- The signature id of an audit event. -/
def eventSig (event : Json) : String :=
  let eventType := strOf py ((event.get "event_type").orElse (.str "unknown"))
  let status := event.get "status"
  if status.truthy then eventType ++ "." ++ strOf py status else eventType

/-- The severity of an audit event. -/
def eventSeverity (event : Json) : Nat :=
  auditSeverity (py.lower (strOf py ((event.get "severity").orElse (.str "info"))))

/-- A formatter of the PCE's CEF. -/
structure CefFormatter where
  pceFqdn : String
  pceVersion : String
  dialect : Dialect

namespace CefFormatter

variable (f : CefFormatter)

/-- `self._pce_version` -/
def version : String := if f.pceVersion = "" then "unknown" else f.pceVersion

/-- The extension of an audit event. -/
def ext (event : Json) : List Entry :=
  let d := f.dialect
  let dvchost := strOf py ((event.get "pce_fqdn").orElse (.str f.pceFqdn))
  let action := event.get "action"
  let srcIp := if action.isObj then action.get "src_ip" else .null
  let dst := if srcIp.truthy && !isText "FILTERED" srcIp then srcIp else .str dvchost
  let duid := (actor py (event.get "created_by")).1
  let duser := (actor py (event.get "created_by")).2
  let timestamp := strOf py ((event.get "timestamp").orElse (.str ""))
  let rt := rtOf py d timestamp
  let rc := event.get "resource_changes"
  let cs2 := if rc.truthy then (resourceChangesChunks rc).1 else ""
  let cs3 := if rc.truthy then (resourceChangesChunks rc).2 else ""
  let notes := event.get "notifications"
  let cs4 := if notes.truthy then Json.dumps notes else ""
  (if rt ≠ "" then plain "rt" rt else []) ++
    kvText d "dvchost" dvchost ++
    (if duid ≠ "" then kvText d "duid" duid else []) ++
    kvText d "duser" duser ++
    kv py d "dst" dst ++
    kv py d "outcome" ((event.get "status").orElse (.str "")) ++
    plain "cat" "audit_events" ++
    (if action.isObj then
      kvPresent py d "request" (action.get "api_endpoint") ++
        kvPresent py d "requestMethod" (action.get "api_method") ++
        kvPresent py d "reason" (action.get "http_status_code")
    else []) ++
    kvText d "cs2" cs2 ++
    (if cs2 ≠ "" ∨ d = .graylog then plain "cs2Label" "resource_changes" else []) ++
    kvText d "cs4" cs4 ++
    (if cs4 ≠ "" ∨ d = .graylog then plain "cs4Label" "notifications" else []) ++
    plain "cn2" "2" ++
    plain "cn2Label" "schema-version" ++
    plain "cs1Label" "event_href" ++
    kv py d "cs1" (((event.get "href").orElse (event.get "pce_event_id")).orElse (.str "")) ++
    (if cs3 ≠ "" then kvText d "cs3" cs3 ++ plain "cs3Label" "resource_changes_2" else [])

/-- `format_event` -/
def formatEvent (event : Json) : String :=
  let sig := eventSig py event
  header sig (title py sig) (eventSeverity py event) f.version ++
    " ".intercalate ((f.ext py event).map (Entry.text f.dialect.value))

end CefFormatter

/-! ## `records.py` -/

/-- The kinds of forwarded lines. -/
inductive LineKind where
  | audit
  | detection
  | alert
  | newConnection
  | test
  deriving DecidableEq, Repr

def LineKind.text : LineKind → String
  | .audit => "audit"
  | .detection => "detection"
  | .alert => "alert"
  | .newConnection => "new_connection"
  | .test => "test"

/-- `Endpoint` -/
structure Endpoint where
  ip : Option String
  host : Option String
  href : Option String
  labels : List (String × String)

/-- `Endpoint()` -/
def Endpoint.empty : Endpoint := ⟨none, none, none, []⟩

/-- `SiemRecord`: an audit event as the PCE gave it, or one of this product's own events. The facts
that are no JSON are their `str`. -/
structure SiemRecord where
  kind : LineKind
  recordId : Nat
  time : Moment
  event : Option (List (String × Json))
  signature : String
  name : String
  severity : Option Severity
  summary : String
  src : Option Endpoint
  dst : Option Endpoint
  port : Option Int
  proto : Option Int
  decision : Option String
  firstSeen : Option Moment
  lastSeen : Option Moment
  facts : List (String × Json)
  pceFqdn : String

/-- `external_id` -/
def SiemRecord.externalId (rec : SiemRecord) : String :=
  rec.kind.text ++ ":" ++ toString rec.recordId

/-! ## `ops.py` -/

/-- `CS_LIMIT` -/
def csLimit : Nat := 3995

/-- `CEF_SEVERITY` -/
def cefSeverity : Option Severity → Nat
  | none => 1
  | some .low => 3
  | some .medium => 5
  | some .high => 8
  | some .critical => 10

/-- `__version__` -/
def version : String := "6.4.1"

/-- `_ms` -/
def ms : Option Moment → String
  | some value => toString (py.epochMs value)
  | none => ""

/-- `_iso` -/
def iso : Option Moment → Json
  | some value => .str (dropZero (py.isoformat value))
  | none => .null
where
  /-- `replace("+00:00", "Z")` -/
  dropZero (text : String) : String := text.replace "+00:00" "Z"

/-- `_head` -/
def opsHead (value : String) : String :=
  replace '\n' " " (replace '\r' " " (replace '|' "\\|" (replace '\\' "\\\\" value)))

/-- `_escape` -/
def opsEscape (value : String) : String :=
  replace '\n' "\\n" (replace '\r' "\\r" (replace '=' "\\=" (replace '\\' "\\\\" value)))

/-- `proto_name` -/
def protoName : Option Int → String
  | none => ""
  | some 6 => "tcp"
  | some 17 => "udp"
  | some 1 => "icmp"
  | some proto => toString proto

/-- A mapping of texts as JSON, or nothing where it is empty. -/
def labelsJson (labels : List (String × String)) : Json :=
  if labels.isEmpty then .null else .obj (labels.map fun l => (l.1, .str l.2))

/-- `facts_text` -/
def factsText (rec : SiemRecord) : String × Bool :=
  let text := if rec.facts.isEmpty then [] else (Json.dumps (.obj rec.facts)).toList
  if text.length > csLimit then (String.ofList (text.take csLimit), true)
  else (String.ofList text, false)

/-- `kv` of `ops_cef` -/
def opsKv (key text : String) : List Entry := if text = "" then [] else [⟨key, text, true⟩]

/-- One of the labelled fields `cs1` to `cs4`. -/
def opsCs (n : Nat) (label value : String) : List Entry :=
  if value = "" then []
  else opsKv ("cs" ++ toString n) (String.ofList (value.toList.take csLimit)) ++
    plain ("cs" ++ toString n ++ "Label") label

/-- `_compact(dict(labels)) if labels else ""` -/
def labelsText (labels : List (String × String)) : String :=
  if labels.isEmpty then "" else Json.dumps (.obj (labels.map fun l => (l.1, .str l.2)))

/-- The extension of `ops_cef`. -/
def opsExt (rec : SiemRecord) : List Entry :=
  let src := rec.src.getD .empty
  let dst := rec.dst.getD .empty
  let facts := (factsText rec).1
  let cut := (factsText rec).2
  opsKv "rt" (ms py (some rec.time)) ++
    opsKv "externalId" rec.externalId ++
    opsKv "cat" ("illumio_ops_" ++ rec.kind.text) ++
    opsKv "msg" rec.summary ++
    opsKv "src" (src.ip.getD "") ++
    opsKv "shost" (src.host.getD "") ++
    opsKv "dst" (dst.ip.getD "") ++
    opsKv "dhost" (dst.host.getD "") ++
    opsKv "dpt" ((rec.port.map toString).getD "") ++
    opsKv "proto" (protoName rec.proto) ++
    opsKv "act" (rec.decision.getD "") ++
    opsKv "start" (ms py rec.firstSeen) ++
    opsKv "end" (ms py rec.lastSeen) ++
    opsKv "dvchost" rec.pceFqdn ++
    opsCs 1 "src_labels" (labelsText src.labels) ++
    opsCs 2 "dst_labels" (labelsText dst.labels) ++
    opsCs 3 "src_href" (src.href.getD "") ++
    opsCs 4 "dst_href" (dst.href.getD "") ++
    (if facts = "" then [] else opsKv "cs5" facts ++ plain "cs5Label" "facts") ++
    (if cut then plain "cs6" "true" ++ plain "cs6Label" "facts_truncated" else [])

/-- The name of a record, its signature where it has none. -/
def SiemRecord.title (rec : SiemRecord) : String :=
  if rec.name = "" then rec.signature else rec.name

/-- `ops_cef` -/
def opsCef (rec : SiemRecord) : String :=
  "CEF:0|Illumio|illumio-ops|" ++ opsHead version ++ "|" ++ opsHead rec.signature ++ "|" ++
    opsHead rec.title ++ "|" ++ toString (cefSeverity rec.severity) ++ "|" ++
    " ".intercalate ((opsExt py rec).map (Entry.text opsEscape))

def optionText : Option String → Json
  | some text => .str text
  | none => .null

/-- `_endpoint` -/
def endpoint (side : String) : Option Endpoint → List (String × Json)
  | none => []
  | some e =>
      [(side ++ "_ip", optionText e.ip), (side ++ "_host", optionText e.host),
        (side ++ "_href", optionText e.href), (side ++ "_labels", labelsJson e.labels)]

/-- The value of a severity. -/
def severityText : Severity → String
  | .low => "low"
  | .medium => "medium"
  | .high => "high"
  | .critical => "critical"

/-- `{k: v for k, v in d.items() if v is not None and v != ""}` -/
def omitNone (fields : List (String × Json)) : List (String × Json) :=
  fields.filter fun f => match f.2 with
    | .null => false
    | v => !isText "" v

/-- `ops_json` -/
def opsJson (rec : SiemRecord) : String :=
  Json.dumps (.obj (omitNone (
    [("source", .str "illumio-ops"), ("kind", .str rec.kind.text), ("id", .int rec.recordId),
      ("external_id", .str rec.externalId), ("time", iso py (some rec.time)),
      ("signature", .str rec.signature), ("name", .str rec.name),
      ("severity", optionText (rec.severity.map severityText)), ("summary", .str rec.summary)] ++
    endpoint "src" rec.src ++ endpoint "dst" rec.dst ++
    [("port", (rec.port.map Json.int).getD .null), ("proto", .str (protoName rec.proto)),
      ("decision", optionText rec.decision), ("first_seen", iso py rec.firstSeen),
      ("last_seen", iso py rec.lastSeen),
      ("facts", if rec.facts.isEmpty then .null else .obj rec.facts),
      ("pce_fqdn", .str rec.pceFqdn)])))

/-! ## `normalized_json.py` -/

/-- `_extract_actor`; it raises where a part is no dict. -/
def extractActor (createdBy : Json) : Option String :=
  if !createdBy.isObj then none
  else if (createdBy.get "system").truthy then some "system"
  else
    let user := (createdBy.get "user").orElse (.obj [])
    if !user.isObj then none
    else if (user.get "username").truthy then some (strOf py (user.get "username"))
    else if (user.get "name").truthy then some (strOf py (user.get "name"))
    else
      let sa := (createdBy.get "service_account").orElse (.obj [])
      if !sa.isObj then none
      else if (sa.get "name").truthy then some (strOf py (sa.get "name"))
      else some ""

/-- The text of one change of `_format_resource_changes`; it raises where a part is no dict. -/
def changeText (change : Json) : Option (List String) :=
  match change, (change.get "resource").orElse (.obj []) with
  | .obj _, .obj [] => some []
  | .obj _, .obj ((resType, resVal) :: _) =>
      let changeType := strOf py ((change.get? "change_type").getD (.str ""))
      let name := if resVal.isObj then (resVal.get? "name").getD (.str "") else .str ""
      some [if name.truthy then changeType ++ ":" ++ resType ++ ":" ++ strOf py name
        else changeType ++ ":" ++ resType]
  | _, _ => none

/-- `_format_resource_changes` -/
def formatResourceChanges : Json → Option String
  | .arr items =>
      ((items.take 5).mapM (changeText py)).map fun parts => " ".intercalate parts.flatten
  | _ => none

/-- A key that is set where the value is not empty. -/
def whenTruthy (key : String) (value : Json) : List (String × Json) :=
  if value.truthy then [(key, value)] else []

/-- `NormalizedJSONFormatter.format_event` -/
def normalizedEvent (event : Json) : Option String :=
  let action := (event.get "action").orElse (.obj [])
  let rc := event.get "resource_changes"
  let msg := if rc.truthy then formatResourceChanges py rc else some ""
  match extractActor py ((event.get "created_by").orElse (.obj [])), action.isObj, msg with
  | some actor, true, some msg =>
      some (Json.dumps (.obj (omitNone (
        [("timestamp", (event.get? "timestamp").getD (.str "")),
          ("pce_fqdn", (event.get? "pce_fqdn").getD (.str "")),
          ("event_type", (event.get? "event_type").getD (.str "unknown")),
          ("severity", (event.get? "severity").getD (.str "info")),
          ("status", (event.get? "status").getD (.str "")),
          ("pce_event_id", (((event.get "pce_event_id").orElse (event.get "uuid")).orElse
            (event.get "href")).orElse (.str ""))] ++
        whenTruthy "suser" (.str actor) ++
        whenTruthy "src_ip" (action.get "src_ip") ++
        whenTruthy "request_method" (action.get "api_method") ++
        whenTruthy "request" (action.get "api_endpoint") ++
        [("http_status_code", action.get "http_status_code")] ++
        whenTruthy "resource_changes" (.str msg)))))
  | _, _, _ => none

/-! ## `syslog_header.py` and `syslog_wrapped.py` -/

/-- `parse_record_time` -/
def parseRecordTime : Json → Option Moment
  | .str value =>
      let text := strip py value
      if text = "" then none else py.fromIsoformat (zoned text)
  | _ => none

/-- The timestamp of a header, in milliseconds. -/
def syslogTime (dt : Moment) : String :=
  toString dt.year ++ "-" ++ pad 2 dt.month ++ "-" ++ pad 2 dt.day ++ "T" ++
    pad 2 dt.hour ++ ":" ++ pad 2 dt.minute ++ ":" ++ pad 2 dt.second ++ "." ++
    dropEnd 3 (pad 6 dt.microsecond) ++ "Z"

/-- `wrap_rfc5424` -/
def wrapRfc5424 (payload : String) (severity : Nat) (hostname : String)
    (timestamp : Option Moment) : String :=
  let pri := 8 + severity
  let ts := syslogTime (timestamp.getD py.now)
  "<" ++ toString pri ++ ">1 " ++ ts ++ " " ++ hostname ++ " illumio-ops - - - " ++ payload

/-- `_SYSLOG_SEV_MAP.get(severity, 6)` -/
def syslogSeverity : String → Nat
  | "info" => 6
  | "warning" | "warn" => 4
  | "error" | "err" => 3
  | "critical" | "crit" => 2
  | _ => 6

/-- `_RECORD_SEV.get(severity, 6)` -/
def recordSeverity : Option Severity → Nat
  | none => 6
  | some .low => 5
  | some .medium => 4
  | some .high => 3
  | some .critical => 2

/-- A formatter; formatting an audit event can raise. -/
structure Formatter where
  formatEvent : Json → Option String
  formatOps : SiemRecord → String

/-- The host a line of an audit event is from. -/
def eventHostname (host : String) (event : Json) : String :=
  strOf py ((event.get "pce_fqdn").orElse (.str host))

/-- `SyslogWrappedFormatter` -/
def syslogWrapped (inner : Formatter) (host : String) : Formatter where
  formatEvent event :=
    (inner.formatEvent event).map fun payload =>
      wrapRfc5424 py payload
        (syslogSeverity (py.lower (strOf py ((event.get? "severity").getD (.str "info")))))
        (eventHostname py host event) (parseRecordTime py (event.get "timestamp"))
  formatOps rec :=
    wrapRfc5424 py (inner.formatOps rec) (recordSeverity rec.severity) host (some rec.time)

/-- `NormalizedJSONFormatter` -/
def normalizedJson : Formatter := ⟨normalizedEvent py, opsJson py⟩

/-- `PceNativeCEFFormatter` -/
def pceNativeCef (f : CefFormatter) : Formatter :=
  ⟨fun event => some (f.formatEvent py event), opsCef py⟩

/-- `SiemFormat` -/
inductive SiemFormat where
  | cef
  | json
  | syslogCef
  | syslogJson
  | cefPce
  | syslogCefPce
  deriving DecidableEq, Repr

/-- The formats with a syslog header. -/
def SiemFormat.isSyslog : SiemFormat → Bool
  | .syslogCef | .syslogJson | .syslogCefPce => true
  | _ => false

/-- The formatter within the syslog header. -/
def innerFormatter (fmt : SiemFormat) (pceFqdn pceVersion : String) : Formatter :=
  match fmt with
  | .cefPce | .syslogCefPce => pceNativeCef py ⟨pceFqdn, pceVersion, .graylog⟩
  | .cef | .syslogCef => pceNativeCef py ⟨pceFqdn, pceVersion, .arcsight⟩
  | .json | .syslogJson => normalizedJson py

/-- `formatter_for` -/
def formatterFor (fmt : SiemFormat) (pceFqdn pceVersion host : String) : Formatter :=
  let inner := innerFormatter py fmt pceFqdn pceVersion
  if fmt.isSyslog then syslogWrapped py inner host else inner

/-- `format_record` -/
def Formatter.formatRecord (f : Formatter) (rec : SiemRecord) : Option String :=
  if rec.kind = .audit then f.formatEvent (.obj (rec.event.getD [])) else some (f.formatOps rec)

end IllumioOps.SiemText
