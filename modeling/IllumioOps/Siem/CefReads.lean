import IllumioOps.Siem.Formats

/-!
# What a reader of CEF finds

`readCef` reads a line as CEF says: the header is cut at the bars that are not escaped, the
extension at the equals signs. Every value of the extension is read back, in both dialects and in
this product's own lines, and so is the header of the latter. The header of an audit event escapes
its bars but no backslash: it is read back exactly when no backslash in the version, the signature
and the title stands at the end or before a backslash or a bar (`audit_reads_back_iff`).
-/

set_option autoImplicit false

namespace IllumioOps.SiemText

open Text

/-! ## The grammar -/

/-- What an escape in an extension value stands for. -/
def valueMeaning : Escapes
  | '\\' => some '\\'
  | '=' => some '='
  | 'n' => some '\n'
  | 'r' => some '\r'
  | _ => none

/-- What a value is escaped with. -/
def valueEscapes : Escapes
  | '\\' => some '\\'
  | '=' => some '='
  | '\n' => some 'n'
  | '\r' => some 'r'
  | _ => none

/-- The seven header fields of a line and the keys and values of its extension. -/
def readCef (line : String) : Option (List String × List (String × String)) :=
  (readFields '|' (itself '|') 7 line.toList).map fun p =>
    (p.1.map String.ofList,
      (pairs '=' valueMeaning p.2).map fun q => (String.ofList q.1, String.ofList q.2))

theorem readsBack_values : ReadsBack '=' valueEscapes valueMeaning where
  ne := by decide
  backslash := ⟨'\\', rfl⟩
  separator := ⟨'=', rfl⟩
  meaning c d h := by
    rw [valueEscapes.eq_def] at h
    split at h
    · obtain rfl := Option.some.inj h; rfl
    · obtain rfl := Option.some.inj h; rfl
    · obtain rfl := Option.some.inj h; rfl
    · obtain rfl := Option.some.inj h; rfl
    · exact absurd h (by simp)

theorem readsBack_header : ReadsBack '|' (itself '|') (itself '|') where
  ne := by decide
  backslash := ⟨'\\', rfl⟩
  separator := ⟨'|', rfl⟩
  meaning c d h := by
    rw [itself] at h
    split at h
    · rename_i hc
      obtain rfl := Option.some.inj h
      rw [itself, if_pos hc]
    · exact absurd h (by simp)

/-! ## What the escapes write -/

theorem toList_replace (c : Char) (new s : String) :
    (replace c new s).toList = s.toList.flatMap fun x => if x = c then new.toList else [x] := by
  rw [replace, String.toList_ofList]

/-- Line breaks as spaces. -/
def flat (c : Char) : Char := if c = '\r' ∨ c = '\n' then ' ' else c

theorem flat_ne {c d : Char} (hd : d = '\r' ∨ d = '\n') : flat c ≠ d := by
  rw [flat]
  split
  · rcases hd with rfl | rfl <;> decide
  · rename_i hc
    rintro rfl
    exact hc hd

theorem toList_clean (s : String) : (clean s).toList = s.toList.map flat := by
  have hflat : ∀ c : Char, (if c = '\r' then " ".toList else [c]).flatMap
      (fun x => if x = '\n' then " ".toList else [x]) = [flat c] := by
    intro c
    by_cases hr : c = '\r'
    · subst hr; rfl
    by_cases hn : c = '\n'
    · subst hn; rfl
    · simp [flat, hr, hn]
  rw [clean, toList_replace, toList_replace, List.flatMap_assoc, funext hflat]
  exact List.flatMap_pure_eq_map flat s.toList

theorem valueEscapes_none {c : Char} (hslash : c ≠ '\\') (heq : c ≠ '=') (hn : c ≠ '\n')
    (hr : c ≠ '\r') : valueEscapes c = none := by
  rw [valueEscapes.eq_def]
  split <;> simp_all

theorem toList_escapeArcsight (s : String) :
    (escapeArcsight s).toList = escape valueEscapes s.toList := by
  have hchar : ∀ c : Char, (((if c = '\\' then "\\\\".toList else [c]).flatMap
      (fun x => if x = '=' then "\\=".toList else [x])).flatMap
      (fun x => if x = '\r' then "\\r".toList else [x])).flatMap
      (fun x => if x = '\n' then "\\n".toList else [x]) = escapeChar valueEscapes c := by
    intro c
    by_cases hslash : c = '\\'
    · subst hslash; rfl
    by_cases heq : c = '='
    · subst heq; rfl
    by_cases hr : c = '\r'
    · subst hr; rfl
    by_cases hn : c = '\n'
    · subst hn; rfl
    · rw [escapeChar_none (valueEscapes_none hslash heq hn hr)]
      simp [hslash, heq, hr, hn]
  rw [escapeArcsight]
  simp only [toList_replace, List.flatMap_assoc]
  rw [escape]
  refine congrArg (fun f => List.flatMap f s.toList) (funext fun c => ?_)
  rw [← hchar c]
  simp only [List.flatMap_assoc]

theorem toList_opsEscape (s : String) : (opsEscape s).toList = escape valueEscapes s.toList :=
  toList_escapeArcsight s

theorem toList_cleanValue (s : String) :
    (cleanValue s).toList = escape valueEscapes (clean s).toList := by
  have hchar : ∀ c : Char, ((if flat c = '\\' then "\\\\".toList else [flat c]).flatMap
      fun x => if x = '=' then "\\=".toList else [x]) = escapeChar valueEscapes (flat c) := by
    intro c
    have hr : flat c ≠ '\r' := flat_ne (Or.inl rfl)
    have hn : flat c ≠ '\n' := flat_ne (Or.inr rfl)
    generalize flat c = d at hr hn
    by_cases hslash : d = '\\'
    · subst hslash; rfl
    by_cases heq : d = '='
    · subst heq; rfl
    · rw [escapeChar_none (valueEscapes_none hslash heq hn hr)]
      simp [hslash, heq]
  rw [cleanValue, toList_replace, toList_replace, toList_clean, escape]
  simp only [List.flatMap_assoc, List.flatMap_map]
  exact congrArg (fun f => List.flatMap f s.toList) (funext hchar)

theorem toList_headerField (s : String) :
    (headerField s).toList = escape (separatorOnly '|') (clean s).toList := by
  rw [headerField, toList_replace, escape]
  refine congrArg (fun f => List.flatMap f (clean s).toList) (funext fun c => ?_)
  by_cases hc : c = '|'
  · subst hc; rfl
  · rw [if_neg hc, escapeChar_none (if_neg hc)]

theorem toList_opsHead (s : String) :
    (opsHead s).toList = escape (itself '|') (clean s).toList := by
  have hchar : ∀ c : Char, (((if c = '\\' then "\\\\".toList else [c]).flatMap
      (fun x => if x = '|' then "\\|".toList else [x])).flatMap
      (fun x => if x = '\r' then " ".toList else [x])).flatMap
      (fun x => if x = '\n' then " ".toList else [x]) = escapeChar (itself '|') (flat c) := by
    intro c
    by_cases hslash : c = '\\'
    · subst hslash; rfl
    by_cases hbar : c = '|'
    · subst hbar; rfl
    by_cases hr : c = '\r'
    · subst hr; rfl
    by_cases hn : c = '\n'
    · subst hn; rfl
    · have hflat : flat c = c := if_neg fun h => h.elim hr hn
      rw [hflat, escapeChar_none (itself_of_ne hslash hbar)]
      simp [hslash, hbar, hr, hn]
  rw [opsHead, toList_clean, escape]
  simp only [toList_replace, List.flatMap_assoc, List.flatMap_map]
  refine congrArg (fun f => List.flatMap f s.toList) (funext fun c => ?_)
  rw [← hchar c]
  simp only [List.flatMap_assoc]

/-! ## Entries -/

/-- A value that is written as it is. -/
def PlainValue (s : String) : Prop := ∀ c ∈ s.toList, valueEscapes c = none

instance (s : String) : Decidable (PlainValue s) :=
  List.decidableBAll _ s.toList

/-- A key that is one word of a line. -/
structure ProperKey (key : String) : Prop where
  word : Key '=' key.toList
  oneLine : '\n' ∉ key.toList

instance (key : String) : Decidable (ProperKey key) :=
  decidable_of_iff (Key '=' key.toList ∧ '\n' ∉ key.toList)
    ⟨fun h => ⟨h.1, h.2⟩, fun h => ⟨h.word, h.oneLine⟩⟩

/-- An entry that can be read back: its key is one word, and a value that is not escaped needs no
escape. -/
structure Entry.Proper (e : Entry) : Prop where
  key : ProperKey e.key
  plain : e.escaped = false → PlainValue e.value

/-- What a reader finds of a value. -/
def Dialect.reads : Dialect → String → String
  | .graylog, value => clean value
  | .arcsight, value => value

/-- The key and the value a reader finds. -/
def Entry.read (d : Dialect) (e : Entry) : String × String := (e.key, d.reads e.value)

theorem clean_plain {s : String} (h : PlainValue s) : clean s = s := by
  have hflat : ∀ c ∈ s.toList, flat c = c := by
    intro c hc
    refine if_neg fun hbreak => ?_
    have hnone := h c hc
    rcases hbreak with rfl | rfl
    · exact absurd hnone (by decide)
    · exact absurd hnone (by decide)
  rw [← String.toList_inj, toList_clean, List.map_congr_left hflat, List.map_id']

theorem toList_text (d : Dialect) {e : Entry} (h : e.Proper) :
    (e.text d.value).toList =
      spellPair '=' valueEscapes (e.key.toList, (d.reads e.value).toList) := by
  have hequals : "=".toList = ['='] := rfl
  rw [Entry.text, spellPair, String.toList_append, String.toList_append, List.append_assoc,
    hequals, List.singleton_append]
  cases hesc : e.escaped with
  | true =>
      cases d with
      | graylog => rw [if_pos rfl, Dialect.value, toList_cleanValue, Dialect.reads]
      | arcsight => rw [if_pos rfl, Dialect.value, toList_escapeArcsight, Dialect.reads]
  | false =>
      have hplain := h.plain hesc
      cases d with
      | graylog =>
          rw [if_neg Bool.false_ne_true, Dialect.reads, clean_plain hplain, escape_eq_self hplain]
      | arcsight => rw [if_neg Bool.false_ne_true, Dialect.reads, escape_eq_self hplain]

/-- What a reader finds of an extension. -/
theorem pairs_extension (d : Dialect) {es : List Entry} (h : ∀ e ∈ es, e.Proper) :
    (pairs '=' valueMeaning (" ".intercalate (es.map (Entry.text d.value))).toList).map
        (fun q => (String.ofList q.1, String.ofList q.2)) = es.map (Entry.read d) := by
  have hspace : " ".toList = [' '] := rfl
  have htexts : (es.map (Entry.text d.value)).map String.toList =
      (es.map fun e => (e.key.toList, (d.reads e.value).toList)).map
        (spellPair '=' valueEscapes) := by
    rw [List.map_map, List.map_map]
    exact List.map_congr_left fun e he => toList_text d (h e he)
  rw [String.toList_intercalate, hspace, htexts, pairs_spell readsBack_values (by decide) _ ?_,
    List.map_map]
  · refine List.map_congr_left fun e _ => ?_
    rw [Function.comp_apply, String.ofList_toList, String.ofList_toList, Entry.read]
  · intro p hp
    obtain ⟨e, he, rfl⟩ := List.mem_map.1 hp
    exact (h e he).key.word

/-! ## Plain values -/

theorem valueEscapes_of_isFloatChar {c : Char} (h : isFloatChar c = true) :
    valueEscapes c = none := by
  refine valueEscapes_none ?_ ?_ ?_ ?_
  all_goals
    rintro rfl
    exact absurd h (by decide)

theorem PlainValue.append {s t : String} (hs : PlainValue s) (ht : PlainValue t) :
    PlainValue (s ++ t) := by
  intro c hc
  rw [String.toList_append] at hc
  exact (List.mem_append.1 hc).elim (hs c) (ht c)

theorem plain_nat (n : Nat) : PlainValue (toString n) :=
  fun _ hc => valueEscapes_of_isFloatChar (Json.isFloatChar_of_mem_nat hc)

theorem plain_int (n : Int) : PlainValue (toString n) :=
  fun _ hc => valueEscapes_of_isFloatChar (Json.isFloatChar_of_mem_int hc)

theorem plain_pad (width n : Nat) : PlainValue (pad width n) := by
  refine PlainValue.append (fun c hc => ?_) (plain_nat n)
  rw [String.toList_ofList] at hc
  rw [List.eq_of_mem_replicate hc]
  rfl

theorem plain_monthName (month : Nat) : PlainValue (monthName month) := by
  have hnames : ∀ name ∈ ["Jan", "Feb", "Mar", "Apr", "May", "Jun", "Jul", "Aug", "Sep", "Oct",
      "Nov", "Dec"], PlainValue name := by decide
  rw [monthName, List.getD_eq_getElem?_getD]
  cases h : (["Jan", "Feb", "Mar", "Apr", "May", "Jun", "Jul", "Aug", "Sep", "Oct", "Nov",
      "Dec"] : List String)[month - 1]? with
  | none => decide
  | some name => exact hnames name (List.mem_of_getElem? h)

theorem plain_rtEpochMs (py : Python) (ts : String) : PlainValue (rtEpochMs py ts) := by
  rw [rtEpochMs]
  cases parseTs py ts with
  | none => exact fun c hc => absurd hc List.not_mem_nil
  | some dt => exact plain_int _

theorem plain_rtAudit (py : Python) (ts : String) : PlainValue (rtAudit py ts) := by
  rw [rtAudit]
  cases parseTs py ts with
  | none => exact fun c hc => absurd hc List.not_mem_nil
  | some dt =>
      have hspace : PlainValue " " := by decide
      have hcolon : PlainValue ":" := by decide
      have hdot : PlainValue "." := by decide
      exact ((((((((((((plain_monthName _).append hspace).append (plain_pad _ _)).append
        hspace).append (plain_nat _)).append hspace).append (plain_pad _ _)).append
        hcolon).append (plain_pad _ _)).append hcolon).append (plain_pad _ _)).append
        hdot).append (plain_pad _ _)

/-! ## The entries of the formatters -/

/-- Entries that can be read back. -/
def AllProper (es : List Entry) : Prop := ∀ e ∈ es, e.Proper

theorem AllProper.append {es es' : List Entry} (h : AllProper es) (h' : AllProper es') :
    AllProper (es ++ es') :=
  fun e he => (List.mem_append.1 he).elim (h e) (h' e)

theorem allProper_nil : AllProper [] := fun _ h => absurd h List.not_mem_nil

theorem allProper_escaped {key text : String} (hkey : ProperKey key) :
    AllProper [⟨key, text, true⟩] := by
  intro e he
  obtain rfl := List.mem_singleton.1 he
  exact ⟨hkey, fun h => absurd h (by simp)⟩

theorem allProper_plain {key value : String} (hkey : ProperKey key)
    (hvalue : PlainValue value) : AllProper (plain key value) := by
  intro e he
  obtain rfl := List.mem_singleton.1 he
  exact ⟨hkey, fun _ => hvalue⟩

theorem allProper_kvText (d : Dialect) {key : String} (hkey : ProperKey key)
    (text : String) : AllProper (kvText d key text) := by
  rw [kvText]
  split
  · exact allProper_nil
  · exact allProper_escaped hkey

theorem allProper_kv (py : Python) (d : Dialect) {key : String} (hkey : ProperKey key)
    (value : Json) : AllProper (kv py d key value) := by
  cases value <;> exact allProper_kvText d hkey _

theorem allProper_ite {c : Prop} [Decidable c] {es es' : List Entry} (h : AllProper es)
    (h' : AllProper es') : AllProper (if c then es else es') := by
  split
  · exact h
  · exact h'

theorem allProper_kvPresent (py : Python) (d : Dialect) {key : String}
    (hkey : ProperKey key) (value : Json) : AllProper (kvPresent py d key value) := by
  rw [kvPresent.eq_def]
  split
  · exact allProper_nil
  · exact allProper_kv py d hkey value

theorem plain_rtOf (py : Python) (d : Dialect) (ts : String) : PlainValue (rtOf py d ts) := by
  cases d with
  | graylog => exact plain_rtAudit py ts
  | arcsight => exact plain_rtEpochMs py ts

theorem allProper_ext (py : Python) (f : CefFormatter) (event : Json) :
    AllProper (f.ext py event) := by
  unfold CefFormatter.ext
  refine .append (.append (.append (.append (.append (.append (.append (.append (.append (.append
    (.append (.append (.append (.append (.append (.append ?_ ?_) ?_) ?_) ?_) ?_) ?_) ?_) ?_) ?_)
    ?_) ?_) ?_) ?_) ?_) ?_) ?_
  · exact allProper_ite (allProper_plain (by decide) (plain_rtOf py _ _)) allProper_nil
  · exact allProper_kvText _ (by decide) _
  · exact allProper_ite (allProper_kvText _ (by decide) _) allProper_nil
  · exact allProper_kvText _ (by decide) _
  · exact allProper_kv py _ (by decide) _
  · exact allProper_kv py _ (by decide) _
  · exact allProper_plain (by decide) (by decide)
  · exact allProper_ite (((allProper_kvPresent py _ (by decide) _).append
      (allProper_kvPresent py _ (by decide) _)).append (allProper_kvPresent py _ (by decide) _))
      allProper_nil
  · exact allProper_kvText _ (by decide) _
  · exact allProper_ite (allProper_plain (by decide) (by decide)) allProper_nil
  · exact allProper_kvText _ (by decide) _
  · exact allProper_ite (allProper_plain (by decide) (by decide)) allProper_nil
  · exact allProper_plain (by decide) (by decide)
  · exact allProper_plain (by decide) (by decide)
  · exact allProper_plain (by decide) (by decide)
  · exact allProper_kv py _ (by decide) _
  · exact allProper_ite ((allProper_kvText _ (by decide) _).append
      (allProper_plain (by decide) (by decide))) allProper_nil

theorem allProper_opsKv {key : String} (hkey : ProperKey key) (text : String) :
    AllProper (opsKv key text) := by
  rw [opsKv]
  exact allProper_ite allProper_nil (allProper_escaped hkey)

theorem allProper_opsCs {n : Nat} {label : String} (hkey : ProperKey ("cs" ++ toString n))
    (hlabel : ProperKey ("cs" ++ toString n ++ "Label")) (hplain : PlainValue label)
    (value : String) : AllProper (opsCs n label value) := by
  rw [opsCs]
  exact allProper_ite allProper_nil ((allProper_opsKv hkey _).append
    (allProper_plain hlabel hplain))

theorem allProper_opsExt (py : Python) (rec : SiemRecord) : AllProper (opsExt py rec) := by
  unfold opsExt
  refine .append (.append (.append (.append (.append (.append (.append (.append (.append (.append
    (.append (.append (.append (.append (.append (.append (.append (.append (.append ?_ ?_) ?_)
    ?_) ?_) ?_) ?_) ?_) ?_) ?_) ?_) ?_) ?_) ?_) ?_) ?_) ?_) ?_) ?_) ?_
  · exact allProper_opsKv (by decide) _
  · exact allProper_opsKv (by decide) _
  · exact allProper_opsKv (by decide) _
  · exact allProper_opsKv (by decide) _
  · exact allProper_opsKv (by decide) _
  · exact allProper_opsKv (by decide) _
  · exact allProper_opsKv (by decide) _
  · exact allProper_opsKv (by decide) _
  · exact allProper_opsKv (by decide) _
  · exact allProper_opsKv (by decide) _
  · exact allProper_opsKv (by decide) _
  · exact allProper_opsKv (by decide) _
  · exact allProper_opsKv (by decide) _
  · exact allProper_opsKv (by decide) _
  · exact allProper_opsCs (by decide) (by decide) (by decide) _
  · exact allProper_opsCs (by decide) (by decide) (by decide) _
  · exact allProper_opsCs (by decide) (by decide) (by decide) _
  · exact allProper_opsCs (by decide) (by decide) (by decide) _
  · exact allProper_ite allProper_nil ((allProper_opsKv (by decide) _).append
      (allProper_plain (by decide) (by decide)))
  · exact allProper_ite ((allProper_plain (by decide) (by decide)).append
      (allProper_plain (by decide) (by decide))) allProper_nil

/-! ## The lines -/

/-- The header fields of an audit event, line breaks as spaces. -/
def CefFormatter.headerFields (py : Python) (f : CefFormatter) (event : Json) : List String :=
  ["CEF:0", "Illumio", "PCE", clean f.version, clean (eventSig py event),
    clean (title py (eventSig py event)), toString (eventSeverity py event)]

/-- The header fields of one of this product's own events, line breaks as spaces. -/
def opsHeaderFields (rec : SiemRecord) : List String :=
  ["CEF:0", "Illumio", "illumio-ops", clean version, clean rec.signature, clean rec.title,
    toString (cefSeverity rec.severity)]

/-- No backslash stands at the end or before a backslash or a bar. -/
def SlashesStandAlone (s : String) : Prop := lonelySlashes '|' s.toList = true

instance (s : String) : Decidable (SlashesStandAlone s) :=
  inferInstanceAs (Decidable (lonelySlashes '|' s.toList = true))

/-- A text that the header writes as it is. -/
def PlainHeader (s : String) : Prop := ∀ c ∈ s.toList, itself '|' c = none

instance (s : String) : Decidable (PlainHeader s) :=
  List.decidableBAll _ s.toList

theorem plainHeader_nat (n : Nat) : PlainHeader (toString n) := by
  intro c hc
  have hfloat := Json.isFloatChar_of_mem_nat hc
  refine itself_of_ne ?_ ?_
  all_goals
    rintro rfl
    exact absurd hfloat (by decide)

theorem readFields_plain_iff {s : String} (hs : PlainHeader s) {rest r : List Char} {n : Nat}
    {fields : List (List Char)} :
    readFields '|' (itself '|') (n + 1) (s.toList ++ '|' :: rest) =
        some (s.toList :: fields, r) ↔
      readFields '|' (itself '|') n rest = some (fields, r) := by
  have hread : readFields '|' (itself '|') (n + 1)
      (escape (itself '|') s.toList ++ '|' :: rest) = some (s.toList :: fields, r) ↔
      readFields '|' (itself '|') n rest = some (fields, r) :=
    readFields_escape_iff readsBack_header
  rwa [escape_eq_self hs] at hread

theorem map_ofList_toList (fields : List String) :
    (fields.map String.toList).map String.ofList = fields := by
  rw [List.map_map]
  exact (List.map_congr_left fun s _ => String.ofList_toList).trans (List.map_id' fields)

theorem map_toList_ofList (fields : List (List Char)) :
    (fields.map String.ofList).map String.toList = fields := by
  rw [List.map_map]
  exact (List.map_congr_left fun s _ => String.toList_ofList).trans (List.map_id' fields)

/-- A line is read as these fields when its header is, and as these entries when what follows the
header is. -/
theorem readCef_eq_some_iff {line : String} {fields : List String}
    {entries : List (String × String)} :
    readCef line = some (fields, entries) ↔
      ∃ r, readFields '|' (itself '|') 7 line.toList = some (fields.map String.toList, r) ∧
        (pairs '=' valueMeaning r).map (fun q => (String.ofList q.1, String.ofList q.2)) =
          entries := by
  rw [readCef, Option.map_eq_some_iff]
  constructor
  · rintro ⟨p, hp, heq⟩
    obtain ⟨hfields, hentries⟩ := Prod.mk.inj heq
    refine ⟨p.2, hp.trans (congrArg some (Prod.ext ?_ rfl)), hentries⟩
    rw [← hfields, map_toList_ofList]
  · rintro ⟨r, hr, hentries⟩
    exact ⟨_, hr, Prod.ext (map_ofList_toList fields) hentries⟩

/-- The line of an audit event, character by character. -/
theorem toList_formatEvent (py : Python) (f : CefFormatter) (event : Json) :
    (f.formatEvent py event).toList = "CEF:0".toList ++ '|' :: ("Illumio".toList ++ '|' ::
      ("PCE".toList ++ '|' :: (escape (separatorOnly '|') (clean f.version).toList ++ '|' ::
      (escape (separatorOnly '|') (clean (eventSig py event)).toList ++ '|' ::
      (escape (separatorOnly '|') (clean (title py (eventSig py event))).toList ++ '|' ::
      ((toString (eventSeverity py event)).toList ++ '|' ::
        (" ".intercalate ((f.ext py event).map (Entry.text f.dialect.value))).toList)))))) := by
  have hbar : "|".toList = ['|'] := rfl
  have hhead : "CEF:0|Illumio|PCE|".toList =
      "CEF:0".toList ++ '|' :: ("Illumio".toList ++ '|' :: ("PCE".toList ++ ['|'])) := rfl
  unfold CefFormatter.formatEvent header
  simp only [String.toList_append, hbar, hhead, toList_headerField, List.append_assoc,
    List.cons_append, List.nil_append]

theorem toList_opsCef (py : Python) (rec : SiemRecord) :
    (opsCef py rec).toList = "CEF:0".toList ++ '|' :: ("Illumio".toList ++ '|' ::
      ("illumio-ops".toList ++ '|' :: (escape (itself '|') (clean version).toList ++ '|' ::
      (escape (itself '|') (clean rec.signature).toList ++ '|' ::
      (escape (itself '|') (clean rec.title).toList ++ '|' ::
      ((toString (cefSeverity rec.severity)).toList ++ '|' ::
        (" ".intercalate ((opsExt py rec).map (Entry.text opsEscape))).toList)))))) := by
  have hbar : "|".toList = ['|'] := rfl
  have hhead : "CEF:0|Illumio|illumio-ops|".toList =
      "CEF:0".toList ++ '|' :: ("Illumio".toList ++ '|' :: ("illumio-ops".toList ++ ['|'])) := rfl
  unfold opsCef
  simp only [String.toList_append, hbar, hhead, toList_opsHead, List.append_assoc,
    List.cons_append, List.nil_append]

/-- Line breaks as spaces change nothing about the backslashes that stand alone. -/
theorem slashesStandAlone_clean (s : String) :
    SlashesStandAlone (clean s) ↔ SlashesStandAlone s := by
  have hflat : ∀ {c d : Char}, d ≠ ' ' → d ≠ '\r' → d ≠ '\n' → (flat c = d ↔ c = d) := by
    intro c d hspace hr hn
    rw [flat]
    split
    · rename_i hc
      refine iff_of_false (fun h => hspace h.symm) ?_
      rintro rfl
      exact hc.elim hr hn
    · exact Iff.rfl
  have hne : ∀ {c d : Char}, d ≠ ' ' → d ≠ '\r' → d ≠ '\n' → (flat c != d) = (c != d) := by
    intro c d hspace hr hn
    rw [Bool.eq_iff_iff, bne_iff_ne, bne_iff_ne, ne_eq, ne_eq, hflat hspace hr hn]
  have hmap : ∀ cs : List Char, lonelySlashes '|' (cs.map flat) = lonelySlashes '|' cs := by
    intro cs
    induction cs using lonelySlashes.induct with
    | case1 => rfl
    | case2 => rfl
    | case3 c cs ih =>
        have hslash : flat '\\' = '\\' := rfl
        rw [List.map_cons, List.map_cons, hslash, lonelySlashes, lonelySlashes, ih,
          hne (by decide) (by decide) (by decide), hne (by decide) (by decide) (by decide)]
    | case4 c cs hlast hnext ih =>
        have hc := slash_of_next hlast hnext
        have hflatc : flat c ≠ '\\' := fun h =>
          hc ((hflat (by decide) (by decide) (by decide)).1 h)
        rw [List.map_cons, lonelySlashes_bare hflatc, lonelySlashes_bare hc, ih]
  rw [SlashesStandAlone, SlashesStandAlone, toList_clean, hmap]

/-- An audit event is read back exactly when the backslashes in the header stand alone. -/
theorem audit_reads_back_iff (py : Python) (f : CefFormatter) (event : Json) :
    readCef (f.formatEvent py event) =
        some (f.headerFields py event, (f.ext py event).map (Entry.read f.dialect)) ↔
      SlashesStandAlone f.version ∧ SlashesStandAlone (eventSig py event) ∧
        SlashesStandAlone (title py (eventSig py event)) := by
  have hext := pairs_extension f.dialect (allProper_ext py f event)
  rw [readCef_eq_some_iff, toList_formatEvent, CefFormatter.headerFields]
  simp only [List.map_cons, List.map_nil]
  simp only [readFields_plain_iff (show PlainHeader "CEF:0" by decide),
    readFields_plain_iff (show PlainHeader "Illumio" by decide),
    readFields_plain_iff (show PlainHeader "PCE" by decide),
    readFields_bare_iff (show '|' ≠ '\\' by decide), readFields_plain_iff (plainHeader_nat _)]
  rw [← slashesStandAlone_clean f.version, ← slashesStandAlone_clean (eventSig py event),
    ← slashesStandAlone_clean (title py (eventSig py event))]
  constructor
  · rintro ⟨r, ⟨hversion, hsig, htitle, -⟩, -⟩
    exact ⟨hversion, hsig, htitle⟩
  · rintro ⟨hversion, hsig, htitle⟩
    exact ⟨_, ⟨hversion, hsig, htitle, rfl⟩, hext⟩

/-- One of this product's own events is read back. -/
theorem ops_reads_back (py : Python) (rec : SiemRecord) :
    readCef (opsCef py rec) =
      some (opsHeaderFields rec, (opsExt py rec).map (Entry.read .arcsight)) := by
  have hext := pairs_extension .arcsight (allProper_opsExt py rec)
  refine readCef_eq_some_iff.2 ⟨_, ?_, hext⟩
  rw [toList_opsCef, opsHeaderFields]
  simp only [List.map_cons, List.map_nil]
  simp only [readFields_plain_iff (show PlainHeader "CEF:0" by decide),
    readFields_plain_iff (show PlainHeader "Illumio" by decide),
    readFields_plain_iff (show PlainHeader "illumio-ops" by decide),
    readFields_escape_iff readsBack_header, readFields_plain_iff (plainHeader_nat _)]
  rfl

/-- Which lines a reader of CEF reads back: of the audit events those whose header has only
backslashes that stand alone, in both dialects, and all of this product's own. -/
theorem cef_reads_back_iff (py : Python) :
    (∀ (f : CefFormatter) (event : Json), readCef (f.formatEvent py event) =
        some (f.headerFields py event, (f.ext py event).map (Entry.read f.dialect)) ↔
      SlashesStandAlone f.version ∧ SlashesStandAlone (eventSig py event) ∧
        SlashesStandAlone (title py (eventSig py event))) ∧
      ∀ rec : SiemRecord, readCef (opsCef py rec) =
        some (opsHeaderFields rec, (opsExt py rec).map (Entry.read .arcsight)) :=
  ⟨audit_reads_back_iff py, ops_reads_back py⟩

/-- Python on texts of ASCII letters, without dates. -/
def asciiPython : Python where
  reprOf _ := "[]"
  lower s := String.ofList (s.toList.map Char.toLower)
  upper s := String.ofList (s.toList.map Char.toUpper)
  isSpace c := c == ' '
  fromIsoformat _ := none
  epochMs _ := 0
  isoformat _ := ""
  now := ⟨2026, 9, 11, 9, 5, 5, 941000⟩

/-- An event whose type ends in a backslash. -/
def slashEvent : Json := .obj [("event_type", .str "login\\")]

/-- Its signature runs into its title, and everything after it is shifted. -/
theorem slash_shifts_header :
    readCef (CefFormatter.formatEvent asciiPython ⟨"pce", "26.2", .graylog⟩ slashEvent) ≠
      some (CefFormatter.headerFields asciiPython ⟨"pce", "26.2", .graylog⟩ slashEvent,
        (CefFormatter.ext asciiPython ⟨"pce", "26.2", .graylog⟩ slashEvent).map
          (Entry.read .graylog)) := by
  intro h
  have hsig := ((audit_reads_back_iff asciiPython ⟨"pce", "26.2", .graylog⟩ slashEvent).1 h).2.1
  exact absurd hsig (by decide)

end IllumioOps.SiemText
