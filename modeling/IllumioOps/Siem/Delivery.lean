import IllumioOps.Siem.Dispatch
import Mathlib.Data.List.Nodup

/-!
# No record is skipped

Within one binding to a PCE, over any sequence of ticks, crashes, inserts and transport
outcomes: a record a cursor has passed was accepted, is in the dead-letter queue, or is at or
before the floor; a cursor never goes back; a record that a full dead-letter queue holds stays
ahead of its cursor until it is tried again; and the queue stays within its limit
(`delivery_siemRuns`).
-/

set_option autoImplicit false

namespace IllumioOps.Siem.Delivery

open Programs

/-! ## Tables that grow -/

/-- Rows were added to the table, with ids above every id given out before. -/
structure Grows (t t' : SourceTable) : Prop where
  rows : ∃ new, t'.rows = t.rows ++ new ∧ ∀ r ∈ new, t.lastGiven < r.recordId
  lastGiven : t.lastGiven ≤ t'.lastGiven

theorem Grows.refl (t : SourceTable) : Grows t t :=
  ⟨⟨[], by simp, fun _ h => absurd h List.not_mem_nil⟩, Nat.le_refl _⟩

theorem Grows.mem {t t' : SourceTable} (h : Grows t t') {r : SiemRecord} (hr : r ∈ t.rows) :
    r ∈ t'.rows := by
  obtain ⟨new, hrows, -⟩ := h.rows
  rw [hrows]
  exact List.mem_append_left _ hr

/-- A row up to the last id given out before was there before. -/
theorem Grows.mem_of_le {t t' : SourceTable} (h : Grows t t') {r : SiemRecord}
    (hr : r ∈ t'.rows) (hle : r.recordId ≤ t.lastGiven) : r ∈ t.rows := by
  obtain ⟨new, hrows, hnew⟩ := h.rows
  rw [hrows] at hr
  rcases List.mem_append.1 hr with hr | hr
  · exact hr
  · exact absurd (hnew r hr) (Nat.not_lt.2 hle)

theorem Grows.trans {t t' t'' : SourceTable} (h : Grows t t') (h' : Grows t' t'') :
    Grows t t'' := by
  obtain ⟨new, hrows, hnew⟩ := h.rows
  obtain ⟨new', hrows', hnew'⟩ := h'.rows
  refine ⟨⟨new ++ new', by rw [hrows', hrows, List.append_assoc], ?_⟩,
    Nat.le_trans h.lastGiven h'.lastGiven⟩
  intro r hr
  rcases List.mem_append.1 hr with hr | hr
  · exact hnew r hr
  · exact Nat.lt_of_le_of_lt h.lastGiven (hnew' r hr)

theorem grows_insert (t : SourceTable) (r : SiemRecord) : Grows t (t.insert r) := by
  rw [SourceTable.insert]
  split
  · rename_i hlt
    exact ⟨⟨[r], rfl, fun q hq => List.mem_singleton.1 hq ▸ hlt⟩, Nat.le_of_lt hlt⟩
  · exact Grows.refl t

/-- Records in the order of their ids. -/
abbrev Ordered (records : List SiemRecord) : Prop :=
  records.Pairwise fun a b => a.recordId < b.recordId

/-- A record of an ordered list is known by its id. -/
theorem eq_of_recordId {records : List SiemRecord} (hordered : Ordered records)
    {r q : SiemRecord} (hr : r ∈ records) (hq : q ∈ records) (h : r.recordId = q.recordId) :
    r = q := by
  have hnodup : (records.map SiemRecord.recordId).Nodup :=
    List.pairwise_map.2 (hordered.imp fun hab => Nat.ne_of_lt hab)
  exact List.inj_on_of_nodup_map hnodup hr hq h

/-- What is not after a record of the first part of an ordered list is in that part. -/
theorem mem_left_of_le {first second : List SiemRecord} (hordered : Ordered (first ++ second))
    {r x : SiemRecord} (hr : r ∈ first) (hx : x ∈ first ++ second) (h : x.recordId ≤ r.recordId) :
    x ∈ first := by
  rcases List.mem_append.1 hx with hx | hx
  · exact hx
  · exact absurd ((List.pairwise_append.1 hordered).2.2 r hr x hx) (Nat.not_lt.2 h)

/-- What is before the head of the second part of an ordered list is in the first part. -/
theorem mem_left_of_lt {first second : List SiemRecord} {head : SiemRecord}
    (hordered : Ordered (first ++ head :: second)) {x : SiemRecord}
    (hx : x ∈ first ++ head :: second) (h : x.recordId < head.recordId) : x ∈ first := by
  rcases List.mem_append.1 hx with hx | hx
  · exact hx
  · rcases List.mem_cons.1 hx with rfl | hx
    · exact absurd h (Nat.lt_irrefl _)
    · have hlt := (List.pairwise_cons.1 (List.pairwise_append.1 hordered).2.1).1 x hx
      exact absurd (Nat.lt_trans h hlt) (Nat.lt_irrefl _)

/-! ## The binding, and what it means that a record is accounted for -/

/-- One binding: the PCE, and what each destination takes of each source. -/
structure Binding where
  pceUrl : String
  orgId : String
  takes : String → Source → SiemRecord → Bool

/-- The cursor is of the PCE of the binding. -/
def Binding.owns (g : Binding) (c : Cursor) : Prop := c.isOf g.pceUrl g.orgId = true

/-- The settings of a tick belong to the binding. -/
structure Binding.Admits (g : Binding) (s : SiemSettings) : Prop where
  pceUrl : s.pceUrl = g.pceUrl
  orgId : s.orgId = g.orgId
  takes : ∀ d ∈ s.destinations, d.takes = g.takes d.id

/-- The record was accepted, is in the dead-letter queue, or is at or before the floor its
cursor started with. -/
def Accounted (w : State) (key : Key) (r : SiemRecord) : Prop :=
  (key, r) ∈ w.history.accepted ∨ Event.quarantined (key, r) ∈ w.history.log ∨
    ∃ floor, (w.history.starts key).2 = some floor ∧ r.time ≤ floor

/-- The record is stored and the destination takes it. -/
def Present (g : Binding) (w : State) (key : Key) (r : SiemRecord) : Prop :=
  r ∈ (w.stored key.2).rows ∧ g.takes key.1 key.2 r = true

/-- What holds in every state of a binding. -/
structure Inv (g : Binding) (w : State) : Prop where
  covered : ∀ key c, w.cursors key = some c → g.owns c → ∀ r, Present g w key r →
    (w.history.starts key).1 < r.recordId → r.recordId ≤ c.lastId → Accounted w key r
  held : ∀ key r, (key, r) ∈ w.history.holding → Present g w key r ∧
    ∃ c, w.cursors key = some c ∧ g.owns c ∧ c.lastId < r.recordId ∧
      passedOver c.floorTime r = false
  floors : ∀ key c, w.cursors key = some c → g.owns c → c.floorTime = none ∨
    c.floorTime = (w.history.starts key).2
  bounded : ∀ key c, w.cursors key = some c → g.owns c → c.lastId ≤ (w.stored key.2).lastGiven

/-- No cursor of the binding went back or was lost, and no dead-letter queue grew beyond its
limit. -/
structure Moved (g : Binding) (limit : Nat) (w w' : State) : Prop where
  cursors : ∀ key c, w.cursors key = some c → g.owns c →
    ∃ c', w'.cursors key = some c' ∧ g.owns c' ∧ c.lastId ≤ c'.lastId
  letters : ∀ d, w'.dlqCount d ≤ max (w.dlqCount d) limit

theorem Moved.refl (g : Binding) (limit : Nat) (w : State) : Moved g limit w w :=
  ⟨fun _ c hc hg => ⟨c, hc, hg, Nat.le_refl _⟩, fun _ => Nat.le_max_left _ _⟩

theorem Moved.trans {g : Binding} {limit : Nat} {w w' w'' : State} (h : Moved g limit w w') (h' : Moved g limit w' w'') :
    Moved g limit w w'' := by
  refine ⟨?_, ?_⟩
  · intro key c hc hg
    obtain ⟨c', hc', hg', hle⟩ := h.cursors key c hc hg
    obtain ⟨c'', hc'', hg'', hle'⟩ := h'.cursors key c' hc' hg'
    exact ⟨c'', hc'', hg'', Nat.le_trans hle hle'⟩
  · intro d
    have h₁ := h.letters d
    have h₂ := h'.letters d
    omega

/-! ## Steps after which everything accounted for still is -/

/-- What the delivery depends on in a cursor. -/
def place (c : Cursor) : String × String × Nat × Option Int :=
  (c.pceUrl, c.orgId, c.lastId, c.floorTime)

/-- Records were stored, sends accepted and dead letters written; no cursor moved, and no
further record is held. -/
structure Forward (w w' : State) : Prop where
  grows : ∀ source, Grows (w.stored source) (w'.stored source)
  places : ∀ key, (w'.cursors key).map place = (w.cursors key).map place
  starts : w'.history.starts = w.history.starts
  accepted : ∀ q ∈ w.history.accepted, q ∈ w'.history.accepted
  log : ∀ e ∈ w.history.log, e ∈ w'.history.log
  holding : ∀ q ∈ w'.history.holding, q ∈ w.history.holding

section Forward

variable {g : Binding} {limit : Nat} {w w' w'' : State} {key : Key} {r : SiemRecord} {c : Cursor}

theorem Forward.refl (w : State) : Forward w w :=
  ⟨fun _ => Grows.refl _, fun _ => rfl, rfl, fun _ h => h, fun _ h => h, fun _ h => h⟩

theorem Forward.trans (h : Forward w w') (h' : Forward w' w'') : Forward w w'' :=
  ⟨fun source => (h.grows source).trans (h'.grows source),
    fun key => (h'.places key).trans (h.places key), h'.starts.trans h.starts,
    fun q hq => h'.accepted q (h.accepted q hq), fun e he => h'.log e (h.log e he),
    fun q hq => h.holding q (h'.holding q hq)⟩

theorem owns_of_place {c c' : Cursor} (h : place c' = place c) : g.owns c' ↔ g.owns c := by
  have hurl : c'.pceUrl = c.pceUrl := congrArg (·.1) h
  have horg : c'.orgId = c.orgId := congrArg (·.2.1) h
  rw [Binding.owns, Binding.owns, Cursor.isOf, Cursor.isOf, hurl, horg]

/-- The cursor of after, found from the one of before. -/
theorem Forward.cursor (h : Forward w w') (hc : w.cursors key = some c) :
    ∃ c', w'.cursors key = some c' ∧ place c' = place c := by
  have hplaces := h.places key
  rw [hc] at hplaces
  cases hc' : w'.cursors key with
  | none => rw [hc'] at hplaces; exact absurd hplaces (by simp)
  | some c' =>
      rw [hc'] at hplaces
      exact ⟨c', rfl, Option.some.inj hplaces⟩

/-- The cursor of before, found from the one of after. -/
theorem Forward.cursor_back (h : Forward w w') (hc : w'.cursors key = some c) :
    ∃ c', w.cursors key = some c' ∧ place c = place c' := by
  have hplaces := h.places key
  rw [hc] at hplaces
  cases hc' : w.cursors key with
  | none => rw [hc'] at hplaces; exact absurd hplaces (by simp)
  | some c' =>
      rw [hc'] at hplaces
      exact ⟨c', rfl, Option.some.inj hplaces⟩

theorem Forward.present (h : Forward w w') (hr : Present g w key r) : Present g w' key r :=
  ⟨(h.grows key.2).mem hr.1, hr.2⟩

/-- A record up to the last id given out before was present before. -/
theorem Forward.present_back (h : Forward w w') (hr : Present g w' key r)
    (hle : r.recordId ≤ (w.stored key.2).lastGiven) : Present g w key r :=
  ⟨(h.grows key.2).mem_of_le hr.1 hle, hr.2⟩

theorem Accounted.of_forward (h : Accounted w key r)
    (haccepted : ∀ q ∈ w.history.accepted, q ∈ w'.history.accepted)
    (hlog : ∀ e ∈ w.history.log, e ∈ w'.history.log)
    (hstarts : w'.history.starts key = w.history.starts key) : Accounted w' key r := by
  rcases h with h | h | h
  · exact Or.inl (haccepted _ h)
  · exact Or.inr (Or.inl (hlog _ h))
  · exact Or.inr (Or.inr (hstarts ▸ h))

theorem Forward.accounted (h : Forward w w') (hr : Accounted w key r) : Accounted w' key r :=
  hr.of_forward h.accepted h.log (congrFun h.starts key)

/-- The invariant goes on. -/
theorem Inv.forward (hw : Inv g w) (h : Forward w w') : Inv g w' := by
  refine ⟨?_, ?_, ?_, ?_⟩
  · intro key c hc hg r hr hstart hle
    obtain ⟨c₀, hc₀, hplace⟩ := h.cursor_back hc
    have hg₀ := (owns_of_place hplace).1 hg
    have hlast : c.lastId = c₀.lastId := congrArg (·.2.2.1) hplace
    rw [h.starts] at hstart
    -- the cursor has passed no record that was stored since
    have hr₀ := h.present_back hr (Nat.le_trans (hlast ▸ hle) (hw.bounded key c₀ hc₀ hg₀))
    exact h.accounted (hw.covered key c₀ hc₀ hg₀ r hr₀ hstart (hlast ▸ hle))
  · intro key r hr
    obtain ⟨hpresent, c, hc, hg, hlt, habove⟩ := hw.held key r (h.holding _ hr)
    obtain ⟨c', hc', hplace⟩ := h.cursor hc
    have hlast : c'.lastId = c.lastId := congrArg (·.2.2.1) hplace
    have hfloor : c'.floorTime = c.floorTime := congrArg (·.2.2.2) hplace
    exact ⟨h.present hpresent, c', hc', (owns_of_place hplace).2 hg, hlast ▸ hlt,
      hfloor ▸ habove⟩
  · intro key c hc hg
    obtain ⟨c₀, hc₀, hplace⟩ := h.cursor_back hc
    have hfloor : c.floorTime = c₀.floorTime := congrArg (·.2.2.2) hplace
    rw [h.starts, hfloor]
    exact hw.floors key c₀ hc₀ ((owns_of_place hplace).1 hg)
  · intro key c hc hg
    obtain ⟨c₀, hc₀, hplace⟩ := h.cursor_back hc
    have hlast : c.lastId = c₀.lastId := congrArg (·.2.2.1) hplace
    have hle := hw.bounded key c₀ hc₀ ((owns_of_place hplace).1 hg)
    exact Nat.le_trans (hlast ▸ hle) (h.grows key.2).lastGiven

theorem Forward.moved (h : Forward w w')
    (hletters : ∀ d, w'.dlqCount d ≤ max (w.dlqCount d) limit) : Moved g limit w w' := by
  refine ⟨?_, hletters⟩
  intro key c hc hg
  obtain ⟨c', hc', hplace⟩ := h.cursor hc
  have hlast : c'.lastId = c.lastId := congrArg (·.2.2.1) hplace
  exact ⟨c', hc', (owns_of_place hplace).2 hg, Nat.le_of_eq hlast.symm⟩

end Forward

/-! ## What arrives, and steps that concern the delivery of no record -/

/-- Records arrive and dead letters leave; otherwise nothing the delivery depends on. -/
structure Calm (w w' : State) : Prop where
  forward : Forward w w'
  history : w'.history = w.history
  letters : ∀ d, w'.dlqCount d ≤ w.dlqCount d

theorem Calm.refl (w : State) : Calm w w := ⟨Forward.refl w, rfl, fun _ => Nat.le_refl _⟩

theorem Calm.trans {w w' w'' : State} (h : Calm w w') (h' : Calm w' w'') : Calm w w'' :=
  ⟨h.forward.trans h'.forward, h'.history.trans h.history,
    fun d => Nat.le_trans (h'.letters d) (h.letters d)⟩

theorem Calm.moved {g : Binding} {limit : Nat} {w w' : State} (h : Calm w w') : Moved g limit w w' :=
  h.forward.moved fun d => Nat.le_trans (h.letters d) (Nat.le_max_left _ _)

theorem calm_updateCursor (w : State) (key : Key) {f : Cursor → Cursor}
    (hf : ∀ c, place (f c) = place c) : Calm w (w.updateCursor key f) := by
  cases hc : w.cursors key with
  | none =>
      rw [show w.updateCursor key f = w by simp only [State.updateCursor, hc]]
      exact Calm.refl w
  | some c =>
      rw [show w.updateCursor key f = w.setCursor key (f c) by
        simp only [State.updateCursor, hc]]
      refine ⟨⟨fun _ => Grows.refl _, ?_, rfl, fun _ h => h, fun _ h => h, fun _ h => h⟩, rfl,
        fun _ => Nat.le_refl _⟩
      intro key'
      by_cases hkey : key' = key
      · rw [hkey, State.cursors_setCursor_self, hc, Option.map_some, Option.map_some, hf]
      · rw [State.cursors_setCursor_of_ne hkey]

theorem calm_arrive {w : State} {a : Arrival} (ha : a.withinBinding = true) :
    Calm w (w.arrive a) := by
  cases a with
  | stored source rec =>
      refine ⟨⟨?_, fun _ => rfl, rfl, fun _ h => h, fun _ h => h, fun _ h => h⟩, rfl,
        fun _ => Nat.le_refl _⟩
      intro source'
      simp only [State.arrive]
      by_cases hsource : source' = source
      · subst hsource
        simp only [Function.update_self]
        exact grows_insert _ _
      · simp only [Function.update_of_ne hsource]
        exact Grows.refl _
  | lettersKept keep =>
      refine ⟨⟨fun _ => Grows.refl _, fun _ => rfl, rfl, fun _ h => h, fun _ h => h,
        fun _ h => h⟩, rfl, ?_⟩
      intro d
      exact (List.filter_sublist.filter _).length_le
  | recreated => exact absurd ha (by simp [Arrival.withinBinding])
  | restarted pceUrl orgId => exact absurd ha (by simp [Arrival.withinBinding])

theorem calm_arriveAll {w : State} {arrivals : List Arrival}
    (h : ∀ a ∈ arrivals, a.withinBinding = true) : Calm w (w.arriveAll arrivals) := by
  induction arrivals generalizing w with
  | nil => exact Calm.refl w
  | cons a arrivals ih =>
      exact (calm_arrive (h a List.mem_cons_self)).trans
        (ih fun b hb => h b (List.mem_cons_of_mem a hb))

/-! ## The judgement -/

/-- The answer stays within the binding. -/
def WithinBinding (a : Answer) : Prop := ∀ e ∈ a.arrivals, e.withinBinding = true

/-- Whatever the answers within the binding, every step of the program keeps the invariant and
moves nothing back; `C` holds where it starts and `D` where it ends. -/
abbrev Delivers {α : Type} (g : Binding) (limit : Nat) (C : State → Prop) (m : Dispatch α)
    (D : α → State → Prop) : Prop :=
  Program.Safe WithinBinding (fun w w' => Inv g w' ∧ Moved g limit w w') (fun w => Inv g w ∧ C w) m
    fun r w => Inv g w ∧ D r w

/-- What is said of a state stays true over arrivals. -/
def Stays (C : State → Prop) : Prop := ∀ w w', Calm w w' → C w → C w'

/-- What is said of a state stays true while no cursor moves and no record is held. -/
def Lasts (C : State → Prop) : Prop := ∀ w w', Forward w w' → C w → C w'

theorem Lasts.stays {C : State → Prop} (h : Lasts C) : Stays C :=
  fun w w' hw hc => h w w' hw.forward hc

theorem Stays.and {C D : State → Prop} (hC : Stays C) (hD : Stays D) :
    Stays fun w => C w ∧ D w := fun w w' hw h => ⟨hC w w' hw h.1, hD w w' hw h.2⟩

theorem Lasts.and {C D : State → Prop} (hC : Lasts C) (hD : Lasts D) :
    Lasts fun w => C w ∧ D w := fun w w' hw h => ⟨hC w w' hw h.1, hD w w' hw h.2⟩

theorem stays_true : Stays fun _ => True := fun _ _ _ h => h

section Rules

variable {α : Type} {g : Binding} {limit : Nat} {C C' : State → Prop} {D D' : α → State → Prop}

/-- A step, from the state that the arrivals before it leave. -/
theorem delivers_step {f : State → Answer → State × α} (hC : Stays C)
    (h : ∀ w a, Inv g w → C w →
      Inv g (f w a).1 ∧ Moved g limit w (f w a).1 ∧ D (f w a).2 (f w a).1) :
    Delivers g limit C (step f) D := by
  refine Program.safe_act fun w a ha hw => ?_
  have hcalm := calm_arriveAll (w := w) ha
  obtain ⟨hinv, hmoved, hd⟩ := h _ a (hw.1.forward hcalm.forward) (hC w _ hcalm hw.2)
  exact ⟨⟨hinv, hcalm.moved.trans hmoved⟩, hinv, hd⟩

/-- A calm step keeps what it starts from. -/
theorem delivers_calm {f : State → Answer → State × α} (hf : ∀ w a, Calm w (f w a).1)
    (hC : Stays C) : Delivers g limit C (step f) fun _ => C :=
  delivers_step hC fun w a hw hc =>
    ⟨hw.forward (hf w a).forward, (hf w a).moved, hC w _ (hf w a) hc⟩

theorem delivers_pure {a : α} (h : ∀ w, Inv g w → C w → D a w) :
    Delivers g limit C (pure a : Dispatch α) D :=
  Program.safe_pure fun w hw => ⟨hw.1, h w hw.1 hw.2⟩

theorem delivers_weaken {m : Dispatch α} (hm : Delivers g limit C m D)
    (hC : ∀ w, Inv g w → C' w → C w) (hD : ∀ r w, D r w → D' r w) : Delivers g limit C' m D' :=
  Program.safe_weaken hm (fun w hw => ⟨hw.1, hC w hw.1 hw.2⟩) fun r w hw => ⟨hw.1, hD r w hw.2⟩

end Rules

/-! ## What a turn of a source knows -/

/-- The source's cursor is the binding's, at `last` and with the floor. -/
def At (g : Binding) (key : Key) (last : Nat) (floor : Option Int) (w : State) : Prop :=
  ∃ c, w.cursors key = some c ∧ g.owns c ∧ c.lastId = last ∧ c.floorTime = floor

/-- The records are all there is between `last` and the last of them, in order. -/
structure Read (g : Binding) (key : Key) (last : Nat) (records : List SiemRecord)
    (w : State) : Prop where
  ordered : Ordered records
  present : ∀ r ∈ records, Present g w key r
  after : ∀ r ∈ records, last < r.recordId
  complete : ∀ x, Present g w key x → last < x.recordId →
    (∃ r ∈ records, x.recordId ≤ r.recordId) → x ∈ records

/-- Every record between `lo` and `hi` is accounted for, and none of them is held. -/
structure Below (g : Binding) (key : Key) (lo hi : Nat) (w : State) : Prop where
  bound : hi ≤ (w.stored key.2).lastGiven + 1
  all : ∀ x, Present g w key x → lo < x.recordId → x.recordId < hi →
    Accounted w key x ∧ (key, x) ∉ w.history.holding

section Facts

variable {g : Binding} {key : Key} {last lo hi : Nat} {floor : Option Int}
  {records : List SiemRecord} {w w' : State} {x : SiemRecord}

theorem lasts_at : Lasts (At g key last floor) := by
  rintro w w' h ⟨c, hc, hg, hlast, hfloor⟩
  obtain ⟨c', hc', hplace⟩ := h.cursor hc
  exact ⟨c', hc', (owns_of_place hplace).2 hg, (congrArg (·.2.2.1) hplace).trans hlast,
    (congrArg (·.2.2.2) hplace).trans hfloor⟩

theorem lasts_present : Lasts fun w => Present g w key x := fun _ _ h hx => h.present hx

theorem lasts_read : Lasts (Read g key last records) := by
  intro w w' h hread
  refine ⟨hread.ordered, fun r hr => h.present (hread.present r hr), hread.after, ?_⟩
  rintro x hx hlt ⟨r, hr, hle⟩
  -- what was stored since comes after everything that was read
  have hgiven := (w.stored key.2).bounded r (hread.present r hr).1
  exact hread.complete x (h.present_back hx (Nat.le_trans hle hgiven)) hlt ⟨r, hr, hle⟩

theorem lasts_below : Lasts (Below g key lo hi) := by
  intro w w' h hbelow
  refine ⟨Nat.le_trans hbelow.bound (Nat.succ_le_succ (h.grows key.2).lastGiven), ?_⟩
  intro x hx hlo hhi
  have hle : x.recordId ≤ (w.stored key.2).lastGiven :=
    Nat.le_of_lt_succ (Nat.lt_of_lt_of_le hhi hbelow.bound)
  obtain ⟨haccounted, hfree⟩ := hbelow.all x (h.present_back hx hle) hlo hhi
  exact ⟨h.accounted haccounted, fun hheld => hfree (h.holding _ hheld)⟩

/-- A record before the cursor's floor is accounted for, and not held. -/
theorem accounted_of_passedOver (hw : Inv g w) (hat : At g key last floor w)
    (hx : passedOver floor x = true) : Accounted w key x ∧ (key, x) ∉ w.history.holding := by
  obtain ⟨c, hc, hg, -, rfl⟩ := hat
  refine ⟨?_, ?_⟩
  · cases hfloor : c.floorTime with
    | none => rw [hfloor] at hx; exact absurd hx (by simp [passedOver])
    | some f =>
        rw [hfloor] at hx
        have hle : x.time ≤ f := by simpa [passedOver] using hx
        rcases hw.floors key c hc hg with hnone | hstart
        · exact absurd (hfloor.symm.trans hnone) (by simp)
        · exact Or.inr (Or.inr ⟨f, hstart ▸ hfloor, hle⟩)
  · intro hheld
    obtain ⟨-, c', hc', -, -, habove⟩ := hw.held key x hheld
    obtain rfl := Option.some.inj (hc'.symm.trans hc)
    exact absurd (hx.symm.trans habove) (by simp)

/-- What `read` returns is all there is. -/
theorem read_after {takes : SiemRecord → Bool} (htakes : takes = g.takes key.1 key.2)
    (limit : Nat) : Read g key last ((w.stored key.2).after takes last limit) w := by
  have hordered : Ordered ((w.stored key.2).rows.filter
      fun r => decide (last < r.recordId) && takes r) :=
    (w.stored key.2).ordered.sublist List.filter_sublist
  have hmem : ∀ r ∈ (w.stored key.2).after takes last limit,
      r ∈ (w.stored key.2).rows ∧ last < r.recordId ∧ takes r = true := by
    intro r hr
    have hr := List.mem_filter.1 (List.mem_of_mem_take hr)
    exact ⟨hr.1, by simpa using hr.2⟩
  refine ⟨hordered.sublist (List.take_sublist _ _), ?_, fun r hr => (hmem r hr).2.1, ?_⟩
  · intro r hr
    exact ⟨(hmem r hr).1, htakes ▸ (hmem r hr).2.2⟩
  · rintro x hx hlt ⟨r, hr, hle⟩
    have hx : x ∈ (w.stored key.2).rows.filter
        fun r => decide (last < r.recordId) && takes r :=
      List.mem_filter.2 ⟨hx.1, by simp [hlt, htakes, hx.2]⟩
    rw [← List.take_append_drop limit ((w.stored key.2).rows.filter _)] at hordered hx
    exact mem_left_of_le hordered hr hx hle

/-- Read on from a later id. -/
theorem Read.filter (h : Read g key last records w) {head : Nat} (hle : last ≤ head) :
    Read g key head (records.filter fun r => decide (head < r.recordId)) w := by
  have hmem : ∀ r ∈ records.filter (fun r => decide (head < r.recordId)),
      r ∈ records ∧ head < r.recordId := by
    intro r hr
    have hr := List.mem_filter.1 hr
    exact ⟨hr.1, by simpa using hr.2⟩
  refine ⟨h.ordered.sublist List.filter_sublist, fun r hr => h.present r (hmem r hr).1,
    fun r hr => (hmem r hr).2, ?_⟩
  rintro x hx hlt ⟨r, hr, hxr⟩
  exact List.mem_filter.2 ⟨h.complete x hx (Nat.lt_of_le_of_lt hle hlt) ⟨r, (hmem r hr).1, hxr⟩,
    decide_eq_true hlt⟩

end Facts

end IllumioOps.Siem.Delivery
