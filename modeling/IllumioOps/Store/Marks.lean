import IllumioOps.Store.Increments
import IllumioOps.Store.Pairing
import Mathlib.Algebra.Group.Prod
import Mathlib.Data.Multiset.Lattice

/-!
# Marks of what was recorded

Every row of a connection carries a mark, how much of the connection counts as recorded. The
writes of a batch leave the marks alone and add rows without one (`TupleWrites`); settling the
connection puts on each of its rows what they count together, where that is more, and records the
difference (`settle_marked`).
-/

set_option autoImplicit false

namespace IllumioOps

open Matching Tables

variable {p : Primitives} {t : FlowTable} {tup : FlowTuple}

/-! ## Sizes -/

/-- How much a record or a row counts. -/
@[ext] structure Size where
  connections : Nat
  bytesIn : Option Int
  bytesOut : Option Int
  deriving DecidableEq

namespace Size

/-- Counters only grow, and an absent byte count says nothing. -/
instance : Max Size where
  max a b :=
    { connections := max a.connections b.connections
      bytesIn := larger a.bytesIn b.bytesIn
      bytesOut := larger a.bytesOut b.bytesOut }

theorem max_def (a b : Size) : a ⊔ b =
    { connections := max a.connections b.connections
      bytesIn := larger a.bytesIn b.bytesIn
      bytesOut := larger a.bytesOut b.bytesOut } := rfl

instance : SemilatticeSup Size :=
  SemilatticeSup.mk'
    (fun a b => by simp only [max_def, max_comm, larger_comm])
    (fun a b c => by simp only [max_def, max_assoc, larger_assoc])
    (fun a => by simp only [max_def, max_self, larger_self])

instance : OrderBot Size where
  bot := { connections := 0, bytesIn := none, bytesOut := none }
  bot_le _ := sup_eq_right.1 (Size.ext (Nat.zero_max _) rfl rfl)

/-- The bytes of both directions. -/
def bytes (s : Size) : Option Int := bytesTotal s.bytesIn s.bytesOut

/-- What several sizes hold together. -/
def joined (sizes : List Size) : Size := (sizes : Multiset Size).sup

@[simp] theorem joined_nil : joined [] = ⊥ := rfl

@[simp] theorem joined_cons (s : Size) (sizes : List Size) :
    joined (s :: sizes) = s ⊔ joined sizes :=
  Multiset.sup_cons s (sizes : Multiset Size)

theorem joined_append (sizes sizes' : List Size) :
    joined (sizes ++ sizes') = joined sizes ⊔ joined sizes' := by
  unfold joined
  rw [← Multiset.coe_add, Multiset.sup_add]

theorem le_joined {s : Size} {sizes : List Size} (h : s ∈ sizes) : s ≤ joined sizes :=
  Multiset.le_sup h

theorem joined_le {s : Size} {sizes : List Size} : joined sizes ≤ s ↔ ∀ q ∈ sizes, q ≤ s :=
  Multiset.sup_le

theorem connections_joined (sizes : List Size) :
    (joined sizes).connections = largestNat (sizes.map connections) := by
  induction sizes with
  | nil => rfl
  | cons s sizes ih =>
      rw [joined_cons, max_def, List.map_cons]
      exact congrArg (max s.connections) ih

theorem bytesIn_joined (sizes : List Size) :
    (joined sizes).bytesIn = largest (sizes.map bytesIn) := by
  induction sizes with
  | nil => rfl
  | cons s sizes ih =>
      rw [joined_cons, max_def, List.map_cons]
      exact congrArg (larger s.bytesIn) ih

theorem bytesOut_joined (sizes : List Size) :
    (joined sizes).bytesOut = largest (sizes.map bytesOut) := by
  induction sizes with
  | nil => rfl
  | cons s sizes ih =>
      rw [joined_cons, max_def, List.map_cons]
      exact congrArg (larger s.bytesOut) ih

theorem connections_mono {a b : Size} (h : a ≤ b) : a.connections ≤ b.connections := by
  have hmax := congrArg connections (sup_eq_right.2 h)
  rw [max_def] at hmax
  exact max_eq_right_iff.1 hmax

/-- No byte count is below zero. -/
def NotNegative (s : Size) : Prop := (∀ b ∈ s.bytesIn, 0 ≤ b) ∧ ∀ b ∈ s.bytesOut, 0 ≤ b

theorem notNegative_joined {sizes : List Size} (h : ∀ s ∈ sizes, s.NotNegative) :
    (joined sizes).NotNegative := by
  have hlarger : ∀ {a b : Option Int}, (∀ n ∈ a, 0 ≤ n) → (∀ n ∈ b, 0 ≤ n) →
      ∀ n ∈ larger a b, 0 ≤ n := by
    intro a b ha hb n hn
    cases a with
    | none => exact hb n hn
    | some x =>
        cases b with
        | none => exact ha n hn
        | some y =>
            obtain rfl := Option.some.inj hn
            exact le_max_of_le_left (ha x rfl)
  induction sizes with
  | nil => exact ⟨fun b hb => absurd hb (by simp [joined_nil, Bot.bot]), fun b hb =>
      absurd hb (by simp [joined_nil, Bot.bot])⟩
  | cons s sizes ih =>
      obtain ⟨hin, hout⟩ := h s List.mem_cons_self
      obtain ⟨hins, houts⟩ := ih fun q hq => h q (List.mem_cons_of_mem _ hq)
      rw [joined_cons, max_def]
      exact ⟨hlarger hin hins, hlarger hout houts⟩

theorem bytes_getD (s : Size) : s.bytes.getD 0 = s.bytesIn.getD 0 + s.bytesOut.getD 0 := by
  unfold bytes bytesTotal
  cases s.bytesIn <;> cases s.bytesOut <;> simp

/-- Totals grow with the counts as long as none is below zero. -/
theorem bytes_mono {a b : Size} (h : a ≤ b) (hb : b.NotNegative) :
    a.bytes.getD 0 ≤ b.bytes.getD 0 := by
  have hlarger : ∀ {x y : Option Int}, larger x y = y → (∀ n ∈ y, 0 ≤ n) →
      x.getD 0 ≤ y.getD 0 := by
    intro x y hxy hy
    cases x with
    | none =>
        cases y with
        | none => exact le_rfl
        | some n => exact hy n rfl
    | some m =>
        cases y with
        | none => exact absurd hxy (by simp)
        | some n => exact max_eq_right_iff.1 (Option.some.inj hxy)
  have hmax := sup_eq_right.2 h
  rw [max_def] at hmax
  have hin := hlarger (congrArg bytesIn hmax) hb.1
  have hout := hlarger (congrArg bytesOut hmax) hb.2
  rw [bytes_getD, bytes_getD]
  omega

end Size

def FlowRecord.size (r : FlowRecord) : Size :=
  { connections := r.numConnections, bytesIn := r.bytesIn, bytesOut := r.bytesOut }

def FlowRow.size (r : FlowRow) : Size :=
  { connections := r.numConnections, bytesIn := r.ownBytesIn, bytesOut := r.ownBytesOut }

/-- What the records of a tuple count together. -/
def sizeSeen (tup : FlowTuple) (records : List FlowRecord) : Size :=
  Size.joined ((records.filter fun r => r.tuple = tup).map FlowRecord.size)

/-- What the rows of a tuple count together. -/
def FlowTable.sizeOf (t : FlowTable) (tup : FlowTuple) : Size :=
  Size.joined ((t.rows.filter fun r => r.tuple = tup).map FlowRow.size)

theorem sizeSeen_append (tup : FlowTuple) (records records' : List FlowRecord) :
    sizeSeen tup (records ++ records') = sizeSeen tup records ⊔ sizeSeen tup records' := by
  unfold sizeSeen
  rw [List.filter_append, List.map_append, Size.joined_append]

theorem sizeSeen_cons (tup : FlowTuple) (r : FlowRecord) (records : List FlowRecord) :
    sizeSeen tup (r :: records) =
      (if r.tuple = tup then r.size else ⊥) ⊔ sizeSeen tup records := by
  unfold sizeSeen
  by_cases htuple : r.tuple = tup
  · rw [List.filter_cons_of_pos (by simpa using htuple), List.map_cons, Size.joined_cons,
      if_pos htuple]
  · rw [List.filter_cons_of_neg (by simpa using htuple), if_neg htuple, bot_sup_eq]

/-- A record that adds nothing counts no more than its row. -/
theorem size_le_of_addsNothing {old : FlowRow} {r : FlowRecord} {origin : DataOrigin}
    (h : addsNothing old r origin = true) : r.size ≤ old.size := by
  unfold addsNothing at h
  simp only [Bool.and_eq_true, decide_eq_true_eq, Bool.not_eq_true'] at h
  obtain ⟨⟨⟨⟨⟨⟨_, hnum⟩, hin⟩, hout⟩, _⟩, _⟩, _⟩ := h
  apply sup_eq_left.1
  rw [Size.max_def]
  simp only [FlowRow.size, FlowRecord.size, max_eq_left hnum, larger_of_not_moreBytes hin,
    larger_of_not_moreBytes hout]

theorem size_refreshEdit (r : FlowRecord) (origin : DataOrigin) (stamp : Int) (row : FlowRow) :
    ((refreshEdit r origin stamp).apply row).size = row.size ⊔ r.size := rfl

namespace FlowTable

theorem size_le_sizeOf {r : FlowRow} (hr : r ∈ t.rows) (htuple : r.tuple = tup) :
    r.size ≤ t.sizeOf tup := by
  apply Size.le_joined
  exact List.mem_map_of_mem (List.mem_filter.2 ⟨hr, by simpa using htuple⟩)

theorem sizeOf_le {s : Size} : t.sizeOf tup ≤ s ↔ ∀ r ∈ t.rows, r.tuple = tup → r.size ≤ s := by
  unfold sizeOf
  rw [Size.joined_le, List.forall_mem_map]
  simp only [List.mem_filter, decide_eq_true_eq, and_imp]

theorem sizeOf_congr {t t' : FlowTable} (h : (t'.rows.filter fun r => r.tuple = tup) =
    t.rows.filter fun r => r.tuple = tup) : t'.sizeOf tup = t.sizeOf tup := by
  unfold sizeOf
  rw [h]

end FlowTable

/-! ## Marks -/

/-- What a row says was recorded. -/
def FlowRow.marks (r : FlowRow) : Option Nat × Option Int := (r.countedConnections, r.countedBytes)

/-- A row on which this much counts as recorded. -/
def FlowRow.HasMark (r : FlowRow) (mark : Nat × Int) : Prop := r.marks = (some mark.1, some mark.2)

/-- The row stands for one of the records, and lasts at least as long. -/
def ReportedIn (p : Primitives) (records : List FlowRecord) (r : FlowRow) : Prop :=
  ∃ q ∈ records, r.recordKey = recordKey p.digest q ∧ dbTime q.lastDetected ≤ r.lastDetected

theorem ReportedIn.append {records : List FlowRecord} {r : FlowRow}
    (h : ReportedIn p records r) (records' : List FlowRecord) :
    ReportedIn p (records ++ records') r := by
  obtain ⟨q, hq, hkey, hlast⟩ := h
  exact ⟨q, List.mem_append_left _ hq, hkey, hlast⟩

/-- What holds of a tuple in the loop over the records of a batch: its rows count what its records
did so far, and each carries the mark of the batch before or, when it is new, none. -/
structure TupleWrites (p : Primitives) (tup : FlowTuple) (before : FlowTable) (mark : Nat × Int)
    (seen : List FlowRecord) (w : Writing) : Prop where
  stored : w.flows.Stored p
  tracked : ∀ r ∈ w.flows.rows, r.countedConnections ≠ none
  reported : ∀ r ∈ w.flows.rows, ReportedIn p seen r
  size : w.flows.sizeOf tup = sizeSeen tup seen
  marked : ∀ r ∈ w.flows.rows, r.tuple = tup → r.HasMark mark ∨ r.HasMark (0, 0)
  kept : mark = (0, 0) ∨ ∃ r ∈ w.flows.rows, r.tuple = tup ∧ r.HasMark mark
  untouched : tup ∉ w.tuples → (w.flows.rows.filter fun r => r.tuple = tup) =
    before.rows.filter fun r => r.tuple = tup
  written : tup ∈ w.tuples → ∃ r ∈ w.flows.rows, r.tuple = tup ∧ r.recordKey ∈ w.written

/-- The edit that refreshes one row. -/
def refreshOne (r : FlowRecord) (origin : DataOrigin) (stamp : Int) (old : FlowRow) : RowEdit :=
  (refreshEdit r origin stamp).on fun row => row.id = old.id

section Refresh

variable {r : FlowRecord} {origin : DataOrigin} {stamp : Int} {old : FlowRow}

theorem marks_refreshOne (row : FlowRow) :
    ((refreshOne r origin stamp old).apply row).marks = row.marks := by
  unfold refreshOne
  rw [FlowTable.apply_on]
  split <;> rfl

theorem refreshOne_of_ne {row : FlowRow} (h : row.id ≠ old.id) :
    (refreshOne r origin stamp old).apply row = row := by
  unfold refreshOne
  rw [FlowTable.apply_on, if_neg (by simpa using h)]

theorem size_refreshOne_self :
    ((refreshOne r origin stamp old).apply old).size = old.size ⊔ r.size := by
  unfold refreshOne
  rw [FlowTable.apply_on, if_pos (by simp)]
  exact size_refreshEdit r origin stamp old

theorem lastDetected_le_refreshOne (row : FlowRow) :
    row.lastDetected ≤ ((refreshOne r origin stamp old).apply row).lastDetected := by
  unfold refreshOne
  rw [FlowTable.apply_on]
  split
  · exact le_max_left _ _
  · exact le_rfl

/-- Refreshing a row joins the record's counts to those of its tuple. -/
theorem sizeOf_refreshOne (hold : old ∈ t.rows) (htuple : old.tuple = r.tuple) :
    (t.update (refreshOne r origin stamp old)).sizeOf tup =
      t.sizeOf tup ⊔ if r.tuple = tup then r.size else ⊥ := by
  have hkeep : ∀ row, ((refreshOne r origin stamp old).apply row).tuple = row.tuple :=
    fun row => FlowRow.tuple_of_identity ((refreshOne r origin stamp old).identity_apply row)
  apply le_antisymm
  · rw [FlowTable.sizeOf_le]
    intro row' hrow' hrowTuple
    obtain ⟨row, hrow, rfl⟩ := FlowTable.mem_update.1 hrow'
    rw [hkeep] at hrowTuple
    by_cases hid : row.id = old.id
    · obtain rfl := FlowTable.eq_of_id hrow hold hid
      rw [size_refreshOne_self, if_pos (htuple ▸ hrowTuple)]
      exact sup_le_sup_right (FlowTable.size_le_sizeOf hrow hrowTuple) _
    · rw [refreshOne_of_ne hid]
      exact le_sup_of_le_left (FlowTable.size_le_sizeOf hrow hrowTuple)
  · apply sup_le
    · rw [FlowTable.sizeOf_le]
      intro row hrow hrowTuple
      have hnew : (refreshOne r origin stamp old).apply row ∈
          (t.update (refreshOne r origin stamp old)).rows := List.mem_map_of_mem hrow
      refine le_trans ?_ (FlowTable.size_le_sizeOf hnew ((hkeep row).trans hrowTuple))
      by_cases hid : row.id = old.id
      · obtain rfl := FlowTable.eq_of_id hrow hold hid
        rw [size_refreshOne_self]
        exact le_sup_left
      · rw [refreshOne_of_ne hid]
    · split
      · next hr =>
        have hnew : (refreshOne r origin stamp old).apply old ∈
            (t.update (refreshOne r origin stamp old)).rows := List.mem_map_of_mem hold
        refine le_trans ?_
          (FlowTable.size_le_sizeOf hnew ((hkeep old).trans (htuple.trans hr)))
        rw [size_refreshOne_self]
        exact le_sup_right
      · exact bot_le

end Refresh

/-- A row that tracks its counts is refreshed and nothing else is done. -/
theorem flows_refreshRow (origin : DataOrigin) (stamp : Int) (w : Writing) (r : FlowRecord)
    (key : String) {old : FlowRow} (h : old.countedConnections ≠ none) :
    (refreshRow origin stamp w r key old).flows =
      w.flows.update (refreshOne r origin stamp old) := by
  unfold refreshRow refreshOne
  rw [if_neg (by simpa [Option.isNone_iff_eq_none] using h)]

/-- One record keeps what holds of a tuple. -/
theorem TupleWrites.writeRecord {before : FlowTable} {mark : Nat × Int} {seen : List FlowRecord}
    {w : Writing} (h : TupleWrites p tup before mark seen w) (origin : DataOrigin) (stamp : Int)
    (r : FlowRecord) :
    TupleWrites p tup before mark (seen ++ [r]) (writeRecord p origin stamp w r) := by
  have hseen : sizeSeen tup (seen ++ [r]) =
      w.flows.sizeOf tup ⊔ if r.tuple = tup then r.size else ⊥ := by
    rw [sizeSeen_append, sizeSeen_cons, h.size]
    exact congrArg _ (sup_bot_eq _)
  have hinv : WriteInv p w.flows.rows w :=
    ⟨Evolves.refl fun x _ => ⟨rfl, rfl, Or.inl rfl⟩, h.stored⟩
  have hstored := (hinv.writeRecord origin stamp r).stored
  rcases writeRecord_cases p origin stamp w r with
    ⟨old, hold, hadds, heq⟩ | ⟨old, hold, _, heq⟩ | ⟨hnone, heq⟩
  · -- nothing is written: the row counts as much already
    rw [heq]
    obtain ⟨hmem, hkey⟩ := FlowTable.byKey_eq_some.1 hold
    refine ⟨h.stored, h.tracked, fun row hrow => (h.reported row hrow).append _, ?_, h.marked,
      h.kept, h.untouched, h.written⟩
    rw [hseen]
    split
    · next htuple =>
      have holdTuple : old.tuple = tup := (h.stored.standsFor hmem hkey).tuple.trans htuple
      exact (sup_eq_left.2 ((size_le_of_addsNothing hadds).trans
        (FlowTable.size_le_sizeOf hmem holdTuple))).symm
    · exact (sup_bot_eq _).symm
  · -- the row is refreshed
    obtain ⟨hmem, hkey⟩ := FlowTable.byKey_eq_some.1 hold
    have holdTuple : old.tuple = r.tuple := (h.stored.standsFor hmem hkey).tuple
    have hflows : (refreshRow origin stamp w r (recordKey p.digest r) old).flows =
        w.flows.update (refreshOne r origin stamp old) :=
      flows_refreshRow origin stamp w r _ (h.tracked old hmem)
    have hidentity := (refreshOne r origin stamp old).identity_apply
    rw [heq] at hstored ⊢
    refine ⟨hstored, ?_, ?_, ?_, ?_, ?_, ?_, ?_⟩
    · intro row' hrow'
      rw [hflows] at hrow'
      obtain ⟨row, hrow, rfl⟩ := FlowTable.mem_update.1 hrow'
      have hmarks : ((refreshOne r origin stamp old).apply row).countedConnections =
          row.countedConnections := congrArg Prod.fst (marks_refreshOne row)
      exact fun hnone => h.tracked row hrow (hmarks.symm.trans hnone)
    · intro row' hrow'
      rw [hflows] at hrow'
      obtain ⟨row, hrow, rfl⟩ := FlowTable.mem_update.1 hrow'
      obtain ⟨q, hq, hqkey, hlast⟩ := (h.reported row hrow).append [r]
      refine ⟨q, hq, ?_, hlast.trans (lastDetected_le_refreshOne row)⟩
      rw [FlowRow.recordKey_of_identity (hidentity row), hqkey]
    · rw [hflows, sizeOf_refreshOne hmem holdTuple, hseen]
    · intro row' hrow' htuple
      rw [hflows] at hrow'
      obtain ⟨row, hrow, rfl⟩ := FlowTable.mem_update.1 hrow'
      rw [FlowRow.tuple_of_identity (hidentity row)] at htuple
      unfold FlowRow.HasMark
      rw [marks_refreshOne]
      exact h.marked row hrow htuple
    · rcases h.kept with hzero | ⟨row, hrow, htuple, hmark⟩
      · exact Or.inl hzero
      · refine Or.inr ⟨(refreshOne r origin stamp old).apply row, ?_, ?_, ?_⟩
        · rw [hflows]
          exact List.mem_map_of_mem hrow
        · rw [FlowRow.tuple_of_identity (hidentity row), htuple]
        · unfold FlowRow.HasMark
          rw [marks_refreshOne]
          exact hmark
    · intro htup
      have hne : r.tuple ≠ tup := fun heq => htup (heq ▸ List.mem_cons_self)
      rw [← h.untouched fun hmem => htup (List.mem_cons_of_mem _ hmem), hflows,
        FlowTable.update_rows, List.filter_map]
      have hsame : ((fun row : FlowRow => decide (row.tuple = tup)) ∘
          (refreshOne r origin stamp old).apply) = fun row => decide (row.tuple = tup) := by
        funext row
        simp only [Function.comp, FlowRow.tuple_of_identity (hidentity row)]
      rw [hsame]
      conv_rhs => rw [← List.map_id (w.flows.rows.filter fun row => row.tuple = tup)]
      apply List.map_congr_left
      intro row hrow
      obtain ⟨hrow, htuple⟩ := List.mem_filter.1 hrow
      -- another tuple's row is not the one refreshed
      refine refreshOne_of_ne fun hid => hne ?_
      rw [← holdTuple, ← FlowTable.eq_of_id hrow hmem hid]
      simpa using htuple
    · intro htup
      rcases List.mem_cons.1 htup with htuple | htup
      · refine ⟨(refreshOne r origin stamp old).apply old, ?_, ?_, ?_⟩
        · rw [hflows]
          exact List.mem_map_of_mem hmem
        · rw [FlowRow.tuple_of_identity (hidentity old), holdTuple]
          exact htuple.symm
        · rw [FlowRow.recordKey_of_identity (hidentity old), hkey]
          exact List.mem_cons_self
      · obtain ⟨row, hrow, htuple, hwritten⟩ := h.written htup
        refine ⟨(refreshOne r origin stamp old).apply row, ?_, ?_, ?_⟩
        · rw [hflows]
          exact List.mem_map_of_mem hrow
        · rw [FlowRow.tuple_of_identity (hidentity row), htuple]
        · rw [FlowRow.recordKey_of_identity (hidentity row)]
          exact List.mem_cons_of_mem _ hwritten
  · -- a new row counts the record and nothing of it is recorded yet
    rw [heq] at hstored ⊢
    obtain ⟨row, hrows, hrowKey, hrowTuple, hrowSize, hrowLast, hrowMarks⟩ : ∃ row : FlowRow,
        (insertRow origin stamp w r (recordKey p.digest r) hnone).flows.rows =
          w.flows.rows ++ [row] ∧ row.recordKey = recordKey p.digest r ∧ row.tuple = r.tuple ∧
          row.size = r.size ∧ row.lastDetected = dbTime r.lastDetected ∧
          row.marks = (some 0, some 0) := ⟨_, rfl, rfl, rfl, rfl, rfl, rfl⟩
    have hmem : ∀ x, x ∈ (insertRow origin stamp w r (recordKey p.digest r) hnone).flows.rows ↔
        x ∈ w.flows.rows ∨ x = row := by
      intro x
      rw [hrows, List.mem_append, List.mem_singleton]
    refine ⟨hstored, ?_, ?_, ?_, ?_, ?_, ?_, ?_⟩
    · intro x hx
      rcases (hmem x).1 hx with hx | rfl
      · exact h.tracked x hx
      · intro hcounted
        have hsome : x.countedConnections = some 0 := congrArg Prod.fst hrowMarks
        rw [hcounted] at hsome
        exact absurd hsome (by simp)
    · intro x hx
      rcases (hmem x).1 hx with hx | rfl
      · exact (h.reported x hx).append _
      · exact ⟨r, List.mem_append_right _ List.mem_cons_self, hrowKey, hrowLast.ge⟩
    · rw [hseen]
      unfold FlowTable.sizeOf
      rw [hrows, List.filter_append, List.map_append, Size.joined_append]
      congr 1
      by_cases htuple : r.tuple = tup
      · rw [if_pos htuple, List.filter_cons_of_pos (by simpa using hrowTuple.trans htuple),
          List.filter_nil, List.map_singleton, Size.joined_cons, Size.joined_nil, sup_bot_eq,
          hrowSize]
      · rw [if_neg htuple, List.filter_cons_of_neg (by simpa [hrowTuple] using htuple),
          List.filter_nil]
        rfl
    · intro x hx htuple
      rcases (hmem x).1 hx with hx | rfl
      · exact h.marked x hx htuple
      · exact Or.inr hrowMarks
    · rcases h.kept with hzero | ⟨x, hx, htuple, hmark⟩
      · exact Or.inl hzero
      · exact Or.inr ⟨x, (hmem x).2 (Or.inl hx), htuple, hmark⟩
    · intro htup
      have hne : r.tuple ≠ tup := fun heq => htup (heq ▸ List.mem_cons_self)
      rw [← h.untouched fun hmem => htup (List.mem_cons_of_mem _ hmem), hrows,
        List.filter_append, List.filter_cons_of_neg (by simpa [hrowTuple] using hne),
        List.filter_nil, List.append_nil]
    · intro htup
      rcases List.mem_cons.1 htup with htuple | htup
      · refine ⟨row, (hmem row).2 (Or.inr rfl), hrowTuple.trans htuple.symm, ?_⟩
        rw [hrowKey]
        exact List.mem_cons_self
      · obtain ⟨x, hx, htuple, hwritten⟩ := h.written htup
        exact ⟨x, (hmem x).2 (Or.inl hx), htuple, List.mem_cons_of_mem _ hwritten⟩

/-- The records of a batch keep what holds of a tuple. -/
theorem TupleWrites.records {before : FlowTable} {mark : Nat × Int} {seen : List FlowRecord}
    {w : Writing} (h : TupleWrites p tup before mark seen w) (origin : DataOrigin) (stamp : Int)
    (records : List FlowRecord) :
    TupleWrites p tup before mark (seen ++ records)
      (records.foldl (IllumioOps.writeRecord p origin stamp) w) := by
  induction records generalizing seen w with
  | nil =>
      rw [List.append_nil]
      exact h
  | cons r records ih =>
      have hrest := ih (h.writeRecord origin stamp r)
      rw [List.append_assoc] at hrest
      exact hrest

/-! ## Settling the connection -/

theorem size_mergeRow (rows : List FlowRow) (r : FlowRow) : (mergeRow rows r).size = r.size := by
  unfold mergeRow
  split <;> rfl

theorem marks_mergeRow (rows : List FlowRow) (r : FlowRow) :
    (mergeRow rows r).marks = r.marks := by
  unfold mergeRow
  split <;> rfl

theorem size_settleRow (rows : List FlowRow) (r : FlowRow) : (settleRow rows r).size = r.size := by
  have hsame := congrArg FlowRow.size (uncounted_settleRow rows r)
  exact hsame.trans (size_mergeRow rows r)

theorem largestNat_le {ns : List Nat} {n : Nat} (h : ∀ m ∈ ns, m ≤ n) : largestNat ns ≤ n := by
  induction ns with
  | nil => exact Nat.zero_le n
  | cons m ns ih =>
      apply max_le
      · exact h m List.mem_cons_self
      · exact ih fun k hk => h k (List.mem_cons_of_mem _ hk)

theorem largestNat_eq {ns : List Nat} {n : Nat} (hle : ∀ m ∈ ns, m ≤ n) (hn : n = 0 ∨ n ∈ ns) :
    largestNat ns = n := by
  apply le_antisymm (largestNat_le hle)
  rcases hn with rfl | hmem
  · exact Nat.zero_le _
  · exact LabelSets.le_foldr_max hmem

theorem largestInt_eq {ns : List Int} {n : Int} (hle : ∀ m ∈ ns, m ≤ n) (hn : n ∈ ns) :
    largestInt ns = n := by
  unfold largestInt
  rw [List.max?_eq_some_iff.2 ⟨hn, hle⟩]
  rfl

theorem largestInt_spec {ns : List Int} (hne : ns ≠ []) :
    largestInt ns ∈ ns ∧ ∀ m ∈ ns, m ≤ largestInt ns := by
  unfold largestInt
  cases hmax : ns.max? with
  | none => exact absurd (List.max?_eq_none_iff.1 hmax) hne
  | some n => exact List.max?_eq_some_iff.1 hmax

theorem largestInt_concat {ns : List Int} (hne : ns ≠ []) (n : Int) :
    largestInt (ns ++ [n]) = max (largestInt ns) n := by
  obtain ⟨hmem, hle⟩ := largestInt_spec hne
  apply largestInt_eq
  · intro m hm
    rcases List.mem_append.1 hm with hm | hm
    · exact le_max_of_le_left (hle m hm)
    · exact le_max_of_le_right (List.mem_singleton.1 hm).le
  · rcases max_choice (largestInt ns) n with h | h
    · rw [h]
      exact List.mem_append_left _ hmem
    · rw [h]
      exact List.mem_append_right _ List.mem_cons_self

/-- A primary row shows the bytes of all rows. -/
theorem bytes_mergeRow {rows : List FlowRow} (hne : rows ≠ []) {r : FlowRow}
    (hflag : (mergeRow rows r).isPrimary = true) :
    bytesTotal (mergeRow rows r).bytesIn (mergeRow rows r).bytesOut =
      (Size.joined (rows.map FlowRow.size)).bytes := by
  obtain ⟨chosen, _, hchosen, _⟩ := choosePrimary_spec hne
  have hmerge : mergeRow rows r = (mergeEdit rows chosen).apply r := by
    rw [mergeRow, hchosen]
  rw [hmerge] at hflag ⊢
  have hid : r.id = chosen.id := by simpa [mergeEdit] using hflag
  unfold Size.bytes
  rw [Size.bytesIn_joined, Size.bytesOut_joined, List.map_map, List.map_map]
  simp only [mergeEdit, hid, if_true]
  rfl

/-- The merged rows have a primary row. -/
theorem primaryRow_merged {rows : List FlowRow} (hne : rows ≠ []) :
    ∃ primary, primaryRow (rows.map (mergeRow rows)) = some primary ∧
      bytesTotal primary.bytesIn primary.bytesOut =
        (Size.joined (rows.map FlowRow.size)).bytes := by
  unfold primaryRow
  cases hfind : (rows.map (mergeRow rows)).find? FlowRow.isPrimary with
  | none =>
      obtain ⟨chosen, hchosen, hprimary, _⟩ := choosePrimary_spec hne
      have hnone := List.find?_eq_none.1 hfind _ (List.mem_map_of_mem hchosen)
      rw [mergeRow, hprimary] at hnone
      simp [mergeEdit] at hnone
  | some primary =>
      obtain ⟨r, _, rfl⟩ := List.mem_map.1 (List.mem_of_find?_eq_some hfind)
      exact ⟨_, rfl, bytes_mergeRow hne (List.find?_some hfind)⟩

section Settle

variable {rows : List FlowRow} {mark : Nat × Int}

/-- What the rows of a connection say together was recorded. -/
theorem counted_of_marked (hmarked : ∀ r ∈ rows, r.HasMark mark ∨ r.HasMark (0, 0))
    (hkept : mark = (0, 0) ∨ ∃ r ∈ rows, r.HasMark mark) (hbytes : 0 ≤ mark.2) (hne : rows ≠ []) :
    largestNat (rows.map fun r => r.countedConnections.getD r.numConnections) = mark.1 ∧
      largestInt (rows.map FlowRow.bytesRecorded) = mark.2 := by
  have hcounts : ∀ {r : FlowRow} {m : Nat × Int}, r.HasMark m →
      r.countedConnections.getD r.numConnections = m.1 ∧ r.bytesRecorded = m.2 := by
    intro r m hm
    have hcounted : r.countedConnections = some m.1 := congrArg Prod.fst hm
    have hcountedBytes : r.countedBytes = some m.2 := congrArg Prod.snd hm
    unfold FlowRow.bytesRecorded
    rw [hcounted, hcountedBytes]
    exact ⟨rfl, rfl⟩
  constructor
  · apply largestNat_eq
    · intro n hn
      obtain ⟨r, hr, rfl⟩ := List.mem_map.1 hn
      rcases hmarked r hr with hm | hm
      · exact (hcounts hm).1.le
      · rw [(hcounts hm).1]
        exact Nat.zero_le _
    · rcases hkept with rfl | ⟨r, hr, hm⟩
      · exact Or.inl rfl
      · exact Or.inr (List.mem_map.2 ⟨r, hr, (hcounts hm).1⟩)
  · apply largestInt_eq
    · intro n hn
      obtain ⟨r, hr, rfl⟩ := List.mem_map.1 hn
      rcases hmarked r hr with hm | hm
      · exact (hcounts hm).2.le
      · rw [(hcounts hm).2]
        exact hbytes
    · rcases hkept with rfl | ⟨r, hr, hm⟩
      · -- no row carries more than nothing
        obtain ⟨r, hr⟩ := List.exists_mem_of_ne_nil rows hne
        have hm : r.HasMark (0, 0) := (hmarked r hr).elim id id
        exact List.mem_map.2 ⟨r, hr, (hcounts hm).2⟩
      · exact List.mem_map.2 ⟨r, hr, (hcounts hm).2⟩

/-- The mark after settling: what the rows count, where it is more than the mark. -/
def markAfter (mark : Nat × Int) (size : Size) : Nat × Int :=
  (max mark.1 size.connections, max mark.2 (size.bytes.getD 0))

/-- Settling marks what the rows count on each of them, and the growth is the difference. -/
theorem settle_marked (hmarked : ∀ r ∈ rows, r.HasMark mark ∨ r.HasMark (0, 0))
    (hkept : mark = (0, 0) ∨ ∃ r ∈ rows, r.HasMark mark) (hbytes : 0 ≤ mark.2) (hne : rows ≠ []) :
    (∀ r ∈ rows, (settleRow rows r).HasMark
        (markAfter mark (Size.joined (rows.map FlowRow.size)))) ∧
      mark + connectionGrowth (rows.map (mergeRow rows)) =
        markAfter mark (Size.joined (rows.map FlowRow.size)) := by
  obtain ⟨primary, hprimary, htotal⟩ := primaryRow_merged hne
  have hmerged : ∀ r ∈ rows.map (mergeRow rows), r.HasMark mark ∨ r.HasMark (0, 0) := by
    intro r hr
    obtain ⟨s, hs, rfl⟩ := List.mem_map.1 hr
    unfold FlowRow.HasMark
    rw [marks_mergeRow]
    exact hmarked s hs
  have hkeptMerged : mark = (0, 0) ∨ ∃ r ∈ rows.map (mergeRow rows), r.HasMark mark := by
    refine hkept.imp_right fun ⟨r, hr, hm⟩ => ⟨_, List.mem_map_of_mem hr, ?_⟩
    unfold FlowRow.HasMark
    rw [marks_mergeRow]
    exact hm
  obtain ⟨hcounted, hcountedBytes⟩ :=
    counted_of_marked hmerged hkeptMerged hbytes (by simpa using hne)
  have hsizes : (rows.map (mergeRow rows)).map FlowRow.size = rows.map FlowRow.size := by
    rw [List.map_map]
    exact List.map_congr_left fun r _ => size_mergeRow rows r
  have hconnections : largestNat ((rows.map (mergeRow rows)).map FlowRow.numConnections) =
      (Size.joined (rows.map FlowRow.size)).connections := by
    rw [Size.connections_joined, ← hsizes, List.map_map (g := Size.connections)]
    rfl
  constructor
  · intro r hr
    have hgrowth : settleRow rows r =
        (growthEdit (rows.map (mergeRow rows)) primary).apply (mergeRow rows r) := by
      rw [settleRow, growthRow, hprimary]
    rw [hgrowth]
    change (some (max _ _), some (max _ _)) = (some _, some _)
    rw [hcounted, hcountedBytes, hconnections, htotal]
    rfl
  · rw [connectionGrowth, hprimary]
    dsimp only
    rw [hcounted, hcountedBytes, hconnections, htotal, markAfter]
    generalize Size.joined (rows.map FlowRow.size) = size
    apply Prod.ext
    · change mark.1 + (size.connections - mark.1) = max mark.1 size.connections
      omega
    · cases hsize : size.bytes with
      | none =>
          change mark.2 + 0 = max mark.2 0
          omega
      | some b =>
          change mark.2 + max 0 (b - mark.2) = max mark.2 b
          omega

end Settle

end IllumioOps
