import IllumioOps.Domain.Values
import IllumioOps.Matching.FirstFit
import Mathlib.Data.List.Sort
import Mathlib.Data.String.Basic

/-!
# Flow records of the PCE

One record is one end's report of a connection. `mergeSightings` joins two copies
of one record (the same `recordKey`); `groupPairs` decides which records are the
two ends of one connection. The digest behind `recordKey` is a parameter: it is a
hash of the parts that `RecordId` collects.
-/

set_option autoImplicit false

namespace IllumioOps

open Matching

/-- A process or account name as a record carries it: absent or not empty
(`normalize_process(..)`, `svc.get("user_name") or None`). -/
abbrev Name := {s : String // s ≠ ""}

structure FlowRecord where
  direction : FlowDirection
  srcIp : String
  dstIp : String
  srcHref : Option String
  dstHref : Option String
  srcHostname : Option String
  dstHostname : Option String
  srcManaged : Bool
  dstManaged : Bool
  srcMode : Option String
  dstMode : Option String
  srcLabels : List (String × String)
  dstLabels : List (String × String)
  port : Option Int
  proto : Int
  ownProcess : Option Name
  ownUser : Option Name
  windowsService : Option String
  policyDecision : String
  firstDetected : Int
  lastDetected : Int
  numConnections : Nat
  bytesIn : Option Int
  bytesOut : Option Int
  state : Option String
  transmission : Option String
  networkHref : Option String
  deriving DecidableEq

/-- The parts that identify one PCE record. -/
structure RecordId where
  direction : FlowDirection
  srcIp : String
  dstIp : String
  port : Option Int
  proto : Int
  firstDetected : Int
  deriving DecidableEq

/-- What both ends of a connection report alike. -/
structure FlowTuple where
  srcIp : String
  dstIp : String
  port : Option Int
  proto : Int
  deriving DecidableEq

namespace FlowRecord

def recordId (r : FlowRecord) : RecordId :=
  { direction := r.direction, srcIp := r.srcIp, dstIp := r.dstIp, port := r.port,
    proto := r.proto, firstDetected := r.firstDetected }

def tuple (r : FlowRecord) : FlowTuple :=
  { srcIp := r.srcIp, dstIp := r.dstIp, port := r.port, proto := r.proto }

end FlowRecord

/-- `record_key`: the same record pulled again maps to the same key. -/
def recordKey (digest : RecordId → String) (r : FlowRecord) : String := digest r.recordId

/-- Two records of one connection lie at most this far apart. -/
def pairingMaxGap : Int := seconds 600

/-- Two `[first, last]` ranges overlap or lie at most `maxGap` apart. -/
def rangesWithin (aFirst aLast bFirst bLast : Int) (maxGap : Int := pairingMaxGap) : Bool :=
  max aFirst bFirst - min aLast bLast ≤ maxGap

/-- The larger of two counts, where an absent one says nothing. -/
def larger : Option Int → Option Int → Option Int
  | none, b => b
  | a, none => a
  | some a, some b => some (max a b)

theorem larger_comm (a b : Option Int) : larger a b = larger b a := by
  cases a <;> cases b <;> simp [larger, max_comm]

theorem larger_assoc (a b c : Option Int) : larger (larger a b) c = larger a (larger b c) := by
  cases a <;> cases b <;> cases c <;> simp [larger, max_assoc]

@[simp] theorem larger_self (a : Option Int) : larger a a = a := by
  cases a <;> simp [larger]

@[simp] theorem larger_none_left (a : Option Int) : larger none a = a := rfl

@[simp] theorem larger_none_right (a : Option Int) : larger a none = a := by
  cases a <;> rfl

/-- Two copies of one PCE record: counters only grow, the later copy wins the rest. -/
def mergeSightings (a b : FlowRecord) : FlowRecord :=
  let later := if a.lastDetected ≤ b.lastDetected then b else a
  let earlier := if a.lastDetected ≤ b.lastDetected then a else b
  { later with
    numConnections := max a.numConnections b.numConnections
    bytesIn := larger a.bytesIn b.bytesIn
    bytesOut := larger a.bytesOut b.bytesOut
    ownProcess := later.ownProcess.or earlier.ownProcess
    ownUser := later.ownUser.or earlier.ownUser }

/-- `ORDER BY first_detected, record_key`. -/
def firstThenKey (p q : Int × String) : Prop := p.1 < q.1 ∨ p.1 = q.1 ∧ p.2 ≤ q.2

instance (p q : Int × String) : Decidable (firstThenKey p q) := by
  unfold firstThenKey
  infer_instance

theorem firstThenKey_total (p q : Int × String) : firstThenKey p q ∨ firstThenKey q p := by
  unfold firstThenKey
  rcases lt_trichotomy p.1 q.1 with h | h | h
  · exact Or.inl (Or.inl h)
  · rcases le_total p.2 q.2 with hk | hk
    · exact Or.inl (Or.inr ⟨h, hk⟩)
    · exact Or.inr (Or.inr ⟨h.symm, hk⟩)
  · exact Or.inr (Or.inl h)

theorem firstThenKey_trans {p q r : Int × String} (hpq : firstThenKey p q)
    (hqr : firstThenKey q r) : firstThenKey p r := by
  unfold firstThenKey at *
  rcases hpq with h | ⟨h, hk⟩ <;> rcases hqr with h' | ⟨h', hk'⟩
  · exact Or.inl (lt_trans h h')
  · exact Or.inl (h' ▸ h)
  · exact Or.inl (h ▸ h')
  · exact Or.inr ⟨h.trans h', le_trans hk hk'⟩

theorem firstThenKey_antisymm {p q : Int × String} (hpq : firstThenKey p q)
    (hqp : firstThenKey q p) : p = q := by
  unfold firstThenKey at *
  rcases hpq with h | ⟨h, hk⟩ <;> rcases hqp with h' | ⟨h', hk'⟩
  · exact absurd (lt_trans h h') (lt_irrefl _)
  · exact absurd (h' ▸ h) (lt_irrefl _)
  · exact absurd (h ▸ h') (lt_irrefl _)
  · exact Prod.ext h (le_antisymm hk hk')

/-- The records of one tuple in the order they are matched in. -/
def sortRecords (digest : RecordId → String) (rs : List FlowRecord) : List FlowRecord :=
  rs.insertionSort fun a b =>
    firstThenKey (a.firstDetected, recordKey digest a) (b.firstDetected, recordKey digest b)

/-- The pairs of one tuple's sorted records, then the inbound records left alone. -/
def pairGroup (group : List FlowRecord) : List (FlowRecord × Option FlowRecord) :=
  let outs := group.filter fun r => r.direction = .outbound
  let ins := (group.filter fun r => r.direction = .inbound).zipIdx
  let taken := firstFit
    (fun o i => rangesWithin o.firstDetected o.lastDetected i.1.firstDetected i.1.lastDetected)
    Prod.snd outs ins
  (taken.pairs.map fun p => (p.1, p.2.map Prod.fst)) ++
    (untaken Prod.snd taken.used ins).map fun i => (i.1, none)

/-- `(primary, partner)` per connection: every outbound record takes the first
unmatched inbound record of its tuple within the pairing gap. -/
def groupPairs (digest : RecordId → String) (records : List FlowRecord) :
    List (FlowRecord × Option FlowRecord) :=
  (records.map FlowRecord.tuple).eraseDups.flatMap fun t =>
    pairGroup (sortRecords digest (records.filter fun r => r.tuple = t))

end IllumioOps
