import IllumioOps.Domain.Spelling
import IllumioOps.Store.FlowTable
import Mathlib.Data.List.AList

/-!
# Writing a batch of flow records

`upsertFlows` as the store writes it, in one transaction: each record is inserted or
refreshes its row, the tuples written to are paired again, every connection that changed
gets its primary row and its shown columns, goes into the baselines and has its growth
recorded, and the days touched are left stale in the archive and dirty in the rollups.

Text columns that hold times hold them as numbers here; `seconds` of an increment is kept
in microseconds. Row ids of the log tables and the text of an archive entry's path are
left out.
-/

set_option autoImplicit false

namespace IllumioOps

open Matching

/-- What the store takes from libraries: the digest behind `record_key`, which collides on no
two records, lower-casing and the network tests. -/
structure Primitives where
  digest : RecordId → String
  digest_injective : Function.Injective digest
  unicode : Unicode
  addresses : Addresses

/-- Identities spelled out, ASCII names and private addresses. -/
def Primitives.plain : Primitives where
  digest := RecordId.spelled
  digest_injective := RecordId.spelled_injective
  unicode := .ascii
  addresses := noAddresses

/-- `NO_PORT`: rollup and baseline keys cannot be NULL. -/
def noPort : Int := -1

/-- `DYNAMIC_PORTS_FROM`. -/
def dynamicPortsFrom : Int := 49152

/-- `DIRECTORY_PORTS`: `(port, protocol)`. -/
def directoryPorts : List (Int × Int) :=
  [(88, 6), (88, 17), (464, 6), (464, 17), (389, 6), (389, 17), (636, 6), (3268, 6), (3269, 6),
    (9389, 6)]

def incrementKeep : Int := hours 26
def activityKeep : Int := days 15

/-! ## The other tables -/

inductive ArchiveKind where
  | flows
  | events
  deriving DecidableEq

/-- A row of `archive_log`. -/
structure ArchiveEntry where
  /-- `-1` while the file is being written -/
  rows : Int
  writtenAt : Int
  stale : Bool
  deriving DecidableEq

/-- A row of `rollup_state`. -/
structure RollupState where
  dirty : Bool
  builtAt : Option Int
  deriving DecidableEq

/-- What `flow_rollup_daily` groups by. -/
structure RollupKey where
  srcKey : String
  dstKey : String
  port : Int
  proto : Int
  policyDecision : String
  initiatorUser : String
  initiatorProcess : String
  deriving DecidableEq

/-- A row of `flow_rollup_daily`. -/
structure RollupRow where
  day : Int
  key : RollupKey
  connections : Nat
  flowRecords : Nat
  bytesIn : Int
  bytesOut : Int
  bytesKnownRecords : Nat
  deriving DecidableEq

structure ConnectionKey where
  srcKey : String
  dstKey : String
  port : Int
  proto : Int
  deriving DecidableEq

/-- A row of `connection_baseline` past its key. -/
structure ConnectionBaseline where
  firstSeen : Int
  lastSeen : Int
  lastDecision : String
  deriving DecidableEq

/-- `first_seen` and `last_seen` of the other baselines. -/
structure Seen where
  firstSeen : Int
  lastSeen : Int
  deriving DecidableEq

/-- The key of `user_baseline`. -/
structure UserKey where
  initiatorUser : String
  dstKey : String
  port : Int
  proto : Int
  deriving DecidableEq

/-- A row of `new_connection_log`. -/
structure NewConnection where
  key : ConnectionKey
  decision : String
  firstSeen : Int
  srcIp : String
  dstIp : String
  srcHostname : Option String
  dstHostname : Option String
  srcLabelSet : Option Nat
  dstLabelSet : Option Nat
  isPublic : Bool
  recordedAt : Int
  deriving DecidableEq

/-- A row of `flow_increments`. -/
structure FlowIncrement where
  recordKey : String
  observedAt : Int
  connections : Nat
  bytes : Option Int
  seconds : Int
  late : Bool
  deriving DecidableEq

/-- The activity of one hour: connections, bytes, increments that carried bytes. -/
structure Activity where
  connections : Nat
  bytes : Int
  bytesKnown : Nat
  deriving DecidableEq

inductive ActivityClass where
  | all
  | directory
  deriving DecidableEq

/-- The tables that the writers of flows share. -/
structure FlowDb where
  labelSets : LabelSets
  flows : FlowTable
  rollupState : AList fun _ : Int => RollupState
  rollups : List RollupRow
  connectionBaseline : ConnectionKey → Option ConnectionBaseline
  userBaseline : UserKey → Option Seen
  /-- by `(account, src_key)` -/
  accountSourceBaseline : String × String → Option Seen
  /-- by `(src_key, process)` -/
  processBaseline : String × String → Option Seen
  newConnectionLog : List NewConnection
  increments : List FlowIncrement
  sourceActivity : Int × String × ActivityClass → Option Activity
  destinationActivity : Int × String → Option Activity
  liveActivityHours : List Int
  archiveLog : ArchiveKind → Int → Option ArchiveEntry

namespace FlowDb

def empty : FlowDb where
  labelSets := .empty
  flows := .empty
  rollupState := ∅
  rollups := []
  connectionBaseline _ := none
  userBaseline _ := none
  accountSourceBaseline _ := none
  processBaseline _ := none
  newConnectionLog := []
  increments := []
  sourceActivity _ := none
  destinationActivity _ := none
  liveActivityHours := []
  archiveLog _ _ := none

/-- `archive.mark_stale`. -/
def markStale (db : FlowDb) (kind : ArchiveKind) (touched : List Int) : FlowDb :=
  { db with
    archiveLog := fun k d =>
      if k = kind ∧ d ∈ touched then (db.archiveLog k d).map fun e => { e with stale := true }
      else db.archiveLog k d }

/-- `INSERT INTO rollup_state .. ON CONFLICT(day) DO UPDATE SET dirty = 1`. -/
def markDirty (db : FlowDb) (day : Int) : FlowDb :=
  { db with
    rollupState := db.rollupState.insert day
      { dirty := true, builtAt := (db.rollupState.lookup day).bind RollupState.builtAt } }

end FlowDb

/-! ## One record -/

/-- `_REFRESH`: counts only grow, the later state wins, a known name stays. -/
def refreshEdit (r : FlowRecord) (origin : DataOrigin) (stamp : Int) : RowEdit where
  apply old :=
    let last := dbTime r.lastDetected
    let outbound := old.direction = .outbound
    { old with
      lastDetected := max old.lastDetected last
      numConnections := max old.numConnections r.numConnections
      bytesIn := larger old.bytesIn r.bytesIn
      bytesOut := larger old.bytesOut r.bytesOut
      ownBytesIn := larger old.ownBytesIn r.bytesIn
      ownBytesOut := larger old.ownBytesOut r.bytesOut
      state := if old.lastDetected < last then r.state else old.state
      initiatorProcess :=
        if outbound then old.initiatorProcess.or r.ownProcess else old.initiatorProcess
      initiatorUser := if outbound then old.initiatorUser.or r.ownUser else old.initiatorUser
      serviceProcess := if outbound then old.serviceProcess else old.serviceProcess.or r.ownProcess
      serviceUser := if outbound then old.serviceUser else old.serviceUser.or r.ownUser
      origin := if old.origin = .ingest then .ingest else origin
      ingestedAt := if origin = .ingest then stamp else old.ingestedAt }
  identity_apply _ := rfl

/-- `_INSERT`: a new record is the primary row of a connection of its own, and none of its
counts is recorded yet. -/
def newRow (r : FlowRecord) (key : String) (srcSet dstSet : Option Nat) (origin : DataOrigin)
    (stamp : Int) : FlowRow :=
  let outbound := r.direction = .outbound
  { id := 0
    recordKey := key
    connKey := key
    isPrimary := true
    direction := r.direction
    srcIp := r.srcIp
    dstIp := r.dstIp
    srcKey := endpointKey r.srcHref r.srcIp
    dstKey := endpointKey r.dstHref r.dstIp
    srcHref := r.srcHref
    dstHref := r.dstHref
    srcHostname := r.srcHostname
    dstHostname := r.dstHostname
    srcManaged := r.srcManaged
    dstManaged := r.dstManaged
    srcMode := r.srcMode
    dstMode := r.dstMode
    srcLabelSet := srcSet
    dstLabelSet := dstSet
    port := r.port
    proto := r.proto
    initiatorProcess := if outbound then r.ownProcess else none
    initiatorUser := if outbound then r.ownUser else none
    serviceProcess := if outbound then none else r.ownProcess
    serviceUser := if outbound then none else r.ownUser
    windowsService := r.windowsService
    policyDecision := r.policyDecision
    firstDetected := dbTime r.firstDetected
    lastDetected := dbTime r.lastDetected
    numConnections := r.numConnections
    bytesIn := r.bytesIn
    bytesOut := r.bytesOut
    ownBytesIn := r.bytesIn
    ownBytesOut := r.bytesOut
    state := r.state
    transmission := r.transmission
    networkHref := r.networkHref
    origin := origin
    ingestedAt := stamp
    countedConnections := some 0
    countedBytes := some 0 }

/-- A byte count larger than the one known. -/
def moreBytes : Option Int → Option Int → Bool
  | none, _ => false
  | some _, none => true
  | some new, some have_ => have_ < new

/-- `_adds_nothing`: whether the refresh would leave the stored row as it is. -/
def addsNothing (old : FlowRow) (r : FlowRecord) (origin : DataOrigin) : Bool :=
  let sideProcess := if old.direction = .outbound then old.initiatorProcess else old.serviceProcess
  let sideUser := if old.direction = .outbound then old.initiatorUser else old.serviceUser
  dbTime r.lastDetected ≤ old.lastDetected && r.numConnections ≤ old.numConnections &&
    !moreBytes r.bytesIn old.ownBytesIn && !moreBytes r.bytesOut old.ownBytesOut &&
    !(r.ownProcess.isSome && sideProcess.isNone) && !(r.ownUser.isSome && sideUser.isNone) &&
    (old.origin = .ingest || old.origin = origin)

/-- `_bytes_total`. -/
def bytesTotal (bytesIn bytesOut : Option Int) : Option Int :=
  if bytesIn.isNone ∧ bytesOut.isNone then none else some (bytesIn.getD 0 + bytesOut.getD 0)

/-- The primary one of a connection's rows. -/
def primaryRow (rows : List FlowRow) : Option FlowRow := rows.find? FlowRow.isPrimary

/-- The largest of some counts. -/
def largestNat (ns : List Nat) : Nat := ns.foldr max 0

/-- The edit of `_settle_untracked`, for the rows of one connection. -/
def settleEdit (rows : List FlowRow) (primary : FlowRow) : RowEdit where
  apply r := r.withCounted (some (largestNat (rows.map FlowRow.numConnections)))
    (some ((bytesTotal primary.bytesIn primary.bytesOut).getD 0))
  identity_apply _ := rfl

/-- `_settle_untracked`: what a connection written before counts were tracked holds now counts
as recorded. -/
def settleUntracked (t : FlowTable) (connKey : String) : FlowTable :=
  match primaryRow (t.connRows connKey) with
  | none => t
  | some primary =>
      t.update ((settleEdit (t.connRows connKey) primary).on fun r =>
        r.connKey = connKey && r.countedConnections.isNone)

/-- The running state of the loop over the records of a batch. -/
structure Writing where
  labelSets : LabelSets
  flows : FlowTable
  daysTouched : List Int
  tuples : List FlowTuple
  written : List String
  /-- `before_last`, the latest entry of a key first -/
  beforeLast : List (String × Option Int)
  inserted : Nat
  refreshed : Nat
  unchanged : Nat

/-- A stored record that adds something: its row is refreshed. -/
def refreshRow (origin : DataOrigin) (stamp : Int) (w : Writing) (r : FlowRecord) (key : String)
    (old : FlowRow) : Writing :=
  let settled := if old.countedConnections.isNone then settleUntracked w.flows old.connKey
    else w.flows
  { w with
    flows := settled.update ((refreshEdit r origin stamp).on fun row => row.id = old.id)
    daysTouched := old.day :: w.daysTouched
    tuples := r.tuple :: w.tuples
    written := key :: w.written
    beforeLast := (key, some old.lastDetected) :: w.beforeLast
    refreshed := w.refreshed + 1 }

/-- A record that is not stored yet. -/
def insertRow (origin : DataOrigin) (stamp : Int) (w : Writing) (r : FlowRecord) (key : String)
    (hkey : w.flows.byKey key = none) : Writing :=
  let src := w.labelSets.labelSetId r.srcLabels
  let dst := src.2.labelSetId r.dstLabels
  { w with
    labelSets := dst.2
    flows := w.flows.insert (newRow r key src.1 dst.1 origin stamp) hkey
    tuples := r.tuple :: w.tuples
    written := key :: w.written
    beforeLast := (key, none) :: w.beforeLast
    inserted := w.inserted + 1 }

/-- One record of the batch. -/
def writeRecord (p : Primitives) (origin : DataOrigin) (stamp : Int) (w : Writing)
    (r : FlowRecord) : Writing :=
  match hold : w.flows.byKey (recordKey p.digest r) with
  | some old =>
      if addsNothing old r origin then { w with unchanged := w.unchanged + 1 }
      else refreshRow origin stamp w r (recordKey p.digest r) old
  | none => insertRow origin stamp w r (recordKey p.digest r) hold

/-- The loop over the records. -/
def writeRecords (p : Primitives) (origin : DataOrigin) (stamp : Int) (db : FlowDb)
    (records : List FlowRecord) : Writing :=
  records.foldl (writeRecord p origin stamp)
    { labelSets := db.labelSets, flows := db.flows, daysTouched := [], tuples := [],
      written := [], beforeLast := [], inserted := 0, refreshed := 0, unchanged := 0 }

/-! ## Pairing one tuple -/

/-- Whether an outbound and an inbound row lie within the pairing gap. -/
def rowsWithin (o i : FlowRow) : Bool :=
  rangesWithin o.firstDetected o.lastDetected i.firstDetected i.lastDetected

def outRows (rows : List FlowRow) : List FlowRow := rows.filter fun r => r.direction = .outbound
def inRows (rows : List FlowRow) : List FlowRow := rows.filter fun r => r.direction = .inbound

/-- Every outbound row takes the first inbound row within the gap that is not taken. -/
def pairRows (rows : List FlowRow) : List (FlowRow × Option FlowRow) :=
  (firstFit rowsWithin FlowRow.id (outRows rows) (inRows rows)).pairs

/-- `want`: an inbound row that was taken belongs to its taker, any other row to itself. -/
def wantedKey (rows : List FlowRow) (r : FlowRow) : String :=
  match (pairRows rows).find? fun p => p.2.any fun i => i.id = r.id with
  | some p => p.1.recordKey
  | none => r.recordKey

/-- The edit of `_repair_tuple`. -/
def repairEdit (rows : List FlowRow) : RowEdit where
  apply r := r.withConnKey (wantedKey rows r)
  identity_apply _ := rfl

/-- The connections that a repair changes: both sides of every row that moves, and those of
the rows written in this batch. -/
def changedKeys (rows : List FlowRow) (written : List String) : List String :=
  rows.flatMap fun r =>
    if r.connKey ≠ wantedKey rows r then [r.connKey, wantedKey rows r]
    else if r.recordKey ∈ written then [wantedKey rows r]
    else []

/-- The state of the loop over the tuples: the table, the changed keys, the pairs formed. -/
structure Repairing where
  flows : FlowTable
  keys : List String
  paired : Nat

/-- `_repair_tuple`. -/
def repairTuple (written : List String) (s : Repairing) (tup : FlowTuple) : Repairing :=
  let rows := s.flows.tupleRows tup
  { flows := s.flows.update ((repairEdit rows).on fun r => r.tuple = tup)
    keys := s.keys ++ changedKeys rows written
    paired := s.paired + (partners (pairRows rows)).length }

/-- A tuple as Python prints it, for texts without quotes and escapes. -/
def FlowTuple.text (t : FlowTuple) : String :=
  let port := match t.port with
    | none => "None"
    | some port => toString port
  "('" ++ t.srcIp ++ "', '" ++ t.dstIp ++ "', " ++ port ++ ", " ++ toString t.proto ++ ")"

/-- `sorted(tuples, key=str)`. -/
def sortedTuples (tuples : List FlowTuple) : List FlowTuple :=
  tuples.dedup.insertionSort fun a b => a.text ≤ b.text

def repairTuples (written : List String) (flows : FlowTable) (tuples : List FlowTuple) :
    Repairing :=
  (sortedTuples tuples).foldl (repairTuple written) { flows := flows, keys := [], paired := 0 }

/-! ## One connection -/

/-- `_first`: the first known name. -/
def firstName (names : List (Option Name)) : Option Name := names.findSome? id

/-- The largest known count. -/
def largest (counts : List (Option Int)) : Option Int := counts.foldr larger none

/-- The row that represents a connection: the first outbound one, else the first. -/
def choosePrimary (rows : List FlowRow) : Option FlowRow :=
  match outRows rows with
  | o :: _ => some o
  | [] => (inRows rows).head?

/-- The edit of `_merge_connection` for the rows of one connection. -/
def mergeEdit (rows : List FlowRow) (primary : FlowRow) : RowEdit where
  apply r :=
    let isPrimary := r.id = primary.id
    let outs := outRows rows
    let ins := inRows rows
    { r with
      isPrimary := isPrimary
      initiatorProcess := if r.direction = .inbound
        then firstName (outs.map FlowRow.initiatorProcess) else r.initiatorProcess
      initiatorUser := if r.direction = .inbound
        then firstName (outs.map FlowRow.initiatorUser) else r.initiatorUser
      serviceProcess := if r.direction = .outbound
        then firstName (ins.map FlowRow.serviceProcess) else r.serviceProcess
      serviceUser := if r.direction = .outbound
        then firstName (ins.map FlowRow.serviceUser) else r.serviceUser
      bytesIn := if isPrimary then largest (rows.map FlowRow.ownBytesIn) else r.ownBytesIn
      bytesOut := if isPrimary then largest (rows.map FlowRow.ownBytesOut) else r.ownBytesOut }
  identity_apply _ := rfl

/-- `_merge_connection`. -/
def mergeConnection (t : FlowTable) (connKey : String) : FlowTable :=
  match choosePrimary (t.connRows connKey) with
  | none => t
  | some primary =>
      t.update ((mergeEdit (t.connRows connKey) primary).on fun r => r.connKey = connKey)

/-- `MIN(first_seen)`, `MAX(last_seen)` of a baseline row, made when it is new. -/
def Seen.bump (seen : Option Seen) (first last : Int) : Seen :=
  match seen with
  | none => { firstSeen := first, lastSeen := last }
  | some s => { firstSeen := min s.firstSeen first, lastSeen := max s.lastSeen last }

/-- The newest observation's decision wins. -/
def ConnectionBaseline.bump (known : Option ConnectionBaseline) (first last : Int)
    (decision : String) : ConnectionBaseline :=
  match known with
  | none => { firstSeen := first, lastSeen := last, lastDecision := decision }
  | some b =>
      { firstSeen := min b.firstSeen first
        lastSeen := max b.lastSeen last
        lastDecision := if b.lastSeen ≤ last then decision else b.lastDecision }

/-- `_outside`: an end that is no workload, at a public address. -/
def keyOutside (addr : Addresses) (key ip : String) : Bool :=
  addr.outside ip (if "ip:".toList.isPrefixOf key.toList then none else some key)

def FlowRow.connectionKey (r : FlowRow) : ConnectionKey :=
  { srcKey := r.srcKey, dstKey := r.dstKey, port := r.port.getD noPort, proto := r.proto }

/-- The log entry of a connection that the baseline does not hold. -/
def FlowRow.newConnection (r : FlowRow) (addr : Addresses) (stamp : Int) : NewConnection :=
  { key := r.connectionKey
    decision := r.policyDecision
    firstSeen := r.firstDetected
    srcIp := r.srcIp
    dstIp := r.dstIp
    srcHostname := r.srcHostname
    dstHostname := r.dstHostname
    srcLabelSet := r.srcLabelSet
    dstLabelSet := r.dstLabelSet
    isPublic := keyOutside addr r.srcKey r.srcIp || keyOutside addr r.dstKey r.dstIp
    recordedAt := stamp }

/-- `_update_baselines`: the connection's primary row goes into the baselines. -/
def updateBaselines (p : Primitives) (logNew : Bool) (stamp : Int) (db : FlowDb)
    (connKey : String) : FlowDb :=
  match primaryRow (db.flows.connRows connKey) with
  | none => db
  | some row =>
      let key := row.connectionKey
      let first := row.firstDetected
      let last := row.lastDetected
      let isNew := logNew && 0 ≤ key.port && key.port < dynamicPortsFrom &&
        (db.connectionBaseline key).isNone
      let db := { db with
        newConnectionLog := if isNew
          then db.newConnectionLog ++ [row.newConnection p.addresses stamp]
          else db.newConnectionLog
        connectionBaseline := Function.update db.connectionBaseline key
          (some (.bump (db.connectionBaseline key) first last row.policyDecision)) }
      let db := match row.initiatorUser with
        | none => db
        | some user =>
            let userKey : UserKey := { initiatorUser := user.1, dstKey := key.dstKey,
                                       port := key.port, proto := key.proto }
            let account := ((p.unicode.accountKey user.1).getD user.1, key.srcKey)
            { db with
              userBaseline := Function.update db.userBaseline userKey
                (some (.bump (db.userBaseline userKey) first last))
              accountSourceBaseline := Function.update db.accountSourceBaseline account
                (some (.bump (db.accountSourceBaseline account) first last)) }
      match row.initiatorProcess with
      | none => db
      | some process =>
          { db with
            processBaseline := Function.update db.processBaseline (key.srcKey, process.1)
              (some (.bump (db.processBaseline (key.srcKey, process.1)) first last)) }

/-! ## Growth -/

/-- Which kind of write it is: live collection, the daily re-read, a backfill. -/
inductive Increments where
  | cycle
  | late
  | none
  deriving DecidableEq

def largestInt (ns : List Int) : Int := (ns.max?).getD 0
def smallestInt (ns : List Int) : Int := (ns.min?).getD 0

/-- What a row says was recorded of its connection's bytes. -/
def FlowRow.bytesRecorded (r : FlowRow) : Int :=
  match r.countedBytes with
  | some bytes => bytes
  | none =>
      if r.countedConnections.isNone then (bytesTotal r.ownBytesIn r.ownBytesOut).getD 0 else 0

/-- The flow time that the growth of a connection spans. -/
def growthSpan (beforeLast : List (String × Option Int)) (rows : List FlowRow) : Int :=
  let last := largestInt (rows.map FlowRow.lastDetected)
  let known := rows.filterMap fun r => (beforeLast.lookup r.recordKey).getD (some r.lastDetected)
  max 0 (if known ≠ [] then last - largestInt known
    else last - smallestInt (rows.map FlowRow.firstDetected) + seconds 1)

/-- What a connection holds now counts as recorded on each of its rows. -/
def growthEdit (rows : List FlowRow) (primary : FlowRow) : RowEdit where
  apply r :=
    let total := largestNat (rows.map FlowRow.numConnections)
    let totalBytes := bytesTotal primary.bytesIn primary.bytesOut
    let counted := largestNat (rows.map fun r => r.countedConnections.getD r.numConnections)
    let countedBytes := largestInt (rows.map FlowRow.bytesRecorded)
    r.withCounted (some (max counted total)) (some (max countedBytes (totalBytes.getD 0)))
  identity_apply _ := rfl

/-- `_record_growth`: how much a connection grew past what its rows say was recorded. -/
def recordGrowth (beforeLast : List (String × Option Int)) (increments : Increments) (stamp : Int)
    (db : FlowDb) (connKey : String) : FlowDb × (Nat × Option Int) :=
  let rows := db.flows.connRows connKey
  match primaryRow rows with
  | none => (db, 0, none)
  | some primary =>
      let total := largestNat (rows.map FlowRow.numConnections)
      let totalBytes := bytesTotal primary.bytesIn primary.bytesOut
      let counted := largestNat (rows.map fun r => r.countedConnections.getD r.numConnections)
      let countedBytes := largestInt (rows.map FlowRow.bytesRecorded)
      let grew := total - counted
      let grewBytes := totalBytes.map fun b => max 0 (b - countedBytes)
      let recorded := increments ≠ .none && (0 < grew || grewBytes.getD 0 ≠ 0)
      ({ db with
          increments := if recorded then
            db.increments ++ [{ recordKey := primary.recordKey, observedAt := stamp,
                                connections := grew, bytes := grewBytes,
                                seconds := growthSpan beforeLast rows,
                                late := increments = .late }]
            else db.increments
          flows := db.flows.update ((growthEdit rows primary).on fun r => r.connKey = connKey) },
        if recorded then (grew, grewBytes) else (0, none))

/-- `_write_activity` of one slot: growth adds up. -/
def Activity.add (slot : Option Activity) (grew : Nat × Option Int) : Activity :=
  let have_ := slot.getD { connections := 0, bytes := 0, bytesKnown := 0 }
  { connections := have_.connections + grew.1
    bytes := have_.bytes + grew.2.getD 0
    bytesKnown := have_.bytesKnown + if grew.2.isSome then 1 else 0 }

/-- `_add_activity`: live growth that was not blocked counts toward its source's hour, directory
ports again on their own, and its destination's, unless the source is a public address. -/
def addActivity (addr : Addresses) (hour : Int) (row : FlowRow) (grew : Nat × Option Int)
    (db : FlowDb) : FlowDb :=
  if grew.1 = 0 ∧ grew.2.getD 0 = 0 then db
  else if "blocked".toList.isPrefixOf row.policyDecision.toList then db
  else
    let bump (table : Int × String × ActivityClass → Option Activity) (cls : ActivityClass) :=
      Function.update table (hour, row.srcKey, cls)
        (some (.add (table (hour, row.srcKey, cls)) grew))
    let isDirectory := row.port.any fun port => (port, row.proto) ∈ directoryPorts
    let fromPublic := "ip:".toList.isPrefixOf row.srcKey.toList &&
      addr.isPublic (String.ofList (row.srcKey.toList.drop 3))
    { db with
      sourceActivity :=
        if isDirectory then bump (bump db.sourceActivity .all) .directory
        else bump db.sourceActivity .all
      destinationActivity :=
        if fromPublic then db.destinationActivity
        else Function.update db.destinationActivity (hour, row.dstKey)
          (some (.add (db.destinationActivity (hour, row.dstKey)) grew)) }

/-! ## The batch -/

structure UpsertStats where
  inserted : Nat
  refreshed : Nat
  paired : Nat
  daysTouched : List Int
  unchanged : Nat

/-- What a batch is written with besides its records. -/
structure UpsertOptions where
  origin : DataOrigin
  now : Int
  increments : Increments
  logNewConnections : Bool

/-- Everything that is done to one changed connection. -/
def settleConnection (p : Primitives) (o : UpsertOptions)
    (beforeLast : List (String × Option Int)) (db : FlowDb) (connKey : String) : FlowDb :=
  let stamp := dbTime o.now
  let merged := { db with flows := mergeConnection db.flows connKey }
  let known := updateBaselines p o.logNewConnections stamp merged connKey
  let grown := recordGrowth beforeLast o.increments stamp known connKey
  match o.increments, primaryRow (merged.flows.connRows connKey) with
  | .cycle, some row => addActivity p.addresses (dbTime (hourStart o.now)) row grown.2 grown.1
  | _, _ => grown.1

/-- Rows of the growth tables past their keep. -/
def dropOldActivity (o : UpsertOptions) (db : FlowDb) : FlowDb :=
  let db := if o.increments = .none then db
    else { db with
      increments := db.increments.filter fun i => !(i.observedAt < dbTime (o.now - incrementKeep)) }
  if o.increments = .cycle then
    let oldest := dbTime (o.now - activityKeep)
    let hour := dbTime (hourStart o.now)
    { db with
      sourceActivity := fun k => if k.1 < oldest then none else db.sourceActivity k
      destinationActivity := fun k => if k.1 < oldest then none else db.destinationActivity k
      liveActivityHours :=
        (if hour ∈ db.liveActivityHours then db.liveActivityHours
          else db.liveActivityHours ++ [hour]).filter fun h => !(h < oldest) }
  else db

/-- `upsert_flows`: a batch, in one transaction. -/
def upsertFlows (p : Primitives) (o : UpsertOptions) (db : FlowDb) (records : List FlowRecord) :
    FlowDb × UpsertStats :=
  let w := writeRecords p o.origin (dbTime o.now) db records
  let repaired := repairTuples w.written w.flows w.tuples
  let ordered := repaired.keys.dedup.insertionSort (· ≤ ·)
  let settled := ordered.foldl (settleConnection p o w.beforeLast)
    { db with labelSets := w.labelSets, flows := repaired.flows }
  let touched := (w.daysTouched ++
    (settled.flows.rows.filter fun r => r.connKey ∈ ordered).map FlowRow.day).dedup
  let final := (dropOldActivity o settled).markStale .flows touched
  ((touched.insertionSort (· ≤ ·)).foldl FlowDb.markDirty final,
    { inserted := w.inserted
      refreshed := w.refreshed
      paired := repaired.paired
      daysTouched := touched
      unchanged := w.unchanged })

end IllumioOps
