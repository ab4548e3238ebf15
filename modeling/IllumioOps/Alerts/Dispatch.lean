import IllumioOps.Alerts.Recorder
import IllumioOps.Tables.Changes
import IllumioOps.Tables.Distinct
import Mathlib.Data.List.Sort

/-!
# Sending alerts

`run_dispatch`: the deliveries that are due, one message for each channel. A failure is tried again
after a pause and is final at the third attempt; a channel that failed three times in a row rests.
What a round makes of one delivery is said once (`Outcome`, `round_outcome`). Over any sequence of
alerts and rounds every alert has a delivery, a pending one is always due some time and was tried
twice at most, and one that was sent stays as it is (`deliveries_keep_course`).
-/

set_option autoImplicit false

namespace IllumioOps.AlertDispatch

open Alerts (DeliveryStatus)

/-! ## Tables -/

/-- `DeliveryStatus` -/
inductive Status where
  | pending
  | sent
  | failed
  | notNotified
  | grouped
  | noChannel
  deriving DecidableEq, Repr

/-- A row of `alert_deliveries`. -/
structure Row where
  id : Nat
  alertId : Nat
  channel : String
  status : Status
  attempts : Nat
  nextAttemptAt : Option Int
  sentAt : Option Int
  lastError : Option String
  deriving DecidableEq, Repr

/-- A row of `channel_state`. -/
structure ChannelState where
  consecutiveFailures : Nat
  cooldownUntil : Option Int
  lastError : Option String
  lastOkAt : Option Int
  deriving DecidableEq, Repr

/-- The ids of the alerts with the floor below new ones, their deliveries and the channels. -/
structure Db where
  alerts : List Nat
  alertIdFloor : Nat
  deliveries : List Row
  channelState : String → Option ChannelState

/-- `NOT_SENT`: the channel of the one delivery of an alert that is not sent. -/
def notSent : String := "-"

/-- Why an alert is not sent although channels are enabled. -/
inductive Hold where
  | notNotified
  | grouped
  deriving DecidableEq, Repr

def Hold.status : Hold → Status
  | .notNotified => .notNotified
  | .grouped => .grouped

/-- The deliveries of a new alert: their channels and statuses, and when they are due. -/
def newDeliveries (at_ : Int) (channels : List String) :
    Option Hold → List (String × Status × Option Int)
  | some hold => [(notSent, hold.status, none)]
  | none =>
      if channels = [] then [(notSent, .noChannel, none)]
      else channels.map fun c => (c, .pending, some at_)

/-- `insert_alert` -/
def Db.insertAlert (db : Db) (at_ : Int) (channels : List String) (hold : Option Hold) : Db :=
  let id := max (db.alerts.foldl max 0) db.alertIdFloor + 1
  let rowId := (db.deliveries.map Row.id).foldl max 0 + 1
  { db with
    alerts := db.alerts ++ [id]
    deliveries := db.deliveries ++ ((newDeliveries at_ channels hold).zipIdx rowId).map
      fun (d, i) => ⟨i, id, d.1, d.2.1, 0, d.2.2, none, none⟩ }

/-- `mark_deliveries` -/
structure Mark where
  ids : List Nat
  status : Status
  attemptsAdd : Nat
  nextAttemptAt : Option Int
  sentAt : Option Int
  error : Option String
  deriving DecidableEq, Repr

/-- A delivery is one of those marked. -/
def Mark.Touches (m : Mark) (row : Row) : Prop := row.id ∈ m.ids

instance (m : Mark) (row : Row) : Decidable (m.Touches row) := inferInstanceAs (Decidable (_ ∈ _))

def Mark.row (m : Mark) (row : Row) : Row :=
  if m.Touches row then
    { row with
      status := m.status, attempts := row.attempts + m.attemptsAdd
      nextAttemptAt := m.nextAttemptAt, sentAt := m.sentAt.or row.sentAt, lastError := m.error }
  else row

/-- A transaction of a round: deliveries are marked, or a channel's state is saved
(`save_channel_state`). -/
inductive Write where
  | mark (m : Mark)
  | channel (name : String) (state : ChannelState)
  deriving DecidableEq, Repr

def Db.apply (db : Db) : Write → Db
  | .mark m => { db with deliveries := db.deliveries.map m.row }
  | .channel name state =>
      let lastOkAt := state.lastOkAt.or ((db.channelState name).bind ChannelState.lastOkAt)
      { db with
        channelState := Function.update db.channelState name (some { state with lastOkAt := lastOkAt }) }

/-- The transactions one after the other, up to an exception. -/
def Db.commit (db : Db) : List (Option Write) → Db
  | [] => db
  | none :: _ => db
  | some w :: ws => (db.apply w).commit ws

/-! ## A round -/

/-- `DUE_LIMIT` -/
def dueLimit : Nat := 200

/-- `ATTEMPTS` -/
def attemptsMax : Nat := 3

/-- `BACKOFF` -/
def backoff : List Int := [minutes 1, minutes 5]

/-- `CHANNEL_STRIKES` -/
def channelStrikes : Nat := 3

/-- `CHANNEL_REST` -/
def channelRest : Int := minutes 5

/-- Which channels are enabled in the settings. -/
structure Channels where
  smtp : Bool
  line : Bool
  telegram : Bool
  teams : Bool
  webhook : Bool
  deriving DecidableEq, Repr

/-- `enabled_channels` -/
def Channels.enabled (c : Channels) : List String :=
  ([("smtp", c.smtp), ("line", c.line), ("telegram", c.telegram), ("teams", c.teams),
    ("webhook", c.webhook)].filter Prod.snd).map Prod.fst

structure SendResult where
  ok : Bool
  error : Option String
  deriving DecidableEq, Repr

/-- A round: the time, the settings, what a message on each channel comes to, and how many of its
transactions are committed before it is stopped. -/
structure Round where
  now : Int
  channels : Channels
  answers : String → SendResult
  committed : Nat

/-- What `run_dispatch` returns. -/
structure DispatchRun where
  sent : Nat
  failed : Nat
  waiting : Nat
  deriving DecidableEq, Repr

/-- `due_deliveries` -/
def Db.due (db : Db) (now : Int) : List Row :=
  ((db.deliveries.filter fun row =>
      decide (row.status = .pending) && row.nextAttemptAt.any fun t => decide (t ≤ now)).mergeSort
    fun a b => decide (a.nextAttemptAt.getD 0 < b.nextAttemptAt.getD 0) ||
      (decide (a.nextAttemptAt = b.nextAttemptAt) && decide (a.id ≤ b.id))).take dueLimit

/-- The channel rests. -/
def Db.rests (db : Db) (channel : String) (now : Int) : Bool :=
  ((db.channelState channel).bind ChannelState.cooldownUntil).any fun t => decide (now < t)

/-- The deliveries that failed for the same time; none when the table of pauses has no entry. -/
def failedMark (items : List Row) (error : Option String) (at_ : Int) (attempts : Nat) :
    Option Write :=
  let ids := (items.filter fun row => decide (row.attempts + 1 = attempts)).map Row.id
  if attemptsMax ≤ attempts then some (.mark ⟨ids, .failed, 1, none, none, error⟩)
  else (backoff[attempts - 1]?).map fun pause =>
    .mark ⟨ids, .pending, 1, some (at_ + pause), none, error⟩

/-- `_record` -/
def record (channel : String) (items : List Row) (result : SendResult) (at_ : Int)
    (strikes : Nat) : List (Option Write) :=
  if result.ok then
    [some (.mark ⟨items.map Row.id, .sent, 1, none, some at_, none⟩),
      some (.channel channel ⟨0, none, none, some at_⟩)]
  else
    (items.map fun row => row.attempts + 1).eraseDups.map (failedMark items result.error at_) ++
      [some (.channel channel ⟨strikes + 1,
        if channelStrikes ≤ strikes + 1 then some (at_ + channelRest) else none,
        result.error, none⟩)]

/-- One channel in a round: the deliveries its message is about, what is written, and what is
counted. -/
structure Turn where
  message : Option (List Nat)
  writes : List (Option Write)
  run : DispatchRun

/-- The body of the loop over the channels. Each alert has to be there to be rendered. -/
def Db.turn (db : Db) (r : Round) (channel : String) (items : List Row) : Turn :=
  let ids := items.map Row.id
  if channel ∉ r.channels.enabled then
    ⟨none, [some (.mark ⟨ids, .failed, 0, none, none, some "channel_disabled"⟩)],
      ⟨0, ids.length, 0⟩⟩
  else if db.rests channel r.now then ⟨none, [], ⟨0, 0, ids.length⟩⟩
  else if ¬ ∀ row ∈ items, row.alertId ∈ db.alerts then ⟨none, [none], ⟨0, 0, 0⟩⟩
  else
    let result := r.answers channel
    ⟨some ids,
      record channel items result r.now
        (((db.channelState channel).map ChannelState.consecutiveFailures).getD 0),
      if result.ok then ⟨ids.length, 0, 0⟩ else ⟨0, ids.length, 0⟩⟩

/-- The channels of the due deliveries, in order. -/
def Db.dueChannels (db : Db) (now : Int) : List String :=
  ((db.due now).map Row.channel).dedup.insertionSort (· ≤ ·)

/-- The due deliveries of a channel. -/
def Db.items (db : Db) (now : Int) (channel : String) : List Row :=
  (db.due now).filter fun row => decide (row.channel = channel)

/-- `run_dispatch`, one turn for each channel. -/
def Db.turns (db : Db) (r : Round) : List Turn :=
  (db.dueChannels r.now).map fun c => db.turn r c (db.items r.now c)

/-- Everything a round writes. -/
def Db.writes (db : Db) (r : Round) : List (Option Write) := (db.turns r).flatMap Turn.writes

/-- The deliveries of each message of a round. -/
def Db.messages (db : Db) (r : Round) : List (List Nat) := (db.turns r).filterMap Turn.message

/-- What a round that is not stopped returns. -/
def Db.dispatchRun (db : Db) (r : Round) : DispatchRun :=
  (db.turns r).foldl (fun out t => ⟨out.sent + t.run.sent, out.failed + t.run.failed,
    out.waiting + t.run.waiting⟩) ⟨0, 0, 0⟩

/-- The tables after a round. -/
def Db.round (db : Db) (r : Round) : Db := db.commit ((db.writes r).take r.committed)

/-- Everything the round writes is committed. -/
def Db.Completes (db : Db) (r : Round) : Prop := (db.writes r).length ≤ r.committed

/-! ## What a round makes of one delivery -/

def Write.Touches : Write → Row → Prop
  | .mark m, row => m.Touches row
  | .channel _ _, _ => False

/-- What a transaction makes of one delivery. -/
def Write.row : Row → Write → Row
  | row, .mark m => m.row row
  | row, .channel _ _ => row

section Rows

variable {db : Db} {r : Round} {row : Row} {w : Write} {channel : String} {items : List Row}
  {result : SendResult} {at_ : Int} {strikes : Nat}

@[simp] theorem Mark.row_id (m : Mark) (row : Row) : (m.row row).id = row.id := by
  rw [Mark.row]
  split <;> rfl

theorem Write.row_of_not_touches (w : Write) (row : Row) (h : ¬ w.Touches row) :
    Write.row row w = row := by
  cases w with
  | mark m => exact if_neg h
  | channel name state => rfl

/-- A row keeps its id, so the same transactions touch it. -/
theorem Write.touches_row (v w : Write) (row : Row) (h : v.Touches (Write.row row w)) :
    v.Touches row := by
  cases v with
  | channel name state => exact h
  | mark m =>
      cases w with
      | channel name state => exact h
      | mark m' =>
          have h : (m'.row row).id ∈ m.ids := h
          rw [Mark.row_id] at h
          exact h

theorem deliveries_apply (db : Db) (w : Write) :
    (db.apply w).deliveries = db.deliveries.map fun row => Write.row row w := by
  cases w with
  | mark m => rfl
  | channel name state => exact (List.map_id' db.deliveries).symm

/-- What is committed is a first part of the transactions. -/
theorem commit_eq (db : Db) (entries : List (Option Write)) :
    ∃ ws, ws <+: entries.filterMap id ∧
      (none ∉ entries → ws = entries.filterMap id) ∧
      (db.commit entries).deliveries = db.deliveries.map (fun row => ws.foldl Write.row row) ∧
      (db.commit entries).alerts = db.alerts := by
  induction entries generalizing db with
  | nil => exact ⟨[], List.prefix_rfl, fun _ => rfl, (List.map_id' db.deliveries).symm, rfl⟩
  | cons entry entries ih =>
      cases entry with
      | none =>
          refine ⟨[], List.nil_prefix, fun h => ?_, (List.map_id' db.deliveries).symm, rfl⟩
          exact absurd List.mem_cons_self h
      | some w =>
          obtain ⟨ws, hpre, hall, hrows, halerts⟩ := ih (db.apply w)
          have hcons : (some w :: entries).filterMap id = w :: entries.filterMap id := rfl
          refine ⟨w :: ws, ?_, fun h => ?_, ?_, ?_⟩
          · rw [hcons]
            exact List.cons_prefix_cons.2 ⟨rfl, hpre⟩
          · rw [hcons, hall fun h' => h (List.mem_cons_of_mem _ h')]
          · rw [Db.commit, hrows, deliveries_apply, List.map_map]
            rfl
          · rw [Db.commit, halerts]
            cases w <;> rfl

/-! ### Groups -/

theorem touches_failedMark {error : Option String} {attempts : Nat}
    (hw : failedMark items error at_ attempts = some w) (h : w.Touches row) :
    ∃ item ∈ items, item.id = row.id ∧ item.attempts + 1 = attempts := by
  have hids : row.id ∈
      (items.filter fun row => decide (row.attempts + 1 = attempts)).map Row.id := by
    rw [failedMark] at hw
    split at hw
    · rw [← Option.some.inj hw] at h
      exact h
    · obtain ⟨pause, -, rfl⟩ := Option.map_eq_some_iff.1 hw
      exact h
  obtain ⟨item, hitem, hid⟩ := List.mem_map.1 hids
  obtain ⟨hitem, hattempts⟩ := List.mem_filter.1 hitem
  exact ⟨item, hitem, hid, of_decide_eq_true hattempts⟩

/-- What `_record` marks is among the items. -/
theorem touches_record (hw : some w ∈ record channel items result at_ strikes)
    (h : w.Touches row) : ∃ item ∈ items, item.id = row.id := by
  rw [record] at hw
  split at hw
  · rcases List.mem_cons.1 hw with hw | hw
    · obtain rfl := Option.some.inj hw
      exact List.mem_map.1 h
    · rw [Option.some.inj (List.mem_singleton.1 hw)] at h
      exact h.elim
  · rcases List.mem_append.1 hw with hw | hw
    · obtain ⟨attempts, -, hw⟩ := List.mem_map.1 hw
      obtain ⟨item, hitem, hid, -⟩ := touches_failedMark hw h
      exact ⟨item, hitem, hid⟩
    · rw [Option.some.inj (List.mem_singleton.1 hw)] at h
      exact h.elim

/-- What a turn marks is among its items. -/
theorem touches_turn (hw : some w ∈ (db.turn r channel items).writes) (h : w.Touches row) :
    ∃ item ∈ items, item.id = row.id := by
  rw [Db.turn] at hw
  split at hw
  · rw [Option.some.inj (List.mem_singleton.1 hw)] at h
    exact List.mem_map.1 h
  split at hw
  · exact absurd hw List.not_mem_nil
  split at hw
  · exact absurd (List.mem_singleton.1 hw) nofun
  · exact touches_record hw h

/-- The transactions of a list touch the row at most once. -/
def OnceAt (row : Row) (entries : List (Option Write)) : Prop :=
  entries.Pairwise fun v w => ∀ a ∈ v, ∀ b ∈ w, a.Touches row → ¬ b.Touches row

theorem onceAt_nil : OnceAt row [] := List.Pairwise.nil

theorem onceAt_singleton (v : Option Write) : OnceAt row [v] := List.pairwise_singleton _ _

/-- A delivery was tried as often as it was, so one group of `_record` has it. -/
theorem onceAt_record (hids : ∀ item ∈ items, item.id = row.id → item = row) :
    OnceAt row (record channel items result at_ strikes) := by
  rw [record]
  split
  · refine List.pairwise_pair.2 fun a _ b hb _ hbr => ?_
    rw [← Option.some.inj hb] at hbr
    exact hbr
  · refine List.pairwise_append.2 ⟨?_, onceAt_singleton _, ?_⟩
    · refine List.pairwise_map.2 ((Tables.nodup_eraseDups _).imp ?_)
      intro n m hnm a ha b hb har hbr
      obtain ⟨item, hitem, hid, hn⟩ := touches_failedMark ha har
      obtain ⟨item', hitem', hid', hm⟩ := touches_failedMark hb hbr
      obtain rfl := hids item hitem hid
      obtain rfl := hids item' hitem' hid'
      exact hnm (hn.symm.trans hm)
    · intro v _ w hw a _ b hb _ hbr
      rw [List.mem_singleton.1 hw] at hb
      rw [← Option.some.inj hb] at hbr
      exact hbr

theorem onceAt_turn (hids : ∀ item ∈ items, item.id = row.id → item = row) :
    OnceAt row (db.turn r channel items).writes := by
  rw [Db.turn]
  split
  · exact onceAt_singleton _
  split
  · exact onceAt_nil
  split
  · exact onceAt_singleton _
  · exact onceAt_record hids

/-! ### Due deliveries -/

theorem mem_due (h : row ∈ db.due r.now) : row ∈ db.deliveries ∧ row.status = .pending := by
  have hmem := List.mem_of_mem_take h
  rw [List.mem_mergeSort, List.mem_filter, Bool.and_eq_true] at hmem
  exact ⟨hmem.1, of_decide_eq_true hmem.2.1⟩

theorem mem_items : row ∈ db.items r.now channel ↔ row ∈ db.due r.now ∧ row.channel = channel := by
  rw [Db.items, List.mem_filter, decide_eq_true_iff]

theorem mem_dueChannels : channel ∈ db.dueChannels r.now ↔
    ∃ row ∈ db.due r.now, row.channel = channel := by
  rw [Db.dueChannels, List.mem_insertionSort, List.mem_dedup, List.mem_map]

theorem nodup_dueChannels : (db.dueChannels r.now).Nodup :=
  (List.perm_insertionSort _ _).nodup_iff.2 (List.nodup_dedup _)

/-- An id is that of one row. -/
theorem eq_of_id (hids : (db.deliveries.map Row.id).Nodup) {item : Row}
    (hrow : row ∈ db.deliveries) (hitem : item ∈ db.deliveries) (h : item.id = row.id) :
    item = row :=
  List.inj_on_of_nodup_map hids hitem hrow h

/-- A transaction that touches a delivery belongs to the turn of its channel, and the delivery is
due. -/
theorem mem_writes_of_touches (hids : (db.deliveries.map Row.id).Nodup) (hrow : row ∈ db.deliveries)
    (hw : some w ∈ db.writes r) (h : w.Touches row) :
    row ∈ db.due r.now ∧
      some w ∈ (db.turn r row.channel (db.items r.now row.channel)).writes := by
  obtain ⟨turn, hturn, hw⟩ := List.mem_flatMap.1 hw
  obtain ⟨channel, -, rfl⟩ := List.mem_map.1 hturn
  obtain ⟨item, hitem, hid⟩ := touches_turn hw h
  obtain ⟨hdue, rfl⟩ := mem_items.1 hitem
  obtain rfl := eq_of_id hids hrow (mem_due hdue).1 hid
  exact ⟨hdue, hw⟩

/-- A round touches a delivery at most once. -/
theorem onceAt_writes (hids : (db.deliveries.map Row.id).Nodup) (hrow : row ∈ db.deliveries) :
    OnceAt row (db.writes r) := by
  have hitems : ∀ channel, ∀ item ∈ db.items r.now channel, item.id = row.id → item = row :=
    fun channel item hitem h => eq_of_id hids hrow (mem_due (mem_items.1 hitem).1).1 h
  refine List.pairwise_flatMap.2 ⟨fun turn hturn => ?_, List.pairwise_map.2 ?_⟩
  · obtain ⟨channel, -, rfl⟩ := List.mem_map.1 hturn
    exact onceAt_turn (hitems channel)
  · -- the turns of two channels have no item in common
    refine nodup_dueChannels.imp ?_
    intro c d hne v hv w hw a ha b hb har hbr
    obtain ⟨item, hitem, hid⟩ := touches_turn (ha ▸ hv) har
    obtain ⟨item', hitem', hid'⟩ := touches_turn (hb ▸ hw) hbr
    obtain rfl := hitems c item hitem hid
    obtain rfl := hitems d item' hitem' hid'
    exact hne ((mem_items.1 hitem).2.symm.trans (mem_items.1 hitem').2)

/-! ### Outcomes -/

/-- What a round makes of a delivery. -/
inductive Outcome (db : Db) (r : Round) (row : Row) : Row → Prop where
  | kept : Outcome db r row row
  | disabled (hdue : row ∈ db.due r.now) (hchannel : row.channel ∉ r.channels.enabled) :
      Outcome db r row { row with
        status := .failed, nextAttemptAt := none, lastError := some "channel_disabled" }
  | sent (hdue : row ∈ db.due r.now) (hchannel : row.channel ∈ r.channels.enabled)
      (hrests : db.rests row.channel r.now = false) (hok : (r.answers row.channel).ok = true) :
      Outcome db r row { row with
        status := .sent, attempts := row.attempts + 1, nextAttemptAt := none,
        sentAt := some r.now, lastError := none }
  | failed (hdue : row ∈ db.due r.now) (hchannel : row.channel ∈ r.channels.enabled)
      (hrests : db.rests row.channel r.now = false) (hok : (r.answers row.channel).ok = false)
      (hlast : attemptsMax ≤ row.attempts + 1) :
      Outcome db r row { row with
        status := .failed, attempts := row.attempts + 1, nextAttemptAt := none,
        lastError := (r.answers row.channel).error }
  | retried (hdue : row ∈ db.due r.now) (hchannel : row.channel ∈ r.channels.enabled)
      (hrests : db.rests row.channel r.now = false) (hok : (r.answers row.channel).ok = false)
      (hmore : row.attempts + 1 < attemptsMax) {pause : Int}
      (hpause : backoff[row.attempts]? = some pause) :
      Outcome db r row { row with
        status := .pending, attempts := row.attempts + 1, nextAttemptAt := some (r.now + pause),
        lastError := (r.answers row.channel).error }

theorem row_of_touches {m : Mark} (h : m.Touches row) : m.row row =
    { row with
      status := m.status, attempts := row.attempts + m.attemptsAdd
      nextAttemptAt := m.nextAttemptAt, sentAt := m.sentAt.or row.sentAt, lastError := m.error } :=
  if_pos h

/-- The mark of a failed attempt. -/
theorem outcome_failedMark (hdue : row ∈ db.due r.now) (hchannel : row.channel ∈ r.channels.enabled)
    (hrests : db.rests row.channel r.now = false) (hok : (r.answers row.channel).ok = false)
    (hw : failedMark items (r.answers row.channel).error r.now (row.attempts + 1) = some w)
    (h : w.Touches row) : Outcome db r row (Write.row row w) := by
  rw [failedMark] at hw
  split at hw
  · rename_i hlast
    obtain rfl := Option.some.inj hw
    rw [Write.row, row_of_touches h]
    exact .failed hdue hchannel hrests hok hlast
  · rename_i hmore
    obtain ⟨pause, hpause, rfl⟩ := Option.map_eq_some_iff.1 hw
    rw [Write.row, row_of_touches h]
    exact .retried hdue hchannel hrests hok (not_le.1 hmore) hpause

/-- What the one transaction that touches a delivery makes of it. -/
theorem outcome_of_touches (hids : (db.deliveries.map Row.id).Nodup) (hrow : row ∈ db.deliveries)
    (hw : some w ∈ db.writes r) (h : w.Touches row) : Outcome db r row (Write.row row w) := by
  obtain ⟨hdue, hw⟩ := mem_writes_of_touches hids hrow hw h
  rw [Db.turn] at hw
  split at hw
  · rename_i hchannel
    obtain rfl := Option.some.inj (List.mem_singleton.1 hw)
    rw [Write.row, row_of_touches h]
    exact .disabled hdue hchannel
  rename_i hchannel
  split at hw
  · exact absurd hw List.not_mem_nil
  rename_i hrests
  rw [Bool.not_eq_true] at hrests
  split at hw
  · exact absurd (List.mem_singleton.1 hw) nofun
  simp only [record] at hw
  split at hw
  · rename_i hok
    rcases List.mem_cons.1 hw with hw | hw
    · obtain rfl := Option.some.inj hw
      rw [Write.row, row_of_touches h]
      exact .sent hdue (not_not.1 hchannel) hrests hok
    · rw [Option.some.inj (List.mem_singleton.1 hw)] at h
      exact h.elim
  · rename_i hok
    rw [Bool.not_eq_true] at hok
    rcases List.mem_append.1 hw with hw | hw
    · obtain ⟨attempts, -, hw⟩ := List.mem_map.1 hw
      obtain ⟨item, hitem, hid, rfl⟩ := touches_failedMark hw h
      obtain rfl := eq_of_id hids hrow (mem_due (mem_items.1 hitem).1).1 hid
      exact outcome_failedMark hdue (not_not.1 hchannel) hrests hok hw h
    · rw [Option.some.inj (List.mem_singleton.1 hw)] at h
      exact h.elim

theorem mem_of_mem_filterMap {entries : List (Option Write)} (h : w ∈ entries.filterMap id) :
    some w ∈ entries := by
  obtain ⟨entry, hentry, rfl⟩ := List.mem_filterMap.1 h
  exact hentry

/-- A round that may be stopped: the deliveries keep their places, and each comes to one of the
outcomes. -/
theorem round_outcome (hids : (db.deliveries.map Row.id).Nodup) (r : Round) :
    ∃ after : Row → Row, (db.round r).deliveries = db.deliveries.map after ∧
      ∀ row ∈ db.deliveries, Outcome db r row (after row) := by
  obtain ⟨ws, hpre, -, hrows, -⟩ := commit_eq db ((db.writes r).take r.committed)
  have hsub : ws.Sublist ((db.writes r).filterMap id) :=
    hpre.sublist.trans ((List.take_sublist _ _).filterMap id)
  refine ⟨fun row => ws.foldl Write.row row, hrows, fun row hrow => ?_⟩
  have honce : ws.Pairwise fun v w => v.Touches row → ¬ w.Touches row := by
    refine List.Pairwise.sublist hsub (List.pairwise_filterMap.2 ?_)
    exact (onceAt_writes hids hrow).imp fun hvw a ha b hb => hvw a ha b hb
  show Outcome db r row (ws.foldl Write.row row)
  rcases Tables.foldl_edit_cases Write.row_of_not_touches Write.touches_row honce with
    heq | ⟨w, hw, htouches, heq⟩
  · rw [heq]
    exact .kept
  · rw [heq]
    exact outcome_of_touches hids hrow (mem_of_mem_filterMap (hsub.subset hw)) htouches

theorem Outcome.same {row' : Row} (h : Outcome db r row row') :
    row'.id = row.id ∧ row'.alertId = row.alertId ∧ row'.channel = row.channel := by
  cases h <;> exact ⟨rfl, rfl, rfl⟩

/-- A delivery that is not pending is left alone. -/
theorem Outcome.eq_of_not_pending {row' : Row} (h : Outcome db r row row')
    (hrow : row.status ≠ .pending) : row' = row := by
  cases h with
  | kept => rfl
  | disabled hdue => exact absurd (mem_due hdue).2 hrow
  | sent hdue => exact absurd (mem_due hdue).2 hrow
  | failed hdue => exact absurd (mem_due hdue).2 hrow
  | retried hdue => exact absurd (mem_due hdue).2 hrow

/-- A round costs an attempt only where a message is sent. -/
theorem Outcome.attempts_eq {row' : Row} (h : Outcome db r row row')
    (hchannel : row.channel ∉ r.channels.enabled ∨ db.rests row.channel r.now = true) :
    row'.attempts = row.attempts := by
  have habsurd : row.channel ∈ r.channels.enabled → db.rests row.channel r.now = false → False := by
    intro hin hrests
    rcases hchannel with hout | hrest
    · exact hout hin
    · rw [hrests] at hrest
      exact absurd hrest Bool.false_ne_true
  cases h with
  | kept => rfl
  | disabled => rfl
  | sent _ hin hrests => exact (habsurd hin hrests).elim
  | failed _ hin hrests => exact (habsurd hin hrests).elim
  | retried _ hin hrests => exact (habsurd hin hrests).elim

/-- What holds of one delivery between rounds. -/
structure Row.Sound (row : Row) : Prop where
  pending_iff : row.status = .pending ↔ row.nextAttemptAt.isSome
  attempts_le : row.status = .pending → row.attempts ≤ 2

theorem Outcome.sound {row' : Row} (h : Outcome db r row row') (hrow : row.Sound) :
    row'.Sound := by
  cases h with
  | kept => exact hrow
  | disabled => exact ⟨⟨nofun, nofun⟩, nofun⟩
  | sent => exact ⟨⟨nofun, nofun⟩, nofun⟩
  | failed => exact ⟨⟨nofun, nofun⟩, nofun⟩
  | retried hdue _ _ _ hmore => exact ⟨⟨fun _ => rfl, fun _ => rfl⟩, fun _ => Nat.le_of_lt_succ hmore⟩

end Rows

/-! ## Any sequence of alerts and rounds -/

/-- An alert is recorded, or a round goes through. -/
inductive Step where
  | insert (at_ : Int) (channels : List String) (hold : Option Hold)
  | round (r : Round)

def Db.step (db : Db) : Step → Db
  | .insert at_ channels hold => db.insertAlert at_ channels hold
  | .round r => db.round r

def Db.run (db : Db) (steps : List Step) : Db := steps.foldl Db.step db

/-- The tables before the first alert. -/
def Db.new (alertIdFloor : Nat) (channelState : String → Option ChannelState) : Db :=
  ⟨[], alertIdFloor, [], channelState⟩

/-- What holds of the tables. -/
structure Db.Sound (db : Db) : Prop where
  delivered : ∀ id ∈ db.alerts, ∃ row ∈ db.deliveries, row.alertId = id
  known : ∀ row ∈ db.deliveries, row.alertId ∈ db.alerts
  ids : (db.deliveries.map Row.id).Nodup
  rows : ∀ row ∈ db.deliveries, row.Sound

section Runs

variable {db : Db} {row : Row} {r : Round} {s : Step}

theorem sound_new (alertIdFloor : Nat) (channelState : String → Option ChannelState) :
    (Db.new alertIdFloor channelState).Sound :=
  ⟨nofun, nofun, List.nodup_nil, nofun⟩

theorem newDeliveries_ne_nil (at_ : Int) (channels : List String) (hold : Option Hold) :
    newDeliveries at_ channels hold ≠ [] := by
  cases hold with
  | some hold => exact List.cons_ne_nil _ _
  | none =>
      rw [newDeliveries]
      split
      · exact List.cons_ne_nil _ _
      · rename_i hchannels
        exact fun h => hchannels (List.map_eq_nil_iff.1 h)

/-- A new delivery is pending when it is due some time. -/
theorem pending_iff_newDeliveries {at_ : Int} {channels : List String} {hold : Option Hold}
    {d : String × Status × Option Int} (hd : d ∈ newDeliveries at_ channels hold) :
    d.2.1 = .pending ↔ d.2.2.isSome := by
  cases hold with
  | some hold =>
      rw [List.mem_singleton.1 hd]
      cases hold <;> exact ⟨nofun, nofun⟩
  | none =>
      rw [newDeliveries] at hd
      split at hd
      · rw [List.mem_singleton.1 hd]
        exact ⟨nofun, nofun⟩
      · obtain ⟨c, -, rfl⟩ := List.mem_map.1 hd
        exact ⟨fun _ => rfl, fun _ => rfl⟩

theorem le_foldl_max (ns : List Nat) (m : Nat) : ∀ n ∈ m :: ns, n ≤ ns.foldl max m := by
  induction ns generalizing m with
  | nil => exact fun n hn => (List.mem_singleton.1 hn).le
  | cons k ns ih =>
      have hmax := ih (max m k) (max m k) List.mem_cons_self
      intro n hn
      rw [List.foldl_cons]
      rcases List.mem_cons.1 hn with rfl | hn
      · exact (le_max_left n k).trans hmax
      rcases List.mem_cons.1 hn with rfl | hn
      · exact (le_max_right m n).trans hmax
      · exact ih (max m k) n (List.mem_cons_of_mem _ hn)

/-- What the recorder calls a hold, and what its deliveries are here. -/
def Hold.recorded : Hold → DeliveryStatus
  | .notNotified => .notNotified
  | .grouped => .grouped

def queued (d : Alerts.Delivery) : String × Status × Option Int :=
  (d.channel.getD notSent,
    match d.status with
    | .pending => .pending
    | .notNotified => .notNotified
    | .grouped => .grouped
    | .noChannel => .noChannel,
    d.nextAttemptAt)

/-- The recorder inserts the same deliveries. -/
theorem insertAlert_recorded (recorder : Alerts.AlertDb) (pce : Alerts.Pce)
    (rule : Alerts.RuleBase) (trigger : Alerts.Trigger) (at_ : Int) (channels : List String)
    (hold : Option Hold) :
    ∃ added, (recorder.insertAlert pce rule trigger at_ channels (hold.map Hold.recorded)).deliveries =
        recorder.deliveries ++ added ∧
      added.map queued = newDeliveries at_ channels hold := by
  refine ⟨_, rfl, ?_⟩
  cases hold with
  | some hold => cases hold <;> rfl
  | none =>
      show List.map queued (if channels = [] then _ else _) = if channels = [] then _ else _
      split
      · rfl
      · rw [List.map_map]
        rfl

/-- What an insert adds. -/
theorem insertAlert_deliveries (db : Db) (at_ : Int) (channels : List String)
    (hold : Option Hold) :
    ∃ id added, (db.insertAlert at_ channels hold).alerts = db.alerts ++ [id] ∧
      (db.insertAlert at_ channels hold).deliveries = db.deliveries ++ added ∧ added ≠ [] ∧
      (∀ row ∈ added, row.alertId = id ∧ row.Sound) ∧ (added.map Row.id).Nodup ∧
      ∀ row ∈ added, ∀ old ∈ db.deliveries, old.id < row.id := by
  refine ⟨_, _, rfl, rfl, ?_, ?_, ?_, ?_⟩
  · intro h
    exact newDeliveries_ne_nil at_ channels hold (List.zipIdx_eq_nil_iff.1 (List.map_eq_nil_iff.1 h))
  · intro row hrow
    obtain ⟨⟨d, i⟩, hd, rfl⟩ := List.mem_map.1 hrow
    have hd := List.fst_mem_of_mem_zipIdx hd
    exact ⟨rfl, pending_iff_newDeliveries hd, fun _ => Nat.zero_le 2⟩
  · rw [List.map_map]
    have hnumbers : (List.range' ((db.deliveries.map Row.id).foldl max 0 + 1)
        (newDeliveries at_ channels hold).length).Nodup :=
      List.nodup_range'
    rwa [← List.zipIdx_map_snd] at hnumbers
  · intro row hrow old hold
    obtain ⟨⟨d, i⟩, hd, rfl⟩ := List.mem_map.1 hrow
    have hi := List.le_snd_of_mem_zipIdx hd
    have hmax := le_foldl_max (db.deliveries.map Row.id) 0 old.id
      (List.mem_cons_of_mem _ (List.mem_map_of_mem hold))
    exact lt_of_le_of_lt hmax (Nat.lt_of_succ_le hi)

theorem Db.Sound.insert (h : db.Sound) (at_ : Int) (channels : List String) (hold : Option Hold) :
    (db.insertAlert at_ channels hold).Sound := by
  obtain ⟨id, added, halerts, hrows, hne, hadded, hids, hfresh⟩ :=
    insertAlert_deliveries db at_ channels hold
  constructor
  · intro a ha
    rw [halerts] at ha
    rw [hrows]
    rcases List.mem_append.1 ha with ha | ha
    · obtain ⟨row, hrow, halert⟩ := h.delivered a ha
      exact ⟨row, List.mem_append_left _ hrow, halert⟩
    · obtain ⟨row, hrow⟩ := List.exists_mem_of_ne_nil added hne
      refine ⟨row, List.mem_append_right _ hrow, ?_⟩
      rw [(hadded row hrow).1, List.mem_singleton.1 ha]
  · intro row hrow
    rw [hrows] at hrow
    rw [halerts]
    rcases List.mem_append.1 hrow with hrow | hrow
    · exact List.mem_append_left _ (h.known row hrow)
    · rw [(hadded row hrow).1]
      exact List.mem_append_right _ (List.mem_singleton_self id)
  · rw [hrows, List.map_append]
    refine List.nodup_append.2 ⟨h.ids, hids, ?_⟩
    intro i hi j hj
    obtain ⟨old, hold, rfl⟩ := List.mem_map.1 hi
    obtain ⟨row, hrow, rfl⟩ := List.mem_map.1 hj
    exact (hfresh row hrow old hold).ne
  · intro row hrow
    rw [hrows] at hrow
    rcases List.mem_append.1 hrow with hrow | hrow
    · exact h.rows row hrow
    · exact (hadded row hrow).2

theorem Db.Sound.round (h : db.Sound) (r : Round) : (db.round r).Sound := by
  obtain ⟨after, hrows, houtcome⟩ := round_outcome h.ids r
  obtain ⟨_, -, -, -, halerts⟩ := commit_eq db ((db.writes r).take r.committed)
  have halerts : (db.round r).alerts = db.alerts := halerts
  constructor
  · intro a ha
    rw [halerts] at ha
    obtain ⟨row, hrow, halert⟩ := h.delivered a ha
    rw [hrows]
    exact ⟨after row, List.mem_map_of_mem hrow, (houtcome row hrow).same.2.1.trans halert⟩
  · intro row' hrow'
    rw [hrows] at hrow'
    obtain ⟨row, hrow, rfl⟩ := List.mem_map.1 hrow'
    rw [halerts, (houtcome row hrow).same.2.1]
    exact h.known row hrow
  · have hsame : db.deliveries.map (Row.id ∘ after) = db.deliveries.map Row.id :=
      List.map_congr_left fun row hrow => (houtcome row hrow).same.1
    rw [hrows, List.map_map, hsame]
    exact h.ids
  · intro row' hrow'
    rw [hrows] at hrow'
    obtain ⟨row, hrow, rfl⟩ := List.mem_map.1 hrow'
    exact (houtcome row hrow).sound (h.rows row hrow)

theorem Db.Sound.step (h : db.Sound) (s : Step) : (db.step s).Sound := by
  cases s with
  | insert at_ channels hold => exact h.insert at_ channels hold
  | round r => exact h.round r

theorem Db.Sound.run (h : db.Sound) (steps : List Step) : (db.run steps).Sound := by
  induction steps generalizing db with
  | nil => exact h
  | cons s steps ih => exact ih (h.step s)

/-- A delivery that is not pending stays as it is. -/
theorem mem_step (h : db.Sound) (hrow : row ∈ db.deliveries) (hstatus : row.status ≠ .pending)
    (s : Step) : row ∈ (db.step s).deliveries := by
  cases s with
  | insert at_ channels hold =>
      obtain ⟨id, added, -, hrows, -⟩ := insertAlert_deliveries db at_ channels hold
      rw [Db.step, hrows]
      exact List.mem_append_left _ hrow
  | round r =>
      obtain ⟨after, hrows, houtcome⟩ := round_outcome h.ids r
      rw [Db.step, hrows]
      have hsame := (houtcome row hrow).eq_of_not_pending hstatus
      exact List.mem_map.2 ⟨row, hrow, hsame⟩

theorem mem_run (h : db.Sound) (hrow : row ∈ db.deliveries) (hstatus : row.status ≠ .pending)
    (steps : List Step) : row ∈ (db.run steps).deliveries := by
  induction steps generalizing db with
  | nil => exact hrow
  | cons s steps ih => exact ih (h.step s) (mem_step h hrow hstatus s)

/-! ### One round -/

/-- The table of pauses has an entry wherever it is read. -/
theorem failedMark_ne_none {items : List Row} {error : Option String} {at_ : Int} {attempts : Nat}
    (hitem : ∃ item ∈ items, item.attempts + 1 = attempts) :
    failedMark items error at_ attempts ≠ none := by
  obtain ⟨item, -, rfl⟩ := hitem
  rw [failedMark]
  split
  · exact Option.some_ne_none _
  · rename_i hmore
    have hlt : item.attempts + 1 - 1 < backoff.length := by
      simp only [attemptsMax, backoff, List.length_cons, List.length_nil] at hmore ⊢
      omega
    rw [List.getElem?_eq_getElem hlt]
    exact Option.some_ne_none _

/-- A round meets no exception. -/
theorem none_not_mem_writes (h : db.Sound) (r : Round) : none ∉ db.writes r := by
  intro hnone
  obtain ⟨turn, hturn, hnone⟩ := List.mem_flatMap.1 hnone
  obtain ⟨channel, -, rfl⟩ := List.mem_map.1 hturn
  rw [Db.turn] at hnone
  split at hnone
  · exact absurd (List.mem_singleton.1 hnone) nofun
  split at hnone
  · exact List.not_mem_nil hnone
  split at hnone
  · rename_i hknown
    exact hknown fun row hrow => h.known row (mem_due (mem_items.1 hrow).1).1
  simp only [record] at hnone
  split at hnone
  · rcases List.mem_cons.1 hnone with hnone | hnone
    · exact absurd hnone nofun
    · exact absurd (List.mem_singleton.1 hnone) nofun
  · rcases List.mem_append.1 hnone with hnone | hnone
    · obtain ⟨attempts, hattempts, hnone⟩ := List.mem_map.1 hnone
      exact failedMark_ne_none (List.mem_map.1 (List.mem_eraseDups.1 hattempts)) hnone
    · exact absurd (List.mem_singleton.1 hnone) nofun

/-- A message is about the due deliveries of an enabled channel that does not rest. -/
theorem mem_messages {ids : List Nat} (h : ids ∈ db.messages r) :
    ∃ channel ∈ db.dueChannels r.now, ids = (db.items r.now channel).map Row.id ∧
      channel ∈ r.channels.enabled ∧ db.rests channel r.now = false ∧
      (db.turn r channel (db.items r.now channel)).writes =
        record channel (db.items r.now channel) (r.answers channel) r.now
          (((db.channelState channel).map ChannelState.consecutiveFailures).getD 0) := by
  obtain ⟨turn, hturn, hmessage⟩ := List.mem_filterMap.1 h
  obtain ⟨channel, hchannel, rfl⟩ := List.mem_map.1 hturn
  refine ⟨channel, hchannel, ?_⟩
  rw [Db.turn] at hmessage ⊢
  split at hmessage
  · exact absurd hmessage nofun
  rename_i hin
  split at hmessage
  · exact absurd hmessage nofun
  rename_i hrests
  split at hmessage
  · exact absurd hmessage nofun
  rename_i hknown
  rw [if_neg hin, if_neg hrests, if_neg hknown]
  exact ⟨(Option.some.inj hmessage).symm, not_not.1 hin, Bool.eq_false_of_not_eq_true hrests, rfl⟩

/-- A delivery of a message is due. -/
theorem due_of_message {ids : List Nat} (h : db.Sound) (hids : ids ∈ db.messages r)
    (hrow : row ∈ db.deliveries) (hmem : row.id ∈ ids) :
    row ∈ db.due r.now ∧ row.channel ∈ r.channels.enabled ∧ db.rests row.channel r.now = false := by
  obtain ⟨channel, -, rfl, hin, hrests, -⟩ := mem_messages hids
  obtain ⟨item, hitem, hid⟩ := List.mem_map.1 hmem
  obtain ⟨hdue, rfl⟩ := mem_items.1 hitem
  obtain rfl := eq_of_id h.ids hrow (mem_due hdue).1 hid
  exact ⟨hdue, hin, hrests⟩

/-- In a round that is not stopped, a transaction that touches a delivery decides what becomes of
it. -/
theorem mem_round_of_touches {w : Write} (h : db.Sound) (hcomplete : db.Completes r)
    (hrow : row ∈ db.deliveries) (hw : some w ∈ db.writes r) (htouches : w.Touches row) :
    Write.row row w ∈ (db.round r).deliveries := by
  obtain ⟨ws, -, hall, hrows, -⟩ := commit_eq db ((db.writes r).take r.committed)
  rw [List.take_of_length_le hcomplete] at hall
  obtain rfl := hall (none_not_mem_writes h r)
  have honce : ((db.writes r).filterMap id).Pairwise
      fun v w => Write.Touches v row → ¬ Write.Touches w row := by
    refine List.pairwise_filterMap.2 ((onceAt_writes h.ids hrow).imp ?_)
    exact fun hvw a ha b hb => hvw a ha b hb
  have hedit := Tables.foldl_edit_of_mem Write.row_of_not_touches Write.touches_row honce
    (List.mem_filterMap.2 ⟨_, hw, rfl⟩) htouches
  rw [Db.round, hrows]
  exact List.mem_map.2 ⟨row, hrow, hedit⟩

/-- The third attempt of a delivery failed, in a round that is not stopped. -/
theorem third_failure_final {ids : List Nat} (h : db.Sound) (hcomplete : db.Completes r)
    (hids : ids ∈ db.messages r) (hrow : row ∈ db.deliveries) (hmem : row.id ∈ ids)
    (hattempts : row.attempts = 2) (hok : (r.answers row.channel).ok = false) :
    { row with status := Status.failed, attempts := 3, nextAttemptAt := none,
               lastError := (r.answers row.channel).error } ∈ (db.round r).deliveries := by
  obtain ⟨channel, hchannel, rfl, -, -, hwrites⟩ := mem_messages hids
  obtain ⟨item, hitem, hid⟩ := List.mem_map.1 hmem
  obtain ⟨hdue, hsame⟩ := mem_items.1 hitem
  have heq : item = row := eq_of_id h.ids hrow (mem_due hdue).1 hid
  subst heq
  subst hsame
  -- the group of the deliveries that failed for the third time
  let group := (db.items r.now item.channel).filter fun row => decide (row.attempts + 1 = 3)
  let m : Mark := ⟨group.map Row.id, .failed, 1, none, none, (r.answers item.channel).error⟩
  have hm : failedMark (db.items r.now item.channel) (r.answers item.channel).error r.now 3 =
      some (.mark m) := by
    rw [failedMark]
    exact if_pos (Nat.le_refl attemptsMax)
  have htouches : m.Touches item := by
    refine List.mem_map_of_mem (List.mem_filter.2 ⟨hitem, decide_eq_true ?_⟩)
    rw [hattempts]
  have hw : some (Write.mark m) ∈ db.writes r := by
    refine List.mem_flatMap.2 ⟨_, List.mem_map.2 ⟨_, hchannel, rfl⟩, ?_⟩
    rw [hwrites, record, if_neg (by rw [hok]; exact Bool.false_ne_true), ← hm]
    refine List.mem_append_left _ (List.mem_map_of_mem (List.mem_eraseDups.2 ?_))
    exact List.mem_map.2 ⟨item, hitem, by rw [hattempts]⟩
  have hround := mem_round_of_touches h hcomplete hrow hw htouches
  rw [Write.row, row_of_touches htouches, hattempts] at hround
  exact hround

/-- What holds of a round. -/
structure RoundSound (db : Db) (r : Round) : Prop where
  /-- No exception, so the table of pauses is read within its bounds. -/
  inBounds : none ∉ db.writes r
  /-- A failed third attempt makes the delivery final. -/
  third : ∀ ids ∈ db.messages r, ∀ row ∈ db.deliveries, row.id ∈ ids → row.attempts = 2 →
    (r.answers row.channel).ok = false → ∀ row' ∈ (db.round r).deliveries, row'.id = row.id →
      (row'.status = .failed ∧ row'.attempts = 3 ∧ row'.nextAttemptAt = none) ∨
        (¬ db.Completes r ∧ row' = row)
  /-- A channel that rests or is not enabled costs no attempt, and no message is about it. -/
  free : ∀ row ∈ db.deliveries,
    row.channel ∉ r.channels.enabled ∨ db.rests row.channel r.now = true →
      (∀ ids ∈ db.messages r, row.id ∉ ids) ∧
        ∀ row' ∈ (db.round r).deliveries, row'.id = row.id → row'.attempts = row.attempts
  /-- No message is about a delivery that was sent. -/
  once : ∀ row ∈ db.deliveries, row.status = .sent → ∀ ids ∈ db.messages r, row.id ∉ ids

/-- A delivery after a round is what the round made of the one with its id. -/
theorem outcome_of_id (h : db.Sound) (hrow : row ∈ db.deliveries) {row' : Row}
    (hrow' : row' ∈ (db.round r).deliveries) (hid : row'.id = row.id) : Outcome db r row row' := by
  obtain ⟨after, hrows, houtcome⟩ := round_outcome h.ids r
  rw [hrows] at hrow'
  obtain ⟨old, hold, rfl⟩ := List.mem_map.1 hrow'
  have heq : old = row :=
    eq_of_id h.ids hrow hold ((houtcome old hold).same.1.symm.trans hid)
  subst heq
  exact houtcome old hold

theorem Db.Sound.roundSound (h : db.Sound) (r : Round) : RoundSound db r := by
  refine ⟨none_not_mem_writes h r, ?_, ?_, ?_⟩
  · intro ids hids row hrow hmem hattempts hok row' hrow' hid
    by_cases hcomplete : db.Completes r
    · have hfinal := third_failure_final h hcomplete hids hrow hmem hattempts hok
      obtain rfl := eq_of_id (h.round r).ids hrow' hfinal hid.symm
      exact Or.inl ⟨rfl, rfl, rfl⟩
    · obtain ⟨hdue, hin, hrests⟩ := due_of_message h hids hrow hmem
      cases outcome_of_id h hrow hrow' hid with
      | kept => exact Or.inr ⟨hcomplete, rfl⟩
      | disabled _ hout => exact absurd hin hout
      | sent _ _ _ hsent =>
          rw [hok] at hsent
          exact absurd hsent Bool.false_ne_true
      | failed => exact Or.inl ⟨rfl, congrArg (· + 1) hattempts, rfl⟩
      | retried _ _ _ _ hmore =>
          rw [hattempts] at hmore
          exact absurd hmore (Nat.lt_irrefl 3)
  · intro row hrow hfree
    refine ⟨fun ids hids hmem => ?_, fun row' hrow' hid => ?_⟩
    · obtain ⟨-, hin, hrests⟩ := due_of_message h hids hrow hmem
      rcases hfree with hout | hrest
      · exact hout hin
      · rw [hrests] at hrest
        exact Bool.false_ne_true hrest
    · exact (outcome_of_id h hrow hrow' hid).attempts_eq hfree
  · intro row hrow hsent ids hids hmem
    obtain ⟨hdue, -⟩ := due_of_message h hids hrow hmem
    exact absurd ((mem_due hdue).2.symm.trans hsent) nofun

end Runs

/-- Three attempts fail, at first, after one minute and after five more. -/
example :
    let failing (now : Int) : Step := .round ⟨now, ⟨false, true, false, false, false⟩,
      fun _ => ⟨false, some "status=500"⟩, 10⟩
    ((Db.new 0 fun _ => none).run [.insert 0 ["line"] none, failing 0, failing (seconds 30),
      failing (minutes 1), failing (minutes 6)]).deliveries =
      [⟨1, 1, "line", .failed, 3, none, none, some "status=500"⟩] := by
  decide +kernel

end IllumioOps.AlertDispatch
