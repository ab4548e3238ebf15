import Mathlib.Data.List.Basic
import Mathlib.Data.List.Infix

/-!
# The TCP and TLS syslog transports

`SyslogTCPTransport` and `SyslogTLSTransport` share one discipline over one
socket: `send` looks whether the peer closed the connection, connects when there
is none, and reconnects once when its first write fails; `finish_batch` closes
the connection gracefully and so confirms what was written on it.

The sockets are an input: every call carries what they answer during it. The
line keeps the record of what happened on the connections, which are numbered in
the order they are opened. `confirms_iff_unbroken` says exactly when a normal
`finish_batch` confirms every payload of its batch.
-/

set_option autoImplicit false

namespace IllumioOps.Siem

/-! ## `_stream.py` -/

/-- How messages are separated on the stream. -/
inductive Framing where
  | lf
  | octetCounting
  deriving DecidableEq, Repr

/-- `frame_payload`: the bytes of one message on the stream. -/
def framePayload (payload : String) : Framing → List UInt8
  | .lf => payload.toUTF8.toList ++ [10]
  | .octetCounting =>
      (toString payload.toUTF8.size).toUTF8.toList ++ [32] ++ payload.toUTF8.toList

/-- How a series of reads ends. -/
inductive ReadEnd where
  | eof
  | wouldBlock
  | failed
  deriving DecidableEq, Repr

/-- What a connection answers to `peer_closed`: the select, the bytes the TLS layer
holds (none on TCP), the chunks read before the reads end, and how they end. -/
structure Peek where
  selectFails : Bool
  readable : Bool
  pending : Nat
  chunks : Nat
  readEnd : ReadEnd
  deriving DecidableEq, Repr

/-- The read loop of `peer_closed`: whether the peer turns out to have closed. -/
def readsToEnd : Nat → ReadEnd → Bool
  | n + 1, last => readsToEnd n last
  | 0, .eof => true
  | 0, .wouldBlock => false
  | 0, .failed => true

/-- `peer_closed` -/
def peerClosed (peek : Peek) : Bool :=
  if peek.selectFails then true
  else if !peek.readable && peek.pending == 0 then false
  else readsToEnd peek.chunks peek.readEnd

/-- How the reads after the shutdown end: at the linger's deadline, at a read that
times out, at the peer's end of file, or with an error. -/
inductive LingerEnd where
  | lingerOver
  | timeout
  | eof
  | failed
  deriving DecidableEq, Repr

/-- What a connection answers to `graceful_close`. -/
structure Closing where
  shutdownFails : Bool
  chunks : Nat
  lingerEnd : LingerEnd
  deriving DecidableEq, Repr

/-- The read loop of `graceful_close`: whether it ends without an error. -/
def lingers : Nat → LingerEnd → Bool
  | n + 1, last => lingers n last
  | 0, .failed => false
  | 0, _ => true

/-- `graceful_close`: whether it completes without an error. -/
def gracefulClose (closing : Closing) : Bool :=
  if closing.shutdownFails then false else lingers closing.chunks closing.lingerEnd

/-! ## The line -/

/-- What happens on the connections: a payload written whole by one call of `send`, a
connection dropped by `_drop_socket`, closed gracefully, or reset while closing. -/
inductive Wire where
  | wrote (connection call : Nat) (data : List UInt8)
  | dropped (connection : Nat)
  | closed (connection : Nat)
  | reset (connection : Nat)
  deriving DecidableEq, Repr

/-- A transport (`_framing`, `_sock`) with the connections opened so far and the record
of what happened on them. -/
structure Line where
  framing : Framing
  sock : Option Nat
  opened : Nat
  wire : List Wire
  deriving DecidableEq, Repr

/-- What the sockets answer during one `send`: the look at the connection, the connect
when there is none, the first write, the reconnect after it failed and the second
write. -/
structure Sockets where
  peek : Peek
  connects : Bool
  writes : Bool
  reconnects : Bool
  rewrites : Bool
  deriving DecidableEq, Repr

/-- The connection found by a `send` serves it: its peer has not closed it and it takes
the write. -/
def Sockets.keeps (b : Sockets) : Bool := !peerClosed b.peek && b.writes

namespace Line

/-- `_connect`: the new connection is published only when the connect succeeds. -/
def connect (l : Line) (succeeds : Bool) : Line × Option Nat :=
  if succeeds then ({ l with sock := some l.opened, opened := l.opened + 1 }, some l.opened)
  else (l, none)

/-- `_drop_socket` -/
def dropSocket (l : Line) : Line :=
  match l.sock with
  | some c => { l with sock := none, wire := l.wire ++ [.dropped c] }
  | none => l

/-- A `sendall` that returns. -/
def sendall (l : Line) (c call : Nat) (data : List UInt8) : Line :=
  { l with wire := l.wire ++ [.wrote c call data] }

/-- The look at the connection at the start of `send`. -/
def lookAt (l : Line) (peek : Peek) : Line :=
  if l.sock.isSome && peerClosed peek then l.dropSocket else l

/-- `self._sock or self._connect()` -/
def sockOrConnect (l : Line) (succeeds : Bool) : Line × Option Nat :=
  match l.sock with
  | some c => (l, some c)
  | none => l.connect succeeds

/-- `send`: the line afterwards, and whether the call returns. -/
def send (l : Line) (call : Nat) (payload : String) (b : Sockets) : Line × Bool :=
  let data := framePayload payload l.framing
  match (l.lookAt b.peek).sockOrConnect b.connects with
  | (l, none) => (l, false)
  | (l, some c) =>
      if b.writes then (l.sendall c call data, true)
      else
        match l.dropSocket.connect b.reconnects with
        | (l, none) => (l, false)
        | (l, some c) =>
            -- the second write is not guarded: when it fails, the connection stays set
            if b.rewrites then (l.sendall c call data, true) else (l, false)

/-- `finish_batch`: the line afterwards, and whether the call returns. -/
def finishBatch (l : Line) (b : Closing) : Line × Bool :=
  match l.sock with
  | none => (l, true)
  | some c =>
      if gracefulClose b then ({ l with sock := none, wire := l.wire ++ [.closed c] }, true)
      else ({ l with sock := none, wire := l.wire ++ [.reset c] }, false)

end Line

/-! ## Runs -/

/-- One call on a transport, with the behaviour of the sockets during it. -/
inductive Call where
  | send (payload : String) (b : Sockets)
  | finishBatch (b : Closing)

/-- Whether the call is a `send`. -/
def Call.isSend : Call → Bool
  | .send _ _ => true
  | .finishBatch _ => false

/-- A transport in use: its line, the number of calls made, and the sends that returned
since the last `finish_batch`, with their payloads. -/
structure Session where
  line : Line
  calls : Nat
  owed : List (Nat × String)

namespace Session

/-- A new transport: no connection yet. -/
def start (framing : Framing) : Session := ⟨⟨framing, none, 0, []⟩, 0, []⟩

/-- One call. -/
def step (s : Session) : Call → Session
  | .send payload b =>
      let r := s.line.send s.calls payload b
      ⟨r.1, s.calls + 1, if r.2 then s.owed ++ [(s.calls, payload)] else s.owed⟩
  | .finishBatch b => ⟨(s.line.finishBatch b).1, s.calls + 1, []⟩

/-- A sequence of calls. -/
def run (s : Session) (calls : List Call) : Session := calls.foldl step s

/-- The send is confirmed: its payload was written whole on a connection on which a
graceful close then completed. -/
def Confirmed (l : Line) (send : Nat × String) : Prop :=
  ∃ c before after, l.wire = before ++ Wire.closed c :: after ∧
    Wire.wrote c send.1 (framePayload send.2 l.framing) ∈ before

/-- When `finish_batch` returns normally here, every send that returned since the
previous one is confirmed. -/
def Confirms (s : Session) (b : Closing) : Prop :=
  (s.line.finishBatch b).2 = true → ∀ send ∈ s.owed, Confirmed (s.line.finishBatch b).1 send

end Session

/-! ## What the record of a line holds -/

/-- The connection an entry of the record is about. -/
def Wire.connection : Wire → Nat
  | .wrote c _ _ => c
  | .dropped c => c
  | .closed c => c
  | .reset c => c

namespace Line

/-- The record of a line only names connections that were opened; the connection in use is
open; a connection is dropped or closed, never both. -/
structure Sound (l : Line) : Prop where
  known : ∀ w ∈ l.wire, w.connection < l.opened
  inUse : ∀ c, l.sock = some c → c < l.opened ∧ Wire.dropped c ∉ l.wire ∧ Wire.closed c ∉ l.wire
  once : ∀ c, Wire.dropped c ∈ l.wire → Wire.closed c ∉ l.wire

theorem Sound.sendall {l : Line} (h : l.Sound) {c : Nat} (hc : l.sock = some c) (call : Nat)
    (data : List UInt8) : (l.sendall c call data).Sound := by
  refine ⟨?_, ?_, ?_⟩
  · intro w hw
    rcases List.mem_append.1 hw with hw | hw
    · exact h.known w hw
    · rw [List.mem_singleton.1 hw]
      exact (h.inUse c hc).1
  · intro d hd
    obtain ⟨hlt, hdropped, hclosed⟩ := h.inUse d hd
    exact ⟨hlt, by simpa [Line.sendall] using hdropped, by simpa [Line.sendall] using hclosed⟩
  · intro d hd
    have hold : Wire.dropped d ∈ l.wire := by simpa [Line.sendall] using hd
    simpa [Line.sendall] using h.once d hold

theorem Sound.dropSocket {l : Line} (h : l.Sound) : l.dropSocket.Sound := by
  cases hs : l.sock with
  | none =>
      rw [show l.dropSocket = l by simp only [Line.dropSocket, hs]]
      exact h
  | some c =>
      obtain ⟨hlt, hdropped, hclosed⟩ := h.inUse c hs
      rw [show l.dropSocket = { l with sock := none, wire := l.wire ++ [.dropped c] } by
        simp only [Line.dropSocket, hs]]
      refine ⟨?_, ?_, ?_⟩
      · intro w hw
        rcases List.mem_append.1 hw with hw | hw
        · exact h.known w hw
        · rw [List.mem_singleton.1 hw]
          exact hlt
      · intro d hd
        exact absurd hd (by simp)
      · intro d hd
        rcases List.mem_append.1 hd with hd | hd
        · simpa using h.once d hd
        · -- the entry just added: the connection in use was not closed before
          have hdc : d = c := by simpa using hd
          subst hdc
          simpa using hclosed

theorem Sound.connect {l : Line} (h : l.Sound) (succeeds : Bool) : (l.connect succeeds).1.Sound := by
  cases succeeds with
  | false => exact h
  | true =>
      refine ⟨?_, ?_, h.once⟩
      · intro w hw
        exact Nat.lt_succ_of_lt (h.known w hw)
      · -- the new connection's number is above every number in the record
        intro d hd
        have hd : l.opened = d := by simpa [Line.connect] using hd
        subst hd
        refine ⟨Nat.lt_succ_self _, ?_, ?_⟩
        · intro hw
          exact Nat.lt_irrefl _ (h.known _ hw)
        · intro hw
          exact Nat.lt_irrefl _ (h.known _ hw)

theorem Sound.finishBatch {l : Line} (h : l.Sound) (b : Closing) : (l.finishBatch b).1.Sound := by
  cases hs : l.sock with
  | none => simpa only [Line.finishBatch, hs] using h
  | some c =>
      obtain ⟨hlt, hdropped, hclosed⟩ := h.inUse c hs
      simp only [Line.finishBatch, hs]
      split
      · refine ⟨?_, ?_, ?_⟩
        · intro w hw
          rcases List.mem_append.1 hw with hw | hw
          · exact h.known w hw
          · rw [List.mem_singleton.1 hw]
            exact hlt
        · intro d hd
          exact absurd hd (by simp)
        · intro d hd hclosed'
          have hold : Wire.dropped d ∈ l.wire := by simpa using hd
          rcases List.mem_append.1 hclosed' with hc | hc
          · exact h.once d hold hc
          · have hdc : d = c := by simpa using hc
            subst hdc
            exact hdropped hold
      · refine ⟨?_, ?_, ?_⟩
        · intro w hw
          rcases List.mem_append.1 hw with hw | hw
          · exact h.known w hw
          · rw [List.mem_singleton.1 hw]
            exact hlt
        · intro d hd
          exact absurd hd (by simp)
        · intro d hd
          have hold : Wire.dropped d ∈ l.wire := by simpa using hd
          simpa using h.once d hold

theorem connect_sock {l : Line} {succeeds : Bool} {c : Nat}
    (h : (l.connect succeeds).2 = some c) : (l.connect succeeds).1.sock = some c := by
  cases succeeds with
  | false => exact absurd h (by simp [Line.connect])
  | true => exact h

theorem sockOrConnect_sock {l : Line} {succeeds : Bool} {c : Nat}
    (h : (l.sockOrConnect succeeds).2 = some c) :
    (l.sockOrConnect succeeds).1.sock = some c := by
  cases hs : l.sock with
  | none =>
      simp only [Line.sockOrConnect, hs] at h ⊢
      exact connect_sock h
  | some d =>
      simp only [Line.sockOrConnect, hs] at h ⊢
      exact h

/-- A line reached without a write: the record grew, but holds no further write. -/
structure Reaches (l l₁ : Line) : Prop where
  sound : l.Sound → l₁.Sound
  framing : l₁.framing = l.framing
  grows : ∀ w ∈ l.wire, w ∈ l₁.wire
  unwritten : ∀ c n data, Wire.wrote c n data ∈ l₁.wire → Wire.wrote c n data ∈ l.wire

theorem Reaches.refl (l : Line) : Reaches l l := ⟨id, rfl, fun _ h => h, fun _ _ _ h => h⟩

theorem Reaches.trans {l l₁ l₂ : Line} (h : Reaches l l₁) (h₁ : Reaches l₁ l₂) : Reaches l l₂ :=
  ⟨fun hl => h₁.sound (h.sound hl), h₁.framing.trans h.framing,
    fun w hw => h₁.grows w (h.grows w hw),
    fun c n data hw => h.unwritten c n data (h₁.unwritten c n data hw)⟩

theorem reaches_dropSocket (l : Line) : Reaches l l.dropSocket := by
  cases hs : l.sock with
  | none =>
      rw [show l.dropSocket = l by simp only [Line.dropSocket, hs]]
      exact Reaches.refl l
  | some c =>
      refine ⟨Sound.dropSocket, ?_, ?_, ?_⟩
      · simp only [Line.dropSocket, hs]
      · intro w hw
        simp only [Line.dropSocket, hs]
        exact List.mem_append_left _ hw
      · intro d n data hw
        simpa [Line.dropSocket, hs] using hw

theorem reaches_connect (l : Line) (succeeds : Bool) : Reaches l (l.connect succeeds).1 := by
  refine ⟨fun h => h.connect succeeds, ?_, ?_, ?_⟩ <;> cases succeeds
  · rfl
  · rfl
  · exact fun _ h => h
  · exact fun _ h => h
  · exact fun _ _ _ h => h
  · exact fun _ _ _ h => h

theorem reaches_lookAt (l : Line) (peek : Peek) : Reaches l (l.lookAt peek) := by
  rw [Line.lookAt]
  split
  · exact reaches_dropSocket l
  · exact Reaches.refl l

theorem reaches_sockOrConnect (l : Line) (succeeds : Bool) :
    Reaches l (l.sockOrConnect succeeds).1 := by
  cases hs : l.sock with
  | none => simpa only [Line.sockOrConnect, hs] using reaches_connect l succeeds
  | some c => simpa only [Line.sockOrConnect, hs] using Reaches.refl l

theorem dropped_mem_dropSocket {l : Line} {c : Nat} (h : l.sock = some c) :
    Wire.dropped c ∈ l.dropSocket.wire := by
  simp [Line.dropSocket, h]

/-! ## What one call does -/

/-- One `send` reaches a line without a write; when the call returns, it then wrote its
payload whole on the connection in use there. -/
theorem send_cases (l : Line) (call : Nat) (payload : String) (b : Sockets) :
    ∃ l₁, Reaches l l₁ ∧ (l.send call payload b = (l₁, false) ∨
      ∃ c, l₁.sock = some c ∧
        l.send call payload b = (l₁.sendall c call (framePayload payload l.framing), true)) := by
  have hm : Reaches l ((l.lookAt b.peek).sockOrConnect b.connects).1 :=
    (reaches_lookAt l b.peek).trans (reaches_sockOrConnect _ _)
  rw [Line.send]
  rcases hfound : (l.lookAt b.peek).sockOrConnect b.connects with ⟨m, _ | c⟩
  · rw [hfound] at hm
    exact ⟨m, hm, Or.inl rfl⟩
  · have hc : m.sock = some c := by
      have := sockOrConnect_sock (congrArg Prod.snd hfound)
      rwa [hfound] at this
    rw [hfound] at hm
    simp only
    cases b.writes with
    | true => exact ⟨m, hm, Or.inr ⟨c, hc, rfl⟩⟩
    | false =>
        -- the first write failed: the connection is dropped and one more is tried
        have hr : Reaches l (m.dropSocket.connect b.reconnects).1 :=
          (hm.trans (reaches_dropSocket m)).trans (reaches_connect _ _)
        simp only [Bool.false_eq_true, if_false]
        rcases hagain : m.dropSocket.connect b.reconnects with ⟨m', _ | c'⟩
        · rw [hagain] at hr
          exact ⟨m', hr, Or.inl rfl⟩
        · have hc' : m'.sock = some c' := by
            have := connect_sock (congrArg Prod.snd hagain)
            rwa [hagain] at this
          rw [hagain] at hr
          simp only
          cases b.rewrites with
          | true => exact ⟨m', hr, Or.inr ⟨c', hc', rfl⟩⟩
          | false => exact ⟨m', hr, Or.inl rfl⟩

/-- A `send` only adds to the record. -/
theorem mem_wire_send {l : Line} {w : Wire} (h : w ∈ l.wire) (call : Nat) (payload : String)
    (b : Sockets) : w ∈ (l.send call payload b).1.wire := by
  obtain ⟨l₁, hr, hsend | ⟨c, -, hsend⟩⟩ := l.send_cases call payload b <;> rw [hsend]
  · exact hr.grows w h
  · exact List.mem_append_left _ (hr.grows w h)

/-- A connection that serves the call is the one its payload is written on. -/
theorem send_of_keeps {l : Line} {c : Nat} (hc : l.sock = some c) (call : Nat) (payload : String)
    {b : Sockets} (hb : b.keeps = true) :
    l.send call payload b = (l.sendall c call (framePayload payload l.framing), true) := by
  obtain ⟨hpeer, hwrites⟩ := Bool.and_eq_true_iff.1 hb
  have hopen : peerClosed b.peek = false := by simpa using hpeer
  simp only [Line.send, Line.lookAt, hopen, Bool.and_false, Bool.false_eq_true, if_false,
    Line.sockOrConnect, hc, hwrites, if_true]

/-- A connection that does not serve the call is dropped during it. -/
theorem dropped_of_not_keeps {l : Line} {c : Nat} (hc : l.sock = some c) (call : Nat)
    (payload : String) {b : Sockets} (hb : b.keeps = false) :
    Wire.dropped c ∈ (l.send call payload b).1.wire := by
  rw [Line.send]
  cases hclosed : peerClosed b.peek with
  | true =>
      have hlook : l.lookAt b.peek = l.dropSocket := by
        simp only [Line.lookAt, hc, hclosed, Option.isSome_some, Bool.and_self, if_true]
      have hm := (reaches_sockOrConnect l.dropSocket b.connects).grows _ (dropped_mem_dropSocket hc)
      rw [hlook]
      rcases hfound : l.dropSocket.sockOrConnect b.connects with ⟨m, _ | d⟩
      · rw [hfound] at hm
        exact hm
      · rw [hfound] at hm
        simp only
        split
        · exact List.mem_append_left _ hm
        · have hr := (reaches_connect m.dropSocket b.reconnects).grows _
            ((reaches_dropSocket m).grows _ hm)
          rcases hagain : m.dropSocket.connect b.reconnects with ⟨m', _ | e⟩
          · rw [hagain] at hr
            exact hr
          · rw [hagain] at hr
            simp only
            split
            · exact List.mem_append_left _ hr
            · exact hr
  | false =>
      have hwrites : b.writes = false := by simpa [Sockets.keeps, hclosed] using hb
      simp only [Line.lookAt, hclosed, Bool.and_false, Bool.false_eq_true, if_false,
        Line.sockOrConnect, hc, hwrites]
      have hr := (reaches_connect l.dropSocket b.reconnects).grows _ (dropped_mem_dropSocket hc)
      rcases hagain : l.dropSocket.connect b.reconnects with ⟨m', _ | e⟩
      · rw [hagain] at hr
        exact hr
      · rw [hagain] at hr
        simp only
        split
        · exact List.mem_append_left _ hr
        · exact hr

/-- After `finish_batch` no connection is in use. -/
@[simp] theorem finishBatch_sock (l : Line) (b : Closing) : (l.finishBatch b).1.sock = none := by
  cases hs : l.sock with
  | none => simp only [Line.finishBatch, hs]
  | some c =>
      simp only [Line.finishBatch, hs]
      split <;> rfl

theorem finishBatch_framing (l : Line) (b : Closing) :
    (l.finishBatch b).1.framing = l.framing := by
  cases hs : l.sock with
  | none => simp only [Line.finishBatch, hs]
  | some c =>
      simp only [Line.finishBatch, hs]
      split <;> rfl

theorem wrote_mem_finishBatch {l : Line} {b : Closing} {c n : Nat} {data : List UInt8} :
    Wire.wrote c n data ∈ (l.finishBatch b).1.wire ↔ Wire.wrote c n data ∈ l.wire := by
  cases hs : l.sock with
  | none => simp only [Line.finishBatch, hs]
  | some d =>
      simp only [Line.finishBatch, hs]
      split <;> simp

theorem dropped_mem_finishBatch {l : Line} {b : Closing} {c : Nat} :
    Wire.dropped c ∈ (l.finishBatch b).1.wire ↔ Wire.dropped c ∈ l.wire := by
  cases hs : l.sock with
  | none => simp only [Line.finishBatch, hs]
  | some d =>
      simp only [Line.finishBatch, hs]
      split <;> simp

/-- `finish_batch` raises exactly when a connection is in use whose graceful close fails. -/
theorem finishBatch_raises {l : Line} {b : Closing} :
    (l.finishBatch b).2 = false ↔ l.sock.isSome ∧ gracefulClose b = false := by
  cases hs : l.sock with
  | none => simp only [Line.finishBatch, hs]; simp
  | some c =>
      simp only [Line.finishBatch, hs]
      cases hclose : gracefulClose b <;> simp

end Line

/-! ## What holds in every run -/

namespace Session

/-- The record of a session: its line is sound, calls are numbered in order, and one
`send` writes its payload whole on one connection at most. -/
structure Inv (s : Session) : Prop where
  sound : s.line.Sound
  before : ∀ c n data, Wire.wrote c n data ∈ s.line.wire → n < s.calls
  single : ∀ c c' n data data', Wire.wrote c n data ∈ s.line.wire →
    Wire.wrote c' n data' ∈ s.line.wire → c = c'

theorem inv_start (framing : Framing) : (start framing).Inv :=
  ⟨⟨fun _ h => absurd h List.not_mem_nil, fun _ h => absurd h (by simp [start]),
    fun _ h => absurd h List.not_mem_nil⟩, fun _ _ _ h => absurd h List.not_mem_nil,
    fun _ _ _ _ _ h => absurd h List.not_mem_nil⟩

theorem inv_step {s : Session} (h : s.Inv) (call : Call) : (s.step call).Inv := by
  cases call with
  | send payload b =>
      obtain ⟨l₁, hr, hsend | ⟨c, hc, hsend⟩⟩ := s.line.send_cases s.calls payload b
      · simp only [step, hsend]
        refine ⟨hr.sound h.sound, ?_, ?_⟩
        · intro d n data hw
          exact Nat.lt_succ_of_lt (h.before d n data (hr.unwritten d n data hw))
        · intro d d' n data data' hw hw'
          exact h.single d d' n data data' (hr.unwritten _ _ _ hw) (hr.unwritten _ _ _ hw')
      · simp only [step, hsend]
        -- a write of the record is an earlier one, or the one of this call
        have hwrote : ∀ d n data, Wire.wrote d n data ∈ (l₁.sendall c s.calls
            (framePayload payload s.line.framing)).wire →
            Wire.wrote d n data ∈ s.line.wire ∨ (d = c ∧ n = s.calls) := by
          intro d n data hw
          rcases List.mem_append.1 hw with hw | hw
          · exact Or.inl (hr.unwritten d n data hw)
          · have := List.mem_singleton.1 hw
            injection this with hd hn
            exact Or.inr ⟨hd, hn⟩
        refine ⟨(hr.sound h.sound).sendall hc _ _, ?_, ?_⟩
        · intro d n data hw
          rcases hwrote d n data hw with hw | ⟨-, rfl⟩
          · exact Nat.lt_succ_of_lt (h.before d n data hw)
          · exact Nat.lt_succ_self _
        · intro d d' n data data' hw hw'
          rcases hwrote d n data hw with hw | ⟨hd, hn⟩ <;>
            rcases hwrote d' n data' hw' with hw' | ⟨hd', hn'⟩
          · exact h.single d d' n data data' hw hw'
          · exact absurd (hn' ▸ h.before d n data hw) (Nat.lt_irrefl _)
          · exact absurd (hn ▸ h.before d' n data' hw') (Nat.lt_irrefl _)
          · exact hd.trans hd'.symm
  | finishBatch b =>
      refine ⟨h.sound.finishBatch b, ?_, ?_⟩
      · intro c n data hw
        exact Nat.lt_succ_of_lt (h.before c n data (Line.wrote_mem_finishBatch.1 hw))
      · intro c c' n data data' hw hw'
        exact h.single c c' n data data' (Line.wrote_mem_finishBatch.1 hw)
          (Line.wrote_mem_finishBatch.1 hw')

theorem run_append (s : Session) (calls calls' : List Call) :
    s.run (calls ++ calls') = (s.run calls).run calls' :=
  List.foldl_append

theorem inv_run {s : Session} (h : s.Inv) (calls : List Call) : (s.run calls).Inv := by
  induction calls generalizing s with
  | nil => exact h
  | cons call calls ih => exact ih (inv_step h call)

theorem step_framing (s : Session) (call : Call) :
    (s.step call).line.framing = s.line.framing := by
  cases call with
  | send payload b =>
      obtain ⟨l₁, hr, hsend | ⟨c, -, hsend⟩⟩ := s.line.send_cases s.calls payload b <;>
        simp only [step, hsend]
      · exact hr.framing
      · exact hr.framing
  | finishBatch b => exact Line.finishBatch_framing _ _

/-! ## Payloads still on the connection in use, and payloads lost -/

/-- Every payload owed was written whole on the connection in use. -/
def Kept (s : Session) : Prop :=
  ∀ send ∈ s.owed, ∃ c, s.line.sock = some c ∧
    Wire.wrote c send.1 (framePayload send.2 s.line.framing) ∈ s.line.wire

/-- Some payload owed was written on a connection that was dropped since. -/
def Lost (s : Session) : Prop :=
  ∃ send ∈ s.owed, ∃ c, Wire.wrote c send.1 (framePayload send.2 s.line.framing) ∈ s.line.wire ∧
    Wire.dropped c ∈ s.line.wire

/-- A further `send` keeps the payloads when nothing is owed or the connection serves it. -/
theorem kept_send {s : Session} (h : s.Kept) (payload : String) {b : Sockets}
    (hb : s.owed ≠ [] → b.keeps = true) : (s.step (.send payload b)).Kept := by
  by_cases howed : s.owed = []
  · -- nothing is owed: only this call's payload can be, on the connection it was written on
    obtain ⟨l₁, hr, hsend | ⟨c, hc, hsend⟩⟩ := s.line.send_cases s.calls payload b
    · simp only [Kept, step, hsend, howed, Bool.false_eq_true, if_false]
      intro send hmem
      exact absurd hmem List.not_mem_nil
    · simp only [Kept, step, hsend, howed, if_true, List.nil_append, List.mem_singleton]
      rintro send rfl
      refine ⟨c, hc, ?_⟩
      rw [show (l₁.sendall c s.calls (framePayload payload s.line.framing)).framing =
        s.line.framing from hr.framing]
      exact List.mem_append_right _ (List.mem_singleton.2 rfl)
  · -- something is owed: its connection is in use, serves this call too and stays
    obtain ⟨first, hfirst⟩ := List.exists_mem_of_ne_nil _ howed
    obtain ⟨c, hc, -⟩ := h first hfirst
    simp only [Kept, step, Line.send_of_keeps hc s.calls payload (hb howed), if_true]
    intro send hmem
    rcases List.mem_append.1 hmem with hmem | hmem
    · obtain ⟨d, hd, hw⟩ := h send hmem
      exact ⟨d, hd, List.mem_append_left _ hw⟩
    · rw [List.mem_singleton.1 hmem]
      exact ⟨c, hc, List.mem_append_right _ (List.mem_singleton.2 rfl)⟩

/-- One more `send` does not bring a lost payload back. -/
theorem lost_send {s : Session} (h : s.Lost) (payload : String) (b : Sockets) :
    (s.step (.send payload b)).Lost := by
  obtain ⟨send, hmem, c, hw, hd⟩ := h
  refine ⟨send, ?_, c, ?_, Line.mem_wire_send hd _ _ _⟩
  · simp only [step]
    split
    · exact List.mem_append_left _ hmem
    · exact hmem
  · rw [step_framing]
    exact Line.mem_wire_send hw _ _ _

/-- A `send` that drops the connection of a payload owed loses it. -/
theorem lost_of_break {s : Session} (h : s.Kept) (howed : s.owed ≠ []) (payload : String)
    {b : Sockets} (hb : b.keeps = false) : (s.step (.send payload b)).Lost := by
  obtain ⟨first, hfirst⟩ := List.exists_mem_of_ne_nil _ howed
  obtain ⟨c, hc, hw⟩ := h first hfirst
  have hdropped := Line.dropped_of_not_keeps hc s.calls payload hb
  refine ⟨first, ?_, c, ?_, hdropped⟩
  · simp only [step]
    split
    · exact List.mem_append_left _ hfirst
    · exact hfirst
  · rw [step_framing]
    exact Line.mem_wire_send hw _ _ _

/-- With every payload on the connection in use, a normal `finish_batch` confirms them. -/
theorem confirms_of_kept {s : Session} (h : s.Kept) (b : Closing) : s.Confirms b := by
  intro hreturns send hmem
  obtain ⟨c, hc, hw⟩ := h send hmem
  have hclose : gracefulClose b = true := by
    by_contra hfails
    have hraises := Line.finishBatch_raises.2
      ⟨Option.isSome_iff_exists.2 ⟨c, hc⟩, Bool.eq_false_iff.2 hfails⟩
    exact Bool.false_ne_true (hraises.symm.trans hreturns)
  refine ⟨c, s.line.wire, [], ?_, ?_⟩
  · simp only [Line.finishBatch, hc, hclose, if_true]
  · rwa [Line.finishBatch_framing]

/-- With a payload lost, `finish_batch` does not confirm all unless it raises. -/
theorem not_confirms_of_lost {s : Session} (hinv : s.Inv) (h : s.Lost) {b : Closing}
    (hreturns : (s.line.finishBatch b).2 = true) : ¬ s.Confirms b := by
  intro hconfirms
  obtain ⟨send, hmem, c, hw, hd⟩ := h
  obtain ⟨c', before, after, hwire, hw'⟩ := hconfirms hreturns send hmem
  have hclosed : Wire.closed c' ∈ (s.line.finishBatch b).1.wire := by
    rw [hwire]
    exact List.mem_append_right _ List.mem_cons_self
  have hwrote : Wire.wrote c' send.1 (framePayload send.2 s.line.framing) ∈ s.line.wire := by
    rw [Line.finishBatch_framing] at hw'
    apply (Line.wrote_mem_finishBatch (b := b)).1
    rw [hwire]
    exact List.mem_append_left _ hw'
  -- the payload has one connection, which was dropped, so it was never closed
  have hcc := hinv.single c c' _ _ _ hw hwrote
  subst hcc
  exact (hinv.sound.finishBatch b).once c (Line.dropped_mem_finishBatch.2 hd) hclosed

/-! ## When a batch is unbroken -/

/-- Since the last `finish_batch` of the calls, the connection served every `send` made
while a payload was owed. -/
def Unbroken (framing : Framing) (calls : List Call) : Prop :=
  ∀ earlier payload b later, calls = earlier ++ .send payload b :: later →
    (∀ call ∈ later, call.isSend = true) → ((start framing).run earlier).owed ≠ [] →
    b.keeps = true

theorem unbroken_append_send {framing : Framing} {calls : List Call} {payload : String}
    {b : Sockets} : Unbroken framing (calls ++ [.send payload b]) ↔
      Unbroken framing calls ∧ (((start framing).run calls).owed ≠ [] → b.keeps = true) := by
  constructor
  · intro h
    refine ⟨?_, fun howed => h calls payload b [] rfl (by simp) howed⟩
    intro earlier payload' b' later hsplit hsends howed
    refine h earlier payload' b' (later ++ [.send payload b]) ?_ ?_ howed
    · simp [hsplit]
    · intro call hcall
      rcases List.mem_append.1 hcall with hcall | hcall
      · exact hsends call hcall
      · rw [List.mem_singleton.1 hcall]
        rfl
  · rintro ⟨hcalls, hlast⟩ earlier payload' b' later hsplit hsends howed
    rcases List.eq_nil_or_concat later with rfl | ⟨later, last, rfl⟩
    · obtain ⟨rfl, hcall⟩ := List.append_inj' hsplit rfl
      injection (List.cons.inj hcall).1 with _ hb
      exact hb ▸ hlast howed
    · have hsplit : calls ++ [.send payload b] = (earlier ++ .send payload' b' :: later) ++ [last] := by
        simpa using hsplit
      obtain ⟨rfl, -⟩ := List.append_inj' hsplit rfl
      exact hcalls earlier payload' b' later rfl
        (fun call hcall => hsends call (by simp [hcall])) howed

theorem unbroken_append_finish {framing : Framing} {calls : List Call} {b : Closing} :
    Unbroken framing (calls ++ [.finishBatch b]) := by
  intro earlier payload b' later hsplit hsends
  rcases List.eq_nil_or_concat later with rfl | ⟨later, last, rfl⟩
  · obtain ⟨-, hcall⟩ := List.append_inj' hsplit rfl
    exact absurd (List.cons.inj hcall).1 (by simp)
  · have hsplit : calls ++ [.finishBatch b] = (earlier ++ .send payload b' :: later) ++ [last] := by
      simpa using hsplit
    obtain ⟨-, hcall⟩ := List.append_inj' hsplit rfl
    have hlast := hsends last (by simp)
    rw [← (List.cons.inj hcall).1] at hlast
    exact absurd hlast (by simp [Call.isSend])

/-- In every run the payloads owed are on the connection in use while the batch is
unbroken, and one of them is lost once it is not. -/
theorem kept_or_lost (framing : Framing) (calls : List Call) :
    (Unbroken framing calls → ((start framing).run calls).Kept) ∧
      (¬ Unbroken framing calls → ((start framing).run calls).Lost) := by
  induction calls using List.reverseRecOn with
  | nil =>
      refine ⟨fun _ send hmem => absurd hmem List.not_mem_nil, fun h => absurd ?_ h⟩
      intro earlier payload b later hsplit
      exact absurd hsplit (by simp)
  | append_singleton calls call ih =>
      obtain ⟨hkept, hlost⟩ := ih
      rw [run_append]
      cases call with
      | send payload b =>
          rw [unbroken_append_send]
          refine ⟨fun h => kept_send (hkept h.1) payload h.2, fun h => ?_⟩
          by_cases hcalls : Unbroken framing calls
          · -- unbroken up to here: this call is the one that drops the connection
            have hbreaks : ¬ (((start framing).run calls).owed ≠ [] → b.keeps = true) :=
              fun hb => h ⟨hcalls, hb⟩
            rw [Classical.not_imp] at hbreaks
            exact lost_of_break (hkept hcalls) hbreaks.1 payload (Bool.eq_false_iff.2 hbreaks.2)
          · exact lost_send (hlost hcalls) payload b
      | finishBatch b =>
          refine ⟨fun _ send hmem => absurd hmem List.not_mem_nil, fun h => ?_⟩
          exact absurd unbroken_append_finish h

/-- In a run, every normal `finish_batch` confirms every payload of a `send` that
returned since the previous one exactly when, at each `finish_batch`, a connection is in
use whose graceful close fails, or the batch is unbroken. -/
theorem confirms_iff_unbroken (framing : Framing) (calls : List Call) :
    (∀ before b after, calls = before ++ .finishBatch b :: after →
        ((start framing).run before).Confirms b) ↔
      ∀ before b after, calls = before ++ .finishBatch b :: after →
        (((start framing).run before).line.sock.isSome ∧ gracefulClose b = false) ∨
          Unbroken framing before := by
  constructor
  · intro h before b after hsplit
    by_contra hneither
    obtain ⟨hreturns, hbroken⟩ := not_or.1 hneither
    have hreturns : (((start framing).run before).line.finishBatch b).2 = true := by
      by_contra hraises
      exact hreturns (Line.finishBatch_raises.1 (Bool.eq_false_iff.2 hraises))
    exact not_confirms_of_lost (inv_run (inv_start framing) before)
      ((kept_or_lost framing before).2 hbroken) hreturns (h before b after hsplit)
  · intro h before b after hsplit
    rcases h before b after hsplit with hraises | hunbroken
    · intro hreturns
      exact absurd (hreturns.symm.trans (Line.finishBatch_raises.2 hraises)) (by simp)
    · exact confirms_of_kept ((kept_or_lost framing before).1 hunbroken) b

/-- A peer that takes the connect and the writes and has closed nothing. -/
def calm : Sockets := ⟨⟨false, false, 0, 0, .wouldBlock⟩, true, true, true, true⟩

/-- The peer has closed the connection in use; a new one is taken. -/
def restarted : Sockets := ⟨⟨false, true, 0, 0, .eof⟩, true, true, true, true⟩

/-- A peer that reads everything and closes in turn. -/
def closesWell : Closing := ⟨false, 0, .eof⟩

/-- Two messages, the peer restarting between them: the batch finishes normally, although
the first message was written on the connection that was dropped. -/
theorem unconfirmed_after_restart :
    ¬ ∀ framing calls before b after, calls = before ++ Call.finishBatch b :: after →
      ((start framing).run before).Confirms b := by
  intro h
  have hlost : ((start .lf).run [.send "a" calm, .send "b" restarted]).Lost := by
    refine lost_of_break (s := (start .lf).run [.send "a" calm]) ?_ ?_ "b" (by decide)
    · exact kept_send (fun send hmem => absurd hmem List.not_mem_nil) "a" (fun _ => by decide)
    · simp [run, step, start, calm, Line.send, Line.lookAt, Line.sockOrConnect, Line.connect]
  refine not_confirms_of_lost (inv_run (inv_start .lf) _) hlost (b := closesWell) ?_
    (h .lf _ _ closesWell [] rfl)
  simp [run, step, start, calm, restarted, closesWell, Line.send, Line.lookAt,
    Line.sockOrConnect, Line.connect, Line.sendall, Line.dropSocket, Line.finishBatch, peerClosed,
    readsToEnd, gracefulClose, lingers]

end Session

end IllumioOps.Siem
