import BaseNx.Tcp.SendBuffered

/-!
# Incoming segments

`tcp_input` for a segment that belongs to a connection, with the callbacks it runs. What the rest of
the system decides (whether a listener takes the connection, which handlers are registered on the
connection, how much read-ahead buffering is left) is the argument `app` of `tcpInput`.

The function is cut at the steps of the source: the length of the payload, the keep-alive block, the
sequence check, the acknowledgement block and one function for each state of the state machine.
-/

namespace BaseNx.Tcp

open Lib

/-- A handler in the list of a connection: the send handler, a `recvfrom` that waits with `buflen`
bytes of room, and a close in progress (with `SO_LINGER` or without, and whether its time is up). -/
inductive Handler
  | send
  | recv (buflen : Nat)
  | close (linger timeout : Bool)

/-- What `tcp_input` finds in the rest of the system. -/
structure App where
  /-- `tcp_accept_connection` succeeds. -/
  accepts : Bool
  /-- The callbacks of the connection, in the order of its list. -/
  handlers : List Handler
  /-- Whether read-ahead buffers for so many bytes can be had. -/
  readahead : Nat → Bool
  /-- `psock_send_addrchck`. -/
  addrchck : Bool
  /-- `clock_systimer`. -/
  now : Nat
  /-- `TCP_MSS` of the device. -/
  tcpMss : Nat

/-- The build options that `tcp_input` depends on. -/
structure Config where
  /-- `CONFIG_NET_TCP_KEEPALIVE`. -/
  keepalive : Bool
  /-- `CONFIG_NET_TCPURGDATA`. -/
  urgdata : Bool

/-- The connection and the device while the callbacks of an incoming segment run. -/
structure Cb where
  conn : Conn
  flags : Events
  /-- `d_len`. -/
  dLen : Nat
  /-- Where `d_appdata` points in the buffer behind the fixed part of the header. -/
  appdata : Nat
  /-- The bytes that were handed to a receiver or queued for reading ahead. -/
  delivered : List UInt8
  /-- The data handed to the device; `d_sndlen` is its length. -/
  sndData : List UInt8
  released : List Wrb
  freed : Bool

/-! ## Callbacks -/

/-- The `uint8_t` after the addition of a `signed char`. -/
def addChar (x : Nat) (m : Int) : Nat := ((x + m) % 256).toNat

/-- `tcp_free`. -/
def tcpFree (s : Cb) : Cb :=
  { s with
    conn := { s.conn.setState .closed with writeQ := [], unackedQ := [] }
    released := s.released ++ s.conn.writeQ ++ s.conn.unackedQ
    freed := true }

variable (app : App) (seg : Segment) (s : Cb)

/-- `inet_tcp_eventhandler` on new data: what does not fit the buffer of the receiver goes to the
read-ahead queue, and is lost when there is no room in it. -/
def inetTcpEventhandler (buflen : Nat) (s : Cb) : Cb :=
  if s.flags.newdata then
    let recvlen := min s.dLen buflen
    let nsaved :=
      if recvlen < s.dLen ∧ app.readahead (s.dLen - recvlen) = true then s.dLen - recvlen
      else 0
    { s with
      delivered := s.delivered ++ slice seg.body s.appdata (recvlen + nsaved)
      dLen := 0
      flags := { s.flags with newdata := false, sndack := true } }
  else s

/-- `tcp_close_eventhandler`. -/
def tcpCloseEventhandler (linger timeout : Bool) (s : Cb) : Cb :=
  if s.flags.disconn then
    if linger then { s with flags := {} } else { tcpFree s with flags := {} }
  else if linger && timeout then { s with flags := {} }
  else if s.conn.unacked ≠ 0 ∨ s.conn.writeQ ≠ [] then
    { s with dLen := 0, flags := { s.flags with newdata := false } }
  else { s with dLen := 0, flags := { s.flags with newdata := false, close := true } }

/-- One handler of the list. -/
def Handler.run : Handler → Cb
  | .send =>
    let r := psockSendEventhandler (s.sndData ≠ []) app.addrchck (tcpGetsequence seg.ackno) s.flags
      s.conn
    { s with
      conn := r.conn
      flags := r.flags
      sndData := if s.sndData ≠ [] then s.sndData else r.appdata
      released := s.released ++ r.released }
  | .recv buflen => inetTcpEventhandler app seg buflen s
  | .close linger timeout => tcpCloseEventhandler linger timeout s

/-- `devif_conn_event`: the handlers in turn, as long as flags are left. -/
def devifConnEvent (app : App) (seg : Segment) : List Handler → Cb → Cb
  | [], s => s
  | h :: hs, s => if s.flags.any then devifConnEvent app seg hs (h.run app seg s) else s

/-- `tcp_data_event`: new data that no receiver took. -/
def tcpDataEvent : Cb :=
  let flags := { s.flags with newdata := false, sndack := true }
  if s.dLen > 0 then
    if app.readahead s.dLen then
      { s with
        delivered := s.delivered ++ slice seg.body s.appdata s.dLen, dLen := 0, flags := flags }
    else { s with dLen := 0, flags := { flags with sndack := false } }
  else { s with dLen := 0, flags := flags }

/-- `tcp_callback`. The handlers for connection events only tell the socket about them and are left
out. -/
def tcpCallback : Cb :=
  let s := devifConnEvent app seg app.handlers s
  if s.flags.newdata then tcpDataEvent app seg s else s

/-! ## Responses -/

/-- What `tcp_input` does with a segment: the new connection, the packet it leaves to be sent, the
bytes it handed on, whether it accepted a FIN, the write buffers it released and whether it freed
the connection. -/
structure Outcome where
  conn : Conn
  reply : Reply
  delivered : List UInt8 := []
  finAccepted : Bool := false
  released : List Wrb := []
  freed : Bool := false

variable (c : Conn) (seg : Segment)

/-- `tcp_send` (and `tcp_ack`): the header carries the numbers of the connection. -/
def tcpSend (ctl : Ctl) (data : List UInt8) : Reply := .send ctl c.sndseq c.rcvseq data

/-- `tcp_reset` at the label `reset`: a reset is not answered. -/
def resetReply (seg : Segment) : Reply := if seg.ctl.rst then .none else .reset

/-- The result of the callbacks, with a reply. -/
def Cb.outcome (s : Cb) (reply : Reply) : Outcome :=
  { conn := s.conn, reply := reply, delivered := s.delivered, released := s.released
    freed := s.freed }

/-- `tcp_rexmit`. -/
def tcpRexmit (s : Cb) : Outcome :=
  if s.sndData ≠ [] then s.outcome (tcpSend s.conn { ack := true, psh := true } s.sndData)
  else if s.flags.sndack then s.outcome (tcpSend s.conn { ack := true } [])
  else s.outcome .none

/-- `tcp_appsend`. -/
def tcpAppsend (s : Cb) : Outcome :=
  if s.flags.netdevDown then { s.outcome .none with conn := s.conn.setState .closed }
  else if s.flags.abort then
    let c := s.conn.setState .closed
    { s.outcome (tcpSend c { rst := true, ack := true } []) with conn := c }
  else if s.flags.close then
    let c := { s.conn.setState .finWait1 with unacked := 1, nrtx := 0 }
    { s.outcome (tcpSend c { fin := true, ack := true } []) with conn := c }
  else tcpRexmit s

/-! ## The blocks before the state machine -/

/-- `d_len` after the headers are taken off; a `uint16_t`. -/
def segLen (seg : Segment) : Nat := sub16 seg.dLen (seg.tcpoffset * 4 + seg.iplen)

/-- The bytes that are skipped as urgent data; with `CONFIG_NET_TCPURGDATA`, `d_urglen`, which is
cut to `d_len`. -/
def urgLen (cfg : Config) (seg : Segment) : Nat :=
  if seg.ctl.urg then if cfg.urgdata then min seg.urgp (segLen seg) else seg.urgp else 0

/-- `(flags & TCP_CTL) == TCP_SYN`. -/
def Ctl.onlySyn (ctl : Ctl) : Bool := ctl = { syn := true }

/-- `(flags & TCP_CTL) == (TCP_SYN | TCP_ACK)`. -/
def Ctl.onlySynAck (ctl : Ctl) : Bool := ctl = { syn := true, ack := true }

/-- The test of the keep-alive block. -/
def keepaliveProbe (cfg : Config) (c : Conn) (seg : Segment) : Bool :=
  cfg.keepalive && seg.ctl.ack && !(seg.ctl.syn || seg.ctl.fin || seg.ctl.rst) &&
    c.state = .established && (segLen seg = 0 || segLen seg = 1) && c.unacked = 0 &&
    tcpGetsequence seg.seqno < tcpGetsequence c.rcvseq

/-- The sequence check: the segment has data, a SYN or a FIN and does not start at `rcvseq`. -/
def outOfSequence : Bool :=
  !(c.state = .synSent && seg.ctl.onlySynAck || c.state = .synRcvd && seg.ctl.onlySyn) &&
    (segLen seg > 0 || seg.ctl.syn || seg.ctl.fin) && seg.seqno ≠ c.rcvseq

/-- The estimation of the round-trip time; `m` is a `signed char`. -/
def rttEstimate : Conn :=
  if c.nrtx = 0 then
    let m := i8 ((c.rto : Int) - c.timer)
    let m := i8 (m - (c.sa / 8 : Nat))
    let sa := addChar c.sa m
    let m := if m < 0 then i8 (-m) else m
    let m := i8 (m - (c.sv / 4 : Nat))
    let sv := addChar c.sv m
    { c with sa := sa, sv := sv, rto := u8 (sa / 8 + sv) }
  else c

/-- The acknowledgement block: `none` when the connection is to be reset, else the connection and
whether `TCP_ACKDATA` was set. -/
def processAck : Option (Conn × Bool) :=
  if seg.ctl.ack ∧ c.unacked > 0 then
    let unackseq := c.sndseqMax
    let ackseq := tcpGetsequence seg.ackno
    if unackseq < ackseq ∧ c.state = .established then none
    else
      let c := { c with
        unacked := if ackseq ≤ unackseq then unackseq - ackseq else c.unacked
        sndseq := tcpSetsequence ackseq }
      let c := rttEstimate c
      some ({ c with timer := c.rto }, true)
  else some (c, false)

/-- The MSS option among the options of a SYN; every round of the loop moves on by at least one
byte, so that the length of the options bounds the rounds. -/
def parseMss (body : Nat → UInt8) (optlen : Nat) : Nat → Nat → Option Nat
  | 0, _ => none
  | fuel + 1, i =>
    if i < optlen then
      let opt := (body i).toNat
      let len := (body (i + 1)).toNat
      if opt = 0 then none
      else if opt = 1 then parseMss body optlen fuel (i + 1)
      else if opt = 2 ∧ len = 4 then
        some ((body (i + 2)).toNat * 2 ^ 8 + (body (i + 3)).toNat)
      else if len = 0 then none
      else parseMss body optlen fuel (i + len)
    else none

/-- The MSS that the peer announces, at most that of the device. -/
def segmentMss : Option Nat :=
  let optlen := (seg.tcpoffset - 5) * 4
  (parseMss seg.body optlen optlen 0).map fun mss => if mss > app.tcpMss then app.tcpMss else mss

/-! ## The state machine -/

/-- The callbacks start with the connection, the flags and the payload of the segment. -/
def startCb (flags : Events) (dLen appdata : Nat) : Cb :=
  { conn := c, flags := flags, dLen := dLen, appdata := appdata, delivered := [], sndData := []
    released := [], freed := false }

section Machine

variable (cfg : Config) (app : App) (c : Conn) (seg : Segment) (ackdata : Bool)

/-- `TCP_SYN_RCVD`. -/
def inputSynRcvd : Outcome :=
  if ackdata then
    if app.accepts then
      let c := { c.setState .established with
        isn := tcpGetsequence seg.ackno
        sndseq := tcpSetsequence (tcpGetsequence seg.ackno)
        sent := 0
        sndseqMax := 0
        unacked := 0
        rcvseq := if segLen seg > 0 then netIncr32 c.rcvseq (segLen seg) else c.rcvseq }
      tcpAppsend (tcpCallback app seg
        (startCb c { connected := true, newdata := segLen seg > 0 } (segLen seg) 0))
    else
      let s := tcpFree (startCb (c.setState .established) {} (segLen seg) 0)
      s.outcome (resetReply seg)
  else if seg.ctl.onlySyn then { conn := c, reply := tcpSend c { syn := true, ack := true } [] }
  else { conn := c, reply := .none }

/-- `TCP_SYN_SENT`. -/
def inputSynSent : Outcome :=
  if ackdata && seg.ctl.onlySynAck then
    let c := { c.setState .established with
      mss := (segmentMss app seg).getD c.mss
      rcvseq := netIncr32 seg.seqno 1
      unacked := 0
      isn := tcpGetsequence seg.ackno
      sndseq := tcpSetsequence (tcpGetsequence seg.ackno) }
    tcpAppsend (tcpCallback app seg (startCb c { connected := true, newdata := true } 0 0))
  else
    let s := tcpCallback app seg (startCb c { abort := true } (segLen seg) 0)
    { s.outcome (resetReply seg) with conn := s.conn.setState .closed }

/-- `TCP_ESTABLISHED` with a FIN. -/
def inputFin : Outcome :=
  let c := { c with rcvseq := netIncr32 c.rcvseq (segLen seg + 1) }
  let s := tcpCallback app seg
    (startCb c { ackdata := ackdata, close := true, newdata := segLen seg > 0 } (segLen seg) 0)
  let c := { s.conn.setState .lastAck with unacked := 1, nrtx := 0 }
  { s.outcome (tcpSend c { fin := true, ack := true } []) with conn := c, finAccepted := true }

/-- The connection that the callbacks leave, with the data counted when an acknowledgement is
due. -/
def countData (s : Cb) (n : Nat) : Cb :=
  { s with conn := if s.flags.sndack then { s.conn with rcvseq := netIncr32 s.conn.rcvseq n }
      else s.conn }

/-- `TCP_ESTABLISHED` without one. Urgent data is skipped, and counted with `CONFIG_NET_TCPURGDATA`
(no handler looks at `d_urgdata`). -/
def inputData : Outcome :=
  let urglen := urgLen cfg seg
  let dLen := sub16 (segLen seg) urglen
  let c := if cfg.urgdata && seg.ctl.urg then { c with rcvseq := netIncr32 c.rcvseq urglen } else c
  let c := if cfg.keepalive && c.keepalive && (dLen > 0 || seg.ctl.ack) then
      { c with keeptime := app.now, keepretries := 0 }
    else c
  let newdata := dLen > 0 && !c.stopped
  if newdata || ackdata then
    let s := tcpCallback app seg
      (startCb c { ackdata := ackdata, newdata := newdata } dLen urglen)
    tcpAppsend (countData s dLen)
  else { conn := c, reply := .none }

/-- `TCP_ESTABLISHED`. -/
def inputEstablished : Outcome :=
  if seg.ctl.fin && !c.stopped then inputFin app c seg ackdata
  else inputData cfg app c seg ackdata

/-- `TCP_LAST_ACK`. -/
def inputLastAck : Outcome :=
  if ackdata then
    (tcpCallback app seg (startCb (c.setState .closed) { close := true } (segLen seg) 0)).outcome
      .none
  else { conn := c, reply := .none }

/-- The answer to a FIN in `TCP_FIN_WAIT_1` and `TCP_FIN_WAIT_2`. -/
def finWaitFin : Outcome :=
  let c := { c with rcvseq := netIncr32 c.rcvseq 1 }
  let s := tcpCallback app seg (startCb c { close := true } (segLen seg) 0)
  { s.outcome (tcpSend s.conn { ack := true } []) with finAccepted := true }

/-- The payload that arrives in `TCP_FIN_WAIT_1` and `TCP_FIN_WAIT_2` is counted and dropped. -/
def finWaitData : Conn :=
  if segLen seg > 0 then { c with rcvseq := netIncr32 c.rcvseq (segLen seg) } else c

/-- `TCP_FIN_WAIT_1`. -/
def inputFinWait1 : Outcome :=
  let c := finWaitData c seg
  if seg.ctl.fin then
    if ackdata then finWaitFin app { c.setState .timeWait with timer := 0, unacked := 0 } seg
    else finWaitFin app (c.setState .closing) seg
  else if ackdata then { conn := { c.setState .finWait2 with unacked := 0 }, reply := .none }
  else if segLen seg > 0 then { conn := c, reply := tcpSend c { ack := true } [] }
  else { conn := c, reply := .none }

/-- `TCP_FIN_WAIT_2`. -/
def inputFinWait2 : Outcome :=
  let c := finWaitData c seg
  if seg.ctl.fin then finWaitFin app { c.setState .timeWait with timer := 0 } seg
  else if segLen seg > 0 then { conn := c, reply := tcpSend c { ack := true } [] }
  else { conn := c, reply := .none }

/-- The switch over the state. -/
def stateMachine : Outcome :=
  match c.state with
  | .synRcvd => inputSynRcvd app c seg ackdata
  | .synSent => inputSynSent app c seg ackdata
  | .established => inputEstablished cfg app c seg ackdata
  | .lastAck => inputLastAck app c seg ackdata
  | .finWait1 => inputFinWait1 app c seg ackdata
  | .finWait2 => inputFinWait2 app c seg
  | .timeWait => { conn := c, reply := tcpSend c { ack := true } [] }
  | .closing =>
    { conn := if ackdata then { c.setState .timeWait with timer := 0 } else c, reply := .none }
  | .closed | .allocated => { conn := c, reply := .none }

/-- A reset from the peer. -/
def inputRst : Outcome :=
  if c.state = .synRcvd then (tcpFree (startCb (c.setState .closed) {} seg.dLen 0)).outcome .none
  else
    (tcpCallback app seg (startCb (c.setState .closed) { abort := true } seg.dLen 0)).outcome .none

/-- `tcp_input` from the label `found` on, behind the test for a SYN. -/
def inputFound : Outcome :=
  let c := c.setWindow seg.wnd
  if seg.ctl.rst then inputRst app c seg
  else if keepaliveProbe cfg c seg then
    let c := if segLen seg > 0 then { c with rcvseq := netIncr32 c.rcvseq (segLen seg) } else c
    { conn := c, reply := tcpSend c { ack := true } [] }
  else if outOfSequence c seg then { conn := c, reply := tcpSend c { ack := true } [] }
  else
    match processAck c seg with
    | none => { conn := c, reply := resetReply seg }
    | some (c, ackdata) => stateMachine cfg app c seg ackdata

/-- `tcp_input` for a segment with a correct checksum that belongs to the connection. -/
def tcpInput : Outcome :=
  if c.state ≠ .synRcvd ∧ seg.ctl.onlySyn then { conn := c, reply := resetReply seg }
  else inputFound cfg app c seg

end Machine

/-! ## What the callbacks and the acknowledgement block keep -/

/-- Callbacks leave the receive side and the `isn` of the connection alone; they may free it. -/
structure Cb.Keeps (s s' : Cb) : Prop where
  rcvseq : s'.conn.rcvseq = s.conn.rcvseq
  isn : s'.conn.isn = s.conn.isn
  state : s'.conn.state = s.conn.state ∨ s'.conn.state = .closed

theorem Cb.Keeps.refl (s : Cb) : s.Keeps s := ⟨rfl, rfl, .inl rfl⟩

theorem Cb.Keeps.trans {s s' s'' : Cb} (h : s.Keeps s') (h' : s'.Keeps s'') : s.Keeps s'' := by
  refine ⟨h'.rcvseq.trans h.rcvseq, h'.isn.trans h.isn, ?_⟩
  rcases h'.state with heq | hclosed
  · exact heq ▸ h.state
  · exact .inr hclosed

variable (app : App) (seg : Segment) (s : Cb)

theorem inetTcpEventhandler_keeps (buflen : Nat) (s : Cb) :
    s.Keeps (inetTcpEventhandler app seg buflen s) := by
  simp only [inetTcpEventhandler]
  split <;> exact ⟨rfl, rfl, .inl rfl⟩

theorem tcpCloseEventhandler_keeps (linger timeout : Bool) (s : Cb) :
    s.Keeps (tcpCloseEventhandler linger timeout s) := by
  simp only [tcpCloseEventhandler]
  split
  · split
    · exact ⟨rfl, rfl, .inl rfl⟩
    · exact ⟨rfl, rfl, .inr rfl⟩
  · split
    · exact ⟨rfl, rfl, .inl rfl⟩
    · split <;> exact ⟨rfl, rfl, .inl rfl⟩

theorem Handler.run_keeps (h : Handler) : s.Keeps (h.run app seg s) := by
  cases h with
  | send =>
    have hsame := psockSendEventhandler_same (s.sndData ≠ []) app.addrchck
      (tcpGetsequence seg.ackno) s.flags s.conn
    exact ⟨hsame.rcvseq, hsame.isn, .inl hsame.state⟩
  | recv buflen => exact inetTcpEventhandler_keeps app seg buflen s
  | close linger timeout => exact tcpCloseEventhandler_keeps linger timeout s

theorem devifConnEvent_keeps (hs : List Handler) :
    ∀ s : Cb, s.Keeps (devifConnEvent app seg hs s) := by
  induction hs with
  | nil => exact .refl
  | cons h hs ih =>
    intro s
    simp only [devifConnEvent]
    split
    · exact (h.run_keeps app seg s).trans (ih _)
    · exact .refl s

theorem tcpDataEvent_keeps : s.Keeps (tcpDataEvent app seg s) := by
  simp only [tcpDataEvent]
  split
  · split <;> exact ⟨rfl, rfl, .inl rfl⟩
  · exact ⟨rfl, rfl, .inl rfl⟩

theorem tcpCallback_keeps : s.Keeps (tcpCallback app seg s) := by
  simp only [tcpCallback]
  split
  · exact (devifConnEvent_keeps app seg _ s).trans (tcpDataEvent_keeps app seg _)
  · exact devifConnEvent_keeps app seg _ s

theorem tcpRexmit_conn (s : Cb) : (tcpRexmit s).conn = s.conn := by
  simp only [tcpRexmit]
  split
  · rfl
  · split <;> rfl

theorem tcpAppsend_state (s : Cb) :
    (tcpAppsend s).conn.state = s.conn.state ∨ (tcpAppsend s).conn.state = .closed ∨
      (tcpAppsend s).conn.state = .finWait1 := by
  simp only [tcpAppsend]
  split
  · exact .inr (.inl rfl)
  · split
    · exact .inr (.inl rfl)
    · split
      · exact .inr (.inr rfl)
      · exact .inl (congrArg Conn.state (tcpRexmit_conn s))

theorem tcpAppsend_rcvseq (s : Cb) : (tcpAppsend s).conn.rcvseq = s.conn.rcvseq := by
  simp only [tcpAppsend]
  split
  · rfl
  · split
    · rfl
    · split
      · rfl
      · exact congrArg Conn.rcvseq (tcpRexmit_conn s)

theorem rttEstimate_same (c : Conn) : SameReceiver c (rttEstimate c) := by
  simp only [rttEstimate]
  split <;> exact ⟨rfl, rfl, rfl, rfl⟩

/-- The acknowledgement block sets `TCP_ACKDATA` for every acknowledgement while data is in
flight. -/
theorem processAck_some {c c' : Conn} {seg : Segment} {ackdata : Bool}
    (h : processAck c seg = some (c', ackdata)) :
    SameReceiver c c' ∧ (ackdata = true ↔ seg.ctl.ack = true ∧ c.unacked > 0) ∧
      (ackdata = false → c' = c) := by
  simp only [processAck] at h
  split at h
  case isTrue hack =>
    split at h
    · cases h
    · obtain ⟨rfl, rfl⟩ := h
      refine ⟨?_, ⟨fun _ => hack, fun _ => rfl⟩, fun hf => by cases hf⟩
      have hsame := rttEstimate_same { c with
        unacked := if tcpGetsequence seg.ackno ≤ c.sndseqMax then
          c.sndseqMax - tcpGetsequence seg.ackno else c.unacked
        sndseq := tcpSetsequence (tcpGetsequence seg.ackno) }
      exact { hsame with }
  case isFalse hack =>
    obtain ⟨rfl, rfl⟩ := h
    refine ⟨.refl c, ⟨fun hf => ?_, fun hf => absurd hf hack⟩, fun _ => rfl⟩
    cases hf

end BaseNx.Tcp
