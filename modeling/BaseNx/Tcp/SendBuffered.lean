import BaseNx.Lib.OrderedInsert
import BaseNx.Errno
import BaseNx.Tcp.Conn

/-!
# The buffered send side

`psock_tcp_send` queues what the application sends in write buffers, and
`psock_send_eventhandler` moves the buffers between `write_q` (not yet completely sent) and
`unacked_q` (sent and not acknowledged) as the device polls, acknowledgements come in and
retransmission timeouts fire.
-/

namespace BaseNx.Tcp

open Lib

/-- `TCP_MAXRTX`. -/
def tcpMaxrtx : Nat := 8

/-- `psock_insert_segment`: behind the entries with a smaller sequence number. -/
def psockInsertSegment (wrb : Wrb) (q : List Wrb) : List Wrb :=
  insertWhere (fun wrb0 => decide (wrb0.seqno < wrb.seqno)) wrb q

/-- What one invocation of the event handler leaves behind: the connection, the data handed to the
device (`d_sndlen` bytes in `d_appdata`), the flags it returns and the buffers it released. -/
structure HandlerResult where
  conn : Conn
  flags : Events
  appdata : List UInt8
  released : List Wrb
  deriving DecidableEq

/-! ## Acknowledgements -/

/-- One buffer of `unacked_q` when `ackno` is acknowledged: released (`none`), trimmed or kept. -/
def ackUnacked (ackno : Nat) (wrb : Wrb) : Option Wrb :=
  if ackno > wrb.seqno then
    let lastseq := u32 (wrb.seqno + wrb.pktlen)
    if ackno ≥ lastseq then none
    else
      let trimlen := min (ackno - wrb.seqno) wrb.sent
      some { wrb.trim trimlen with seqno := ackno, sent := wrb.sent - trimlen }
  else some wrb

/-- The head of `write_q` when `ackno` is acknowledged. -/
def ackHead (ackno : Nat) (wrb : Wrb) : Wrb :=
  if wrb.sent > 0 ∧ ackno > wrb.seqno then
    let nacked := min (ackno - wrb.seqno) wrb.sent
    { wrb.trim nacked with seqno := ackno, sent := wrb.sent - nacked }
  else wrb

/-- Only the head of `write_q` can be partly sent. -/
def ackWriteQ (ackno : Nat) : List Wrb → List Wrb
  | [] => []
  | wrb :: rest => ackHead ackno wrb :: rest

/-- The `TCP_ACKDATA` branch of the handler. -/
def ackEvent (ackno : Nat) (conn : Conn) : Conn × List Wrb :=
  ({ conn with
      unackedQ := conn.unackedQ.filterMap (ackUnacked ackno)
      writeQ := ackWriteQ ackno conn.writeQ },
    conn.unackedQ.filter fun wrb => (ackUnacked ackno wrb).isNone)

/-! ## Loss of the connection and retransmission -/

/-- `psock_lost_connection`. -/
def psockLostConnection (conn : Conn) : Conn × List Wrb :=
  ({ conn with unackedQ := [], writeQ := [], sent := 0, sndseqMax := 0 },
    conn.unackedQ ++ conn.writeQ)

/-- The sent bytes of a buffer are taken back; the counters stop at zero. -/
def takeBack (conn : Conn) (wrb : Wrb) : Conn :=
  { conn with
    unacked := if conn.unacked > wrb.sent then conn.unacked - wrb.sent else 0
    sent := if conn.sent > wrb.sent then conn.sent - wrb.sent else 0 }

/-- The buffer itself after that: nothing of it is sent and the retry is counted. -/
def Wrb.retry (wrb : Wrb) : Wrb := { wrb with sent := 0, nrtx := u8 (wrb.nrtx + 1) }

/-- The first part of the `TCP_REXMIT` branch: a partly sent head of `write_q`. -/
def rexmitHead (conn : Conn) : Conn × List Wrb :=
  match conn.writeQ with
  | [] => (conn, [])
  | wrb :: rest =>
    if wrb.sent > 0 then
      let conn := takeBack conn wrb
      if wrb.retry.nrtx ≥ tcpMaxrtx then
        ({ conn with writeQ := rest, expired := u16 (conn.expired + 1) }, [wrb.retry])
      else ({ conn with writeQ := wrb.retry :: rest }, [])
    else (conn, [])

section RexmitHead

variable {conn : Conn} {wrb : Wrb} {rest : List Wrb}

theorem rexmitHead_of_nil (h : conn.writeQ = []) : rexmitHead conn = (conn, []) := by
  simp only [rexmitHead, h]

section

variable (h : conn.writeQ = wrb :: rest)
include h

theorem rexmitHead_of_unsent (hsent : ¬ wrb.sent > 0) : rexmitHead conn = (conn, []) := by
  simp only [rexmitHead, h, if_neg hsent]

theorem rexmitHead_of_expired (hsent : wrb.sent > 0) (hexp : wrb.retry.nrtx ≥ tcpMaxrtx) :
    rexmitHead conn =
      ({ takeBack conn wrb with writeQ := rest, expired := u16 ((takeBack conn wrb).expired + 1) },
        [wrb.retry]) := by
  simp only [rexmitHead, h, if_pos hsent, if_pos hexp]

theorem rexmitHead_of_retry (hsent : wrb.sent > 0) (hexp : ¬ wrb.retry.nrtx ≥ tcpMaxrtx) :
    rexmitHead conn = ({ takeBack conn wrb with writeQ := wrb.retry :: rest }, []) := by
  simp only [rexmitHead, h, if_pos hsent, if_neg hexp]

end

end RexmitHead

/-- One round of the loop over `unacked_q`: the buffer goes back to `write_q` or expires. -/
def rexmitOne (conn : Conn) (wrb : Wrb) : Conn × List Wrb :=
  let conn := takeBack conn wrb
  if wrb.retry.nrtx ≥ tcpMaxrtx then
    ({ conn with expired := u16 (conn.expired + 1) }, [wrb.retry])
  else ({ conn with writeQ := psockInsertSegment wrb.retry conn.writeQ }, [])

theorem rexmitOne_of_expired (conn : Conn) {wrb : Wrb} (hexp : wrb.retry.nrtx ≥ tcpMaxrtx) :
    rexmitOne conn wrb =
      ({ takeBack conn wrb with expired := u16 ((takeBack conn wrb).expired + 1) },
        [wrb.retry]) := if_pos hexp

theorem rexmitOne_of_retry (conn : Conn) {wrb : Wrb} (hexp : ¬ wrb.retry.nrtx ≥ tcpMaxrtx) :
    rexmitOne conn wrb =
      ({ takeBack conn wrb with
          writeQ := psockInsertSegment wrb.retry (takeBack conn wrb).writeQ }, []) := if_neg hexp

/-- The loop over `unacked_q`, which takes the entries from the end; the argument is the queue in
that order. -/
def rexmitAll (conn : Conn) : List Wrb → Conn × List Wrb
  | [] => (conn, [])
  | wrb :: q =>
    let (conn, out) := rexmitOne conn wrb
    let (conn, out') := rexmitAll conn q
    (conn, out ++ out')

/-- The `TCP_REXMIT` branch of the handler. -/
def rexmitEvent (conn : Conn) : Conn × List Wrb :=
  let (conn, out) := rexmitHead conn
  let q := conn.unackedQ.reverse
  let (conn, out') := rexmitAll { conn with unackedQ := [] } q
  (conn, out ++ out')

/-! ## Sending -/

/-- The number of bytes of a buffer that are sent next. -/
def sndlenOf (conn : Conn) (wrb : Wrb) : Nat :=
  min (min (sub32 wrb.pktlen wrb.sent) conn.mss) conn.winsize

/-- The head of `write_q` with a sequence number assigned. -/
def assignSeqno (conn : Conn) (wrb : Wrb) : Wrb :=
  if wrb.seqno = unassigned then { wrb with seqno := u32 (conn.isn + conn.sent) } else wrb

/-- The counters of the connection when `sndlen` bytes go out from sequence number `seqno` on. -/
def countSent (conn : Conn) (seqno sndlen : Nat) : Conn :=
  let sndseq := tcpSetsequence seqno
  let predicted := u32 (tcpGetsequence sndseq + sndlen)
  { conn with
    sndseq := sndseq
    unacked := u32 (conn.unacked + sndlen)
    sent := u32 (conn.sent + sndlen)
    sndseqMax :=
      if predicted > conn.sndseqMax ∨ tcpGetsequence sndseq > predicted then predicted
      else conn.sndseqMax }

/-- The connection and the data handed to the device when the head `wrb` of `write_q` is sent. -/
def sendHead (conn : Conn) (wrb : Wrb) (rest : List Wrb) : Conn × List UInt8 :=
  let sndlen := sndlenOf conn wrb
  let wrb := assignSeqno conn wrb
  let data := (wrb.data.drop wrb.sent).take sndlen
  let conn := countSent conn (u32 (wrb.seqno + wrb.sent)) sndlen
  let wrb := { wrb with sent := u16 (wrb.sent + sndlen) }
  if wrb.sent ≥ wrb.pktlen then
    ({ conn with writeQ := rest, unackedQ := psockInsertSegment wrb conn.unackedQ }, data)
  else ({ conn with writeQ := wrb :: rest }, data)

/-- Where the write buffer goes from which a segment was sent: to `unacked_q` once all of it is
sent, else back to the head of `write_q`. -/
def park (c : Conn) (w : Wrb) (rest : List Wrb) : Conn :=
  if w.sent ≥ w.pktlen then
    { c with writeQ := rest, unackedQ := psockInsertSegment w c.unackedQ }
  else { c with writeQ := w :: rest }

theorem park_of_done {w : Wrb} (c : Conn) (rest : List Wrb) (h : w.sent ≥ w.pktlen) :
    park c w rest = { c with writeQ := rest, unackedQ := psockInsertSegment w c.unackedQ } :=
  if_pos h

theorem park_of_part {w : Wrb} (c : Conn) (rest : List Wrb) (h : ¬ w.sent ≥ w.pktlen) :
    park c w rest = { c with writeQ := w :: rest } :=
  if_neg h

theorem sendHead_eq_park (conn : Conn) (wrb : Wrb) (rest : List Wrb) :
    sendHead conn wrb rest =
      (park (countSent conn (u32 ((assignSeqno conn wrb).seqno + (assignSeqno conn wrb).sent))
            (sndlenOf conn wrb)) { assignSeqno conn wrb with
            sent := u16 ((assignSeqno conn wrb).sent + sndlenOf conn wrb) } rest,
        ((assignSeqno conn wrb).data.drop (assignSeqno conn wrb).sent).take
        (sndlenOf conn wrb)) := by
  unfold sendHead park
  dsimp only
  split <;> rfl

variable (busy addrchck : Bool) (ackno : Nat) (flags : Events) (c : Conn)

/-- The last part of the handler: `busy` says that `d_sndlen` is not zero, `addrchck` is the answer
of `psock_send_addrchck`. The state test of the source is on the bit of `TCP_ESTABLISHED`. -/
def sendEvent (flags : Events) (conn : Conn) : Conn × List UInt8 × Events :=
  if busy then (conn, [], flags)
  else if conn.state.code.testBit 2 && (flags.poll || flags.rexmit) && addrchck then
    match conn.writeQ with
    | [] => (conn, [], flags)
    | wrb :: rest =>
      let (conn, data) := sendHead conn wrb rest
      (conn, data, { flags with poll := false })
  else (conn, [], flags)

/-- `psock_send_eventhandler` on the device of the connection; `ackno` is read from the packet in
the device buffer. -/
def psockSendEventhandler (conn : Conn) :
    HandlerResult :=
  if flags.ackdata then
    let (conn, out) := ackEvent ackno conn
    let (conn, data, flags) := sendEvent busy addrchck flags conn
    ⟨conn, flags, data, out⟩
  else if flags.disconn then
    let (conn, out) := psockLostConnection conn
    ⟨conn, flags, [], out⟩
  else if flags.rexmit then
    let (conn, out) := rexmitEvent conn
    let (conn, data, flags) := sendEvent busy addrchck flags conn
    ⟨conn, flags, data, out⟩
  else
    let (conn, data, flags) := sendEvent busy addrchck flags conn
    ⟨conn, flags, data, []⟩

/-! ## Accepting data -/

/-- `psock_tcp_send` on a connected socket, where a write buffer and a callback could be allocated
and the I/O buffers have room for `room` bytes. A non-blocking call that could not store anything
fails with `EWOULDBLOCK` (`none`) and releases its buffer. The result is what the application is
told. -/
def psockTcpSend (nonblock : Bool) (room ident : Nat) (buf : List UInt8) (conn : Conn) :
    Option (Conn × Nat) :=
  if buf.length = 0 then some (conn, 0)
  else
    let wrb : Wrb := ⟨unassigned, 0, 0, buf.take room, ident⟩
    let queued := { conn with writeQ := conn.writeQ ++ [wrb] }
    if nonblock then
      if buf.length ≤ room then some (queued, buf.length)
      else if wrb.pktlen > 0 then some (queued, wrb.pktlen)
      else none
    else some (queued, (buf.take room).length)

/-! ## What the send side keeps -/

theorem sendEvent_idle {flags : Events} (hpoll : flags.poll = false)
    (hrexmit : flags.rexmit = false) (c : Conn) :
    sendEvent busy addrchck flags c = (c, [], flags) := by
  simp [sendEvent, hpoll, hrexmit]

theorem psockSendEventhandler_ack (c : Conn) :
    psockSendEventhandler busy addrchck ackno { ackdata := true } c =
      ⟨(ackEvent ackno c).1, { ackdata := true }, [], (ackEvent ackno c).2⟩ := by
  simp only [psockSendEventhandler, if_true, sendEvent_idle]

/-- The fields of the connection that the send side does not write. -/
structure SameReceiver (c c' : Conn) : Prop where
  state : c'.state = c.state
  stopped : c'.stopped = c.stopped
  rcvseq : c'.rcvseq = c.rcvseq
  isn : c'.isn = c.isn

theorem SameReceiver.refl (c : Conn) : SameReceiver c c := ⟨rfl, rfl, rfl, rfl⟩

theorem SameReceiver.trans {c c' c'' : Conn} (h : SameReceiver c c') (h' : SameReceiver c' c'') :
    SameReceiver c c'' :=
  ⟨h'.state.trans h.state, h'.stopped.trans h.stopped, h'.rcvseq.trans h.rcvseq,
    h'.isn.trans h.isn⟩

theorem rexmitHead_same (c : Conn) : SameReceiver c (rexmitHead c).1 := by
  simp only [rexmitHead]
  split
  · exact .refl c
  · split
    · split <;> exact ⟨rfl, rfl, rfl, rfl⟩
    · exact .refl c

theorem rexmitOne_same (c : Conn) (w : Wrb) : SameReceiver c (rexmitOne c w).1 := by
  simp only [rexmitOne]
  split <;> exact ⟨rfl, rfl, rfl, rfl⟩

theorem rexmitAll_same (q : List Wrb) : ∀ c : Conn, SameReceiver c (rexmitAll c q).1 := by
  induction q with
  | nil => exact .refl
  | cons w q ih => exact fun c => (rexmitOne_same c w).trans (ih _)

theorem rexmitEvent_same (c : Conn) : SameReceiver c (rexmitEvent c).1 := by
  have hall := rexmitAll_same (rexmitHead c).1.unackedQ.reverse
    { (rexmitHead c).1 with unackedQ := [] }
  have hq : SameReceiver (rexmitHead c).1 { (rexmitHead c).1 with unackedQ := [] } :=
    ⟨rfl, rfl, rfl, rfl⟩
  exact ((rexmitHead_same c).trans hq).trans hall

theorem sendHead_same (c : Conn) (w : Wrb) (rest : List Wrb) :
    SameReceiver c (sendHead c w rest).1 := by
  simp only [sendHead]
  split <;> exact ⟨rfl, rfl, rfl, rfl⟩

theorem sendEvent_same (flags : Events) (c : Conn) :
    SameReceiver c (sendEvent busy addrchck flags c).1 := by
  simp only [sendEvent]
  split
  · exact .refl c
  · split
    · split
      · exact .refl c
      · exact sendHead_same c _ _
    · exact .refl c

theorem psockSendEventhandler_same :
    SameReceiver c (psockSendEventhandler busy addrchck ackno flags c).conn := by
  simp only [psockSendEventhandler]
  split
  · have hack : SameReceiver c (ackEvent ackno c).1 := ⟨rfl, rfl, rfl, rfl⟩
    exact hack.trans (sendEvent_same _ _ _ _)
  · split
    · exact ⟨rfl, rfl, rfl, rfl⟩
    · split
      · exact (rexmitEvent_same c).trans (sendEvent_same _ _ _ _)
      · exact sendEvent_same _ _ _ _

theorem sendEvent_flags (flags : Events) (c : Conn) :
    (sendEvent busy addrchck flags c).2.2 = flags ∨
      (sendEvent busy addrchck flags c).2.2 = { flags with poll := false } := by
  simp only [sendEvent]
  split
  · exact .inl rfl
  · split
    · split
      · exact .inl rfl
      · exact .inr rfl
    · exact .inl rfl

/-- The handler clears `TCP_POLL` at most. -/
theorem psockSendEventhandler_flags :
    (psockSendEventhandler busy addrchck ackno flags c).flags = flags ∨
      (psockSendEventhandler busy addrchck ackno flags c).flags = { flags with poll := false } := by
  simp only [psockSendEventhandler]
  split
  · exact sendEvent_flags _ _ _ _
  · split
    · exact .inl rfl
    · split <;> exact sendEvent_flags _ _ _ _

end BaseNx.Tcp
