import BaseNx.Lib.MachineInt

/-!
# TCP connections

The data of `struct tcp_conn_s` that the send side and `tcp_input` work on, in the build with write
buffers (`CONFIG_NET_TCP_WRITE_BUFFERS`). The sequence numbers of the packet headers are kept, as in
the source, as four bytes in network order; `tcpGetsequence_netIncr32` says that the byte-wise
addition of `net_incr32` is addition modulo `2 ^ 32`.
-/

namespace BaseNx.Tcp

open Lib

/-! ## Sequence numbers -/

/-- A sequence number in a packet header or in the connection: four bytes, the highest first. -/
structure Seqno where
  b0 : UInt8
  b1 : UInt8
  b2 : UInt8
  b3 : UInt8
  deriving DecidableEq

/-- `tcp_setsequence`. -/
def tcpSetsequence (value : Nat) : Seqno :=
  ⟨UInt8.ofNat (value / 2 ^ 24), UInt8.ofNat (value / 2 ^ 16), UInt8.ofNat (value / 2 ^ 8),
    UInt8.ofNat value⟩

/-- `tcp_getsequence`: the bytes do not overlap, so that their disjunction is a sum. -/
def tcpGetsequence (seqno : Seqno) : Nat :=
  seqno.b0.toNat * 2 ^ 24 + seqno.b1.toNat * 2 ^ 16 + seqno.b2.toNat * 2 ^ 8 + seqno.b3.toNat

/-- `net_carry32`: the carries of an addition of `op16` to the two low bytes. -/
def netCarry32 (sum : Seqno) (op16 : Nat) : Seqno :=
  let sum :=
    if sum.b2.toNat < op16 / 2 ^ 8 then
      let sum := { sum with b1 := sum.b1 + 1 }
      if sum.b1 = 0 then { sum with b0 := sum.b0 + 1 } else sum
    else sum
  if sum.b3.toNat < op16 % 2 ^ 8 then
    let sum := { sum with b2 := sum.b2 + 1 }
    if sum.b2 = 0 then
      let sum := { sum with b1 := sum.b1 + 1 }
      if sum.b1 = 0 then { sum with b0 := sum.b0 + 1 } else sum
    else sum
  else sum

/-- `net_incr32`; the argument is a `uint16_t`. -/
def netIncr32 (op32 : Seqno) (op16 : Nat) : Seqno :=
  let op16 := u16 op16
  netCarry32
    { op32 with
      b3 := op32.b3 + UInt8.ofNat (op16 % 2 ^ 8)
      b2 := op32.b2 + UInt8.ofNat (op16 / 2 ^ 8) } op16

variable (s : Seqno) (n : Nat)

theorem tcpGetsequence_lt : tcpGetsequence s < 4294967296 := by
  have h0 := s.b0.toNat_lt
  have h1 := s.b1.toNat_lt
  have h2 := s.b2.toNat_lt
  have h3 := s.b3.toNat_lt
  simp only [tcpGetsequence]
  omega

theorem tcpGetsequence_set (v : Nat) : tcpGetsequence (tcpSetsequence v) = u32 v := by
  simp only [tcpGetsequence, tcpSetsequence, UInt8.toNat_ofNat', u32]
  omega

/-- The bytes are determined by the number. -/
theorem tcpGetsequence_injective {s t : Seqno} (h : tcpGetsequence s = tcpGetsequence t) :
    s = t := by
  obtain ⟨a0, a1, a2, a3⟩ := s
  obtain ⟨c0, c1, c2, c3⟩ := t
  simp only [tcpGetsequence] at h
  have ha1 := a1.toNat_lt
  have ha2 := a2.toNat_lt
  have ha3 := a3.toNat_lt
  have hc1 := c1.toNat_lt
  have hc2 := c2.toNat_lt
  have hc3 := c3.toNat_lt
  have e0 : a0 = c0 := UInt8.toNat_inj.mp (by omega)
  have e1 : a1 = c1 := UInt8.toNat_inj.mp (by omega)
  have e2 : a2 = c2 := UInt8.toNat_inj.mp (by omega)
  have e3 : a3 = c3 := UInt8.toNat_inj.mp (by omega)
  rw [e0, e1, e2, e3]

theorem succ_eq_zero_iff (b : UInt8) : b + 1 = 0 ↔ b.toNat = 255 := by
  have hb := b.toNat_lt
  have hadd : (b + 1).toNat = (b.toNat + 1) % 256 := by simp [UInt8.toNat_add]
  rw [← UInt8.toNat_inj, hadd]
  simp only [UInt8.toNat_zero]
  omega

/-- The first carry of `net_carry32`, into the two high bytes. -/
def carryHigh : Seqno :=
  let s := { s with b1 := s.b1 + 1 }
  if s.b1 = 0 then { s with b0 := s.b0 + 1 } else s

theorem tcpGetsequence_carryHigh :
    tcpGetsequence (carryHigh s) = u32 (tcpGetsequence s + 2 ^ 16) := by
  have h0 := s.b0.toNat_lt
  have h1 := s.b1.toNat_lt
  have h2 := s.b2.toNat_lt
  have h3 := s.b3.toNat_lt
  have hb0 : (s.b0 + 1).toNat = (s.b0.toNat + 1) % 256 := by simp [UInt8.toNat_add]
  have hb1 : (s.b1 + 1).toNat = (s.b1.toNat + 1) % 256 := by simp [UInt8.toNat_add]
  have hz := succ_eq_zero_iff s.b1
  simp only [carryHigh]
  split
  case isTrue hc =>
    have := hz.mp hc
    simp only [tcpGetsequence, u32, hb0, hb1]
    omega
  case isFalse hc =>
    have : s.b1.toNat ≠ 255 := fun h => hc (hz.mpr h)
    simp only [tcpGetsequence, u32, hb1]
    omega

/-- The second carry of `net_carry32`, out of the lowest byte. -/
def carryLow : Seqno :=
  let s := { s with b2 := s.b2 + 1 }
  if s.b2 = 0 then carryHigh s else s

theorem tcpGetsequence_carryLow : tcpGetsequence (carryLow s) = u32 (tcpGetsequence s + 2 ^ 8) := by
  have h0 := s.b0.toNat_lt
  have h1 := s.b1.toNat_lt
  have h2 := s.b2.toNat_lt
  have h3 := s.b3.toNat_lt
  have hb2 : (s.b2 + 1).toNat = (s.b2.toNat + 1) % 256 := by simp [UInt8.toNat_add]
  have hz := succ_eq_zero_iff s.b2
  simp only [carryLow]
  split
  case isTrue hc =>
    have := hz.mp hc
    rw [tcpGetsequence_carryHigh]
    simp only [tcpGetsequence, u32, hb2]
    omega
  case isFalse hc =>
    have : s.b2.toNat ≠ 255 := fun h => hc (hz.mpr h)
    simp only [tcpGetsequence, u32, hb2]
    omega

theorem netCarry32_eq :
    netCarry32 s n =
      let t := if s.b2.toNat < n / 2 ^ 8 then carryHigh s else s
      if t.b3.toNat < n % 2 ^ 8 then carryLow t else t := rfl

theorem carryHigh_b3 : (carryHigh s).b3 = s.b3 := by
  simp only [carryHigh]
  split <;> rfl

/-- **`net_incr32` adds modulo `2 ^ 32`.** -/
theorem tcpGetsequence_netIncr32 :
    tcpGetsequence (netIncr32 s n) = u32 (tcpGetsequence s + u16 n) := by
  have h0 := s.b0.toNat_lt
  have h1 := s.b1.toNat_lt
  have h2 := s.b2.toNat_lt
  have h3 := s.b3.toNat_lt
  have hn : u16 n < 65536 := u16_lt n
  -- the two bytes the addition itself changes, before any carry
  have hb3 : (s.b3 + UInt8.ofNat (u16 n % 2 ^ 8)).toNat = (s.b3.toNat + u16 n % 256) % 256 := by
    simp [UInt8.toNat_add, UInt8.toNat_ofNat']
  have hb2 : (s.b2 + UInt8.ofNat (u16 n / 2 ^ 8)).toNat = (s.b2.toNat + u16 n / 256) % 256 := by
    simp [UInt8.toNat_add, UInt8.toNat_ofNat']
  have hkept : ∀ (p : Prop) [Decidable p] (t : Seqno),
      (if p then carryHigh t else t).b3 = t.b3 := by
    intro p _ t
    split
    · exact carryHigh_b3 t
    · rfl
  simp only [netIncr32, netCarry32_eq, hkept, apply_ite tcpGetsequence, tcpGetsequence_carryLow,
    tcpGetsequence_carryHigh]
  generalize u16 n = m at *
  simp only [tcpGetsequence, u32, hb2, hb3]
  split_ifs <;> omega

/-! ## Connections, write buffers and segments -/

/-- The states of `TCP_STATE_MASK`. -/
inductive TcpState
  | closed
  | allocated
  | synRcvd
  | synSent
  | established
  | finWait1
  | finWait2
  | closing
  | timeWait
  | lastAck
  deriving DecidableEq

/-- The value of a state in `tcpstateflags`. -/
def TcpState.code : TcpState → Nat
  | .closed => 0
  | .allocated => 1
  | .synRcvd => 2
  | .synSent => 3
  | .established => 4
  | .finWait1 => 5
  | .finWait2 => 6
  | .closing => 7
  | .timeWait => 8
  | .lastAck => 9

/-- A write buffer, `struct tcp_wrbuffer_s`; `data` is the content of its I/O buffer chain. The
field `ident` is not in the source: it numbers the accepted sends, so that results can speak of
"the same buffer". -/
structure Wrb where
  seqno : Nat
  sent : Nat
  nrtx : Nat
  data : List UInt8
  ident : Nat
  deriving DecidableEq

/-- `(unsigned)-1`, the sequence number of a buffer that has not been sent. -/
def unassigned : Nat := 4294967295

/-- `TCP_WBPKTLEN`; `io_pktlen` is a `uint16_t`. -/
def Wrb.pktlen (w : Wrb) : Nat := u16 w.data.length

/-- `TCP_WBTRIM`. -/
def Wrb.trim (w : Wrb) (n : Nat) : Wrb := { w with data := w.data.drop n }

/-- The fields of `struct tcp_conn_s` that the send side and `tcp_input` read or write. -/
structure Conn where
  state : TcpState
  stopped : Bool
  rcvseq : Seqno
  sndseq : Seqno
  sa : Nat
  sv : Nat
  rto : Nat
  timer : Nat
  nrtx : Nat
  mss : Nat
  winsize : Nat
  unacked : Nat
  writeQ : List Wrb
  unackedQ : List Wrb
  expired : Nat
  sent : Nat
  isn : Nat
  sndseqMax : Nat
  keepalive : Bool
  keeptime : Nat
  keepretries : Nat
  deriving DecidableEq

/-- An assignment to `tcpstateflags`, which also clears `TCP_STOPPED`. -/
def Conn.setState (c : Conn) (s : TcpState) : Conn := { c with state := s, stopped := false }

def Conn.setWindow (c : Conn) (w : Nat) : Conn := { c with winsize := w }

/-- The limits on the size of the segments that are sent. -/
def Conn.setLimits (c : Conn) (mss winsize : Nat) : Conn :=
    { c with mss := mss, winsize := winsize }

/-- The event flags that are passed to the callbacks of a connection. -/
structure Events where
  ackdata : Bool := false
  newdata : Bool := false
  sndack : Bool := false
  rexmit : Bool := false
  poll : Bool := false
  backlog : Bool := false
  close : Bool := false
  abort : Bool := false
  connected : Bool := false
  timedout : Bool := false
  netdevDown : Bool := false
  deriving DecidableEq

/-- `flags & TCP_DISCONN_EVENTS`. -/
def Events.disconn (e : Events) : Bool := e.close || e.abort || e.timedout || e.netdevDown

/-- `flags != 0`. -/
def Events.any (e : Events) : Bool := e != {}

/-- The control bits of a TCP header. -/
structure Ctl where
  fin : Bool := false
  syn : Bool := false
  rst : Bool := false
  psh : Bool := false
  ack : Bool := false
  urg : Bool := false
  deriving DecidableEq

/-- An incoming segment: the fields of the header that `tcp_input` reads, the value of `d_len` and
the length of the IP header when it is called, and the device buffer behind the fixed part of the
header. The field `tcpoffset` is the length of the header in units of four bytes. -/
structure Segment where
  seqno : Seqno
  ackno : Seqno
  ctl : Ctl
  wnd : Nat
  urgp : Nat
  tcpoffset : Nat
  dLen : Nat
  iplen : Nat
  body : Nat → UInt8

/-- The bytes `start, .., start + len - 1` of a buffer. -/
def slice (buf : Nat → UInt8) (start len : Nat) : List UInt8 :=
  (List.range len).map fun i => buf (start + i)

@[simp] theorem length_slice (buf : Nat → UInt8) (start len : Nat) :
    (slice buf start len).length = len := by
  simp [slice]

/-- What `tcp_input` leaves in the device buffer to be sent. -/
inductive Reply
  | none
  | reset
  | send (ctl : Ctl) (seqno ackno : Seqno) (data : List UInt8)
  deriving DecidableEq

end BaseNx.Tcp
