import BaseNx.Lib.Reach
import BaseNx.Tcp.SendBuffered

/-!
# The byte stream of the buffered send side

`stream` is everything the application sent, and `ends` says where each accepted buffer ends in it.
A buffer that is still queued holds the bytes of its place from the first one on that is not
acknowledged, its sequence number is `isn` plus that position, and its sent count is what of it lies
in front of the position `conn.sent`, up to which the stream is sent (`Places.Holds`). Each event
moves one of the two positions: an acknowledgement the front of the queues, a poll and a
retransmission the position `conn.sent`. `stream_faithful` states what follows for every run.

The source loses this alignment when an acknowledgement arrives for bytes that a retransmission
timeout has taken back and that are not sent again yet: it then trims fewer bytes than it moves the
sequence number (`late_ack_misaligns`).
-/

namespace BaseNx.Tcp

open Lib List

/-! ## Pieces of the stream -/

/-- The `k` bytes from position `p` on. -/
def piece (stream : List UInt8) (p k : Nat) : List UInt8 := (stream.drop p).take k

section Piece

variable {stream : List UInt8} {p k : Nat}

theorem length_piece (h : p + k ≤ stream.length) : (piece stream p k).length = k := by
  rw [piece, length_take, length_drop]
  omega

theorem piece_append (h : p + k ≤ stream.length) (more : List UInt8) :
    piece (stream ++ more) p k = piece stream p k := by
  rw [piece, drop_append_of_le_length (by omega), take_append_of_le_length, piece]
  rw [length_drop]
  omega

theorem drop_piece (j : Nat) : (piece stream p k).drop j = piece stream (p + j) (k - j) := by
  rw [piece, piece, drop_take, drop_drop]

theorem piece_append_drop : piece stream p k ++ stream.drop (p + k) = stream.drop p := by
  rw [piece, ← drop_drop, take_append_drop]

end Piece

/-! ## Runs of the send side -/

/-- A connection with the history of its send side, in positions of the stream: everything that was
accepted, the highest acknowledged position, the highest position ever sent, where each accepted
buffer ends, the buffers that were released, and the segments handed to the device (sequence number
and data). -/
structure Sender where
  conn : Conn
  stream : List UInt8
  una : Nat
  top : Nat
  ends : List Nat
  released : List Wrb
  segments : List (Nat × List UInt8)

/-- The events of the send side. Polls and timeouts come with the values of `mss` and `winsize` at
that time. -/
inductive SendEvent
  | send (nonblock : Bool) (room : Nat) (buf : List UInt8)
  | poll (busy addrchck : Bool) (mss winsize : Nat)
  | rexmit (busy addrchck : Bool) (mss winsize : Nat)
  | ack (ackno : Nat)

/-- The history after the send handler left the connection `c`, released buffers and handed data to
the device. -/
def Sender.settle (s : Sender) (c : Conn) (released : List Wrb) (data : List UInt8) : Sender :=
  { s with
    conn := c
    top := max s.top c.sent
    released := s.released ++ released
    segments := if data = [] then s.segments
      else s.segments ++ [(tcpGetsequence c.sndseq, data)] }

/-- The send handler with given flags. -/
def Sender.handle (s : Sender) (busy addrchck : Bool) (ackno : Nat) (flags : Events) (c : Conn) :
    Sender :=
  let r := psockSendEventhandler busy addrchck ackno flags c
  s.settle r.conn r.released r.appdata

/-- One event. A send that fails changes nothing. -/
def Sender.apply (s : Sender) : SendEvent → Sender
  | .send nonblock room buf =>
    match psockTcpSend nonblock room s.ends.length buf s.conn with
    | none => s
    | some (c, _) =>
      if buf = [] then { s with conn := c }
      else
        let stream := s.stream ++ buf.take room
        { s with conn := c, stream := stream, ends := s.ends ++ [stream.length] }
  | .poll busy addrchck mss winsize =>
    s.handle busy addrchck 0 { poll := true } (s.conn.setLimits mss winsize)
  | .rexmit busy addrchck mss winsize =>
    s.handle busy addrchck 0 { rexmit := true } (s.conn.setLimits mss winsize)
  | .ack ackno =>
    { s with una := ackno - s.conn.isn }.handle false true ackno { ackdata := true } s.conn

/-- What the environment promises: sends fit a write buffer and keep the sequence numbers below
`2 ^ 32`, no buffer expires, and an acknowledgement lies between the oldest unacknowledged and the
highest sent byte, and does not pass the byte that is sent next (`isn + sent`). -/
def Sender.Allowed (s : Sender) : SendEvent → Prop
  | .send _ room buf =>
    0 < room ∧ (buf.take room).length < 65536 ∧
      s.conn.isn + s.stream.length + (buf.take room).length < 4294967296
  | .poll _ _ _ _ => True
  | .rexmit _ _ mss winsize => (rexmitEvent (s.conn.setLimits mss winsize)).2 = []
  | .ack ackno =>
    s.conn.isn + s.una ≤ ackno ∧ ackno ≤ s.conn.isn + s.top ∧ ackno ≤ s.conn.isn + s.conn.sent

instance (s : Sender) (e : SendEvent) : Decidable (s.Allowed e) := by
  cases e <;> unfold Sender.Allowed <;> infer_instance

/-- A connection that has just been established. -/
def Sender.Start (s : Sender) : Prop :=
  s.conn.isn < 4294967296 ∧ s.conn.writeQ = [] ∧ s.conn.unackedQ = [] ∧ s.conn.sent = 0 ∧
    s.stream = [] ∧ s.una = 0 ∧ s.top = 0 ∧ s.ends = [] ∧ s.released = [] ∧ s.segments = []

/-- The senders on the runs whose events keep the promise. -/
def Sender.Reachable : Sender → Prop :=
  Reach Sender.Start (LabelledStep Sender.Allowed fun s e => some (s.apply e))

/-- A segment carries the bytes of the stream at its sequence number. -/
def Carries (isn : Nat) (stream : List UInt8) (g : Nat × List UInt8) : Prop :=
  isn ≤ g.1 ∧ g.1 - isn + g.2.length ≤ stream.length ∧
    g.2 = piece stream (g.1 - isn) g.2.length

/-- The buffers of a connection, `unacked_q` first. -/
def Conn.queue (c : Conn) : List Wrb := c.unackedQ ++ c.writeQ

/-- The places of the buffers in the stream: all that sending does not change. -/
structure Places where
  isn : Nat
  stream : List UInt8
  ends : List Nat
  una : Nat

namespace Places

/-- The position at which the buffer `i` starts. -/
def lo (P : Places) (i : Nat) : Nat := (0 :: P.ends).getD i 0

/-- The position at which the buffer `i` ends. -/
def hi (P : Places) (i : Nat) : Nat := P.ends.getD i 0

/-- The first position of the buffer `i` that is not acknowledged. -/
def start (P : Places) (i : Nat) : Nat := max P.una (P.lo i)

/-- The bytes in front of `a` are acknowledged. -/
def ack (P : Places) (a : Nat) : Places := { P with una := a }

/-- Another buffer is accepted. -/
def add (P : Places) (data : List UInt8) : Places :=
  { P with stream := P.stream ++ data, ends := P.ends ++ [(P.stream ++ data).length] }

/-- A buffer that is not released, when the stream is sent up to `pos`. -/
structure Holds (P : Places) (pos : Nat) (w : Wrb) : Prop where
  una_lt : P.una < P.hi w.ident
  data : w.data = piece P.stream (P.start w.ident) (P.hi w.ident - P.start w.ident)
  number : w.seqno = P.isn + P.start w.ident ∨ w.seqno = unassigned ∧ pos ≤ P.lo w.ident
  sent : w.sent = min pos (P.hi w.ident) - P.start w.ident

/-- The buffers of a connection are in their places, behind those that are released. -/
structure Aligned (P : Places) (c : Conn) (rel : List Wrb) : Prop where
  isn : c.isn = P.isn
  fits : P.isn + P.stream.length < 4294967296
  una_le : P.una ≤ c.sent
  sent_le : c.sent ≤ P.stream.length
  cuts : ∀ i < P.ends.length, P.lo i < P.hi i ∧ P.hi i - P.lo i < 65536
  last : P.lo P.ends.length = P.stream.length
  idents : rel.map Wrb.ident ++ c.queue.map Wrb.ident = range P.ends.length
  gone : ∀ w ∈ rel, P.hi w.ident ≤ P.una
  held : ∀ w ∈ c.queue, P.Holds c.sent w
  full : ∀ w ∈ c.unackedQ, P.hi w.ident ≤ c.sent
  part : ∀ w ∈ c.writeQ, c.sent < P.hi w.ident

variable {P : Places} {c c' : Conn} {rel : List Wrb} {w : Wrb} {q r rest : List Wrb}

/-! ## The order of the buffers -/

section Order

variable (h : P.Aligned c rel)
include h

theorem Aligned.hi_le_lo {i : Nat} : ∀ {j : Nat}, i < j → j ≤ P.ends.length → P.hi i ≤ P.lo j := by
  intro j
  induction j with
  | zero => exact fun hlt _ => absurd hlt (Nat.not_lt_zero i)
  | succ j ih =>
    intro hlt hle
    rcases Nat.lt_succ_iff_lt_or_eq.1 hlt with hlt | rfl
    · exact le_trans (ih hlt (by omega)) (h.cuts j hle).1.le
    · exact le_rfl

theorem Aligned.mem_idents {i : Nat} : i < P.ends.length ↔ ∃ w ∈ rel ++ c.queue, w.ident = i := by
  rw [← mem_range, ← h.idents, ← map_append, mem_map]

section

variable (hw : w ∈ c.queue)
include hw

theorem Aligned.ident_lt : w.ident < P.ends.length :=
  h.mem_idents.2 ⟨w, mem_append_right _ hw, rfl⟩

theorem Aligned.hi_le : P.hi w.ident ≤ P.stream.length :=
  h.last ▸ h.hi_le_lo (h.ident_lt hw) le_rfl

theorem Aligned.cut : P.lo w.ident < P.hi w.ident :=
  (h.cuts _ (h.ident_lt hw)).1

theorem Aligned.start_lt : P.start w.ident < P.hi w.ident :=
  max_lt (h.held w hw).una_lt (h.cut hw)

theorem Aligned.length_data : w.data.length = P.hi w.ident - P.start w.ident := by
  have hle := h.hi_le hw
  have hlt := h.start_lt hw
  rw [(h.held w hw).data, length_piece (by omega)]

theorem Aligned.pktlen_eq : w.pktlen = P.hi w.ident - P.start w.ident := by
  have hlt := (h.cuts _ (h.ident_lt hw)).2
  have hlo : P.lo w.ident ≤ P.start w.ident := le_max_right _ _
  rw [Wrb.pktlen, h.length_data hw]
  exact u16_eq_self (by omega)

end

theorem Aligned.sorted : (rel ++ c.queue).Pairwise fun x y => x.ident < y.ident :=
  pairwise_map.1 (by rw [map_append, h.idents]; exact pairwise_lt_range)

section Split

variable (hqueue : c.queue = q ++ w :: r)
include hqueue

omit h in
theorem mem_split : w ∈ c.queue := hqueue ▸ mem_append_right q mem_cons_self

omit h in
theorem mem_after : ∀ x ∈ r, x ∈ c.queue := fun _ hx =>
  hqueue ▸ mem_append_right q (mem_cons_of_mem w hx)

theorem Aligned.before_lt : ∀ x ∈ rel ++ q, x.ident < w.ident := by
  have hsorted := h.sorted
  rw [hqueue, ← append_assoc] at hsorted
  exact fun x hx => (pairwise_append.1 hsorted).2.2 x hx w mem_cons_self

theorem Aligned.lt_after : ∀ x ∈ r, w.ident < x.ident := by
  have hsorted := h.sorted
  rw [hqueue, ← append_assoc] at hsorted
  exact (pairwise_cons.1 (pairwise_append.1 hsorted).2.1).1

/-- A buffer starts where the buffers in front of it end. -/
theorem Aligned.lo_le {b : Nat} (hb : ∀ x ∈ rel ++ q, P.hi x.ident ≤ b) : P.lo w.ident ≤ b := by
  cases hi : w.ident with
  | zero => exact Nat.zero_le b
  | succ i =>
    have hlt := h.ident_lt (mem_split hqueue)
    obtain ⟨x, hx, rfl⟩ := h.mem_idents.1 (show i < P.ends.length by omega)
    rw [hqueue, ← append_assoc] at hx
    rcases mem_append.1 hx with hx | hx
    · exact hb x hx
    · rcases mem_cons.1 hx with rfl | hx
      · omega
      · have := h.lt_after hqueue x hx
        omega

/-- A buffer ends where the next one starts. -/
theorem Aligned.le_hi {b : Nat} (hr : ∀ x ∈ r, b ≤ P.lo x.ident) (hb : b ≤ P.stream.length) :
    b ≤ P.hi w.ident := by
  have hlt := h.ident_lt (mem_split hqueue)
  rcases Nat.lt_or_ge (w.ident + 1) P.ends.length with hnext | hlast
  · obtain ⟨x, hx, hident⟩ := h.mem_idents.1 hnext
    rw [hqueue, ← append_assoc] at hx
    rcases mem_append.1 hx with hx | hx
    · have := h.before_lt hqueue x hx
      omega
    · rcases mem_cons.1 hx with rfl | hx
      · omega
      · exact le_trans (hr x hx) (by rw [hident]; exact le_rfl)
  · have hend : P.hi w.ident = P.stream.length := by
      rw [← h.last, show P.ends.length = w.ident + 1 by omega]
      rfl
    exact le_of_le_of_eq hb hend.symm

theorem Aligned.le_lo_after : ∀ x ∈ r, P.hi w.ident ≤ P.lo x.ident := by
  intro x hx
  exact h.hi_le_lo (h.lt_after hqueue x hx) (h.ident_lt (mem_after hqueue x hx)).le

theorem Aligned.hi_lt_after : ∀ x ∈ r, P.hi w.ident < P.hi x.ident := fun x hx =>
  lt_of_le_of_lt (h.le_lo_after hqueue x hx) (h.cut (mem_after hqueue x hx))

theorem Aligned.hi_le_start : ∀ x ∈ q, P.hi x.ident ≤ P.start w.ident := by
  intro x hx
  have hlt := h.before_lt hqueue x (mem_append_right _ hx)
  exact le_trans (h.hi_le_lo hlt (h.ident_lt (mem_split hqueue)).le) (le_max_right _ _)

/-- The first buffer that is not completely sent starts where the stream is sent up to, or in front
of it. -/
theorem Aligned.start_le (hq : ∀ x ∈ q, P.hi x.ident ≤ c.sent) : P.start w.ident ≤ c.sent := by
  refine max_le h.una_le (h.lo_le hqueue fun x hx => ?_)
  rcases mem_append.1 hx with hx | hx
  · exact le_trans (h.gone x hx) h.una_le
  · exact hq x hx

end Split

end Order

/-! ## Moving the position up to which the stream is sent -/

/-- Nothing changes for a buffer on one side of both positions. -/
theorem Holds.move {pos pos' : Nat} (h : P.Holds pos w) (hlt : P.lo w.ident < P.hi w.ident)
    (hside : P.hi w.ident ≤ pos ∧ P.hi w.ident ≤ pos' ∨ pos ≤ P.lo w.ident ∧ pos' ≤ P.lo w.ident) :
    P.Holds pos' w := by
  have hlo : P.lo w.ident ≤ P.start w.ident := le_max_right _ _
  refine ⟨h.una_lt, h.data, ?_, ?_⟩
  · rcases h.number with hnum | ⟨hun, hle⟩
    · exact .inl hnum
    · exact .inr ⟨hun, by omega⟩
  · rw [h.sent]
    omega

/-- Of a buffer without a number nothing is sent. -/
theorem Holds.assigned {pos : Nat} (h : P.Holds pos w) (hlt : P.start w.ident < pos) :
    w.seqno = P.isn + P.start w.ident := by
  have hlo : P.lo w.ident ≤ P.start w.ident := le_max_right _ _
  rcases h.number with hnum | ⟨-, hle⟩
  · exact hnum
  · omega

section

variable (h : P.Aligned c rel) (hqueue : c.queue = q ++ w :: r)
  (hq : ∀ x ∈ q, P.hi x.ident ≤ c.sent)
include h hqueue hq

/-- The stream is sent up to another position inside the buffer `w`, which then is on the queue of
that position. -/
theorem Aligned.shift {w' : Wrb} (hr : ∀ x ∈ r, c.sent ≤ P.lo x.ident) (hisn : c'.isn = P.isn)
    (hle : P.start w.ident ≤ c'.sent) (hw' : P.Holds c'.sent w')
    (hqueues : c'.sent < P.hi w.ident ∧ c'.unackedQ = q ∧ c'.writeQ = w' :: r ∨
      c'.sent = P.hi w.ident ∧ c'.unackedQ = q ++ [w'] ∧ c'.writeQ = r)
    (hident : w'.ident = w.ident) : P.Aligned c' rel := by
  have hmem := mem_split hqueue
  have hmemr := mem_after hqueue
  have huna : P.una ≤ P.start w.ident := le_max_left _ _
  have hstream := h.hi_le hmem
  -- in both cases the queue is the old one with `w'` in the place of `w`
  have hcq : c'.queue = q ++ w' :: r := by
    rcases hqueues with ⟨-, hu, hw⟩ | ⟨-, hu, hw⟩
    · rw [Conn.queue, hu, hw]
    · rw [Conn.queue, hu, hw, append_assoc]
      rfl
  have hfull : ∀ x ∈ q, P.hi x.ident ≤ c'.sent := fun x hx =>
    le_trans (h.hi_le_start hqueue x hx) hle
  have hafter : ∀ x ∈ r, c'.sent ≤ P.lo x.ident := fun x hx => by
    have := h.le_lo_after hqueue x hx
    omega
  have hpart : ∀ x ∈ r, c'.sent < P.hi x.ident := fun x hx =>
    lt_of_le_of_lt (hafter x hx) (h.cut (hmemr x hx))
  refine { h with
    isn := hisn, una_le := by omega, sent_le := by omega
    idents := ?_, held := ?_, full := ?_, part := ?_ }
  · rw [← h.idents, hcq, hqueue]
    simp [hident]
  · rw [hcq]
    refine forall_mem_append.2 ⟨fun x hx => ?_, forall_mem_cons.2 ⟨hw', fun x hx => ?_⟩⟩
    · have hxq : x ∈ c.queue := hqueue ▸ mem_append_left _ hx
      exact (h.held x hxq).move (h.cut hxq) (.inl ⟨hq x hx, hfull x hx⟩)
    · exact (h.held x (hmemr x hx)).move (h.cut (hmemr x hx)) (.inr ⟨hr x hx, hafter x hx⟩)
  · rcases hqueues with ⟨-, hu, -⟩ | ⟨hend, hu, -⟩
    · rw [hu]
      exact hfull
    · rw [hu]
      exact forall_mem_append.2 ⟨hfull, forall_mem_singleton.2 (by rw [hident, hend])⟩
  · rcases hqueues with ⟨hend, -, hw⟩ | ⟨-, -, hw⟩
    · rw [hw]
      exact forall_mem_cons.2 ⟨hident ▸ hend, hpart⟩
    · rw [hw]
      exact hpart

/-- A retransmission takes the last buffer back of which something is sent. -/
theorem Aligned.rewind (hr : ∀ x ∈ r, x.sent = 0) (hisn : c'.isn = c.isn)
    (hsent : c'.sent = c.sent - w.sent) (hu : c'.unackedQ = q) (hw : c'.writeQ = w.retry :: r) :
    P.Aligned c' rel := by
  have hmem := mem_split hqueue
  have hlt := h.start_lt hmem
  have hstart := h.start_le hqueue hq
  -- the bytes behind `w` are not sent
  have hrest : ∀ x ∈ r, c.sent ≤ P.lo x.ident := by
    intro x hx
    have hx0 := (h.held x (mem_after hqueue x hx)).sent
    have hxlt := h.start_lt (mem_after hqueue x hx)
    have huna : P.una ≤ P.start w.ident := le_max_left _ _
    have hxstart : P.start x.ident = P.lo x.ident :=
      max_eq_right (by have := h.le_lo_after hqueue x hx; omega)
    rw [hr x hx] at hx0
    omega
  have hend := h.le_hi hqueue hrest h.sent_le
  have hheld := h.held w hmem
  have hc : c'.sent = P.start w.ident := by
    rw [hsent, hheld.sent]
    omega
  refine h.shift hqueue hq hrest (hisn.trans h.isn) hc.ge ?_ (.inl ⟨by omega, hu, hw⟩) rfl
  rw [hc]
  refine ⟨hheld.una_lt, hheld.data, ?_, ?_⟩
  · rcases hheld.number with hnum | ⟨hun, hle⟩
    · exact .inl hnum
    · exact .inr ⟨hun, max_le (le_trans h.una_le hle) le_rfl⟩
  · show 0 = min (P.start w.ident) (P.hi w.ident) - P.start w.ident
    omega

end

/-! ## Polls -/

section

variable (h : P.Aligned c rel)
include h

section

variable (hq : c.writeQ = w :: rest)
include hq

/-- The number of the head of `write_q` is that of its position. -/
theorem Aligned.assignSeqno :
    assignSeqno c w = { w with seqno := P.isn + P.start w.ident } := by
  have hqueue : c.queue = c.unackedQ ++ w :: rest := by rw [Conn.queue, hq]
  have hmem := mem_split hqueue
  have hstart := h.start_le hqueue h.full
  have hlo : P.lo w.ident ≤ P.start w.ident := le_max_right _ _
  have hle := h.sent_le
  have hfits := h.fits
  unfold Tcp.assignSeqno
  rcases (h.held w hmem).number with hnum | ⟨hun, hpos⟩
  · rw [if_neg, ← hnum]
    have hlt := h.start_lt hmem
    have := h.hi_le hmem
    rw [hnum, unassigned]
    omega
  · rw [if_pos hun, h.isn, u32_eq_self (by omega), show c.sent = P.start w.ident by omega]

theorem Aligned.insert_unacked {w' : Wrb} (hw' : w'.seqno = P.isn + P.start w.ident) :
    psockInsertSegment w' c.unackedQ = c.unackedQ ++ [w'] := by
  have hqueue : c.queue = c.unackedQ ++ w :: rest := by rw [Conn.queue, hq]
  refine insertWhere_of_forall fun x hx => decide_eq_true ?_
  have hxq : x ∈ c.queue := mem_append_left _ hx
  have hlt := h.start_lt hxq
  have hle := h.hi_le_start hqueue x hx
  rw [(h.held x hxq).assigned (lt_of_lt_of_le hlt (h.full x hx)), hw']
  omega

/-- Sending keeps the buffers in their places, and the segment carries the bytes of its place. -/
theorem Aligned.sendHead :
    P.Aligned (sendHead c w rest).1 rel ∧ Carries P.isn P.stream
      (tcpGetsequence (Tcp.sendHead c w rest).1.sndseq, (Tcp.sendHead c w rest).2) := by
  have hqueue : c.queue = c.unackedQ ++ w :: rest := by rw [Conn.queue, hq]
  have hmem := mem_split hqueue
  have hheld := h.held w hmem
  have hpkt := h.pktlen_eq hmem
  have hsmall : w.pktlen < 65536 := u16_lt _
  have hstart := h.start_le hqueue h.full
  have hlt := h.part w (hq ▸ mem_cons_self)
  have hle := h.hi_le hmem
  have hfits := h.fits
  have hsent : w.sent = c.sent - P.start w.ident := by rw [hheld.sent, min_eq_left hlt.le]
  have hrest : ∀ x ∈ rest, c.sent ≤ P.lo x.ident := fun x hx =>
    le_trans hlt.le (h.le_lo_after hqueue x hx)
  have hn : sndlenOf c w ≤ P.hi w.ident - c.sent := by
    have hsub : sub32 w.pktlen w.sent = w.pktlen - w.sent := sub32_eq_self (by omega) (by omega)
    simp only [sndlenOf, hsub]
    omega
  rw [sendHead_eq_park, h.assignSeqno hq]
  generalize sndlenOf c w = n at hn ⊢
  rw [u16_eq_self (show w.sent + n < 65536 by omega)]
  have hcount : u32 (c.sent + n) = c.sent + n := u32_eq_self (by omega)
  have hnum : tcpGetsequence (tcpSetsequence (u32 (P.isn + P.start w.ident + w.sent))) =
      P.isn + c.sent := by
    rw [tcpGetsequence_set, u32_eq_self (u32_lt _), u32_eq_self (by omega)]
    omega
  have hdata : (w.data.drop w.sent).take n = piece P.stream c.sent n := by
    rw [hheld.data, drop_piece, piece, take_take, min_eq_left (by omega), piece,
      show P.start w.ident + w.sent = c.sent by omega]
  have hcarries : Carries P.isn P.stream (P.isn + c.sent, (w.data.drop w.sent).take n) := by
    rw [hdata, Carries, length_piece (by omega), Nat.add_sub_cancel_left]
    exact ⟨Nat.le_add_right _ _, by omega, rfl⟩
  have hw' : P.Holds (u32 (c.sent + n))
      { w with seqno := P.isn + P.start w.ident, sent := w.sent + n } := by
    rw [hcount]
    refine ⟨hheld.una_lt, hheld.data, .inl rfl, ?_⟩
    show w.sent + n = min (c.sent + n) (P.hi w.ident) - P.start w.ident
    omega
  have hback : P.start w.ident ≤ u32 (c.sent + n) := by omega
  by_cases hdone : w.sent + n ≥ w.pktlen
  · rw [park_of_done _ _ hdone]
    refine ⟨h.shift hqueue h.full hrest h.isn hback hw'
      (.inr ⟨hcount.trans (by omega), h.insert_unacked hq rfl, rfl⟩) rfl, ?_⟩
    exact hnum ▸ hcarries
  · rw [park_of_part _ _ hdone]
    refine ⟨h.shift hqueue h.full hrest h.isn hback hw'
      (.inl ⟨lt_of_eq_of_lt hcount (by omega), rfl, rfl⟩) rfl, ?_⟩
    exact hnum ▸ hcarries

end

theorem Aligned.sendEvent (busy addrchck : Bool) (flags : Events) :
    P.Aligned (sendEvent busy addrchck flags c).1 rel ∧
      ((Tcp.sendEvent busy addrchck flags c).2.1 ≠ [] → Carries P.isn P.stream
        (tcpGetsequence (Tcp.sendEvent busy addrchck flags c).1.sndseq,
          (Tcp.sendEvent busy addrchck flags c).2.1)) := by
  simp only [Tcp.sendEvent]
  split
  · exact ⟨h, fun hne => absurd rfl hne⟩
  · split
    · split
      · exact ⟨h, fun hne => absurd rfl hne⟩
      case h_2 w rest hq =>
        obtain ⟨h1, h2⟩ := h.sendHead hq
        exact ⟨h1, fun _ => h2⟩
    · exact ⟨h, fun hne => absurd rfl hne⟩

end

/-! ## Retransmissions -/

theorem takeBack_sent (c : Conn) (w : Wrb) : (takeBack c w).sent = c.sent - w.sent := by
  simp only [takeBack]
  split <;> omega

/-- The first part of the `TCP_REXMIT` branch, when no buffer expires. -/
theorem Aligned.rexmitHead (h : P.Aligned c rel) (hout : (rexmitHead c).2 = []) :
    P.Aligned (Tcp.rexmitHead c).1 rel ∧
      ∀ w ∈ (Tcp.rexmitHead c).1.writeQ, w.sent = 0 := by
  -- only the head of `write_q` is partly sent
  have hzero : ∀ {w rest}, c.writeQ = w :: rest → ∀ x ∈ rest, x.sent = 0 := by
    intro w rest hq x hx
    have hqueue : c.queue = c.unackedQ ++ w :: rest := by rw [Conn.queue, hq]
    have hlt := h.part w (hq ▸ mem_cons_self)
    have hafter := h.le_lo_after hqueue x hx
    have hlo : P.lo x.ident ≤ P.start x.ident := le_max_right _ _
    rw [(h.held x (mem_after hqueue x hx)).sent]
    omega
  cases hq : c.writeQ with
  | nil =>
    rw [rexmitHead_of_nil hq, hq]
    exact ⟨h, by simp⟩
  | cons w rest =>
    by_cases hsent : w.sent > 0
    · have hexp : ¬ w.retry.nrtx ≥ tcpMaxrtx := fun hexp => by
        rw [rexmitHead_of_expired hq hsent hexp] at hout
        cases hout
      rw [rexmitHead_of_retry hq hsent hexp]
      exact ⟨h.rewind (by rw [Conn.queue, hq]) h.full (hzero hq) rfl (takeBack_sent _ w) rfl rfl,
        forall_mem_cons.2 ⟨rfl, hzero hq⟩⟩
    · rw [rexmitHead_of_unsent hq hsent, hq]
      exact ⟨h, forall_mem_cons.2 ⟨by omega, hzero hq⟩⟩

theorem Aligned.insert_write (h : P.Aligned c rel) (hqueue : c.queue = q ++ w :: r)
    (hw : P.hi w.ident ≤ c.sent) : psockInsertSegment w.retry r = w.retry :: r := by
  have hmem := mem_split hqueue
  have hlt := h.start_lt hmem
  have hle := h.hi_le hmem
  have hfits := h.fits
  cases r with
  | nil => rfl
  | cons x r =>
    refine insertWhere_cons_neg ?_ _ r
    rw [decide_eq_false_iff_not, not_lt]
    have hafter := h.le_lo_after hqueue x mem_cons_self
    have hlo : P.lo x.ident ≤ P.start x.ident := le_max_right _ _
    have hx := (h.held x (mem_after hqueue x mem_cons_self)).number
    show w.seqno ≤ x.seqno
    rw [(h.held w hmem).assigned (by omega)]
    rw [unassigned] at hx
    omega

/-- The loop over `unacked_q` in the `TCP_REXMIT` branch, when no buffer expires. The invariant is
about the connection with the buffers still to come in `unacked_q`. -/
theorem Aligned.rexmitAll (q : List Wrb) : ∀ {c : Conn}, c.unackedQ = [] →
    P.Aligned { c with unackedQ := q } rel → (∀ w ∈ c.writeQ, w.sent = 0) →
    (rexmitAll c q.reverse).2 = [] → P.Aligned (Tcp.rexmitAll c q.reverse).1 rel := by
  -- the loop takes the last entry first
  induction q using reverseRecOn with
  | nil =>
    intro c hc h _ _
    rw [← hc] at h
    exact h
  | append_singleton q w ih =>
    intro c hc h hzero hout
    have hqueue : (q ++ [w]) ++ c.writeQ = q ++ w :: c.writeQ := by rw [append_assoc]; rfl
    rw [reverse_append, reverse_singleton, singleton_append] at hout ⊢
    simp only [Tcp.rexmitAll, append_eq_nil_iff] at hout ⊢
    obtain ⟨hout1, hout2⟩ := hout
    -- no buffer expires, so that this one goes back to the front of `write_q`
    have hexp : ¬ w.retry.nrtx ≥ tcpMaxrtx := fun hexp => by
      rw [rexmitOne_of_expired c hexp] at hout1
      cases hout1
    have hfront : psockInsertSegment w.retry (takeBack c w).writeQ = w.retry :: c.writeQ :=
      h.insert_write hqueue (h.full w (by simp))
    rw [rexmitOne_of_retry c hexp, hfront] at hout2 ⊢
    refine ih hc (h.rewind hqueue ?_ hzero rfl (takeBack_sent c w) rfl rfl) ?_ hout2
    · exact fun x hx => h.full x (mem_append_left _ hx)
    · exact forall_mem_cons.2 ⟨rfl, hzero⟩

/-- A retransmission timeout takes all sent bytes back and moves all buffers to `write_q`. -/
theorem Aligned.rexmitEvent (h : P.Aligned c rel) (hout : (rexmitEvent c).2 = []) :
    P.Aligned (Tcp.rexmitEvent c).1 rel := by
  simp only [Tcp.rexmitEvent, append_eq_nil_iff] at hout ⊢
  obtain ⟨hhead, hzero⟩ := h.rexmitHead hout.1
  exact Aligned.rexmitAll _ rfl hhead hzero hout.2

/-! ## Acknowledgements -/

section Ack

variable {a pos : Nat}

/-- A buffer that starts behind the acknowledged bytes. -/
theorem Holds.keep (h : P.Holds pos w) (hlo : P.una ≤ a) (ha : a ≤ P.start w.ident)
    (hlt : P.start w.ident < P.hi w.ident) : (P.ack a).Holds pos w := by
  have hstart : (P.ack a).start w.ident = P.start w.ident := by
    show max a (P.lo w.ident) = P.start w.ident
    unfold start at ha ⊢
    omega
  refine ⟨lt_of_le_of_lt ha hlt, ?_, ?_, ?_⟩ <;> rw [hstart]
  exacts [h.data, h.number, h.sent]

/-- A buffer from which acknowledged bytes are cut off. -/
theorem Holds.trim (h : P.Holds pos w) (ha : P.start w.ident < a) (hhi : a < P.hi w.ident) :
    (P.ack a).Holds pos
      { w.trim (a - P.start w.ident) with
        seqno := P.isn + a, sent := w.sent - (a - P.start w.ident) } := by
  have hstart : max a (P.lo w.ident) = a := by
    unfold start at ha
    omega
  refine ⟨hhi, ?_, .inl ?_, ?_⟩
  · show w.data.drop _ = piece P.stream (max a (P.lo w.ident)) (P.hi w.ident - max a (P.lo w.ident))
    rw [h.data, drop_piece, hstart, show P.start w.ident + (a - P.start w.ident) = a by omega]
    congr 1
    omega
  · show P.isn + a = P.isn + max a (P.lo w.ident)
    rw [hstart]
  · show w.sent - _ = min pos (P.hi w.ident) - max a (P.lo w.ident)
    rw [h.sent, hstart]
    omega

theorem Aligned.ackUnacked (h : P.Aligned c rel) (hlo : P.una ≤ a) (hw : w ∈ c.unackedQ) :
    ackUnacked (P.isn + a) w = none ∧ P.hi w.ident ≤ a ∨
      ∃ w', Tcp.ackUnacked (P.isn + a) w = some w' ∧ w'.ident = w.ident ∧
        a < P.hi w.ident ∧ (P.ack a).Holds c.sent w' := by
  have hmem : w ∈ c.queue := mem_append_left _ hw
  have hheld := h.held w hmem
  have hlt := h.start_lt hmem
  have hle := h.hi_le hmem
  have hfits := h.fits
  have hfull := h.full w hw
  have hsent := hheld.sent
  have hnum := hheld.assigned (lt_of_lt_of_le hlt hfull)
  have hlast : u32 (w.seqno + w.pktlen) = P.isn + P.hi w.ident := by
    rw [h.pktlen_eq hmem, hnum, u32_eq_self (by omega)]
    omega
  simp only [Tcp.ackUnacked, hlast]
  by_cases ha : a ≤ P.start w.ident
  · rw [if_neg (by omega)]
    exact .inr ⟨w, rfl, rfl, by omega, hheld.keep hlo ha hlt⟩
  · rw [if_pos (by omega)]
    by_cases hall : P.hi w.ident ≤ a
    · exact .inl ⟨if_pos (by omega), hall⟩
    · have hmin : min (P.isn + a - w.seqno) w.sent = a - P.start w.ident := by omega
      rw [if_neg (by omega), hmin]
      exact .inr ⟨_, rfl, rfl, by omega, hheld.trim (by omega) (by omega)⟩

/-- The buffers of `write_q`, of which only the head can be partly sent. -/
theorem Aligned.ackWriteQ (h : P.Aligned c rel) (hlo : P.una ≤ a) (hhi : a ≤ c.sent) :
    (ackWriteQ (P.isn + a) c.writeQ).map Wrb.ident = c.writeQ.map Wrb.ident ∧
      ∀ w ∈ Tcp.ackWriteQ (P.isn + a) c.writeQ,
        c.sent < P.hi w.ident ∧ (P.ack a).Holds c.sent w := by
  cases hq : c.writeQ with
  | nil => exact ⟨rfl, by simp [Tcp.ackWriteQ]⟩
  | cons w rest =>
    have hqueue : c.queue = c.unackedQ ++ w :: rest := by rw [Conn.queue, hq]
    have hmem := mem_split hqueue
    have hheld := h.held w hmem
    have hpart := h.part w (hq ▸ mem_cons_self)
    have hsent := hheld.sent
    have hrest : ∀ x ∈ rest, c.sent < P.hi x.ident ∧ (P.ack a).Holds c.sent x := by
      intro x hx
      have hxq := mem_after hqueue x hx
      have hafter := h.le_lo_after hqueue x hx
      have hxstart : P.lo x.ident ≤ P.start x.ident := le_max_right _ _
      exact ⟨lt_trans hpart (h.hi_lt_after hqueue x hx),
        (h.held x hxq).keep hlo (by omega) (h.start_lt hxq)⟩
    simp only [Tcp.ackWriteQ, ackHead]
    by_cases ha : a ≤ P.start w.ident
    · have hkeep : ¬ (w.sent > 0 ∧ P.isn + a > w.seqno) := by
        rintro ⟨hpos, hgt⟩
        rw [hheld.assigned (by omega)] at hgt
        omega
      rw [if_neg hkeep]
      exact ⟨rfl, forall_mem_cons.2 ⟨⟨hpart, hheld.keep hlo ha (h.start_lt hmem)⟩, hrest⟩⟩
    · have hnum := hheld.assigned (by omega)
      have hmin : min (P.isn + a - w.seqno) w.sent = a - P.start w.ident := by omega
      rw [if_pos ⟨by omega, by omega⟩, hmin]
      exact ⟨rfl, forall_mem_cons.2 ⟨⟨hpart, hheld.trim (by omega) (by omega)⟩, hrest⟩⟩

/-- When the dropped entries of a list are its first ones, dropped and kept entries together are the
list. -/
theorem map_filter_filterMap {f : Wrb → Option Wrb} {q : List Wrb}
    (hid : ∀ w ∈ q, ∀ w', f w = some w' → w'.ident = w.ident)
    (hfirst : q.Pairwise fun x y => f y = none → f x = none) :
    (q.filter fun w => (f w).isNone).map Wrb.ident ++ (q.filterMap f).map Wrb.ident =
      q.map Wrb.ident := by
  induction q with
  | nil => rfl
  | cons w q ih =>
    obtain ⟨hw, hq⟩ := pairwise_cons.1 hfirst
    have ih := ih (forall_mem_cons.1 hid).2 hq
    cases hf : f w with
    | none => simp [hf, ih]
    | some w' =>
      have hnil : (q.filter fun w => (f w).isNone) = [] := by
        refine filter_eq_nil_iff.2 fun x hx hnone => ?_
        have := hw x hx (Option.isNone_iff_eq_none.1 hnone)
        rw [hf] at this
        cases this
      simp [hf, hnil, hid w mem_cons_self w' hf, ← ih]

/-- An acknowledgement of sent bytes cuts them off the front of the queue. -/
theorem Aligned.ackEvent (h : P.Aligned c rel) (hlo : P.una ≤ a) (hhi : a ≤ c.sent) :
    (P.ack a).Aligned (ackEvent (P.isn + a) c).1 (rel ++ (Tcp.ackEvent (P.isn + a) c).2) := by
  obtain ⟨hwids, hwrite⟩ := h.ackWriteQ hlo hhi
  have hack := fun w => h.ackUnacked (w := w) hlo
  have hgone : ∀ w ∈ c.unackedQ, Tcp.ackUnacked (P.isn + a) w = none ↔ P.hi w.ident ≤ a := by
    intro w hw
    rcases hack w hw with ⟨hnone, hle⟩ | ⟨w', hsome, -, hlt, -⟩
    · exact iff_of_true hnone hle
    · exact iff_of_false (by rw [hsome]; exact Option.some_ne_none w') (not_le.2 hlt)
  have hkept : ∀ w ∈ c.unackedQ, ∀ w', Tcp.ackUnacked (P.isn + a) w = some w' →
      w'.ident = w.ident ∧ (P.ack a).Holds c.sent w' := by
    intro w hw w' hw'
    rcases hack w hw with ⟨hnone, -⟩ | ⟨x, hx, hident, -, hheld⟩
    · rw [hnone] at hw'
      cases hw'
    · rw [hx] at hw'
      cases hw'
      exact ⟨hident, hheld⟩
  -- the released buffers are the first ones
  have hids := map_filter_filterMap (fun w hw w' hw' => (hkept w hw w' hw').1)
    ((pairwise_append.1 (pairwise_append.1 h.sorted).2.1).1.imp_of_mem fun {x y} hx hy hlt hy' => by
      have hle := h.hi_le_lo hlt (h.ident_lt (mem_append_left _ hy)).le
      have hcut := h.cut (mem_append_left _ hy)
      have hend := (hgone y hy).1 hy'
      exact (hgone x hx).2 (by omega))
  refine { h with una_le := hhi, idents := ?_, gone := ?_, held := ?_, full := ?_, part := ?_ }
  · rw [map_append, append_assoc]
    refine Eq.trans ?_ h.idents
    simp only [Conn.queue, Tcp.ackEvent, map_append, hwids, ← append_assoc, hids]
  · refine forall_mem_append.2 ⟨fun w hw => le_trans (h.gone w hw) hlo, fun w hw => ?_⟩
    obtain ⟨hw, hnone⟩ := mem_filter.1 hw
    exact (hgone w hw).1 (Option.isNone_iff_eq_none.1 hnone)
  · refine forall_mem_append.2 ⟨fun w' hw' => ?_, fun w hw => (hwrite w hw).2⟩
    obtain ⟨w, hw, hsome⟩ := mem_filterMap.1 hw'
    exact (hkept w hw w' hsome).2
  · intro w' hw'
    obtain ⟨w, hw, hsome⟩ := mem_filterMap.1 hw'
    rw [(hkept w hw w' hsome).1]
    exact h.full w hw
  · exact fun w hw => (hwrite w hw).1

end Ack

/-! ## Sends -/

section Send

variable {data : List UInt8} {i : Nat}

theorem lo_add (hi : i ≤ P.ends.length) : (P.add data).lo i = P.lo i := by
  show (0 :: P.ends ++ _).getD i 0 = _
  rw [getD_eq_getElem?_getD, getElem?_append_left (Nat.lt_succ_of_le hi)]
  rfl

theorem hi_add (hi : i < P.ends.length) : (P.add data).hi i = P.hi i := lo_add hi

theorem hi_add_last : (P.add data).hi P.ends.length = P.stream.length + data.length := by
  simp [hi, add]

theorem Aligned.append (h : P.Aligned c rel) (hpos : 0 < w.data.length)
    (hlt : w.data.length < 65536)
    (hseq : w.seqno = unassigned) (hsent : w.sent = 0) (hident : w.ident = P.ends.length)
    (hfits : P.isn + P.stream.length + w.data.length < 4294967296) :
    (P.add w.data).Aligned { c with writeQ := c.writeQ ++ [w] } rel := by
  have hle := h.una_le
  have hle' := h.sent_le
  have hlen : (P.add w.data).stream.length = P.stream.length + w.data.length := length_append
  have hends : (P.add w.data).ends.length = P.ends.length + 1 := length_append
  have hlo : (P.add w.data).lo w.ident = P.stream.length := by rw [hident, lo_add le_rfl, h.last]
  have hhi : (P.add w.data).hi w.ident = P.stream.length + w.data.length := by
    rw [hident, hi_add_last]
  have hstart : (P.add w.data).start w.ident = P.stream.length := by
    show max P.una _ = _
    omega
  have hqueue : ({ c with writeQ := c.writeQ ++ [w] } : Conn).queue = c.queue ++ [w] :=
    (append_assoc _ _ _).symm
  refine ⟨h.isn, ?_, hle, ?_, ?_, ?_, ?_, ?_, ?_, ?_, ?_⟩
  · show P.isn + (P.add w.data).stream.length < 4294967296
    omega
  · show c.sent ≤ (P.add w.data).stream.length
    omega
  · intro i hi
    rcases Nat.lt_or_ge i P.ends.length with hold | hnew
    · rw [lo_add hold.le, hi_add hold]
      exact h.cuts i hold
    · rw [show i = w.ident by omega, hlo, hhi]
      omega
  · rw [hends, hlen]
    exact hi_add_last
  · rw [hqueue, map_append, ← append_assoc, h.idents, hends, range_succ, map_singleton, hident]
  · intro x hx
    rw [hi_add (h.mem_idents.2 ⟨x, mem_append_left _ hx, rfl⟩)]
    exact h.gone x hx
  · rw [hqueue]
    refine forall_mem_append.2 ⟨fun x hx => ?_,
      forall_mem_singleton.2 ⟨?_, ?_, .inr ⟨hseq, ?_⟩, ?_⟩⟩
    · -- the places of the old buffers stay
      have hi := h.ident_lt hx
      have hx' : (P.add w.data).start x.ident = P.start x.ident := by
        show max P.una _ = max P.una _
        rw [lo_add hi.le]
      obtain ⟨hun, hdata, hnum, hsent⟩ := h.held x hx
      have hend := h.hi_le hx
      have hbegin := h.start_lt hx
      refine ⟨?_, ?_, ?_, ?_⟩ <;> simp only [hx', lo_add hi.le, hi_add hi]
      exacts [hun, hdata.trans (piece_append (by omega) w.data).symm, hnum, hsent]
    · rw [hhi]
      show P.una < _
      omega
    · rw [hstart, hhi, Nat.add_sub_cancel_left]
      show w.data = piece (P.stream ++ w.data) _ _
      rw [piece, drop_left, take_length]
    · rw [hlo]
      exact hle'
    · rw [hstart, hsent]
      show 0 = min c.sent _ - _
      omega
  · intro x hx
    rw [hi_add (h.ident_lt (mem_append_left _ hx))]
    exact h.full x hx
  · refine forall_mem_append.2 ⟨fun x hx => ?_, forall_mem_singleton.2 ?_⟩
    · rw [hi_add (h.ident_lt (mem_append_right _ hx))]
      exact h.part x hx
    · rw [hhi]
      exact lt_of_le_of_lt hle' (by omega)

end Send

/-! ## The bytes of the queues -/

section

variable (h : P.Aligned c rel)
include h

theorem Aligned.released_eq :
    rel.map Wrb.ident = range rel.length ∧
      c.queue.map Wrb.ident = range' rel.length c.queue.length := by
  have hids := h.idents
  have hlen := congrArg length hids
  rw [length_append, length_map, length_map, length_range] at hlen
  have htake := congrArg (take rel.length) hids
  have hdrop := congrArg (drop rel.length) hids
  rw [take_left' (length_map _), take_range, min_eq_left (by omega)] at htake
  rw [drop_left' (length_map _), range_eq_range', drop_range'] at hdrop
  refine ⟨htake, hdrop.trans ?_⟩
  congr 1 <;> omega

/-- Buffers that follow each other up to the last one hold the rest of the stream. -/
theorem Aligned.flatMap_data (q : List Wrb) :
    ∀ i, q.map Wrb.ident = range' i q.length → i + q.length = P.ends.length →
      (∀ w ∈ q, P.Holds c.sent w) → q.flatMap Wrb.data = P.stream.drop (P.start i) := by
  induction q with
  | nil =>
    intro i _ hlen _
    have hend : P.stream.length ≤ P.start i := by
      rw [← h.last, ← hlen]
      exact le_max_right _ _
    exact (drop_eq_nil_of_le hend).symm
  | cons w q ih =>
    intro i hids hlen hheld
    obtain ⟨hident, hids⟩ := cons.inj hids
    obtain ⟨hlt, hdata, -, -⟩ := hheld w mem_cons_self
    rw [length_cons] at hlen
    rw [flatMap_cons, ih (i + 1) hids (by omega) (forall_mem_cons.1 hheld).2, hdata, hident]
    have hcut := (h.cuts i (by omega)).1
    -- the next buffer is not acknowledged at all
    have hnext : P.start (i + 1) = P.start i + (P.hi i - P.start i) := by
      show max P.una (P.hi i) = max P.una (P.lo i) + (P.hi i - max P.una (P.lo i))
      omega
    rw [hnext, piece_append_drop]

theorem Aligned.bytes : c.queue.flatMap Wrb.data = P.stream.drop P.una := by
  obtain ⟨hrel, hq⟩ := h.released_eq
  have hlen := congrArg length h.idents
  rw [length_append, length_map, length_map, length_range] at hlen
  have hstart : P.start rel.length = P.una := by
    refine max_eq_left ?_
    cases hn : rel.length with
    | zero => exact Nat.zero_le _
    | succ i =>
      obtain ⟨w, hw, rfl⟩ := mem_map.1 (hrel ▸ mem_range.2 (show i < rel.length by omega))
      exact h.gone w hw
  rw [h.flatMap_data _ _ hq hlen h.held, hstart]

theorem Aligned.released_iff {i e : Nat} (hi : P.ends[i]? = some e) :
    i ∈ rel.map Wrb.ident ↔ e ≤ P.una := by
  have he : P.hi i = e := by rw [Places.hi, getD_eq_getElem?_getD, hi]; rfl
  constructor
  · intro hmem
    obtain ⟨w, hw, rfl⟩ := mem_map.1 hmem
    exact he ▸ h.gone w hw
  · intro hle
    obtain ⟨hlt, -⟩ := List.getElem?_eq_some_iff.1 hi
    obtain ⟨w, hw, rfl⟩ := h.mem_idents.1 hlt
    rcases mem_append.1 hw with hw | hw
    · exact mem_map_of_mem hw
    · have := (h.held w hw).una_lt
      omega

end

end Places

/-! ## Whole runs -/

namespace Sender

variable {s : Sender}

/-- The places of the buffers of a sender. -/
def places (s : Sender) : Places := ⟨s.conn.isn, s.stream, s.ends, s.una⟩

/-- The invariant of the send side. -/
def Aligned (s : Sender) : Prop :=
  s.places.Aligned s.conn s.released ∧ ∀ g ∈ s.segments, Carries s.conn.isn s.stream g

theorem Aligned.settle {c : Conn} {released : List Wrb} {data : List UInt8}
    (h : s.places.Aligned c (s.released ++ released))
    (hseg : ∀ g ∈ s.segments, Carries s.conn.isn s.stream g)
    (hdata : data ≠ [] → Carries s.conn.isn s.stream (tcpGetsequence c.sndseq, data)) :
    (s.settle c released data).Aligned := by
  have hisn : c.isn = s.conn.isn := h.isn
  refine ⟨?_, ?_⟩
  · show Places.Aligned ⟨c.isn, _, _, _⟩ _ _
    rw [hisn]
    exact h
  · show ∀ g ∈ ite _ _ _, Carries c.isn s.stream g
    rw [hisn]
    split
    · exact hseg
    case isFalse hne => exact forall_mem_append.2 ⟨hseg, forall_mem_singleton.2 (hdata hne)⟩

theorem Aligned.send (h : s.Aligned) (nonblock : Bool) {room : Nat} {buf : List UInt8}
    (hroom : 0 < room) (hlt : (buf.take room).length < 65536)
    (hfits : s.conn.isn + s.stream.length + (buf.take room).length < 4294967296) :
    (s.apply (.send nonblock room buf)).Aligned := by
  by_cases hempty : buf = []
  · subst hempty
    exact h
  have hlen : ¬ buf.length = 0 := fun h0 => hempty (eq_nil_of_length_eq_zero h0)
  have hpos : 0 < (buf.take room).length := by
    rw [length_take]; omega
  have hadd := h.1.append (w := ⟨unassigned, 0, 0, buf.take room, s.ends.length⟩) hpos hlt rfl rfl
    rfl hfits
  have hpkt : (Wrb.mk unassigned 0 0 (buf.take room) s.ends.length).pktlen > 0 := by
    rw [Wrb.pktlen, u16_eq_self hlt]; exact hpos
  have hsegs : ∀ g ∈ s.segments, Carries s.conn.isn (s.stream ++ buf.take room) g := by
    intro g hg
    obtain ⟨hge, hfit, hdata⟩ := h.2 g hg
    refine ⟨hge, by rw [length_append]; omega, ?_⟩
    rw [piece_append hfit]
    exact hdata
  simp only [Sender.apply, psockTcpSend, if_neg hlen, if_neg hempty]
  cases nonblock with
  | false => exact ⟨hadd, hsegs⟩
  | true =>
    by_cases hfit : buf.length ≤ room
    · simp only [if_true, if_pos hfit]
      exact ⟨hadd, hsegs⟩
    · simp only [if_true, if_neg hfit, if_pos hpkt]
      exact ⟨hadd, hsegs⟩

theorem Aligned.apply (h : s.Aligned) {e : SendEvent}
    (hok : s.Allowed e) : (s.apply e).Aligned := by
  cases e with
  | send nonblock room buf => exact h.send nonblock hok.1 hok.2.1 hok.2.2
  | poll busy addrchck mss winsize =>
    have hlimits : s.places.Aligned (s.conn.setLimits mss winsize) s.released := { h.1 with }
    obtain ⟨h1, h2⟩ := hlimits.sendEvent busy addrchck { poll := true }
    exact @Aligned.settle _ _ [] _ ((append_nil s.released).symm ▸ h1) h.2 h2
  | rexmit busy addrchck mss winsize =>
    have hlimits : s.places.Aligned (s.conn.setLimits mss winsize) s.released := { h.1 with }
    have hout : (rexmitEvent (s.conn.setLimits mss winsize)).2 = [] := hok
    obtain ⟨h1, h2⟩ := (hlimits.rexmitEvent hout).sendEvent busy addrchck { rexmit := true }
    refine @Aligned.settle _ _ (rexmitEvent (s.conn.setLimits mss winsize)).2 _ ?_ h.2 h2
    rw [hout, append_nil]
    exact h1
  | ack ackno =>
    obtain ⟨hlo, -, hhi⟩ := hok
    have hackno : s.conn.isn + (ackno - s.conn.isn) = ackno := by omega
    have hacked := h.1.ackEvent (a := ackno - s.conn.isn) (show s.una ≤ _ by omega) (by omega)
    rw [show s.places.isn + (ackno - s.conn.isn) = ackno from hackno] at hacked
    simp only [Sender.apply, Sender.handle, psockSendEventhandler_ack]
    exact Aligned.settle (s := { s with una := _ }) hacked h.2 fun hne => absurd rfl hne

theorem Reachable.aligned (h : s.Reachable) : s.Aligned := by
  refine Reach.invariant ?_ ?_ h
  · rintro s ⟨hisn, hw, hu, hsent, hstream, huna, -, hends, hrel, hseg⟩
    have hqueue : s.conn.queue = [] := by rw [Conn.queue, hu, hw]; rfl
    refine ⟨⟨rfl, ?_, ?_, ?_, ?_, ?_, ?_, ?_, ?_, ?_, ?_⟩, by simp [hseg]⟩
    · simpa [places, hstream] using hisn
    · simp [places, huna]
    · simp [hsent]
    · simp [places, hends]
    · simp [places, Places.lo, hends, hstream]
    · simp [places, hqueue, hrel, hends]
    · simp [hrel]
    · simp [hqueue]
    · simp [hu]
    · simp [hw]
  · rintro s t hs ⟨e, hok, hst⟩
    exact Option.some.inj hst ▸ hs.apply hok

end Sender

/-- **Buffered TCP sends a faithful byte stream.** In every state of every run whose events keep the
promise of `Sender.Allowed`: a write buffer with a number holds the bytes of the stream at that
number; so does every segment that was handed to the device; all bytes from the highest acknowledged
one on are still queued, in order; and each accepted buffer is on a queue once or was released once,
the latter exactly when all its bytes are acknowledged. -/
theorem stream_faithful (s : Sender) (hs : s.Reachable) :
    (∀ w ∈ s.conn.unackedQ ++ s.conn.writeQ, w.seqno ≠ unassigned →
      s.conn.isn ≤ w.seqno ∧ w.data = (s.stream.drop (w.seqno - s.conn.isn)).take w.pktlen) ∧
    (∀ g ∈ s.segments,
      s.conn.isn ≤ g.1 ∧ g.2 = (s.stream.drop (g.1 - s.conn.isn)).take g.2.length) ∧
    (s.conn.unackedQ ++ s.conn.writeQ).flatMap Wrb.data = s.stream.drop s.una ∧
    (s.released ++ (s.conn.unackedQ ++ s.conn.writeQ)).map Wrb.ident = range s.ends.length ∧
    (∀ i e, s.ends[i]? = some e → (i ∈ s.released.map Wrb.ident ↔ e ≤ s.una)) := by
  obtain ⟨h, hsegs⟩ := hs.aligned
  refine ⟨fun w hw hass => ?_, fun g hg => ?_, h.bytes, ?_, fun i e hi => h.released_iff hi⟩
  · rcases (h.held w hw).number with hnum | ⟨hun, -⟩
    · rw [hnum, h.pktlen_eq hw]
      exact ⟨Nat.le_add_right _ _, (Nat.add_sub_cancel_left _ _).symm ▸ (h.held w hw).data⟩
    · exact absurd hun hass
  · obtain ⟨hle, -, hdata⟩ := hsegs g hg
    exact ⟨hle, hdata⟩
  · rw [map_append]
    exact h.idents

/-- A connection that starts at sequence number 1000, with nothing sent. -/
def sampleSender : Sender :=
  { conn :=
      { state := .established, stopped := false, rcvseq := tcpSetsequence 100
        sndseq := tcpSetsequence 1000, sa := 0, sv := 4, rto := 3, timer := 3, nrtx := 0, mss := 536
        winsize := 1000, unacked := 0, writeQ := [], unackedQ := [], expired := 0, sent := 0
        isn := 1000, sndseqMax := 0, keepalive := false, keeptime := 0, keepretries := 0 }
    stream := [], una := 0, top := 0, ends := [], released := [], segments := [] }

/-- The state after a list of events. -/
def Sender.run (s : Sender) (es : List SendEvent) : Sender :=
  after (fun s e => some (s.apply e)) s es

theorem sampleSender_reachable {es : List SendEvent}
    (h : AllSteps Sender.Allowed (fun s e => some (s.apply e)) sampleSender es) :
    (sampleSender.run es).Reachable :=
  Reach.after es (.start ⟨by decide, rfl, rfl, rfl, rfl, rfl, rfl, rfl, rfl, rfl⟩) h

/-- Two sends; a buffer goes out in two segments, is partly acknowledged, sent again after a timeout
and released. -/
def sampleEvents : List SendEvent :=
  [.send false 100 [1, 2, 3, 4, 5, 6], .poll false true 4 100, .poll false true 4 100,
    .send true 100 [7, 8], .ack 1005, .rexmit false true 4 100, .poll false true 4 100, .ack 1006]

theorem stream_faithful_sample :
    (sampleSender.run sampleEvents).Reachable ∧
      (sampleSender.run sampleEvents).segments =
        [(1000, [1, 2, 3, 4]), (1004, [5, 6]), (1005, [6]), (1006, [7, 8])] ∧
      (∀ g ∈ (sampleSender.run sampleEvents).segments,
        (sampleSender.run sampleEvents).conn.isn ≤ g.1 ∧
          g.2 = ((sampleSender.run sampleEvents).stream.drop
            (g.1 - (sampleSender.run sampleEvents).conn.isn)).take g.2.length) ∧
      (sampleSender.run sampleEvents).released.map Wrb.ident = [0] := by
  have hreach := @sampleSender_reachable sampleEvents (by decide)
  exact ⟨hreach, by decide, (stream_faithful _ hreach).2.1, by decide⟩

/-- A buffer that was sent completely, taken back by a timeout and sent again in part. -/
def lateAckEvents : List SendEvent :=
  [.send false 100 [1, 2, 3, 4, 5, 6], .poll false true 6 100, .rexmit false true 2 100]

/-- An acknowledgement of the first transmission then moves the sequence number of the buffer by six
and cuts two bytes off: the next segment sends byte 2 of the stream as byte 6. -/
theorem late_ack_misaligns :
    let s := sampleSender.run lateAckEvents
    s.Reachable ∧ s.conn.isn + s.una ≤ 1006 ∧ 1006 ≤ s.conn.isn + s.top ∧
      (s.apply (.ack 1006)).stream = [1, 2, 3, 4, 5, 6] ∧
      ((s.apply (.ack 1006)).conn.writeQ.map fun w => (w.seqno, w.data)) = [(1006, [3, 4, 5, 6])] ∧
      ((s.apply (.ack 1006)).apply (.poll false true 2 100)).segments =
        [(1000, [1, 2, 3, 4, 5, 6]), (1000, [1, 2]), (1006, [3, 4])] :=
  ⟨sampleSender_reachable (by decide), by decide⟩

end BaseNx.Tcp
