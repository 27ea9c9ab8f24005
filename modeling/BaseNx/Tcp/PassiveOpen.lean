import BaseNx.Tcp.Input

/-!
# Passive open

A SYN for a listener makes a connection in `TCP_SYN_RCVD`, which answers with a SYN-ACK that carries
its initial sequence number `x`. `tcpInput_synRcvd` says what a further segment can do to such a
connection. The acknowledgement number is not compared with `x + 1` anywhere on the way to
`TCP_ESTABLISHED` (`Establishes`), so that the promise of the handshake is kept exactly for the
segments that carry this number or do not get so far (`passive_open_of_peer_ack`), and a blind
acknowledgement opens a connection (`blind_ack_establishes`).
-/

namespace BaseNx.Tcp

open Lib

/-- `TCP_RTO`. -/
def tcpRto : Nat := 3

variable (app : App) (c : Conn) (seg : Segment)

/-- `tcp_alloc_accept` and the part of `tcp_input` behind it: the connection that a SYN for a
listener makes, where `iss` is the sequence number that `tcp_initsequence` gives, and the SYN-ACK
that is sent. -/
def acceptSyn (initialMss : Nat) (iss : Seqno) (seg : Segment) : Outcome :=
  let c : Conn :=
    { state := .synRcvd, stopped := false
      rcvseq := netIncr32 seg.seqno 1
      sndseq := iss
      sa := 0, sv := 4, rto := tcpRto, timer := tcpRto, nrtx := 0
      mss := (segmentMss app seg).getD initialMss
      winsize := 0, unacked := 1
      writeQ := [], unackedQ := []
      expired := 0, sent := 0, isn := 0, sndseqMax := 0
      keepalive := false, keeptime := 0, keepretries := 0 }
  { conn := c, reply := tcpSend c { syn := true, ack := true } [] }

/-- The connections in `TCP_SYN_RCVD` whose SYN-ACK carried the sequence number `x`: those made by a
SYN, after any number of segments and timeouts that left them there. -/
inductive HalfOpen (x : Nat) : Conn → Prop
  | opened (app : App) (mss : Nat) (iss : Seqno) (seg : Segment) (h : tcpGetsequence iss = x) :
      HalfOpen x (acceptSyn app mss iss seg).conn
  | input {c : Conn} (cfg : Config) (app : App) (seg : Segment) (hc : HalfOpen x c)
      (h : (tcpInput cfg app c seg).conn.state = .synRcvd) :
      HalfOpen x (tcpInput cfg app c seg).conn
  | timer {c : Conn} (timer nrtx : Nat) (hc : HalfOpen x c) :
      HalfOpen x { c with timer := timer, nrtx := nrtx }

/-! ## What a segment can do to a half-open connection -/

/-- The segment reaches the state machine with `TCP_ACKDATA` and a listener takes the connection. -/
def Establishes : Prop :=
  seg.ctl.ack = true ∧ c.unacked > 0 ∧ seg.ctl.rst = false ∧ outOfSequence c seg = false ∧
    app.accepts = true

theorem inputSynRcvd_idle : (inputSynRcvd app c seg false).conn = c := by
  simp only [inputSynRcvd]
  split
  · contradiction
  · split <;> rfl

/-- Without a listener the connection is freed. -/
theorem inputSynRcvd_refused {app : App} (h : app.accepts = false) (c : Conn) (seg : Segment) :
    (inputSynRcvd app c seg true).conn.state = .closed ∧
      (inputSynRcvd app c seg true).conn.isn = c.isn := by
  simp only [inputSynRcvd, h]
  exact ⟨rfl, rfl⟩

theorem tcpAppsend_isn (s : Cb) : (tcpAppsend s).conn.isn = s.conn.isn := by
  simp only [tcpAppsend, tcpRexmit]
  split_ifs <;> rfl

/-- With a listener the callbacks run on an established connection, whose `isn` is the
acknowledgement number. -/
theorem inputSynRcvd_accepted {app : App} (h : app.accepts = true) (c : Conn) (seg : Segment) :
    (inputSynRcvd app c seg true).conn.state ≠ .synRcvd ∧
      (inputSynRcvd app c seg true).conn.isn = tcpGetsequence seg.ackno := by
  simp only [inputSynRcvd, h, if_true]
  set s := startCb _ _ _ _
  have hest : s.conn.state = .established := rfl
  have hkeeps := (tcpCallback_keeps app seg s).state
  refine ⟨?_, (tcpAppsend_isn _).trans (tcpCallback_keeps app seg s).isn⟩
  rcases tcpAppsend_state (tcpCallback app seg s) with hst | hst | hst <;> rw [hst]
  · rcases hkeeps with hk | hk <;> rw [hk]
    · rw [hest]; decide
    · decide
  · decide
  · decide

/-- One segment for a connection in `TCP_SYN_RCVD`: the connection is established, or it is closed,
or it stays as it is up to the window. -/
theorem tcpInput_synRcvd (cfg : Config) (app : App) (c : Conn) (seg : Segment)
    (hstate : c.state = .synRcvd) :
    (Establishes app c seg ∧ (tcpInput cfg app c seg).conn.state ≠ .synRcvd ∧
        (tcpInput cfg app c seg).conn.isn = tcpGetsequence seg.ackno) ∨
      (¬ Establishes app c seg ∧ (tcpInput cfg app c seg).conn.state = .closed ∧
        (tcpInput cfg app c seg).conn.isn = c.isn) ∨
      (¬ Establishes app c seg ∧ (tcpInput cfg app c seg).conn = c.setWindow seg.wnd) := by
  have hfound : tcpInput cfg app c seg = inputFound cfg app c seg := by
    simp [tcpInput, hstate]
  have hwin : (c.setWindow seg.wnd).state = .synRcvd := hstate
  rw [hfound]
  simp only [inputFound]
  split
  case isTrue hrst =>
    refine .inr (.inl ⟨fun h => ?_, ?_⟩)
    · rw [h.2.2.1] at hrst; cases hrst
    · simp only [inputRst, hwin, if_true]
      exact ⟨rfl, rfl⟩
  case isFalse hrst =>
    rw [if_neg (by simp [keepaliveProbe, hwin])]
    split
    case isTrue hseq =>
      refine .inr (.inr ⟨fun h => ?_, rfl⟩)
      have hseq' : outOfSequence c seg = true := hseq
      rw [h.2.2.2.1] at hseq'; cases hseq'
    case isFalse hseq =>
      have hseq' : outOfSequence c seg = false := Bool.eq_false_iff.mpr hseq
      split
      case h_1 hnone =>
        -- the acknowledgement block resets established connections only
        simp only [processAck, hwin] at hnone
        split at hnone <;> simp at hnone
      case h_2 c' ackdata hsome =>
        obtain ⟨hsame, hack, hidle⟩ := processAck_some hsome
        have hstate' : c'.state = .synRcvd := hsame.state.trans hstate
        simp only [stateMachine, hstate']
        cases ackdata with
        | false =>
          refine .inr (.inr ⟨fun h => ?_, ?_⟩)
          · have := hack.mpr ⟨h.1, h.2.1⟩
            cases this
          · rw [inputSynRcvd_idle]
            exact hidle rfl
        | true =>
          obtain ⟨hctl, hunacked⟩ := hack.mp rfl
          cases hacc : app.accepts with
          | true =>
            exact .inl ⟨⟨hctl, hunacked, Bool.eq_false_iff.mpr hrst, hseq', hacc⟩,
              inputSynRcvd_accepted hacc c' seg⟩
          | false =>
            obtain ⟨hclosed, hisn⟩ := inputSynRcvd_refused hacc c' seg
            refine .inr (.inl ⟨fun h => ?_, hclosed, hisn.trans hsame.isn⟩)
            have haccepts := hacc ▸ h.2.2.2.2
            cases haccepts

theorem HalfOpen.synRcvd {x : Nat} {c : Conn} (h : HalfOpen x c) :
    c.state = .synRcvd ∧ tcpGetsequence c.sndseq = x ∧ 0 < c.unacked := by
  induction h with
  | opened app mss iss seg h => exact ⟨rfl, h, Nat.one_pos⟩
  | @input c cfg app seg hc h ih =>
    refine ⟨h, ?_⟩
    rcases tcpInput_synRcvd cfg app c seg ih.1 with ⟨-, hne, -⟩ | ⟨-, hclosed, -⟩ | ⟨-, hkept⟩
    · exact absurd h hne
    · rw [hclosed] at h; cases h
    · rw [hkept]; exact ih.2
  | timer timer nrtx hc ih => exact ih

/-! ## The acknowledgement number -/

/-- **A half-open connection is established only by an acknowledgement of its SYN-ACK**, and every
other segment leaves it in `TCP_SYN_RCVD` or closes it and leaves its `isn` alone, whatever that
holds: this is so if and only if the segment acknowledges `x`, or has no ACK, or is a reset, or is
out of sequence, or no listener takes the connection. -/
theorem passive_open_of_peer_ack (cfg : Config) (app : App) (x : Nat) (c : Conn) (seg : Segment)
    (hc : HalfOpen x c) :
    (((tcpInput cfg app c seg).conn.state = .established →
        seg.ctl.ack = true ∧ tcpGetsequence seg.ackno = u32 (x + 1)) ∧
      (¬ (seg.ctl.ack = true ∧ tcpGetsequence seg.ackno = u32 (x + 1)) →
        ((tcpInput cfg app c seg).conn.state = .synRcvd ∨
          (tcpInput cfg app c seg).conn.state = .closed) ∧
        ∀ n, (tcpInput cfg app { c with isn := n } seg).conn.isn = n)) ↔
    tcpGetsequence seg.ackno = u32 (x + 1) ∨ seg.ctl.ack = false ∨ seg.ctl.rst = true ∨
      outOfSequence c seg = true ∨ app.accepts = false := by
  obtain ⟨hstate, -, hunacked⟩ := hc.synRcvd
  have hisn n := tcpInput_synRcvd cfg app { c with isn := n } seg hstate
  by_cases hest : Establishes app c seg
  case pos =>
    -- the acknowledgement number becomes the `isn`, so that another one than before is seen
    have hset n : (tcpInput cfg app { c with isn := n } seg).conn.isn =
        tcpGetsequence seg.ackno := by
      rcases hisn n with h | h | h
      · exact h.2.2
      · exact absurd hest h.1
      · exact absurd hest h.1
    obtain ⟨hack, -, hrst, hseq, hacc⟩ := hest
    simp only [hack, hrst, hseq, hacc, true_and, Bool.true_eq_false, Bool.false_eq_true, or_false]
    refine ⟨fun h => ?_, fun h => ⟨fun _ => h, fun hno => absurd h hno⟩⟩
    by_contra hno
    have := (hset _).symm.trans ((h.2 hno).2 (tcpGetsequence seg.ackno + 1))
    omega
  case neg =>
    have hcond : seg.ctl.ack = false ∨ seg.ctl.rst = true ∨ outOfSequence c seg = true ∨
        app.accepts = false := by
      simp only [Establishes, hunacked, true_and] at hest
      by_contra hno
      simp only [not_or, Bool.not_eq_false, Bool.not_eq_true] at hno
      exact hest hno
    refine iff_of_true ?_ (.inr hcond)
    rcases tcpInput_synRcvd cfg app c seg hstate with h | ⟨-, hclosed, -⟩ | ⟨-, hkept⟩
    · exact absurd h.1 hest
    all_goals
      have hleft n : (tcpInput cfg app { c with isn := n } seg).conn.isn = n := by
        rcases hisn n with h | h | h
        · exact absurd h.1 hest
        · exact h.2.2
        · rw [h.2]
          rfl
    · refine ⟨fun h => ?_, fun _ => ⟨.inr hclosed, hleft⟩⟩
      rw [hclosed] at h
      cases h
    · have hst : (tcpInput cfg app c seg).conn.state = .synRcvd := by rw [hkept]; exact hstate
      refine ⟨fun h => ?_, fun _ => ⟨.inl hst, hleft⟩⟩
      rw [hst] at h
      cases h

/-- A device with a listener and nothing registered on the connection. -/
def idleApp : App :=
  { accepts := true, handlers := [], readahead := fun _ => true, addrchck := true, now := 0
    tcpMss := 536 }

/-- The SYN of a client: sequence number 99. -/
def sampleSyn : Segment :=
  { seqno := tcpSetsequence 99, ackno := tcpSetsequence 0, ctl := { syn := true }, wnd := 1000
    urgp := 0, tcpoffset := 5, dLen := 40, iplen := 20, body := fun _ => 0 }

/-- A pure acknowledgement for it. -/
def sampleAck (ackno : Nat) : Segment :=
  { seqno := tcpSetsequence 100, ackno := tcpSetsequence ackno, ctl := { ack := true }, wnd := 1000
    urgp := 0, tcpoffset := 5, dLen := 40, iplen := 20, body := fun _ => 0 }

/-- The connection after that SYN, with the initial sequence number 7000. -/
def sampleHalfOpen : Conn := (acceptSyn idleApp 536 (tcpSetsequence 7000) sampleSyn).conn

theorem sampleHalfOpen_halfOpen : HalfOpen 7000 sampleHalfOpen :=
  .opened idleApp 536 (tcpSetsequence 7000) sampleSyn (by decide)

theorem passive_open_sample :
    HalfOpen 7000 sampleHalfOpen ∧
      (tcpInput ⟨false, false⟩ idleApp sampleHalfOpen (sampleAck 7001)).conn.state = .established ∧
      tcpGetsequence (sampleAck 7001).ackno = u32 (7000 + 1) := by
  have hest : (tcpInput ⟨false, false⟩ idleApp sampleHalfOpen (sampleAck 7001)).conn.state =
      .established := by decide
  have h := passive_open_of_peer_ack ⟨false, false⟩ idleApp 7000 sampleHalfOpen (sampleAck 7001)
    sampleHalfOpen_halfOpen
  exact ⟨sampleHalfOpen_halfOpen, hest, ((h.2 (.inl (by decide))).1 hest).2⟩

/-- An acknowledgement that was never earned opens the connection and supplies its initial sequence
number. -/
theorem blind_ack_establishes :
    HalfOpen 7000 sampleHalfOpen ∧
      (tcpInput ⟨false, false⟩ idleApp sampleHalfOpen (sampleAck 12345)).conn.state = .established ∧
      (tcpInput ⟨false, false⟩ idleApp sampleHalfOpen (sampleAck 12345)).conn.isn = 12345 :=
  ⟨sampleHalfOpen_halfOpen, by decide, by decide⟩

end BaseNx.Tcp
