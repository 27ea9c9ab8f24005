import BaseNx.Lib.Reach
import BaseNx.Tcp.Input

/-!
# Independence of the initial sequence number

The send side of an established connection is run twice on the same events, from the initial
sequence numbers `n` and `n'`, with every acknowledgement number moved by the same amount.
`Conn.Twin` relates the connections of the two runs, which differ in their numbers only. The source
compares sequence numbers as plain unsigned numbers, so that the two runs agree as long as neither
of them computes a number that reaches `2 ^ 32 - 1` (`isn_independent`); across the wrap-around they
do not (`wrap_resets`).
-/

namespace BaseNx.Tcp

open Lib List

/-! ## Corresponding numbers -/

/-- Corresponding numbers of the two runs: the marker of an unsent buffer in both, or numbers at the
same distance from the initial ones, without a wrap-around. -/
def Aligned (n n' v v' : Nat) : Prop :=
  v = unassigned ∧ v' = unassigned ∨ n ≤ v ∧ v < unassigned ∧ v' < unassigned ∧ v' + n = v + n'

/-- The same buffer in the two runs. -/
def Wrb.Twin (n n' : Nat) (w w' : Wrb) : Prop :=
  ∃ v, Aligned n n' w.seqno v ∧ w' = { w with seqno := v }

/-- The same queue in the two runs. -/
abbrev TwinQueues (n n' : Nat) : List Wrb → List Wrb → Prop := Forall₂ (Wrb.Twin n n')

/-- The next number that was never sent; or it is unset in both runs, with nothing in flight. -/
def MaxTwin (n n' max max' unacked : Nat) : Prop :=
  Aligned n n' max max' ∧ max < unassigned ∨ max = 0 ∧ max' = 0 ∧ unacked = 0

/-- The same connection in the two runs. -/
inductive Conn.Twin (n n' : Nat) (c : Conn) : Conn → Prop
  | mk {s : Seqno} {max : Nat} {q uq : List Wrb} (isn : c.isn = n)
    (sndseqMax : MaxTwin n n' c.sndseqMax max c.unacked) (writeQ : TwinQueues n n' c.writeQ q)
    (unackedQ : TwinQueues n n' c.unackedQ uq) :
    Conn.Twin n n' c
      { c with isn := n', sndseq := s, sndseqMax := max, writeQ := q, unackedQ := uq }

/-- A connection and the buffers that it releases. -/
def Twins (n n' : Nat) (r r' : Conn × List Wrb) : Prop :=
  r.1.Twin n n' r'.1 ∧ TwinQueues n n' r.2 r'.2

variable {z : Seqno}

section Twin

variable {n n' a a' v v' k : Nat} {c c' : Conn} {w w' : Wrb} {q q' : List Wrb} {seg : Segment}
  {app : App}

theorem Conn.Twin.same (h : c.Twin n n' c') : c.isn = n ∧ c'.isn = n' ∧ c'.state = c.state := by
  obtain ⟨hisn, -, -, -⟩ := h
  exact ⟨hisn, rfl, rfl⟩

/-- The source compares corresponding numbers alike. -/
theorem Aligned.lt_iff (hv : Aligned n n' v v') (ha : Aligned n n' a a') : v < a ↔ v' < a' := by
  unfold Aligned at hv ha
  omega

theorem psockInsertSegment_twin (hw : w.Twin n n' w') (hq : TwinQueues n n' q q') :
    TwinQueues n n' (psockInsertSegment w q) (psockInsertSegment w' q') := by
  refine forall₂_insertWhere hw (hq.imp fun x x' hx => ⟨hx, ?_⟩)
  obtain ⟨v, hv, rfl⟩ := hw
  obtain ⟨u, hu, rfl⟩ := hx
  exact decide_eq_decide.2 (hu.lt_iff hv)

theorem TwinQueues.map_eq {β : Type} {f g : Wrb → β} (hfg : ∀ w w', w.Twin n n' w' → g w' = f w)
    (hq : TwinQueues n n' q q') : q'.map g = q.map f := by
  induction hq with
  | nil => rfl
  | cons hw _ ih => rw [map_cons, map_cons, hfg _ _ hw, ih]

/-! ## Acknowledgements -/

/-- The bytes of a buffer lie below the marker. -/
def EndsBelow (w : Wrb) : Prop := w.seqno ≠ unassigned → w.seqno + w.pktlen < unassigned

section

variable (ha : Aligned n n' a a') (halt : a < unassigned)
include ha halt

theorem ackUnacked_twin (hw : w.Twin n n' w') (hend : EndsBelow w) (hend' : EndsBelow w') :
    Option.Rel (Wrb.Twin n n') (ackUnacked a w) (ackUnacked a' w') := by
  obtain ⟨v, hv, rfl⟩ := hw
  have hlt := hv.lt_iff ha
  have hu : unassigned = 4294967295 := rfl
  unfold ackUnacked
  by_cases hgt : w.seqno < a
  · -- neither number is the marker
    obtain ⟨h, -⟩ | ⟨-, hvlt, hvlt', hdist⟩ := hv
    · omega
    have hlow : w.seqno + w.pktlen < unassigned := hend (by omega)
    have hlow' : v + w.pktlen < unassigned := hend' (show v ≠ unassigned by omega)
    have hlast : u32 (w.seqno + w.pktlen) = w.seqno + w.pktlen := u32_eq_self (by omega)
    have hlast' : u32 (v + w.pktlen) = v + w.pktlen := u32_eq_self (by omega)
    have hadist : a' + n = a + n' := by unfold Aligned at ha; omega
    have htrim : a' - v = a - w.seqno := by omega
    rw [if_pos hgt, if_pos (hlt.1 hgt), htrim]
    show Option.Rel _ (ite (a ≥ u32 (w.seqno + w.pktlen)) _ _) (ite (a' ≥ u32 (v + w.pktlen)) _ _)
    rw [hlast, hlast']
    split_ifs
    · exact .none
    · omega
    · omega
    · exact .some ⟨a', ha, rfl⟩
  · rw [if_neg hgt, if_neg (hlt.not.1 hgt)]
    exact .some ⟨v, hv, rfl⟩

theorem ackHead_twin (hw : w.Twin n n' w') : (ackHead a w).Twin n n' (ackHead a' w') := by
  obtain ⟨v, hv, rfl⟩ := hw
  have hlt := hv.lt_iff ha
  simp only [ackHead, gt_iff_lt, ← hlt]
  split_ifs with hgt
  · have hdist : a' - v = a - w.seqno := by
      unfold Aligned at hv ha
      omega
    rw [hdist]
    exact ⟨a', ha, rfl⟩
  · exact ⟨v, hv, rfl⟩

theorem ackQueue_twin (hq : TwinQueues n n' q q') (hend : ∀ w ∈ q, EndsBelow w)
    (hend' : ∀ w ∈ q', EndsBelow w) :
    TwinQueues n n' (q.filterMap (ackUnacked a)) (q'.filterMap (ackUnacked a')) ∧
      TwinQueues n n' (q.filter fun w => (ackUnacked a w).isNone)
        (q'.filter fun w => (ackUnacked a' w).isNone) := by
  induction hq with
  | nil => exact ⟨.nil, .nil⟩
  | @cons w w' q q' hw _ ih =>
    obtain ⟨hw0, hend⟩ := forall_mem_cons.1 hend
    obtain ⟨hw0', hend'⟩ := forall_mem_cons.1 hend'
    obtain ⟨hkept, hout⟩ := ih hend hend'
    have hone := ackUnacked_twin ha halt hw hw0 hw0'
    rw [filterMap_cons, filterMap_cons, filter_cons, filter_cons]
    generalize ackUnacked a w = r at hone ⊢
    generalize ackUnacked a' w' = r' at hone ⊢
    cases hone with
    | none => exact ⟨hkept, .cons hw hout⟩
    | some hx => exact ⟨.cons hx hkept, hout⟩

/-- The `TCP_ACKDATA` branch. -/
theorem ackEvent_twin (h : c.Twin n n' c') (hend : ∀ w ∈ c.unackedQ, EndsBelow w)
    (hend' : ∀ w ∈ c'.unackedQ, EndsBelow w) : Twins n n' (ackEvent a c) (ackEvent a' c') := by
  obtain ⟨hisn, hmax, hwrite, hunacked⟩ := h
  obtain ⟨hkept, hout⟩ := ackQueue_twin ha halt hunacked hend hend'
  refine ⟨⟨hisn, hmax, ?_, hkept⟩, hout⟩
  show TwinQueues n n' (ackWriteQ a c.writeQ) (ackWriteQ a' _)
  generalize c.writeQ = q at hwrite ⊢
  cases hwrite with
  | nil => exact .nil
  | cons hw hrest => exact .cons (ackHead_twin ha halt hw) hrest

end

/-! ## Retransmission -/

/-- Taking sent bytes back leaves the highest number alone. -/
theorem MaxTwin.takeBack {max max' unacked : Nat} (h : MaxTwin n n' max max' unacked) (k : Nat) :
    MaxTwin n n' max max' (if unacked > k then unacked - k else 0) :=
  h.imp_right fun ⟨hmax, hmax', hun⟩ => ⟨hmax, hmax', if_neg (by omega)⟩

/-- The first part of the `TCP_REXMIT` branch. -/
theorem rexmitHead_twin (h : c.Twin n n' c') : Twins n n' (rexmitHead c) (rexmitHead c') := by
  have htwin := h
  obtain ⟨hisn, hmax, hwrite, hunacked⟩ := h
  unfold rexmitHead
  generalize c.writeQ = q at hwrite ⊢
  cases hwrite with
  | nil => exact ⟨htwin, .nil⟩
  | @cons w _ _ _ hw hrest =>
    obtain ⟨v, hv, rfl⟩ := hw
    show Twins n n' (ite (w.sent > 0) (ite (w.retry.nrtx ≥ tcpMaxrtx) _ _) _)
      (ite (w.sent > 0) (ite (w.retry.nrtx ≥ tcpMaxrtx) _ _) _)
    split_ifs
    · exact ⟨⟨hisn, hmax.takeBack _, hrest, hunacked⟩, .cons ⟨v, hv, rfl⟩ .nil⟩
    · exact ⟨⟨hisn, hmax.takeBack _, .cons ⟨v, hv, rfl⟩ hrest, hunacked⟩, .nil⟩
    · exact ⟨htwin, .nil⟩

theorem rexmitOne_twin (h : c.Twin n n' c') (hw : w.Twin n n' w') :
    Twins n n' (rexmitOne c w) (rexmitOne c' w') := by
  obtain ⟨hisn, hmax, hwrite, hunacked⟩ := h
  obtain ⟨v, hv, rfl⟩ := hw
  show Twins n n' (ite (w.retry.nrtx ≥ tcpMaxrtx) _ _) (ite (w.retry.nrtx ≥ tcpMaxrtx) _ _)
  split_ifs
  · exact ⟨⟨hisn, hmax.takeBack _, hwrite, hunacked⟩, .cons ⟨v, hv, rfl⟩ .nil⟩
  · exact ⟨⟨hisn, hmax.takeBack _, psockInsertSegment_twin ⟨v, hv, rfl⟩ hwrite, hunacked⟩, .nil⟩

theorem rexmitAll_twin (hq : TwinQueues n n' q q') :
    ∀ {c c' : Conn}, c.Twin n n' c' → Twins n n' (rexmitAll c q) (rexmitAll c' q') := by
  induction hq with
  | nil => exact fun h => ⟨h, .nil⟩
  | cons hw _ ih =>
    intro c c' h
    obtain ⟨hone, hout⟩ := rexmitOne_twin h hw
    obtain ⟨hall, hout'⟩ := ih hone
    exact ⟨hall, rel_append hout hout'⟩

theorem rexmitEvent_twin (h : c.Twin n n' c') : Twins n n' (rexmitEvent c) (rexmitEvent c') := by
  obtain ⟨hhead, hout⟩ := rexmitHead_twin h
  unfold rexmitEvent
  generalize rexmitHead c = r at hhead hout ⊢
  generalize rexmitHead c' = r' at hhead hout ⊢
  obtain ⟨d, out⟩ := r
  obtain ⟨d', out'⟩ := r'
  obtain ⟨hisn, hmax, hwrite, hunacked⟩ := hhead
  obtain ⟨hall, hout'⟩ := rexmitAll_twin (forall₂_reverse_iff.2 hunacked)
    (show Conn.Twin n n' { d with unackedQ := [] } _ from ⟨hisn, hmax, hwrite, .nil⟩)
  exact ⟨hall, rel_append hout hout'⟩

/-! ## Sending -/

/-- The sequence number of the first byte of the head of `write_q`, without wrap-around. -/
def startOf (c : Conn) (w : Wrb) : Nat := if w.seqno = unassigned then c.isn + c.sent else w.seqno

/-- What is sent next ends below the marker. -/
def SendFits (c : Conn) : Prop :=
  ∀ w ∈ c.writeQ.head?, startOf c w + w.sent + sndlenOf c w < unassigned

theorem assignSeqno_eq (h : startOf c w < unassigned) :
    assignSeqno c w = { w with seqno := startOf c w } := by
  simp only [assignSeqno, startOf] at h ⊢
  split
  case isTrue hun =>
    rw [if_pos hun, unassigned] at h
    rw [u32_eq_self (by omega)]
  case isFalse hass => rfl

theorem startOf_twin (h : c.Twin n n' c') (hw : w.Twin n n' w') (hlt : startOf c w < unassigned)
    (hlt' : startOf c' w' < unassigned) : Aligned n n' (startOf c w) (startOf c' w') := by
  obtain ⟨hisn, -, -, -⟩ := h
  obtain ⟨v, hv, rfl⟩ := hw
  unfold startOf Aligned at *
  dsimp only at *
  split_ifs at * <;> omega

theorem countSent_sndseqMax (h : v + k < unassigned) :
    (countSent c v k).sndseqMax = if v + k > c.sndseqMax then v + k else c.sndseqMax := by
  have hu : unassigned = 4294967295 := rfl
  have hv : tcpGetsequence (tcpSetsequence v) = v := by
    rw [tcpGetsequence_set, u32_eq_self (by omega)]
  simp only [countSent, hv, u32_eq_self (show v + k < 4294967296 by omega)]
  by_cases hgt : v + k > c.sndseqMax
  · rw [if_pos (.inl hgt), if_pos hgt]
  · rw [if_neg (by omega), if_neg hgt]

theorem countSent_twin (h : c.Twin n n' c') (hv : Aligned n n' v v') (hlt : v + k < unassigned)
    (hlt' : v' + k < unassigned) : (countSent c v k).Twin n n' (countSent c' v' k) := by
  have hnext := countSent_sndseqMax (c := c) hlt
  have hnext' := countSent_sndseqMax (c := c') hlt'
  obtain ⟨hisn, hmax, hwrite, hunacked⟩ := h
  refine ⟨hisn, .inl (?_ : Aligned n n' _ (countSent _ v' k).sndseqMax ∧ _), hwrite, hunacked⟩
  rw [hnext, hnext']
  unfold MaxTwin Aligned at *
  dsimp only
  split_ifs <;> omega

theorem park_twin (h : c.Twin n n' c') (hw : w.Twin n n' w') (hq : TwinQueues n n' q q') :
    (park c w q).Twin n n' (park c' w' q') := by
  obtain ⟨hisn, hmax, hwrite, hunacked⟩ := h
  obtain ⟨v, hv, rfl⟩ := hw
  show Conn.Twin n n' (ite (w.sent ≥ w.pktlen) _ _) (ite (w.sent ≥ w.pktlen) _ _)
  split_ifs
  · exact ⟨hisn, hmax, hq, psockInsertSegment_twin ⟨v, hv, rfl⟩ hunacked⟩
  · exact ⟨hisn, hmax, .cons ⟨v, hv, rfl⟩ hq, hunacked⟩

/-- What is sent from the head of `write_q` when its numbers stay below the marker. -/
theorem sendHead_eq (rest : List Wrb) (h : startOf c w + w.sent + sndlenOf c w < unassigned) :
    sendHead c w rest =
      (park (countSent c (startOf c w + w.sent) (sndlenOf c w))
          { w with seqno := startOf c w, sent := u16 (w.sent + sndlenOf c w) } rest,
        (w.data.drop w.sent).take (sndlenOf c w)) := by
  have hu : unassigned = 4294967295 := rfl
  have hassign := assignSeqno_eq (c := c) (w := w) (by omega)
  have hv : u32 (startOf c w + w.sent) = startOf c w + w.sent := u32_eq_self (by omega)
  rw [sendHead_eq_park, hassign, hv]

theorem sendHead_twin (h : c.Twin n n' c') (hw : w.Twin n n' w') (hq : TwinQueues n n' q q')
    (hfits : startOf c w + w.sent + sndlenOf c w < unassigned)
    (hfits' : startOf c' w' + w'.sent + sndlenOf c' w' < unassigned) :
    (sendHead c w q).1.Twin n n' (sendHead c' w' q').1 := by
  have hstart := startOf_twin h hw (by omega) (by omega)
  rw [sendHead_eq q hfits, sendHead_eq q' hfits']
  have hsame : w'.sent = w.sent ∧ sndlenOf c' w' = sndlenOf c w := by
    obtain ⟨-, -, -, -⟩ := h
    obtain ⟨v, -, rfl⟩ := hw
    exact ⟨rfl, rfl⟩
  rw [hsame.1, hsame.2] at hfits' ⊢
  refine park_twin (countSent_twin h ?_ hfits hfits') ?_ hq
  · unfold Aligned at *
    omega
  · obtain ⟨v, -, rfl⟩ := hw
    exact ⟨_, hstart, rfl⟩

theorem sendEvent_twin (busy addrchck : Bool) (flags : Events) (h : c.Twin n n' c')
    (hfits : SendFits c) (hfits' : SendFits c') :
    (sendEvent busy addrchck flags c).1.Twin n n' (sendEvent busy addrchck flags c').1 := by
  have htwin := h
  obtain ⟨-, -, hwrite, -⟩ := h
  unfold SendFits at hfits hfits'
  simp only [sendEvent]
  generalize c.writeQ = q at hwrite hfits
  split_ifs
  · exact htwin
  · cases hwrite with
    | nil => exact htwin
    | cons hw hrest => exact sendHead_twin htwin hw hrest (hfits _ rfl) (hfits' _ rfl)
  · exact htwin

/-! ## Acknowledgements -/

theorem rttEstimate_twin (h : c.Twin n n' c') :
    Conn.Twin n n' { rttEstimate c with timer := (rttEstimate c).rto }
      { rttEstimate c' with timer := (rttEstimate c').rto } := by
  obtain ⟨hisn, hmax, hwrite, hunacked⟩ := h
  unfold rttEstimate
  split_ifs <;> exact ⟨hisn, hmax, hwrite, hunacked⟩

theorem rttEstimate_unackedQ (c : Conn) : (rttEstimate c).unackedQ = c.unackedQ := by
  unfold rttEstimate
  split <;> rfl

theorem processAck_twin (h : c.Twin n n' c') (hack : seg.ctl.ack = true)
    (ha : Aligned n n' (tcpGetsequence seg.ackno) (tcpGetsequence z)) :
    Option.Rel (fun r r' => r.1.Twin n n' r'.1 ∧ r'.2 = r.2 ∧ r.1.unackedQ = c.unackedQ ∧
        r'.1.unackedQ = c'.unackedQ) (processAck c seg)
        (processAck c' { seg with ackno := z }) := by
  obtain ⟨hisn, hmax, hwrite, hunacked⟩ := h
  rename_i max q uq
  simp only [processAck, hack, true_and]
  by_cases hun : c.unacked > 0
  · have hmax := hmax.resolve_right fun h => by omega
    have hfar := hmax.1.lt_iff ha
    have hcount : (if tcpGetsequence z ≤ max then max - tcpGetsequence z else c.unacked) =
        if tcpGetsequence seg.ackno ≤ c.sndseqMax then c.sndseqMax - tcpGetsequence seg.ackno
        else c.unacked := by
      obtain ⟨hmax, hlt⟩ := hmax
      unfold Aligned at hmax ha
      split_ifs <;> omega
    simp only [if_pos hun, ← hfar, hcount]
    by_cases hreset : c.sndseqMax < tcpGetsequence seg.ackno ∧ c.state = .established
    · rw [if_pos hreset, if_pos hreset]
      exact .none
    · rw [if_neg hreset, if_neg hreset]
      exact .some ⟨rttEstimate_twin ⟨hisn, .inl hmax, hwrite, hunacked⟩, rfl,
        rttEstimate_unackedQ _, rttEstimate_unackedQ _⟩
  · rw [if_neg hun, if_neg hun]
    exact .some ⟨⟨hisn, hmax, hwrite, hunacked⟩, rfl, rfl, rfl⟩

/-- An acknowledgement without data. -/
structure IsAck (seg : Segment) : Prop where
  ctl : seg.ctl = { ack := true }
  len : segLen seg = 0

/-- The keep-alive timer restarts with every acknowledgement. -/
def touch (cfg : Config) (now : Nat) (c : Conn) : Conn :=
  if cfg.keepalive && c.keepalive then { c with keeptime := now, keepretries := 0 } else c

/-- What `tcp_input` does with an acknowledgement without data for an established connection. -/
def ackInput (cfg : Config) (app : App) (c : Conn) (seg : Segment) : Outcome :=
  if keepaliveProbe cfg (c.setWindow seg.wnd) seg then
    { conn := c.setWindow seg.wnd, reply := tcpSend (c.setWindow seg.wnd) { ack := true } [] }
  else
    match processAck (c.setWindow seg.wnd) seg with
    | none => { conn := c.setWindow seg.wnd, reply := .reset }
    | some (c, false) => { conn := touch cfg app.now c, reply := .none }
    | some (c, true) =>
      { conn := (ackEvent (tcpGetsequence seg.ackno) (touch cfg app.now c)).1, reply := .none
        released := (ackEvent (tcpGetsequence seg.ackno) (touch cfg app.now c)).2 }

theorem tcpCallback_ack (hsend : app.handlers = [.send]) (seg : Segment) (c : Conn) :
    tcpCallback app seg (startCb c { ackdata := true } 0 0) =
      { startCb (ackEvent (tcpGetsequence seg.ackno) c).1 { ackdata := true } 0 0 with
        released := (ackEvent (tcpGetsequence seg.ackno) c).2 } := by
  have hack := psockSendEventhandler_ack false app.addrchck (tcpGetsequence seg.ackno) c
  have hany : (startCb c { ackdata := true } 0 0).flags.any = true := rfl
  have hrun : Handler.run app seg (startCb c { ackdata := true } 0 0) .send =
      { startCb (ackEvent (tcpGetsequence seg.ackno) c).1 { ackdata := true } 0 0 with
        released := (ackEvent (tcpGetsequence seg.ackno) c).2 } := by
    simp only [Handler.run, startCb, ne_eq, not_true_eq_false, decide_false, if_false, hack]
    rfl
  rw [tcpCallback, hsend, devifConnEvent, if_pos hany, devifConnEvent, hrun]
  rfl

section

variable (cfg : Config)

theorem inputData_ack (hsend : app.handlers = [.send]) (hseg : IsAck seg) (c : Conn)
    (ackdata : Bool) :
    inputData cfg app c seg ackdata =
      bif ackdata then
        { conn := (ackEvent (tcpGetsequence seg.ackno) (touch cfg app.now c)).1, reply := .none
          released := (ackEvent (tcpGetsequence seg.ackno) (touch cfg app.now c)).2 }
      else { conn := touch cfg app.now c, reply := .none } := by
  have hlen : sub16 (segLen seg) 0 = 0 := by rw [hseg.len]; rfl
  have hurg : seg.ctl.urg = false := by rw [hseg.ctl]
  have hack : seg.ctl.ack = true := by rw [hseg.ctl]
  have htouch : (if (cfg.keepalive && c.keepalive && (decide (0 > 0) || true)) = true then
      { c with keeptime := app.now, keepretries := 0 } else c) = touch cfg app.now c := by
    rw [Bool.or_true, Bool.and_true, touch]
  cases ackdata with
  | false =>
    simp only [inputData, urgLen, hurg, Bool.and_false, Bool.false_eq_true, if_false, hlen, hack,
      htouch]
    rfl
  | true =>
    simp only [inputData, urgLen, hurg, Bool.and_false, Bool.false_eq_true, if_false, hlen, hack,
      htouch]
    have hcb := tcpCallback_ack hsend seg (touch cfg app.now c)
    simp only [gt_iff_lt, lt_irrefl, decide_false, Bool.false_and, Bool.false_or, if_true,
      cond_true, hcb]
    rfl

theorem tcpInput_ack (hsend : app.handlers = [.send]) (hseg : IsAck seg)
    (hst : c.state = .established) : tcpInput cfg app c seg = ackInput cfg app c seg := by
  have hst' : (c.setWindow seg.wnd).state = .established := hst
  have hsyn : seg.ctl.onlySyn = false := by rw [hseg.ctl]; rfl
  have hrst : seg.ctl.rst = false := by rw [hseg.ctl]
  have hfin : seg.ctl.fin = false := by rw [hseg.ctl]
  have hsynbit : seg.ctl.syn = false := by rw [hseg.ctl]
  have hin : outOfSequence (c.setWindow seg.wnd) seg = false := by
    simp only [outOfSequence, hseg.len, hsynbit, hfin, gt_iff_lt, lt_irrefl, decide_false,
      Bool.or_false, Bool.and_false, Bool.false_and]
  have hreset : resetReply seg = .reset := by rw [resetReply, hrst]; rfl
  rw [tcpInput, if_neg fun h => by rw [hsyn] at h; exact Bool.noConfusion h.2, inputFound, ackInput]
  simp only [hrst, Bool.false_eq_true, if_false, hin, hseg.len, gt_iff_lt, lt_irrefl]
  split
  case isTrue => rfl
  case isFalse =>
    cases hp : processAck (c.setWindow seg.wnd) seg with
    | none => rw [hreset]
    | some r =>
      obtain ⟨c', ackdata⟩ := r
      have hst'' : c'.state = .established := (processAck_some hp).1.state.trans hst'
      have hmachine : stateMachine cfg app c' seg ackdata = inputData cfg app c' seg ackdata := by
        simp only [stateMachine, hst'', inputEstablished, hfin, Bool.false_and, Bool.false_eq_true,
          if_false]
      cases ackdata with
      | false => exact hmachine.trans (inputData_ack cfg hsend hseg c' false)
      | true => exact hmachine.trans (inputData_ack cfg hsend hseg c' true)

theorem touch_unackedQ (now : Nat) (c : Conn) : (touch cfg now c).unackedQ = c.unackedQ := by
  unfold touch
  split <;> rfl

theorem touch_twin (now : Nat) (h : c.Twin n n' c') :
    (touch cfg now c).Twin n n' (touch cfg now c') := by
  obtain ⟨hisn, hmax, hwrite, hunacked⟩ := h
  unfold touch
  split_ifs <;> exact ⟨hisn, hmax, hwrite, hunacked⟩

end

/-- Whether the segment is answered with a reset. -/
def Outcome.isReset (o : Outcome) : Bool :=
  match o.reply with
  | .reset => true
  | _ => false

/-- The outcomes of the two runs. -/
structure Outcome.Twin (n n' : Nat) (o o' : Outcome) : Prop where
  conn : o.conn.Twin n n' o'.conn
  isReset : o'.isReset = o.isReset
  released : TwinQueues n n' o.released o'.released

theorem ackInput_twin (cfg : Config) (app : App) (h : c.Twin n n' c') (hseg : IsAck seg)
    (ha : Aligned n n' (tcpGetsequence seg.ackno) (tcpGetsequence z))
    (halt : tcpGetsequence seg.ackno < unassigned) (hend : ∀ w ∈ c.unackedQ, EndsBelow w)
    (hend' : ∀ w ∈ c'.unackedQ, EndsBelow w) :
    (ackInput cfg app c seg).Twin n n' (ackInput cfg app c' { seg with ackno := z }) := by
  have hwin : (c.setWindow seg.wnd).Twin n n' (c'.setWindow seg.wnd) := by
    obtain ⟨hisn, hmax, hwrite, hunacked⟩ := h
    exact ⟨hisn, hmax, hwrite, hunacked⟩
  have hprobe : keepaliveProbe cfg (c'.setWindow seg.wnd) { seg with ackno := z } =
      keepaliveProbe cfg (c.setWindow seg.wnd) seg := by
    obtain ⟨-, -, -, -⟩ := h
    rfl
  have hack := processAck_twin hwin (by rw [hseg.ctl]) ha
  unfold ackInput
  simp only [hprobe]
  split
  · exact ⟨hwin, rfl, .nil⟩
  · generalize processAck (c.setWindow seg.wnd) seg = r at hack ⊢
    generalize processAck (c'.setWindow seg.wnd) { seg with ackno := z } = r' at hack ⊢
    cases hack with
    | none => exact ⟨hwin, rfl, .nil⟩
    | @some r r' hr =>
      obtain ⟨d, ackdata⟩ := r
      obtain ⟨d', ackdata'⟩ := r'
      obtain ⟨htwin, rfl, hq, hq'⟩ := hr
      have htouch := touch_twin cfg app.now htwin
      cases ackdata' with
      | false => exact ⟨htouch, rfl, .nil⟩
      | true =>
        obtain ⟨hconn, hout⟩ := ackEvent_twin ha halt htouch
          (by rw [touch_unackedQ]; exact hq ▸ hend) (by rw [touch_unackedQ]; exact hq' ▸ hend')
        exact ⟨hconn, (show false = false from rfl), hout⟩

theorem ackInput_state (cfg : Config) (app : App) (seg : Segment) (hst : c.state = .established) :
    (ackInput cfg app c seg).conn.state = .established := by
  have htouch : ∀ d : Conn, (touch cfg app.now d).state = d.state := fun d => by
    unfold touch
    split <;> rfl
  unfold ackInput
  split
  · exact hst
  · cases hp : processAck (c.setWindow seg.wnd) seg with
    | none => exact hst
    | some r =>
      obtain ⟨c', ackdata⟩ := r
      have hst' : c'.state = .established := (processAck_some hp).1.state.trans hst
      cases ackdata with
      | false => exact (htouch c').trans hst'
      | true => exact (htouch c').trans hst'

/-! ## New data -/

/-- A new buffer has no number yet. -/
theorem psockTcpSend_twin (nonblock : Bool) (room ident : Nat) (buf : List UInt8)
    (h : c.Twin n n' c') : Option.Rel (fun r r' => r.1.Twin n n' r'.1 ∧ r.1.state = c.state)
      (psockTcpSend nonblock room ident buf c) (psockTcpSend nonblock room ident buf c') := by
  obtain ⟨hisn, hmax, hwrite, hunacked⟩ := h
  have hnew := rel_append hwrite
    (.cons (show Wrb.Twin n n' ⟨unassigned, 0, 0, buf.take room, ident⟩ _ from
      ⟨unassigned, .inl ⟨rfl, rfl⟩, rfl⟩) .nil)
  simp only [psockTcpSend]
  split_ifs
  · exact .some ⟨⟨hisn, hmax, hwrite, hunacked⟩, rfl⟩
  · exact .some ⟨⟨hisn, hmax, hnew, hunacked⟩, rfl⟩
  · exact .some ⟨⟨hisn, hmax, hnew, hunacked⟩, rfl⟩
  · exact .none
  · exact .some ⟨⟨hisn, hmax, hnew, hunacked⟩, rfl⟩

end Twin

/-! ## The two runs -/

/-- The send side of an established connection with its history: which acknowledgements were
answered with a reset, and the write buffers released. -/
structure Endpoint where
  conn : Conn
  resets : List Bool
  released : List Wrb

/-- The events of the send side; an acknowledgement comes from the wire, with its segment. -/
inductive WireEvent
  | send (nonblock : Bool) (room ident : Nat) (buf : List UInt8)
  | poll (busy addrchck : Bool)
  | rexmit (busy addrchck : Bool)
  | ack (app : App) (seg : Segment)

/-- The send handler with given flags. -/
def Endpoint.handle (e : Endpoint) (busy addrchck : Bool) (flags : Events) : Endpoint :=
  { e with
    conn := (psockSendEventhandler busy addrchck 0 flags e.conn).conn
    released := e.released ++ (psockSendEventhandler busy addrchck 0 flags e.conn).released }

def Endpoint.apply (cfg : Config) (e : Endpoint) : WireEvent → Option Endpoint
  | .send nonblock room ident buf =>
    match psockTcpSend nonblock room ident buf e.conn with
    | none => some e
    | some (c, _) => some { e with conn := c }
  | .poll busy addrchck => some (e.handle busy addrchck { poll := true })
  | .rexmit busy addrchck => some (e.handle busy addrchck { rexmit := true })
  | .ack app seg =>
    let o := tcpInput cfg app e.conn seg
    some ⟨o.conn, e.resets ++ [o.isReset], e.released ++ o.released⟩

/-- The same event of a peer whose numbers are larger by `k`. -/
def WireEvent.shift (k : Nat) : WireEvent → WireEvent
  | .ack app seg =>
    .ack app { seg with ackno := tcpSetsequence (u32 (tcpGetsequence seg.ackno + k)) }
  | e => e

/-- The events of the send side only: acknowledgements have no data, and the send handler is the
only callback. -/
def WireEvent.SendSide : WireEvent → Prop
  | .ack app seg => IsAck seg ∧ app.handlers = [.send]
  | _ => True

/-- The step does not meet the wrap-around: what is sent ends below `2 ^ 32 - 1`, and an
acknowledgement lies between the initial number and that bound, as do the buffers in flight. -/
def Endpoint.NoWrap (e : Endpoint) : WireEvent → Prop
  | .send _ _ _ _ => True
  | .poll _ _ => SendFits e.conn
  | .rexmit _ _ => SendFits (rexmitEvent e.conn).1
  | .ack _ seg =>
    e.conn.isn ≤ tcpGetsequence seg.ackno ∧ tcpGetsequence seg.ackno < unassigned ∧
      ∀ w ∈ e.conn.unackedQ, EndsBelow w

/-- An established connection on which nothing was sent yet. -/
structure Endpoint.Fresh (e : Endpoint) : Prop where
  state : e.conn.state = .established
  writeQ : e.conn.writeQ = []
  unackedQ : e.conn.unackedQ = []
  unacked : e.conn.unacked = 0
  sndseqMax : e.conn.sndseqMax = 0

/-- The connection with other numbers to start from. -/
def Endpoint.renumber (e : Endpoint) (isn : Nat) (sndseq : Seqno) : Endpoint :=
  { e with conn := { e.conn with isn := isn, sndseq := sndseq } }

/-- The same connection with an initial sequence number that is larger by `k`. -/
def Endpoint.withIsn (e : Endpoint) (k : Nat) : Endpoint :=
  e.renumber (u32 (e.conn.isn + k)) (tcpSetsequence (u32 (tcpGetsequence e.conn.sndseq + k)))

/-- The buffer with a number that is larger by `k`, if it has one. -/
def Wrb.shift (k : Nat) (w : Wrb) : Wrb :=
  { w with seqno := if w.seqno = unassigned then unassigned else u32 (w.seqno + k) }

/-- The buffer without its number. -/
def Wrb.content (w : Wrb) : Nat × Nat × Nat × List UInt8 := (w.ident, w.sent, w.nrtx, w.data)

/-- The two runs agree: the same acknowledgements are answered with a reset, `unacked` is the same,
the same buffers were released, and the queues hold the same buffers, with the same bytes left. -/
structure Endpoint.Agrees (k : Nat) (e e' : Endpoint) : Prop where
  resets : e'.resets = e.resets
  unacked : e'.conn.unacked = e.conn.unacked
  released : e'.released.map Wrb.content = e.released.map Wrb.content
  writeQ : e'.conn.writeQ = e.conn.writeQ.map (Wrb.shift k)
  unackedQ : e'.conn.unackedQ = e.conn.unackedQ.map (Wrb.shift k)

/-- The relation that the two runs keep. -/
structure Endpoint.Twin (n n' : Nat) (e e' : Endpoint) : Prop where
  conn : e.conn.Twin n n' e'.conn
  state : e.conn.state = .established
  resets : e'.resets = e.resets
  released : e'.released.map Wrb.content = e.released.map Wrb.content

section Runs

variable {n n' k : Nat} {e e' : Endpoint} {cfg : Config}

theorem TwinQueues.content_eq {q q' : List Wrb} (h : TwinQueues n n' q q') :
    q'.map Wrb.content = q.map Wrb.content :=
  h.map_eq fun w w' ⟨_, _, hw⟩ => by rw [hw]; rfl

theorem handle_poll (e : Endpoint) (busy addrchck : Bool) :
    e.handle busy addrchck { poll := true } =
      ⟨(sendEvent busy addrchck { poll := true } e.conn).1, e.resets, e.released⟩ := by
  have h : psockSendEventhandler busy addrchck 0 { poll := true } e.conn =
      ⟨(sendEvent busy addrchck { poll := true } e.conn).1,
        (sendEvent busy addrchck { poll := true } e.conn).2.2,
        (sendEvent busy addrchck { poll := true } e.conn).2.1, []⟩ := rfl
  rw [Endpoint.handle, h, append_nil]

theorem twin_poll (h : e.Twin n n' e') (busy addrchck : Bool) (hfits : SendFits e.conn)
    (hfits' : SendFits e'.conn) : (e.handle busy addrchck { poll := true }).Twin n n'
      (e'.handle busy addrchck { poll := true }) := by
  rw [handle_poll, handle_poll]
  exact ⟨sendEvent_twin busy addrchck _ h.conn hfits hfits',
    (sendEvent_same busy addrchck _ e.conn).state.trans h.state, h.resets, h.released⟩

theorem twin_rexmit (h : e.Twin n n' e') (busy addrchck : Bool)
    (hfits : SendFits (rexmitEvent e.conn).1) (hfits' : SendFits (rexmitEvent e'.conn).1) :
    (e.handle busy addrchck { rexmit := true }).Twin n n'
      (e'.handle busy addrchck { rexmit := true }) := by
  obtain ⟨hconn, hout⟩ := rexmitEvent_twin h.conn
  refine ⟨sendEvent_twin busy addrchck { rexmit := true } hconn hfits hfits', ?_, h.resets, ?_⟩
  · exact ((rexmitEvent_same e.conn).trans
      (sendEvent_same busy addrchck { rexmit := true } (rexmitEvent e.conn).1)).state.trans h.state
  · show (e'.released ++ (rexmitEvent e'.conn).2).map _ =
      (e.released ++ (rexmitEvent e.conn).2).map _
    rw [map_append, map_append, hout.content_eq, h.released]

/-- On a connection without buffers only the numbers move. -/
theorem Endpoint.Fresh.twin (h : e.Fresh) (n' : Nat) (z : Seqno) :
    e.Twin e.conn.isn n' (e.renumber n' z) := by
  have hnil : ∀ q : List Wrb, q = [] → TwinQueues e.conn.isn n' q q := by
    rintro _ rfl
    exact .nil
  exact ⟨⟨rfl, .inr ⟨h.sndseqMax, h.sndseqMax, h.unacked⟩, hnil _ h.writeQ, hnil _ h.unackedQ⟩,
    h.state, rfl, rfl⟩

section

variable (hn : n' = u32 (n + k))
include hn

theorem Wrb.Twin.shift_eq {w w' : Wrb} (h : w.Twin n n' w') : w' = w.shift k := by
  obtain ⟨v, hv, rfl⟩ := h
  have hu : unassigned = 4294967295 := rfl
  rw [Wrb.shift, Wrb.mk.injEq]
  refine ⟨?_, rfl, rfl, rfl, rfl⟩
  simp only [Aligned, u32] at *
  split_ifs <;> omega

theorem Endpoint.Twin.agrees (h : e.Twin n n' e') : Endpoint.Agrees k e e' := by
  have hqueue : ∀ {q q' : List Wrb}, TwinQueues n n' q q' → q' = q.map (Wrb.shift k) :=
    fun h => (map_id _).symm.trans (h.map_eq fun w w' hw => hw.shift_eq hn)
  obtain ⟨hconn, -, hresets, hreleased⟩ := h
  obtain ⟨c', resets', released'⟩ := e'
  obtain ⟨-, -, hwrite, hunacked⟩ := hconn
  exact ⟨hresets, rfl, hreleased, hqueue hwrite, hqueue hunacked⟩

/-- The acknowledgement numbers of the two runs correspond when neither lies below the initial
number. -/
theorem ackno_aligned {a : Nat} (hle : n ≤ a) (hlt : a < unassigned) (hle' : n' ≤ u32 (a + k))
    (hlt' : u32 (a + k) < unassigned) : Aligned n n' a (u32 (a + k)) := by
  have hu : unassigned = 4294967295 := rfl
  simp only [Aligned, u32] at *
  omega

theorem twin_ack {app : App} {seg : Segment} (h : e.Twin n n' e')
    (hz : tcpGetsequence z = u32 (tcpGetsequence seg.ackno + k)) (hseg : IsAck seg)
    (hsend : app.handlers = [.send]) (hok : e.NoWrap (.ack app seg))
    (hok' : e'.NoWrap (.ack app { seg with ackno := z })) :
    (tcpInput cfg app e.conn seg).Twin n n' (tcpInput cfg app e'.conn { seg with ackno := z }) ∧
      (tcpInput cfg app e.conn seg).conn.state = .established := by
  obtain ⟨hle, hlt, hend⟩ := hok
  obtain ⟨hle', hlt', hend'⟩ := hok'
  obtain ⟨hisn, hisn', hst⟩ := h.conn.same
  rw [hisn] at hle
  simp only [hz, hisn'] at hle' hlt'
  have ha := ackno_aligned hn hle hlt hle' hlt'
  rw [← hz] at ha
  have hseg' : IsAck { seg with ackno := z } := ⟨hseg.ctl, hseg.len⟩
  rw [tcpInput_ack cfg hsend hseg h.state, tcpInput_ack cfg hsend hseg' (hst.trans h.state)]
  exact ⟨ackInput_twin cfg app h.conn hseg ha hlt hend hend',
    ackInput_state cfg app seg h.state⟩

/-- One event keeps the two runs together. -/
theorem twin_step (h : e.Twin n n' e') {ev : WireEvent} (hside : ev.SendSide) (hok : e.NoWrap ev)
    (hok' : e'.NoWrap (ev.shift k)) :
    ((e.apply cfg ev).getD e).Twin n n' ((e'.apply cfg (ev.shift k)).getD e') := by
  cases ev with
  | send nonblock room ident buf =>
    have hsend := psockTcpSend_twin nonblock room ident buf h.conn
    simp only [WireEvent.shift, Endpoint.apply]
    generalize psockTcpSend nonblock room ident buf e.conn = r at hsend ⊢
    generalize psockTcpSend nonblock room ident buf e'.conn = r' at hsend ⊢
    cases hsend with
    | none => exact h
    | some hr => exact ⟨hr.1, hr.2.trans h.state, h.resets, h.released⟩
  | poll busy addrchck => exact twin_poll h busy addrchck hok hok'
  | rexmit busy addrchck => exact twin_rexmit h busy addrchck hok hok'
  | ack app seg =>
    have hget : tcpGetsequence (tcpSetsequence (u32 (tcpGetsequence seg.ackno + k))) =
        u32 (tcpGetsequence seg.ackno + k) := by
      rw [tcpGetsequence_set, u32_eq_self (u32_lt _)]
    simp only [WireEvent.shift] at hok' ⊢
    generalize tcpSetsequence (u32 (tcpGetsequence seg.ackno + k)) = z at *
    obtain ⟨hout, hst⟩ := twin_ack hn h hget hside.1 hside.2 hok hok'
    refine ⟨hout.conn, hst, congrArg₂ (· ++ [·]) h.resets hout.isReset, ?_⟩
    simp only [Endpoint.apply, Option.getD_some, map_append, h.released, hout.released.content_eq]

theorem twin_run (es : List WireEvent) :
    ∀ {e e' : Endpoint}, e.Twin n n' e' → (∀ ev ∈ es, ev.SendSide) →
      AllSteps Endpoint.NoWrap (Endpoint.apply cfg) e es →
      AllSteps Endpoint.NoWrap (Endpoint.apply cfg) e' (es.map (WireEvent.shift k)) →
      (after (Endpoint.apply cfg) e es).Twin n n'
        (after (Endpoint.apply cfg) e' (es.map (WireEvent.shift k))) := by
  induction es with
  | nil => exact fun h _ _ _ => h
  | cons ev es ih =>
    intro e e' h hside hrun hrun'
    obtain ⟨hok, -, hrest⟩ := hrun
    obtain ⟨hok', -, hrest'⟩ := hrun'
    exact ih (twin_step hn h (hside ev mem_cons_self) hok hok')
      (forall_mem_cons.1 hside).2 hrest hrest'

end

end Runs

/-- For every `k` and every list of events: while no step of either run meets the wrap-around, the
run from `n` and the run from `n + k` agree. -/
theorem isn_independent (cfg : Config) (k : Nat) (e : Endpoint) (es : List WireEvent)
    (hfresh : e.Fresh) (hside : ∀ ev ∈ es, ev.SendSide)
    (hrun : AllSteps Endpoint.NoWrap (Endpoint.apply cfg) e es)
    (hrun' : AllSteps Endpoint.NoWrap (Endpoint.apply cfg) (e.withIsn k)
      (es.map (WireEvent.shift k))) :
    Endpoint.Agrees k (after (Endpoint.apply cfg) e es)
      (after (Endpoint.apply cfg) (e.withIsn k) (es.map (WireEvent.shift k))) :=
  (twin_run rfl es (hfresh.twin _ _) hside hrun hrun').agrees rfl

/-! ## Concrete runs -/

instance (w : Wrb) : Decidable (EndsBelow w) :=
  inferInstanceAs (Decidable (w.seqno ≠ unassigned → w.seqno + w.pktlen < unassigned))

instance (c : Conn) : Decidable (SendFits c) :=
  inferInstanceAs (Decidable (∀ w ∈ c.writeQ.head?,
    startOf c w + w.sent + sndlenOf c w < unassigned))

instance (e : Endpoint) (ev : WireEvent) : Decidable (e.NoWrap ev) := by
  cases ev <;> unfold Endpoint.NoWrap <;> infer_instance

/-- An established connection with the initial sequence number 1000. -/
def freshEndpoint : Endpoint where
  conn :=
    { state := .established, stopped := false, rcvseq := tcpSetsequence 100
      sndseq := tcpSetsequence 1000, sa := 0, sv := 4, rto := 3, timer := 3, nrtx := 0, mss := 536
      winsize := 1000, unacked := 0, writeQ := [], unackedQ := [], expired := 0, sent := 0
      isn := 1000, sndseqMax := 0, keepalive := false, keeptime := 0, keepretries := 0 }
  resets := []
  released := []

/-- The acknowledgement of the first five of twenty bytes. -/
def partAckEvents : List WireEvent :=
  [.send false 100 0 (replicate 20 7), .poll false true,
    .ack { accepts := true, handlers := [.send], readahead := fun _ => true, addrchck := true
           now := 0, tcpMss := 536 }
      { seqno := tcpSetsequence 100, ackno := tcpSetsequence 1005, ctl := { ack := true }
        wnd := 1000, urgp := 0, tcpoffset := 5, dLen := 40, iplen := 20, body := fun _ => 0 }]

theorem partAckEvents_sendSide : ∀ ev ∈ partAckEvents, ev.SendSide := by
  intro ev hev
  simp only [partAckEvents, mem_cons, not_mem_nil, or_false] at hev
  rcases hev with rfl | rfl | rfl
  · trivial
  · trivial
  · exact ⟨⟨rfl, rfl⟩, rfl⟩

theorem isn_independent_sample :
    Endpoint.Agrees 5000 (after (Endpoint.apply ⟨true, false⟩) freshEndpoint partAckEvents)
        (after (Endpoint.apply ⟨true, false⟩) (freshEndpoint.withIsn 5000)
          (partAckEvents.map (WireEvent.shift 5000))) ∧
      (after (Endpoint.apply ⟨true, false⟩) freshEndpoint partAckEvents).conn.unacked = 15 :=
  ⟨isn_independent ⟨true, false⟩ 5000 freshEndpoint partAckEvents ⟨rfl, rfl, rfl, rfl, rfl⟩
    partAckEvents_sendSide (by decide) (by decide), by decide⟩

/-- From the initial sequence number `2 ^ 32 - 10`, the twenty bytes end behind the wrap-around:
`sndseq_max` is 10, and the acknowledgement of five of them is answered with a reset. -/
theorem wrap_resets :
    freshEndpoint.Fresh ∧ (∀ ev ∈ partAckEvents, ev.SendSide) ∧
      (freshEndpoint.withIsn 4294966286).conn.isn = 4294967286 ∧
      (after (Endpoint.apply ⟨true, false⟩) freshEndpoint partAckEvents).resets = [false] ∧
      (after (Endpoint.apply ⟨true, false⟩) (freshEndpoint.withIsn 4294966286)
        (partAckEvents.map (WireEvent.shift 4294966286))).resets = [true] ∧
      (after (Endpoint.apply ⟨true, false⟩) freshEndpoint partAckEvents).conn.unacked = 15 ∧
      (after (Endpoint.apply ⟨true, false⟩) (freshEndpoint.withIsn 4294966286)
        (partAckEvents.map (WireEvent.shift 4294966286))).conn.unacked = 20 :=
  ⟨⟨rfl, rfl, rfl, rfl, rfl⟩, partAckEvents_sendSide, by decide⟩

end BaseNx.Tcp
