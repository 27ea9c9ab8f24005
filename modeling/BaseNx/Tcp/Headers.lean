import BaseNx.Tcp.PassiveOpen
import BaseNx.Tcp.ReceiveSequence

/-!
# The header of an incoming segment

What `tcp_input` takes from the header without a check of its own: the offset of the data and the
urgent pointer, which are subtracted from the 16-bit `d_len`, and the options, whose lengths lead
the loop that looks for the MSS option. `payload_length_exact` and `options_stay_in_header` say for
which headers the lengths and the positions are right, and the two theorems after them what a short
segment or a cut option does.
-/

namespace BaseNx.Tcp

open Lib

/-! ## The length of the payload -/

/-- `d_len` behind the urgent bytes. -/
def dataLen (cfg : Config) (seg : Segment) : Nat := sub16 (segLen seg) (urgLen cfg seg)

/-- The length that is left behind the two headers, as an integer. -/
def trueLen (seg : Segment) : Int := (seg.dLen : Int) - seg.iplen - 4 * seg.tcpoffset

section

variable (cfg : Config) (app : App) (c : Conn) (seg : Segment)

/-- The value of `d_len` with which the state machine offers the payload to the callbacks or counts
it in `rcvseq`, and the integer that it stands for; `none` when the payload is dropped. -/
def machineLen (ackdata : Bool) : Option (Nat × Int) :=
  match c.state with
  | .synRcvd => if ackdata && app.accepts then some (segLen seg, trueLen seg) else none
  | .established =>
    if seg.ctl.fin && !c.stopped then some (segLen seg, trueLen seg)
    else if cfg.urgdata && seg.ctl.urg || dataLen cfg seg > 0 && !c.stopped then
      some (dataLen cfg seg, trueLen seg - urgLen cfg seg)
    else none
  | .finWait1 | .finWait2 => some (segLen seg, trueLen seg)
  | _ => none

/-- The same for `tcp_input`. The byte of a keep-alive probe is counted, too. -/
def usedLen : Option (Nat × Int) :=
  if c.state ≠ .synRcvd ∧ seg.ctl.onlySyn then none
  else if seg.ctl.rst then none
  else if keepaliveProbe cfg c seg then some (segLen seg, trueLen seg)
  else if outOfSequence c seg then none
  else
    match processAck (c.setWindow seg.wnd) seg with
    | none => none
    | some (c, ackdata) => machineLen cfg app c seg ackdata

/-- The segment is dropped before its payload is used: by a test in front of the state machine, or
in its state. The payload of a stopped connection is refused, and so is one that the urgent bytes
use up, modulo `2 ^ 16`. -/
def Unused : Prop :=
  c.state ≠ .synRcvd ∧ seg.ctl.onlySyn = true ∨ seg.ctl.rst = true ∨ outOfSequence c seg = true ∨
    match c.state with
    | .synRcvd => ¬ (seg.ctl.ack = true ∧ 0 < c.unacked ∧ app.accepts = true)
    | .established =>
      seg.ctl.ack = true ∧ 0 < c.unacked ∧ c.sndseqMax < tcpGetsequence seg.ackno ∨
        finTaken c seg = false ∧ (cfg.urgdata && seg.ctl.urg) = false ∧
          (c.stopped = true ∨ seg.ctl.urg = true ∧ 65536 ∣ trueLen seg - seg.urgp)
    | .finWait1 | .finWait2 => False
    | _ => True

/-- The packet holds the headers, and the payload the urgent bytes where they are skipped
unchecked. -/
def LengthsFit : Prop :=
  seg.iplen + 4 * seg.tcpoffset ≤ seg.dLen ∧
    (c.state = .established → finTaken c seg = false → cfg.urgdata = false → seg.ctl.urg = true →
      seg.iplen + 4 * seg.tcpoffset + seg.urgp ≤ seg.dLen)

end

variable (app : App) (seg : Segment) (s : Cb)

/-- A handler hands on bytes of the payload that is left. -/
theorem Handler.run_delivered (h : Handler) :
    (h.run app seg s).delivered.length + (h.run app seg s).dLen ≤ s.delivered.length + s.dLen := by
  cases h with
  | send => exact le_refl _
  | recv buflen =>
    simp only [Handler.run, inetTcpEventhandler]
    split
    · rw [List.length_append, length_slice]
      dsimp only
      split <;> omega
    · exact le_refl _
  | close linger timeout =>
    simp only [Handler.run, tcpCloseEventhandler]
    split
    · split <;> exact le_refl _
    · split
      · exact le_refl _
      · split <;> exact Nat.le_add_right _ _

theorem devifConnEvent_delivered (hs : List Handler) : ∀ s : Cb,
    (devifConnEvent app seg hs s).delivered.length + (devifConnEvent app seg hs s).dLen ≤
      s.delivered.length + s.dLen := by
  induction hs with
  | nil => exact fun s => le_refl _
  | cons h hs ih =>
    intro s
    simp only [devifConnEvent]
    split
    · exact (ih _).trans (h.run_delivered app seg s)
    · exact le_refl _

theorem tcpCallback_delivered (c : Conn) (flags : Events) (n k : Nat) :
    (tcpCallback app seg (startCb c flags n k)).delivered.length ≤ n := by
  have hle := devifConnEvent_delivered app seg app.handlers (startCb c flags n k)
  change _ ≤ 0 + n at hle
  simp only [tcpCallback]
  split
  · simp only [tcpDataEvent]
    split
    · split
      · rw [List.length_append, length_slice]
        omega
      · dsimp only
        omega
    · dsimp only
      omega
  · omega

/-- Without `TCP_NEWDATA` nothing is handed on. -/
theorem tcpCallback_dropped (c : Conn) (flags : Events) (n k m : Nat) (h : flags.newdata = false) :
    (tcpCallback app seg (startCb c flags n k)).delivered.length ≤ m := by
  rw [(tcpCallback_noData app seg (startCb c flags n k) h).1]
  exact Nat.zero_le m

/-- No state hands on more than the length that it uses. -/
theorem stateMachine_delivered (cfg : Config) (c : Conn) (ackdata : Bool) :
    (stateMachine cfg app c seg ackdata).delivered.length ≤
      ((machineLen cfg app c seg ackdata).map Prod.fst).getD 0 := by
  have hcb := tcpCallback_delivered app seg
  have hno := tcpCallback_dropped app seg
  rw [stateMachine, machineLen]
  cases c.state
  case synRcvd =>
    dsimp only
    rw [inputSynRcvd]
    cases ackdata
    · split
      · contradiction
      · split <;> exact Nat.zero_le _
    · cases app.accepts
      · exact Nat.zero_le _
      · rw [if_pos rfl, if_pos rfl, (tcpAppsend_delivered _).1]
        exact hcb _ _ _ _
  case synSent =>
    dsimp only
    rw [inputSynSent]
    split
    · rw [(tcpAppsend_delivered _).1]
      exact hcb _ _ 0 0
    · exact hno _ _ _ _ _ rfl
  case established =>
    dsimp only
    rw [inputEstablished]
    split
    · exact hcb _ _ _ _
    · -- urgent data is skipped here only
      unfold inputData
      extract_lets urglen dLen c₁ c₂ newdata s
      have hstop : c₂.stopped = c.stopped := by
        simp only [c₂, c₁]
        split_ifs <;> rfl
      split
      · rw [(tcpAppsend_delivered _).1]
        cases hnew : newdata with
        | false => exact hno c₂ _ dLen urglen _ hnew
        | true =>
          have hused : (cfg.urgdata && seg.ctl.urg || dataLen cfg seg > 0 && !c.stopped) =
              true := by
            rw [← hstop]
            exact Bool.or_eq_true_iff.2 (.inr hnew)
          rw [if_pos hused]
          exact hcb c₂ _ dLen urglen
      · exact Nat.zero_le _
  case lastAck =>
    dsimp only
    rw [inputLastAck]
    split
    · exact hno _ _ _ _ _ rfl
    · exact Nat.zero_le _
  case finWait1 =>
    simp only [inputFinWait1]
    split_ifs
    · exact hno _ _ _ _ _ rfl
    · exact hno _ _ _ _ _ rfl
    all_goals exact Nat.zero_le _
  case finWait2 =>
    simp only [inputFinWait2]
    split_ifs
    · exact hno _ _ _ _ _ rfl
    all_goals exact Nat.zero_le _
  all_goals exact Nat.zero_le _

theorem tcpInput_delivered (cfg : Config) (c : Conn) :
    (tcpInput cfg app c seg).delivered.length ≤ ((usedLen cfg app c seg).map Prod.fst).getD 0 := by
  rw [tcpInput, usedLen]
  split
  · exact Nat.zero_le _
  simp only [inputFound]
  split
  · rw [inputRst]
    split
    · exact Nat.zero_le _
    · exact tcpCallback_dropped app seg _ _ _ _ _ rfl
  have hprobe : keepaliveProbe cfg (c.setWindow seg.wnd) seg = keepaliveProbe cfg c seg := rfl
  have hseq : outOfSequence (c.setWindow seg.wnd) seg = outOfSequence c seg := rfl
  rw [hprobe, hseq]
  split
  · exact Nat.zero_le _
  split
  · exact Nat.zero_le _
  cases processAck (c.setWindow seg.wnd) seg with
  | none => exact Nat.zero_le _
  | some r => exact stateMachine_delivered app seg cfg r.1 r.2

theorem segLen_eq : (segLen seg : Int) = trueLen seg % 65536 := by
  simp only [segLen, trueLen, sub16, u16]
  omega

theorem dataLen_eq (cfg : Config) :
    (dataLen cfg seg : Int) = (trueLen seg - urgLen cfg seg) % 65536 := by
  have hseg := segLen_eq seg
  simp only [dataLen, sub16, u16]
  omega

variable {seg : Segment} {c : Conn}

theorem segLen_exact (hlen : seg.dLen < 65536) :
    (segLen seg : Int) = trueLen seg ↔ seg.iplen + 4 * seg.tcpoffset ≤ seg.dLen := by
  have hseg := segLen_eq seg
  simp only [trueLen] at hseg ⊢
  omega

/-- The urgent bytes that are cut to `d_len` always fit. -/
theorem dataLen_exact (cfg : Config) (hlen : seg.dLen < 65536) (hst : c.state = .established)
    (hfin : finTaken c seg = false) :
    (dataLen cfg seg : Int) = trueLen seg - urgLen cfg seg ↔ LengthsFit cfg c seg := by
  have hdata := dataLen_eq seg cfg
  have hseg := segLen_eq seg
  simp only [LengthsFit, hst, hfin, true_implies]
  simp only [urgLen, trueLen] at hdata hseg ⊢
  cases hurg : seg.ctl.urg <;> cases hcfg : cfg.urgdata <;> simp [hurg, hcfg] at hdata ⊢ <;> omega

theorem processAck_eq_none : processAck c seg = none ↔
    (seg.ctl.ack = true ∧ c.unacked > 0) ∧ c.sndseqMax < tcpGetsequence seg.ackno ∧
      c.state = .established := by
  simp only [processAck]
  split_ifs <;> simp_all

/-- An established connection refuses a payload when it is stopped, or when no length is left. -/
theorem dataLen_refused (cfg : Config) (hlen : seg.dLen < 65536)
    (hhdr : seg.iplen + 4 * seg.tcpoffset < 65536) (hst : c.state = .established)
    (hfin : finTaken c seg = false) :
    ((cfg.urgdata && seg.ctl.urg || dataLen cfg seg > 0 && !c.stopped) = false →
        ((cfg.urgdata && seg.ctl.urg) = false ∧
          (c.stopped = true ∨ seg.ctl.urg = true ∧ 65536 ∣ trueLen seg - seg.urgp)) ∨
          LengthsFit cfg c seg) ∧
      ((cfg.urgdata && seg.ctl.urg || dataLen cfg seg > 0 && !c.stopped) = true →
        ¬ ((cfg.urgdata && seg.ctl.urg) = false ∧
          (c.stopped = true ∨ seg.ctl.urg = true ∧ 65536 ∣ trueLen seg - seg.urgp))) := by
  have hexact := dataLen_exact cfg hlen hst hfin
  have hdata := dataLen_eq seg cfg
  have hrange : -65536 < trueLen seg ∧ trueLen seg < 65536 := by
    simp only [trueLen]
    omega
  rw [← hexact]
  simp only [urgLen] at hdata ⊢
  cases hstop : c.stopped <;> cases hurg : seg.ctl.urg <;> cases hcfg : cfg.urgdata <;>
    simp [hurg, hcfg] at hdata ⊢ <;> omega

theorem machineLen_exact (cfg : Config) (app : App) {c' : Conn} {ackdata : Bool}
    (hlen : seg.dLen < 65536) (hlow : seg.iplen + 4 * seg.tcpoffset < 65536)
    (hsame : SameReceiver c c')
    (hack : ackdata = true ↔ seg.ctl.ack = true ∧ c.unacked > 0)
    (hseq : outOfSequence c seg = false) (hrst : seg.ctl.rst = false)
    (hsyn : ¬ (c.state ≠ .synRcvd ∧ seg.ctl.onlySyn = true))
    (hreset : c.state = .established →
      ¬ (seg.ctl.ack = true ∧ 0 < c.unacked ∧ c.sndseqMax < tcpGetsequence seg.ackno)) :
    (∀ n ∈ machineLen cfg app c' seg ackdata, (n.1 : Int) = n.2) ↔
      Unused cfg app c seg ∨ LengthsFit cfg c seg := by
  have hhdr := segLen_exact hlen
  rw [Unused, or_iff_right hsyn, hrst, hseq, machineLen, hsame.state, hsame.stopped]
  cases hst : c.state
  case synRcvd =>
    have hfit : LengthsFit cfg c seg ↔ seg.iplen + 4 * seg.tcpoffset ≤ seg.dLen := by
      simp [LengthsFit, hst]
    rw [hfit, ← hhdr]
    cases hacc : app.accepts <;> cases ackdata <;> simp_all
  case established =>
    have hacked : (seg.ctl.fin && !c.stopped) = finTaken c seg := rfl
    dsimp only
    rw [hacked, or_iff_right (hreset hst)]
    cases hfin : finTaken c seg
    case true => simp [hhdr, LengthsFit, hfin]
    case false =>
      obtain ⟨hrefused, hused⟩ := dataLen_refused cfg hlen hlow hst hfin
      have hdata := dataLen_exact cfg hlen hst hfin
      cases huse : (cfg.urgdata && seg.ctl.urg || dataLen cfg seg > 0 && !c.stopped)
      · have hcase := hrefused huse
        simp_all
      · have hcase := hused huse
        simp_all
  case finWait1 | finWait2 =>
    have hfit : LengthsFit cfg c seg ↔ seg.iplen + 4 * seg.tcpoffset ≤ seg.dLen := by
      simp [LengthsFit, hst]
    simp [hfit, hhdr]
  all_goals simp

/-- The value of `d_len` that is used is exact if and only if the segment is dropped before, or is a
keep-alive probe, whose length was compared with one, or the packet holds what its header announces;
and no more bytes are handed on than this length. -/
theorem payload_length_exact (cfg : Config) (app : App) (c : Conn) (seg : Segment)
    (hlen : seg.dLen < 65536) (hip : seg.iplen ≤ 40) (hoff : seg.tcpoffset < 16) :
    (tcpInput cfg app c seg).delivered.length ≤ ((usedLen cfg app c seg).map Prod.fst).getD 0 ∧
      ((∀ n ∈ usedLen cfg app c seg, (n.1 : Int) = n.2) ↔
        keepaliveProbe cfg c seg = true ∨ Unused cfg app c seg ∨ LengthsFit cfg c seg) := by
  refine ⟨tcpInput_delivered app seg cfg c, ?_⟩
  have hdropped : ∀ n ∈ (none : Option (Nat × Int)), (n.1 : Int) = n.2 := by simp
  rw [usedLen]
  split
  case isTrue hsyn => exact iff_of_true hdropped (.inr (.inl (.inl hsyn)))
  case isFalse hsyn =>
  split
  case isTrue hrst => exact iff_of_true hdropped (.inr (.inl (.inr (.inl hrst))))
  case isFalse hrst =>
  split
  case isTrue hprobe =>
    -- a length that has wrapped is above one
    have hone : segLen seg = 0 ∨ segLen seg = 1 := by
      simp only [keepaliveProbe, Bool.and_eq_true, Bool.or_eq_true, decide_eq_true_eq] at hprobe
      exact hprobe.1.1.2
    have hseg := segLen_eq seg
    have hexact : (segLen seg : Int) = trueLen seg := by
      simp only [trueLen] at hseg ⊢
      omega
    exact iff_of_true (by simpa using hexact) (.inl hprobe)
  case isFalse hprobe =>
  rw [or_iff_right hprobe]
  split
  case isTrue hseq => exact iff_of_true hdropped (.inl (.inr (.inr (.inl hseq))))
  case isFalse hseq =>
  cases hack : processAck (c.setWindow seg.wnd) seg with
  | none =>
    obtain ⟨hacked, hmax, hst⟩ := processAck_eq_none.1 hack
    have hst' : c.state = .established := hst
    refine iff_of_true hdropped (.inl (.inr (.inr (.inr ?_))))
    rw [hst']
    exact .inl ⟨hacked.1, hacked.2, hmax⟩
  | some r =>
    obtain ⟨hsame, hdata, -⟩ := processAck_some hack
    refine machineLen_exact cfg app hlen (by omega) { hsame with } hdata
      (Bool.eq_false_iff.2 hseq) (Bool.eq_false_iff.2 hrst) hsyn fun hst h => ?_
    have hnone : processAck (c.setWindow seg.wnd) seg = none :=
      processAck_eq_none.2 ⟨⟨h.1, h.2.1⟩, h.2.2, hst⟩
    rw [hnone] at hack
    cases hack

/-- Five bytes of payload with the acknowledgement that opens a connection. -/
theorem payload_length_exact_sample :
    let seg : Segment := { sampleAck 7001 with dLen := 45 }
    usedLen ⟨false, false⟩ idleApp sampleHalfOpen seg = some (5, 5) ∧
      (tcpInput ⟨false, false⟩ idleApp sampleHalfOpen seg).delivered.length ≤ 5 ∧
      LengthsFit ⟨false, false⟩ sampleHalfOpen seg := by
  intro seg
  have h := payload_length_exact ⟨false, false⟩ idleApp sampleHalfOpen seg (by decide) (by decide)
    (by decide)
  have hused : usedLen ⟨false, false⟩ idleApp sampleHalfOpen seg = some (5, 5) := by decide
  rw [hused] at h
  exact ⟨hused, h.1, by decide, nofun⟩

/-- A header of 60 bytes is announced in a packet that ends after 20 of them: 65496 bytes are taken
for received, from 100 on. An urgent pointer beyond the payload wraps the length, too. -/
theorem payload_length_wraps :
    let seg : Segment := { sampleAck 7001 with tcpoffset := 15 }
    let urgent : Segment := { sampleAck 7000 with ctl := { ack := true, urg := true }, urgp := 1 }
    seg.iplen + 20 ≤ seg.dLen ∧
      usedLen ⟨false, false⟩ idleApp sampleHalfOpen seg = some (65496, -40) ∧
      tcpGetsequence (tcpInput ⟨false, false⟩ idleApp sampleHalfOpen seg).conn.rcvseq =
      100 + 65496 ∧
      urgent.iplen + 20 ≤ urgent.dLen ∧
      usedLen ⟨false, false⟩ idleApp sampleConn urgent = some (65535, -1) := by
  decide

/-! ## The options -/

/-- The loop over the options: the positions behind the fixed header that it reads, and the MSS that
it finds. It is `none` when the loop has not ended after so many rounds. -/
def optionLoop (body : Nat → UInt8) (optlen : Nat) : Nat → Nat → Option (List Nat × Option Nat)
  | 0, _ => none
  | fuel + 1, i =>
    if i < optlen then
      let opt := (body i).toNat
      let len := (body (i + 1)).toNat
      if opt = 0 then some ([i], none)
      else if opt = 1 then (optionLoop body optlen fuel (i + 1)).map (Prod.map ([i] ++ ·) id)
      else if opt = 2 ∧ len = 4 then
        some ([i, i + 1, i + 2, i + 3],
          some ((body (i + 2)).toNat * 2 ^ 8 + (body (i + 3)).toNat))
      else if len = 0 then some ([i, i + 1], none)
      else (optionLoop body optlen fuel (i + len)).map (Prod.map ([i, i + 1] ++ ·) id)
    else some ([], none)

/-- The MSS that the options in `area` announce, behind the next `skip` bytes: the value of the
first option of kind 2 and length 4, before an end of the list or a length of 0. A length counts the
bytes of the kind and of the length, too. -/
def announcedMss : (skip : Nat) → (area : List UInt8) → Option Nat
  | _, [] => none
  | skip + 1, _ :: area => announcedMss skip area
  | 0, kind :: area =>
    let len := (area.headD 0).toNat
    if kind.toNat = 0 then none
    else if kind.toNat = 1 then announcedMss 0 area
    else if kind.toNat = 2 ∧ len = 4 then
      if 3 ≤ area.length then some ((area.getD 1 0).toNat * 2 ^ 8 + (area.getD 2 0).toNat) else none
    else if len = 0 then none
    else announcedMss (len - 1) area

/-- No option that the scan meets is cut before its length, and no MSS option before its value. -/
def Uncut : (skip : Nat) → (area : List UInt8) → Prop
  | _, [] => True
  | skip + 1, _ :: area => Uncut skip area
  | 0, kind :: area =>
    let len := (area.headD 0).toNat
    if kind.toNat = 0 then True
    else if kind.toNat = 1 then Uncut 0 area
    else if kind.toNat = 2 ∧ len = 4 then 3 ≤ area.length
    else area ≠ [] ∧ (len = 0 ∨ Uncut (len - 1) area)

theorem skip_area (skip : Nat) : ∀ area : List UInt8,
    announcedMss skip area = announcedMss 0 (area.drop skip) ∧
      (Uncut skip area ↔ Uncut 0 (area.drop skip)) := by
  induction skip with
  | zero => exact fun area => ⟨rfl, Iff.rfl⟩
  | succ skip ih =>
    intro area
    cases area with
    | nil => exact ⟨rfl, Iff.rfl⟩
    | cons x area => exact ih area

theorem slice_cons (body : Nat → UInt8) {i n : Nat} (h : i < n) :
    slice body i (n - i) = body i :: slice body (i + 1) (n - (i + 1)) := by
  rw [show n - i = n - (i + 1) + 1 by omega, slice, List.range_succ_eq_map, List.map_cons,
    List.map_map]
  refine congrArg₂ _ rfl (List.map_congr_left fun k _ => ?_)
  exact congrArg body (Nat.add_right_comm i k 1)

variable {body : Nat → UInt8} {optlen : Nat}

/-- Every round moves on, so the loop ends; its result is that of `parseMss`. -/
theorem optionLoop_ends (body : Nat → UInt8) (n : Nat) : ∀ i, optlen - i ≤ n →
    ∃ reads, optionLoop body optlen (n + 1) i = some (reads, parseMss body optlen n i) := by
  induction n with
  | zero =>
    intro i hi
    rw [optionLoop, if_neg (by omega)]
    exact ⟨[], rfl⟩
  | succ n ih =>
    intro i hi
    rw [optionLoop, parseMss]
    dsimp only
    split_ifs with hlt hend hnop hmss hzero
    · exact ⟨[i], rfl⟩
    · obtain ⟨reads, hreads⟩ := ih (i + 1) (by omega)
      rw [hreads]
      exact ⟨[i] ++ reads, rfl⟩
    · exact ⟨[i, i + 1, i + 2, i + 3], rfl⟩
    · exact ⟨[i, i + 1], rfl⟩
    · obtain ⟨reads, hreads⟩ := ih (i + (body (i + 1)).toNat) (by omega)
      rw [hreads]
      exact ⟨[i, i + 1] ++ reads, rfl⟩
    · exact ⟨[], rfl⟩

/-- The loop stays in the area if and only if no option is cut, and then its result is what is
announced there. -/
theorem optionLoop_uncut (n : Nat) : ∀ i reads mss, optionLoop body optlen n i = some (reads, mss) →
    ((∀ k ∈ reads, k < optlen) ↔ Uncut 0 (slice body i (optlen - i))) ∧
      (Uncut 0 (slice body i (optlen - i)) → mss = announcedMss 0 (slice body i (optlen - i))) := by
  induction n with
  | zero => nofun
  | succ n ih =>
    intro i reads mss h
    rw [optionLoop] at h
    split at h
    case isFalse hlt =>
      cases h
      rw [show optlen - i = 0 by omega]
      exact ⟨iff_of_true nofun trivial, fun _ => rfl⟩
    rename_i hlt
    rw [slice_cons body hlt, Uncut, announcedMss]
    by_cases hend : (body i).toNat = 0
    · rw [if_pos hend] at h ⊢
      cases h
      rw [if_pos hend]
      exact ⟨iff_of_true (List.forall_mem_singleton.2 hlt) trivial, fun _ => rfl⟩
    rw [if_neg hend] at h ⊢
    rw [if_neg hend]
    by_cases hnop : (body i).toNat = 1
    · rw [if_pos hnop] at h ⊢
      rw [if_pos hnop]
      obtain ⟨⟨rest, _⟩, hloop, heq⟩ := Option.map_eq_some_iff.1 h
      cases heq
      obtain ⟨hin, hmss⟩ := ih _ _ _ hloop
      exact ⟨List.forall_mem_cons.trans ((and_iff_right hlt).trans hin), hmss⟩
    rw [if_neg hnop] at h ⊢
    rw [if_neg hnop]
    by_cases hlen : i + 1 < optlen
    case neg =>
      -- the length of the option is read behind the area
      have hread : i + 1 ∈ reads := by
        split_ifs at h
        · cases h
          simp
        · cases h
          simp
        · obtain ⟨_, -, heq⟩ := Option.map_eq_some_iff.1 h
          cases heq
          simp
      rw [show optlen - (i + 1) = 0 by omega]
      exact ⟨iff_of_false (fun hin => hlen (hin _ hread)) (by simp [slice]),
        fun h => by simp [slice] at h⟩
    have hhead : ((slice body (i + 1) (optlen - (i + 1))).headD 0).toNat =
        (body (i + 1)).toNat := by
      rw [slice_cons body hlen]
      rfl
    rw [hhead]
    by_cases hmss : (body i).toNat = 2 ∧ (body (i + 1)).toNat = 4
    · rw [if_pos hmss] at h ⊢
      rw [if_pos hmss]
      cases h
      rw [length_slice]
      refine ⟨⟨fun hin => ?_, fun hcut k hk => ?_⟩, fun hcut => ?_⟩
      · have := hin (i + 3) (by simp)
        omega
      · simp only [List.mem_cons, List.not_mem_nil, or_false] at hk
        omega
      · rw [if_pos hcut, slice_cons body hlen, slice_cons body (by omega),
          slice_cons body (by omega)]
        rfl
    rw [if_neg hmss] at h ⊢
    rw [if_neg hmss]
    have harea : slice body (i + 1) (optlen - (i + 1)) ≠ [] := by
      rw [slice_cons body hlen]
      exact List.cons_ne_nil _ _
    rw [and_iff_right harea]
    by_cases hzero : (body (i + 1)).toNat = 0
    · rw [if_pos hzero] at h ⊢
      cases h
      exact ⟨iff_of_true (List.forall_mem_cons.2 ⟨hlt, List.forall_mem_singleton.2 hlen⟩)
        (.inl hzero),
        fun _ => rfl⟩
    rw [if_neg hzero] at h ⊢
    obtain ⟨⟨rest, _⟩, hloop, heq⟩ := Option.map_eq_some_iff.1 h
    cases heq
    -- the scan goes on behind the option
    have hskip := skip_area ((body (i + 1)).toNat - 1) (slice body (i + 1) (optlen - (i + 1)))
    rw [drop_slice, show i + 1 + ((body (i + 1)).toNat - 1) = i + (body (i + 1)).toNat by omega,
      show optlen - (i + 1) - ((body (i + 1)).toNat - 1) = optlen - (i + (body (i + 1)).toNat) by
        omega] at hskip
    obtain ⟨hin, hfound⟩ := ih _ _ _ hloop
    rw [or_iff_right hzero, hskip.2, hskip.1]
    exact ⟨List.forall_mem_cons.trans ((and_iff_right hlt).trans
      (List.forall_mem_cons.trans ((and_iff_right hlen).trans hin))), hfound⟩

def optionArea (seg : Segment) : List UInt8 := slice seg.body 0 ((seg.tcpoffset - 5) * 4)

/-- The value that both copies of the loop assign. -/
theorem segmentMss_getD {app : App} {seg : Segment} {mss : Option Nat}
    (h : parseMss seg.body ((seg.tcpoffset - 5) * 4) ((seg.tcpoffset - 5) * 4) 0 = mss) (m : Nat) :
    (segmentMss app seg).getD m = mss.elim m (min app.tcpMss) := by
  rw [segmentMss, h]
  cases mss with
  | none => rfl
  | some x =>
    change (if x > app.tcpMss then app.tcpMss else x) = min app.tcpMss x
    split <;> omega

/-- The loop over the options of a segment ends, for every content, and a connection that is made by
a SYN, or opened by a SYN-ACK, takes the MSS found, at most that of the device, and else keeps the
one it had. The loop reads the option area only, and finds what is announced there, if and only if
none of the options is cut. -/
theorem options_stay_in_header (app : App) (seg : Segment) :
    ∃ reads mss, optionLoop seg.body ((seg.tcpoffset - 5) * 4) ((seg.tcpoffset - 5) * 4 + 1) 0 =
        some (reads, mss) ∧
      (∀ iss m, (acceptSyn app m iss seg).conn.mss = mss.elim m (min app.tcpMss)) ∧
      (∀ c, seg.ctl.onlySynAck = true → ∃ s : Cb, s.conn.mss = mss.elim c.mss (min app.tcpMss) ∧
        inputSynSent app c seg true = tcpAppsend (tcpCallback app seg s)) ∧
      ((∀ k ∈ reads, k < (seg.tcpoffset - 5) * 4) ∧ mss = announcedMss 0 (optionArea seg) ↔
        Uncut 0 (optionArea seg)) := by
  obtain ⟨reads, hloop⟩ := optionLoop_ends seg.body ((seg.tcpoffset - 5) * 4) 0 (Nat.sub_le _ _)
  obtain ⟨hin, hmss⟩ := optionLoop_uncut _ 0 reads _ hloop
  refine ⟨reads, _, hloop, fun _ m => segmentMss_getD rfl m, fun c hctl => ?_,
    fun h => hin.1 h.1, fun h => ⟨hin.2 h, hmss h⟩⟩
  have hopen : (true && seg.ctl.onlySynAck) = true := hctl
  exact ⟨_, And.symm ⟨if_pos hopen, segmentMss_getD rfl c.mss⟩⟩

/-- A SYN with the given bytes behind the fixed header. -/
def synWithOptions (tcpoffset : Nat) (bytes : List UInt8) : Segment :=
  { sampleSyn with tcpoffset := tcpoffset, body := fun i => bytes.getD i 0 }

/-- A no-operation, an MSS of 512 and an end of the list. -/
theorem options_stay_in_header_sample :
    (acceptSyn idleApp 536 (tcpSetsequence 7000) (synWithOptions 7 [1, 2, 4, 2, 0])).conn.mss =
    512 := by
  obtain ⟨reads, mss, -, hsyn, -, huncut⟩ :=
    options_stay_in_header idleApp (synWithOptions 7 [1, 2, 4, 2, 0])
  have hmss := (huncut.2 (Nat.le_of_ble_eq_true rfl)).2
  rw [hsyn, hmss]
  decide

/-- Three no-operations and an MSS option that the end of the header cuts: the loop reads the three
bytes behind the header, which are payload, and takes the MSS from there. -/
theorem options_leave_header :
    let seg := synWithOptions 6 [1, 1, 1, 2, 4, 2, 0]
    optionLoop seg.body 4 5 0 = some ([0, 1, 2, 3, 4, 5, 6], some 512) ∧
      announcedMss 0 (optionArea seg) = none ∧
      (acceptSyn idleApp 536 (tcpSetsequence 7000) seg).conn.mss = 512 := by
  decide

end BaseNx.Tcp
