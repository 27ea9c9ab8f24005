import BaseNx.Lib.Reach
import BaseNx.Tcp.Input

/-!
# The receive sequence number

`rcvseq` is advanced in several places of `tcp_input`: in the keep-alive block, for a FIN before its
data is delivered, and for data after the callbacks said that they took it. The results here relate
it to the bytes that were handed on: `tcpInput_established` for one segment, and
`rcvseq_counts_stream` for every run, under the condition `Accountable` on each segment. Each part
of the condition excludes a way in which the source counts bytes that nobody received.
-/

namespace BaseNx.Tcp

open Lib List

def payload (seg : Segment) : List UInt8 :=
  slice seg.body ((seg.tcpoffset - 5) * 4) (seg.dLen - seg.iplen - seg.tcpoffset * 4)

/-! ## Data in the callbacks -/

/-- A close in progress. -/
def Handler.isClose : Handler → Bool
  | .close _ _ => true
  | _ => false

/-- The handlers save the `n` bytes of a segment completely, or refuse them completely when no FIN
comes with them: a receiver whose buffer is too small finds room for the rest in the read-ahead
queue, and no close in progress takes the answer of the receiver back. -/
def savesAll (app : App) (fin : Bool) (n : Nat) : List Handler → Bool
  | [] => !fin || app.readahead n
  | .send :: hs => savesAll app fin n hs
  | .recv buflen :: hs =>
    (n ≤ buflen || app.readahead (n - buflen)) && (fin || hs.all fun h => !h.isClose)
  | .close _ _ :: _ => !fin

/-- Nothing was delivered and no acknowledgement asked for; if `p`, none was taken back either. -/
structure NoData (p : Prop) (s r : Cb) : Prop where
  newdata : r.flags.newdata = false
  delivered : r.delivered = s.delivered
  ack : r.flags.sndack = true → s.flags.sndack = true
  kept : p → r.flags.sndack = s.flags.sndack

section Handlers

variable (app : App) (seg : Segment)

theorem Handler.run_noData (h : Handler) (s : Cb) (hs : s.flags.newdata = false) :
    NoData (h.isClose = false) s (h.run app seg s) := by
  cases h with
  | send =>
    rcases psockSendEventhandler_flags (s.sndData ≠ []) app.addrchck (tcpGetsequence seg.ackno)
      s.flags s.conn with hf | hf
    all_goals
      have hflags : (Handler.send.run app seg s).flags = _ := hf
      exact ⟨by rw [hflags]; exact hs, rfl, by rw [hflags]; exact id, fun _ => by rw [hflags]⟩
  | recv buflen =>
    simp only [Handler.run, inetTcpEventhandler, hs]
    exact ⟨hs, rfl, id, fun _ => rfl⟩
  | close linger timeout =>
    refine ⟨?_, ?_, ?_, fun hc => by cases hc⟩
    all_goals
      simp only [Handler.run, tcpCloseEventhandler, tcpFree]
      split
      · split <;> simp
      · split
        · simp
        · split <;> simp

theorem devifConnEvent_noData (hs : List Handler) : ∀ s : Cb, s.flags.newdata = false →
    NoData ((hs.all fun h => !h.isClose) = true) s (devifConnEvent app seg hs s) := by
  induction hs with
  | nil => exact fun s hnew => ⟨hnew, rfl, id, fun _ => rfl⟩
  | cons h hs ih =>
    intro s hnew
    simp only [devifConnEvent]
    split
    · obtain ⟨hnew', hdel, hack, hkeep⟩ := h.run_noData app seg s hnew
      obtain ⟨inew, idel, iack, ikeep⟩ := ih (h.run app seg s) hnew'
      refine ⟨inew, idel.trans hdel, fun ha => hack (iack ha), fun hall => ?_⟩
      simp only [all_cons, Bool.and_eq_true, Bool.not_eq_true'] at hall
      exact (ikeep hall.2).trans (hkeep hall.1)
    · exact ⟨hnew, rfl, id, fun _ => rfl⟩

theorem devifConnEvent_data (fin : Bool) (n : Nat) (hs : List Handler) :
    ∀ s : Cb, s.flags.newdata = true → s.flags.sndack = false → s.delivered = [] → s.dLen = n →
      savesAll app fin n hs = true →
      let r := devifConnEvent app seg hs s
      (r.flags.newdata = true ∧ r.delivered = [] ∧ r.dLen = n ∧ r.appdata = s.appdata ∧
          (fin = true → app.readahead n = true)) ∨
        (r.flags.newdata = false ∧ r.delivered = slice seg.body s.appdata n ∧
          (fin = false → r.flags.sndack = true)) ∨
        (fin = false ∧ r.flags.newdata = false ∧ r.delivered = [] ∧ r.flags.sndack = false) := by
  induction hs with
  | nil =>
    intro s hnew _ hdel hlen hsave
    refine .inl ⟨hnew, hdel, hlen, rfl, fun hfin => ?_⟩
    simpa [savesAll, hfin] using hsave
  | cons h hs ih =>
    intro s hnew hack hdel hlen hsave
    have hany : s.flags.any = true := by
      simp only [Events.any, bne_iff_ne, ne_eq]
      intro hzero
      rw [hzero] at hnew; cases hnew
    simp only [devifConnEvent, hany, if_true]
    cases h with
    | send =>
      refine ih (Handler.send.run app seg s) ?_ ?_ hdel hlen hsave
      all_goals
        rcases psockSendEventhandler_flags (s.sndData ≠ []) app.addrchck
          (tcpGetsequence seg.ackno) s.flags s.conn with hf | hf
        all_goals
          have hflags : (Handler.send.run app seg s).flags = _ := hf
          rw [hflags]
          assumption
    | recv buflen =>
      -- the receiver takes the data, and the later handlers leave that alone
      simp only [savesAll, Bool.and_eq_true, Bool.or_eq_true, decide_eq_true_eq] at hsave
      have htaken : (Handler.run app seg s (.recv buflen)).delivered =
          slice seg.body s.appdata n := by
        simp only [Handler.run, inetTcpEventhandler, hnew, if_true, hdel, hlen,
          nil_append]
        by_cases hfit : n ≤ buflen
        · simp [min_eq_left hfit]
        · have hroom : app.readahead (n - buflen) = true := hsave.1.resolve_left hfit
          have hmin : min n buflen = buflen := min_eq_right (by omega)
          rw [hmin, if_pos ⟨by omega, hroom⟩, Nat.add_sub_cancel' (by omega)]
      have hflags : (Handler.run app seg s (.recv buflen)).flags =
          { s.flags with newdata := false, sndack := true } := by
        simp only [Handler.run, inetTcpEventhandler, hnew, if_true]
      obtain ⟨inew, idel, -, ikeep⟩ := devifConnEvent_noData app seg hs
        (Handler.run app seg s (.recv buflen)) (by rw [hflags])
      refine .inr (.inl ⟨inew, idel.trans htaken, fun hfin => ?_⟩)
      have hall := hsave.2.resolve_left (by rw [hfin]; decide)
      rw [ikeep hall, hflags]
    | close linger timeout =>
      have hfin : fin = false := by simpa [savesAll] using hsave
      have hclosed : (Handler.run app seg s (.close linger timeout)).flags.newdata = false ∧
          (Handler.run app seg s (.close linger timeout)).delivered = [] ∧
          (Handler.run app seg s (.close linger timeout)).flags.sndack = false := by
        simp only [Handler.run, tcpCloseEventhandler, tcpFree]
        split
        · split <;> exact ⟨rfl, hdel, rfl⟩
        · split
          · exact ⟨rfl, hdel, rfl⟩
          · split <;> exact ⟨rfl, hdel, hack⟩
      obtain ⟨inew, idel, iack, -⟩ := devifConnEvent_noData app seg hs _ hclosed.1
      refine .inr (.inr ⟨hfin, inew, idel.trans hclosed.2.1, ?_⟩)
      rw [Bool.eq_false_iff]
      intro htrue
      have := iack htrue
      rw [hclosed.2.2] at this; cases this

theorem tcpCallback_noData (s : Cb) (hnew : s.flags.newdata = false) :
    (tcpCallback app seg s).delivered = s.delivered ∧
      ((tcpCallback app seg s).flags.sndack = true → s.flags.sndack = true) := by
  obtain ⟨inew, idel, iack, -⟩ := devifConnEvent_noData app seg app.handlers s hnew
  simp only [tcpCallback, inew]
  exact ⟨idel, iack⟩

/-- The callbacks of a segment with `n` bytes of new data: all of them are delivered and an
acknowledgement is asked for, or, without a FIN, none of them and no acknowledgement. -/
theorem tcpCallback_data (fin : Bool) (s : Cb) (hnew : s.flags.newdata = true)
    (hack : s.flags.sndack = false) (hdel : s.delivered = []) (hpos : 0 < s.dLen)
    (hsave : savesAll app fin s.dLen app.handlers = true) :
    ((tcpCallback app seg s).delivered = slice seg.body s.appdata s.dLen ∧
        (fin = false → (tcpCallback app seg s).flags.sndack = true)) ∨
      (fin = false ∧ (tcpCallback app seg s).delivered = [] ∧
        (tcpCallback app seg s).flags.sndack = false) := by
  rcases devifConnEvent_data app seg fin s.dLen app.handlers s hnew hack hdel rfl hsave with
    ⟨inew, idel, ilen, iapp, iroom⟩ | ⟨inew, idel, iack⟩ | ⟨hfin, inew, idel, iack⟩
  · simp only [tcpCallback, inew, if_true, tcpDataEvent, ilen, gt_iff_lt, hpos]
    cases hread : app.readahead s.dLen with
    | true =>
      refine .inl ⟨?_, fun _ => rfl⟩
      simp only [if_true, idel, iapp, nil_append]
    | false =>
      have hfin : fin = false := by
        rw [Bool.eq_false_iff]
        intro hfin
        rw [iroom hfin] at hread; cases hread
      exact .inr ⟨hfin, idel, rfl⟩
  · simp only [tcpCallback, inew]
    exact .inl ⟨idel, iack⟩
  · simp only [tcpCallback, inew]
    exact .inr ⟨hfin, idel, iack⟩

end Handlers

/-! ## One segment -/

/-- The FIN of a segment is processed. -/
def finTaken (c : Conn) (seg : Segment) : Bool := seg.ctl.fin && !c.stopped

/-- The number of bytes that `tcp_input` offers to the callbacks. -/
def offered (cfg : Config) (c : Conn) (seg : Segment) : Nat :=
  if finTaken c seg then segLen seg else segLen seg - urgLen cfg seg

/-- The data of a segment can be accounted for: its header has no options and fits the packet, the
urgent pointer stays inside the data, nothing urgent comes where it is counted
(`CONFIG_NET_TCPURGDATA`), and the callbacks do not lose a part of what they are offered. -/
structure Savable (cfg : Config) (app : App) (c : Conn) (seg : Segment) : Prop where
  header : 0 < segLen seg → seg.tcpoffset = 5 ∧ seg.iplen + 20 ≤ seg.dLen ∧ seg.dLen < 65536
  urgent : urgLen cfg seg ≤ segLen seg
  uncounted : cfg.urgdata = true → seg.ctl.urg = false
  saved : 0 < offered cfg c seg →
    savesAll app (finTaken c seg) (offered cfg c seg) app.handlers = true

/-- What keeps `rcvseq` honest: the keep-alive block does not count a byte, and the data of the
segment can be accounted for. -/
structure Accountable (cfg : Config) (app : App) (c : Conn) (seg : Segment) : Prop
    extends Savable cfg app c seg where
  probe : keepaliveProbe cfg c seg = true → segLen seg = 0

/-- The books of one segment balance: `rcvseq` advances by the bytes that were handed on and by one
for a FIN, only for a segment that starts at `rcvseq`, and the bytes are the end of its payload. -/
structure Accounts (c : Conn) (seg : Segment) (o : Outcome) : Prop where
  count : tcpGetsequence o.conn.rcvseq =
    u32 (tcpGetsequence c.rcvseq + o.delivered.length + o.finAccepted.toNat)
  inSequence : o.delivered ≠ [] ∨ o.finAccepted = true → seg.seqno = c.rcvseq
  bytes : o.delivered <:+ payload seg

theorem Accounts.idle {c : Conn} {seg : Segment} {o : Outcome} (hseq : o.conn.rcvseq = c.rcvseq)
    (hdel : o.delivered = []) (hfin : o.finAccepted = false) : Accounts c seg o := by
  refine ⟨?_, fun h => ?_, ?_⟩
  · rw [hseq, hdel, hfin]
    simp only [length_nil, Bool.toNat_false, add_zero]
    exact (u32_eq_self (tcpGetsequence_lt c.rcvseq)).symm
  · rw [hdel, hfin] at h
    simp at h
  · rw [hdel]
    exact nil_suffix

theorem drop_slice (buf : Nat → UInt8) (i n k : Nat) :
    (slice buf i n).drop k = slice buf (i + k) (n - k) := by
  apply ext_getElem
  · simp
  · intro j h1 h2
    simp [slice, Nat.add_assoc]

theorem slice_suffix (buf : Nat → UInt8) (k n : Nat) : slice buf k (n - k) <:+ slice buf 0 n := by
  have hdrop := drop_slice buf 0 n k
  rw [Nat.zero_add] at hdrop
  exact hdrop ▸ drop_suffix k _

/-- A segment with data and a plain header: its payload is what `d_len` and `d_appdata` describe. -/
theorem payload_eq {seg : Segment} (hoff : seg.tcpoffset = 5) (hfit : seg.iplen + 20 ≤ seg.dLen)
    (hrange : seg.dLen < 65536) : payload seg = slice seg.body 0 (segLen seg) := by
  have hlen : segLen seg = seg.dLen - (seg.tcpoffset * 4 + seg.iplen) :=
    sub16_eq_self hrange (by omega)
  have hsame : seg.dLen - seg.iplen - seg.tcpoffset * 4 = segLen seg := by omega
  rw [payload, hsame, hoff]

theorem tcpAppsend_delivered (s : Cb) :
    (tcpAppsend s).delivered = s.delivered ∧ (tcpAppsend s).finAccepted = false := by
  simp only [tcpAppsend, tcpRexmit]
  split_ifs <;> exact ⟨rfl, rfl⟩

section Established

variable {cfg : Config} {app : App} {c : Conn} {seg : Segment}

theorem seqno_eq_of_inSequence (hstate : c.state = .established)
    (hseq : outOfSequence c seg = false) (h : 0 < segLen seg ∨ seg.ctl.fin = true) :
    seg.seqno = c.rcvseq := by
  by_contra hne
  have : outOfSequence c seg = true := by
    rcases h with h | h <;> simp [outOfSequence, hstate, hne, h]
  rw [this] at hseq; cases hseq

theorem inputFin_accounts (ackdata : Bool) (hstate : c.state = .established)
    (hseq : outOfSequence c seg = false) (hfin : finTaken c seg = true)
    (hok : Savable cfg app c seg) : Accounts c seg (inputFin app c seg ackdata) := by
  have hctl : seg.ctl.fin = true := by
    simp only [finTaken, Bool.and_eq_true] at hfin
    exact hfin.1
  have hoff : offered cfg c seg = segLen seg := by simp [offered, hfin]
  have hlen : segLen seg < 65536 := u16_lt _
  set s := startCb { c with rcvseq := netIncr32 c.rcvseq (segLen seg + 1) }
    { ackdata := ackdata, close := true, newdata := decide (segLen seg > 0) } (segLen seg) 0 with hs
  have hrcv : (inputFin app c seg ackdata).conn.rcvseq = netIncr32 c.rcvseq (segLen seg + 1) :=
    (tcpCallback_keeps app seg s).rcvseq
  -- the data of the segment, if it has any, is delivered completely
  have hdel : (inputFin app c seg ackdata).delivered.length = segLen seg ∧
      (inputFin app c seg ackdata).delivered <:+ payload seg ∧ segLen seg + 1 < 65536 := by
    by_cases hpos : 0 < segLen seg
    · obtain ⟨hoff5, hfit, hrange⟩ := hok.header hpos
      have hsave := hok.saved (by omega)
      rw [hfin, hoff] at hsave
      have hdata := tcpCallback_data app seg true s (by simpa [hs, startCb] using hpos) rfl rfl hpos
        hsave
      rcases hdata with ⟨hd, -⟩ | ⟨hfalse, -⟩
      · have hd' : (inputFin app c seg ackdata).delivered = slice seg.body 0 (segLen seg) := hd
        rw [hd', payload_eq hoff5 hfit hrange]
        refine ⟨length_slice _ _ _, suffix_refl _, ?_⟩
        have : segLen seg = seg.dLen - (seg.tcpoffset * 4 + seg.iplen) :=
          sub16_eq_self hrange (by omega)
        omega
      · cases hfalse
    · have hzero : segLen seg = 0 := by omega
      have hnew : s.flags.newdata = false := by simp [hs, startCb, hzero]
      have hd : (inputFin app c seg ackdata).delivered = [] := (tcpCallback_noData app seg s hnew).1
      rw [hd, hzero]
      exact ⟨rfl, nil_suffix, by decide⟩
  obtain ⟨hnum, hbytes, hsmall⟩ := hdel
  refine ⟨?_, fun _ => seqno_eq_of_inSequence hstate hseq (.inr hctl), hbytes⟩
  have haccepted : (inputFin app c seg ackdata).finAccepted.toNat = 1 := rfl
  rw [hrcv, hnum, haccepted, tcpGetsequence_netIncr32, u16_eq_self hsmall, add_assoc]

theorem countData_noAck {s : Cb} {n : Nat} (h : s.flags.sndack = false) :
    (tcpAppsend (countData s n)).conn.rcvseq = s.conn.rcvseq := by
  rw [tcpAppsend_rcvseq]
  simp [countData, h]

theorem countData_ack {s : Cb} {n : Nat} (h : s.flags.sndack = true) :
    (tcpAppsend (countData s n)).conn.rcvseq = netIncr32 s.conn.rcvseq n := by
  rw [tcpAppsend_rcvseq]
  simp [countData, h]

theorem countData_delivered (s : Cb) (n : Nat) :
    (tcpAppsend (countData s n)).delivered = s.delivered ∧
      (tcpAppsend (countData s n)).finAccepted = false :=
  tcpAppsend_delivered (countData s n)

theorem inputData_accounts (ackdata : Bool) (hstate : c.state = .established)
    (hseq : outOfSequence c seg = false) (hfin : finTaken c seg = false)
    (hok : Savable cfg app c seg) : Accounts c seg (inputData cfg app c seg ackdata) := by
  have hlen : segLen seg < 65536 := u16_lt _
  have hoff : offered cfg c seg = segLen seg - urgLen cfg seg := by simp [offered, hfin]
  have hdLen : sub16 (segLen seg) (urgLen cfg seg) = offered cfg c seg :=
    (sub16_eq_self hlen hok.urgent).trans hoff.symm
  have hcount : (cfg.urgdata && seg.ctl.urg) = false :=
    Bool.and_eq_false_imp.2 hok.uncounted
  simp only [inputData, hdLen, hcount, Bool.false_eq_true, if_false]
  -- the keep-alive fields do not matter
  set c' := if cfg.keepalive && c.keepalive && (decide (offered cfg c seg > 0) || seg.ctl.ack) then
    { c with keeptime := app.now, keepretries := 0 } else c with hc'
  have hrcv : c'.rcvseq = c.rcvseq := by
    rw [hc']; split <;> rfl
  set s :=
    startCb c' { ackdata := ackdata, newdata := decide (offered cfg c seg > 0) && !c'.stopped }
    (offered cfg c seg) (urgLen cfg seg) with hs
  have hkeeps : (tcpCallback app seg s).conn.rcvseq = c.rcvseq :=
    (tcpCallback_keeps app seg s).rcvseq.trans hrcv
  cases hnew : decide (offered cfg c seg > 0) && !c'.stopped with
  | false =>
    split
    · obtain ⟨hdel, hack⟩ := tcpCallback_noData app seg s hnew
      have hno : (tcpCallback app seg s).flags.sndack = false :=
        Bool.eq_false_iff.mpr fun h => by cases hack h
      have hout := countData_delivered (tcpCallback app seg s) (offered cfg c seg)
      exact Accounts.idle ((countData_noAck hno).trans hkeeps) (hout.1.trans hdel) hout.2
    · exact Accounts.idle hrcv rfl rfl
  | true =>
    have hpos : 0 < offered cfg c seg := by
      simp only [Bool.and_eq_true, decide_eq_true_eq] at hnew
      exact hnew.1
    have hsegpos : 0 < segLen seg := by omega
    obtain ⟨hoff5, hfit, hrange⟩ := hok.header hsegpos
    have hsave := hfin ▸ hok.saved hpos
    have hout := countData_delivered (tcpCallback app seg s) (offered cfg c seg)
    rw [if_pos (by simp)]
    rcases tcpCallback_data app seg false s hnew rfl rfl hpos hsave with
      ⟨hdel, hack⟩ | ⟨-, hdel, hno⟩
    · -- delivered and acknowledged
      have hbytes : (tcpAppsend (countData (tcpCallback app seg s) (offered cfg c seg))).delivered =
          slice seg.body (urgLen cfg seg) (offered cfg c seg) := hout.1.trans hdel
      refine ⟨?_, fun _ => seqno_eq_of_inSequence hstate hseq (.inl hsegpos), ?_⟩
      · have hnum := (countData_ack (n := offered cfg c seg) (hack rfl)).trans
          (congrArg (fun x => netIncr32 x (offered cfg c seg)) hkeeps)
        have hcount := congrArg tcpGetsequence hnum
        rw [tcpGetsequence_netIncr32, u16_eq_self (by omega)] at hcount
        refine hcount.trans ?_
        have hl : (tcpAppsend (countData (tcpCallback app seg s)
            (offered cfg c seg))).delivered.length = offered cfg c seg := by
          rw [hbytes, length_slice]
        have hf : (tcpAppsend (countData (tcpCallback app seg s)
            (offered cfg c seg))).finAccepted.toNat = 0 := by rw [hout.2]; rfl
        exact congrArg u32 (by omega)
      · rw [payload_eq hoff5 hfit hrange]
        refine (hbytes.trans ?_) ▸ slice_suffix seg.body (urgLen cfg seg) (segLen seg)
        rw [hoff]
    · exact Accounts.idle ((countData_noAck hno).trans hkeeps) (hout.1.trans hdel) hout.2

/-- The books balance for every segment that an established connection receives. -/
theorem tcpInput_established (hstate : c.state = .established) (hok : Accountable cfg app c seg) :
    Accounts c seg (tcpInput cfg app c seg) := by
  have hwin : (c.setWindow seg.wnd).state = .established := hstate
  simp only [tcpInput]
  split
  · exact Accounts.idle rfl rfl rfl
  simp only [inputFound]
  split
  · simp only [inputRst, hwin]
    set s := startCb ((c.setWindow seg.wnd).setState .closed) { abort := true } seg.dLen 0
    exact Accounts.idle (tcpCallback_keeps app seg s).rcvseq
      (tcpCallback_noData app seg s rfl).1 rfl
  split
  case isTrue hprobe =>
    have hzero : segLen seg = 0 := hok.probe hprobe
    simp only [hzero]
    exact Accounts.idle rfl rfl rfl
  split
  · exact Accounts.idle rfl rfl rfl
  case isFalse hseq =>
    split
    · exact Accounts.idle rfl rfl rfl
    case h_2 c' ackdata hsome =>
      -- the acknowledgement block leaves what the books depend on
      have hsame := (processAck_some hsome).1
      have hstate' : c'.state = .established := hsame.state.trans hstate
      have hstop : c'.stopped = c.stopped := hsame.stopped
      have hrcv : c'.rcvseq = c.rcvseq := hsame.rcvseq
      have hseq' : outOfSequence c' seg = false := by
        rw [← Bool.eq_false_iff.mpr hseq]
        simp only [outOfSequence, hsame.state, hsame.rcvseq]
      have hfin : finTaken c' seg = finTaken c seg := by simp only [finTaken, hstop]
      have hok' : Savable cfg app c' seg :=
        ⟨hok.header, hok.urgent, hok.uncounted, by simpa only [offered, hfin] using hok.saved⟩
      have haccounts : Accounts c' seg (inputEstablished cfg app c' seg ackdata) := by
        cases hf : finTaken c' seg with
        | true =>
          have hif : (seg.ctl.fin && !c'.stopped) = true := hf
          rw [inputEstablished, if_pos hif]
          exact inputFin_accounts ackdata hstate' hseq' hf hok'
        | false =>
          have hif : (seg.ctl.fin && !c'.stopped) = false := hf
          rw [inputEstablished, if_neg (by rw [hif]; decide)]
          exact inputData_accounts ackdata hstate' hseq' hf hok'
      simp only [stateMachine, hstate']
      exact ⟨hrcv ▸ haccounts.count, hrcv ▸ haccounts.inSequence, haccounts.bytes⟩

end Established

/-! ## Runs -/

/-- A connection together with the history of its receive side: the sequence number it started
with, the bytes that were handed on so far and the number of FINs that were accepted. -/
structure Receiver where
  conn : Conn
  irs : Seqno
  stream : List UInt8
  fins : Nat

/-- What happens to a connection: a segment arrives, the application sends, the device polls or a
timeout fires (the send handler runs with the flags of the event), or reading is stopped and
resumed. -/
inductive RecvEvent
  | input (app : App) (seg : Segment)
  | send (nonblock : Bool) (room ident : Nat) (buf : List UInt8)
  | event (busy addrchck : Bool) (ackno : Nat) (flags : Events)
  | stop (stopped : Bool)

variable (cfg : Config) (r : Receiver)

/-- One event; `none` when a send fails. -/
def Receiver.apply : RecvEvent → Option Receiver
  | .input app seg =>
    let o := tcpInput cfg app r.conn seg
    some { r with
      conn := o.conn, stream := r.stream ++ o.delivered, fins := r.fins + o.finAccepted.toNat }
  | .send nonblock room ident buf =>
    (psockTcpSend nonblock room ident buf r.conn).map fun out => { r with conn := out.1 }
  | .event busy addrchck ackno flags =>
    some { r with conn := (psockSendEventhandler busy addrchck ackno flags r.conn).conn }
  | .stop stopped => some { r with conn := { r.conn with stopped := stopped } }

/-- The segments arrive while the connection is established and can be accounted for. -/
def Receiver.Allowed : RecvEvent → Prop
  | .input app seg => r.conn.state = .established ∧ Accountable cfg app r.conn seg
  | _ => True

/-- A connection that has just been established. -/
def Receiver.Start (r : Receiver) : Prop :=
  r.conn.state = .established ∧ r.irs = r.conn.rcvseq ∧ r.stream = [] ∧ r.fins = 0

/-- `rcvseq` counts the stream. -/
def Receiver.Counts (r : Receiver) : Prop :=
  tcpGetsequence r.conn.rcvseq = u32 (tcpGetsequence r.irs + r.stream.length + r.fins)

theorem psockTcpSend_rcvseq {nonblock : Bool} {room ident : Nat} {buf : List UInt8} {c : Conn}
    {out : Conn × Nat} (h : psockTcpSend nonblock room ident buf c = some out) :
    out.1.rcvseq = c.rcvseq := by
  simp only [psockTcpSend] at h
  split at h
  · cases h; rfl
  · split at h
    · split at h
      · cases h; rfl
      · split at h
        · cases h; rfl
        · cases h
    · cases h; rfl

theorem u32_u32_add (x y : Nat) : u32 (u32 x + y) = u32 (x + y) := Nat.mod_add_mod x _ y

theorem Receiver.apply_counts {cfg : Config} {r r' : Receiver} {e : RecvEvent} (hr : r.Counts)
    (hok : r.Allowed cfg e) (h : r.apply cfg e = some r') : r'.Counts := by
  cases e with
  | input app seg =>
    simp only [Receiver.apply, Option.some.injEq] at h
    subst h
    have hcount := (tcpInput_established hok.1 hok.2).count
    simp only [Receiver.Counts] at hr ⊢
    rw [hcount, hr, add_assoc, u32_u32_add, length_append]
    exact congrArg u32 (by omega)
  | send nonblock room ident buf =>
    simp only [Receiver.apply, Option.map_eq_some_iff] at h
    obtain ⟨out, hsend, rfl⟩ := h
    simp only [Receiver.Counts, psockTcpSend_rcvseq hsend]
    exact hr
  | event busy addrchck ackno flags =>
    simp only [Receiver.apply, Option.some.injEq] at h
    subst h
    have hsame := psockSendEventhandler_same busy addrchck ackno flags r.conn
    simp only [Receiver.Counts, hsame.rcvseq]
    exact hr
  | stop stopped =>
    simp only [Receiver.apply, Option.some.injEq] at h
    subst h
    exact hr

/-- The receivers on the runs whose segments can all be accounted for. -/
def Receiver.Reachable : Receiver → Prop :=
  Reach Receiver.Start fun r r' => ∃ e, r.Allowed cfg e ∧ r.apply cfg e = some r'

/-- **The receive sequence number counts exactly the delivered stream**: in every state of every run
whose segments can be accounted for, with and without keep-alive, `rcvseq` is its first value plus
the number of bytes handed on and of FINs accepted, modulo `2 ^ 32`; the next segment is handed on
from the end of its payload and only if it starts at `rcvseq`, and one that starts elsewhere leaves
`rcvseq` alone. -/
theorem rcvseq_counts_stream (hr : Receiver.Reachable cfg r) :
    tcpGetsequence r.conn.rcvseq = u32 (tcpGetsequence r.irs + r.stream.length + r.fins) ∧
    ∀ (app : App) (seg : Segment), r.conn.state = .established → Accountable cfg app r.conn seg →
      Accounts r.conn seg (tcpInput cfg app r.conn seg) ∧
      (seg.seqno ≠ r.conn.rcvseq → (tcpInput cfg app r.conn seg).conn.rcvseq = r.conn.rcvseq) := by
  refine ⟨?_, fun app seg hstate hok => ?_⟩
  · refine Reach.invariant (P := Receiver.Counts) ?_ ?_ hr
    · rintro s ⟨-, hirs, hstream, hfins⟩
      simp only [Receiver.Counts, hirs, hstream, hfins, length_nil, add_zero]
      exact (u32_eq_self (tcpGetsequence_lt s.conn.rcvseq)).symm
    · rintro s t hs ⟨e, hok, hst⟩
      exact Receiver.apply_counts hs hok hst
  · have haccounts := tcpInput_established hstate hok
    refine ⟨haccounts, fun hne => tcpGetsequence_injective ?_⟩
    have hnone : ¬ ((tcpInput cfg app r.conn seg).delivered ≠ [] ∨
        (tcpInput cfg app r.conn seg).finAccepted = true) :=
      fun h => hne (haccounts.inSequence h)
    simp only [not_or, not_not, Bool.not_eq_true] at hnone
    rw [haccounts.count, hnone.1, hnone.2]
    simp only [length_nil, Bool.toNat_false, add_zero]
    exact u32_eq_self (tcpGetsequence_lt _)

/-- An established connection that expects sequence number 100. -/
def sampleConn : Conn :=
  { state := .established, stopped := false, rcvseq := tcpSetsequence 100
    sndseq := tcpSetsequence 7000, sa := 0, sv := 4, rto := 3, timer := 3, nrtx := 0, mss := 536
    winsize := 1000, unacked := 0, writeQ := [], unackedQ := [], expired := 0, sent := 0
    isn := 7000, sndseqMax := 0, keepalive := false, keeptime := 0, keepretries := 0 }

/-- A segment with `n` bytes of payload. -/
def sampleData (seqno n : Nat) : Segment :=
  { seqno := tcpSetsequence seqno, ackno := tcpSetsequence 7000, ctl := { ack := true, psh := true }
    wnd := 1000, urgp := 0, tcpoffset := 5, dLen := 40 + n, iplen := 20, body := fun i => .ofNat i }

/-- A receiver with room for two bytes, and room in the read-ahead queue. -/
def sampleApp : App :=
  { accepts := true, handlers := [.send, .recv 2], readahead := fun _ => true, addrchck := true
    now := 0, tcpMss := 536 }

/-- The receiver after a first segment with `n` bytes. -/
def sampleReceiver (n : Nat) : Receiver :=
  (Receiver.apply ⟨true, false⟩ ⟨sampleConn, tcpSetsequence 100, [], 0⟩
    (.input sampleApp (sampleData 100 n))).getD ⟨sampleConn, tcpSetsequence 100, [], 0⟩

theorem sampleReceiver_reachable (n : Nat)
    (hok : Accountable ⟨true, false⟩ sampleApp sampleConn (sampleData 100 n)) :
    Receiver.Reachable ⟨true, false⟩ (sampleReceiver n) :=
  .next (.start ⟨rfl, rfl, rfl, rfl⟩) ⟨.input sampleApp (sampleData 100 n), ⟨rfl, hok⟩, rfl⟩

/-- Three bytes arrive, and arrive again. -/
theorem rcvseq_counts_sample :
    Receiver.Reachable ⟨true, false⟩ (sampleReceiver 3) ∧ (sampleReceiver 3).stream = [0, 1, 2] ∧
      Accountable ⟨true, false⟩ sampleApp (sampleReceiver 3).conn (sampleData 100 3) ∧
      tcpGetsequence (sampleReceiver 3).conn.rcvseq = u32 (100 + 3 + 0) ∧
      (tcpInput ⟨true, false⟩ sampleApp (sampleReceiver 3).conn (sampleData 100 3)).conn.rcvseq =
        (sampleReceiver 3).conn.rcvseq := by
  have hfirst : Accountable ⟨true, false⟩ sampleApp sampleConn (sampleData 100 3) :=
    ⟨⟨by decide, by decide, by decide, by decide⟩, by decide⟩
  have hagain : Accountable ⟨true, false⟩ sampleApp (sampleReceiver 3).conn (sampleData 100 3) :=
    ⟨⟨by decide, by decide, by decide, by decide⟩, by decide⟩
  have hreach := sampleReceiver_reachable 3 hfirst
  have h := rcvseq_counts_stream ⟨true, false⟩ (sampleReceiver 3) hreach
  refine ⟨hreach, by decide, hagain, h.1.trans (by decide), ?_⟩
  exact (h.2 sampleApp (sampleData 100 3) (by decide) hagain).2 (by decide)

/-- A byte that was received is sent again and counted again: the keep-alive block advances `rcvseq`
without delivering anything. -/
theorem keepalive_counts_old_byte :
    Receiver.Reachable ⟨true, false⟩ (sampleReceiver 1) ∧
      tcpGetsequence (sampleReceiver 1).conn.rcvseq = 101 ∧
      tcpGetsequence (sampleData 100 1).seqno = 100 ∧
      tcpGetsequence
        (tcpInput ⟨true, false⟩ sampleApp (sampleReceiver 1).conn (sampleData 100 1)).conn.rcvseq =
        102 ∧
      (tcpInput ⟨true, false⟩ sampleApp (sampleReceiver 1).conn (sampleData 100 1)).delivered =
      [] :=
  ⟨sampleReceiver_reachable 1 ⟨⟨by decide, by decide, by decide, by decide⟩, by decide⟩, by decide,
    by decide, by decide, by decide⟩

end BaseNx.Tcp
