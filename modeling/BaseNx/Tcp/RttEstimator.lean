import BaseNx.Tcp.Input

/-!
# The retransmission timeout

`tcp_input` estimates the round-trip time of an acknowledgment from the retransmission timer, which
`tcp_timer` counts down from `rto` in half-seconds. The average `sa` is kept eight times as large,
the deviation `sv` four times, all of it in eight bits and the sample `m` in a `signed char`.

`Rtt` is the same estimator over the integers. The two agree as long as every acknowledgment comes
within 31 half-seconds (`rtt_estimate_exact`). The bound is the largest one: `sa` comes up to eight
times the sample, and wraps when all acknowledgments take 32 half-seconds. The slowest ones that do
not lead to a retransmission let `rto` grow until `m` wraps, too (`rtt_estimate_wraps`).
-/

namespace BaseNx.Tcp

open Lib

/-! ## The estimator over the integers -/

/-- `sa`, `sv` and `rto`. -/
@[ext]
structure Rtt where
  sa : Int
  sv : Int
  rto : Int
  deriving DecidableEq

/-- The values of `m` for a sample. -/
def Rtt.ms (r : Rtt) (sample : Int) : List Int :=
  let diff := sample - r.sa / 8
  let dev := if diff < 0 then -diff else diff
  [sample, diff, dev, dev - r.sv / 4]

def Rtt.next (r : Rtt) (sample : Int) : Rtt :=
  let diff := sample - r.sa / 8
  let dev := if diff < 0 then -diff else diff
  let sa := r.sa + diff
  let sv := r.sv + (dev - r.sv / 4)
  ⟨sa, sv, sa / 8 + sv⟩

/-- The estimator after samples, the last one first. -/
def Rtt.after (r : Rtt) (samples : List Nat) : Rtt := samples.foldr (fun k r => r.next k) r

/-! ## The connection -/

def Conn.rtt (c : Conn) : Rtt := ⟨c.sa, c.sv, c.rto⟩

/-- The values of `m` in `rttEstimate`. -/
def Conn.ms (c : Conn) : List Int :=
  let sample := i8 ((c.rto : Int) - c.timer)
  let diff := i8 (sample - (c.sa / 8 : Nat))
  let dev := if diff < 0 then i8 (-diff) else diff
  [sample, diff, dev, i8 (dev - (c.sv / 4 : Nat))]

/-- The connection `d` is `c` when `hsec` half-seconds of its timer have passed without a
retransmission; its data and its state may have changed. -/
structure Elapsed (hsec : Nat) (c d : Conn) : Prop where
  below : hsec < c.rto
  sa : d.sa = c.sa
  sv : d.sv = c.sv
  rto : d.rto = c.rto
  timer : d.timer = c.rto - hsec
  nrtx : d.nrtx = 0

/-- Acknowledgments of data that was sent once, with the times they took, the last one first. -/
inductive AckRun (c : Conn) : List Nat → Conn → Prop
  | start : AckRun c [] c
  | ack {hsecs : List Nat} {c' d e : Conn} {hsec : Nat} {seg : Segment} :
      AckRun c hsecs c' → Elapsed hsec c' d → processAck d seg = some (e, true) →
        AckRun c (hsec :: hsecs) e

/-- A connection as `tcp_alloc_accept` (with 4) and `tcp_connect` (with 16) leave it. -/
def Conn.Fresh (c : Conn) : Prop := c.sa = 0 ∧ (c.sv = 4 ∨ c.sv = 16) ∧ c.rto = 3

instance Conn.decidableFresh (c : Conn) : Decidable c.Fresh :=
  inferInstanceAs (Decidable (_ ∧ _))

/-- Nothing wraps with the next sample. -/
structure Conn.InRange (c : Conn) : Prop where
  sa : c.sa ≤ 255
  sv_pos : 0 < c.sv
  sv_le : c.sv ≤ 127
  rto : 0 < c.rto

variable {c d e : Conn} {hsec : Nat} {seg : Segment}

/-- The acknowledgment block changes the estimator as `rttEstimate` does. -/
theorem rtt_of_processAck (h : processAck d seg = some (e, true)) :
    e.sa = (rttEstimate d).sa ∧ e.sv = (rttEstimate d).sv ∧ e.rto = (rttEstimate d).rto := by
  simp only [processAck] at h
  split at h
  · split at h
    · cases h
    · simp only [Option.some.injEq, Prod.mk.injEq] at h
      obtain ⟨rfl, -⟩ := h
      simp only [rttEstimate]
      split <;> exact ⟨rfl, rfl, rfl⟩
  · cases h

/-- One sample of at most 31 half-seconds. -/
theorem Conn.InRange.step (h : c.InRange) (hd : Elapsed hsec c d) (hle : hsec ≤ 31) :
    d.ms = c.rtt.ms hsec ∧ (rttEstimate d).rtt = c.rtt.next hsec ∧ (rttEstimate d).InRange := by
  obtain ⟨hsa, hsv0, hsv, hrto⟩ := h
  obtain ⟨hbelow, hdsa, hdsv, hdrto, htimer, hnrtx⟩ := hd
  -- the sample, its distance from the average, the deviation and its change
  have hsample : i8 ((d.rto : Int) - d.timer) = hsec := by
    rw [i8_eq_self] <;> omega
  have hdiff : i8 ((hsec : Int) - (d.sa / 8 : Nat)) = hsec - (c.sa : Int) / 8 := by
    rw [i8_eq_self] <;> omega
  generalize hx : (hsec : Int) - (c.sa : Int) / 8 = x at *
  have hdev : (if x < 0 then i8 (-x) else x) = if x < 0 then -x else x := by
    split
    · rw [i8_eq_self] <;> omega
    · rfl
  generalize hy : (if x < 0 then -x else x) = y at *
  have hyle : 0 ≤ y ∧ y ≤ 31 := by
    subst hy
    split <;> omega
  have hchange : i8 (y - (d.sv / 4 : Nat)) = y - (c.sv : Int) / 4 := by
    rw [i8_eq_self] <;> omega
  have hsa' : (addChar d.sa x : Int) = c.sa + x := by
    simp only [addChar]
    omega
  have hsv' : (addChar d.sv (y - (c.sv : Int) / 4) : Int) = c.sv + (y - (c.sv : Int) / 4) := by
    simp only [addChar]
    omega
  have hnext : rttEstimate d = { d with
      sa := addChar d.sa x
      sv := addChar d.sv (y - (c.sv : Int) / 4)
      rto := u8 (addChar d.sa x / 8 + addChar d.sv (y - (c.sv : Int) / 4)) } := by
    simp only [rttEstimate, hnrtx, hsample, hdiff, hdev, hchange, if_true]
  generalize addChar d.sa x = sa at *
  generalize addChar d.sv (y - (c.sv : Int) / 4) = sv at *
  have hrto' : u8 (sa / 8 + sv) = sa / 8 + sv := u8_eq_self (by omega)
  rw [hnext, hrto']
  refine ⟨?_, ?_, ?_⟩
  · simp only [Conn.ms, Rtt.ms, Conn.rtt, hsample, hdiff, hdev, hchange, hx, hy]
  · simp only [Conn.rtt, Rtt.next, hx, hy, ← hsa', ← hsv']
    rfl
  · constructor <;> dsimp only <;> omega

/-- Every run from a new connection in which each acknowledgment comes within 31 half-seconds: the
fields are those of the estimator over the integers, `rto` is positive, and `m` has the same values
in the next sample. -/
theorem rtt_estimate_exact (c₀ c : Conn) (hsecs : List Nat) (h₀ : c₀.Fresh) (h : AckRun c₀ hsecs c)
    (hle : ∀ hsec ∈ hsecs, hsec ≤ 31) :
    c.rtt = c₀.rtt.after hsecs ∧ 0 < c.rto ∧
      ∀ hsec d, hsec ≤ 31 → Elapsed hsec c d → d.ms = (c₀.rtt.after hsecs).ms hsec := by
  have hrun : c.rtt = c₀.rtt.after hsecs ∧ c.InRange := by
    induction h with
    | start =>
      obtain ⟨hsa, hsv, hrto⟩ := h₀
      exact ⟨rfl, by constructor <;> omega⟩
    | ack hprev helapsed hack ih =>
      obtain ⟨heq, hrange⟩ := ih fun k hk => hle k (List.mem_cons_of_mem _ hk)
      obtain ⟨-, hnext, hrange'⟩ := hrange.step helapsed (hle _ List.mem_cons_self)
      obtain ⟨hsa, hsv, hrto⟩ := rtt_of_processAck hack
      refine ⟨?_, ?_⟩
      · rw [Conn.rtt, hsa, hsv, hrto]
        exact hnext.trans (congrArg (Rtt.next · _) heq)
      · exact ⟨hsa ▸ hrange'.sa, hsv ▸ hrange'.sv_pos, hsv ▸ hrange'.sv_le, hrto ▸ hrange'.rto⟩
  refine ⟨hrun.1, hrun.2.rto, fun hsec d hsec_le hd => ?_⟩
  rw [← hrun.1]
  exact (hrun.2.step hd hsec_le).1

/-- A new connection that has sent two bytes, and the acknowledgment of the first one. -/
def twoBytesSent : Conn :=
  ⟨.established, false, ⟨0, 0, 0, 0⟩, ⟨0, 0, 0, 0⟩, 0, 4, 3, 3, 0, 0, 0, 2, [], [], 0, 0, 0, 2,
    false, 0, 0⟩

@[inherit_doc twoBytesSent]
def ackOfFirst : Segment :=
  ⟨⟨0, 0, 0, 0⟩, ⟨0, 0, 0, 1⟩, { ack := true }, 0, 0, 5, 40, 20, fun _ => 0⟩

/-- Such acknowledgments, with the times they take, the last one first. -/
def ackedAfter : List Nat → Option Conn
  | [] => some twoBytesSent
  | hsec :: hsecs => do
    let c ← ackedAfter hsecs
    let (e, ackdata) ← processAck { c with timer := c.rto - hsec } ackOfFirst
    if hsec < c.rto ∧ c.nrtx = 0 ∧ ackdata then some e else none

theorem AckRun.of_ackedAfter {hsecs : List Nat} (h : ackedAfter hsecs = some c) :
    AckRun twoBytesSent hsecs c := by
  induction hsecs generalizing c with
  | nil =>
    cases h
    exact .start
  | cons hsec hsecs ih =>
    simp only [ackedAfter, Option.bind_eq_bind, Option.bind_eq_some_iff] at h
    obtain ⟨d, hd, ⟨e, ackdata⟩, he, hc⟩ := h
    split at hc
    · rename_i hok
      obtain ⟨hlt, hnrtx, rfl⟩ := hok
      cases hc
      have helapsed : Elapsed hsec d { d with timer := d.rto - hsec } :=
        ⟨hlt, rfl, rfl, rfl, rfl, hnrtx⟩
      exact .ack (ih hd) helapsed he
    · cases hc

theorem rtt_estimate_exact_sample : ∃ c, AckRun twoBytesSent [4, 2] c ∧ c.rto = 8 ∧
    c.rtt = twoBytesSent.rtt.after [4, 2] := by
  have hrun : AckRun twoBytesSent [4, 2] ((ackedAfter [4, 2]).get (by decide)) :=
    .of_ackedAfter (Option.some_get _).symm
  exact ⟨_, hrun, by decide, (rtt_estimate_exact _ _ _ (by decide) hrun (by decide)).1⟩

/-- Each acknowledgment comes just in time, the last one after 66 seconds: the sample is negative as
a `signed char`, `sa` wraps, and `rto` is 201 instead of 233. With no acknowledgment later than
after 32 half-seconds `sa` wraps, too, and `rto` is 7 instead of 39. -/
theorem rtt_estimate_wraps :
    (∃ c, AckRun twoBytesSent [132, 75, 42, 24, 13, 7, 4, 2] c ∧
      c.rto = 201 ∧ (twoBytesSent.rtt.after [132, 75, 42, 24, 13, 7, 4, 2]).rto = 233) ∧
    ∃ c, AckRun twoBytesSent (List.replicate 30 32 ++ [24, 13, 7, 4, 2]) c ∧
      c.rto = 7 ∧ (twoBytesSent.rtt.after (List.replicate 30 32 ++ [24, 13, 7, 4, 2])).rto = 39 :=
  ⟨⟨_, .of_ackedAfter (Option.some_get (by decide)).symm, by decide, by decide⟩,
    _, .of_ackedAfter (Option.some_get (by decide +kernel)).symm, by decide +kernel,
    by decide +kernel⟩

end BaseNx.Tcp
