import BaseNx.Timer.Settime

/-!
# When a timer notifies

What a timer does is read off its log: `next` is the tick of the notification that the log still
asks for. `Tracks` ties it to the pending start of the timer's watchdog, and `Scheduled` says that
every notification of the log came on the tick that was asked for and that none was left out. Each
call and each round of the expiry loop keeps `Tracks`; the loop itself is a loop of `Wdog`
(`expirationLoop_tracks`), so the results for watchdogs carry over.

A period takes one tick more than its `pt_delay`, because `timer_restart` goes through `wd_start`.
`timer_notifies_on_schedule` is the result for all runs.
-/

namespace BaseNx.Timer

open Lib Clock Wdog List

/-! ## What a log asks for -/

/-- The latest setting of a log and its tick. -/
def lastSet : List Note → Option (Nat × Setting)
  | [] => none
  | .set n st :: _ => some (n, st)
  | .notify _ :: log => lastSet log

/-- The tick of the first notification after a setting. -/
def Setting.first (cfg : TickConfig) (n : Nat) (st : Setting) : Nat :=
  n + (st.firstDelay cfg n).toNat + 1

def next (cfg : TickConfig) : List Note → Option Nat
  | [] => none
  | .set n st :: _ => if st.Disarms ∨ st.firstDelay cfg n ≤ 0 then none else some (st.first cfg n)
  | .notify n :: log =>
    match lastSet log with
    | none => none
    | some (_, st) => if st.period cfg = 0 then none else some (n + (st.period cfg).toNat + 1)

/-- What `pt_last` holds: the ticks of the last start. -/
def lastDelay (cfg : TickConfig) : List Note → Int
  | [] => 0
  | .set n st :: log =>
    if st.Disarms ∨ st.firstDelay cfg n ≤ 0 then lastDelay cfg log else st.firstDelay cfg n
  | .notify _ :: log =>
    match lastSet log with
    | none => lastDelay cfg log
    | some (_, st) => if st.period cfg = 0 then lastDelay cfg log else st.period cfg

/-- Every notification came on its tick, and no setting came after a tick that was left out. -/
def Scheduled (cfg : TickConfig) : List Note → Prop
  | [] => True
  | .set n _ :: log => (∀ m, next cfg log = some m → n < m) ∧ Scheduled cfg log
  | .notify n :: log => next cfg log = some n ∧ Scheduled cfg log

def Note.tick : Note → Nat
  | .set n _ => n
  | .notify n => n

/-! ## Settings in range -/

/-- Valid times whose tick counts fit, set at the tick `n`. -/
structure Setting.Valid (cfg : TickConfig) (n : Nat) (st : Setting) : Prop where
  value : st.itValue.WellFormed
  interval : st.itInterval.WellFormed
  intervalFits : cfg.Fits st.itInterval.value
  absolute : st.absolute = true → st.itValue.sec < 4294967296 ∧ cfg.Counts n ∧
    cfg.Fits (st.itValue.value - cfg.realtime n)
  relative : st.absolute = false → cfg.Fits st.itValue.value

/-- The requested time lies in the future: for a relative time, always. -/
def Setting.InFuture (cfg : TickConfig) (n : Nat) (st : Setting) : Prop :=
  st.absolute = true → cfg.realtime n < st.itValue.value

section Ranges

variable {cfg : TickConfig} {n : Nat} {st : Setting}

/-- The time from tick `n` to the requested time. -/
def Setting.ahead (cfg : TickConfig) (n : Nat) (st : Setting) : Int :=
  if st.absolute then st.itValue.value - cfg.realtime n else st.itValue.value

section

variable (h : st.Valid cfg n)
include h

theorem Setting.Valid.period_spec : RoundsUp cfg st.itInterval.value (st.period cfg) := by
  obtain ⟨h0, -⟩ := h.interval
  unfold Setting.period
  split
  · have hr := clockTime2ticks_spec cfg h.interval h.intervalFits
    have hb := hr.bound
    have hnn := hr.nonneg
    unfold int32Max at hb
    rwa [i32_eq_self (by omega) (by omega)]
  · next hz =>
      have hval : st.itInterval.value = 0 := by
        simp only [Timespec.value, nsecPerSec]
        omega
      have hpos : (0 : Int) < cfg.nsecPerTick := by exact_mod_cast cfg.nsecPerTick_pos
      exact ⟨le_rfl, by omega, by omega, by decide⟩

theorem Setting.Valid.period_range : 0 ≤ st.period cfg ∧ st.period cfg < int32Max :=
  ⟨h.period_spec.nonneg, h.period_spec.bound⟩

theorem Setting.Valid.requestedDelay_spec (hf : st.InFuture cfg n) :
    RoundsUp cfg (st.ahead cfg n) (st.requestedDelay cfg n) := by
  unfold Setting.ahead Setting.requestedDelay
  split
  · next ha =>
      obtain ⟨hs, hc, hfit⟩ := h.absolute ha
      have hspec := clockAbstime2ticks_spec cfg hc h.value hs hfit
      rwa [if_neg (not_lt.2 (hf ha).le)] at hspec
  · next ha =>
      exact clockTime2ticks_spec cfg h.value (h.relative (Bool.eq_false_iff.2 ha))

theorem Setting.Valid.requestedDelay_lt : st.requestedDelay cfg n < int32Max := by
  by_cases hf : st.InFuture cfg n
  · exact (h.requestedDelay_spec hf).bound
  · simp only [Setting.InFuture, not_forall, not_lt] at hf
    obtain ⟨ha, hle⟩ := hf
    obtain ⟨hs, hc, hfit⟩ := h.absolute ha
    have hspec := clockAbstime2ticks_spec cfg hc h.value hs hfit
    simp only [Setting.requestedDelay, if_pos ha]
    split at hspec
    · rw [hspec]
      decide
    · exact hspec.bound

theorem Setting.Valid.firstDelay_lt : st.firstDelay cfg n < int32Max := by
  unfold Setting.firstDelay
  split
  · exact h.period_range.2
  · exact h.requestedDelay_lt

/-- A setting that arms the timer for a time in the future asks for at least one tick. -/
theorem Setting.Valid.firstDelay_eq (hd : ¬ st.Disarms) (hf : st.InFuture cfg n) :
    st.firstDelay cfg n = st.requestedDelay cfg n ∧ 0 < st.firstDelay cfg n := by
  have hpos : 0 < st.ahead cfg n := by
    unfold Setting.ahead
    split
    · next ha => exact sub_pos.2 (hf ha)
    · obtain ⟨h0, -⟩ := h.value
      simp only [Setting.Disarms, not_and_or, not_le] at hd
      simp only [Timespec.value, nsecPerSec]
      omega
  have hreq := (h.requestedDelay_spec hf).pos hpos
  have heq : st.firstDelay cfg n = st.requestedDelay cfg n := if_neg (by omega)
  exact ⟨heq, heq ▸ hreq⟩

end

/-- Read at the instant of the call, `first` is not before the requested time and less than two
ticks after it. For a relative time the call is at some instant `t` between the ticks `n` and
`n + 1`. -/
def Setting.Meets (cfg : TickConfig) (n : Nat) (st : Setting) (first : Nat) : Prop :=
  if st.absolute then
    st.itValue.value ≤ cfg.realtime first ∧
      cfg.realtime first < st.itValue.value + 2 * cfg.nsecPerTick
  else
    ∀ t : Int, n * cfg.nsecPerTick ≤ t → t < (n + 1) * cfg.nsecPerTick →
      t + st.itValue.value ≤ first * cfg.nsecPerTick ∧
        first * cfg.nsecPerTick < t + st.itValue.value + 2 * cfg.nsecPerTick

theorem Setting.Valid.meets (h : st.Valid cfg n) (hd : ¬ st.Disarms) (hf : st.InFuture cfg n) :
    st.Meets cfg n (st.first cfg n) := by
  obtain ⟨heq, hpos⟩ := h.firstDelay_eq hd hf
  have hr := h.requestedDelay_spec hf
  rw [← heq] at hr
  have hcast : ((st.first cfg n : Nat) : Int) = n + st.firstDelay cfg n + 1 := by
    unfold Setting.first
    omega
  have hlow := hr.lower
  have hup := hr.upper
  unfold Setting.Meets
  unfold Setting.ahead at hlow hup
  by_cases ha : st.absolute = true
  · rw [if_pos ha] at hlow hup ⊢
    have hreal : cfg.realtime (st.first cfg n) =
        cfg.realtime n + st.firstDelay cfg n * cfg.nsecPerTick + cfg.nsecPerTick := by
      unfold TickConfig.realtime
      rw [hcast]
      ring
    constructor <;> omega
  · rw [if_neg ha] at hlow hup ⊢
    intro t hlo hhi
    have hmul : ((st.first cfg n : Nat) : Int) * cfg.nsecPerTick =
        n * cfg.nsecPerTick + st.firstDelay cfg n * cfg.nsecPerTick + cfg.nsecPerTick := by
      rw [hcast]
      ring
    have hsucc : ((n : Int) + 1) * cfg.nsecPerTick = n * cfg.nsecPerTick + cfg.nsecPerTick := by
      ring
    constructor <;> omega

end Ranges

/-! ## The timer follows its log -/

/-- The timer and its watchdog are where the log says. -/
structure Tracks (cfg : TickConfig) (s : State) : Prop where
  crefs : s.timer.ptCrefs = 1
  pending : (pendingStart s.wd.history s.timer.ptWdog).map Started.due =
    (next cfg s.log).map Nat.cast
  delay : ∀ n st, lastSet s.log = some (n, st) → ¬ st.Disarms → s.timer.ptDelay = st.period cfg
  last : s.timer.ptLast = lastDelay cfg s.log
  valid : ∀ n st, lastSet s.log = some (n, st) → st.Valid cfg n
  scheduled : Scheduled cfg s.log
  past : ∀ e ∈ s.log, e.tick ≤ s.wd.ticks

variable {cfg : TickConfig}

theorem armed_of_next : ∀ {log : List Note}, Scheduled cfg log → ∀ {m : Nat},
    next cfg log = some m → ∃ n st, lastSet log = some (n, st) ∧ ¬ st.Disarms
  | [], _, m, h => by simp [next] at h
  | .set n st :: log, _, m, h => by
    refine ⟨n, st, rfl, ?_⟩
    intro hd
    simp [next, hd] at h
  | .notify n :: log, hs, _, _ => @armed_of_next log hs.2 n hs.1

variable {w : WdogId} {rest : List Entry} {wd : Wdog.State} {st : Setting} {lag : Int}
  {calls : Nat → List Request}

section Steps

variable {s : State} {A : List (WdogId × Started)}

/-- The pending start of the timer's watchdog is the next notification. -/
theorem Tracks.next_of_pending (h : Tracks cfg s) {st : Started}
    (hp : pendingStart s.wd.history s.timer.ptWdog = some st) {n : Nat} (hn : st.due = n) :
    next cfg s.log = some n := by
  have hpend := h.pending
  rw [hp, Option.map_some, hn] at hpend
  cases hnext : next cfg s.log with
  | none => simp [hnext] at hpend
  | some m =>
    rw [hnext, Option.map_some] at hpend
    have : (n : Int) = m := Option.some.inj hpend
    rw [Int.natCast_inj.1 this]

theorem Tracks.frame (h : Tracks cfg s)
    (hp : (pendingStart wd.history s.timer.ptWdog).map Started.due =
      (pendingStart s.wd.history s.timer.ptWdog).map Started.due) (ht : s.wd.ticks ≤ wd.ticks) :
    Tracks cfg { s with wd := wd } :=
  { h with
    pending := hp.trans h.pending
    past := fun e he => (h.past e he).trans ht }

/-! ### The expiry routine -/

/-- The requests that `timer_timeout` makes. -/
def restartCalls (t : PosixTimer) : List Request :=
  if t.ptDelay ≠ 0 then [.start (some t.ptWdog) t.ptDelay timeoutEntry [t.itimer]] else []

section

variable (hc : s.timer.ptCrefs = 1)
include hc

/-- With its one reference the timer outlives `timer_timeout`. A one-shot timer is left as it is. -/
theorem timerTimeout_of_oneShot (hd : s.timer.ptDelay = 0) :
    timerTimeout s = s.record (.notify s.wd.ticks) := by
  obtain ⟨⟨itimer, crefs, delay, last, w⟩, wd, log⟩ := s
  obtain rfl : crefs = 1 := hc
  obtain rfl : delay = 0 := hd
  rfl

theorem timerTimeout_of_periodic (hd : s.timer.ptDelay ≠ 0) :
    timerTimeout s =
      { timer := { s.timer with ptLast := s.timer.ptDelay }
        wd := (wdStart (some s.timer.ptWdog) s.timer.ptDelay timeoutEntry [s.timer.itimer] s.wd).2
        log := .notify s.wd.ticks :: s.log } := by
  obtain ⟨⟨itimer, crefs, delay, last, w⟩, wd, log⟩ := s
  obtain rfl : crefs = 1 := hc
  exact if_pos hd

theorem timerTimeout_wd : (timerTimeout s).wd = (restartCalls s.timer).foldl serve s.wd := by
  unfold restartCalls
  by_cases hd : s.timer.ptDelay = 0
  · rw [timerTimeout_of_oneShot hc hd, if_neg (not_not.2 hd)]
    rfl
  · rw [timerTimeout_of_periodic hc hd, if_pos hd]
    rfl

theorem timerTimeout_ptWdog : (timerTimeout s).timer.ptWdog = s.timer.ptWdog := by
  by_cases hd : s.timer.ptDelay = 0
  · rw [timerTimeout_of_oneShot hc hd]
    rfl
  · rw [timerTimeout_of_periodic hc hd]

end

/-- What a round of the expiry loop asks of the watchdogs. -/
def roundCalls (t : PosixTimer) (w : WdogId) (calls : List Request) : List Request :=
  if w = t.ptWdog then restartCalls t else calls

theorem head_due (hA : Rep s.wd A) (hl : s.wd.wdactivelist = (w, lag) :: rest) (hlag : lag ≤ 0) :
    ∃ st, pendingStart s.wd.history w = some st ∧ st.due = s.wd.ticks ∧
      (s.wd.wdog w).parm.length ≤ maxWdogparms := by
  obtain ⟨st, B, rfl, hdue, -⟩ := hA.head hl
  obtain ⟨⟨-, hparm, hlen⟩, hlow, -⟩ := hA.armed (w, st) mem_cons_self
  dsimp only at hlow
  refine ⟨st, (hA.mem w st).1 mem_cons_self, by omega, ?_⟩
  rw [hparm]
  exact hlen

section

variable (hlen : (wd.wdog w).parm.length ≤ maxWdogparms) (lag : Int) (rest : List Entry)
include hlen

/-- The state in which the function of the watchdog `w` is called. -/
theorem expireHead_calls (body : List Request) :
    Wdog.expireHead w lag rest body wd = body.foldl serve (Wdog.expireHead w lag rest [] wd) := by
  simp only [Wdog.expireHead]
  rw [if_pos hlen, if_pos hlen]
  rfl

theorem expireHead_history :
    (Wdog.expireHead w lag rest [] wd).history =
        .run w wd.ticks (wd.wdog w).func (wd.wdog w).parm :: wd.history ∧
      (Wdog.expireHead w lag rest [] wd).ticks = wd.ticks := by
  simp only [Wdog.expireHead]
  rw [if_pos hlen]
  exact ⟨rfl, rfl⟩

end

section

variable (h : Tracks cfg s)
include h

variable {calls : List Request}

section

variable (hA : Rep s.wd A) (hl : s.wd.wdactivelist = (w, lag) :: rest) (hlag : lag ≤ 0)
include hA hl hlag

theorem expireHead_wd (calls : List Request) :
    (expireHead w lag rest calls s).wd =
      Wdog.expireHead w lag rest (roundCalls s.timer w calls) s.wd := by
  obtain ⟨-, -, -, hlen⟩ := head_due hA hl hlag
  unfold expireHead roundCalls
  split
  · rw [expireHead_calls hlen _ _ (restartCalls s.timer)]
    exact timerTimeout_wd (s := { s with wd := _ }) h.crefs
  · rfl

theorem Tracks.roundCalls_inRange (hcalls : ∀ r ∈ calls, r.InRange) :
    ∀ r ∈ roundCalls s.timer w calls, r.InRange := by
  unfold roundCalls
  split
  · next hw =>
      subst hw
      obtain ⟨st, hst, hdue, -⟩ := head_due hA hl hlag
      obtain ⟨n, st, hset, harm⟩ := armed_of_next h.scheduled (h.next_of_pending hst hdue)
      intro r hr
      unfold restartCalls at hr
      split at hr
      · obtain rfl := mem_singleton.1 hr
        rw [h.delay n st hset harm]
        exact (h.valid n st hset).period_range.2
      · cases hr
  · exact hcalls

end

theorem expireHead_ptWdog (w : WdogId) (lag : Int) (rest : List Entry) (calls : List Request) :
    (expireHead w lag rest calls s).timer.ptWdog = s.timer.ptWdog := by
  unfold expireHead
  split
  · exact timerTimeout_ptWdog h.crefs
  · rfl

/-- The timer's own watchdog runs on the tick the log asks for, and `timer_timeout` starts it again
as the log goes on. -/
theorem Tracks.timeout (hdue : next cfg s.log = some s.wd.ticks)
    {B : List (WdogId × Started)} (hB : Rep wd B)
    (hp : pendingStart wd.history s.timer.ptWdog = none) (ht : wd.ticks = s.wd.ticks) :
    Tracks cfg (timerTimeout { s with wd := wd }) := by
  obtain ⟨n, st, hset, harm⟩ := armed_of_next h.scheduled hdue
  have hdelay := h.delay n st hset harm
  obtain ⟨hp0, hpm⟩ := (h.valid n st hset).period_range
  have hpast : ∀ e ∈ Note.notify wd.ticks :: s.log, e.tick ≤ wd.ticks := by
    intro e he
    rcases mem_cons.1 he with rfl | he
    · exact le_rfl
    · rw [ht]
      exact h.past e he
  by_cases hzero : st.period cfg = 0
  · -- one-shot: no further notification is asked for, and no start is made
    rw [timerTimeout_of_oneShot (s := { s with wd := wd }) h.crefs (hdelay.trans hzero)]
    refine ⟨h.crefs, ?_, h.delay, ?_, h.valid, ⟨by rw [hdue, ht], h.scheduled⟩, hpast⟩
    · show (pendingStart wd.history s.timer.ptWdog).map Started.due =
        (next cfg (.notify wd.ticks :: s.log)).map Nat.cast
      rw [hp]
      simp [next, hset, hzero]
    · show s.timer.ptLast = lastDelay cfg (.notify wd.ticks :: s.log)
      simp only [lastDelay, hset, if_pos hzero]
      exact h.last
  · rw [timerTimeout_of_periodic (s := { s with wd := wd }) h.crefs (by
      rwa [hdelay])]
    refine ⟨h.crefs, ?_, h.delay, ?_, h.valid, ⟨by rw [hdue, ht], h.scheduled⟩, ?_⟩
    · show (pendingStart (wdStart (some s.timer.ptWdog) s.timer.ptDelay timeoutEntry
        [s.timer.itimer] wd).2.history s.timer.ptWdog).map Started.due =
          (next cfg (.notify wd.ticks :: s.log)).map Nat.cast
      rw [hdelay, pendingStart_wdStart hB _ hp0 _ (by simp [maxWdogparms]), if_pos rfl]
      simp only [next, hset, if_neg hzero, Option.map_some]
      congr 1
      omega
    · simp only [lastDelay, hset, if_neg hzero]
      exact hdelay
    · intro e he
      refine (hpast e he).trans ?_
      rw [wdStart_ticks]

/-- A round of the expiry loop keeps the timer in step with its log. -/
theorem expireHead_tracks (hA : Rep s.wd A) (hl : s.wd.wdactivelist = (w, lag) :: rest)
    (hlag : lag ≤ 0) (hcalls : ∀ r ∈ calls, r.InRange ∧ Spares s.timer.ptWdog r) :
    Tracks cfg (expireHead w lag rest calls s) := by
  obtain ⟨st, hst, hdue, hlen⟩ := head_due hA hl hlag
  obtain ⟨hhist, ht⟩ := expireHead_history hlen lag rest
  -- the watchdogs when the function is called
  have hnone : ∀ r ∈ ([] : List Request), r.InRange := by simp
  obtain ⟨B, hB, -⟩ := expireHead_rep hA hl hlag hnone
  unfold expireHead
  split
  · next hw =>
      subst hw
      refine h.timeout (h.next_of_pending hst hdue) hB ?_ ht
      rw [hhist, pendingStart_run, if_pos rfl]
  · next hw =>
      rw [expireHead_calls hlen]
      have hserve := pendingStart_serve_all hB hcalls
      refine h.frame (hserve.trans ?_) ?_
      · rw [hhist, pendingStart_run, if_neg hw]
      · obtain ⟨-, -, hticks, -⟩ := serve_all_rep hB fun r hr => (hcalls r hr).1
        rw [hticks, ht]

end

/-! ### The timer interrupt -/

theorem expirationLoop_congr {body body' : Nat → List Request} : ∀ (fuel k : Nat) (wd : Wdog.State),
    (∀ j, k ≤ j → body j = body' j) →
      Wdog.expirationLoop body fuel k wd = Wdog.expirationLoop body' fuel k wd
  | 0, _, _, _ => rfl
  | fuel + 1, k, wd, h => by
    simp only [Wdog.expirationLoop]
    split
    · rfl
    · split
      · rw [h k le_rfl]
        exact expirationLoop_congr fuel (k + 1) _ fun j hj => h j (by omega)
      · rfl

/-- The expiry loop is one of the watchdogs, with `timer_timeout` as the function of one of them,
and it keeps the timer in step with its log. -/
theorem expirationLoop_tracks (hcalls : ∀ k, ∀ r ∈ calls k, r.InRange ∧ Spares w r) :
    ∀ (fuel k : Nat) {s : State} {A : List (WdogId × Started)}, Tracks cfg s → Rep s.wd A →
      s.timer.ptWdog = w →
      ∃ body : Nat → List Request, (∀ j, ∀ r ∈ body j, r.InRange) ∧
        (expirationLoop calls fuel k s).wd = Wdog.expirationLoop body fuel k s.wd ∧
        Tracks cfg (expirationLoop calls fuel k s) ∧
        (expirationLoop calls fuel k s).timer.ptWdog = w
  | 0, _, s, A, h, _, hw => ⟨fun _ => [], by simp, rfl, h, hw⟩
  | fuel + 1, k, s, A, h, hA, hw => by
    cases hl : s.wd.wdactivelist with
    | nil =>
      simp only [expirationLoop, Wdog.expirationLoop, hl]
      exact ⟨fun _ => [], by simp, trivial, h, hw⟩
    | cons e rest =>
      obtain ⟨v, lag⟩ := e
      simp only [expirationLoop, Wdog.expirationLoop, hl]
      by_cases hlag : lag ≤ 0
      · simp only [if_pos hlag]
        have hk : ∀ r ∈ calls k, r.InRange ∧ Spares s.timer.ptWdog r := hw ▸ hcalls k
        have hround := h.roundCalls_inRange hA hl hlag fun r hr => (hk r hr).1
        have hwd := expireHead_wd h hA hl hlag (calls k)
        obtain ⟨B, hB, -⟩ := expireHead_rep hA hl hlag hround
        rw [← hwd] at hB
        obtain ⟨body, hbody, heq, htr, hw'⟩ := expirationLoop_tracks hcalls fuel (k + 1)
          (expireHead_tracks h hA hl hlag hk) hB ((expireHead_ptWdog h v lag rest _).trans hw)
        -- the functions of the later rounds, with this round in front
        refine ⟨Function.update body k (roundCalls s.timer v (calls k)), ?_, ?_, htr, hw'⟩
        · intro j
          by_cases hj : j = k
          · rw [hj, Function.update_self]
            exact hround
          · rw [Function.update_of_ne hj]
            exact hbody j
        · rw [heq, Function.update_self, hwd]
          refine expirationLoop_congr fuel (k + 1) _ fun j hj => ?_
          rw [Function.update_of_ne (by omega)]
      · simp only [if_neg hlag]
        exact ⟨fun _ => [], by simp, trivial, h, hw⟩

/-- Between two ticks the timer is in step with its log and every watchdog is on time. -/
def Timed (cfg : TickConfig) (s : State) : Prop := OnTime s.wd ∧ Tracks cfg s

theorem wdTimer_timed (h : Timed cfg s)
    (hcalls : ∀ k, ∀ r ∈ calls k, r.InRange ∧ Spares s.timer.ptWdog r) :
    Timed cfg (wdTimer calls s) := by
  obtain ⟨hon, htr⟩ := h
  obtain ⟨A, hA, hdue⟩ := hon
  -- the tick itself moves only the clock and a lag
  have hframe : ∀ list, Tracks cfg
      { s with wd := { s.wd with ticks := s.wd.ticks + 1, wdactivelist := list } } :=
    fun list => htr.frame rfl (Nat.le_succ _)
  cases hl : s.wd.wdactivelist with
  | nil =>
    have hwd : wdTimer calls s = { s with wd := { s.wd with ticks := s.wd.ticks + 1 } } := by
      simp only [wdTimer, hl]
    rw [hwd]
    have hnone : ∀ k : Nat, ∀ r ∈ (fun _ => []) k, Request.InRange r := by simp
    have honTime := wdTimer_onTime ⟨A, hA, hdue⟩ hnone
    have hticked : Wdog.wdTimer (fun _ => []) s.wd = { s.wd with ticks := s.wd.ticks + 1 } := by
      simp only [Wdog.wdTimer, hl]
    rw [hticked] at honTime
    exact ⟨honTime, hframe s.wd.wdactivelist⟩
  | cons e rest =>
    obtain ⟨v, lag⟩ := e
    obtain ⟨body, hbody, heq, htr', -⟩ := expirationLoop_tracks hcalls
      s.wd.wdactivelist.length 0 (hframe ((v, i32 (lag - 1)) :: rest)) (hA.tick hdue hl) rfl
    have hwd : wdTimer calls s = expirationLoop calls s.wd.wdactivelist.length 0
        { s with wd := { s.wd with
          ticks := s.wd.ticks + 1, wdactivelist := (v, i32 (lag - 1)) :: rest } } := by
      simp only [wdTimer, hl]
    rw [hwd]
    have honTime := wdTimer_onTime ⟨A, hA, hdue⟩ hbody
    simp only [Wdog.wdTimer, wdExpiration, hl] at honTime
    refine ⟨?_, htr'⟩
    rw [heq, hl]
    exact honTime

/-! ### The calls -/

theorem serve_timed (h : Timed cfg s) {r : Request} (hr : r.InRange)
    (hs : Spares s.timer.ptWdog r) : Timed cfg { s with wd := serve s.wd r } := by
  obtain ⟨hon, htr⟩ := h
  refine ⟨serve_onTime hon hr, ?_⟩
  obtain ⟨A, hA, -⟩ := hon
  obtain ⟨-, -, ht, -⟩ := serve_rep hA hr
  exact htr.frame (pendingStart_serve hA hs) ht.ge

/-- The watchdogs after the `wd_cancel` of `timer_settime`. -/
def State.cancelled (s : State) : Wdog.State := (wdCancel (some s.timer.ptWdog) s.wd).2

/-- A setting that disarms the timer, or a time that has passed without an interval: nothing is
started. `pt_delay` is not written if the timer is disarmed, and `pt_last` in neither case. -/
theorem timerSettime_of_idle (hidle : st.Disarms ∨ st.firstDelay cfg s.wd.ticks ≤ 0) :
    ∃ d, (¬ st.Disarms → d = st.period cfg) ∧ (timerSettime cfg (some st) s).2 =
      { timer := { s.timer with ptDelay := d }
        wd := s.cancelled
        log := .set s.wd.ticks st :: s.log } := by
  by_cases hd : st.Disarms
  · exact ⟨s.timer.ptDelay, absurd hd, by simp only [timerSettime, if_pos hd]; rfl⟩
  · have ht : (s.record (.set s.wd.ticks st)).wd.ticks = s.wd.ticks := rfl
    refine ⟨st.period cfg, fun _ => rfl, ?_⟩
    simp only [timerSettime, if_neg hd]
    rw [wdCancel_ticks, ht, if_neg (hidle.resolve_left hd).not_gt]
    rfl

theorem timerSettime_of_started (hd : ¬ st.Disarms) (hpos : 0 < st.firstDelay cfg s.wd.ticks)
    (hi : i32 (st.firstDelay cfg s.wd.ticks) = st.firstDelay cfg s.wd.ticks) :
    (timerSettime cfg (some st) s).2 =
      { timer := { s.timer with
          ptDelay := st.period cfg, ptLast := st.firstDelay cfg s.wd.ticks }
        wd := (wdStart (some s.timer.ptWdog) (st.firstDelay cfg s.wd.ticks) timeoutEntry
          [s.timer.itimer] s.cancelled).2
        log := .set s.wd.ticks st :: s.log } := by
  have ht : (s.record (.set s.wd.ticks st)).wd.ticks = s.wd.ticks := rfl
  simp only [timerSettime, if_neg hd]
  rw [wdCancel_ticks, ht, if_pos hpos, hi]
  rfl

theorem timerSettime_timed (h : Timed cfg s) (hv : st.Valid cfg s.wd.ticks) :
    Timed cfg (timerSettime cfg (some st) s).2 := by
  obtain ⟨hon, htr⟩ := h
  have honC : OnTime s.cancelled :=
    serve_onTime hon (r := .cancel (some s.timer.ptWdog)) trivial
  obtain ⟨A, hA, hdue⟩ := hon
  -- the notification asked for so far, if any, is still to come
  have hsched : Scheduled cfg (.set s.wd.ticks st :: s.log) := by
    refine ⟨?_, htr.scheduled⟩
    intro m hm
    have hp := hm ▸ htr.pending
    obtain ⟨a, ha, hdue'⟩ := Option.map_eq_some_iff.1 hp
    have := hdue _ ((hA.mem _ _).2 ha)
    simp only [hdue'] at this
    exact_mod_cast this
  have hpast : ∀ e ∈ Note.set s.wd.ticks st :: s.log, e.tick ≤ s.wd.ticks := by
    exact forall_mem_cons.2 ⟨le_rfl, htr.past⟩
  have hvalid : ∀ n st', lastSet (Note.set s.wd.ticks st :: s.log) = some (n, st') →
      st'.Valid cfg n := by
    intro n st' hset
    obtain ⟨rfl, rfl⟩ := Prod.mk.inj (Option.some.inj hset)
    exact hv
  have hcancel : pendingStart s.cancelled.history s.timer.ptWdog = none :=
    (pendingStart_wdCancel hA _ _).trans (if_pos rfl)
  have hticks : s.cancelled.ticks = s.wd.ticks := wdCancel_ticks s.timer.ptWdog s.wd
  by_cases hidle : st.Disarms ∨ st.firstDelay cfg s.wd.ticks ≤ 0
  · obtain ⟨d, hdelay, heq⟩ := timerSettime_of_idle hidle
    rw [heq]
    refine ⟨honC, htr.crefs, ?_, ?_, ?_, hvalid, hsched, hticks.symm ▸ hpast⟩
    · rw [hcancel, next, if_pos hidle]
      rfl
    · intro n st' hset hnd
      obtain ⟨rfl, rfl⟩ := Prod.mk.inj (Option.some.inj hset)
      exact hdelay hnd
    · rw [lastDelay, if_pos hidle]
      exact htr.last
  · obtain ⟨hd, hpos⟩ := not_or.1 hidle
    rw [not_le] at hpos
    have hlt := hv.firstDelay_lt
    have hi : i32 (st.firstDelay cfg s.wd.ticks) = st.firstDelay cfg s.wd.ticks := by
      unfold int32Max at hlt
      exact i32_eq_self (by omega) (by omega)
    rw [timerSettime_of_started hd hpos hi]
    have honS := serve_onTime honC (r := .start (some s.timer.ptWdog)
      (st.firstDelay cfg s.wd.ticks) timeoutEntry [s.timer.itimer]) hlt
    obtain ⟨B, hB, -⟩ := honC
    refine ⟨honS, htr.crefs, ?_, ?_, ?_, hvalid, hsched, ?_⟩
    · show (pendingStart (wdStart (some s.timer.ptWdog) (st.firstDelay cfg s.wd.ticks) _ _
        s.cancelled).2.history s.timer.ptWdog).map _ = (next cfg (.set _ st :: _)).map _
      rw [pendingStart_wdStart hB _ hpos.le _ (by simp [maxWdogparms]), if_pos rfl, next,
        if_neg hidle, Option.map_some, Setting.first, hticks]
      congr 1
      omega
    · intro n st' hset _
      obtain ⟨rfl, rfl⟩ := Prod.mk.inj (Option.some.inj hset)
      rfl
    · rw [lastDelay, if_neg hidle]
    · rw [wdStart_ticks, hticks]
      exact hpast

end Steps

/-! ## The notifications of a scheduled log -/

def Note.isSet : Note → Bool
  | .set _ _ => true
  | .notify _ => false

/-- The ticks of the notifications, oldest first. -/
def notifications (log : List Note) : List Nat :=
  (log.filterMap fun e => match e with
    | .set _ _ => none
    | .notify n => some n).reverse

theorem exists_notify {later : List Note} (h : ∀ e ∈ later, e.isSet = false) :
    ∃ ms : List Nat, later = ms.map .notify := by
  induction later with
  | nil => exact ⟨[], rfl⟩
  | cons e later ih =>
    obtain ⟨he, hlater⟩ := forall_mem_cons.1 h
    obtain ⟨ms, rfl⟩ := ih hlater
    cases e with
    | set n st => cases he
    | notify m => exact ⟨m :: ms, rfl⟩

theorem notifications_map (ms : List Nat) : notifications (ms.map .notify) = ms.reverse := by
  simp [notifications, filterMap_map]

variable {first : Nat}

section Laws

variable {n : Nat} {earlier : List Note} {ms : List Nat}

theorem lastSet_append (ms : List Nat) :
    lastSet (ms.map .notify ++ .set n st :: earlier) = some (n, st) := by
  induction ms with
  | nil => rfl
  | cons m ms ih => exact ih

/-- A setting that asks for nothing is followed by no notification. -/
theorem notifications_of_idle (hnext : next cfg (.set n st :: earlier) = none)
    (hs : Scheduled cfg (ms.map .notify ++ .set n st :: earlier)) : ms = [] := by
  induction ms with
  | nil => rfl
  | cons m ms ih =>
    obtain ⟨hm, hs⟩ := hs
    obtain rfl := ih hs
    cases hnext.symm.trans hm

theorem notifications_of_oneShot (hnext : next cfg (.set n st :: earlier) = some first)
    (hp : st.period cfg = 0) (hs : Scheduled cfg (ms.map .notify ++ .set n st :: earlier)) :
    (ms = [] ∧ next cfg (ms.map .notify ++ .set n st :: earlier) = some first) ∨
      (ms = [first] ∧ next cfg (ms.map .notify ++ .set n st :: earlier) = none) := by
  induction ms with
  | nil => exact .inl ⟨rfl, hnext⟩
  | cons m ms ih =>
    obtain ⟨hm, hs⟩ := hs
    rcases ih hs with ⟨rfl, hfirst⟩ | ⟨-, hnone⟩
    · obtain rfl := Option.some.inj (hm.symm.trans hfirst)
      exact .inr ⟨rfl, by simp [next, lastSet, hp]⟩
    · cases hnone.symm.trans hm

theorem notifications_of_periodic (hnext : next cfg (.set n st :: earlier) = some first)
    (hp : 0 < st.period cfg) (hs : Scheduled cfg (ms.map .notify ++ .set n st :: earlier)) :
    ms.reverse = (range ms.length).map (fun k => first + k * ((st.period cfg).toNat + 1)) ∧
      next cfg (ms.map .notify ++ .set n st :: earlier) =
        some (first + ms.length * ((st.period cfg).toNat + 1)) := by
  induction ms with
  | nil => simpa using hnext
  | cons m ms ih =>
    obtain ⟨hm, hs⟩ := hs
    obtain ⟨hlist, hlast⟩ := ih hs
    obtain rfl := Option.some.inj (hm.symm.trans hlast)
    constructor
    · rw [reverse_cons, hlist, length_cons, range_succ, map_append]
      rfl
    · rw [map_cons, cons_append, next, lastSet_append]
      simp only [if_neg hp.ne']
      rw [length_cons]
      congr 1
      ring

theorem lastDelay_of_periodic (hnext : next cfg (.set n st :: earlier) ≠ none)
    (hp : 0 < st.period cfg) (hwhen : ms ≠ [] ∨ st.firstDelay cfg n = st.period cfg) :
    lastDelay cfg (ms.map .notify ++ .set n st :: earlier) = st.period cfg := by
  cases ms with
  | nil =>
    have harm : ¬ (st.Disarms ∨ st.firstDelay cfg n ≤ 0) := fun h => hnext (if_pos h)
    rw [map_nil, nil_append, lastDelay, if_neg harm]
    exact hwhen.resolve_left (· rfl)
  | cons m ms =>
    rw [map_cons, cons_append, lastDelay, lastSet_append]
    exact if_neg hp.ne'

end Laws

/-! ## Runs -/

/-- What can happen: a call of `timer_settime`, a request of another user of the watchdogs, or a
tick with what the other functions that run on it do. -/
inductive TimerEvent
  | settime (value : Option Setting)
  | request (r : Request)
  | tick (calls : List (List Request))
  deriving DecidableEq

def step (cfg : TickConfig) (s : State) : TimerEvent → Option State
  | .settime value => some (timerSettime cfg value s).2
  | .request r => some { s with wd := serve s.wd r }
  | .tick calls => some (wdTimer (fun k => calls.getD k []) s)

/-- Settings are valid, and nobody else touches the timer's watchdog. -/
def Enabled (cfg : TickConfig) (s : State) : TimerEvent → Prop
  | .settime none => True
  | .settime (some st) => st.Valid cfg s.wd.ticks
  | .request r => r.InRange ∧ Spares s.timer.ptWdog r
  | .tick calls => ∀ c ∈ calls, ∀ r ∈ c, r.InRange ∧ Spares s.timer.ptWdog r

/-- A timer fresh from `timer_create`, at any time in the life of the other watchdogs. -/
structure Created (s : State) : Prop where
  watchdogs : Reach Wdog.Init Wdog.Step s.wd
  inactive : (s.wd.wdog s.timer.ptWdog).active = false
  crefs : s.timer.ptCrefs = 1
  last : s.timer.ptLast = 0
  log : s.log = []

/-- The states on the runs of a timer. -/
abbrev Run (cfg : TickConfig) : State → Prop :=
    Reach Created (LabelledStep (Enabled cfg) (step cfg))

variable {s : State}

theorem created_timed (h : Created s) : Timed cfg s := by
  have hon := reach_onTime h.watchdogs
  refine ⟨hon, h.crefs, ?_, ?_, ?_, ?_, ?_, ?_⟩
  · obtain ⟨A, hA, -⟩ := hon
    cases hp : pendingStart s.wd.history s.timer.ptWdog with
    | none => simp [h.log, next]
    | some st =>
      have hact := (hA.flag s.timer.ptWdog).2 ⟨st, (hA.mem _ st).2 hp⟩
      rw [h.inactive] at hact
      cases hact
  · simp [h.log, lastSet]
  · simp [h.log, h.last, lastDelay]
  · simp [h.log, lastSet]
  · simp [h.log, Scheduled]
  · simp [h.log]

/-- In every run the timer is in step with its log between two ticks. -/
theorem run_timed (hs : Run cfg s) : Timed cfg s := by
  refine Reach.labelled (P := Timed cfg) (fun _ => created_timed) ?_ hs
  intro s e h hok
  cases e with
  | settime value =>
    cases value with
    | none => exact ⟨s, rfl, h⟩
    | some st => exact ⟨_, rfl, timerSettime_timed h hok⟩
  | request r => exact ⟨_, rfl, serve_timed h hok.1 hok.2⟩
  | tick calls =>
    refine ⟨_, rfl, wdTimer_timed h fun k r hr => ?_⟩
    rw [getD_eq_getElem?_getD] at hr
    cases hk : calls[k]? with
    | none => simp [hk] at hr
    | some c =>
      rw [hk] at hr
      exact hok c (mem_of_getElem? hk) r hr

/-! ## What timer_gettime shows -/

/-- `t` is `ticks` as a time, exactly so where the tick divides the second. -/
def Shows (cfg : TickConfig) (t : Timespec) (ticks : Nat) : Prop :=
  t = clockTicks2time cfg ticks ∧
    (cfg.usecPerTick ∣ usecPerSec → t.value = ticks * cfg.nsecPerTick)

theorem shows_clockTicks2time (cfg : TickConfig) {ticks : Nat} (h : (ticks : Int) ≤ int32Max) :
    Shows cfg (clockTicks2time cfg ticks) ticks :=
  ⟨rfl, fun hdvd => (clockTicks2time_value cfg hdvd (Int.natCast_nonneg _) h).1⟩

variable {m : Nat}

theorem Timed.value_armed (h : Timed cfg s) (hm : next cfg s.log = some m) :
    s.wd.ticks < m ∧ Shows cfg (timerGettime cfg s).1 (m - s.wd.ticks) := by
  obtain ⟨hon, htr⟩ := h
  have hget := wdGettime_eq hon s.timer.ptWdog
  obtain ⟨A, hA, hdue⟩ := hon
  have hp := hm ▸ htr.pending
  obtain ⟨st, hst, hst'⟩ := Option.map_eq_some_iff.1 hp
  have hmem := (hA.mem _ _).2 hst
  have hlo := hdue _ hmem
  have hhi := (hA.armed _ hmem).upper
  simp only [hst'] at hlo hhi
  rw [hst] at hget
  simp only [hst'] at hget
  have hlt : s.wd.ticks < m := by exact_mod_cast hlo
  have hleft : wdGettime (some s.timer.ptWdog) s.wd = ((m - s.wd.ticks : Nat) : Int) := by
    rw [hget]
    push_cast [hlt.le]
    rfl
  refine ⟨hlt, ?_⟩
  rw [timerGettime, hleft]
  refine shows_clockTicks2time cfg ?_
  omega

/-- `it_value` is zero when no notification is asked for. -/
theorem Timed.value_disarmed (h : Timed cfg s) (hm : next cfg s.log = none) :
    Shows cfg (timerGettime cfg s).1 0 := by
  obtain ⟨hon, htr⟩ := h
  have hp := htr.pending
  rw [hm, Option.map_none, Option.map_eq_none_iff] at hp
  have hget := hp ▸ wdGettime_eq hon s.timer.ptWdog
  rw [timerGettime, hget]
  exact shows_clockTicks2time cfg (by decide)

/-! ## The result -/

section Result

variable {later earlier : List Note} {n : Nat}

/-- The notifications of a periodic timer are the multiples of `period + 1` ticks from the first one
that have passed. -/
theorem Timed.periodic (h : Timed cfg s) {ms : List Nat}
    (hlog : s.log = ms.map .notify ++ .set n st :: earlier)
    (hnext : next cfg (.set n st :: earlier) = some first) (hp : 0 < st.period cfg) (k : Nat) :
    ms.reverse[k]? =
      if first + k * ((st.period cfg).toNat + 1) ≤ s.wd.ticks then
        some (first + k * ((st.period cfg).toNat + 1)) else none := by
  obtain ⟨hlist, hlast⟩ := notifications_of_periodic hnext hp (hlog ▸ h.2.scheduled)
  obtain ⟨hlt, -⟩ := h.value_armed (hlog ▸ hlast)
  rw [hlist, getElem?_map]
  by_cases hk : k < ms.length
  · -- it has been sent, so its tick has passed
    have hmem : first + k * ((st.period cfg).toNat + 1) ∈ ms := by
      rw [← mem_reverse, hlist]
      exact mem_map.2 ⟨k, mem_range.2 hk, rfl⟩
    have hpast : first + k * ((st.period cfg).toNat + 1) ≤ s.wd.ticks := by
      refine h.2.past (.notify _) ?_
      rw [hlog]
      exact mem_append_left _ (mem_map_of_mem hmem)
    rw [getElem?_range hk, if_pos hpast]
    rfl
  · -- the next one is still to come, and this one is not before it
    have hle : ms.length * ((st.period cfg).toNat + 1) ≤ k * ((st.period cfg).toNat + 1) :=
      Nat.mul_le_mul_right _ (by omega)
    rw [getElem?_eq_none (by simpa using hk), if_neg (by omega)]
    rfl

/-- In every run, with a timer that was last set to `st` at tick `n`: a setting with `it_value` zero
is followed by no notification. Otherwise, if the requested time lies in the future, the first
notification is due not before it and less than two ticks after it; a one-shot timer notifies on
that tick and never again; a periodic timer notifies on that tick and every `p + 1` ticks after it,
where `p` is `it_interval` in ticks. `timer_gettime` shows the time to the next notification, and
shows `p` as the interval of a periodic timer that has notified, or whose first delay was `p`. -/
theorem timer_notifies_on_schedule (hs : Run cfg s)
    (hlog : s.log = later ++ .set n st :: earlier) (hlater : ∀ e ∈ later, e.isSet = false) :
    let now := s.wd.ticks
    let first := st.first cfg n
    let p := (st.period cfg).toNat
    RoundsUp cfg st.itInterval.value p ∧
    (st.Disarms → notifications later = [] ∧ Shows cfg (timerGettime cfg s).1 0) ∧
    (¬ st.Disarms → st.InFuture cfg n →
      st.Meets cfg n first ∧
      (p = 0 → notifications later = (if first ≤ now then [first] else []) ∧
        Shows cfg (timerGettime cfg s).1 (first - now)) ∧
      (0 < p →
        (∀ k, (notifications later)[k]? =
          if first + k * (p + 1) ≤ now then some (first + k * (p + 1)) else none) ∧
        Shows cfg (timerGettime cfg s).1
          (first + (notifications later).length * (p + 1) - now) ∧
        (notifications later ≠ [] ∨ st.firstDelay cfg n = p →
          Shows cfg (timerGettime cfg s).2 p))) := by
  have h := run_timed hs
  obtain ⟨ms, rfl⟩ := exists_notify hlater
  simp only [notifications_map]
  have hsched := hlog ▸ h.2.scheduled
  have hvalid : st.Valid cfg n := h.2.valid n st (by rw [hlog]; exact lastSet_append ms)
  obtain ⟨hp0, hpm⟩ := hvalid.period_range
  have hpcast : ((st.period cfg).toNat : Int) = st.period cfg := Int.toNat_of_nonneg hp0
  refine ⟨?_, ?_, ?_⟩
  · rw [hpcast]
    exact hvalid.period_spec
  · intro hd
    have hnone : next cfg (.set n st :: earlier) = none := if_pos (Or.inl hd)
    obtain rfl := notifications_of_idle hnone hsched
    exact ⟨rfl, h.value_disarmed (by rw [hlog]; exact hnone)⟩
  · intro hd hf
    obtain ⟨-, hpos⟩ := hvalid.firstDelay_eq hd hf
    have hnext : next cfg (.set n st :: earlier) = some (st.first cfg n) :=
      if_neg (by rintro (hd' | hle); exacts [hd hd', by omega])
    refine ⟨hvalid.meets hd hf, ?_, ?_⟩
    · intro hp
      have hzero : st.period cfg = 0 := by omega
      rcases notifications_of_oneShot hnext hzero hsched with ⟨rfl, hn⟩ | ⟨rfl, hn⟩
      · obtain ⟨hlt, hshow⟩ := h.value_armed (by rw [hlog]; exact hn)
        exact ⟨by rw [if_neg (by omega)]; rfl, hshow⟩
      · have hpast : st.first cfg n ≤ s.wd.ticks :=
          h.2.past (.notify (st.first cfg n)) (by simp [hlog])
        refine ⟨by rw [if_pos hpast]; rfl, ?_⟩
        rw [Nat.sub_eq_zero_of_le hpast]
        exact h.value_disarmed (by rw [hlog]; exact hn)
    · intro hp
      have hpos' : 0 < st.period cfg := by omega
      obtain ⟨-, hlast⟩ := notifications_of_periodic hnext hpos' hsched
      refine ⟨h.periodic hlog hnext hpos', ?_, ?_⟩
      · rw [length_reverse]
        exact (h.value_armed (by rw [hlog]; exact hlast)).2
      · intro hwhen
        have hld : lastDelay cfg s.log = st.period cfg := by
          rw [hlog]
          exact lastDelay_of_periodic (by simp [hnext]) hpos'
            (hwhen.imp (by simp) fun heq => heq.trans hpcast)
        rw [timerGettime, h.2.last, hld, ← hpcast]
        exact shows_clockTicks2time cfg (by omega)

end Result

/-! ## A run -/

instance Setting.decidableValid (cfg : TickConfig) (n : Nat) (st : Setting) :
    Decidable (st.Valid cfg n) :=
  decidable_of_iff
    ((0 ≤ st.itValue.nsec ∧ st.itValue.nsec < nsecPerSec) ∧
      (0 ≤ st.itInterval.nsec ∧ st.itInterval.nsec < nsecPerSec) ∧
      cfg.Fits st.itInterval.value ∧
      (st.absolute = true → st.itValue.sec < 4294967296 ∧ cfg.Counts n ∧
        cfg.Fits (st.itValue.value - cfg.realtime n)) ∧
      (st.absolute = false → cfg.Fits st.itValue.value))
    ⟨fun ⟨hv, hi, hf, ha, hr⟩ => ⟨hv, hi, hf, ha, hr⟩,
      fun ⟨hv, hi, hf, ha, hr⟩ => ⟨hv, hi, hf, ha, hr⟩⟩

instance decidableInRange (r : Request) : Decidable r.InRange := by
  cases r <;> unfold Request.InRange <;> infer_instance

instance decidableSpares (w : WdogId) (r : Request) : Decidable (Spares w r) := by
  cases r <;> unfold Spares <;> infer_instance

instance decidableEnabled (cfg : TickConfig) (s : State) (e : TimerEvent) :
    Decidable (Enabled cfg s e) := by
  unfold Enabled
  split <;> infer_instance

/-- Ticks of ten milliseconds, the default of the source, and a clock that starts at zero. -/
def defaultTicks : TickConfig := hundredHertz

/-- A timer created at boot. -/
def bootTimer : State := ⟨⟨100, 1, 0, 0, 7⟩, boot, []⟩

theorem created_bootTimer : Created bootTimer :=
  ⟨.start ⟨rfl, fun _ => rfl, rfl⟩, rfl, rfl, rfl, rfl⟩

/-- One tick to the first notification, and then every two ticks. -/
def everyTwoTicks : Setting := ⟨false, ⟨0, 10000000⟩, ⟨0, 20000000⟩⟩

/-- An absolute time that has passed, and no interval. -/
def onceInThePast : Setting := ⟨true, ⟨0, 10000000⟩, ⟨0, 0⟩⟩

/-- Set to one tick and then every two ticks, the timer has notified on the ticks 2 and 5 by the
tick 6, and shows two ticks to the next notification. -/
theorem timer_notifies_on_schedule_sample :
    let s := after (step defaultTicks) bootTimer
      (.settime (some everyTwoTicks) :: replicate 6 (.tick []))
    Run defaultTicks s ∧ s.log = [.notify 5, .notify 2] ++ .set 0 everyTwoTicks :: [] ∧
      (notifications [.notify 5, .notify 2])[1]? = some 5 ∧
      Shows defaultTicks (timerGettime defaultTicks s).1 2 ∧
      Shows defaultTicks (timerGettime defaultTicks s).2 2 := by
  have hrun : Run defaultTicks (after (step defaultTicks) bootTimer
      (.settime (some everyTwoTicks) :: replicate 6 (.tick []))) :=
    Reach.after _ (.start created_bootTimer) (by decide)
  have hlog : (after (step defaultTicks) bootTimer
      (.settime (some everyTwoTicks) :: replicate 6 (.tick []))).log =
        [.notify 5, .notify 2] ++ .set 0 everyTwoTicks :: [] := by decide
  obtain ⟨-, -, h⟩ := timer_notifies_on_schedule hrun hlog (by decide)
  obtain ⟨-, -, h⟩ := h (by decide) fun habs => absurd habs (by decide)
  obtain ⟨hk, hleft, hint⟩ := h (by decide)
  exact ⟨hrun, hlog, hk 1, hleft, hint (Or.inl (by decide))⟩

/-- With two ticks as its interval the timer notifies on the ticks 2, 5 and 8, three ticks apart.
Right after the setting `timer_gettime` shows the first delay of one tick in place of the interval.
A one-shot setting to a time that has passed leaves the timer disarmed, without a notification. -/
theorem timer_drifts_and_misses :
    let setting : List TimerEvent := [.settime (some everyTwoTicks)]
    let ticking := setting ++ replicate 8 (.tick [])
    let missing := ticking ++ .settime (some onceInThePast) :: replicate 3 (.tick [])
    let s := after (step defaultTicks) bootTimer
    AllSteps (Enabled defaultTicks) (step defaultTicks) bootTimer missing ∧
      timerGettime defaultTicks (s setting) = (⟨0, 20000000⟩, ⟨0, 10000000⟩) ∧
      notifications (s ticking).log = [2, 5, 8] ∧
      (s missing).log = .set 8 onceInThePast :: (s ticking).log ∧
      (s missing).wd.ticks = 11 ∧ (s missing).wd.wdactivelist = [] := by
  decide

end BaseNx.Timer
