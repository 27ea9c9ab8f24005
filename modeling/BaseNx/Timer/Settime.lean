import BaseNx.Clock.Ticks
import BaseNx.Wdog.Deadlines

/-!
# POSIX timers

`sched/timer` in the ticked build: `timerSettime`, `timerGettime` and the expiry routine
`timerTimeout`, for one timer among any number of other users of the watchdogs. A timer is a
watchdog that its own expiry routine starts again: `pt_delay` holds the ticks of the reload value
and `pt_last` those of the last start.

`wdTimer` is the timer interrupt, with `timerTimeout` as the function of the timer's own watchdog;
what the other functions of a tick do is an input. The state keeps a log of the settings and the
notifications.
-/

namespace BaseNx.Timer

open Lib Clock Wdog

/-! ## State -/

/-- `struct itimerspec`, with the flag `TIMER_ABSTIME` of the call it is passed to. -/
structure Setting where
  absolute : Bool
  itValue : Timespec
  itInterval : Timespec
  deriving DecidableEq

/-- `struct posix_timer_s` as far as the functions here use it. -/
structure PosixTimer where
  /-- its address, the argument of `timer_timeout` -/
  itimer : Nat
  ptCrefs : Nat
  ptDelay : Int
  ptLast : Int
  ptWdog : WdogId
  deriving DecidableEq

/-- What the owner of the timer sees: its settings and the notifications, with their ticks. -/
inductive Note
  | set (tick : Nat) (setting : Setting)
  | notify (tick : Nat)
  deriving DecidableEq

/-- The timer, the watchdogs, and the log with the newest note first. -/
structure State where
  timer : PosixTimer
  wd : Wdog.State
  log : List Note

def State.record (s : State) (e : Note) : State := { s with log := e :: s.log }

/-- The address of `timer_timeout`. -/
def timeoutEntry : Nat := 1

/-! ## timer_timeout -/

/-- `timer_signotify` -/
def timerSignotify (s : State) : State := s.record (.notify s.wd.ticks)

/-- `timer_release`: one reference less, or the end of the timer. -/
def timerRelease (s : State) : Int × State :=
  if 1 < s.timer.ptCrefs then
    (1, { s with timer := { s.timer with ptCrefs := s.timer.ptCrefs - 1 } })
  else (OK, { s with wd := (wdCancel (some s.timer.ptWdog) s.wd).2 })

/-- `timer_restart` -/
def timerRestart (s : State) : State :=
  if s.timer.ptDelay ≠ 0 then
    { s with
      timer := { s.timer with ptLast := s.timer.ptDelay }
      wd := (wdStart (some s.timer.ptWdog) s.timer.ptDelay timeoutEntry [s.timer.itimer] s.wd).2 }
  else s

/-- `timer_timeout` -/
def timerTimeout (s : State) : State :=
  let s := { s with timer := { s.timer with ptCrefs := u8 (s.timer.ptCrefs + 1) } }
  let s := timerSignotify s
  match timerRelease s with
  | (ret, s) => if ret ≠ 0 then timerRestart s else s

/-! ## timer_settime -/

/-- "If the it_value member of value is zero, the timer will not be re-armed". -/
def Setting.Disarms (st : Setting) : Prop := st.itValue.sec ≤ 0 ∧ st.itValue.nsec ≤ 0

instance Setting.decidableDisarms (st : Setting) : Decidable st.Disarms :=
  inferInstanceAs (Decidable (_ ∧ _))

variable (cfg : TickConfig) (n : Nat) (st : Setting)

/-- The new `pt_delay`: "Setup up any repetitive timer". -/
def Setting.period (st : Setting) : Int :=
  if 0 < st.itInterval.sec ∨ 0 < st.itInterval.nsec then i32 (clockTime2ticks cfg st.itInterval)
  else 0

/-- The ticks from the tick `n` to the requested time: "Check if abstime is selected". -/
def Setting.requestedDelay : Int :=
  if st.absolute then clockAbstime2ticks cfg n st.itValue else clockTime2ticks cfg st.itValue

/-- "If the time is in the past or now, then set up the next interval instead (assuming a repetitive
timer)." -/
def Setting.firstDelay : Int :=
  if st.requestedDelay cfg n ≤ 0 then st.period cfg else st.requestedDelay cfg n

/-- `timer_settime`; `none` is a `NULL` argument. -/
def timerSettime (value : Option Setting) (s : State) : Int × State :=
  match value with
  | none => (ERROR, s)
  | some st =>
    let s := s.record (.set s.wd.ticks st)
    let s := { s with wd := (wdCancel (some s.timer.ptWdog) s.wd).2 }
    if st.Disarms then (OK, s)
    else
      let s := { s with timer := { s.timer with ptDelay := st.period cfg } }
      let delay := st.firstDelay cfg s.wd.ticks
      if 0 < delay then
        let s := { s with timer := { s.timer with ptLast := i32 delay } }
        match wdStart (some s.timer.ptWdog) (i32 delay) timeoutEntry [s.timer.itimer] s.wd with
        | (ret, wd) => (if ret < 0 then ERROR else OK, { s with wd := wd })
      else (OK, s)

/-! ## timer_gettime -/

/-- `timer_gettime`: `it_value` and `it_interval`. -/
def timerGettime (s : State) : Timespec × Timespec :=
  (clockTicks2time cfg (wdGettime (some s.timer.ptWdog) s.wd),
    clockTicks2time cfg s.timer.ptLast)

/-! ## The timer interrupt -/

/-- One round of the loop of `wd_expiration`. The only function ever given to the watchdog of the
timer is `timer_timeout`; another function makes the requests `calls`. -/
def expireHead (w : WdogId) (lag : Int) (rest : List Entry) (calls : List Request) (s : State) :
    State :=
  if w = s.timer.ptWdog then timerTimeout { s with wd := Wdog.expireHead w lag rest [] s.wd }
  else { s with wd := Wdog.expireHead w lag rest calls s.wd }

/-- The loop of `wd_expiration`, as `Wdog.expirationLoop`. -/
def expirationLoop (calls : Nat → List Request) : Nat → Nat → State → State
  | 0, _, s => s
  | fuel + 1, k, s =>
    match s.wd.wdactivelist with
    | [] => s
    | (w, lag) :: rest =>
      if lag ≤ 0 then expirationLoop calls fuel (k + 1) (expireHead w lag rest (calls k) s)
      else s

/-- `wd_timer`, called on each timer interrupt. -/
def wdTimer (calls : Nat → List Request) (s : State) : State :=
  let s := { s with wd := { s.wd with ticks := s.wd.ticks + 1 } }
  match s.wd.wdactivelist with
  | [] => s
  | (w, lag) :: rest =>
    expirationLoop calls s.wd.wdactivelist.length 0
      { s with wd := { s.wd with wdactivelist := (w, i32 (lag - 1)) :: rest } }

/-! ## What the watchdog functions do to a pending start -/

section Pending

variable {s : Wdog.State} {A : List (WdogId × Started)}

theorem pendingStart_wdCancel (h : Rep s A) (w v : WdogId) :
    pendingStart (wdCancel (some w) s).2.history v =
      if w = v then none else pendingStart s.history v := by
  by_cases hw : (s.wdog w).active = true
  · simp only [wdCancel, if_pos hw]
    exact pendingStart_cancel _ _ _ _
  · simp only [wdCancel, if_neg hw]
    -- a watchdog that is not active has no start to take back
    split
    · next hv =>
        subst hv
        cases hp : pendingStart s.history w with
        | none => rfl
        | some st => exact absurd ((h.flag w).2 ⟨st, (h.mem w st).2 hp⟩) hw
    · rfl

theorem wdCancel_ticks (w : WdogId) (s : Wdog.State) : (wdCancel (some w) s).2.ticks = s.ticks := by
  simp only [wdCancel]
  split
  · rfl
  · rfl

theorem pendingStart_wdStart (h : Rep s A) (w : WdogId) {delay : Int} (h0 : 0 ≤ delay) (f : Nat)
    {parm : List Nat} (hp : parm.length ≤ maxWdogparms) (v : WdogId) :
    (pendingStart (wdStart (some w) delay f parm s).2.history v).map Started.due =
      if w = v then some (s.ticks + delay + 1) else (pendingStart s.history v).map Started.due := by
  rw [wdStart_snd hp h0]
  show (pendingStart (.start w (cancelIfActive w s).ticks delay f parm ::
    (cancelIfActive w s).history) v).map Started.due = _
  rw [pendingStart_start, cancelIfActive_ticks]
  split
  · rfl
  · next hv =>
      congr 1
      unfold cancelIfActive
      split
      · rw [pendingStart_wdCancel h, if_neg hv]
      · rfl

theorem wdStart_ticks (w : WdogId) (delay : Int) (f : Nat) (parm : List Nat) (s : Wdog.State) :
    (wdStart (some w) delay f parm s).2.ticks = s.ticks := by
  by_cases hbad : maxWdogparms < parm.length ∨ delay < 0
  · simp only [wdStart, if_pos hbad]
  · rw [wdStart_snd (by omega) (by omega)]
    exact cancelIfActive_ticks w s

/-- The request does not touch the watchdog `w`. -/
def Spares (w : WdogId) : Request → Prop
  | .start wdog _ _ _ => wdog ≠ some w
  | .cancel wdog => wdog ≠ some w

theorem pendingStart_serve (h : Rep s A) {w : WdogId} {r : Request} (hr : Spares w r) :
    (pendingStart (serve s r).history w).map Started.due =
      (pendingStart s.history w).map Started.due := by
  cases r with
  | start wdog delay f parm =>
    cases wdog with
    | none => rfl
    | some v =>
      have hv : v ≠ w := fun heq => hr (congrArg some heq)
      by_cases hbad : maxWdogparms < parm.length ∨ delay < 0
      · simp only [serve, wdStart, if_pos hbad]
      · rw [serve, pendingStart_wdStart h v (by omega) f (by omega), if_neg hv]
  | cancel wdog =>
    cases wdog with
    | none => rfl
    | some v =>
      have hv : v ≠ w := fun heq => hr (congrArg some heq)
      rw [serve, pendingStart_wdCancel h, if_neg hv]

theorem pendingStart_serve_all {w : WdogId} : ∀ {calls : List Request} {s : Wdog.State}
    {A : List (WdogId × Started)}, Rep s A → (∀ r ∈ calls, r.InRange ∧ Spares w r) →
      (pendingStart (calls.foldl serve s).history w).map Started.due =
        (pendingStart s.history w).map Started.due
  | [], _, _, _, _ => rfl
  | r :: calls, s, A, h, hr => by
    obtain ⟨hin, hsp⟩ := hr r List.mem_cons_self
    obtain ⟨B, hB, -⟩ := serve_rep h hin
    rw [List.foldl_cons, pendingStart_serve_all hB (List.forall_mem_cons.1 hr).2,
      pendingStart_serve h hsp]

end Pending

end BaseNx.Timer
