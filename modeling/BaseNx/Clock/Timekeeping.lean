import BaseNx.Errno
import BaseNx.Lib.MachineInt

/-!
# The timekeeping clocks

`clock_timekeeping.c` keeps a wall time and a monotonic time, both as of one reading of a hardware
counter, `g_clock_last_counter`. A get routine adds the ticks since that reading to the stored time;
`clock_update_wall_time` moves both times and the reading forward. Arithmetic is that of a machine
with a `long` of 32 bits and the source's 32-bit `time_t`.

The module has the functions of the source, and what they compute as long as less than five seconds
pass between two updates: below that, `sec * NSEC_PER_SEC` fits in its 32 bits.
-/

namespace BaseNx.Clock

open Lib

/-! ## The functions of the source -/

/-- `NSEC_PER_SEC` -/
def nsecPerSec : Nat := 1000000000

/-- `USEC_PER_SEC` -/
def usecPerSec : Nat := 1000000

/-- `NSEC_PER_USEC` -/
def nsecPerUsec : Nat := 1000

/-- `NTP_MAX_ADJUST` -/
def ntpMaxAdjust : Nat := 500

/-- `struct timespec` -/
structure Timespec where
  sec : Nat
  nsec : Int
  deriving DecidableEq

/-- `struct timeval` -/
structure Timeval where
  sec : Nat
  usec : Int
  deriving DecidableEq

/-- `NSEC_PER_TICK` and the number of bits of the hardware counter. -/
structure Config where
  nsecPerTick : Nat
  width : Nat
  width_le : width ≤ 64

/-- `g_clock_mask` as `up_timer_getmask` sets it. -/
def Config.mask (cfg : Config) : Nat := 2 ^ cfg.width - 1

/-- The static variables: `g_clock_wall_time`, `g_clock_monotonic_time`, `g_clock_last_counter` and
`g_clock_adjust`. -/
structure Timekeeping where
  wallTime : Timespec
  monotonicTime : Timespec
  lastCounter : Nat
  adjust : Int
  deriving DecidableEq

/-- What `up_timer_getcounter` gives: a counter value or a negated error. -/
abbrev Reading := Except Int Nat

/-- The ticks since the last reading. -/
def Timekeeping.offset (cfg : Config) (c : Timekeeping) (counter : Nat) : Nat :=
  sub64 counter c.lastCounter &&& cfg.mask

/-- The arithmetic of `clock_get_current_time`; `nsec` is a `uint64_t`, and the product
`sec * NSEC_PER_SEC` has 32 bits. -/
def timeAfter (cfg : Config) (base : Timespec) (offset : Nat) : Timespec :=
  let nsec := u64 (offset * cfg.nsecPerTick)
  let sec := u32 (nsec / nsecPerSec)
  let nsec := sub64 nsec (u32 (sec * nsecPerSec))
  let nsec := u64 (nsec + toU64 base.nsec)
  if nsecPerSec < nsec then
    ⟨u32 (base.sec + u32 (sec + 1)), i32 (nsec - nsecPerSec : Nat)⟩
  else ⟨u32 (base.sec + sec), i32 nsec⟩

/-- `clock_get_current_time` -/
def clockGetCurrentTime (cfg : Config) (c : Timekeeping) (base : Timespec) (reading : Reading) :
    Except Int Timespec :=
  reading.map fun counter => timeAfter cfg base (c.offset cfg counter)

/-- `clock_timekeeping_get_monotonic_time` -/
def clockTimekeepingGetMonotonicTime (cfg : Config) (c : Timekeeping) (reading : Reading) :
    Except Int Timespec :=
  clockGetCurrentTime cfg c c.monotonicTime reading

/-- `clock_timekeeping_get_wall_time` -/
def clockTimekeepingGetWallTime (cfg : Config) (c : Timekeeping) (reading : Reading) :
    Except Int Timespec :=
  clockGetCurrentTime cfg c c.wallTime reading

/-- `clock_timekeeping_set_wall_time` -/
def clockTimekeepingSetWallTime (c : Timekeeping) (ts : Timespec) (reading : Reading) :
    Int × Timekeeping :=
  match reading with
  | .error ret => (ret, c)
  | .ok counter => (OK, { c with wallTime := ts, adjust := 0, lastCounter := counter })

/-- `adjtime`, with the value that goes to `olddelta->tv_usec`. -/
def adjtime (c : Timekeeping) (delta : Option Timeval) : Except Int (Int × Timekeeping) :=
  match delta with
  | none => .error EINVAL
  | some d => .ok (c.adjust, { c with adjust := i32 ((d.sec * usecPerSec : Nat) + d.usec) })

/-- The first lines of `clock_update_wall_time`: `nsec`, an `int64_t`, and `sec`. -/
def splitTicks (cfg : Config) (offset : Nat) : Int × Nat :=
  let nsec := i64 (u64 (offset * cfg.nsecPerTick))
  let sec := toU32 (nsec.tdiv nsecPerSec)
  (i64 (nsec - u32 (sec * nsecPerSec)), sec)

/-- The new monotonic time. -/
def advanceMonotonic (base : Timespec) (nsec : Int) (sec : Nat) : Timespec :=
  let ts : Timespec := ⟨u32 (base.sec + sec), i32 (base.nsec + nsec)⟩
  if (nsecPerSec : Int) < ts.nsec then ⟨u32 (ts.sec + 1), i32 (ts.nsec - nsecPerSec)⟩ else ts

/-- `nsec` and `sec` after the carry of the wall time. -/
def carryWall (wall : Timespec) (nsec : Int) (sec : Nat) : Int × Nat :=
  let nsec := i64 (nsec + wall.nsec)
  if (nsecPerSec : Int) < nsec then (nsec - nsecPerSec, u32 (sec + 1)) else (nsec, sec)

/-- The microseconds that one update adjusts: the whole request if it is small enough, and otherwise
`NTP_MAX_ADJUST` for each second. -/
def adjustStep (request : Int) (sec : Nat) : Int :=
  let limit := i32 (ntpMaxAdjust * i32 sec)
  if request < limit ∧ i32 (-limit) < request then request else limit

/-- `while (nsec < 0)`, for at most `fuel` turns. -/
def borrowLoop : Nat → Int → Nat → Int × Nat
  | 0, nsec, sec => (nsec, sec)
  | fuel + 1, nsec, sec =>
    if nsec < 0 then borrowLoop fuel (nsec + nsecPerSec) (sub32 sec 1) else (nsec, sec)

/-- `while (nsec > NSEC_PER_SEC)`, for at most `fuel` turns. -/
def carryLoop : Nat → Int → Nat → Int × Nat
  | 0, nsec, sec => (nsec, sec)
  | fuel + 1, nsec, sec =>
    if (nsecPerSec : Int) < nsec then carryLoop fuel (nsec - nsecPerSec) (u32 (sec + 1))
    else (nsec, sec)

/-- The two loops; each turn moves `nsec` by one second, so these turns are enough. -/
def normalize (nsec : Int) (sec : Nat) : Int × Nat :=
  let (nsec, sec) := borrowLoop (nsec.natAbs / nsecPerSec + 1) nsec sec
  carryLoop (nsec.natAbs / nsecPerSec + 1) nsec sec

/-- The adjustment is made when one is requested and a second has passed. -/
def Timekeeping.adjusts (c : Timekeeping) (sec : Nat) : Prop := c.adjust ≠ 0 ∧ 0 < sec

instance (c : Timekeeping) (sec : Nat) : Decidable (c.adjusts sec) :=
  inferInstanceAs (Decidable (c.adjust ≠ 0 ∧ 0 < sec))

/-- `nsec` when the adjustment is added, before the loops. -/
def adjustedNsec (c : Timekeeping) (nsec : Int) (sec : Nat) : Int :=
  if c.adjusts sec then i64 (nsec + i32 (adjustStep c.adjust sec * nsecPerUsec)) else nsec

/-- `nsec` and `sec` of the wall time at the end of an update; without an adjustment the source
skips both loops. -/
def finishWall (c : Timekeeping) (nsec : Int) (sec : Nat) : Int × Nat :=
  if c.adjusts sec then normalize (adjustedNsec c nsec sec) sec else (nsec, sec)

/-- What `clock_update_wall_time` stores when some ticks are pending. -/
def Timekeeping.update (cfg : Config) (c : Timekeeping) (counter offset : Nat) : Timekeeping :=
  let ticks := splitTicks cfg offset
  let carried := carryWall c.wallTime ticks.1 ticks.2
  let wall := finishWall c carried.1 carried.2
  { c with
    monotonicTime := advanceMonotonic c.monotonicTime ticks.1 ticks.2
    wallTime := ⟨u32 (c.wallTime.sec + wall.2), i32 wall.1⟩
    lastCounter := counter }

/-- `clock_update_wall_time` -/
def clockUpdateWallTime (cfg : Config) (c : Timekeeping) (reading : Reading) : Timekeeping :=
  match reading with
  | .error _ => c
  | .ok counter =>
    if c.offset cfg counter = 0 then c else c.update cfg counter (c.offset cfg counter)

/-! ## What a time says -/

/-- The nanoseconds that a time stands for. -/
def Timespec.value (ts : Timespec) : Int := ts.sec * nsecPerSec + ts.nsec

/-- The nanoseconds are those of a fraction of a second. -/
def Timespec.WellFormed (ts : Timespec) : Prop := 0 ≤ ts.nsec ∧ ts.nsec < nsecPerSec

/-- What the carries of the source keep in every case. -/
def Timespec.Carried (ts : Timespec) : Prop := 0 ≤ ts.nsec ∧ ts.nsec ≤ nsecPerSec

/-- A number of nanoseconds that the carries leave at one second. -/
def FullSecond (nsec : Int) : Prop := 0 < nsec ∧ nsec % nsecPerSec = 0

instance (ts : Timespec) : Decidable ts.WellFormed :=
  inferInstanceAs (Decidable (0 ≤ ts.nsec ∧ ts.nsec < nsecPerSec))

instance (nsec : Int) : Decidable (FullSecond nsec) :=
  inferInstanceAs (Decidable (0 < nsec ∧ nsec % nsecPerSec = 0))

theorem Timespec.WellFormed.carried {ts : Timespec} (h : ts.WellFormed) : ts.Carried :=
  ⟨h.1, h.2.le⟩

/-- Five seconds: below that, `sec * NSEC_PER_SEC` fits in 32 bits. -/
def fiveSeconds : Nat := 5 * nsecPerSec

/-- The nanoseconds of a number of ticks beyond full seconds. -/
def Config.frac (cfg : Config) (offset : Nat) : Nat := offset * cfg.nsecPerTick % nsecPerSec

section Forward

variable {cfg : Config} {c : Timekeeping} {base : Timespec} {offset counter : Nat}

theorem splitTicks_eq (h : offset * cfg.nsecPerTick < fiveSeconds) :
    splitTicks cfg offset = ((cfg.frac offset : Int), offset * cfg.nsecPerTick / nsecPerSec) := by
  simp only [Config.frac]
  generalize hE : offset * cfg.nsecPerTick = elapsed at *
  simp only [fiveSeconds, nsecPerSec] at h
  have hnsec : i64 (u64 elapsed : Nat) = elapsed := by
    rw [u64_eq_self (by omega), i64_eq_self (by omega) (by omega)]
  have hdiv : (elapsed : Int).tdiv (nsecPerSec : Nat) = (elapsed / nsecPerSec : Nat) := by
    rw [Int.tdiv_eq_ediv_of_nonneg (by omega)]
    rfl
  have hsec : toU32 ((elapsed / nsecPerSec : Nat) : Int) = elapsed / nsecPerSec := by
    rw [toU32_eq_toNat (Int.natCast_nonneg _) (by simp only [nsecPerSec]; omega),
      Int.toNat_natCast]
  have hprod : u32 (elapsed / nsecPerSec * nsecPerSec) = elapsed / nsecPerSec * nsecPerSec :=
    u32_eq_self (by simp only [nsecPerSec]; omega)
  simp only [splitTicks, hE, hnsec, hdiv, hsec, hprod]
  refine Prod.ext ?_ rfl
  simp only [nsecPerSec]
  rw [i64_eq_self (by omega) (by omega)]
  omega

/-- A time with the ticks of an offset added. -/
def forward (cfg : Config) (base : Timespec) (offset : Nat) : Timespec :=
  advanceMonotonic base (cfg.frac offset) (offset * cfg.nsecPerTick / nsecPerSec)

theorem frac_lt (cfg : Config) (offset : Nat) : cfg.frac offset < nsecPerSec :=
  Nat.mod_lt _ (by decide)

theorem forward_eq (hb : base.Carried) : forward cfg base offset =
    if (nsecPerSec : Int) < base.nsec + cfg.frac offset then
      ⟨u32 (u32 (base.sec + offset * cfg.nsecPerTick / nsecPerSec) + 1),
        base.nsec + cfg.frac offset - nsecPerSec⟩
    else
      ⟨u32 (base.sec + offset * cfg.nsecPerTick / nsecPerSec), base.nsec + cfg.frac offset⟩ := by
  have hlt := frac_lt cfg offset
  obtain ⟨h0, h1⟩ := hb
  have hi32 : i32 (base.nsec + cfg.frac offset) = base.nsec + cfg.frac offset := by
    simp only [nsecPerSec] at *
    exact i32_eq_self (by omega) (by omega)
  simp only [forward, advanceMonotonic, hi32]
  by_cases hcarry : (nsecPerSec : Int) < base.nsec + cfg.frac offset
  · have hi32' : i32 (base.nsec + cfg.frac offset - nsecPerSec) =
        base.nsec + cfg.frac offset - nsecPerSec := by
      simp only [nsecPerSec] at *
      exact i32_eq_self (by omega) (by omega)
    rw [if_pos hcarry, if_pos hcarry, hi32']
  · rw [if_neg hcarry, if_neg hcarry]

theorem i32_sum {n : Nat} {b : Int} (h0 : 0 ≤ b) (h1 : b ≤ nsecPerSec) (hn : n < nsecPerSec) :
    i32 (n + b.toNat : Nat) = b + n := by
  simp only [nsecPerSec] at *
  rw [i32_eq_self (by omega) (by omega)]
  omega

theorem i32_sum_sub {n : Nat} {b : Int} (h0 : 0 ≤ b) (h1 : b ≤ nsecPerSec) (hn : n < nsecPerSec)
    (hcarry : nsecPerSec < n + b.toNat) :
    i32 (n + b.toNat - nsecPerSec : Nat) = b + n - nsecPerSec := by
  simp only [nsecPerSec] at *
  rw [i32_eq_self (by omega) (by omega)]
  omega

theorem u32_add_one (a b : Nat) : u32 (a + u32 (b + 1)) = u32 (u32 (a + b) + 1) := by
  simp only [u32]
  omega

section

variable (h : offset * cfg.nsecPerTick < fiveSeconds)
include h

theorem u32_seconds :
    u32 (offset * cfg.nsecPerTick / nsecPerSec) = offset * cfg.nsecPerTick / nsecPerSec := by
  simp only [fiveSeconds, nsecPerSec] at *
  exact u32_eq_self (by omega)

theorem sub64_seconds :
    sub64 (offset * cfg.nsecPerTick) (u32 (offset * cfg.nsecPerTick / nsecPerSec * nsecPerSec)) =
      cfg.frac offset := by
  simp only [fiveSeconds, nsecPerSec, Config.frac] at *
  rw [u32_eq_self (by omega), sub64_eq_self (by omega) (by omega)]
  omega

theorem u64_elapsed : u64 (offset * cfg.nsecPerTick) = offset * cfg.nsecPerTick := by
  simp only [fiveSeconds, nsecPerSec] at h
  exact u64_eq_self (by omega)

end

theorem u64_sum (hb : base.Carried) :
    u64 (cfg.frac offset + toU64 base.nsec) = cfg.frac offset + base.nsec.toNat := by
  have hlt := frac_lt cfg offset
  obtain ⟨h0, h1⟩ := hb
  simp only [nsecPerSec] at *
  rw [toU64_eq_toNat h0 (by omega), u64_eq_self (by omega)]

/-- The get routines compute what the update computes for the monotonic time. -/
theorem timeAfter_eq (hb : base.Carried) (h : offset * cfg.nsecPerTick < fiveSeconds) :
    timeAfter cfg base offset = forward cfg base offset := by
  rw [forward_eq hb]
  simp only [timeAfter, u64_elapsed h, u32_seconds h, sub64_seconds h, u64_sum hb]
  have hlt := frac_lt cfg offset
  obtain ⟨h0, h1⟩ := hb
  clear h
  by_cases hcarry : nsecPerSec < cfg.frac offset + base.nsec.toNat
  · rw [if_pos hcarry, if_pos (by omega), i32_sum_sub h0 h1 hlt hcarry, u32_add_one]
  · rw [if_neg hcarry, if_neg (by omega), i32_sum h0 h1 hlt]

theorem forward_carried (hb : base.Carried) : (forward cfg base offset).Carried := by
  have hlt := frac_lt cfg offset
  rw [forward_eq hb]
  obtain ⟨h0, h1⟩ := hb
  split
  · exact ⟨by dsimp only; omega, by dsimp only; omega⟩
  · exact ⟨by dsimp only; omega, by dsimp only; omega⟩

theorem forward_wellFormed (hb : base.WellFormed) (h : ¬ FullSecond (base.nsec + cfg.frac offset)) :
    (forward cfg base offset).WellFormed := by
  have hlt := frac_lt cfg offset
  rw [forward_eq hb.carried]
  obtain ⟨h0, h1⟩ := hb
  by_cases hcarry : (nsecPerSec : Int) < base.nsec + cfg.frac offset
  · rw [if_pos hcarry]
    exact ⟨by dsimp only; omega, by dsimp only; omega⟩
  · rw [if_neg hcarry]
    simp only [FullSecond, nsecPerSec] at *
    exact ⟨by dsimp only; omega, by dsimp only [nsecPerSec]; omega⟩

/-- No time is lost in the carry, as long as the seconds fit in a `time_t`. -/
theorem forward_value (hb : base.Carried)
    (h : base.value + (offset * cfg.nsecPerTick : Nat) < 2 ^ 32 * nsecPerSec) :
    (forward cfg base offset).value = base.value + (offset * cfg.nsecPerTick : Nat) := by
  rw [forward_eq hb]
  obtain ⟨h0, h1⟩ := hb
  by_cases hcarry : (nsecPerSec : Int) < base.nsec + cfg.frac offset
  · rw [if_pos hcarry]
    simp only [Config.frac, Timespec.value, nsecPerSec, u32] at *
    omega
  · rw [if_neg hcarry]
    simp only [Config.frac, Timespec.value, nsecPerSec, u32] at *
    omega

end Forward

/-! ### The loops of the adjustment -/

theorem borrowLoop_spec : ∀ (fuel : Nat) (nsec : Int) (sec : Nat),
    nsec.natAbs / nsecPerSec < fuel →
      0 ≤ (borrowLoop fuel nsec sec).1 ∧
        (borrowLoop fuel nsec sec).1 % nsecPerSec = nsec % nsecPerSec ∧
        (nsec < 0 → (borrowLoop fuel nsec sec).1 < nsecPerSec) ∧
        (0 ≤ nsec → (borrowLoop fuel nsec sec).1 = nsec) := by
  intro fuel
  induction fuel with
  | zero =>
    intro nsec sec hfuel
    exact absurd hfuel (Nat.not_lt_zero _)
  | succ fuel ih =>
    intro nsec sec hfuel
    rw [borrowLoop]
    by_cases hneg : nsec < 0
    · rw [if_pos hneg]
      by_cases hlast : nsec + nsecPerSec < 0
      · -- the next turn borrows again
        have hfuel' : (nsec + nsecPerSec).natAbs / nsecPerSec < fuel := by
          simp only [nsecPerSec] at *
          omega
        obtain ⟨h0, hmod, hlt, -⟩ := ih (nsec + nsecPerSec) (sub32 sec 1) hfuel'
        refine ⟨h0, ?_, fun _ => hlt hlast, fun h => absurd hneg (not_lt.2 h)⟩
        rw [hmod, Int.add_emod_right]
      · -- the loop ends here, whatever is left of the fuel
        have hend : borrowLoop fuel (nsec + nsecPerSec) (sub32 sec 1) =
            (nsec + nsecPerSec, sub32 sec 1) := by
          cases fuel with
          | zero => rfl
          | succ fuel => rw [borrowLoop, if_neg hlast]
        rw [hend]
        refine ⟨not_lt.1 hlast, Int.add_emod_right _ _, fun _ => ?_,
          fun h => absurd hneg (not_lt.2 h)⟩
        omega
    · rw [if_neg hneg]
      exact ⟨not_lt.1 hneg, rfl, fun h => absurd h hneg, fun _ => rfl⟩

theorem carryLoop_spec : ∀ (fuel : Nat) (nsec : Int) (sec : Nat), 0 ≤ nsec →
    nsec.natAbs / nsecPerSec < fuel →
      0 ≤ (carryLoop fuel nsec sec).1 ∧ (carryLoop fuel nsec sec).1 ≤ nsecPerSec ∧
        (carryLoop fuel nsec sec).1 % nsecPerSec = nsec % nsecPerSec ∧
        (nsec = 0 → (carryLoop fuel nsec sec).1 = 0) := by
  intro fuel
  induction fuel with
  | zero =>
    intro nsec sec _ hfuel
    exact absurd hfuel (Nat.not_lt_zero _)
  | succ fuel ih =>
    intro nsec sec h0 hfuel
    rw [carryLoop]
    by_cases hgt : (nsecPerSec : Int) < nsec
    · rw [if_pos hgt]
      have hfuel' : (nsec - nsecPerSec).natAbs / nsecPerSec < fuel := by
        simp only [nsecPerSec] at *
        omega
      obtain ⟨hlo, hhi, hmod, -⟩ := ih (nsec - nsecPerSec) (u32 (sec + 1)) (by omega) hfuel'
      refine ⟨hlo, hhi, by rw [hmod, Int.sub_emod_right], fun h => ?_⟩
      rw [h] at hgt
      exact absurd hgt (by decide)
    · rw [if_neg hgt]
      exact ⟨h0, not_lt.1 hgt, rfl, id⟩

theorem normalize_spec (nsec : Int) (sec : Nat) :
    0 ≤ (normalize nsec sec).1 ∧ (normalize nsec sec).1 ≤ nsecPerSec ∧
      (¬ FullSecond nsec → (normalize nsec sec).1 < nsecPerSec) := by
  obtain ⟨hb0, hbmod, hblt, hbeq⟩ := borrowLoop_spec _ nsec sec (Nat.lt_succ_self _)
  obtain ⟨h0, h1, hmod, hzero⟩ := carryLoop_spec _ _
    (borrowLoop (nsec.natAbs / nsecPerSec + 1) nsec sec).2 hb0 (Nat.lt_succ_self _)
  refine ⟨h0, h1, fun hfull => lt_of_le_of_ne h1 fun heq => hfull ?_⟩
  -- one second is left, so the loops were given a multiple of a second that is not zero
  have hdvd : nsec % nsecPerSec = 0 := by
    rw [← hbmod, ← hmod]
    have heq' := congrArg (· % (nsecPerSec : Int)) heq
    exact heq'.trans (Int.emod_self)
  refine ⟨?_, hdvd⟩
  by_contra hpos
  have hb : (borrowLoop (nsec.natAbs / nsecPerSec + 1) nsec sec).1 = 0 := by
    rcases Int.lt_or_eq_of_le (not_lt.1 hpos) with hneg | hz
    · -- a multiple below one second is zero
      rw [← hbmod] at hdvd
      rwa [Int.emod_eq_of_lt hb0 (hblt hneg)] at hdvd
    · rw [hbeq hz.ge, hz]
  rw [show (normalize nsec sec).1 = 0 from hzero hb] at heq
  exact absurd heq (by decide)

end BaseNx.Clock
