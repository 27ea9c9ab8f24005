import BaseNx.Clock.Timekeeping

/-!
# Times and ticks

The conversions between a `struct timespec` and a number of clock ticks in the ticked build with a
64-bit system time: `clock_time2ticks` rounds up, `clock_ticks2time` goes back, and
`clock_abstime2ticks` measures from the present value of `CLOCK_REALTIME`, which is a base time plus
the ticks since boot.

`clockTime2ticks_spec`, `clockGettime_value` and `clockAbstime2ticks_spec` say what they compute for
times whose tick count fits in 31 bits.

Without `CONFIG_SYSTEM_TIME64` the tick counts have 32 bits. `clock_systimespec` then forms its
product in them (`systimespec_exact`), and `clock_abstime2ticks` narrows its quotient to them
(`abstime_in_ticks`); both are right only for values that fit.
-/

namespace BaseNx.Clock

open Lib

/-! ## The functions of the source -/

/-- `CONFIG_USEC_PER_TICK`, at most a second, and `g_basetime`. -/
structure TickConfig where
  usecPerTick : Nat
  basetime : Timespec
  usecPerTick_pos : 0 < usecPerTick
  usecPerTick_le : usecPerTick ≤ usecPerSec
  basetime_wellFormed : basetime.WellFormed

variable (cfg : TickConfig) (systimer : Nat)

/-- `NSEC_PER_TICK` -/
def TickConfig.nsecPerTick : Nat := cfg.usecPerTick * nsecPerUsec

/-- `TICK_PER_SEC`, which truncates. -/
def TickConfig.tickPerSec : Nat := usecPerSec / cfg.usecPerTick

/-- `MSEC_PER_SEC`, `USEC_PER_MSEC` and `NSEC_PER_MSEC` -/
def msecPerSec : Nat := 1000

@[inherit_doc msecPerSec]
def usecPerMsec : Nat := 1000

@[inherit_doc msecPerSec]
def nsecPerMsec : Nat := 1000000

/-- `clock_time2ticks` -/
def clockTime2ticks (reltime : Timespec) : Int :=
  let relnsec := i64 (i64 (reltime.sec * nsecPerSec) + reltime.nsec)
  (i64 (i64 (relnsec + cfg.nsecPerTick) - 1)).tdiv cfg.nsecPerTick

/-- `clock_ticks2time` -/
def clockTicks2time (ticks : Int) : Timespec :=
  let sec := toU32 (ticks.tdiv cfg.tickPerSec)
  let remainder := i64 (ticks - i64 (cfg.tickPerSec * sec))
  ⟨sec, i32 (i64 (remainder * cfg.nsecPerTick))⟩

/-- `clock_systimespec`: with microseconds where the tick is no whole number of milliseconds. -/
def clockSystimespec : Timespec :=
  if cfg.usecPerTick % usecPerMsec ≠ 0 then
    let usecs := u64 (systimer * cfg.usecPerTick)
    let secs := usecs / usecPerSec
    ⟨u32 secs, i32 (u64 (sub64 usecs (u64 (secs * usecPerSec)) * nsecPerUsec))⟩
  else
    let msecs := u64 (systimer * (cfg.usecPerTick / usecPerMsec))
    let secs := msecs / msecPerSec
    ⟨u32 secs, i32 (u64 (sub64 msecs (u64 (secs * msecPerSec)) * nsecPerMsec))⟩

/-- `clock_gettime` of `CLOCK_REALTIME` when `g_system_timer` is `systimer`. -/
def clockGettime : Timespec :=
  let ts := clockSystimespec cfg systimer
  let sec := u32 (ts.sec + cfg.basetime.sec)
  let nsec := i32 (ts.nsec + cfg.basetime.nsec)
  if nsec < nsecPerSec then ⟨sec, nsec⟩
  else
    let carry := nsec.tdiv nsecPerSec
    ⟨toU32 (sec + carry), i32 (nsec - i32 (carry * nsecPerSec))⟩

/-- `compare_timespec` -/
def compareTimespec (a b : Timespec) : Int :=
  if a.sec < b.sec then -1 else if b.sec < a.sec then 1 else i32 (a.nsec - b.nsec)

/-- `clock_abstime2ticks` for `CLOCK_REALTIME` at the tick `systimer`. -/
def clockAbstime2ticks (abstime : Timespec) : Int :=
  let currtime := clockGettime cfg systimer
  if compareTimespec abstime currtime < 0 then -1
  else
    let nsec := i32 (abstime.nsec - currtime.nsec)
    let sec := sub32 abstime.sec currtime.sec
    clockTime2ticks cfg (if nsec < 0 then ⟨sub32 sec 1, i32 (nsec + nsecPerSec)⟩ else ⟨sec, nsec⟩)

/-! ### With a system time of 32 bits -/

/-- `usecs` or `msecs`, of which `per` are a second, as seconds and nanoseconds. -/
def splitUnits (units per nsec : Nat) : Timespec :=
  ⟨u32 (units / per), i32 (u64 (sub64 units (u64 (units / per * per)) * nsec))⟩

/-- `clock_systimespec` with a `clock_t` of 32 bits: `TICK2USEC` and `TICK2MSEC` multiply in that
type, and the product is converted to 64 bits afterwards. -/
def clockSystimespec32 : Timespec :=
  if cfg.usecPerTick % usecPerMsec ≠ 0 then
    splitUnits (u32 (systimer * cfg.usecPerTick)) usecPerSec nsecPerUsec
  else splitUnits (u32 (systimer * (cfg.usecPerTick / usecPerMsec))) msecPerSec nsecPerMsec

/-- The time that `clock_abstime2ticks` converts. -/
def reltime (currtime abstime : Timespec) : Timespec :=
  let nsec := i32 (abstime.nsec - currtime.nsec)
  let sec := sub32 abstime.sec currtime.sec
  if nsec < 0 then ⟨sub32 sec 1, i32 (nsec + nsecPerSec)⟩ else ⟨sec, nsec⟩

/-- `clock_abstime2ticks` with an `sclock_t` of 32 bits, when `clock_gettime` gives `currtime`. -/
def clockAbstime2ticks32 (currtime abstime : Timespec) : Int :=
  if compareTimespec abstime currtime < 0 then -1
  else i32 (clockTime2ticks cfg (reltime currtime abstime))

/-! ## What they compute -/

section Conversions

variable (cfg : TickConfig)

theorem TickConfig.nsecPerTick_pos : 0 < cfg.nsecPerTick :=
  mul_pos cfg.usecPerTick_pos (by decide)

theorem TickConfig.nsecPerTick_le : cfg.nsecPerTick ≤ nsecPerSec :=
  Nat.mul_le_mul_right nsecPerUsec cfg.usecPerTick_le

/-- The times that are not too long for a delay: their tick count is below the largest `int32_t`. -/
def TickConfig.Fits (nsec : Int) : Prop := nsec ≤ (int32Max - 1) * cfg.nsecPerTick

instance TickConfig.decidableFits (nsec : Int) : Decidable (cfg.Fits nsec) :=
  inferInstanceAs (Decidable (_ ≤ _))

theorem TickConfig.Fits.lt {cfg : TickConfig} {nsec : Int} (h : cfg.Fits nsec) :
    nsec < 2147483647000000000 := by
  have hle : (cfg.nsecPerTick : Int) ≤ 1000000000 := by exact_mod_cast cfg.nsecPerTick_le
  unfold TickConfig.Fits int32Max at h
  nlinarith

/-- `ticks` is the time `nsec` in ticks, rounded up. -/
structure RoundsUp (nsec ticks : Int) : Prop where
  nonneg : 0 ≤ ticks
  lower : nsec ≤ ticks * cfg.nsecPerTick
  upper : ticks * cfg.nsecPerTick < nsec + cfg.nsecPerTick
  bound : ticks < int32Max

theorem RoundsUp.pos {cfg : TickConfig} {nsec ticks : Int} (h : RoundsUp cfg nsec ticks)
    (hn : 0 < nsec) : 0 < ticks := by
  have hlow := h.lower
  by_contra hle
  have : ticks * cfg.nsecPerTick ≤ 0 := by nlinarith [h.nonneg]
  omega

variable {t : Timespec}

/-- `clock_time2ticks` rounds up, while no sum leaves the 64 bits. -/
theorem clockTime2ticks_ceil (ht : t.WellFormed) (hlt : t.value < 9000000000 * nsecPerSec) :
    0 ≤ clockTime2ticks cfg t ∧
      t.value ≤ clockTime2ticks cfg t * cfg.nsecPerTick ∧
      clockTime2ticks cfg t * cfg.nsecPerTick < t.value + cfg.nsecPerTick := by
  obtain ⟨h0, h1⟩ := ht
  have hle : (cfg.nsecPerTick : Int) ≤ 1000000000 := by exact_mod_cast cfg.nsecPerTick_le
  have hpos : (0 : Int) < cfg.nsecPerTick := by exact_mod_cast cfg.nsecPerTick_pos
  simp only [Timespec.value, nsecPerSec] at *
  have heq : clockTime2ticks cfg t =
      ((t.sec : Int) * 1000000000 + t.nsec + cfg.nsecPerTick - 1) / cfg.nsecPerTick := by
    simp only [clockTime2ticks, nsecPerSec]
    push_cast
    rw [i64_eq_self (x := (t.sec : Int) * 1000000000) (by omega) (by omega),
      i64_eq_self (x := (t.sec : Int) * 1000000000 + t.nsec) (by omega) (by omega),
      i64_eq_self (x := (t.sec : Int) * 1000000000 + t.nsec + cfg.nsecPerTick) (by omega)
      (by omega),
      i64_eq_self (by omega) (by omega), Int.tdiv_eq_ediv_of_nonneg (by omega)]
  obtain ⟨x, hx⟩ : ∃ x : Int, x = t.sec * 1000000000 + t.nsec + cfg.nsecPerTick - 1 := ⟨_, rfl⟩
  rw [heq, ← hx]
  have hdiv := Int.mul_ediv_add_emod x cfg.nsecPerTick
  have hmod := Int.emod_lt_of_pos x hpos
  have hmod0 := Int.emod_nonneg x hpos.ne'
  rw [mul_comm] at hdiv
  exact ⟨Int.ediv_nonneg (by omega) hpos.le, by omega, by omega⟩

/-- A count that rounds up is small if the time is. -/
theorem ticks_le {nsec ticks k : Int} (hupper : ticks * cfg.nsecPerTick < nsec + cfg.nsecPerTick)
    (h : nsec ≤ k * cfg.nsecPerTick) : ticks ≤ k := by
  have hpos : (0 : Int) < cfg.nsecPerTick := by exact_mod_cast cfg.nsecPerTick_pos
  by_contra hgt
  have : (k + 1) * cfg.nsecPerTick ≤ ticks * cfg.nsecPerTick :=
    mul_le_mul_of_nonneg_right (by omega) hpos.le
  rw [add_mul] at this
  omega

theorem clockTime2ticks_spec (ht : t.WellFormed) (hf : cfg.Fits t.value) :
    RoundsUp cfg t.value (clockTime2ticks cfg t) := by
  have hlt := hf.lt
  obtain ⟨h0, hlower, hupper⟩ := clockTime2ticks_ceil cfg ht (by simp only [nsecPerSec]; omega)
  have hle := ticks_le cfg hupper hf
  exact ⟨h0, hlower, hupper, by omega⟩

theorem cut_units (x : Nat) {per nsec : Nat} (hper : per * nsec = 1000000000) :
    ∃ q r, x / per = q ∧ q * per + r = x ∧ r * nsec < 1000000000 ∧
      x * nsec = q * 1000000000 + r * nsec := by
  have hpos : 0 < per := pos_of_ne_zero (by rintro rfl; simp at hper)
  have hnpos : 0 < nsec := pos_of_ne_zero (by rintro rfl; simp at hper)
  refine ⟨_, x % per, rfl, Nat.div_add_mod' x per, ?_, ?_⟩
  · rw [← hper]
    exact Nat.mul_lt_mul_of_pos_right (Nat.mod_lt x hpos) hnpos
  · rw [← hper, ← mul_assoc, ← add_mul, Nat.div_add_mod']

/-- Where the tick divides the second, `clock_ticks2time` gives the ticks back as a time. -/
theorem clockTicks2time_value (hdvd : cfg.usecPerTick ∣ usecPerSec) {ticks : Int} (h0 : 0 ≤ ticks)
    (hm : ticks ≤ int32Max) :
    (clockTicks2time cfg ticks).value = ticks * cfg.nsecPerTick ∧
      (clockTicks2time cfg ticks).WellFormed := by
  obtain ⟨per, hper⟩ := hdvd
  have htps : cfg.tickPerSec = per := by
    rw [TickConfig.tickPerSec, hper, Nat.mul_div_cancel_left per cfg.usecPerTick_pos]
  -- a second is `per` ticks
  have hsec : per * cfg.nsecPerTick = 1000000000 := by
    rw [TickConfig.nsecPerTick, nsecPerUsec, ← mul_assoc, mul_comm per, ← hper]
    rfl
  obtain ⟨n, rfl⟩ := Int.eq_ofNat_of_zero_le h0
  have hn : n ≤ 2147483647 := by unfold int32Max at hm; omega
  obtain ⟨q, r, hq, hmul, hrem, hval⟩ := cut_units n hsec
  have hqn : q ≤ n := hq ▸ Nat.div_le_self n per
  have hres : clockTicks2time cfg n = ⟨q, (r * cfg.nsecPerTick : Nat)⟩ := by
    have hs : toU32 ((n : Int).tdiv (cfg.tickPerSec : Int)) = q := by
      rw [htps, Int.tdiv_eq_ediv_of_nonneg (by omega), ← Int.natCast_div, hq,
        toU32_eq_toNat (by omega) (by omega), Int.toNat_natCast]
    have hr : i64 ((n : Int) - i64 ((per : Int) * q)) = r := by
      rw [← Nat.cast_mul, mul_comm per, i64_eq_self (x := (q * per : Nat)) (by omega) (by omega),
        i64_eq_self (by omega) (by omega)]
      omega
    simp only [clockTicks2time, hs]
    rw [htps, hr, ← Nat.cast_mul, i64_eq_self (by omega) (by omega),
      i32_eq_self (by omega) (by omega)]
  rw [hres]
  refine ⟨?_, Int.natCast_nonneg _, Int.ofNat_lt.2 hrem⟩
  show (q : Int) * (1000000000 : Nat) + (r * cfg.nsecPerTick : Nat) = _
  exact_mod_cast hval.symm

/-! ## The real-time clock -/

/-- The value of `CLOCK_REALTIME` at a tick. -/
def TickConfig.realtime (systimer : Nat) : Int :=
  cfg.basetime.value + systimer * cfg.nsecPerTick

/-- `time_t` has not wrapped yet. -/
def TickConfig.Counts (systimer : Nat) : Prop := cfg.realtime systimer < 4294967296 * nsecPerSec

instance TickConfig.decidableCounts (systimer : Nat) : Decidable (cfg.Counts systimer) :=
  inferInstanceAs (Decidable (_ < _))

/-- `x` units of `1 / per` second are cut into seconds and nanoseconds. -/
theorem split_units (x : Nat) {per nsec : Nat} (hper : per * nsec = 1000000000)
    (hx : x * nsec < 4294967296 * 1000000000) :
    (splitUnits x per nsec).value = x * nsec ∧ (splitUnits x per nsec).WellFormed := by
  have hnpos : 0 < nsec := pos_of_ne_zero (by rintro rfl; simp at hper)
  have hxle : x ≤ x * nsec := Nat.le_mul_of_pos_right x hnpos
  obtain ⟨q, r, hq, hmul, hrlt, hval⟩ := cut_units x hper
  unfold splitUnits
  have hsub : sub64 x (u64 (q * per)) = r := by
    rw [u64_eq_self (by omega), sub64_eq_self (by omega) (by omega)]
    omega
  rw [hq, hsub, u64_eq_self (by omega), u32_eq_self (by omega), i32_eq_self (by omega) (by omega)]
  refine ⟨?_, ?_⟩
  · show (q : Int) * (1000000000 : Nat) + (r * nsec : Nat) = _
    exact_mod_cast hval.symm
  · exact ⟨Int.natCast_nonneg _, Int.ofNat_lt.2 hrlt⟩

/-- What `clock_systimespec` counts in: microseconds where the tick is no whole number of
milliseconds, and otherwise milliseconds. -/
def TickConfig.unitsPerTick : Nat :=
  if cfg.usecPerTick % usecPerMsec ≠ 0 then cfg.usecPerTick else cfg.usecPerTick / usecPerMsec

/-- Both branches of `clock_systimespec`, for the two widths of a tick count. -/
theorem systimespec_units : ∃ per nsec, per * nsec = 1000000000 ∧ nsec ≤ 1000000 ∧
    cfg.unitsPerTick * nsec = cfg.nsecPerTick ∧
    (∀ t, clockSystimespec cfg t = splitUnits (u64 (t * cfg.unitsPerTick)) per nsec) ∧
    ∀ t, clockSystimespec32 cfg t = splitUnits (u32 (t * cfg.unitsPerTick)) per nsec := by
  unfold clockSystimespec clockSystimespec32 TickConfig.unitsPerTick
  split
  · exact ⟨usecPerSec, nsecPerUsec, rfl, by decide, rfl, fun _ => rfl, fun _ => rfl⟩
  · next hmod =>
    refine ⟨msecPerSec, nsecPerMsec, rfl, by decide, ?_, fun _ => rfl, fun _ => rfl⟩
    rw [TickConfig.nsecPerTick, show nsecPerMsec = usecPerMsec * nsecPerUsec from rfl, ← mul_assoc,
      Nat.div_mul_cancel (Nat.dvd_of_mod_eq_zero (not_not.1 hmod))]

variable {systimer : Nat}

theorem clockSystimespec_value (h : systimer * cfg.nsecPerTick < 4294967296 * 1000000000) :
    (clockSystimespec cfg systimer).value = systimer * cfg.nsecPerTick ∧
      (clockSystimespec cfg systimer).WellFormed := by
  obtain ⟨per, nsec, hper, -, hunits, heq, -⟩ := systimespec_units cfg
  have hnpos : 0 < nsec := pos_of_ne_zero (by rintro rfl; simp at hper)
  have hle := Nat.le_mul_of_pos_right (systimer * cfg.unitsPerTick) hnpos
  rw [← hunits, ← mul_assoc] at h
  rw [heq, u64_eq_self (by omega), ← hunits]
  have hs := split_units _ hper h
  push_cast at hs ⊢
  rwa [← mul_assoc]

/-- With a system time of 32 bits the nanoseconds are those of a fraction of a second, and the time
is exact if and only if the product of `TICK2USEC` or `TICK2MSEC` fits in 32 bits. -/
theorem systimespec_exact (systimer : Nat) : (clockSystimespec32 cfg systimer).WellFormed ∧
    ((clockSystimespec32 cfg systimer).value = systimer * cfg.nsecPerTick ↔
      systimer * cfg.unitsPerTick < 2 ^ 32) := by
  obtain ⟨per, nsec, hper, hle, hunits, -, heq⟩ := systimespec_units cfg
  have hnpos : 0 < nsec := pos_of_ne_zero (by rintro rfl; simp at hper)
  have hlt : u32 (systimer * cfg.unitsPerTick) < 4294967296 := Nat.mod_lt _ (by decide)
  obtain ⟨hval, hw⟩ := split_units (u32 (systimer * cfg.unitsPerTick)) hper (by nlinarith)
  rw [heq, hval, ← hunits]
  refine ⟨hw, ?_⟩
  rw [← Nat.cast_mul, ← Nat.cast_mul, Nat.cast_inj, ← mul_assoc, Nat.mul_left_inj hnpos.ne', u32]
  exact ⟨fun h => h ▸ hlt, Nat.mod_eq_of_lt⟩

/-- A tick of ten milliseconds. -/
def hundredHertz : TickConfig := ⟨10000, ⟨0, 0⟩, by decide, by decide, by decide⟩

/-- After 49 days with ticks of ten milliseconds the time starts from zero. -/
theorem systimespec_restarts : clockSystimespec32 hundredHertz 429496730 = ⟨0, 4000000⟩ := by
  decide

theorem clockGettime_value (h : cfg.Counts systimer) :
    (clockGettime cfg systimer).value = cfg.realtime systimer ∧
      (clockGettime cfg systimer).WellFormed ∧ (clockGettime cfg systimer).sec < 4294967296 := by
  obtain ⟨hb0, hb1⟩ := cfg.basetime_wellFormed
  unfold TickConfig.Counts TickConfig.realtime at h
  simp only [Timespec.value, nsecPerSec] at h hb1
  have hsys : systimer * cfg.nsecPerTick < 4294967296 * 1000000000 := by
    have : ((systimer * cfg.nsecPerTick : Nat) : Int) < 4294967296 * 1000000000 := by
      omega
    exact_mod_cast this
  obtain ⟨hval, hn0, hn1⟩ := clockSystimespec_value cfg hsys
  simp only [Timespec.value, nsecPerSec] at hval hn1
  unfold clockGettime TickConfig.realtime
  generalize clockSystimespec cfg systimer = ts at hval hn0 hn1 ⊢
  have hsec : u32 (ts.sec + cfg.basetime.sec) = ts.sec + cfg.basetime.sec := u32_eq_self (by omega)
  have hnsec : i32 (ts.nsec + cfg.basetime.nsec) = ts.nsec + cfg.basetime.nsec :=
    i32_eq_self (by omega) (by omega)
  simp only [hsec, hnsec]
  split
  · next hlt =>
    simp only [Timespec.WellFormed, Timespec.value, nsecPerSec] at hlt ⊢
    exact ⟨by omega, ⟨by omega, by omega⟩, by omega⟩
  · -- both summands are less than a second, so the carry is one
    next hge =>
    simp only [Timespec.WellFormed, Timespec.value, nsecPerSec] at hge ⊢
    push_cast at hge ⊢
    have hcarry : (ts.nsec + cfg.basetime.nsec).tdiv 1000000000 = 1 := by
      rw [Int.tdiv_eq_ediv_of_nonneg (by omega)]
      omega
    have hsec' : toU32 ((ts.sec : Int) + cfg.basetime.sec + 1) =
        ts.sec + cfg.basetime.sec + 1 := by
      rw [toU32_eq_toNat (by omega) (by omega)]
      omega
    rw [hcarry, hsec', i32_eq_self (x := 1 * 1000000000) (by omega) (by omega),
      i32_eq_self (by omega) (by omega)]
    exact ⟨by push_cast; omega, ⟨by omega, by omega⟩, by omega⟩

/-- `compare_timespec` orders well-formed times by their values. -/
theorem compareTimespec_spec {a b : Timespec} (ha : a.WellFormed) (hb : b.WellFormed) :
    compareTimespec a b < 0 ↔ a.value < b.value := by
  obtain ⟨ha0, ha1⟩ := ha
  obtain ⟨hb0, hb1⟩ := hb
  simp only [Timespec.value, nsecPerSec] at *
  unfold compareTimespec
  split
  · constructor <;> intro <;> omega
  · split
    · constructor <;> intro <;> omega
    · rw [i32_eq_self (by omega) (by omega)]
      constructor <;> intro <;> omega

theorem reltime_spec {now : Timespec} (hn : now.WellFormed) (ht : t.WellFormed)
    (hns : now.sec < 4294967296) (hts : t.sec < 4294967296) (hle : now.value ≤ t.value) :
    (reltime now t).value = t.value - now.value ∧ (reltime now t).WellFormed := by
  obtain ⟨ht0, ht1⟩ := ht
  obtain ⟨hn0, hn1⟩ := hn
  simp only [Timespec.value, nsecPerSec] at hle ht1 hn1
  unfold reltime
  rw [i32_eq_self (x := t.nsec - now.nsec) (by omega) (by omega),
    sub32_eq_self (x := t.sec) (by omega) (by omega)]
  simp only [Timespec.value, Timespec.WellFormed, nsecPerSec]
  split_ifs
  · -- borrow a second
    rw [sub32_eq_self (by omega) (by omega), i32_eq_self (by omega) (by omega)]
    push_cast
    omega
  · push_cast
    omega

/-- `clock_abstime2ticks` is negative for a time that has passed, and otherwise the time left in
ticks, rounded up. -/
theorem clockAbstime2ticks_spec (hc : cfg.Counts systimer) (ht : t.WellFormed)
    (hts : t.sec < 4294967296) (hf : cfg.Fits (t.value - cfg.realtime systimer)) :
    if t.value < cfg.realtime systimer then clockAbstime2ticks cfg systimer t = -1
    else RoundsUp cfg (t.value - cfg.realtime systimer) (clockAbstime2ticks cfg systimer t) := by
  obtain ⟨hval, hw, hsec⟩ := clockGettime_value cfg hc
  have heq : clockAbstime2ticks cfg systimer t =
      if compareTimespec t (clockGettime cfg systimer) < 0 then -1
      else clockTime2ticks cfg (reltime (clockGettime cfg systimer) t) := rfl
  rw [← hval] at hf ⊢
  rw [heq]
  simp only [compareTimespec_spec ht hw]
  split_ifs with hlt
  · rfl
  · obtain ⟨hv, hrel⟩ := reltime_spec hw ht hsec hts (not_lt.1 hlt)
    rw [← hv] at hf ⊢
    exact clockTime2ticks_spec cfg hrel hf

/-- The ticks until a time, or the largest count if they do not fit; negative if the time has
passed. -/
def TicksUntil (now t : Timespec) (ticks : Int) : Prop :=
  (ticks < 0 ↔ t.value < now.value) ∧
    (now.value ≤ t.value →
      t.value - now.value ≤ ticks * cfg.nsecPerTick ∧
          (now.value < t.value → (ticks - 1) * cfg.nsecPerTick < t.value - now.value) ∨
        ticks = int32Max ∧ int32Max * cfg.nsecPerTick < t.value - now.value)

/-- With a tick count of 32 bits, `clock_abstime2ticks` is the time left in ticks if and only if
these fit, or their lower half is the largest count. -/
theorem abstime_in_ticks {now t : Timespec} (hn : now.WellFormed) (ht : t.WellFormed)
    (hns : now.sec < 2 ^ 32) (hts : t.sec < 2 ^ 32) :
    TicksUntil cfg now t (clockAbstime2ticks32 cfg now t) ↔
      t.value - now.value ≤ int32Max * cfg.nsecPerTick ∨
        (t.value - now.value + cfg.nsecPerTick - 1) / cfg.nsecPerTick % 2 ^ 32 = int32Max := by
  have htick := cfg.nsecPerTick_pos
  unfold clockAbstime2ticks32 TicksUntil
  simp only [compareTimespec_spec ht hn]
  split_ifs with hlt
  · refine iff_of_true ⟨by simp [hlt], fun h => absurd hlt (not_lt.2 h)⟩ (.inl ?_)
    have : (0 : Int) ≤ int32Max * cfg.nsecPerTick := mul_nonneg (by decide) (by omega)
    omega
  · obtain ⟨hv, hrel⟩ := reltime_spec hn ht hns hts (not_lt.1 hlt)
    have hbound : (reltime now t).value < 9000000000 * nsecPerSec := by
      obtain ⟨-, ht1⟩ := ht
      obtain ⟨hn0, -⟩ := hn
      rw [hv]
      simp only [Timespec.value, nsecPerSec] at ht1 ⊢
      omega
    obtain ⟨h0, hlower, hupper⟩ := clockTime2ticks_ceil cfg hrel hbound
    rw [hv] at hlower hupper
    generalize clockTime2ticks cfg (reltime now t) = n at h0 hlower hupper ⊢
    have hceil : (t.value - now.value + cfg.nsecPerTick - 1) / cfg.nsecPerTick = n := by
      rw [Int.ediv_eq_iff_of_pos (by omega)]
      constructor <;> linarith
    rw [hceil]
    by_cases hfits : t.value - now.value ≤ int32Max * cfg.nsecPerTick
    · have hle := ticks_le cfg hupper hfits
      rw [i32_eq_self (by omega) hle, sub_one_mul]
      exact iff_of_true ⟨iff_of_false (by omega) hlt, fun _ => .inl ⟨hlower, fun _ => by omega⟩⟩
        (.inl hfits)
    · -- a count of 32 bits is too small, unless the narrowed one happens to be the largest
      have hmax : i32 n ≤ int32Max := by
        simp only [i32, int32Max, Int.bmod_def]
        omega
      have hsmall : ¬ t.value - now.value ≤ i32 n * cfg.nsecPerTick := fun h =>
        hfits (h.trans (mul_le_mul_of_nonneg_right hmax (by omega)))
      have hwrap : i32 n = int32Max ↔ n % 2 ^ 32 = int32Max := by
        simp only [i32, int32Max, Int.bmod_def]
        omega
      rw [← hwrap]
      constructor
      · exact fun h => .inr ((h.2 (not_lt.1 hlt)).resolve_left fun hup => hsmall hup.1).1
      · intro h
        have heq := h.resolve_left hfits
        exact ⟨iff_of_false (by simp [heq, int32Max]) hlt, fun _ => .inr ⟨heq, not_le.1 hfits⟩⟩

theorem abstime_in_ticks_sample :
    TicksUntil hundredHertz ⟨5, 0⟩ ⟨5, 10000001⟩
      (clockAbstime2ticks32 hundredHertz ⟨5, 0⟩ ⟨5, 10000001⟩) :=
  (abstime_in_ticks hundredHertz (by decide) (by decide) (by decide) (by decide)).2
    (.inl (by decide))

/-- A deadline that is 249 days ahead is taken for one that has passed. -/
theorem abstime_far_ahead :
    clockAbstime2ticks32 hundredHertz ⟨0, 0⟩ ⟨21474837, 0⟩ = -2147483596 := by
  decide

end Conversions

end BaseNx.Clock
