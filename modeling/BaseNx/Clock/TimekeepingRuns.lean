import BaseNx.Clock.Timekeeping
import BaseNx.Lib.Reach

/-!
# Runs of the timekeeping clocks

The hardware counter runs freely, and less than one wrap of it passes between two calls of
`clock_update_wall_time`. Two results are about whole runs, each under its own condition on the
steps:

* the nanoseconds of every time stay below one second, unless a sum is exactly one second: all four
  carries of the source compare with `>`;
* the monotonic time is the number of counter ticks times the length of a tick, unless the wall time
  is set while ticks are pending: `clock_timekeeping_set_wall_time` moves the common reading without
  moving the monotonic time.

Both need less than five seconds between two updates, as `sec * NSEC_PER_SEC` has 32 bits.
`timekeeping_failures` has a run for each of the three conditions.
-/

namespace BaseNx.Clock

open Lib

/-! ## The counter -/

variable {c : Timekeeping} {last : Nat}

/-- A difference of two counter values is the number of ticks between them, if that is less than one
wrap of the counter. -/
theorem offset_eq {cfg : Config} {ticks : Nat} (hlast : c.lastCounter = last % 2 ^ cfg.width)
    (hle : last ≤ ticks) (hwrap : ticks - last < 2 ^ cfg.width) :
    c.offset cfg (ticks % 2 ^ cfg.width) = ticks - last := by
  obtain ⟨d, rfl⟩ := Nat.exists_eq_add_of_le hle
  rw [Nat.add_sub_cancel_left] at hwrap ⊢
  obtain ⟨q, hq⟩ : 2 ^ cfg.width ∣ 2 ^ 64 := Nat.pow_dvd_pow 2 cfg.width_le
  simp only [Timekeeping.offset, Config.mask, Nat.and_two_pow_sub_one_eq_mod, sub64, u64, hlast]
  generalize 2 ^ cfg.width = M at *
  have hM : 0 < M := Nat.pos_of_ne_zero fun h => by rw [h] at hwrap; exact Nat.not_lt_zero _ hwrap
  have hb : last % M < M := Nat.mod_lt _ hM
  have hqpos : 0 < q := pos_of_ne_zero fun h => by
    rw [h, mul_zero] at hq
    exact absurd hq (by decide)
  have hMle : M ≤ M * q := Nat.le_mul_of_pos_right M hqpos
  rw [hq, Nat.mod_mod_of_dvd _ (Dvd.intro q rfl), Nat.mod_eq_of_lt (b := M * q) (by omega)]
  rw [Nat.add_mod last d M, Nat.mod_eq_of_lt hwrap]
  generalize last % M = b at *
  -- either the counter has wrapped once since the last reading, or not at all
  rcases lt_or_ge (b + d) M with hlt | hge
  · rw [Nat.mod_eq_of_lt hlt, show b + d + (M * q - b) = d + M * q by omega,
      Nat.add_mul_mod_self_left, Nat.mod_eq_of_lt hwrap]
  · have hsub : (b + d) % M = b + d - M := by
      rw [Nat.mod_eq_sub_mod hge, Nat.mod_eq_of_lt (by omega)]
    obtain ⟨r, rfl⟩ : ∃ r, q = r + 1 := ⟨q - 1, by omega⟩
    rw [hsub, Nat.mul_succ, show b + d - M + (M * r + M - b) = d + M * r by
      rw [Nat.mul_succ] at hMle; omega, Nat.add_mul_mod_self_left, Nat.mod_eq_of_lt hwrap]

/-! ## Runs -/

/-- The variables with what has happened: the ticks of the counter since it was zero, the ticks at
the last update, the times that were returned, and the monotonic ones with the ticks at the call. -/
structure History where
  clock : Timekeeping
  ticks : Nat
  updated : Nat
  returned : List Timespec
  monotonic : List (Nat × Timespec)

/-- The counter advances, or a routine is called; `err` is the error of `up_timer_getcounter`, if it
has one. -/
inductive Event
  | advance (n : Nat)
  | updateWallTime (err : Option Int)
  | setWallTime (ts : Timespec) (err : Option Int)
  | adjtime (delta : Option Timeval)
  | getMonotonicTime (err : Option Int)
  | getWallTime (err : Option Int)

variable (cfg : Config) (s : History) (e : Event)

/-- What `up_timer_getcounter` gives. -/
def History.reading : Option Int → Reading
  | none => .ok (s.ticks % 2 ^ cfg.width)
  | some ret => .error ret

/-- The ticks that are pending at a call. -/
def History.pending : Nat :=
  s.clock.offset cfg (s.ticks % 2 ^ cfg.width)

def History.apply : Event → Option History
  | .advance n => some { s with ticks := s.ticks + n }
  | .updateWallTime err =>
    some { s with
      clock := clockUpdateWallTime cfg s.clock (s.reading cfg err)
      updated := if err = none then s.ticks else s.updated }
  | .setWallTime ts err =>
    some { s with clock := (clockTimekeepingSetWallTime s.clock ts (s.reading cfg err)).2 }
  | .adjtime delta =>
    match Clock.adjtime s.clock delta with
    | .error _ => some s
    | .ok (_, c) => some { s with clock := c }
  | .getMonotonicTime err =>
    match clockTimekeepingGetMonotonicTime cfg s.clock (s.reading cfg err) with
    | .error _ => some s
    | .ok ts =>
      some { s with returned := ts :: s.returned, monotonic := (s.ticks, ts) :: s.monotonic }
  | .getWallTime err =>
    match clockTimekeepingGetWallTime cfg s.clock (s.reading cfg err) with
    | .error _ => some s
    | .ok ts => some { s with returned := ts :: s.returned }

/-- Less than one wrap of the counter passes between two updates, and the wall time is set to a
valid time. -/
def History.Enabled : Event → Prop
  | .advance n => s.ticks + n - s.updated < 2 ^ cfg.width
  | .setWallTime ts _ => ts.WellFormed
  | _ => True

/-- Less than five seconds pass between two updates. -/
def History.Paced : Event → Prop
  | .advance n => (s.ticks + n - s.updated) * cfg.nsecPerTick < fiveSeconds
  | _ => True

/-- The nanoseconds of the wall time in an update, with the adjustment and before the loops. -/
def Timekeeping.wallSum (c : Timekeeping) (offset : Nat) : Int :=
  let carried := carryWall c.wallTime (splitTicks cfg offset).1 (splitTicks cfg offset).2
  adjustedNsec c carried.1 carried.2

/-- No sum of nanoseconds is exactly one second. -/
def History.Fractional : Event → Prop
  | .updateWallTime none =>
    ¬ FullSecond (s.clock.monotonicTime.nsec + cfg.frac (s.pending cfg)) ∧
      ¬ FullSecond (s.clock.wallSum cfg (s.pending cfg))
  | .getMonotonicTime none =>
    ¬ FullSecond (s.clock.monotonicTime.nsec + cfg.frac (s.pending cfg))
  | .getWallTime none => ¬ FullSecond (s.clock.wallTime.nsec + cfg.frac (s.pending cfg))
  | _ => True

/-- The wall time is set only when no ticks are pending, and the seconds fit in a `time_t`. -/
def History.Settled : Event → Prop
  | .advance n => (s.ticks + n) * cfg.nsecPerTick < 2 ^ 32 * nsecPerSec
  | .setWallTime _ none => s.pending cfg = 0
  | _ => True

/-- The steps for which the times are well formed. -/
def History.FractionalStep : Prop :=
  s.Enabled cfg e ∧ s.Paced cfg e ∧ s.Fractional cfg e

/-- The steps for which the monotonic time follows the counter. -/
def History.SettledStep : Prop :=
  s.Enabled cfg e ∧ s.Paced cfg e ∧ s.Settled cfg e

section Decidable

variable (cfg : Config) (s : History) (e : Event)

instance : Decidable (s.Enabled cfg e) := by
  cases e <;> unfold History.Enabled <;> infer_instance

instance : Decidable (s.Paced cfg e) := by
  cases e <;> unfold History.Paced <;> infer_instance

instance : Decidable (s.Fractional cfg e) := by
  rcases e with _ | (_ | _) | _ | _ | (_ | _) | (_ | _) <;> unfold History.Fractional <;>
    infer_instance

instance : Decidable (s.Settled cfg e) := by
  rcases e with _ | _ | ⟨_, _ | _⟩ | _ | _ | _ <;> unfold History.Settled <;> infer_instance

instance : Decidable (s.FractionalStep cfg e) :=
  inferInstanceAs (Decidable (s.Enabled cfg e ∧ s.Paced cfg e ∧ s.Fractional cfg e))

instance : Decidable (s.SettledStep cfg e) :=
  inferInstanceAs (Decidable (s.Enabled cfg e ∧ s.Paced cfg e ∧ s.Settled cfg e))

end Decidable

/-- The state that `clock_inittimekeeping` leaves: `g_clock_last_counter` is still zero. -/
structure History.Start (cfg : Config) (s : History) : Prop where
  wall : s.clock.wallTime.nsec = 0
  monotonicTime : s.clock.monotonicTime = ⟨0, 0⟩
  lastCounter : s.clock.lastCounter = 0
  updated : s.updated = 0
  wrap : s.ticks < 2 ^ cfg.width
  paced : s.ticks * cfg.nsecPerTick < fiveSeconds
  returned : s.returned = []
  monotonic : s.monotonic = []

/-! ### The reading that the stored times belong to -/

/-- The stored counter value is that of the tick `last`. -/
structure Anchored (cfg : Config) (last : Nat) (s : History) : Prop where
  counter : s.clock.lastCounter = last % 2 ^ cfg.width
  updated_le : s.updated ≤ last
  le_ticks : last ≤ s.ticks
  wrap : s.ticks - s.updated < 2 ^ cfg.width
  paced : (s.ticks - s.updated) * cfg.nsecPerTick < fiveSeconds

variable {s' : History}

section Steps

variable {cfg : Config} {s : History}

theorem Anchored.pending_eq (h : Anchored cfg last s) : s.pending cfg = s.ticks - last :=
  offset_eq h.counter h.le_ticks (by have := h.updated_le; have := h.wrap; omega)

theorem Anchored.elapsed (h : Anchored cfg last s) :
    s.pending cfg * cfg.nsecPerTick < fiveSeconds := by
  rw [h.pending_eq]
  refine lt_of_le_of_lt (Nat.mul_le_mul_right _ ?_) h.paced
  have := h.updated_le
  omega

theorem History.Start.anchored (h : s.Start cfg) : Anchored cfg 0 s where
  counter := by rw [h.lastCounter, Nat.zero_mod]
  updated_le := h.updated.le
  le_ticks := Nat.zero_le _
  wrap := by rw [h.updated]; exact h.wrap
  paced := by rw [h.updated]; exact h.paced

theorem Anchored.advance (h : Anchored cfg last s) {n : Nat}
    (hen : s.Enabled cfg (.advance n)) (hp : s.Paced cfg (.advance n)) :
    Anchored cfg last { s with ticks := s.ticks + n } where
  counter := h.counter
  updated_le := h.updated_le
  le_ticks := h.le_ticks.trans (Nat.le_add_right _ _)
  wrap := hen
  paced := hp

/-- The stored counter value moves to the present. -/
theorem Anchored.read (h : Anchored cfg last s) (hc : c.lastCounter = s.ticks % 2 ^ cfg.width) :
    Anchored cfg s.ticks { s with clock := c } :=
  ⟨hc, h.updated_le.trans h.le_ticks, le_refl _, h.wrap, h.paced⟩

theorem Anchored.update (hc : c.lastCounter = s.ticks % 2 ^ cfg.width) :
    Anchored cfg s.ticks { s with clock := c, updated := s.ticks } where
  counter := hc
  updated_le := le_refl _
  le_ticks := le_refl _
  wrap := by
    rw [Nat.sub_self]
    exact Nat.two_pow_pos _
  paced := by
    dsimp only
    rw [Nat.sub_self, Nat.zero_mul]
    decide

theorem Anchored.congr (h : Anchored cfg last s) (hc : s'.clock.lastCounter = s.clock.lastCounter)
    (hu : s'.updated = s.updated) (ht : s'.ticks = s.ticks) : Anchored cfg last s' :=
  ⟨hc.trans h.counter, hu.trans_le h.updated_le, ht ▸ h.le_ticks, by rw [ht, hu]; exact h.wrap,
    by rw [ht, hu]; exact h.paced⟩

end Steps

/-! ### What an update stores -/

section Update

variable {cfg : Config} {counter offset : Nat}

theorem update_zero (h : c.offset cfg counter = 0) : clockUpdateWallTime cfg c (.ok counter) = c :=
  if_pos h

theorem update_pending (h : c.offset cfg counter ≠ 0) :
    clockUpdateWallTime cfg c (.ok counter) = c.update cfg counter (c.offset cfg counter) :=
  if_neg h

theorem update_monotonicTime (hp : offset * cfg.nsecPerTick < fiveSeconds) :
    (c.update cfg counter offset).monotonicTime = forward cfg c.monotonicTime offset := by
  simp only [Timekeeping.update, splitTicks_eq hp, forward]

theorem carryWall_spec {wall : Timespec} (hw : wall.Carried) {nsec : Nat} (hn : nsec < nsecPerSec)
    (sec : Nat) : 0 ≤ (carryWall wall nsec sec).1 ∧ (carryWall wall nsec sec).1 ≤ nsecPerSec := by
  obtain ⟨h0, h1⟩ := hw
  have hi64 : i64 (nsec + wall.nsec) = nsec + wall.nsec := by
    simp only [nsecPerSec] at *
    exact i64_eq_self (by omega) (by omega)
  simp only [carryWall, hi64]
  split
  · exact ⟨by dsimp only; omega, by dsimp only; omega⟩
  · exact ⟨by dsimp only; omega, by dsimp only; omega⟩

/-- What is stored is in range before it is converted to a `long`. -/
theorem i32_fraction {n : Int} (h0 : 0 ≤ n) (hlt : n < nsecPerSec) :
    0 ≤ i32 n ∧ i32 n < nsecPerSec := by
  simp only [nsecPerSec] at *
  rw [i32_eq_self (by omega) (by omega)]
  exact ⟨h0, hlt⟩

theorem finishWall_spec {nsec : Int} (h0 : 0 ≤ nsec) (h1 : nsec ≤ nsecPerSec) (sec : Nat)
    (hfull : ¬ FullSecond (adjustedNsec c nsec sec)) :
    0 ≤ (finishWall c nsec sec).1 ∧ (finishWall c nsec sec).1 < nsecPerSec := by
  by_cases hadj : c.adjusts sec
  · rw [finishWall, if_pos hadj]
    obtain ⟨hlo, -, hhi⟩ := normalize_spec (adjustedNsec c nsec sec) sec
    exact ⟨hlo, hhi hfull⟩
  · rw [adjustedNsec, if_neg hadj] at hfull
    rw [finishWall, if_neg hadj]
    refine ⟨h0, lt_of_le_of_ne h1 fun heq => hfull ?_⟩
    change nsec = nsecPerSec at heq
    rw [heq]
    exact ⟨by decide, Int.emod_self⟩

theorem update_wallTime (hp : offset * cfg.nsecPerTick < fiveSeconds) (hw : c.wallTime.Carried)
    (hfull : ¬ FullSecond (c.wallSum cfg offset)) :
    (c.update cfg counter offset).wallTime.WellFormed := by
  simp only [Timekeeping.wallSum, splitTicks_eq hp] at hfull
  simp only [Timekeeping.update, splitTicks_eq hp, Timespec.WellFormed]
  obtain ⟨h0, h1⟩ := carryWall_spec hw (frac_lt cfg offset) (offset * cfg.nsecPerTick / nsecPerSec)
  obtain ⟨hlo, hhi⟩ := finishWall_spec h0 h1 _ hfull
  exact i32_fraction hlo hhi

theorem Anchored.update_cases {s : History} (ha : Anchored cfg last s) :
    (last = s.ticks ∧ clockUpdateWallTime cfg s.clock (s.reading cfg none) = s.clock) ∨
      clockUpdateWallTime cfg s.clock (s.reading cfg none) =
        s.clock.update cfg (s.ticks % 2 ^ cfg.width) (s.pending cfg) := by
  by_cases hzero : s.pending cfg = 0
  · refine .inl ⟨?_, update_zero hzero⟩
    have := ha.pending_eq
    have := ha.le_ticks
    omega
  · exact .inr (update_pending hzero)

end Update

/-! ### Well-formed times -/

/-- All times are well formed. -/
structure Formed (s : History) : Prop where
  wall : s.clock.wallTime.WellFormed
  monotonic : s.clock.monotonicTime.WellFormed
  returned : ∀ ts ∈ s.returned, ts.WellFormed

variable {e : Event}

section Formed

variable {cfg : Config} {s : History}

theorem Formed.cons (h : Formed s) {ts : Timespec} (hts : ts.WellFormed)
    (log : List (Nat × Timespec)) :
    Formed { s with returned := ts :: s.returned, monotonic := log } := by
  refine ⟨h.wall, h.monotonic, fun x hx => ?_⟩
  rcases List.mem_cons.1 hx with rfl | hx
  · exact hts
  · exact h.returned x hx

theorem timeAfter_wellFormed (ha : Anchored cfg last s) {base : Timespec} (hb : base.WellFormed)
    (hfull : ¬ FullSecond (base.nsec + cfg.frac (s.pending cfg))) :
    (timeAfter cfg base (s.pending cfg)).WellFormed := by
  rw [timeAfter_eq hb.carried ha.elapsed]
  exact forward_wellFormed hb hfull

theorem Formed.step (ha : Anchored cfg last s) (h : Formed s) (he : s.FractionalStep cfg e) :
    ∃ s', s.apply cfg e = some s' ∧ (∃ last', Anchored cfg last' s') ∧ Formed s' := by
  obtain ⟨hen, hpace, hfrac⟩ := he
  cases e with
  | advance n => exact ⟨_, rfl, ⟨last, ha.advance hen hpace⟩, h.wall, h.monotonic, h.returned⟩
  | updateWallTime err =>
    cases err with
    | some ret => exact ⟨_, rfl, ⟨last, ha.congr rfl rfl rfl⟩, h.wall, h.monotonic, h.returned⟩
    | none =>
      refine ⟨_, rfl, ?_⟩
      obtain ⟨hmono, hwall⟩ := hfrac
      rcases ha.update_cases with ⟨hlast, hclock⟩ | hclock
      · simp only [hclock, if_true]
        exact ⟨⟨s.ticks, Anchored.update (hlast ▸ ha.counter)⟩, h.wall, h.monotonic, h.returned⟩
      · simp only [hclock, if_true]
        refine ⟨⟨s.ticks, Anchored.update rfl⟩, ?_, ?_, h.returned⟩
        · exact update_wallTime ha.elapsed h.wall.carried hwall
        · rw [update_monotonicTime ha.elapsed]
          exact forward_wellFormed h.monotonic hmono
  | setWallTime ts err =>
    cases err with
    | some ret => exact ⟨_, rfl, ⟨last, ha.congr rfl rfl rfl⟩, h.wall, h.monotonic, h.returned⟩
    | none => exact ⟨_, rfl, ⟨s.ticks, ha.read rfl⟩, hen, h.monotonic, h.returned⟩
  | adjtime delta =>
    cases delta with
    | none => exact ⟨_, rfl, ⟨last, ha⟩, h⟩
    | some d => exact ⟨_, rfl, ⟨last, ha.congr rfl rfl rfl⟩, h.wall, h.monotonic, h.returned⟩
  | getMonotonicTime err =>
    cases err with
    | some ret => exact ⟨_, rfl, ⟨last, ha⟩, h⟩
    | none =>
      exact ⟨_, rfl, ⟨last, ha.congr rfl rfl rfl⟩,
        h.cons (timeAfter_wellFormed ha h.monotonic hfrac) _⟩
  | getWallTime err =>
    cases err with
    | some ret => exact ⟨_, rfl, ⟨last, ha⟩, h⟩
    | none =>
      exact ⟨_, rfl, ⟨last, ha.congr rfl rfl rfl⟩,
        h.cons (timeAfter_wellFormed ha h.wall hfrac) s.monotonic⟩

end Formed

/-! ### The monotonic time -/

/-- The stored monotonic time is that of the tick `last`, and every result that of the tick of its
call. -/
structure Steady (cfg : Config) (last : Nat) (s : History) : Prop where
  carried : s.clock.monotonicTime.Carried
  value : s.clock.monotonicTime.value = (last * cfg.nsecPerTick : Nat)
  results : ∀ r ∈ s.monotonic, r.2.value = (r.1 * cfg.nsecPerTick : Nat)
  uptime : s.ticks * cfg.nsecPerTick < 2 ^ 32 * nsecPerSec

section Steady

variable {cfg : Config} {s : History}

theorem Steady.forward_value (ha : Anchored cfg last s) (h : Steady cfg last s) :
    (forward cfg s.clock.monotonicTime (s.pending cfg)).value =
      (s.ticks * cfg.nsecPerTick : Nat) := by
  have hsum : s.clock.monotonicTime.value + (s.pending cfg * cfg.nsecPerTick : Nat) =
      (s.ticks * cfg.nsecPerTick : Nat) := by
    rw [h.value, ha.pending_eq, ← Nat.cast_add, ← add_mul, Nat.add_sub_cancel' ha.le_ticks]
  rw [Clock.forward_value h.carried, hsum]
  rw [hsum]
  exact_mod_cast h.uptime

theorem Steady.congr (h : Steady cfg last s) (hc : s'.clock.monotonicTime = s.clock.monotonicTime)
    (hm : s'.monotonic = s.monotonic) (ht : s'.ticks = s.ticks) : Steady cfg last s' :=
  ⟨hc ▸ h.carried, hc ▸ h.value, hm ▸ h.results, ht ▸ h.uptime⟩

theorem Steady.step (ha : Anchored cfg last s) (h : Steady cfg last s) (he : s.SettledStep cfg e) :
    ∃ s', s.apply cfg e = some s' ∧ ∃ last', Anchored cfg last' s' ∧ Steady cfg last' s' := by
  obtain ⟨hen, hpace, hset⟩ := he
  cases e with
  | advance n =>
    exact ⟨_, rfl, last, ha.advance hen hpace, h.carried, h.value, h.results, hset⟩
  | updateWallTime err =>
    cases err with
    | some ret => exact ⟨_, rfl, last, ha.congr rfl rfl rfl, h.congr rfl rfl rfl⟩
    | none =>
      refine ⟨_, rfl, s.ticks, ?_⟩
      rcases ha.update_cases with ⟨hlast, hclock⟩ | hclock
      · simp only [hclock, if_true]
        subst hlast
        exact ⟨Anchored.update ha.counter, h.congr rfl rfl rfl⟩
      · simp only [hclock, if_true]
        refine ⟨Anchored.update rfl, ?_, ?_, h.results, h.uptime⟩
        · rw [update_monotonicTime ha.elapsed]
          exact forward_carried h.carried
        · dsimp only
          rw [update_monotonicTime ha.elapsed]
          exact h.forward_value ha
  | setWallTime ts err =>
    cases err with
    | some ret => exact ⟨_, rfl, last, ha.congr rfl rfl rfl, h.congr rfl rfl rfl⟩
    | none =>
      -- with nothing pending, the new reading belongs to the stored monotonic time
      have hlast : last = s.ticks := by
        have hzero : s.pending cfg = 0 := hset
        have := ha.pending_eq
        have := ha.le_ticks
        omega
      subst hlast
      exact ⟨_, rfl, s.ticks, ha.read rfl, h.congr rfl rfl rfl⟩
  | adjtime delta =>
    cases delta with
    | none => exact ⟨_, rfl, last, ha, h⟩
    | some d => exact ⟨_, rfl, last, ha.congr rfl rfl rfl, h.congr rfl rfl rfl⟩
  | getMonotonicTime err =>
    cases err with
    | some ret => exact ⟨_, rfl, last, ha, h⟩
    | none =>
      refine ⟨_, rfl, last, ha.congr rfl rfl rfl, h.carried, h.value, fun r hr => ?_, h.uptime⟩
      rcases List.mem_cons.1 hr with rfl | hr
      · have heq : timeAfter cfg s.clock.monotonicTime (s.pending cfg) =
            forward cfg s.clock.monotonicTime (s.pending cfg) :=
          timeAfter_eq h.carried ha.elapsed
        exact (congrArg Timespec.value heq).trans (h.forward_value ha)
      · exact h.results r hr
  | getWallTime err =>
    cases err with
    | some ret => exact ⟨_, rfl, last, ha, h⟩
    | none => exact ⟨_, rfl, last, ha.congr rfl rfl rfl, h.congr rfl rfl rfl⟩

end Steady

/-! ## The results about runs -/

/-- The states of the runs of which every step meets `ok`. -/
def RunOf (cfg : Config) (ok : History → Event → Prop) (s : History) : Prop :=
  Reach (History.Start cfg) (LabelledStep ok (History.apply cfg)) s

/-- In every run without a sum of exactly one second, all times that are stored or returned are well
formed. In every run in which the wall time is set only when no tick is pending, two results of
`clock_timekeeping_get_monotonic_time` differ by the ticks between the calls, and so never go
back. -/
theorem timekeeping_clocks (cfg : Config) (s : History) :
    (RunOf cfg (History.FractionalStep cfg) s →
      s.clock.wallTime.WellFormed ∧ s.clock.monotonicTime.WellFormed ∧
        ∀ ts ∈ s.returned, ts.WellFormed) ∧
    (RunOf cfg (History.SettledStep cfg) s →
      ∀ a ∈ s.monotonic, ∀ b ∈ s.monotonic,
        b.2.value - a.2.value = ((b.1 : Int) - a.1) * cfg.nsecPerTick ∧
          (a.1 ≤ b.1 → a.2.value ≤ b.2.value)) := by
  refine ⟨fun h => ?_, fun h a ha b hb => ?_⟩
  · obtain ⟨-, hformed⟩ : (∃ last, Anchored cfg last s) ∧ Formed s := by
      refine Reach.labelled (P := fun s => (∃ last, Anchored cfg last s) ∧ Formed s) ?_ ?_ h
      · intro s hs
        refine ⟨⟨0, hs.anchored⟩, ⟨hs.wall.ge, by rw [hs.wall]; decide⟩, ?_, ?_⟩
        · rw [hs.monotonicTime]
          exact ⟨by decide, by decide⟩
        · rw [hs.returned]
          exact fun ts hts => absurd hts List.not_mem_nil
      · rintro s e ⟨⟨last, hanchor⟩, hformed⟩ he
        exact hformed.step hanchor he
    exact ⟨hformed.wall, hformed.monotonic, hformed.returned⟩
  · obtain ⟨last, -, hsteady⟩ : ∃ last, Anchored cfg last s ∧ Steady cfg last s := by
      refine Reach.labelled (P := fun s => ∃ last, Anchored cfg last s ∧ Steady cfg last s) ?_ ?_ h
      · intro s hs
        refine ⟨0, hs.anchored, ?_, ?_, ?_, hs.paced.trans (by decide)⟩
        · rw [hs.monotonicTime]
          exact ⟨by decide, by decide⟩
        · rw [hs.monotonicTime, zero_mul]
          rfl
        · rw [hs.monotonic]
          exact fun r hr => absurd hr List.not_mem_nil
      · rintro s e ⟨last, hanchor, hsteady⟩ he
        exact hsteady.step hanchor he
    rw [hsteady.results a ha, hsteady.results b hb]
    refine ⟨by push_cast; ring, fun hle => ?_⟩
    exact_mod_cast Nat.mul_le_mul_right cfg.nsecPerTick hle

/-- Ticks of one millisecond and a counter of 32 bits. -/
def milliseconds : Config := ⟨1000000, 32, by decide⟩

/-- The state after the start, with a wall time of 1000 seconds. -/
def started : History := ⟨⟨⟨1000, 0⟩, ⟨0, 0⟩, 0, 0⟩, 0, 0, [], []⟩

theorem started_start : started.Start milliseconds :=
  ⟨rfl, rfl, rfl, rfl, by decide, by decide, rfl, rfl⟩

/-- Some ticks, an update with an adjustment, a new wall time and two readings. -/
def sampleEvents : List Event :=
  [.advance 1200, .adjtime (some ⟨0, -300⟩), .getMonotonicTime none, .updateWallTime none,
    .setWallTime ⟨5, 999999999⟩ none, .advance 1300, .getMonotonicTime none]

theorem timekeeping_clocks_sample :
    let s := after (History.apply milliseconds) started sampleEvents
    s.monotonic = [(2500, ⟨2, 500000000⟩), (1200, ⟨1, 200000000⟩)] ∧
      (s.clock.wallTime.WellFormed ∧ s.clock.monotonicTime.WellFormed ∧
        ∀ ts ∈ s.returned, ts.WellFormed) ∧
      ((⟨2, 500000000⟩ : Timespec).value - (⟨1, 200000000⟩ : Timespec).value =
        (((2500 : Nat) : Int) - ((1200 : Nat) : Int)) * (milliseconds.nsecPerTick : Nat)) := by
  have hlog : (after (History.apply milliseconds) started sampleEvents).monotonic =
      [(2500, ⟨2, 500000000⟩), (1200, ⟨1, 200000000⟩)] := by decide
  refine ⟨hlog, (timekeeping_clocks milliseconds _).1
    (Reach.after sampleEvents (.start started_start) (by decide)), ?_⟩
  exact ((timekeeping_clocks milliseconds _).2
    (Reach.after sampleEvents (.start started_start) (by decide))
    (1200, ⟨1, 200000000⟩) (by rw [hlog]; decide) (2500, ⟨2, 500000000⟩) (by rw [hlog]; decide)).1

/-- Half a second, an update, and half a second more: a full second is returned in the nanoseconds.
The wall time is set while three ticks are pending: the monotonic time falls back. Five seconds pass
without an update: `sec * NSEC_PER_SEC` no longer fits in 32 bits, and the nanoseconds are
negative. -/
theorem timekeeping_failures : (let events : List Event :=
        [.advance 500, .updateWallTime none, .advance 500, .getMonotonicTime none];
      AllSteps (History.Enabled milliseconds) (History.apply milliseconds) started events ∧
        (after (History.apply milliseconds) started events).returned = [⟨0, 1000000000⟩]) ∧
    (let events : List Event :=
        [.advance 3, .getMonotonicTime none, .setWallTime ⟨2000, 0⟩ none, .getMonotonicTime none];
      AllSteps (History.Enabled milliseconds) (History.apply milliseconds) started events ∧
        (after (History.apply milliseconds) started events).monotonic =
          [(3, ⟨0, 0⟩), (3, ⟨0, 3000000⟩)]) ∧
    (let events : List Event := [.advance 5000, .getMonotonicTime none];
      AllSteps (History.Enabled milliseconds) (History.apply milliseconds) started events ∧
        (after (History.apply milliseconds) started events).returned = [⟨6, -1000000000⟩]) := by
  decide

end BaseNx.Clock
