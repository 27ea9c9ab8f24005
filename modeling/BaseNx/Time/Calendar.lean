import BaseNx.Lib.MachineInt

/-!
# Calendar time

`gmtime_r` of `libs/libc/time` turns the seconds since 1970 into a date and a time of day (the build
without `CONFIG_GREGORIAN_TIME`, with `CONFIG_TIME_EXTENDED`). The date is compared with the
Gregorian calendar, which counts the days by the lengths of its years and months (`IsDate`).

The year is found in steps of four years of `4 * 365 + 1` days, which is right until the step that
holds the year 2100 has passed; `tm_yday` counts the days of a year from one (`gmtime_is_date`).
`mktime` counts every fourth year as a leap year (`mktime_gmtime`).
-/

namespace BaseNx.Time

open Lib

/-! ## The functions of the source -/

/-- `clock_isleapyear` -/
def clockIsleapyear (year : Nat) : Bool :=
  if year % 400 ≠ 0 then
    if year % 100 ≠ 0 then if year % 4 ≠ 0 then false else true else false
  else true

/-- `g_daysbeforemonth` -/
def daysbeforemonth : List Nat := [0, 31, 59, 90, 120, 151, 181, 212, 243, 273, 304, 334, 365]

/-- `clock_daysbeforemonth` -/
def clockDaysbeforemonth (month : Nat) (leapyear : Bool) : Nat :=
  let retval := daysbeforemonth.getD month 0
  if 2 ≤ month ∧ leapyear then retval + 1 else retval

/-- `clock_dayoftheweek` -/
def clockDayoftheweek (mday month year : Nat) : Nat :=
  let (month, year) := if month ≤ 2 then (month + 12, year - 1) else (month, year)
  let month := month - 2
  (mday + year + year / 4 - year / 100 + year / 400 + 31 * month / 12) % 7

/-- The first loop of `clock_utc2calendar`, for at most `fuel` turns: the years since 1970 and the
days that are left. -/
def yearLoop : Nat → Nat → Nat → Nat × Nat
  | 0, value, days => (value, days)
  | fuel + 1, value, days =>
    let tmp := if clockIsleapyear (value + 1970) then 366 else 365
    if tmp ≤ days then yearLoop fuel (value + 1) (days - tmp) else (value, days)

/-- The search for the month, for at most `fuel` turns; `none` if they are not enough. -/
def monthLoop (leapyear : Bool) (days : Nat) : Nat → Nat → Nat → Option Nat
  | 0, _, _ => none
  | fuel + 1, min, max =>
    let value := (min + max) / 2
    if days < clockDaysbeforemonth (value + 1) leapyear then
      if days < clockDaysbeforemonth value leapyear then
        if min < value - 1 then monthLoop leapyear days fuel min (value - 1) else some min
      else some value
    else if value + 1 < max then monthLoop leapyear days fuel (value + 1) max else some (value + 1)

/-- `clock_utc2calendar`: the year, the month from one and the day. -/
def clockUtc2calendar (days : Nat) : Option (Nat × Nat × Nat) := do
  let value := days / (4 * 365 + 1)
  let days := days - value * (4 * 365 + 1)
  let (value, days) := yearLoop (days / 365 + 1) (4 * value) days
  let leapyear := clockIsleapyear (value + 1970)
  let month ← monthLoop leapyear days 12 0 11
  return (1970 + value, month + 1, days - clockDaysbeforemonth month leapyear + 1)

/-- `struct tm`; `tm_isdst` is always zero. -/
structure Tm where
  sec : Nat
  min : Nat
  hour : Nat
  mday : Nat
  mon : Nat
  /-- `tm_year`, from 1900 -/
  year : Nat
  wday : Nat
  yday : Nat
  deriving DecidableEq

/-- `gmtime_r` -/
def gmtimeR (timer : Nat) : Option Tm := do
  let jdn := timer / 86400
  let epoch := timer - 86400 * jdn
  let hour := epoch / 3600
  let epoch := epoch - 3600 * hour
  let min := epoch / 60
  let (year, month, day) ← clockUtc2calendar jdn
  return {
    sec := epoch - 60 * min, min := min, hour := hour
    mday := day, mon := month - 1, year := year - 1900
    wday := clockDayoftheweek day month year
    yday := day + clockDaysbeforemonth (month - 1) (clockIsleapyear year) }

/-! ## The Gregorian calendar -/

def Leap (year : Nat) : Prop := year % 4 = 0 ∧ (year % 100 ≠ 0 ∨ year % 400 = 0)

instance (year : Nat) : Decidable (Leap year) := inferInstanceAs (Decidable (_ ∧ _))

def yearLength (year : Nat) : Nat := if Leap year then 366 else 365

/-- The days of a month, counted from zero. -/
def monthLength (year month : Nat) : Nat :=
  if month = 1 then if Leap year then 29 else 28
  else if month ∈ [3, 5, 8, 10] then 30 else 31

/-- The days of the first `n` years from 1970 on. -/
def daysOfYears : Nat → Nat
  | 0 => 0
  | n + 1 => daysOfYears n + yearLength (1970 + n)

/-- The days of the first `n` months of a year. -/
def daysOfMonths (year : Nat) : Nat → Nat
  | 0 => 0
  | n + 1 => daysOfMonths year n + monthLength year n

/-- The date, with the month from zero and the day from one, that is `days` days after 1 January
1970. -/
structure IsDate (days year month day : Nat) : Prop where
  month_lt : month < 12
  day_pos : 0 < day
  day_le : day ≤ monthLength year month
  year_ge : 1970 ≤ year
  days_eq : days = daysOfYears (year - 1970) + daysOfMonths year month + (day - 1)

theorem clockIsleapyear_eq (year : Nat) : clockIsleapyear year = decide (Leap year) := by
  unfold clockIsleapyear Leap
  split_ifs
  · exact (decide_eq_false (by omega)).symm
  · exact (decide_eq_true (by omega)).symm
  · exact (decide_eq_false (by omega)).symm
  · exact (decide_eq_true (by omega)).symm

/-- The table of the source is the sum of the months. -/
theorem clockDaysbeforemonth_eq {month : Nat} (year : Nat) (h : month ≤ 12) :
    clockDaysbeforemonth month (clockIsleapyear year) = daysOfMonths year month := by
  rw [clockIsleapyear_eq]
  by_cases hleap : Leap year
  · interval_cases month <;>
      simp [clockDaysbeforemonth, daysbeforemonth, daysOfMonths, monthLength, hleap]
  · interval_cases month <;>
      simp [clockDaysbeforemonth, daysbeforemonth, daysOfMonths, monthLength, hleap]

theorem daysOfMonths_year (year : Nat) : daysOfMonths year 12 = yearLength year := by
  by_cases hleap : Leap year <;> simp [daysOfMonths, monthLength, yearLength, hleap]

theorem yearLoop_spec (fuel value days : Nat) (hfuel : days / 365 < fuel) :
    daysOfYears (yearLoop fuel value days).1 + (yearLoop fuel value days).2
        = daysOfYears value + days ∧
      (yearLoop fuel value days).2 < yearLength (1970 + (yearLoop fuel value days).1) := by
  induction fuel generalizing value days with
  | zero => omega
  | succ fuel ih =>
    have hlen :
        (if clockIsleapyear (value + 1970) then 366 else 365) = yearLength (1970 + value) := by
      rw [clockIsleapyear_eq, yearLength, Nat.add_comm]
      simp only [decide_eq_true_eq]
    have hge : 365 ≤ yearLength (1970 + value) := by
      unfold yearLength
      split <;> omega
    unfold yearLoop
    simp only [hlen]
    split_ifs with hle
    · obtain ⟨hsum, hlt⟩ := ih (value + 1) (days - yearLength (1970 + value)) (by omega)
      refine ⟨?_, hlt⟩
      rw [hsum, daysOfYears]
      omega
    · exact ⟨rfl, by dsimp only; omega⟩

/-- The search ends with the month of the day: the day is always between the first day of `min` and
the last day of `max`. -/
theorem monthLoop_spec {leapyear : Bool} {days : Nat} (fuel min max : Nat)
    (hfuel : max - min < fuel) (hle : min ≤ max) (hmin : clockDaysbeforemonth min leapyear ≤ days)
    (hmax : days < clockDaysbeforemonth (max + 1) leapyear) :
    ∃ month ≤ max, monthLoop leapyear days fuel min max = some month ∧
      clockDaysbeforemonth month leapyear ≤ days ∧
      days < clockDaysbeforemonth (month + 1) leapyear := by
  induction fuel generalizing min max with
  | zero => omega
  | succ fuel ih =>
    unfold monthLoop
    generalize hvalue : (min + max) / 2 = value
    dsimp only
    split_ifs with hlt hlow hmore hmore
    · -- the month lies before `value`
      obtain ⟨month, hle', hmonth⟩ := ih min (value - 1) (by omega) (by omega) hmin
        (by rwa [show value - 1 + 1 = value by omega])
      exact ⟨month, by omega, hmonth⟩
    · have hne : min ≠ value := by
        rintro rfl
        omega
      refine ⟨min, hle, rfl, hmin, ?_⟩
      rwa [show min + 1 = value by omega]
    · exact ⟨value, by omega, rfl, by omega, hlt⟩
    · exact (ih (value + 1) max (by omega) (by omega) (by omega) hmax)
    · have hne : value ≠ max := by
        rintro rfl
        omega
      refine ⟨value + 1, by omega, rfl, by omega, ?_⟩
      rwa [show value + 1 = max by omega]

/-- `clock_utc2calendar` is a day late after the first 33 steps of four years, the last of which has
one day less. -/
theorem clockUtc2calendar_spec {days : Nat} (h : days < 51135) : ∃ year month day,
    clockUtc2calendar days = some (year, month + 1, day) ∧
      IsDate (days - if days < 48213 then 0 else 1) year month day := by
  have hsteps : ∀ q ≤ 34, daysOfYears (4 * q) = 1461 * q - if q < 33 then 0 else 1 := by decide
  unfold clockUtc2calendar
  dsimp only
  generalize hq : days / (4 * 365 + 1) = q
  generalize hleft : days - q * (4 * 365 + 1) = left
  obtain ⟨hsum, hlt⟩ := yearLoop_spec (left / 365 + 1) (4 * q) left (Nat.lt_succ_self _)
  generalize yearLoop _ _ _ = r at hsum hlt ⊢
  obtain ⟨value, left'⟩ := r
  rw [hsteps q (by omega)] at hsum
  dsimp only at hsum hlt ⊢
  rw [Nat.add_comm value]
  have hyear := clockDaysbeforemonth_eq (1970 + value) (le_refl 12)
  obtain ⟨month, hle, hmonth, hlow, hhigh⟩ := monthLoop_spec 12 0 11 (by omega) (by omega)
    (show clockDaysbeforemonth 0 (clockIsleapyear (1970 + value)) ≤ left' from Nat.zero_le _)
    (by rw [hyear, daysOfMonths_year]; exact hlt)
  rw [clockDaysbeforemonth_eq _ (by omega)] at hlow hhigh
  rw [daysOfMonths] at hhigh
  refine ⟨1970 + value, month, left' - daysOfMonths (1970 + value) month + 1,
    ?_, by omega, by omega, by omega, by omega, ?_⟩
  · rw [hmonth]
    show some _ = some _
    rw [clockDaysbeforemonth_eq _ (by omega)]
  · rw [show 1970 + value - 1970 = value by omega]
    split_ifs at hsum ⊢ <;> omega

/-- A leap year is one day longer. -/
theorem yearLength_eq (y : Nat) : (y + 1) / 4 + (y + 1) / 400 + y / 100 + 365 =
    y / 4 + y / 400 + (y + 1) / 100 + yearLength (y + 1) := by
  unfold yearLength
  by_cases hleap : Leap (y + 1)
  · rw [if_pos hleap]
    unfold Leap at hleap
    omega
  · rw [if_neg hleap]
    unfold Leap at hleap
    omega

/-- The days of whole years in closed form. -/
theorem daysOfYears_eq (n : Nat) :
    daysOfYears n + 477 + (1969 + n) / 100 = 365 * n + (1969 + n) / 4 + (1969 + n) / 400 := by
  induction n with
  | zero => decide
  | succ n ih =>
    have hsucc : 1969 + (n + 1) = 1969 + n + 1 := rfl
    have hyear : 1970 + n = 1969 + n + 1 := by rw [Nat.add_right_comm]
    rw [daysOfYears, hsucc, hyear]
    have hlen := yearLength_eq (1969 + n)
    generalize 1969 + n = y at ih hlen ⊢
    omega

/-- The months in the formula for the day of the week, whose years start in March. -/
theorem daysOfMonths_mod {month : Nat} (year : Nat) (h : month < 12) :
    daysOfMonths year month % 7 = if month < 2 then 31 * (month + 11) / 12 % 7
      else (31 * (month - 1) / 12 + yearLength year) % 7 := by
  by_cases hleap : Leap year <;> interval_cases month <;>
    simp [daysOfMonths, monthLength, yearLength, hleap]

/-- 1 January 1970 was a Thursday. -/
theorem clockDayoftheweek_spec {days year month day : Nat} (h : IsDate days year month day) :
    clockDayoftheweek day (month + 1) year = (days + 4) % 7 := by
  obtain ⟨hmonth, hpos, -, hyear, hdays⟩ := h
  obtain ⟨n, rfl⟩ := Nat.exists_eq_add_of_le hyear
  have hsucc : 1970 + n = 1969 + n + 1 := by rw [Nat.add_right_comm]
  rw [Nat.add_sub_cancel_left, hsucc] at hdays
  have hyears := daysOfYears_eq n
  have hlen := yearLength_eq (1969 + n)
  have hmonths := daysOfMonths_mod (1969 + n + 1) hmonth
  unfold clockDayoftheweek
  rw [hsucc]
  clear hsucc hyear
  generalize hy : 1969 + n = y at hdays hyears hlen hmonths ⊢
  -- only the sums of the divisions matter, not what they are
  have hcent := Nat.div_le_self y 100
  have hcent' := Nat.div_le_self (y + 1) 100
  generalize daysOfMonths (y + 1) month = months, yearLength (y + 1) = len,
    daysOfYears n = years at hdays hyears hlen hmonths
  by_cases hearly : month < 2
  · rw [if_pos hearly] at hmonths
    rw [if_pos (Nat.succ_le_of_lt hearly)]
    show (day + y + y / 4 - y / 100 + y / 400 + 31 * (month + 11) / 12) % 7 = _
    clear hlen hcent'
    generalize 31 * (month + 11) / 12 = k, y / 4 = a, y / 100 = b, y / 400 = c
      at hyears hmonths hcent ⊢
    omega
  · rw [if_neg hearly] at hmonths
    rw [if_neg (fun hle => hearly (Nat.lt_of_succ_le hle))]
    show (day + (y + 1) + (y + 1) / 4 - (y + 1) / 100 + (y + 1) / 400
      + 31 * (month - 1) / 12) % 7 = _
    generalize 31 * (month - 1) / 12 = k, y / 4 = a, y / 100 = b, y / 400 = c, (y + 1) / 4 = a',
      (y + 1) / 100 = b', (y + 1) / 400 = c' at hyears hlen hmonths hcent hcent' ⊢
    omega

/-! ## The calendar of `gmtime_r` -/

/-- `gmtime_r` gives the date, the time of day and the day of the week, from 2 January 2102 on those
of the day before. They are never those of the time with `tm_yday`, the day of the year counted from
one. -/
theorem gmtime_is_date (timer : Nat) (h : timer < 2 ^ 32) :
    ∃ tm jdn, gmtimeR timer = some tm ∧
      jdn = timer / 86400 - (if timer < 48213 * 86400 then 0 else 1) ∧
      IsDate jdn (tm.year + 1900) tm.mon tm.mday ∧
      tm.hour * 3600 + tm.min * 60 + tm.sec = timer % 86400 ∧
      tm.hour < 24 ∧ tm.min < 60 ∧ tm.sec < 60 ∧ tm.wday = (jdn + 4) % 7 ∧
      tm.yday = daysOfMonths (tm.year + 1900) tm.mon + (tm.mday - 1) + 1 ∧
      ¬ (IsDate (timer / 86400) (tm.year + 1900) tm.mon tm.mday ∧
        tm.yday = daysOfMonths (tm.year + 1900) tm.mon + (tm.mday - 1)) := by
  obtain ⟨year, month, day, hcal, hdate⟩ :=
    clockUtc2calendar_spec (show timer / 86400 < 51135 by omega)
  simp only [Nat.div_lt_iff_lt_mul (show 0 < 86400 by decide)] at hdate
  have hyear := hdate.year_ge
  have hpos := hdate.day_pos
  unfold gmtimeR
  dsimp only
  rw [hcal]
  refine ⟨_, _, rfl, rfl, ?_⟩
  dsimp only
  rw [show year - 1900 + 1900 = year by omega, Nat.add_sub_cancel,
    clockDaysbeforemonth_eq year hdate.month_lt.le]
  exact ⟨hdate, by omega, by omega, by omega, by omega, clockDayoftheweek_spec hdate, by omega,
    fun htrue => by have := htrue.2; omega⟩

/-- Noon of 29 February 2020. -/
theorem gmtime_is_date_sample : 1582977600 < 2 ^ 32 ∧
    (∃ tm, gmtimeR 1582977600 = some tm ∧
      tm.yday = daysOfMonths (tm.year + 1900) tm.mon + tm.mday) ∧
    gmtimeR 1582977600 = some ⟨0, 0, 12, 29, 1, 120, 6, 60⟩ := by
  obtain ⟨tm, _, htm, -, hdate, -, -, -, -, -, hyday, -⟩ := gmtime_is_date 1582977600 (by decide)
  have hpos := hdate.day_pos
  exact ⟨by decide, ⟨tm, htm, by omega⟩, by decide⟩

/-- The first day of 1970 has the `tm_yday` 1, and `gmtime_r` gives 1 January 2102 for that day and
for the day after it: the year 2100 has no 29 February, but the step of four years has 1461 days. -/
theorem gmtime_one_day_off :
    gmtimeR 0 = some ⟨0, 0, 0, 1, 0, 70, 4, 1⟩ ∧ IsDate 0 1970 0 1 ∧
    gmtimeR (48213 * 86400) = some ⟨0, 0, 0, 1, 0, 202, 0, 1⟩ ∧ IsDate 48213 2102 0 2 ∧
    gmtimeR (48212 * 86400) = some ⟨0, 0, 0, 1, 0, 202, 0, 1⟩ ∧ 48213 * 86400 < 2 ^ 32 := by
  have hyears : daysOfYears 132 = 48212 := by
    have h := daysOfYears_eq 132
    generalize daysOfYears 132 = years at h ⊢
    omega
  refine ⟨by decide, ⟨?_, ?_, ?_, ?_, ?_⟩, by decide, ⟨?_, ?_, ?_, ?_, ?_⟩, by decide, ?_⟩
  case refine_5 => rfl
  case refine_10 => rw [show 2102 - 1970 = 132 from rfl, hyears]; rfl
  all_goals decide

/-! ## The way back -/

/-- `clock_calendar2utc`; the month is counted from zero. -/
def clockCalendar2utc (year month day : Nat) : Nat :=
  toU32 (((year : Int) - 1970) * 365 + ((year : Int) - 1969) / 4
    + clockDaysbeforemonth month (clockIsleapyear year) + ((day : Int) - 1))

/-- `mktime` -/
def mktime (tm : Tm) : Nat :=
  u32 (((clockCalendar2utc (tm.year + 1900) tm.mon tm.mday * 24 + tm.hour) * 60 + tm.min) * 60
    + tm.sec)

/-- Every fourth year counts as a leap year, also 2100. -/
theorem clockCalendar2utc_spec {days year month day : Nat} (h : IsDate days year month day)
    (hdays : days < 48213) :
    clockCalendar2utc year month day = days + if year ≤ 2100 then 0 else 1 := by
  obtain ⟨hmonth, hpos, -, hyear, rfl⟩ := h
  obtain ⟨n, rfl⟩ := Nat.exists_eq_add_of_le hyear
  have hyears := daysOfYears_eq n
  rw [clockCalendar2utc, clockDaysbeforemonth_eq _ hmonth.le]
  rw [Nat.add_sub_cancel_left] at hdays ⊢
  generalize daysOfYears n = years, daysOfMonths (1970 + n) month = months at hyears hdays ⊢
  have hquarter : ((1970 + n : Nat) - 1969 : Int) / 4 + 492 = ((1969 + n) / 4 : Nat) := by omega
  have hcentury : ∀ k ≤ 132, (1969 + k) / 100
      = (1969 + k) / 400 + if 1970 + k ≤ 2100 then 15 else 16 := by decide
  have hcentury := hcentury n (by omega)
  have hsum : ((1970 + n : Nat) - 1970 : Int) * 365 + ((1970 + n : Nat) - 1969 : Int) / 4 + months
      + (day - 1) = (years + months + (day - 1) + if 1970 + n ≤ 2100 then 0 else 1 : Nat) := by
    split_ifs at hcentury ⊢ <;> omega
  rw [hsum, toU32_eq_toNat (Int.natCast_nonneg _) (by split_ifs <;> omega), Int.toNat_natCast]

/-- `mktime` takes back what `gmtime_r` did until the end of the year 2100, which it takes for a
leap year: after that it is one day late. -/
theorem mktime_gmtime (timer : Nat) (h : timer < 48213 * 86400) :
    ∃ tm, gmtimeR timer = some tm ∧
      mktime tm = if tm.year + 1900 ≤ 2100 then timer else timer + 86400 := by
  have hdays : timer / 86400 < 48213 := by omega
  obtain ⟨year, month, day, hcal, hdate⟩ :=
    clockUtc2calendar_spec (show timer / 86400 < 51135 by omega)
  rw [if_pos hdays, Nat.sub_zero] at hdate
  have hyear : year - 1900 + 1900 = year := Nat.sub_add_cancel (by have := hdate.year_ge; omega)
  have hjdn := clockCalendar2utc_spec hdate hdays
  unfold gmtimeR
  dsimp only
  rw [hcal]
  refine ⟨_, rfl, ?_⟩
  rw [mktime]
  dsimp only
  rw [hyear, Nat.add_sub_cancel, hjdn, u32]
  split_ifs <;> omega

/-- Noon of 29 February 2020. -/
theorem mktime_gmtime_sample : ∃ tm, gmtimeR 1582977600 = some tm ∧ mktime tm = 1582977600 := by
  obtain ⟨tm, htm, heq⟩ := mktime_gmtime 1582977600 (by decide)
  obtain rfl : (⟨0, 0, 12, 29, 1, 120, 6, 60⟩ : Tm) = tm := Option.some.inj (htm ▸ by decide)
  exact ⟨_, htm, heq⟩

end BaseNx.Time
