import SmartWatch.Time
import SmartWatch.Lib.Civil

/-! The two calendar conversions of `time.c` against the Gregorian calendar:
`gmtime_r` splits a time into the valid date with its day number, and `timegm`
puts such a date together again. Both are exact up to the year an `int` holds. -/

namespace SmartWatch.Proofs.Calendar
open TwosComplement

structure Denotes (t : Tm) (date : Civil.Date) (hour minute second : Int) : Prop where
  year : t.tmYear = date.year - 1900
  month : t.tmMon = date.month - 1
  day : t.tmMday = date.day
  hour : t.tmHour = hour
  minute : t.tmMin = minute
  second : t.tmSec = second

def Clock (hour minute second : Int) : Prop :=
  (0 ≤ hour ∧ hour ≤ 23) ∧ (0 ≤ minute ∧ minute ≤ 59) ∧ 0 ≤ second ∧ second ≤ 59

instance (hour minute second : Int) : Decidable (Clock hour minute second) :=
  inferInstanceAs (Decidable (_ ∧ _))

private theorem toInt_of_bounds {value : Int} (low : -2147483648 ≤ value) (high : value < 2147483648) :
    toInt value = value :=
  wrap_of_fits (by decide) ⟨by simpa using low, by simpa using high⟩

private theorem isleap_eq {year : Int} (positive : 0 ≤ year) : isleap year = Civil.leap year := by
  simp only [isleap, Civil.leap, Int.tmod_eq_emod_of_nonneg positive]

/-- The year loop takes off the same days as the closed form of the calendar and
stops in the year that holds the day. -/
theorem yearLoop_spec (turns : Nat) (i work : Int) (low : 0 ≤ i) (positive : 0 ≤ work) (enough : work ≤ turns)
    (fits : Civil.yearStart i + work < Civil.yearStart 2147483648) :
    let stopped := yearLoop turns i work
    Civil.yearStart stopped.1 + stopped.2 = Civil.yearStart i + work ∧
      0 ≤ stopped.2 ∧ stopped.2 < Civil.yearLength stopped.1 ∧ i ≤ stopped.1 ∧ stopped.1 < 2147483648 := by
  have small : i < 2147483648 := Civil.year_lt_of_start (by omega)
  have long := Civil.yearLength_pos i
  induction turns generalizing i work with
  | zero => exact ⟨rfl, positive, show work < Civil.yearLength i by omega, Int.le_refl _, small⟩
  | succ turns ih =>
    have length : (if isleap (toInt i) then (366 : Int) else 365) = Civil.yearLength i := by
      rw [toInt_of_bounds (by omega) small, isleap_eq low]
      rfl
    simp only [yearLoop, length]
    split
    next full =>
      have start := Civil.yearStart_succ i
      have next := ih (i + 1) (work - Civil.yearLength i) (by omega) (by omega) (by omega) (by omega)
        (Civil.year_lt_of_start (by omega)) (Civil.yearLength_pos (i + 1))
      refine ⟨next.1.trans (by omega), next.2.1, next.2.2.1, ?_, next.2.2.2.2⟩
      have := next.2.2.2.1
      omega
    next => exact ⟨rfl, positive, show work < Civil.yearLength i by omega, Int.le_refl _, small⟩

private theorem spm_eq (year : Int) (month : Nat) (within : month ≤ 12) :
    Civil.monthStart year month = spm.getD month 0 + if Civil.leap year ∧ 1 < month then 1 else 0 := by
  have which : month = 0 ∨ month = 1 ∨ month = 2 ∨ month = 3 ∨ month = 4 ∨ month = 5 ∨ month = 6 ∨ month = 7 ∨
      month = 8 ∨ month = 9 ∨ month = 10 ∨ month = 11 ∨ month = 12 := by omega
  cases leaps : Civil.leap year <;>
    rcases which with rfl | rfl | rfl | rfl | rfl | rfl | rfl | rfl | rfl | rfl | rfl | rfl | rfl <;>
    simp [Civil.monthStart, Civil.monthLength, leaps, spm]

private theorem monthLoop_stops (work : Int) (i : Nat) : monthLoop work i ≤ i ∧
    (monthLoop work i = 0 ∨ spm.getD (monthLoop work i) 0 ≤ work) ∧
    (monthLoop work i = i ∨ work < spm.getD (monthLoop work i + 1) 0) := by
  induction i with
  | zero => exact ⟨Nat.le_refl _, .inl rfl, .inl rfl⟩
  | succ i ih =>
    simp only [monthLoop]
    split
    next later =>
      refine ⟨by omega, ih.2.1, .inr ?_⟩
      rcases ih.2.2 with stopped | before
      · rw [stopped]; exact later
      · exact before
    next => exact ⟨Nat.le_refl _, .inr (by omega), .inl rfl⟩

private theorem monthLoop_spec {work : Int} (low : 0 ≤ work) (high : work < 365) : monthLoop work 11 ≤ 11 ∧
    spm.getD (monthLoop work 11) 0 ≤ work ∧ work < spm.getD (monthLoop work 11 + 1) 0 := by
  obtain ⟨within, reached, stopped⟩ := monthLoop_stops work 11
  refine ⟨within, ?_, ?_⟩
  · rcases reached with first | reached
    · rw [first]; exact low
    · exact reached
  · rcases stopped with last | stopped
    · rw [last]; exact high
    · exact stopped

private theorem february : ∀ month < 12, (month ≤ 1 → spm.getD (month + 1) 0 ≤ 59) ∧
    (1 < month → 59 ≤ spm.getD month 0) ∧ (month = 0 → spm.getD (month + 1) 0 = 31) := by decide

/-- How `gmtime_r` moves a day of the year before the table lookup: February 29
and the later days of a leap year are looked up one day earlier. -/
private def Moved (leaps : Bool) (yday work mday : Int) : Prop :=
  (leaps = true ∧ work = yday - 1 ∧ (yday = 59 ∧ mday = 2 ∨ 59 < yday ∧ mday = 1)) ∨
    ((leaps = false ∨ yday ≤ 58) ∧ work = yday ∧ mday = 1)

private theorem day_of_table {leaps : Bool} {yday work mday start length begins ends : Int} {month : Nat}
    (moved : Moved leaps yday work mday) (reached : begins ≤ work) (stopped : work < ends)
    (around : (month ≤ 1 → ends ≤ 59) ∧ (1 < month → 59 ≤ begins) ∧ (month = 0 → ends = 31))
    (first : start = begins + if leaps ∧ 1 < month then 1 else 0)
    (next : start + length = ends + if leaps ∧ 1 < month + 1 then 1 else 0) :
    (1 ≤ mday + (work - begins) ∧ mday + (work - begins) ≤ length) ∧ start + (mday + (work - begins)) - 1 = yday := by
  rcases moved with ⟨leap, _, _⟩ | ⟨common | _, _, _⟩ <;> split at first <;> split at next <;> simp_all <;> omega

theorem monthDay_spec {year yday : Int} (low : 0 ≤ yday) (high : yday < Civil.yearLength year) :
    let found := monthDay (Civil.leap year) yday
    (Civil.Date.mk year (found.1 + 1) found.2).Valid ∧ (Civil.Date.mk year (found.1 + 1) found.2).dayOfYear = yday := by
  intro found
  let late := Civil.leap year && decide (yday > 58)
  let mday : Int := if late && decide (yday = 59) then 2 else 1
  let work := if late then yday - 1 else yday
  have moved : Moved (Civil.leap year) yday work mday := by
    unfold Moved
    cases leaps : Civil.leap year <;> by_cases after : yday > 58 <;> by_cases exactly : yday = 59 <;>
      simp [work, mday, late, leaps, after, exactly] <;> omega
  have short : 0 ≤ work ∧ work < 365 := by
    unfold Civil.yearLength at high
    split at high <;> rcases moved with ⟨leaps, _, _⟩ | ⟨leaps | _, _, _⟩ <;> simp_all <;> omega
  obtain ⟨within, reached, stopped⟩ := monthLoop_spec short.1 short.2
  have start := spm_eq year (monthLoop work 11) (by omega)
  have next := spm_eq year (monthLoop work 11 + 1) (by omega)
  have day := day_of_table moved reached stopped (february _ (by omega)) start next
  exact ⟨⟨⟨Nat.le_add_left _ _, Nat.succ_le_succ within⟩, day.1⟩, day.2⟩

/-- A time from 1970 on, in a year that fits an `int`, is split into the valid
date with its day number, the time of day and the weekday. -/
theorem gmtimeR_spec {timep : Int} (positive : 0 ≤ timep)
    (fits : timep / 86400 < Civil.yearStart 2147483648) :
    ∃ date : Civil.Date, date.Valid ∧ date.number = timep / 86400 ∧ 1970 ≤ date.year ∧ date.year < 2147483648 ∧
      Denotes (gmtimeR timep) date (timep % 86400 / 3600) (timep % 86400 / 60 % 60) (timep % 86400 % 60) ∧
      (gmtimeR timep).tmWday = Civil.weekday date.number ∧ (gmtimeR timep).tmYday = date.dayOfYear := by
  have origin := Civil.yearStart_1970
  have day : timep.tdiv secondsPerDay = timep / 86400 := Int.tdiv_eq_ediv_of_nonneg positive
  have clock : timep.tmod secondsPerDay = timep % 86400 := Int.tmod_eq_emod_of_nonneg positive
  have loop := yearLoop_spec (timep / 86400).toNat 1970 (timep / 86400) (by decide) (by omega) (by omega) (by omega)
  obtain ⟨i, yday, stopped⟩ : ∃ i yday, yearLoop (timep / 86400).toNat 1970 (timep / 86400) = (i, yday) := ⟨_, _, rfl⟩
  rw [stopped] at loop
  obtain ⟨total, low, high, late, small⟩ := loop
  simp only at total low high late small
  have leaps : isleap (toInt i) = Civil.leap i := by
    rw [toInt_of_bounds (by omega) small, isleap_eq (by omega)]
  obtain ⟨valid, inYear⟩ := monthDay_spec low high
  have number : Civil.yearStart i + yday = timep / 86400 := by omega
  have long := Civil.monthLength_le i ((monthDay (Civil.leap i) yday).1 + 1)
  have days := valid.day
  simp only at days
  refine ⟨_, valid, ?_, late, small, ⟨?_, ?_, ?_, ?_, ?_, ?_⟩, ?_, ?_⟩
  all_goals simp only [gmtimeR, day, clock, stopped, leaps, inYear, Civil.Date.number, number]
  case refine_2 => exact toInt_of_bounds (by omega) (by omega)
  case refine_3 => simp
  case refine_4 => exact toInt_of_bounds (by omega) (by omega)
  case refine_9 =>
    have : Civil.yearLength i ≤ 366 := by unfold Civil.yearLength; split <;> omega
    exact toInt_of_bounds (by omega) (by omega)
  case refine_5 =>
    rw [Int.tdiv_eq_ediv_of_nonneg (a := timep % 86400) (by omega), Int.tdiv_eq_ediv_of_nonneg (by omega)]
    omega
  case refine_6 =>
    rw [Int.tdiv_eq_ediv_of_nonneg (by omega), Int.tmod_eq_emod_of_nonneg (by omega)]
  case refine_7 => exact Int.tmod_eq_emod_of_nonneg (by omega)
  case refine_8 =>
    rw [Int.tmod_eq_emod_of_nonneg (by omega), Civil.weekday, Int.add_comm]

private theorem yearDays_eq {years : Int} (positive : 0 ≤ years) : yearDays years = Civil.yearStart (1970 + years) := by
  simp only [yearDays, Civil.yearStart, Civil.leapsBefore]
  rw [Int.tdiv_eq_ediv_of_nonneg (a := years + 1) (by omega)]
  split
  next late =>
    rw [Int.tdiv_eq_ediv_of_nonneg (a := years - 131) (by omega)]
    split <;> omega
  next => omega

private theorem carry_eq {t : Tm} (clock : Clock t.tmHour t.tmMin t.tmSec) (month : t.tmMon ≤ 11) : carry t = t := by
  obtain ⟨⟨_, hour⟩, ⟨_, minute⟩, _, second⟩ := clock
  have seconds : ¬ t.tmSec > 60 := by omega
  have minutes : ¬ t.tmMin > 60 := by omega
  have hours : ¬ t.tmHour > 24 := by omega
  have months : ¬ t.tmMon > 12 := by omega
  simp only [carry, seconds, minutes, hours, months, ite_false]

theorem spm?_eq {month : Nat} (within : month ≤ 12) : spm? month = some (spm.getD month 0) := by
  have inside : month < spm.length := by simp only [spm, List.length_cons, List.length_nil]; omega
  simp [spm?, List.getElem?_eq_getElem inside]

/-- A day of the month never makes `timegm` move to the next month: every entry
of the table after the first is at least 31. -/
theorem mdayLoop_eq {t : Tm} {month : Nat} (turns : Nat) (within : month ≤ 11) (same : t.tmMon = month)
    (day : t.tmMday ≤ 31) : mdayLoop (turns + 1) t = some t := by
  have late : ∀ month < 12, 31 ≤ spm.getD (month + 1) 0 := by decide
  have stays : ¬ t.tmMday > spm.getD (month + 1) 0 := by
    have := late month (by omega)
    omega
  have next : spm? (1 + t.tmMon) = some (spm.getD (month + 1) 0) := by
    rw [same, Int.add_comm, ← Int.natCast_succ]
    exact spm?_eq (by omega)
  simp only [mdayLoop, next, Option.bind_eq_bind, Option.bind_some, stays, ite_false]

theorem timegm_spec (bits : Nat) {t : Tm} {date : Civil.Date} {hour minute second : Int}
    (valid : date.Valid) (late : 1970 ≤ date.year) (fits : date.year < 2147483648)
    (denotes : Denotes t date hour minute second) (clock : Clock hour minute second) :
    ∃ left, timegm bits t = some (left, wrap bits (((date.number * 24 + hour) * 60 + minute) * 60 + second)) := by
  obtain ⟨months, same⟩ : ∃ months, date.month = months + 1 := ⟨date.month - 1, by have := valid.month.1; omega⟩
  have within : months ≤ 11 := by have := valid.month.2; omega
  have mon : t.tmMon = months := by rw [denotes.month, same]; omega
  have most := Civil.monthLength_le date.year date.month
  have short : t.tmMday ≤ 31 := by rw [denotes.day]; have := valid.day.2; omega
  have carried : carry t = t :=
    carry_eq (by rw [denotes.hour, denotes.minute, denotes.second]; exact clock) (by omega)
  have recent : ¬ t.tmYear < 70 := by rw [denotes.year]; omega
  have leaps : isleap (toInt (t.tmYear + 1900)) = Civil.leap date.year := by
    rw [denotes.year, toInt_of_bounds (by omega) (by omega), isleap_eq (by omega)]
    congr 1
    omega
  have start := spm_eq date.year months (by omega)
  have yday : spm.getD months 0 + t.tmMday - 1 + (if Civil.leap date.year && decide (t.tmMon > 1) then 1 else 0) =
      date.dayOfYear := by
    rw [Civil.Date.dayOfYear, same, Nat.add_sub_cancel, start, denotes.day, mon]
    cases Civil.leap date.year with
    | false => simp
    | true =>
      have later : decide ((months : Int) > 1) = decide (1 < months) := decide_eq_decide.mpr (by omega)
      rw [later, Bool.true_and]
      by_cases after : 1 < months
      · simp [after]
        omega
      · simp [after]
  have days : yearDays (t.tmYear - 70) = Civil.yearStart date.year := by
    rw [denotes.year, yearDays_eq (by omega)]
    congr 1
    omega
  refine ⟨{ t with tmYday := date.dayOfYear, tmWday := (date.number + 4).tmod 7 }, ?_⟩
  simp only [timegm, carried, Option.bind_eq_bind, Option.bind_some,
    show 13 * (t.tmMday.toNat + 1) = 13 * t.tmMday.toNat + 12 + 1 by omega,
    mdayLoop_eq _ within mon short, recent, ite_false, mon, spm?_eq (show months ≤ 12 by omega)]
  rw [mon] at yday
  simp only [leaps, yday, days, denotes.hour, denotes.minute, denotes.second, Civil.Date.number]
  rfl

end SmartWatch.Proofs.Calendar
