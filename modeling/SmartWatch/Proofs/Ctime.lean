import SmartWatch.Proofs.Stamp

/-! What `ctime` prints from 1970 through 9999, the times included at which the zone
takes a 32-bit `time_t` over its end. -/

namespace SmartWatch.Proofs.Ctime
open TwosComplement Calendar Stamp

/-- From 1970 through 9999, by the time of the watch or by UTC. -/
def Era (now : Int) : Prop := 0 ≤ now + fixedTimezone * 3600 ∧ now < Civil.yearStart 10000 * secondsPerDay

/-- The zone takes no time over the end of `time_t` but the last of a 32-bit one. -/
theorem localTz_cases {bits : Nat} {t : Int} (width : bits = 32 ∨ bits = 64) (fits : Fits bits t)
    (early : t < 2 ^ 62) :
    localTz bits t = t + fixedTimezone * 3600 ∨ bits = 32 ∧ 2 ^ 31 ≤ t + fixedTimezone * 3600 := by
  unfold Fits at fits
  rcases width with rfl | rfl
  · by_cases late : 2 ^ 31 ≤ t + fixedTimezone * 3600
    · exact .inr ⟨rfl, late⟩
    · refine .inl (wrap_of_fits (by decide) ⟨?_, ?_⟩) <;> simp only [fixedTimezone] at late ⊢ <;> omega
  · refine .inl (wrap_of_fits (by decide) ⟨?_, ?_⟩) <;> simp only [fixedTimezone] <;> omega

theorem wrapped_day {t : Int} (fits : Fits 32 t) (late : 2 ^ 31 ≤ t + fixedTimezone * 3600) :
    (localTz 32 t).tdiv secondsPerDay =
      if t + fixedTimezone * 3600 ≤ 2 ^ 32 - 24855 * secondsPerDay then -24855 else -24854 := by
  unfold Fits at fits
  simp only [fixedTimezone] at late
  have wrapped : localTz 32 t = -(4294967296 - (t + 28800)) := by
    simp only [localTz, wrap, fixedTimezone]
    omega
  have days : (localTz 32 t).tdiv secondsPerDay = -((4294967296 - (t + 28800)) / 86400) := by
    rw [wrapped, Int.neg_tdiv, Int.tdiv_eq_ediv_of_nonneg (by omega)]
    rfl
  rw [days]
  split
  next before =>
    simp only [fixedTimezone, secondsPerDay] at before
    omega
  next after =>
    simp only [fixedTimezone, secondsPerDay] at after
    omega

/-- A time that does not wrap is on a day of a year up to 10000. -/
private theorem shown_parts {bits : Nat} {now : Int} (era : Era now)
    (shown : localTz bits now = now + fixedTimezone * 3600) :
    ctime bits now ≠ none ∧ Codes 32 126 (num2str (localtimeR bits now).tmMday) ∧
      (((localtimeR bits now).tmYear + 1900).tdiv 100).natAbs ≤ 100 := by
  obtain ⟨low, high⟩ := era
  have stop : Civil.yearStart 10000 = 2932897 ∧ Civil.yearStart 10001 = 2933263 ∧
      2933263 < Civil.yearStart 2147483648 := by decide
  simp only [stop.1, fixedTimezone, secondsPerDay] at low high shown
  obtain ⟨date, valid, number, late, -, denotes, weekday, -⟩ := gmtimeR_spec low (by omega)
  have inYear := valid.dayOfYear_bounds
  have year : date.year < 10001 := Civil.year_lt_of_start (by unfold Civil.Date.number at number; omega)
  have most := Civil.monthLength_le date.year date.month
  have days := valid.day
  rw [ctime, localtimeR, shown, denotes.day, denotes.year]
  refine ⟨?_, (num2str_codes (by omega)).mono (by decide) (by decide), ?_⟩
  · obtain ⟨first, last⟩ := valid.month
    obtain ⟨month, same⟩ : ∃ month : Nat, (date.month : Int) - 1 = month := ⟨date.month - 1, by omega⟩
    apply asctimeR_told
    · rw [weekday]
      exact fourChars_days (by unfold Civil.weekday; omega) (by unfold Civil.weekday; omega)
    · rw [denotes.month, same]
      exact fourChars_months (by omega)
  · rw [Int.tdiv_eq_ediv_of_nonneg (by omega)]
    omega

private theorem gmtimeR_day {timep day : Int} (same : timep.tdiv secondsPerDay = day) :
    (gmtimeR timep).tmWday = (4 + day).tmod 7 ∧
      let (i, yday) := yearLoop day.toNat 1970 day
      (gmtimeR timep).tmMon = (monthDay (isleap (toInt i)) yday).1 ∧
        (gmtimeR timep).tmMday = toInt (monthDay (isleap (toInt i)) yday).2 ∧ (gmtimeR timep).tmYear = toInt (i - 1900) := by
  subst same
  exact ⟨rfl, rfl, rfl, rfl⟩

/-- At first a time that wraps is of weekday -1, which no table has. -/
theorem lost_weekday {now : Int} (fits : Fits 32 now) (late : 2 ^ 31 ≤ now + fixedTimezone * 3600)
    (before : now + fixedTimezone * 3600 ≤ 2 ^ 32 - 24855 * secondsPerDay) :
    (localtimeR 32 now).tmWday = -1 ∧ (localtimeR 32 now).tmMon = 0 ∧ (localtimeR 32 now).tmMday = -24854 ∧
      (localtimeR 32 now).tmYear = 70 := by
  have day := wrapped_day fits late
  rw [if_pos before] at day
  obtain ⟨weekday, month, mday, year⟩ := gmtimeR_day day
  refine ⟨weekday.trans ?_, month.trans ?_, mday.trans ?_, year.trans ?_⟩ <;> decide

/-- After that it is of the day `{-` of January 1970. -/
private theorem wrapped_parts {now : Int} (fits : Fits 32 now) (late : 2 ^ 31 ≤ now + fixedTimezone * 3600) :
    if now + fixedTimezone * 3600 ≤ 2 ^ 32 - 24855 * secondsPerDay then ctime 32 now = none
    else ctime 32 now ≠ none ∧ Codes 32 126 (num2str (localtimeR 32 now).tmMday) ∧
      (((localtimeR 32 now).tmYear + 1900).tdiv 100).natAbs ≤ 100 := by
  have day := wrapped_day fits late
  split
  next early =>
    have missing : fourChars days (-1) = none := by decide
    rw [ctime, asctimeR, (lost_weekday fits late early).1, missing]
    rfl
  next last =>
    rw [if_neg last] at day
    obtain ⟨weekday, month, mday, year⟩ := gmtimeR_day day
    rw [ctime, localtimeR, mday, year]
    refine ⟨?_, by decide, by decide⟩
    apply asctimeR_told
    · rw [weekday]
      exact fourChars_days (by decide) (by decide)
    · rw [month]
      exact fourChars_months (by decide)

private theorem early {now : Int} (era : Era now) : now < 2 ^ 62 := by
  have high := era.2
  rw [show Civil.yearStart 10000 = 2932897 by decide, secondsPerDay] at high
  omega

/-- `ctime` has a text for every time but for three hours of a 32-bit `time_t`,
when it reads the weekday in front of its table. -/
theorem ctime_none_iff {bits : Nat} {now : Int} (width : bits = 32 ∨ bits = 64) (fits : Fits bits now) (era : Era now) :
    ctime bits now = none ↔ bits = 32 ∧ 2 ^ 31 ≤ now + fixedTimezone * 3600 ∧
      now + fixedTimezone * 3600 ≤ 2 ^ 32 - 24855 * secondsPerDay := by
  constructor
  · intro silent
    rcases localTz_cases width fits (early era) with shown | ⟨rfl, late⟩
    · exact absurd silent (shown_parts era shown).1
    · have parts := wrapped_parts fits late
      split at parts
      next before => exact ⟨rfl, late, before⟩
      next => exact absurd silent parts.1
  · rintro ⟨rfl, late, before⟩
    have parts := wrapped_parts fits late
    rwa [if_pos before] at parts

theorem localtimeR_clock (bits : Nat) (now : Int) : (localtimeR bits now).tmHour.natAbs ≤ 99 ∧
    (localtimeR bits now).tmMin.natAbs ≤ 99 ∧ (localtimeR bits now).tmSec.natAbs ≤ 99 := by
  have clock : ((localTz bits now).tmod secondsPerDay).natAbs = (localTz bits now).natAbs % 86400 :=
    Int.natAbs_tmod ..
  refine ⟨?_, ?_, ?_⟩
  · change ((((localTz bits now).tmod secondsPerDay).tdiv 60).tdiv 60).natAbs ≤ 99
    rw [Int.natAbs_tdiv, Int.natAbs_tdiv, clock]
    change (localTz bits now).natAbs % 86400 / 60 / 60 ≤ 99
    omega
  · change ((((localTz bits now).tmod secondsPerDay).tdiv 60).tmod 60).natAbs ≤ 99
    rw [Int.natAbs_tmod]
    change _ % 60 ≤ 99
    omega
  · change (((localTz bits now).tmod secondsPerDay).tmod 60).natAbs ≤ 99
    rw [Int.natAbs_tmod]
    change _ % 60 ≤ 99
    omega

theorem ctime_line {bits : Nat} {now : Int} {text : List Char} (width : bits = 32 ∨ bits = 64) (fits : Fits bits now)
    (era : Era now) (told : ctime bits now = some text) : ∃ line, text = line ++ ['\n'] ∧ Codes 32 126 line := by
  have parts : Codes 32 126 (num2str (localtimeR bits now).tmMday) ∧
      (((localtimeR bits now).tmYear + 1900).tdiv 100).natAbs ≤ 100 := by
    rcases localTz_cases width fits (early era) with shown | ⟨rfl, late⟩
    · exact (shown_parts era shown).2
    · have parts := wrapped_parts fits late
      split at parts
      next => cases parts.symm.trans told
      next => exact parts.2
  obtain ⟨hour, minute, second⟩ := localtimeR_clock bits now
  exact asctimeR_codes told parts.1 (by omega) (by omega) (by omega) parts.2

end SmartWatch.Proofs.Ctime
