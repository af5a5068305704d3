import SmartWatch.Buttons
import SmartWatch.Proofs.Stamp

/-! A SELECT press in the last menu sets the clock in two steps, the time of day
on the old date and then the date under the new time of day. Both steps read the
clock back through `localtime_r` and write it through `mktime`. -/

namespace SmartWatch.Proofs.Save
open TwosComplement Calendar Stamp

def localSeconds (number hour minute second : Int) : Int := ((number * 24 + hour) * 60 + minute) * 60 + second

theorem localSeconds_parts (number : Int) {hour minute second : Int} (clock : Clock hour minute second) :
    localSeconds number hour minute second / 86400 = number ∧
      localSeconds number hour minute second % 86400 / 3600 = hour ∧
      localSeconds number hour minute second % 86400 / 60 % 60 = minute ∧
      localSeconds number hour minute second % 86400 % 60 = second := by
  obtain ⟨⟨_, _⟩, ⟨_, _⟩, _, _⟩ := clock
  unfold localSeconds
  omega

private theorem getTime_setTime (bits : Nat) (rtc : SoftRtc) (tick : UInt32) (t : Int) :
    (rtc.setTime bits tick t).getTime bits tick = wrap bits t := by
  rw [SoftRtc.getTime, show (rtc.setTime bits tick t).elapsed tick = rtc.elapsed tick from rfl]
  rw [show (rtc.setTime bits tick t).initTime = wrap bits (t - rtc.elapsed tick) from rfl, wrap_add_wrap]
  congr 1
  omega

/-- The zone is taken off by `mktime` and put back by `localtime_r`, whatever
the intermediate results wrap to. -/
private theorem localTz_written (bits : Nat) (rtc : SoftRtc) (tick : UInt32) {t : Int} (some : 0 < bits)
    (fits : Fits bits t) :
    localTz bits ((rtc.setTime bits tick (wrap bits (wrap bits t - 3600 * fixedTimezone))).getTime bits tick) =
      t := by
  rw [getTime_setTime, localTz, wrap_add_wrap]
  have collapse : wrap bits (wrap bits t - 3600 * fixedTimezone) = wrap bits (t - 3600 * fixedTimezone) := by
    rw [Int.sub_eq_add_neg, wrap_add_wrap, Int.sub_eq_add_neg]
  rw [collapse, wrap_add_wrap, show t - 3600 * fixedTimezone + fixedTimezone * 3600 = t by omega, wrap_of_fits some fits]

theorem written (bits : Nat) (rtc : SoftRtc) (tick : UInt32) {t : Tm} {date : Civil.Date} {hour minute second : Int}
    (some : 0 < bits) (valid : date.Valid) (late : 1970 ≤ date.year) (small : date.year < 2147483648)
    (denotes : Denotes t date hour minute second) (clock : Clock hour minute second)
    (fits : Fits bits (localSeconds date.number hour minute second)) :
    ∃ now, mktime bits t = Option.some now ∧
      localTz bits ((rtc.setTime bits tick now).getTime bits tick) = localSeconds date.number hour minute second := by
  obtain ⟨left, made⟩ := timegm_spec bits valid late small denotes clock
  refine ⟨_, ?_, localTz_written bits rtc tick some fits⟩
  rw [mktime, made]
  rfl

theorem setTime_spec (bits : Nat) (rtc : SoftRtc) (tick : UInt32) {hour minute second : Int} (some : 0 < bits)
    (clock : Clock hour minute second) (positive : 0 ≤ localTz bits (rtc.getTime bits tick))
    (era : localTz bits (rtc.getTime bits tick) / 86400 < Civil.yearStart 2147483648)
    (fits : Fits bits (localSeconds (localTz bits (rtc.getTime bits tick) / 86400) hour minute second)) :
    ∃ rtc', setTime bits tick rtc hour minute second = Option.some rtc' ∧
      localTz bits (rtc'.getTime bits tick) =
        localSeconds (localTz bits (rtc.getTime bits tick) / 86400) hour minute second := by
  obtain ⟨date, valid, number, late, small, shown, -, -⟩ := gmtimeR_spec positive era
  have denotes : Denotes { localtimeR bits (rtc.getTime bits tick) with tmHour := hour, tmMin := minute, tmSec := second }
      date hour minute second := ⟨shown.year, shown.month, shown.day, rfl, rfl, rfl⟩
  rw [← number] at fits ⊢
  obtain ⟨now, made, shows⟩ := written bits rtc tick some valid late small denotes clock fits
  exact ⟨rtc.setTime bits tick now, by simp only [setTime, made]; rfl, shows⟩

theorem setDate_spec (bits : Nat) (rtc : SoftRtc) (tick : UInt32) {number hour minute second month day : Int}
    {year : Int} (some : 0 < bits) (clock : Clock hour minute second)
    (shown : localTz bits (rtc.getTime bits tick) = localSeconds number hour minute second)
    (positive : 0 ≤ number) (era : number < Civil.yearStart 2147483648) (first : 1 ≤ month)
    (valid : (Civil.Date.mk year month.toNat day).Valid) (late : 1970 ≤ year) (small : year < 2147483648)
    (fits : Fits bits (localSeconds (Civil.Date.mk year month.toNat day).number hour minute second)) :
    ∃ rtc', setDate bits tick rtc year month day = Option.some rtc' ∧
      localTz bits (rtc'.getTime bits tick) =
        localSeconds (Civil.Date.mk year month.toNat day).number hour minute second := by
  obtain ⟨parts, hours, minutes, seconds⟩ := localSeconds_parts number clock
  have nonneg : 0 ≤ localSeconds number hour minute second := by
    obtain ⟨⟨_, _⟩, ⟨_, _⟩, _, _⟩ := clock
    unfold localSeconds
    omega
  obtain ⟨old, -, -, -, -, split, -, -⟩ := gmtimeR_spec nonneg (by rw [parts]; exact era)
  rw [hours, minutes, seconds] at split
  have same : localtimeR bits (rtc.getTime bits tick) = gmtimeR (localSeconds number hour minute second) := by
    rw [localtimeR, shown]
  have denotes : Denotes { localtimeR bits (rtc.getTime bits tick) with
      tmYear := year - 1900, tmMon := month - 1, tmMday := day } ⟨year, month.toNat, day⟩ hour minute second := by
    rw [same]
    exact ⟨rfl, by simp only; omega, rfl, split.hour, split.minute, split.second⟩
  obtain ⟨now, made, shows⟩ := written bits rtc tick some valid late small denotes clock fits
  exact ⟨rtc.setTime bits tick now, by simp only [setDate, made]; rfl, shows⟩

/-- `ctime` prints the valid date and the time of day of the local time. -/
theorem ctime_spec (bits : Nat) (t : Int) {date : Civil.Date} {hour minute second : Int} (valid : date.Valid)
    (era : 1970 ≤ date.year ∧ date.year ≤ 9999) (clock : Clock hour minute second)
    (shown : localTz bits t = localSeconds date.number hour minute second) :
    ctime bits t = some (stamp date hour minute second) := by
  have start := Civil.yearStart_mono era.1
  have stop := Civil.yearStart_mono (show date.year + 1 ≤ 10000 by omega)
  have last : Civil.yearStart 10000 < Civil.yearStart 2147483648 := by decide
  have inYear := valid.dayOfYear_bounds
  have next := Civil.yearStart_succ date.year
  have origin := Civil.yearStart_1970
  have number : 0 ≤ date.number ∧ date.number < Civil.yearStart 2147483648 := by unfold Civil.Date.number; omega
  obtain ⟨parts, hours, minutes, seconds⟩ := localSeconds_parts date.number clock
  have nonneg : 0 ≤ localSeconds date.number hour minute second := by
    obtain ⟨⟨_, _⟩, ⟨_, _⟩, _, _⟩ := clock
    unfold localSeconds
    omega
  obtain ⟨found, fine, same, -, -, denotes, weekday, -⟩ := gmtimeR_spec nonneg (by rw [parts]; exact number.2)
  rw [parts] at same
  obtain rfl := fine.unique valid same
  rw [hours, minutes, seconds] at denotes
  rw [ctime, localtimeR, shown]
  exact asctimeR_eq valid (by omega) denotes clock weekday

/-- What the save hands to the clock is what the clock then shows. -/
def Shows (bits : Nat) (tick : UInt32) (rtc : SoftRtc) (g : Globals) : Prop :=
  ∃ rtc', pressAt bits tick g rtc .select = some ({ g with menuIndex := 0 }, rtc') ∧
    ctime bits (rtc'.getTime bits tick) = some (stamp ⟨2022, g.month.toNat, g.day⟩ g.hour g.minute g.second)

/-- With a 32-bit `time_t`, five in the morning of the last day it can count is
out of reach, and the time that wraps is what the new date is set under. -/
theorem save_wraps_2038 : ¬ ∀ tick rtc g, g.menuIndex = 5 → Clock g.hour g.minute g.second →
    (Civil.Date.mk 2022 g.month.toNat g.day).Valid → 0 ≤ localTz 32 (rtc.getTime 32 tick) → Shows 32 tick rtc g := by
  intro always
  let g : Globals := { menuIndex := 5, hour := 5, month := 6, day := 15 }
  let rtc : SoftRtc := { initTick := 0, initTime := 2147446800 }
  obtain ⟨set, pressed, shown⟩ := always 0 rtc g rfl (by decide) (by decide) (by decide)
  have shows : ((pressAt 32 0 g rtc .select).bind fun after => ctime 32 (after.2.getTime 32 0)) =
      some (stamp ⟨2022, 6, 15⟩ 5 0 0) := by
    rw [pressed]
    exact shown
  exact absurd shows (by decide +kernel)

/-- A save shows as itself on every clock between 1970 and the last year of an
`int`, so long as the saved time of day of the old date is a time the clock can hold. -/
theorem save_shows (bits : Nat) (tick : UInt32) (rtc : SoftRtc) (g : Globals) (wide : 32 ≤ bits)
    (menu : g.menuIndex = 5) (clock : Clock g.hour g.minute g.second)
    (valid : (Civil.Date.mk 2022 g.month.toNat g.day).Valid) (positive : 0 ≤ localTz bits (rtc.getTime bits tick))
    (era : localTz bits (rtc.getTime bits tick) / 86400 < Civil.yearStart 2147483648)
    (held : localSeconds (localTz bits (rtc.getTime bits tick) / 86400) g.hour g.minute g.second < 2 ^ (bits - 1)) :
    Shows bits tick rtc g := by
  have width := half_le wide
  have bounds := clock
  unfold Clock at bounds
  have kept : Fits bits (localSeconds (localTz bits (rtc.getTime bits tick) / 86400) g.hour g.minute g.second) := by
    unfold localSeconds at held ⊢
    exact ⟨by omega, held⟩
  obtain ⟨middle, timed, halfway⟩ := setTime_spec bits rtc tick (by omega) clock positive era kept
  have inYear := valid.dayOfYear_bounds
  have year : Civil.yearStart 2022 = 18993 := by decide
  have length : Civil.yearLength 2022 = 365 := by decide
  have number : (Civil.Date.mk 2022 g.month.toNat g.day).number =
      18993 + (Civil.Date.mk 2022 g.month.toNat g.day).dayOfYear := by rw [Civil.Date.number, year]
  simp only [length] at inYear
  have fits : Fits bits (localSeconds (Civil.Date.mk 2022 g.month.toNat g.day).number g.hour g.minute g.second) := by
    simp only [number, localSeconds]
    exact ⟨by omega, by omega⟩
  have first : 1 ≤ g.month := by have := valid.month.1; simp only at this; omega
  obtain ⟨last, dated, shown⟩ := setDate_spec bits middle tick (by omega) clock halfway (by omega) era first valid
    (by decide) (by decide) fits
  refine ⟨last, ?_, ctime_spec bits _ valid ⟨by simp, by simp⟩ clock shown⟩
  have saves : g.menuIndex + 1 > 5 := by omega
  simp [pressAt, press, interrupt, selectBtn, saves, RtcCall.perform, timed, dated]

theorem save_shows_march_3 : Shows 32 7000 { initTick := 4000, initTime := 951782400 }
    { menuIndex := 5, hour := 23, minute := 59, second := 8, month := 3, day := 3 } :=
  save_shows 32 7000 _ _ (by decide) rfl (by decide) (by decide) (by decide) (by decide +kernel) (by decide)

end SmartWatch.Proofs.Save
