import SmartWatch.ShowValues
import SmartWatch.Proofs.Ctime
import SmartWatch.Proofs.Panel
import SmartWatch.Proofs.Save
import SmartWatch.Proofs.TextCut

/-! The date on the base screen. `RTC_ST7789_Date` stops at the fourth space, and
`asctime_r` puts that space behind a day of one digit only. -/

namespace SmartWatch.Proofs.DateLine
open TwosComplement Calendar Stamp Ctime Save TextCut SmartWatch.Proofs.Panel

/-- Weekday, month and day of the month. -/
def dateText (date : Civil.Date) : List Char :=
  weekdayName (Civil.weekday date.number) ++ [' '] ++ monthName date.month ++ [' '] ++ dayText date.day

def dateCall (string : List Char) : Draw :=
  { routine := .rtcSt7789Date, x := 65, y := 120, str := string, font := .font11x18, ink := .plain }

theorem dateCall_drawn (readings : Readings) : dateCall readings.string ∈ basicScreen readings := by
  simp [dateCall, basicScreen]

/-- The date, side by side from its place, is all the call draws. -/
def DrawsDate (bits : Nat) (t : Int) (date : Civil.Date) : Prop :=
  ∃ string, ctime bits t = some string ∧ string.take 10 = dateText date ∧
    (dateCall string).cells = rowCells Font.font11x18.width 65 120 (string.take 10)

/-- The days since 1970 where the watch is. -/
def localDay (t : Int) : Int := (t + fixedTimezone * 3600) / secondsPerDay

theorem dateText_length (date : Civil.Date) : (dateText date).length = 10 := by
  obtain ⟨_, _, _, weekday, -⟩ := weekdayName_shape (Civil.weekday date.number)
  obtain ⟨_, _, _, month, -⟩ := monthName_shape date.month
  have day : (dayText date.day).length = 2 := by
    unfold dayText
    split <;> rfl
  simp only [dateText, weekday, month, List.length_append, List.length_cons, List.length_nil, day]

theorem stamp_date (date : Civil.Date) (hour minute second : Int) :
    ∃ rest, stamp date hour minute second = dateText date ++ ' ' :: rest := by
  simp only [stamp, dateText, List.append_assoc]
  exact ⟨_, rfl⟩

theorem dateText_printable {date : Civil.Date} (valid : date.Valid) : '\n' ∉ dateText date := by
  have most := Civil.monthLength_le date.year date.month
  have days := valid.day
  obtain ⟨_, _, _, weekday, weekdayText, -⟩ := weekdayName_shape (Civil.weekday date.number)
  obtain ⟨_, _, _, month, monthText, -⟩ := monthName_shape date.month
  obtain ⟨_, _, day, dayText, -⟩ := dayText_shape date.day days.1 (by omega)
  simp only [dateText, weekday, month, day, List.mem_append, weekdayText, monthText, dayText, List.mem_singleton,
    or_self, or_false, false_or]
  decide

theorem dateText_spaces {date : Civil.Date} (valid : date.Valid) :
    (dateText date).countP space = if date.day < 10 then 3 else 2 := by
  have most := Civil.monthLength_le date.year date.month
  have days := valid.day
  obtain ⟨_, _, _, weekday, -, weekdaySolid⟩ := weekdayName_shape (Civil.weekday date.number)
  obtain ⟨_, _, _, month, -, monthSolid⟩ := monthName_shape date.month
  have day : (dayText date.day).countP space = if date.day < 10 then 1 else 0 := by
    unfold dayText
    split
    next small =>
      have ones := digitChar_printable date.day.toNat (by omega)
      simp [space, ones.2]
    next large =>
      obtain ⟨_, _, two, -, solid⟩ := twoDigits_shape (show 0 ≤ date.day by omega) (by omega)
      rw [two, countP_space_of_solid solid]
  simp only [dateText, weekday, month, List.countP_append, countP_space_of_solid weekdaySolid,
    countP_space_of_solid monthSolid, day]
  split <;> rfl

/-- The routine draws a beginning that fits on the line and has fewer than four spaces. -/
theorem date_line (first rest : List Char) (short : first.length < 16) (printable : '\n' ∉ first)
    (few : first.countP space < 4) :
    (dateCall (first ++ rest)).cells =
      rowCells Font.font11x18.width 65 120 first ++
        textCells dateCut Font.font11x18.width Font.font11x18.height rest
          (first.foldl (fun x _ => x + Font.font11x18.width.toUInt16) 65) 120 (first.countP space) := by
  have room : (65 : UInt16).toNat + Font.font11x18.width.toNat * first.length < screenWidth := by
    change 65 + 11 * first.length < 240
    omega
  have passes := date_passes (i := 0) first (by omega)
  rw [Nat.zero_add] at passes
  exact textCells_line dateCut _ _ first rest 65 120 0 _ room printable passes

theorem stops_iff {date : Civil.Date} (valid : date.Valid) (rest : List Char) :
    (dateCall (dateText date ++ ' ' :: rest)).cells =
      rowCells Font.font11x18.width 65 120 (dateText date) ↔ date.day < 10 := by
  have length := dateText_length date
  have printable := dateText_printable valid
  have spaces := dateText_spaces valid
  constructor
  · intro same
    apply Decidable.byContradiction
    intro late
    rw [if_neg late] at spaces
    have one : (dateText date ++ [' ']).countP space = 3 := by rw [List.countP_append, spaces]; rfl
    have line := date_line (dateText date ++ [' ']) rest
      (by rw [List.length_append, length]; decide) (by simp [printable]) (by omega)
    rw [List.append_assoc, List.singleton_append, same] at line
    have lengths := congrArg List.length line
    simp only [List.length_append, rowCells_length, List.length_singleton] at lengths
    omega
  · intro early
    rw [if_pos early] at spaces
    rw [date_line (dateText date) (' ' :: rest) (by omega) printable (by omega), spaces]
    have right : (dateText date).foldl (fun x _ => x + Font.font11x18.width.toUInt16) 65 = 175 := by
      obtain ⟨_, _, _, weekday, -⟩ := weekdayName_shape (Civil.weekday date.number)
      obtain ⟨_, _, _, month, -⟩ := monthName_shape date.month
      simp only [dateText, weekday, month, dayText, if_pos early]
      rfl
    rw [right]
    exact List.append_nil _

private theorem drawsDate_iff {bits : Nat} {t : Int} {date : Civil.Date} (valid : date.Valid)
    (era : 1970 ≤ date.year ∧ date.year ≤ 9999) (today : date.number = localDay t)
    (fits : localTz bits t = t + fixedTimezone * 3600) : DrawsDate bits t date ↔ date.day < 10 := by
  have whole : t + fixedTimezone * 3600 = localSeconds (localDay t) ((t + fixedTimezone * 3600) % 86400 / 3600)
      ((t + fixedTimezone * 3600) % 86400 / 60 % 60) ((t + fixedTimezone * 3600) % 86400 % 60) := by
    unfold localSeconds localDay secondsPerDay
    omega
  have clock : Clock ((t + fixedTimezone * 3600) % 86400 / 3600) ((t + fixedTimezone * 3600) % 86400 / 60 % 60)
      ((t + fixedTimezone * 3600) % 86400 % 60) := by
    unfold Clock
    omega
  rw [← today] at whole
  have told := ctime_spec bits t valid era clock (fits.trans whole)
  obtain ⟨rest, text⟩ := stamp_date date ((t + fixedTimezone * 3600) % 86400 / 3600)
    ((t + fixedTimezone * 3600) % 86400 / 60 % 60) ((t + fixedTimezone * 3600) % 86400 % 60)
  rw [text] at told
  have first : (dateText date ++ ' ' :: rest).take 10 = dateText date := List.take_left' (dateText_length date)
  rw [← stops_iff valid rest]
  constructor
  · rintro ⟨string, printed, -, same⟩
    rw [told] at printed
    cases printed
    rwa [first] at same
  · intro same
    exact ⟨_, told, first, by rwa [first]⟩

/-- In its last eight hours a 32-bit `time_t` wraps to 1901, and the weekday printed
is not that of January 19, 2038. -/
theorem wrapped_undrawn {t : Int} {date : Civil.Date} (fits : Fits 32 t) (valid : date.Valid)
    (today : date.number = localDay t) (late : 2 ^ 31 ≤ t + fixedTimezone * 3600) :
    ¬ DrawsDate 32 t date ∧ ¬ date.day < 10 := by
  have day : (localTz 32 t).tdiv secondsPerDay = -24855 ∨ (localTz 32 t).tdiv secondsPerDay = -24854 := by
    rw [wrapped_day fits late]
    split
    · exact .inl rfl
    · exact .inr rfl
  unfold Fits at fits
  simp only [localDay, fixedTimezone, secondsPerDay] at today late
  obtain rfl : date = ⟨2038, 1, 19⟩ :=
    valid.unique (by decide) (today.trans (show _ = (24855 : Int) by omega))
  refine ⟨?_, by decide⟩
  rintro ⟨string, printed, first, -⟩
  have weekday : (localtimeR 32 t).tmWday = (4 + (localTz 32 t).tdiv secondsPerDay).tmod 7 := rfl
  rw [ctime, asctimeR] at printed
  obtain ⟨name, named, printed⟩ := Option.bind_eq_some_iff.mp printed
  obtain ⟨month, -, printed⟩ := Option.bind_eq_some_iff.mp printed
  rcases day with day | day
  · rw [weekday, day, show fourChars days ((4 + -24855 : Int).tmod 7) = none by decide] at named
    cases named
  · rw [weekday, day] at named
    obtain rfl : "Sun ".toList = name := Option.some.inj named
    obtain rfl := Option.some.inj printed
    have letters : some 'S' = some 'T' := congrArg List.head? first
    exact absurd letters (by decide)

/-- On June 14, 2022 the third space stands behind the day, and the time is drawn as well. -/
theorem time_drawn_on_june_14 : ¬ ∀ bits t date, bits = 32 ∨ bits = 64 → Fits bits t → date.Valid →
    1970 ≤ date.year ∧ date.year ≤ 9999 → date.number = localDay t → DrawsDate bits t date := by
  intro always
  have drawn := always 32 1655188304 ⟨2022, 6, 14⟩ (by decide) (by decide) (by decide) (by decide) (by decide)
  exact absurd ((drawsDate_iff (by decide) (by decide) (by decide) (by decide)).mp drawn) (by decide)

/-- The date is drawn as it should be on the first nine days of a month only. -/
theorem dateLine_iff (bits : Nat) (t : Int) (date : Civil.Date) (width : bits = 32 ∨ bits = 64) (fits : Fits bits t)
    (valid : date.Valid) (era : 1970 ≤ date.year ∧ date.year ≤ 9999) (today : date.number = localDay t) :
    DrawsDate bits t date ↔ date.day < 10 := by
  have last := Civil.yearStart_mono (show date.year + 1 ≤ 10000 by omega)
  have days : Civil.yearStart 10000 = 2932897 := by decide
  have inYear := valid.dayOfYear_bounds
  have next := Civil.yearStart_succ date.year
  have held : t < 2932897 * 86400 := by
    simp only [Civil.Date.number, localDay, fixedTimezone, secondsPerDay] at today
    omega
  rcases localTz_cases width fits (Int.lt_trans held (by decide)) with shown | ⟨rfl, late⟩
  · exact drawsDate_iff valid era today shown
  · obtain ⟨undrawn, twoDigits⟩ := wrapped_undrawn fits valid today late
    exact iff_of_false undrawn twoDigits

theorem dateLine_iff_june_9 : DrawsDate 32 1654756304 ⟨2022, 6, 9⟩ :=
  (dateLine_iff 32 1654756304 ⟨2022, 6, 9⟩ (by decide) (by decide) (by decide) (by decide) (by decide)).mpr (by decide)

end SmartWatch.Proofs.DateLine
