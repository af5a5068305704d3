import SmartWatch.Proofs.Calendar

/-! The text of a date and a time of day, and that `asctime_r` writes it. -/

namespace SmartWatch.Proofs.Stamp
open Calendar

def weekdayName (weekday : Int) : List Char :=
  match weekday with
  | 0 => "Sun".toList
  | 1 => "Mon".toList
  | 2 => "Tue".toList
  | 3 => "Wed".toList
  | 4 => "Thu".toList
  | 5 => "Fri".toList
  | _ => "Sat".toList

def monthName (month : Nat) : List Char :=
  match month with
  | 1 => "Jan".toList
  | 2 => "Feb".toList
  | 3 => "Mar".toList
  | 4 => "Apr".toList
  | 5 => "May".toList
  | 6 => "Jun".toList
  | 7 => "Jul".toList
  | 8 => "Aug".toList
  | 9 => "Sep".toList
  | 10 => "Oct".toList
  | 11 => "Nov".toList
  | _ => "Dec".toList

def twoDigits (number : Int) : List Char := [Nat.digitChar (number / 10).toNat, Nat.digitChar (number % 10).toNat]

/-- The day of the month, with a space for a leading zero. -/
def dayText (day : Int) : List Char := if day < 10 then [' ', Nat.digitChar day.toNat] else twoDigits day

def clockText (hour minute second : Int) : List Char :=
  twoDigits hour ++ [':'] ++ twoDigits minute ++ [':'] ++ twoDigits second

/-- For example `Wed Jun 30 21:49:08 1993`, and a newline. -/
def stamp (date : Civil.Date) (hour minute second : Int) : List Char :=
  weekdayName (Civil.weekday date.number) ++ [' '] ++ monthName date.month ++ [' '] ++ dayText date.day ++ [' '] ++
    clockText hour minute second ++ [' '] ++ twoDigits (date.year / 100) ++ twoDigits (date.year % 100) ++ ['\n']

/-- The codes of the characters lie between two bounds. -/
def Codes (low high : Nat) (str : List Char) : Prop := ∀ ch ∈ str, low ≤ ch.toNat ∧ ch.toNat ≤ high

instance (low high : Nat) (str : List Char) : Decidable (Codes low high str) :=
  List.decidableBAll (fun ch : Char => low ≤ ch.toNat ∧ ch.toNat ≤ high) str

theorem Codes.append {low high : Nat} {first rest : List Char} (one : Codes low high first)
    (other : Codes low high rest) : Codes low high (first ++ rest) := by
  intro ch member
  rcases List.mem_append.mp member with member | member
  · exact one ch member
  · exact other ch member

theorem Codes.mono {low high wideLow wideHigh : Nat} {str : List Char} (codes : Codes low high str)
    (below : wideLow ≤ low) (above : high ≤ wideHigh) : Codes wideLow wideHigh str := fun ch member =>
  ⟨Nat.le_trans below (codes ch member).1, Nat.le_trans (codes ch member).2 above⟩

theorem digitChar_printable (digit : Nat) (high : digit ≤ 9) : Nat.digitChar digit ≠ '\n' ∧
    Nat.digitChar digit ≠ ' ' := by
  have all : ∀ digit < 10, Nat.digitChar digit ≠ '\n' ∧ Nat.digitChar digit ≠ ' ' := by decide
  exact all digit (by omega)

theorem weekdayName_shape (weekday : Int) : ∃ first second third, weekdayName weekday = [first, second, third] ∧
    '\n' ∉ [first, second, third] ∧ ' ' ∉ [first, second, third] := by
  unfold weekdayName
  split <;> exact ⟨_, _, _, rfl, by decide, by decide⟩

theorem monthName_shape (month : Nat) : ∃ first second third, monthName month = [first, second, third] ∧
    '\n' ∉ [first, second, third] ∧ ' ' ∉ [first, second, third] := by
  unfold monthName
  split <;> exact ⟨_, _, _, rfl, by decide, by decide⟩

theorem dayText_shape (day : Int) (low : 1 ≤ day) (high : day ≤ 31) : ∃ tens ones, dayText day = [tens, ones] ∧
    '\n' ∉ [tens, ones] ∧ ones ≠ ' ' := by
  unfold dayText
  split
  · have := digitChar_printable day.toNat (by omega)
    exact ⟨_, _, rfl, by simp [Ne.symm this.1], this.2⟩
  · have tens := digitChar_printable (day / 10).toNat (by omega)
    have ones := digitChar_printable (day % 10).toNat (by omega)
    exact ⟨_, _, rfl, by simp [Ne.symm tens.1, Ne.symm ones.1], ones.2⟩

theorem twoDigits_shape {number : Int} (low : 0 ≤ number) (high : number ≤ 59) : ∃ tens ones,
    twoDigits number = [tens, ones] ∧ '\n' ∉ [tens, ones] ∧ ' ' ∉ [tens, ones] := by
  have tens := digitChar_printable (number / 10).toNat (by omega)
  have ones := digitChar_printable (number % 10).toNat (by omega)
  exact ⟨_, _, rfl, by simp [Ne.symm tens.1, Ne.symm ones.1], by simp [Ne.symm tens.2, Ne.symm ones.2]⟩

theorem toChar_digit {digit : Int} (low : 0 ≤ digit) (high : digit ≤ 9) :
    toChar (digit + 48) = Nat.digitChar digit.toNat := by
  have all : ∀ digit : Fin 10, toChar ((digit.val : Int) + 48) = Nat.digitChar digit.val := by decide
  have := all ⟨digit.toNat, by omega⟩
  simpa only [Int.toNat_of_nonneg low] using this

/-- Negative numbers, too, and 100, whose tens are a `:`. -/
theorem num2str_codes {i : Int} (within : i.natAbs ≤ 100) : Codes 38 58 (num2str i) := by
  have all : ∀ digit : Fin 21, 38 ≤ (toChar ((digit.val : Int) - 10 + 48)).toNat ∧
      (toChar ((digit.val : Int) - 10 + 48)).toNat ≤ 58 := by decide
  have digit : ∀ digit : Int, digit.natAbs ≤ 10 → 38 ≤ (toChar (digit + 48)).toNat ∧ (toChar (digit + 48)).toNat ≤ 58 := by
    intro digit within
    have there := all ⟨(digit + 10).toNat, by omega⟩
    have same : (((digit + 10).toNat : Nat) : Int) - 10 = digit := by omega
    rwa [same] at there
  have tens : (i.tdiv 10).natAbs = i.natAbs / 10 := Int.natAbs_tdiv i 10
  have ones : (i.tmod 10).natAbs = i.natAbs % 10 := Int.natAbs_tmod i 10
  intro ch member
  rcases List.mem_cons.mp member with rfl | member
  · exact digit _ (by omega)
  · obtain rfl := List.mem_singleton.mp member
    exact digit _ (by omega)

private theorem num2str_eq (number : Int) (low : 0 ≤ number) (high : number ≤ 99) :
    num2str number = twoDigits number := by
  rw [num2str, Int.tdiv_eq_ediv_of_nonneg low, Int.tmod_eq_emod_of_nonneg low,
    toChar_digit (by omega) (by omega), toChar_digit (by omega) (by omega)]
  rfl

theorem fourChars_days {weekday : Int} (low : 0 ≤ weekday) (high : weekday ≤ 6) :
    fourChars days weekday = some (weekdayName weekday ++ [' ']) := by
  have which : weekday = 0 ∨ weekday = 1 ∨ weekday = 2 ∨ weekday = 3 ∨ weekday = 4 ∨ weekday = 5 ∨ weekday = 6 := by omega
  rcases which with rfl | rfl | rfl | rfl | rfl | rfl | rfl <;> decide

theorem fourChars_months {month : Nat} (within : month ≤ 11) :
    fourChars months month = some (monthName (month + 1) ++ [' ']) := by
  have all : ∀ month < 12, fourChars months (month : Nat) = some (monthName (month + 1) ++ [' ']) := by decide
  exact all month (by omega)

theorem fourChars_codes {table chars : List Char} {index : Int} {low high : Nat} (codes : Codes low high table)
    (found : fourChars table index = some chars) : Codes low high chars := by
  unfold fourChars at found
  split at found
  next =>
    cases found
    exact fun ch member => codes ch (List.mem_of_mem_drop (List.mem_of_mem_take member))
  next => cases found

theorem asctimeR_told {t : Tm} {day month : List Char} (weekday : fourChars days t.tmWday = some day)
    (mon : fourChars months t.tmMon = some month) : asctimeR t ≠ none := by
  simp only [asctimeR, weekday, mon]
  exact Option.some_ne_none _

/-- One line of printable characters, when those of its names, its day and its
century are. -/
theorem asctimeText_codes {t : Tm} {weekday month : List Char} (names : Codes 32 126 (weekday ++ month))
    (day : Codes 32 126 (num2str t.tmMday)) (hour : t.tmHour.natAbs ≤ 100) (minute : t.tmMin.natAbs ≤ 100)
    (second : t.tmSec.natAbs ≤ 100) (century : ((t.tmYear + 1900).tdiv 100).natAbs ≤ 100) :
    ∃ line, asctimeText weekday month t = line ++ ['\n'] ∧ Codes 32 126 line := by
  have two : ∀ {i : Int}, i.natAbs ≤ 100 → Codes 32 126 (num2str i) := fun within =>
    (num2str_codes within).mono (by decide) (by decide)
  have blank : Codes 32 126 [' '] := by decide
  have colon : Codes 32 126 [':'] := by decide
  have mday : Codes 32 126 (if (num2str t.tmMday).head? = some '0' then ' ' :: (num2str t.tmMday).tail
      else num2str t.tmMday) := by
    split
    next => exact blank.append fun ch member => day ch (List.mem_of_mem_tail member)
    next => exact day
  have last : ((t.tmYear + 1900).tmod 100).natAbs ≤ 100 := by
    rw [Int.natAbs_tmod]
    exact Nat.le_of_lt (Nat.mod_lt _ (by decide))
  refine ⟨_, rfl, ?_⟩
  have clock := ((((two hour).append colon).append (two minute)).append colon).append (two second)
  have year := blank.append ((two century).append (two last))
  simpa only [List.append_assoc] using (((names.append mday).append blank).append clock).append year

theorem asctimeR_codes {t : Tm} {text : List Char} (written : asctimeR t = some text)
    (day : Codes 32 126 (num2str t.tmMday)) (hour : t.tmHour.natAbs ≤ 100) (minute : t.tmMin.natAbs ≤ 100)
    (second : t.tmSec.natAbs ≤ 100) (century : ((t.tmYear + 1900).tdiv 100).natAbs ≤ 100) :
    ∃ line, text = line ++ ['\n'] ∧ Codes 32 126 line := by
  obtain ⟨weekdayChars, weekday, written⟩ := Option.bind_eq_some_iff.mp written
  obtain ⟨monthChars, month, written⟩ := Option.bind_eq_some_iff.mp written
  have names := (fourChars_codes (show Codes 32 126 days by decide) weekday).append
    (fourChars_codes (show Codes 32 126 months by decide) month)
  cases written
  exact asctimeText_codes names day hour minute second century

private theorem dayText_eq {day : Int} (low : 1 ≤ day) (high : day ≤ 31) :
    (if (num2str day).head? = some '0' then ' ' :: (num2str day).tail else num2str day) = dayText day := by
  have all : ∀ day : Fin 32, (if (num2str (day.val : Nat)).head? = some '0' then ' ' :: (num2str (day.val : Nat)).tail
      else num2str (day.val : Nat)) = dayText (day.val : Nat) := by decide
  have := all ⟨day.toNat, by omega⟩
  simpa only [Int.toNat_of_nonneg (show 0 ≤ day by omega)] using this

theorem asctimeR_eq {t : Tm} {date : Civil.Date} {hour minute second : Int} (valid : date.Valid)
    (era : 0 ≤ date.year ∧ date.year ≤ 9999) (denotes : Denotes t date hour minute second)
    (clock : Clock hour minute second) (weekday : t.tmWday = Civil.weekday date.number) :
    asctimeR t = some (stamp date hour minute second) := by
  obtain ⟨months, same⟩ : ∃ months, date.month = months + 1 := ⟨date.month - 1, by have := valid.month.1; omega⟩
  have mon : t.tmMon = (months : Int) := by rw [denotes.month, same]; omega
  have within : months ≤ 11 := by have := valid.month.2; omega
  have most := Civil.monthLength_le date.year date.month
  have day := valid.day
  have monthChars : fourChars SmartWatch.months t.tmMon = some (monthName date.month ++ [' ']) := by
    rw [mon, same]
    exact fourChars_months within
  have dayChars : fourChars days t.tmWday = some (weekdayName (Civil.weekday date.number) ++ [' ']) := by
    rw [weekday]
    exact fourChars_days (by unfold Civil.weekday; omega) (by unfold Civil.weekday; omega)
  have year : t.tmYear + 1900 = date.year := by rw [denotes.year]; omega
  have mday := dayText_eq day.1 (by omega)
  obtain ⟨hours, minutes, seconds⟩ := clock
  simp only [asctimeR, asctimeText, monthChars, dayChars, Option.bind_eq_bind, Option.bind_some, year, denotes.day, mday,
    denotes.hour, denotes.minute, denotes.second, Int.tdiv_eq_ediv_of_nonneg era.1, Int.tmod_eq_emod_of_nonneg era.1]
  rw [num2str_eq _ hours.1 (by omega), num2str_eq _ minutes.1 (by omega), num2str_eq _ seconds.1 (by omega),
    num2str_eq (date.year / 100) (by omega) (by omega),
    num2str_eq (date.year % 100) (by omega) (by omega)]
  simp only [stamp, clockText, List.append_assoc]
  rfl

end SmartWatch.Proofs.Stamp
