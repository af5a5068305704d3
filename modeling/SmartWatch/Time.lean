import SmartWatch.Lib.TwosComplement

/-! The calendar functions of `time.c`. `time_t` has the width the build gives it:
`rtconfig.py` compiles with `-D_USE_LONG_TIME_T`, the 32-bit `long`, and newlib's
own default is 64 bits. Reads outside the lookup tables are undefined (`none`). -/

namespace SmartWatch
open TwosComplement

/-- Conversion to `int`. -/
def toInt (value : Int) : Int := wrap 32 value

structure Tm where
  tmSec : Int
  tmMin : Int
  tmHour : Int
  tmMday : Int
  tmMon : Int
  tmYear : Int
  tmWday : Int
  tmYday : Int
  tmIsdst : Int := 0
deriving DecidableEq, Repr

/-- `RT_LIBC_FIXED_TIMEZONE` of `rtconfig.h`. -/
def fixedTimezone : Int := 8

/-- `SPD`. -/
def secondsPerDay : Int := 24 * 60 * 60

/-- `__spm`: days before each month of a year that is not a leap year. -/
def spm : List Int := [0, 31, 59, 90, 120, 151, 181, 212, 243, 273, 304, 334, 365]

def spm? (month : Int) : Option Int := if 0 ≤ month then spm[month.toNat]? else none

def days : List Char := "Sun Mon Tue Wed Thu Fri Sat ".toList

def months : List Char := "Jan Feb Mar Apr May Jun Jul Aug Sep Oct Nov Dec ".toList

/-- The four characters read as one `int` at `table + (index << 2)`. -/
def fourChars (table : List Char) (index : Int) : Option (List Char) :=
  if 0 ≤ index ∧ 4 * index.toNat + 4 ≤ table.length then some ((table.drop (4 * index.toNat)).take 4) else none

def isleap (year : Int) : Bool := year.tmod 4 = 0 && (year.tmod 100 ≠ 0 || year.tmod 400 = 0)

/-- A `char` computed in `int`. -/
def toChar (code : Int) : Char := Char.ofNat (code % 256).toNat

def num2str (i : Int) : List Char := [toChar (i.tdiv 10 + 48), toChar (i.tmod 10 + 48)]

/-- `for (i = 1970;; ++i)`: whole years are taken off the days while they fit.
Each turn takes off at least 365, so the days themselves bound the turns. -/
def yearLoop : Nat → Int → Int → Int × Int
  | 0, i, work => (i, work)
  | turns + 1, i, work =>
    let k := if isleap (toInt i) then 366 else 365
    if work ≥ k then yearLoop turns (i + 1) (work - k) else (i, work)

/-- `for (i = 11; i && (__spm[i] > work); --i)`. -/
def monthLoop (work : Int) : Nat → Nat
  | 0 => 0
  | i + 1 => if spm.getD (i + 1) 0 > work then monthLoop work i else i + 1

/-- The month and day of the month of a day of the year. February 29 is day 59 of
a leap year; it and every later day are looked up one day earlier. -/
def monthDay (leaps : Bool) (yday : Int) : Nat × Int :=
  let late := leaps && decide (yday > 58)
  let mday := if late && decide (yday = 59) then 2 else 1
  let work := if late then yday - 1 else yday
  let month := monthLoop work 11
  (month, mday + (work - spm.getD month 0))

def gmtimeR (timep : Int) : Tm :=
  let clock := timep.tmod secondsPerDay
  let day := timep.tdiv secondsPerDay
  let (i, yday) := yearLoop day.toNat 1970 day
  let (month, mday) := monthDay (isleap (toInt i)) yday
  { tmSec := clock.tmod 60
    tmMin := (clock.tdiv 60).tmod 60
    tmHour := (clock.tdiv 60).tdiv 60
    tmMday := toInt mday
    tmMon := month
    tmYear := toInt (i - 1900)
    tmWday := (4 + day).tmod 7
    tmYday := toInt yday }

/-- The local time `localtime_r` hands to `gmtime_r`. -/
def localTz (bits : Nat) (t : Int) : Int := wrap bits (t + fixedTimezone * 3600)

def localtimeR (bits : Nat) (t : Int) : Tm := gmtimeR (localTz bits t)

/-- `while (t->tm_mday > __spm[1 + t->tm_mon])`. The table is cumulative, so only
January leaves the day as it is; `turns` bounds the loop. -/
def mdayLoop : Nat → Tm → Option Tm
  | 0, _ => none
  | turns + 1, t => do
    let last ← spm? (1 + t.tmMon)
    if t.tmMday > last then
      let extra := if t.tmMon = 1 && isleap (toInt (t.tmYear + 1900)) then 1 else 0
      let before ← spm? t.tmMon
      let t := { t with tmMday := t.tmMday - extra - before, tmMon := t.tmMon + 1 }
      mdayLoop turns (if t.tmMon > 11 then { t with tmMon := 0, tmYear := t.tmYear + 1 } else t)
    else
      some t

/-- The carries at the head of `timegm`, from seconds up to months. -/
def carry (t : Tm) : Tm :=
  let t := if t.tmSec > 60 then { t with tmMin := t.tmMin + t.tmSec.tdiv 60, tmSec := t.tmSec.tmod 60 } else t
  let t := if t.tmMin > 60 then { t with tmHour := t.tmHour + t.tmMin.tdiv 60, tmMin := t.tmMin.tmod 60 } else t
  let t := if t.tmHour > 24 then { t with tmMday := t.tmMday + t.tmHour.tdiv 24, tmHour := t.tmHour.tmod 24 } else t
  if t.tmMon > 12 then { t with tmYear := t.tmYear + t.tmMon.tdiv 12, tmMon := t.tmMon.tmod 12 } else t

/-- Days from 1970 to the year `1970 + years`, with the century correction from 2101 on. -/
def yearDays (years : Int) : Int :=
  let day := years * 365 + (years + 1).tdiv 4
  if years ≥ 131 then
    let centuries := (years - 131).tdiv 100
    let day := day - (centuries / 4 * 3 + 1)
    let rest := if centuries % 4 = 3 then centuries % 4 - 1 else centuries % 4
    day - rest
  else
    day

/-- `timegm`: the broken-down time it leaves behind and the time it returns.
`years` is taken from `tm_year` before the carries. -/
def timegm (bits : Nat) (t : Tm) : Option (Tm × Int) := do
  let years := t.tmYear - 70
  let t := carry t
  let t ← mdayLoop (13 * (t.tmMday.toNat + 1)) t
  if t.tmYear < 70 then
    return (t, -1)
  let before ← spm? t.tmMon
  let yday := before + t.tmMday - 1 + (if isleap (toInt (t.tmYear + 1900)) && decide (t.tmMon > 1) then 1 else 0)
  let day := yearDays years + yday
  let t := { t with tmYday := yday, tmWday := (day + 4).tmod 7 }
  return (t, wrap bits (((day * 24 + t.tmHour) * 60 + t.tmMin) * 60 + t.tmSec))

def mktime (bits : Nat) (t : Tm) : Option Int :=
  (timegm bits t).map fun result => wrap bits (result.2 - 3600 * fixedTimezone)

/-- The 25 characters `asctime_r` writes before the terminating NUL, of which the
first eight are the bytes it has copied for the weekday and the month. -/
def asctimeText (day month : List Char) (t : Tm) : List Char :=
  let mday := num2str t.tmMday
  let mday := if mday.head? = some '0' then ' ' :: mday.tail else mday
  day ++ month ++ mday ++ [' '] ++ num2str t.tmHour ++ [':'] ++ num2str t.tmMin ++ [':'] ++
    num2str t.tmSec ++ [' '] ++ num2str ((t.tmYear + 1900).tdiv 100) ++ num2str ((t.tmYear + 1900).tmod 100) ++ ['\n']

def asctimeR (t : Tm) : Option (List Char) := do
  let day ← fourChars days t.tmWday
  let month ← fourChars months t.tmMon
  return asctimeText day month t

def ctime (bits : Nat) (t : Int) : Option (List Char) := asctimeR (localtimeR bits t)

/-- The four bytes the program finds at `table + (index << 2)`. `around` is the
memory around the table, by the offset from its start. -/
def fourBytes (around : Int → Char) (table : List Char) (index : Int) : List Char :=
  (fourChars table index).getD
    [around (4 * index), around (4 * index + 1), around (4 * index + 2), around (4 * index + 3)]

/-- The 25 bytes that `ctime` leaves in its buffer, with `around` for the memory
around `days`. -/
def ctimeBytes (around : Int → Char) (bits : Nat) (t : Int) : Option (List Char) := do
  let t := localtimeR bits t
  let month ← fourChars months t.tmMon
  return asctimeText (fourBytes around days t.tmWday) month t

end SmartWatch
