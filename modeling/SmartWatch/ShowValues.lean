import SmartWatch.Buttons
import SmartWatch.Display

/-! One turn of the loop of `showValues_entry`: the text it draws for the menu it
finds open, and the strings `itoa` leaves behind for later turns. -/

namespace SmartWatch

/-- The sizes of the fonts of `fonts.c`. -/
inductive Font where
  | font7x10
  | font11x18
  | clockFont
deriving DecidableEq, Repr

def Font.width : Font → UInt8
  | font7x10 => 7
  | font11x18 => 11
  | clockFont => 20

def Font.height : Font → UInt8
  | font7x10 => 10
  | font11x18 => 18
  | clockFont => 50

/-- The number of rows in `Font7x10`, `Font11x18` and `ClockFont`. -/
def Font.tableLength : Font → Nat
  | font7x10 => 950
  | font11x18 => 1710
  | clockFont => 1350

inductive Ink where
  /-- `Theme` on `Background`. -/
  | plain
  /-- `Background` on `Theme`. -/
  | swapped
deriving DecidableEq, Repr

structure Draw where
  routine : Routine := .writeString
  x : UInt16
  y : UInt16
  str : List Char
  font : Font
  ink : Ink
deriving DecidableEq, Repr

def Draw.cells (draw : Draw) : List Cell := draw.routine.cells draw.font.width draw.font.height draw.x draw.y draw.str

/-- The draw when its string is given as the bytes it lies in. -/
def Draw.read (draw : Draw) : Draw := { draw with str := draw.routine.text draw.str }

def itoa (value : Int) : List Char :=
  if value < 0 then '-' :: Nat.toDigits 10 value.natAbs else Nat.toDigits 10 value.natAbs

/-- `Hour_str` and its like. They start as zero bytes. Each holds its own string, as
in a memory with a byte free behind every array (`Buffers.padded_run`); where the
arrays are packed, the third byte of a number goes to its neighbour. -/
structure Strings where
  hourStr : List Char := []
  minuteStr : List Char := []
  secondStr : List Char := []
  dayStr : List Char := []
deriving DecidableEq, Repr

/-- What `getValues` has left in its strings. -/
structure Readings where
  battString : List Char
  string : List Char
  stepString : List Char
deriving DecidableEq, Repr

/-- The two icons drawn at the start and after a change of theme. -/
def icons : List Draw :=
  [{ x := 210, y := 10, str := ['%'], font := .font7x10, ink := .plain },
    { x := 85, y := 180, str := ['!'], font := .clockFont, ink := .plain }]

/-- The case of menu 0 and the default case. -/
def basicScreen (readings : Readings) : List Draw :=
  [{ x := 190, y := 10, str := readings.battString, font := .font7x10, ink := .plain },
    { routine := .rtcSt7789Time, x := 40, y := 60, str := readings.string, font := .clockFont, ink := .plain },
    { routine := .rtcSt7789Date, x := 65, y := 120, str := readings.string, font := .font11x18, ink := .plain },
    { x := 105, y := 180, str := readings.stepString, font := .font11x18, ink := .plain }]

/-- A number, with a `"0"` in front of it when its counter is below 10. -/
def numberDraws (counter : Int) (str : List Char) (left right y : UInt16) (font : Font) (ink : Ink) : List Draw :=
  if counter < 10 then
    [{ x := left, y, str := ['0'], font, ink }, { x := right, y, str, font, ink }]
  else
    [{ x := left, y, str, font, ink }]

def hourDraws (g : Globals) (strings : Strings) (ink : Ink) : List Draw :=
  numberDraws g.hoursbutton strings.hourStr 40 60 60 .clockFont ink

def minuteDraws (g : Globals) (strings : Strings) (ink : Ink) : List Draw :=
  numberDraws g.minutesbutton strings.minuteStr 100 120 60 .clockFont ink

def secondDraws (g : Globals) (strings : Strings) (ink : Ink) : List Draw :=
  numberDraws g.secondsbutton strings.secondStr 160 180 60 .clockFont ink

def dayDraws (g : Globals) (strings : Strings) (ink : Ink) : List Draw :=
  numberDraws g.daysbutton strings.dayStr 153 164 120 .font11x18 ink

def monthText (monthbutton : Int) : List Char :=
  match monthbutton with
  | 1 => "Jan".toList
  | 2 => "Feb".toList
  | 3 => "Mar".toList
  | 4 => "Apr".toList
  | 5 => "May".toList
  | 6 => "Jun".toList
  | 7 => "Jul".toList
  | 8 => "Aug".toList
  | 9 => "Sep".toList
  | 10 => "Oct".toList
  | 11 => "Nov".toList
  | 12 => "Dec".toList
  | _ => "Jan".toList

def monthDraws (g : Globals) : List Draw :=
  [{ routine := .rtcSt7789Date, x := 109, y := 120, str := monthText g.monthbutton, font := .font11x18, ink := .swapped }]

/-- The `switch` on `menu_index`. A menu takes the highlight off the field of the
menu before it, with the string that menu has left, and puts it on its own. -/
def showMenu (g : Globals) (strings : Strings) (readings : Readings) : Strings × List Draw :=
  match g.menuIndex with
  | 1 =>
    let strings := { strings with hourStr := itoa g.hour }
    (strings, hourDraws g strings .swapped)
  | 2 =>
    let strings := { strings with minuteStr := itoa g.minute }
    (strings, hourDraws g strings .plain ++ minuteDraws g strings .swapped)
  | 3 =>
    let strings := { strings with secondStr := itoa g.second }
    (strings, minuteDraws g strings .plain ++ secondDraws g strings .swapped)
  | 4 => (strings, secondDraws g strings .plain ++ monthDraws g)
  | 5 =>
    let strings := { strings with dayStr := itoa g.day }
    (strings, dayDraws g strings .swapped)
  | _ => (strings, basicScreen readings)

/-- One turn, from the semaphore on. -/
def showValues (themeChanged : Bool) (g : Globals) (strings : Strings) (readings : Readings) : Strings × List Draw :=
  let (strings, draws) := showMenu g strings readings
  (strings, (if themeChanged then icons else []) ++ draws)

end SmartWatch
