import SmartWatch.ShowValues
import SmartWatch.Time

/-! The time on the base screen. `RTC_ST7789_Time` reads the buffer of `asctime`
one character a turn, and `getValues` may write it anew while the thread sleeps
in the delays of `LCD_SetWindows`, which come between two reads. -/

namespace SmartWatch

/-- The local variables of `RTC_ST7789_Time`. `str` is an offset into the buffer. -/
structure Pen where
  x : UInt16
  y : UInt16
  str : Nat
deriving DecidableEq, Repr

inductive Turn where
  | ends
  | skips (pen : Pen)
  | draws (cell : Cell) (pen : Pen)
deriving DecidableEq, Repr

/-- One turn of the loop, with the buffer it finds. -/
def Pen.turn (width height : UInt8) (buffer : List Char) (pen : Pen) : Turn :=
  match buffer[pen.str]? with
  | none => .ends
  | some ch =>
    let wraps := pen.x.toNat + width.toNat ≥ screenWidth
    let x := if wraps then 0 else pen.x
    let y := if wraps then pen.y + height.toUInt16 else pen.y
    if wraps ∧ y.toNat + height.toNat ≥ screenHeight then .ends
    else if wraps ∧ ch = ' ' ∨ ch = '\n' then .skips ⟨x, y, pen.str + 1⟩
    else if ch = ' ' then .ends
    else .draws ⟨x, y, ch⟩ ⟨x + width.toUInt16, y, pen.str + 1⟩

/-- `string` points to no buffer before the first `ctime`. `drawn` are the cells
and `held` the times the buffer has told since the latest pass began. -/
structure Face where
  now : Int := 0
  string : Option (List Char) := none
  pen : Option Pen := none
  drawn : List Cell := []
  held : List Int := []
deriving DecidableEq, Repr

/-- `getValues` takes the time and calls `ctime`, `showValues` calls `RTC_ST7789_Time`
in the case of menu 0, or the loop of `RTC_ST7789_Time` turns. -/
inductive FaceEvent where
  | getValues (now : Int)
  | call
  | turn
deriving DecidableEq, Repr

namespace Face

def step (bits : Nat) (face : Face) : FaceEvent → Option Face
  | .getValues now => do
    let string ← ctime bits now
    return { face with now, string := some string, held := if face.pen.isSome then now :: face.held else face.held }
  | .call =>
    if face.pen.isSome ∨ face.string.isNone then none
    else some { face with pen := some ⟨40, 60, 11⟩, drawn := [], held := [face.now] }
  | .turn => do
    let string ← face.string
    let pen ← face.pen
    match pen.turn Font.clockFont.width Font.clockFont.height string with
    | .ends => return { face with pen := none }
    | .skips pen => return { face with pen := some pen }
    | .draws cell pen => return { face with pen := some pen, drawn := face.drawn ++ [cell] }

end Face

end SmartWatch
