import SmartWatch.Panel
import SmartWatch.ShowValues
import SmartWatch.Theme

/-! The battery on the base screen: the number `getValues_entry` makes of a
conversion of the ADC, and the passes of `showValues_entry` that draw it over
whatever the screen shows. -/

namespace SmartWatch

/-- `Batt`: the subtraction wraps, the product is an `int`. -/
def batt (adc : UInt16) : UInt16 := UInt16.ofNat ((adc - 1800).toNat * 100 / 806)

/-- `itoa(Batt-1,battString,10)`. -/
def battText (adc : UInt16) : List Char := itoa ((batt adc).toNat - 1 : Int)

/-- The rows of `Font7x10` for the characters from `%` to `9`. -/
def font7x10Rows : List UInt16 := [
    0x2000, 0x5400, 0x5800, 0x3000, 0x2800, 0x5400, 0x1400, 0x0800, 0x0000, 0x0000,
    0x1000, 0x2800, 0x2800, 0x1000, 0x3400, 0x4800, 0x4800, 0x3400, 0x0000, 0x0000,
    0x1000, 0x1000, 0x1000, 0x0000, 0x0000, 0x0000, 0x0000, 0x0000, 0x0000, 0x0000,
    0x0800, 0x1000, 0x2000, 0x2000, 0x2000, 0x2000, 0x2000, 0x2000, 0x1000, 0x0800,
    0x2000, 0x1000, 0x0800, 0x0800, 0x0800, 0x0800, 0x0800, 0x0800, 0x1000, 0x2000,
    0x1000, 0x3800, 0x1000, 0x2800, 0x0000, 0x0000, 0x0000, 0x0000, 0x0000, 0x0000,
    0x0000, 0x0000, 0x1000, 0x1000, 0x7C00, 0x1000, 0x1000, 0x0000, 0x0000, 0x0000,
    0x0000, 0x0000, 0x0000, 0x0000, 0x0000, 0x0000, 0x0000, 0x1000, 0x1000, 0x1000,
    0x0000, 0x0000, 0x0000, 0x0000, 0x0000, 0x3800, 0x0000, 0x0000, 0x0000, 0x0000,
    0x0000, 0x0000, 0x0000, 0x0000, 0x0000, 0x0000, 0x0000, 0x1000, 0x0000, 0x0000,
    0x0800, 0x0800, 0x1000, 0x1000, 0x1000, 0x1000, 0x2000, 0x2000, 0x0000, 0x0000,
    0x3800, 0x4400, 0x4400, 0x5400, 0x4400, 0x4400, 0x4400, 0x3800, 0x0000, 0x0000,
    0x1000, 0x3000, 0x5000, 0x1000, 0x1000, 0x1000, 0x1000, 0x1000, 0x0000, 0x0000,
    0x3800, 0x4400, 0x4400, 0x0400, 0x0800, 0x1000, 0x2000, 0x7C00, 0x0000, 0x0000,
    0x3800, 0x4400, 0x0400, 0x1800, 0x0400, 0x0400, 0x4400, 0x3800, 0x0000, 0x0000,
    0x0800, 0x1800, 0x2800, 0x2800, 0x4800, 0x7C00, 0x0800, 0x0800, 0x0000, 0x0000,
    0x7C00, 0x4000, 0x4000, 0x7800, 0x0400, 0x0400, 0x4400, 0x3800, 0x0000, 0x0000,
    0x3800, 0x4400, 0x4000, 0x7800, 0x4400, 0x4400, 0x4400, 0x3800, 0x0000, 0x0000,
    0x7C00, 0x0400, 0x0800, 0x1000, 0x1000, 0x2000, 0x2000, 0x2000, 0x0000, 0x0000,
    0x3800, 0x4400, 0x4400, 0x3800, 0x4400, 0x4400, 0x4400, 0x3800, 0x0000, 0x0000,
    0x3800, 0x4400, 0x4400, 0x4400, 0x3C00, 0x0400, 0x4400, 0x3800, 0x0000, 0x0000
  ]

/-- The fonts of `fonts.c`, with `memory` for the rows that are not modelled. -/
def Font.toFontDef (memory : Font → Int → UInt16) (font : Font) : FontDef :=
  { width := font.width
    height := font.height
    data := fun offset =>
      if font = .font7x10 ∧ 50 ≤ offset ∧ offset < 260 then font7x10Rows.getD (offset - 50).toNat 0 else memory font offset }

/-- `LCD_DISP_BLACK`, the `Background`. -/
def background : UInt16 := 0x0000

def Ink.color (theme : UInt16) : Ink → UInt16
  | plain => theme
  | swapped => background

def Ink.bgcolor (theme : UInt16) : Ink → UInt16
  | plain => background
  | swapped => theme

/-- A drawing routine and the delay behind it. -/
def Draw.ops (memory : Font → Int → UInt16) (theme : UInt16) (draw : Draw) : List Op :=
  draw.routine.draw draw.x draw.y draw.str (draw.font.toFontDef memory) (draw.ink.color theme) (draw.ink.bgcolor theme) ++
    [.mdelay]

def Screen.draw (memory : Font → Int → UInt16) (theme : UInt16) (screen : Screen) (draws : List Draw) : Screen :=
  draws.foldl (fun screen draw => (draw.ops memory theme).foldl Screen.exec screen) screen

/-- A pass of the base screen: the string it drew and the conversion behind it. -/
structure Pass where
  adc : UInt16
  battString : List Char
deriving DecidableEq, Repr

/-- `reading` is none until `getValues` has released the semaphore. The latest pass
is the first of `passes`. -/
structure Gauge where
  screen : Screen
  reading : Option Pass := none
  passes : List Pass := []

inductive GaugeEvent where
  | getValues (adc : UInt16)
  /-- With what the pass finds in `string` and `stepString`. -/
  | pass (string stepString : List Char)
deriving DecidableEq, Repr

def Gauge.step (memory : Font → Int → UInt16) (theme : UInt16) (gauge : Gauge) : GaugeEvent → Gauge
  | .getValues adc => { gauge with reading := some ⟨adc, battText adc⟩ }
  | .pass string stepString =>
    match gauge.reading with
    | none => gauge
    | some reading =>
      { gauge with
        screen := gauge.screen.draw memory theme (basicScreen ⟨reading.battString, string, stepString⟩)
        passes := reading :: gauge.passes }

/-- `main` clears the screen, and `showValues_entry` draws the icons before its loop. -/
def Gauge.start (memory : Font → Int → UInt16) (theme : UInt16) (screen : Screen) : Gauge :=
  { screen := ((fillRectangle 0 0 240 280 background).foldl Screen.exec screen).draw memory theme icons }

end SmartWatch
