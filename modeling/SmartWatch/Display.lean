/-! The drawing routines of `ST7789.c`, as the steps the processor takes: writing
the DC and CS pins, waiting a tick, and handing one byte to `SPI_SendData`, which
first waits until the data register is empty. -/

namespace SmartWatch

/-- `ST7789_WIDTH`. -/
def screenWidth : Nat := 240

/-- `ST7789_HEIGHT`. -/
def screenHeight : Nat := 280

/-- A font. `data` is the memory around the table, by the offset from its start;
the glyphs of the font are at the offsets the table has. -/
structure FontDef where
  width : UInt8
  height : UInt8
  data : Int → UInt16

inductive Op where
  | dc (high : Bool)
  | cs (high : Bool)
  | mdelay
  /-- One byte for `SPI_SendData`, and whether `LCD_command_write` hands it over. -/
  | send (command : Bool) (byte : UInt8)
deriving DecidableEq, Repr

def lcdSendBytes (command : Bool) (dat : UInt8) : List Op := [.mdelay, .send command dat, .mdelay]

def lcdCommandWrite (command : UInt8) : List Op := [.dc false, .cs false] ++ lcdSendBytes true command ++ [.cs true]

def lcdDataWrite (data : UInt8) : List Op := [.dc true, .cs false] ++ lcdSendBytes false data ++ [.cs true]

def writeData (buff : List UInt8) : List Op := .dc true :: buff.map (.send false)

def highByte (value : UInt16) : UInt8 := (value >>> 8).toUInt8

def lowByte (value : UInt16) : UInt8 := value.toUInt8

def lcdSetWindows (xStart yStart xEnd yEnd : UInt16) : List Op :=
  let yStart := yStart + 20
  let yEnd := yEnd + 20
  lcdCommandWrite 0x2a ++ lcdDataWrite (highByte xStart) ++ lcdDataWrite (lowByte xStart) ++
      lcdDataWrite (highByte xEnd) ++ lcdDataWrite (lowByte xEnd) ++
    lcdCommandWrite 0x2b ++ lcdDataWrite (highByte yStart) ++ lcdDataWrite (lowByte yStart) ++
      lcdDataWrite (highByte yEnd) ++ lcdDataWrite (lowByte yEnd) ++
    lcdCommandWrite 0x2c

def fillRectangle (x y w h color : UInt16) : List Op :=
  if x.toNat ≥ screenWidth ∨ y.toNat ≥ screenHeight then
    []
  else
    let w := if (x.toNat + w.toNat : Int) - 1 ≥ screenWidth then 240 - x else w
    let h := if (y.toNat + h.toNat : Int) - 1 ≥ screenHeight then 280 - y else h
    let pixel := [Op.send false (highByte color), .send false (lowByte color)]
    lcdSetWindows x y (x + w - 1) (y + h - 1) ++ [.cs false, .dc true] ++
      (List.replicate h.toNat (List.replicate w.toNat pixel).flatten).flatten ++ [.cs true, .dc false]

def drawPixel (x y color : UInt16) : List Op :=
  if x.toNat ≥ screenWidth ∨ y.toNat ≥ screenHeight then
    []
  else
    lcdSetWindows x y x y ++ [.cs false, .mdelay] ++ writeData [highByte color, lowByte color] ++ [.mdelay, .cs true]

/-- `(b << j) & 0x8000`. A shift counts modulo 32, as the processor's does. -/
def lit (b : UInt32) (j : Nat) : Bool := (b <<< UInt32.ofNat j) &&& 0x8000 != 0

/-- Row `i` of the glyph of a character. -/
def FontDef.glyphRow (font : FontDef) (ch : Char) (i : Nat) : UInt32 :=
  (font.data ((ch.toNat - 32 : Int) * font.height.toNat + i)).toUInt32

def writeChar (x y : UInt16) (ch : Char) (font : FontDef) (color bgcolor : UInt16) : List Op :=
  lcdSetWindows x y (x + font.width.toUInt16 - 1) (y + font.height.toUInt16 - 1) ++ [.cs false] ++
    (List.range font.height.toNat).flatMap fun i =>
      (List.range font.width.toNat).flatMap fun j =>
        let pixel := if lit (font.glyphRow ch i) j then color else bgcolor
        writeData [highByte pixel, lowByte pixel]

/-- A `WriteChar` call of a text loop. -/
structure Cell where
  x : UInt16
  y : UInt16
  ch : Char
deriving DecidableEq, Repr

/-- The loop the three text routines share: the characters it draws and where.
It wraps at the right edge, stops at the bottom, skips a space at the start of a
wrapped line and every newline, and hands the other characters to `cut`, which
stops it at `none`. Every turn consumes a character or leaves the loop. -/
def textCells {σ : Type} (cut : σ → Char → Option σ) (width height : UInt8) : List Char → UInt16 → UInt16 → σ → List Cell
  | [], _, _, _ => []
  | ch :: str, x, y, state =>
    let wraps := x.toNat + width.toNat ≥ screenWidth
    let x := if wraps then 0 else x
    let y := if wraps then y + height.toUInt16 else y
    if wraps ∧ y.toNat + height.toNat ≥ screenHeight then
      []
    else if wraps ∧ ch = ' ' ∨ ch = '\n' then
      textCells cut width height str x y state
    else
      match cut state ch with
      | none => []
      | some state => ⟨x, y, ch⟩ :: textCells cut width height str (x + width.toUInt16) y state

inductive Routine where
  | writeString
  | rtcSt7789Time
  | rtcSt7789Date
deriving DecidableEq, Repr

/-- `WriteString` draws to the end, `RTC_ST7789_Time` drops the date and stops at
the space before the year, `RTC_ST7789_Date` stops at its fourth space. -/
def Routine.cells (routine : Routine) (width height : UInt8) (x y : UInt16) (str : List Char) : List Cell :=
  match routine with
  | writeString => textCells (fun state _ => some state) width height str x y ()
  | rtcSt7789Time =>
    textCells (fun state ch => if ch = ' ' then none else some state) width height (str.drop 11) x y ()
  | rtcSt7789Date =>
    textCells (fun i ch => if ch = ' ' then (if i + 1 ≥ 4 then none else some (i + 1)) else some i)
      width height str x y 0

/-- The part of the bytes at `str` that the loop walks over: it ends at a NUL, and
`RTC_ST7789_Time` looks at none of the first eleven. -/
def Routine.text (routine : Routine) (bytes : List Char) : List Char :=
  match routine with
  | rtcSt7789Time => bytes.take 11 ++ (bytes.drop 11).takeWhile (· ≠ '\x00')
  | writeString | rtcSt7789Date => bytes.takeWhile (· ≠ '\x00')

def Routine.draw (routine : Routine) (x y : UInt16) (str : List Char) (font : FontDef) (color bgcolor : UInt16) : List Op :=
  [.cs false] ++
    (routine.cells font.width font.height x y str).flatMap
      (fun cell => writeChar cell.x cell.y cell.ch font color bgcolor) ++
    [.cs true]

def writeString : UInt16 → UInt16 → List Char → FontDef → UInt16 → UInt16 → List Op := Routine.writeString.draw

/-- The string has at least 11 characters. -/
def rtcSt7789Time : UInt16 → UInt16 → List Char → FontDef → UInt16 → UInt16 → List Op := Routine.rtcSt7789Time.draw

def rtcSt7789Date : UInt16 → UInt16 → List Char → FontDef → UInt16 → UInt16 → List Op := Routine.rtcSt7789Date.draw

end SmartWatch
