import SmartWatch.Display
import SmartWatch.Lib.SerialLine

/-! The drawing routines on the SPI line. `SPI_SendData` returns as soon as its
byte is in the data register, while the pins move at once. A tick is long enough
for both registers to empty. -/

namespace SmartWatch

/-- The two side pins, `true` when high. -/
structure Pins where
  dc : Bool
  cs : Bool
deriving DecidableEq, Repr

structure Handed where
  command : Bool
  byte : UInt8
deriving DecidableEq, Repr

def Op.onLine : Op → SerialLine.Op Handed Pins
  | .dc high => .pin fun pins => { pins with dc := high }
  | .cs high => .pin fun pins => { pins with cs := high }
  | .mdelay => .drain
  | .send command byte => .send ⟨command, byte⟩

inductive Call where
  | lcdCommandWrite (command : UInt8)
  | lcdDataWrite (data : UInt8)
  | lcdSetWindows (xStart yStart xEnd yEnd : UInt16)
  | fillRectangle (x y w h color : UInt16)
  | drawPixel (x y color : UInt16)
  | writeChar (x y : UInt16) (ch : Char) (font : FontDef) (color bgcolor : UInt16)
  | writeString (x y : UInt16) (str : List Char) (font : FontDef) (color bgcolor : UInt16)

def Call.ops : Call → List Op
  | lcdCommandWrite command => SmartWatch.lcdCommandWrite command
  | lcdDataWrite data => SmartWatch.lcdDataWrite data
  | lcdSetWindows xStart yStart xEnd yEnd => SmartWatch.lcdSetWindows xStart yStart xEnd yEnd
  | fillRectangle x y w h color => SmartWatch.fillRectangle x y w h color
  | drawPixel x y color => SmartWatch.drawPixel x y color
  | writeChar x y ch font color bgcolor => SmartWatch.writeChar x y ch font color bgcolor
  | writeString x y str font color bgcolor => SmartWatch.writeString x y str font color bgcolor

def program (calls : List Call) : List (SerialLine.Op Handed Pins) := (calls.flatMap Call.ops).map Op.onLine

def Received (handed : Handed) (pins : Pins) : Prop := pins.cs = false ∧ (pins.dc = false ↔ handed.command = true)

instance (handed : Handed) (pins : Pins) : Decidable (Received handed pins) := inferInstanceAs (Decidable (_ ∧ _))

end SmartWatch
