import SmartWatch.Display
import SmartWatch.Lib.Raster

/-! The display controller as the drawing routines rely on it: `2A` and `2B` set
an inclusive window, `2C` restarts at its corner, and every pair of data bytes
writes one pixel. Bytes count only while CS is low; DC low makes one a command. -/

namespace SmartWatch

inductive Receiving where
  | nothing
  | columns (bytes : List UInt8)
  | rows (bytes : List UInt8)
  | pixels (first : Option UInt8)
deriving DecidableEq, Repr

structure Panel where
  writer : Raster.Writer UInt16
  window : Raster.Window
  receiving : Receiving

def word (high low : UInt8) : UInt16 := UInt16.ofNat (high.toNat * 256 + low.toNat)

def Panel.command (panel : Panel) (byte : UInt8) : Panel :=
  if byte = 0x2a then
    { panel with receiving := .columns [] }
  else if byte = 0x2b then
    { panel with receiving := .rows [] }
  else if byte = 0x2c then
    { panel with receiving := .pixels none
                 writer := { panel.writer with row := panel.window.top, column := panel.window.left } }
  else
    { panel with receiving := .nothing }

def Panel.data (panel : Panel) (byte : UInt8) : Panel :=
  match panel.receiving with
  | .nothing => panel
  | .columns [one, two, three] =>
    { panel with receiving := .nothing
                 window := { panel.window with left := (word one two).toNat, right := (word three byte).toNat } }
  | .columns bytes => { panel with receiving := .columns (bytes ++ [byte]) }
  | .rows [one, two, three] =>
    { panel with receiving := .nothing
                 window := { panel.window with top := (word one two).toNat, bottom := (word three byte).toNat } }
  | .rows bytes => { panel with receiving := .rows (bytes ++ [byte]) }
  | .pixels none => { panel with receiving := .pixels (some byte) }
  | .pixels (some high) =>
    { panel with receiving := .pixels none, writer := panel.writer.put panel.window (word high byte) }

/-- The panel and the two pins, `true` when high. -/
structure Screen where
  dc : Bool
  cs : Bool
  panel : Panel

/-- One step of the processor when every byte arrives before the next step. -/
def Screen.exec (screen : Screen) : Op → Screen
  | .dc high => { screen with dc := high }
  | .cs high => { screen with cs := high }
  | .mdelay => screen
  | .send _ byte =>
    if screen.cs then screen
    else { screen with panel := if screen.dc then screen.panel.data byte else screen.panel.command byte }

/-- The memory row of the top row of the screen. -/
def topRow : Nat := 20

/-- The memory of the controller. Visible row `r` is memory row `r + topRow`. -/
def Screen.memory (screen : Screen) : Raster.Frame UInt16 := screen.panel.writer.frame

end SmartWatch
