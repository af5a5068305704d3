import SmartWatch.Time
import Mathlib.Data.Nat.Sqrt

/-! The step counter of `getValues_entry`. The square root is exact before the
conversion truncates it, and an overflow of `int` is undefined (`none`). -/

namespace SmartWatch
open TwosComplement

/-- The six bytes of the accelerometer registers. -/
abbrev AccelBytes := Vector UInt8 6

/-- `((u16) buf[0] << 8) | buf[1]`, stored through a `u16 *` into a `short`. -/
def axis (high low : UInt8) : Int16 := (high.toUInt16 <<< 8 ||| low.toUInt16).toInt16

structure Axes where
  aacx : Int16
  aacy : Int16
  aacz : Int16
deriving DecidableEq, Repr

/-- `MPU_Get_Accelerometer`. `MPU_Read_Len` returns 0 always. -/
def mpuGetAccelerometer (buf : AccelBytes) : Axes :=
  { aacx := axis buf[0] buf[1], aacy := axis buf[2] buf[3], aacz := axis buf[4] buf[5] }

/-- A result of `int` arithmetic. -/
def inInt (exact : Int) : Option Int := if Fits 32 exact then some exact else none

def vector (axes : Axes) : Option UInt16 := do
  let xx ← inInt (axes.aacx.toInt * axes.aacx.toInt)
  let yy ← inInt (axes.aacy.toInt * axes.aacy.toInt)
  let xxyy ← inInt (xx + yy)
  let zz ← inInt (axes.aacz.toInt * axes.aacz.toInt)
  let sum ← inInt (xxyy + zz)
  return UInt16.ofNat (Nat.sqrt sum.toNat)

def threshold : Int := 10500

/-- `(vector - vectorprevious) / 2`, stored in a `uint16_t`. -/
def totalvector (vector vectorprevious : UInt16) : UInt16 :=
  UInt16.ofInt (((vector.toNat : Int) - vectorprevious.toNat).tdiv 2)

/-- Whether an iteration counts a step. `vectorprevious` is declared in the loop,
with 0, and nothing stores into it. -/
def counts (axes : Axes) : Option Bool := do
  let vectorprevious := 0
  let vector ← vector axes
  return decide (((totalvector vector vectorprevious).toNat : Int) > threshold)

/-- `steps` after an iteration. -/
def countStep (steps : Int) (axes : Axes) : Option Int := do
  let counted ← counts axes
  return if counted then toInt (steps + 1) else steps

/-- `steps` after the samples of successive iterations. -/
def stepsAfter (samples : List Axes) : Option Int := samples.foldlM countStep 0

end SmartWatch
