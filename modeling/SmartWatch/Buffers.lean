import SmartWatch.Lib.CString
import SmartWatch.ShowValues

/-! The arrays of `Hour_str` and its like as bytes of the memory: what `itoa`
stores and what `WriteString` reads back. -/

namespace SmartWatch
open CString

inductive Buffer where
  | hourStr
  | minuteStr
  | secondStr
  | dayStr
deriving DecidableEq, Repr

/-- `char Hour_str[2], Minute_str[2], Second_str[2], Day_str[2];` -/
def Buffer.capacity : Buffer → Nat
  | hourStr => 2
  | minuteStr => 2
  | secondStr => 2
  | dayStr => 2

/-- Where the linker puts the arrays, and the memory at the start, where globals
without a value of their own are zero. -/
structure Image where
  address : Buffer → Nat
  memory : Memory
  apart : ∀ one other, one ≠ other →
    address one + one.capacity ≤ address other ∨ address other + other.capacity ≤ address one
  cleared : ∀ buffer offset, offset < buffer.capacity → memory (address buffer + offset) = 0

namespace Image

def Inside (image : Image) (buffer : Buffer) (place : Nat) : Prop :=
  image.address buffer ≤ place ∧ place < image.address buffer + buffer.capacity

instance (image : Image) (buffer : Buffer) (place : Nat) : Decidable (image.Inside buffer place) :=
  inferInstanceAs (Decidable (_ ∧ _))

end Image

def bytes (chars : List Char) : List UInt8 := chars.map fun ch => UInt8.ofNat ch.toNat

/-- The `itoa` call of the open menu: the variable and the array. -/
def conversion (g : Globals) : Option (Int × Buffer) :=
  match g.menuIndex with
  | 1 => some (g.hour, .hourStr)
  | 2 => some (g.minute, .minuteStr)
  | 3 => some (g.second, .secondStr)
  | 5 => some (g.day, .dayStr)
  | _ => none

/-- The arrays the open menu hands to `WriteString`. -/
def shown (g : Globals) : List Buffer :=
  match g.menuIndex with
  | 1 => [.hourStr]
  | 2 => [.hourStr, .minuteStr]
  | 3 => [.minuteStr, .secondStr]
  | 4 => [.secondStr]
  | 5 => [.dayStr]
  | _ => []

/-- What an `itoa` call stores: the digits and a zero byte, whatever the array holds. -/
def itoaWrites (image : Image) (value : Int) (buffer : Buffer) : List (Nat × UInt8) :=
  writes (image.address buffer) (bytes (itoa value) ++ [0])

/-- The globals and the memory around the arrays. Whatever else lies in it is not
tied to the globals. -/
structure Stored where
  globals : Globals := {}
  memory : Memory

inductive StoredEvent where
  | press (button : Button)
  | showValues (themeChanged : Bool) (readings : Readings)

namespace Stored

def start (image : Image) : Stored := { memory := image.memory }

/-- The memory when the open menu has made its conversion. -/
def converted (image : Image) (stored : Stored) : Memory :=
  match conversion stored.globals with
  | none => stored.memory
  | some (value, buffer) => (itoaWrites image value buffer).foldl put stored.memory

def step (image : Image) (stored : Stored) : StoredEvent → Stored
  | .press button => { stored with globals := press stored.globals button }
  | .showValues .. => { stored with memory := stored.converted image }

end Stored

end SmartWatch
