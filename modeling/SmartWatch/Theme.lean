/-! The change of theme in `watch.c`: the serial thread stores `Theme` and then
sets `themeChanged`, and `showValues` tests the flag, draws the two icons with a
delay behind each, and clears it. Every event is one of these accesses. -/

namespace SmartWatch

/-- The `switch` of `serial_thread_entry`, with the colours of `ST7789.h`. -/
def themeOf (ch : Char) : Option UInt16 :=
  match ch with
  | 'R' => some 0xF800
  | 'G' => some 0x07E0
  | 'B' => some 0x001F
  | 'Y' => some 0xFFE0
  | 'C' => some 0x07FF
  | 'M' => some 0xF81F
  | 'O' => some 0xFC40
  | 'W' => some 0xFFFF
  | _ => none

/-- What `showValues` does next: draw `%` and the step icon before the loop; in the
loop return from `rt_sem_take`, test `themeChanged`, draw `%`, draw the step icon,
clear `themeChanged` and draw the open menu. -/
inductive Stage where
  | firstPercent
  | firstIcon
  | waiting
  | testing
  | percent
  | icon
  | clearing
  | menu
deriving DecidableEq, Repr

/-- `percent` and `icon` are the colours the icons were last drawn in, and
`storing` says that the serial thread is between its two stores. -/
structure Themed where
  theme : UInt16 := 0x07E0
  themeChanged : Bool := false
  stage : Stage := .firstPercent
  storing : Bool := false
  percent : Option UInt16 := none
  icon : Option UInt16 := none
deriving DecidableEq, Repr

/-- The serial thread receives a byte and stores the theme it stands for, or sets
`themeChanged`, or `showValues` goes on. -/
inductive ThemeEvent where
  | receive (ch : Char)
  | raise
  | proceed
deriving DecidableEq, Repr

namespace Themed

def stepShow (t : Themed) : Themed :=
  match t.stage with
  | .firstPercent => { t with percent := some t.theme, stage := .firstIcon }
  | .firstIcon => { t with icon := some t.theme, stage := .waiting }
  | .waiting => { t with stage := .testing }
  | .testing => { t with stage := if t.themeChanged then .percent else .menu }
  | .percent => { t with percent := some t.theme, stage := .icon }
  | .icon => { t with icon := some t.theme, stage := .clearing }
  | .clearing => { t with themeChanged := false, stage := .menu }
  | .menu => { t with stage := .waiting }

def step (t : Themed) : ThemeEvent → Option Themed
  | .receive ch =>
    if t.storing then none
    else match themeOf ch with
      | some theme => some { t with theme, storing := true }
      | none => some t
  | .raise => if t.storing then some { t with themeChanged := true, storing := false } else none
  | .proceed => some t.stepShow

end Themed

end SmartWatch
