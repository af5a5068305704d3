import SmartWatch.Rtc

/-! The button interrupts of `watch.c` and the globals they edit. Every counter
stays far inside `int`, so the fields are plain integers. -/

namespace SmartWatch

inductive Button where
  | up
  | select
  | down
deriving DecidableEq, Repr

/-- The menu globals, with the values they are defined with. -/
structure Globals where
  secondsbutton : Int := 0
  minutesbutton : Int := 0
  hoursbutton : Int := 0
  monthbutton : Int := 0
  daysbutton : Int := 0
  menuIndex : Int := 0
  hour : Int := 0
  minute : Int := 0
  second : Int := 0
  month : Int := 1
  day : Int := 1
deriving DecidableEq, Repr

/-- `counter++; if (counter > last) counter = first;` -/
def raise (counter last first : Int) : Int := if counter + 1 > last then first else counter + 1

/-- `counter--; if (counter < 0) counter = clamp;` -/
def lower (counter clamp : Int) : Int := if counter - 1 < 0 then clamp else counter - 1

def upBtn (g : Globals) : Globals :=
  match g.menuIndex with
  | 1 => let hoursbutton := raise g.hoursbutton 23 0; { g with hoursbutton, hour := hoursbutton }
  | 2 => let minutesbutton := raise g.minutesbutton 59 0; { g with minutesbutton, minute := minutesbutton }
  | 3 => let secondsbutton := raise g.secondsbutton 59 0; { g with secondsbutton, second := secondsbutton }
  | 4 => let monthbutton := raise g.monthbutton 12 1; { g with monthbutton, month := monthbutton }
  | 5 => let daysbutton := raise g.daysbutton 31 1; { g with daysbutton, day := daysbutton }
  | _ => { g with hour := g.hoursbutton }

def downBtn (g : Globals) : Globals :=
  match g.menuIndex with
  | 1 => let hoursbutton := lower g.hoursbutton 0; { g with hoursbutton, hour := hoursbutton }
  | 2 => let minutesbutton := lower g.minutesbutton 0; { g with minutesbutton, minute := minutesbutton }
  | 3 => let secondsbutton := lower g.secondsbutton 0; { g with secondsbutton, second := secondsbutton }
  | 4 => let monthbutton := lower g.monthbutton 1; { g with monthbutton, month := monthbutton }
  | 5 => let daysbutton := lower g.daysbutton 1; { g with daysbutton, day := daysbutton }
  | _ => { g with hour := g.hoursbutton }

/-- The globals after SELECT and the calls it makes, in order. -/
def selectBtn (g : Globals) : Globals × List RtcCall :=
  let g := { g with menuIndex := g.menuIndex + 1 }
  if g.menuIndex > 5 then
    ({ g with menuIndex := 0 }, [.setTime g.hour g.minute g.second, .setDate 2022 g.month g.day])
  else
    (g, [])

/-- The interrupt of a button, with the calls it makes. -/
def interrupt (g : Globals) : Button → Globals × List RtcCall
  | .up => (upBtn g, [])
  | .down => (downBtn g, [])
  | .select => selectBtn g

def press (g : Globals) (button : Button) : Globals := (interrupt g button).1

/-- All calls made by a sequence of presses. -/
def calls : Globals → List Button → List RtcCall
  | _, [] => []
  | g, button :: buttons => (interrupt g button).2 ++ calls (press g button) buttons

/-- One press on a watch whose clock stands at `tick` throughout. -/
def pressAt (bits : Nat) (tick : UInt32) (g : Globals) (rtc : SoftRtc) (button : Button) :
    Option (Globals × SoftRtc) := do
  let rtc ← (interrupt g button).2.foldlM (RtcCall.perform bits tick) rtc
  return (press g button, rtc)

end SmartWatch
