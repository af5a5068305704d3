import SmartWatch.Rtc

/-! The clock between two saves: the system tick and the iterations of
`getValues_entry`, which read `now`. -/

namespace SmartWatch

/-- `now` as an iteration reads it. `ticks` counts all ticks of the run, where
`rt_tick` wraps. -/
structure Reading where
  ticks : Nat
  tick : UInt32
  now : Int
deriving DecidableEq, Repr

/-- The latest reading is the first of `readings`. -/
structure Uptime where
  rtc : SoftRtc
  tick : UInt32
  ticks : Nat := 0
  readings : List Reading := []
deriving DecidableEq, Repr

inductive UptimeEvent where
  /-- `rt_tick_increase`. -/
  | tick
  | getValues
deriving DecidableEq, Repr

def Uptime.step (bits : Nat) (up : Uptime) : UptimeEvent → Uptime
  | .tick => { up with tick := up.tick + 1, ticks := up.ticks + 1 }
  | .getValues => { up with readings := ⟨up.ticks, up.tick, up.rtc.getTime bits up.tick⟩ :: up.readings }

end SmartWatch
