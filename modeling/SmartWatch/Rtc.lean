import SmartWatch.Time

/-! The soft RTC device of `soft_rtc.c` and the two setters of `rtc.c`. The
registered device is always found, so the setters fail only where the calendar
functions read outside their tables (`none`). -/

namespace SmartWatch
open TwosComplement

def tickPerSecond : Nat := 1000

structure SoftRtc where
  initTick : UInt32
  initTime : Int
deriving DecidableEq, Repr

/-- `(rt_tick_get() - init_tick) / RT_TICK_PER_SECOND`, in `rt_tick_t` arithmetic. -/
def SoftRtc.elapsed (rtc : SoftRtc) (tick : UInt32) : Int := ((tick - rtc.initTick).toNat / tickPerSecond : Nat)

/-- `soft_rtc_control` with `RT_DEVICE_CTRL_RTC_GET_TIME`; this is what `time(NULL)` returns. -/
def SoftRtc.getTime (bits : Nat) (rtc : SoftRtc) (tick : UInt32) : Int :=
  wrap bits (rtc.initTime + rtc.elapsed tick)

/-- `soft_rtc_control` with `RT_DEVICE_CTRL_RTC_SET_TIME`. -/
def SoftRtc.setTime (bits : Nat) (rtc : SoftRtc) (tick : UInt32) (t : Int) : SoftRtc :=
  { rtc with initTime := wrap bits (t - rtc.elapsed tick) }

/-- The calls the SELECT handler makes into `rtc.c`. The `int` arguments pass
through `rt_uint32_t` parameters back into the `int` fields of `struct tm`. -/
inductive RtcCall where
  | setTime (hour minute second : Int)
  | setDate (year month day : Int)
deriving DecidableEq, Repr

/-- `set_time`: the date is the one the clock shows. -/
def setTime (bits : Nat) (tick : UInt32) (rtc : SoftRtc) (hour minute second : Int) : Option SoftRtc := do
  let now := rtc.getTime bits tick
  let tmNew := { localtimeR bits now with tmHour := hour, tmMin := minute, tmSec := second }
  let now ← mktime bits tmNew
  return rtc.setTime bits tick now

/-- `set_date`: the time of day is the one the clock shows. -/
def setDate (bits : Nat) (tick : UInt32) (rtc : SoftRtc) (year month day : Int) : Option SoftRtc := do
  let now := rtc.getTime bits tick
  let tmNew := { localtimeR bits now with tmYear := year - 1900, tmMon := month - 1, tmMday := day }
  let now ← mktime bits tmNew
  return rtc.setTime bits tick now

def RtcCall.perform (bits : Nat) (tick : UInt32) (rtc : SoftRtc) : RtcCall → Option SoftRtc
  | .setTime hour minute second => SmartWatch.setTime bits tick rtc hour minute second
  | .setDate year month day => SmartWatch.setDate bits tick rtc year month day

end SmartWatch
