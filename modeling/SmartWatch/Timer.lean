import SmartWatch.Lib.Deadlines

/-! `timer.c` as it is built here: hard timers only, one row in the list of timers.
The functions run with the interrupts off. -/

namespace SmartWatch

def tickMax : UInt32 := 0xffffffff

/-- `struct rt_timer`; its timeout function belongs to `TimerList.System`. -/
structure Timer where
  initTick : UInt32 := 0
  timeoutTick : UInt32 := 0
  periodic : Bool := false
  activated : Bool := false
deriving DecidableEq, Repr

/-- `rt_tick`, the timers, `rt_timer_list`, and the list that `rt_timer_check` keeps
the timer in whose timeout function runs. `fired` is a record of the timeout
functions called, and `world` is what they work on. -/
structure Timers (τ : Type) (ω : Type) where
  tick : UInt32
  timer : τ → Timer
  list : List τ := []
  temporary : List τ := []
  fired : List τ := []
  world : ω

/-- What a thread or a timeout function does with a timer. -/
inductive TimerCall (τ : Type) where
  | start (timer : τ)
  | stop (timer : τ)
  | detach (timer : τ)
  | setTime (timer : τ) (time : UInt32)
  | setOneshot (timer : τ)
  | setPeriodic (timer : τ)
deriving DecidableEq, Repr

def TimerCall.timer {τ : Type} : TimerCall τ → τ
  | start timer | stop timer | detach timer | setTime timer _ | setOneshot timer | setPeriodic timer => timer

/-- What the timeout function of a timer does to the world, and to the timers. -/
abbrev Timeout (τ ω : Type) := τ → ω → ω × List (TimerCall τ)

/-- Something happens to a timer, the tick interrupt comes, or the threads change
the world. -/
inductive TimerEvent (τ ω : Type) where
  | call (call : TimerCall τ)
  | tick
  | work (world : ω)

namespace Timers

variable {τ ω : Type} [DecidableEq τ]

def update (s : Timers τ ω) (timer : τ) (change : Timer → Timer) : Timers τ ω :=
  { s with timer := fun other => if other = timer then change (s.timer other) else s.timer other }

/-- `_rt_timer_remove`, from the list the timer is in. -/
def remove (s : Timers τ ω) (timer : τ) : Timers τ ω :=
  { s with list := s.list.erase timer, temporary := s.temporary.erase timer }

/-- The two tests of the walk in `rt_timer_start`, on the timer `other` of the list. -/
def stopsAt (s : Timers τ ω) (timeout : UInt32) (other : τ) : Bool :=
  let difference := (s.timer other).timeoutTick - timeout
  if difference = 0 then false else difference < tickMax / 2

def rtTimerStart (s : Timers τ ω) (timer : τ) : Timers τ ω :=
  let s := (s.remove timer).update timer fun t =>
    { t with activated := false, timeoutTick := s.tick + t.initTick }
  let s := { s with list := Deadlines.insert (s.stopsAt (s.timer timer).timeoutTick) timer s.list }
  s.update timer fun t => { t with activated := true }

def rtTimerDetach (s : Timers τ ω) (timer : τ) : Timers τ ω :=
  (s.remove timer).update timer fun t => { t with activated := false }

/-- Does nothing and returns `-RT_ERROR` when the timer is not activated. -/
def rtTimerStop (s : Timers τ ω) (timer : τ) : Timers τ ω :=
  if (s.timer timer).activated then s.rtTimerDetach timer else s

/-- The last three are commands of `rt_timer_control`. -/
def call (s : Timers τ ω) : TimerCall τ → Timers τ ω
  | .start timer => s.rtTimerStart timer
  | .stop timer => s.rtTimerStop timer
  | .detach timer => s.rtTimerDetach timer
  | .setTime timer time => s.update timer fun t => { t with initTick := time }
  | .setOneshot timer => s.update timer fun t => { t with periodic := false }
  | .setPeriodic timer => s.update timer fun t => { t with periodic := true }

/-- The body of the loop in `rt_timer_check` for the first timer of the list. -/
def fire (timeout : Timeout τ ω) (s : Timers τ ω) (timer : τ) : Timers τ ω :=
  let s := (s.remove timer).update timer fun t => { t with activated := t.activated && t.periodic }
  let (world, calls) := timeout timer s.world
  let s := calls.foldl call { s with temporary := timer :: s.temporary, fired := s.fired ++ [timer], world }
  -- The timeout function has detached the timer or started it again.
  if s.temporary = [] then
    s
  else
    let s := { s with temporary := s.temporary.erase timer }
    if (s.timer timer).periodic ∧ (s.timer timer).activated then
      (s.update timer fun t => { t with activated := false }).rtTimerStart timer
    else
      s

/-- `rt_timer_check`, which is `none` when the loop has not ended after `turns` turns. -/
def rtTimerCheck (timeout : Timeout τ ω) : Nat → Timers τ ω → Option (Timers τ ω)
  | 0, _ => none
  | turns + 1, s =>
    match s.list with
    | [] => some s
    | timer :: _ =>
      if s.tick - (s.timer timer).timeoutTick < tickMax / 2 then
        rtTimerCheck timeout turns (s.fire timeout timer)
      else
        some s

def step (timeout : Timeout τ ω) (turns : Nat) (s : Timers τ ω) : TimerEvent τ ω → Option (Timers τ ω)
  | .call call => some (s.call call)
  | .tick => rtTimerCheck timeout turns { s with tick := s.tick + 1 }
  | .work world => some { s with world }

section Fields
variable (s : Timers τ ω) (timer other : τ) (change : Timer → Timer)

@[simp] theorem update_tick : (s.update timer change).tick = s.tick := rfl

@[simp] theorem update_list : (s.update timer change).list = s.list := rfl

@[simp] theorem update_temporary : (s.update timer change).temporary = s.temporary := rfl

@[simp] theorem update_fired : (s.update timer change).fired = s.fired := rfl

@[simp] theorem update_world : (s.update timer change).world = s.world := rfl

@[simp] theorem update_timer :
    (s.update timer change).timer other = if other = timer then change (s.timer other) else s.timer other := rfl

@[simp] theorem remove_tick : (s.remove timer).tick = s.tick := rfl

@[simp] theorem remove_list : (s.remove timer).list = s.list.erase timer := rfl

@[simp] theorem remove_temporary : (s.remove timer).temporary = s.temporary.erase timer := rfl

@[simp] theorem remove_fired : (s.remove timer).fired = s.fired := rfl

@[simp] theorem remove_world : (s.remove timer).world = s.world := rfl

@[simp] theorem remove_timer : (s.remove timer).timer = s.timer := rfl

end Fields

end Timers

end SmartWatch
