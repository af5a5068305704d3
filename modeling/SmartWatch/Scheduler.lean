import SmartWatch.Ipc
import SmartWatch.Timer

/-! The ready queue of `scheduler.c`, the threads of `thread.c` with their timers, and
the lists of waiting threads of `ipc.c`, on one processor with 32 priorities. An
event is one stretch of code with the interrupts off. -/

namespace SmartWatch

/-- `__lowest_bit_bitmap`. -/
def lowestBitBitmap : List Nat :=
  [0, 0, 1, 0, 2, 0, 1, 0, 3, 0, 1, 0, 2, 0, 1, 0,
   4, 0, 1, 0, 2, 0, 1, 0, 3, 0, 1, 0, 2, 0, 1, 0,
   5, 0, 1, 0, 2, 0, 1, 0, 3, 0, 1, 0, 2, 0, 1, 0,
   4, 0, 1, 0, 2, 0, 1, 0, 3, 0, 1, 0, 2, 0, 1, 0,
   6, 0, 1, 0, 2, 0, 1, 0, 3, 0, 1, 0, 2, 0, 1, 0,
   4, 0, 1, 0, 2, 0, 1, 0, 3, 0, 1, 0, 2, 0, 1, 0,
   5, 0, 1, 0, 2, 0, 1, 0, 3, 0, 1, 0, 2, 0, 1, 0,
   4, 0, 1, 0, 2, 0, 1, 0, 3, 0, 1, 0, 2, 0, 1, 0,
   7, 0, 1, 0, 2, 0, 1, 0, 3, 0, 1, 0, 2, 0, 1, 0,
   4, 0, 1, 0, 2, 0, 1, 0, 3, 0, 1, 0, 2, 0, 1, 0,
   5, 0, 1, 0, 2, 0, 1, 0, 3, 0, 1, 0, 2, 0, 1, 0,
   4, 0, 1, 0, 2, 0, 1, 0, 3, 0, 1, 0, 2, 0, 1, 0,
   6, 0, 1, 0, 2, 0, 1, 0, 3, 0, 1, 0, 2, 0, 1, 0,
   4, 0, 1, 0, 2, 0, 1, 0, 3, 0, 1, 0, 2, 0, 1, 0,
   5, 0, 1, 0, 2, 0, 1, 0, 3, 0, 1, 0, 2, 0, 1, 0,
   4, 0, 1, 0, 2, 0, 1, 0, 3, 0, 1, 0, 2, 0, 1, 0]

/-- `__rt_ffs`. -/
def rtFfs (value : BitVec 32) : Nat :=
  if value = 0 then 0
  else if value &&& 0xff ≠ 0 then lowestBitBitmap.getD (value &&& 0xff).toNat 0 + 1
  else if value &&& 0xff00 ≠ 0 then lowestBitBitmap.getD ((value &&& 0xff00) >>> 8).toNat 0 + 9
  else if value &&& 0xff0000 ≠ 0 then lowestBitBitmap.getD ((value &&& 0xff0000) >>> 16).toNat 0 + 17
  else lowestBitBitmap.getD ((value &&& 0xff000000) >>> 24).toNat 0 + 25

/-- The status in the low bits of `stat`. -/
inductive Stat where
  | init
  | ready
  | suspend
  | running
  | close
deriving DecidableEq, Repr

/-- What the scheduler reads of `struct rt_thread`. `yield` is `RT_THREAD_STAT_YIELD`. -/
structure ThreadState where
  stat : Stat := .init
  yield : Bool := false
  initPriority : Nat
  currentPriority : Nat
  numberMask : BitVec 32 := 0
  initTick : UInt32
  remainingTick : UInt32
  error : Err := .eok
deriving DecidableEq, Repr

/-- `rt_current_thread`, `rt_scheduler_lock_nest`, `rt_thread_ready_priority_group`,
`rt_thread_priority_table`, the lists of waiting threads of the objects `ι` and the
flags they were created with, and the list of the threads to be cleaned up. A thread
has one list node, `tlist`. `switches` is a record of the threads that have been
given the processor. -/
structure Scheduler (τ ι : Type) where
  current : Option τ := none
  lockNest : Int16 := 0
  group : BitVec 32 := 0
  table : Nat → List τ := fun _ => []
  waiting : ι → List τ := fun _ => []
  byPriority : ι → Bool := fun _ => false
  defunct : List τ := []
  switches : List τ := []
  thread : τ → ThreadState

namespace Scheduler

variable {τ ι : Type} [DecidableEq τ] [DecidableEq ι]

def update (s : Scheduler τ ι) (thread : τ) (change : ThreadState → ThreadState) : Scheduler τ ι :=
  { s with thread := fun other => if other = thread then change (s.thread other) else s.thread other }

/-- `rt_list_remove(&(thread->tlist))`, from the list the thread is in. -/
def unlink (s : Scheduler τ ι) (thread : τ) : Scheduler τ ι :=
  { s with
    table := fun priority => (s.table priority).erase thread
    waiting := fun object => (s.waiting object).erase thread
    defunct := s.defunct.erase thread }

def rtScheduleInsertThread (s : Scheduler τ ι) (thread : τ) : Scheduler τ ι :=
  if s.current = some thread then
    s.update thread fun t => { t with stat := .running }
  else
    let s := s.update thread fun t => { t with stat := .ready }
    let current := (s.thread thread).currentPriority
    { s with
      table := fun priority => if priority = current then s.table priority ++ [thread] else s.table priority
      group := s.group ||| (s.thread thread).numberMask }

def rtScheduleRemoveThread (s : Scheduler τ ι) (thread : τ) : Scheduler τ ι :=
  let s := s.unlink thread
  if s.table (s.thread thread).currentPriority = [] then
    { s with group := s.group &&& ~~~(s.thread thread).numberMask }
  else
    s

/-- The first thread of the list that the lowest bit of the group stands for. -/
def getHighestPriorityThread (s : Scheduler τ ι) : Option τ × Nat :=
  let highest := rtFfs s.group - 1
  ((s.table highest).head?, highest)

/-- What becomes of the running thread in `rt_schedule`: whether it goes on, and
whether it is put back into the ready queue. -/
def keepsRunning (current : ThreadState) (highest : Nat) : Bool × Bool :=
  if current.stat = .running then
    if current.currentPriority < highest then (true, false)
    else if current.currentPriority = highest ∧ current.yield = false then (true, false)
    else (false, true)
  else
    (false, false)

def rtSchedule (s : Scheduler τ ι) : Scheduler τ ι :=
  if s.lockNest = 0 ∧ s.group ≠ 0 then
    match s.getHighestPriorityThread, s.current with
    | (some highestThread, highest), some fromThread =>
      let (keeps, insert) := keepsRunning (s.thread fromThread) highest
      let s := s.update fromThread fun t => if t.stat = .running then { t with yield := false } else t
      let toThread := if keeps then fromThread else highestThread
      if toThread ≠ fromThread then
        let s := { s with current := some toThread, switches := s.switches ++ [toThread] }
        let s := if insert then s.rtScheduleInsertThread fromThread else s
        (s.rtScheduleRemoveThread toThread).update toThread fun t => { t with stat := .running }
      else
        (s.rtScheduleRemoveThread fromThread).update fromThread fun t => { t with stat := .running }
    -- No thread has run yet.
    | _, _ => s
  else
    s

def rtSystemSchedulerStart (s : Scheduler τ ι) : Scheduler τ ι :=
  match s.getHighestPriorityThread with
  | (some toThread, _) =>
    let s := { s with current := some toThread, switches := s.switches ++ [toThread] }
    (s.rtScheduleRemoveThread toThread).update toThread fun t => { t with stat := .running, yield := false }
  | (none, _) => s

/-- Where `rt_ipc_list_suspend` puts the thread, by `RT_IPC_FLAG_PRIO` or `RT_IPC_FLAG_FIFO`. -/
def enqueue (s : Scheduler τ ι) (object : ι) (thread : τ) : Scheduler τ ι :=
  let stops (other : τ) : Bool :=
    s.byPriority object && (s.thread thread).currentPriority < (s.thread other).currentPriority
  { s with waiting := fun other =>
      if other = object then Deadlines.insert stops thread (s.waiting other) else s.waiting other }

/-- `RT_THREAD_CTRL_CHANGE_PRIORITY` of `rt_thread_control`. -/
def changePriority (s : Scheduler τ ι) (thread : τ) (priority : Nat) : Scheduler τ ι :=
  let change (t : ThreadState) := { t with currentPriority := priority, numberMask := 1#32 <<< priority }
  if (s.thread thread).stat = .ready then
    ((s.rtScheduleRemoveThread thread).update thread change).rtScheduleInsertThread thread
  else
    s.update thread change

/-- `rt_thread_timeout`. -/
def rtThreadTimeout (s : Scheduler τ ι) (thread : τ) : Scheduler τ ι :=
  (((s.update thread fun t => { t with error := .etimeout }).unlink thread).rtScheduleInsertThread thread).rtSchedule

/-- The first half of `rt_tick_increase`. -/
def timeSlice (s : Scheduler τ ι) (thread : τ) : Scheduler τ ι :=
  let s := s.update thread fun t => { t with remainingTick := t.remainingTick - 1 }
  if (s.thread thread).remainingTick = 0 then
    (s.update thread fun t => { t with remainingTick := t.initTick, yield := true }).rtSchedule
  else
    s

section Fields
variable (s : Scheduler τ ι) (thread other : τ) (change : ThreadState → ThreadState)

omit [DecidableEq ι]

@[simp] theorem update_current : (s.update thread change).current = s.current := rfl

@[simp] theorem update_lockNest : (s.update thread change).lockNest = s.lockNest := rfl

@[simp] theorem update_group : (s.update thread change).group = s.group := rfl

@[simp] theorem update_table : (s.update thread change).table = s.table := rfl

@[simp] theorem update_waiting : (s.update thread change).waiting = s.waiting := rfl

@[simp] theorem update_defunct : (s.update thread change).defunct = s.defunct := rfl

@[simp] theorem update_thread :
    (s.update thread change).thread other = if other = thread then change (s.thread other) else s.thread other := rfl

@[simp] theorem unlink_thread : (s.unlink thread).thread = s.thread := rfl

@[simp] theorem unlink_current : (s.unlink thread).current = s.current := rfl

@[simp] theorem remove_thread : (s.rtScheduleRemoveThread thread).thread = s.thread := by
  unfold rtScheduleRemoveThread
  dsimp only
  split <;> rfl

@[simp] theorem remove_current : (s.rtScheduleRemoveThread thread).current = s.current := by
  unfold rtScheduleRemoveThread
  dsimp only
  split <;> rfl

@[simp] theorem remove_lockNest : (s.rtScheduleRemoveThread thread).lockNest = s.lockNest := by
  unfold rtScheduleRemoveThread
  dsimp only
  split <;> rfl

theorem remove_table (priority : Nat) :
    (s.rtScheduleRemoveThread thread).table priority = (s.table priority).erase thread := by
  unfold rtScheduleRemoveThread
  dsimp only
  split <;> rfl

theorem remove_waiting (object : ι) :
    (s.rtScheduleRemoveThread thread).waiting object = (s.waiting object).erase thread := by
  unfold rtScheduleRemoveThread
  dsimp only
  split <;> rfl

theorem remove_defunct : (s.rtScheduleRemoveThread thread).defunct = s.defunct.erase thread := by
  unfold rtScheduleRemoveThread
  dsimp only
  split <;> rfl

end Fields

end Scheduler

/-- The threads with their timers. -/
abbrev Core (τ ι : Type) := Timers τ (Scheduler τ ι)

inductive CoreEvent (τ ι : Type) where
  /-- `rt_system_scheduler_start`, and `rt_schedule` at any time after it. -/
  | start
  | schedule
  /-- `SysTick_Handler`. -/
  | tick
  /-- `rt_thread_startup` up to its `rt_schedule`. -/
  | startup (thread : τ)
  | resume (thread : τ)
  | changePriority (thread : τ) (priority : Nat)
  /-- One turn of `rt_defunct_execute`. -/
  | reap
  /-- What the running thread does, up to the call of `rt_schedule`: it suspends
  itself, `rt_thread_sleep`, `rt_thread_yield`, `rt_enter_critical`,
  `rt_exit_critical`, the end of its entry function, or a wait for an object with
  or without a time. -/
  | suspend
  | sleep (time : UInt32)
  | yield
  | enterCritical
  | exitCritical
  | exit
  | wait (object : ι) (time : Option UInt32)
  /-- `rt_ipc_list_resume`, and one turn of `rt_ipc_list_resume_all`. -/
  | wakeFirst (object : ι)
  | failFirst (object : ι)
deriving DecidableEq, Repr

namespace Core

variable {τ ι : Type} [DecidableEq τ] [DecidableEq ι]

def threadTimeout : Timeout τ (Scheduler τ ι) := fun thread s => (s.rtThreadTimeout thread, [])

def on (k : Core τ ι) (f : Scheduler τ ι → Scheduler τ ι) : Core τ ι := { k with world := f k.world }

def rtThreadResume (k : Core τ ι) (thread : τ) : Core τ ι :=
  if (k.world.thread thread).stat ≠ .suspend then
    k
  else
    let k : Core τ ι := (k.on (·.unlink thread)).rtTimerStop thread
    k.on (·.rtScheduleInsertThread thread)

def rtThreadSuspend (k : Core τ ι) (thread : τ) : Core τ ι :=
  let stat := (k.world.thread thread).stat
  if stat ≠ .ready ∧ stat ≠ .running then
    k
  else
    (k.on fun s => (s.rtScheduleRemoveThread thread).update thread fun t => { t with stat := .suspend }).rtTimerStop thread

def rtThreadStartup (k : Core τ ι) (thread : τ) : Core τ ι :=
  rtThreadResume (k.on fun s => s.update thread fun t =>
    { t with currentPriority := t.initPriority, numberMask := 1#32 <<< t.initPriority, stat := .suspend, yield := false }) thread

/-- `_rt_thread_exit`; the thread is dynamic, as all threads of `watch.c` are. -/
def rtThreadExit (k : Core τ ι) (thread : τ) : Core τ ι :=
  let k :=
    k.on fun s => (s.rtScheduleRemoveThread thread).update thread fun t => { t with stat := .close, yield := false }
  let k : Core τ ι := k.rtTimerDetach thread
  k.on fun s => { s with defunct := thread :: s.defunct }

/-- Starts the timer of a thread that has just been suspended. -/
def startTimer (k : Core τ ι) (thread : τ) (time : UInt32) : Core τ ι :=
  (k.call (.setTime thread time)).rtTimerStart thread

def setError (k : Core τ ι) (thread : τ) (code : Err) : Core τ ι :=
  k.on fun s => s.update thread fun t => { t with error := code }

/-- The running thread, when it is not on its way out of the processor. -/
def running (k : Core τ ι) : Option τ :=
  k.world.current.filter fun thread => (k.world.thread thread).stat = .running

def step (turns : Nat) (k : Core τ ι) : CoreEvent τ ι → Option (Core τ ι)
  -- The idle thread has been started.
  | .start => if k.world.current = none ∧ k.world.group ≠ 0 then some (k.on (·.rtSystemSchedulerStart)) else none
  | .schedule => k.world.current.map fun _ => k.on (·.rtSchedule)
  | .tick => k.world.current.bind fun thread =>
      Timers.rtTimerCheck threadTimeout turns { k.on (·.timeSlice thread) with tick := k.tick + 1 }
  | .startup thread => if (k.world.thread thread).stat = .init then some (k.rtThreadStartup thread) else none
  | .resume thread => some (k.rtThreadResume thread)
  | .changePriority thread priority => some (k.on (·.changePriority thread priority))
  | .reap => some (k.on fun s => { s with defunct := s.defunct.tail })
  | .suspend => k.running.map fun thread => k.rtThreadSuspend thread
  | .sleep time => k.running.map fun thread => startTimer (k.rtThreadSuspend thread) thread time
  | .yield => k.running.map fun thread =>
      k.on fun s => (s.update thread fun t => { t with remainingTick := t.initTick, yield := true }).rtSchedule
  | .enterCritical => k.running.map fun _ => k.on fun s => { s with lockNest := s.lockNest + 1 }
  | .exitCritical => k.running.map fun _ => k.on fun s =>
      if s.lockNest - 1 ≤ 0 then { s with lockNest := 0 } else { s with lockNest := s.lockNest - 1 }
  | .exit => k.running.map fun thread => k.rtThreadExit thread
  | .wait object time => k.running.map fun thread =>
      let k : Core τ ι := ((setError k thread .eok).rtThreadSuspend thread).on fun s => s.enqueue object thread
      match time with
      | some time => startTimer k thread time
      | none => k
  | .wakeFirst object => (k.world.waiting object).head?.map fun thread => k.rtThreadResume thread
  | .failFirst object => (k.world.waiting object).head?.map fun thread => rtThreadResume (setError k thread .error) thread

end Core

end SmartWatch
