import SmartWatch.Ipc

/-! The threads of `watch.c` and the UART receive interrupt, as far as the mutex
and the semaphore go. Every event is one stretch of code with the interrupts off,
or one step between such stretches, so the interrupt can come between any two. -/

namespace SmartWatch

/-- `idle` stands for whatever runs when these three wait. -/
inductive Thread where
  | serial
  | getValues
  | showValues
  | idle
deriving DecidableEq, Repr

/-- `THREAD_PRIORITY_LOW`, `THREAD_PRIORITY_MED`, `THREAD_PRIORITY_HIGH` and the idle thread's own. -/
def Thread.priority : Thread → Nat
  | serial => 30
  | getValues => 25
  | showValues => 20
  | idle => 31

def threads : List Thread := [.serial, .getValues, .showValues, .idle]

/-- About to call `rt_device_read` or `rt_mutex_take`; in `rt_mutex_take`, suspended
and about to call `rt_schedule`, or back from it; or with a byte in hand. -/
inductive SerialPc where
  | reading
  | taking
  | waiting
  | woken
  | handling
deriving DecidableEq, Repr

/-- Reading the sensors; in `rt_thread_mdelay`, suspended and about to call
`rt_schedule`, or back from it; or in `rt_sem_release` with a thread to give way to. -/
inductive GetPc where
  | working
  | pausing
  | rested
  | yielding
deriving DecidableEq, Repr

/-- Drawing, before and in the loop, with the same two places in `rt_thread_mdelay`;
about to call `rt_sem_take`, suspended in it and about to call `rt_schedule`, or back
from it; about to delete the semaphore; or returned from `showValues_entry`. -/
inductive ShowPc where
  | drawing
  | pausing
  | rested
  | taking
  | waiting
  | woken
  | failed
  | gone
deriving DecidableEq, Repr

/-- `RT_SERIAL_RB_BUFSZ` less the place that tells a full buffer from an empty one. -/
def rxRoom : Nat := 63

/-- The kernel, the two objects and where each thread is. The last five fields are
a record of the run: the results of `rt_sem_take`, whether a deleted semaphore was
released, the callbacks so far and since the last return of `rt_mutex_take`, the
returns, and whether one of them came without a callback of its own. -/
structure Watch where
  kernel : Kernel Thread := ⟨.showValues, fun _ => true, fun _ => .eok, Thread.priority⟩
  sem : Semaphore Thread := {}
  mutex : Mutex Thread := {}
  deleted : Bool := false
  asleep : Thread → Bool := fun _ => false
  serial : SerialPc := .reading
  getting : GetPc := .working
  showing : ShowPc := .drawing
  received : Nat := 0
  takes : List Err := []
  strayRelease : Bool := false
  callbacks : Nat := 0
  fresh : Nat := 0
  returns : Nat := 0
  unfounded : Bool := false

/-- The running thread goes on or calls `rt_thread_mdelay`, the tick interrupt ends
the delay of a thread, or the receive interrupt finds some bytes. -/
inductive Event where
  | step
  | sleep
  | wake (thread : Thread)
  | uart (bytes : Nat)
deriving DecidableEq, Repr

namespace Watch

def mutexReturn (w : Watch) : Watch :=
  { w with serial := .reading, returns := w.returns + 1, fresh := 0, unfounded := w.unfounded || w.fresh == 0 }

def stepSerial (w : Watch) : Watch :=
  match w.serial with
  | .reading =>
    if w.received = 0 then { w with serial := .taking }
    else { w with serial := .handling, received := w.received - 1 }
  | .taking =>
    let (outcome, kernel, mutex) := rtMutexTake w.kernel w.mutex
    match outcome with
    | .returned _ => { w with kernel, mutex }.mutexReturn
    | .waits => { w with kernel, mutex, serial := .waiting }
  | .waiting => { w with kernel := rtSchedule threads w.kernel, serial := .woken }
  | .woken => w.mutexReturn
  | .handling => { w with serial := .reading }

/-- The end of `rt_thread_sleep`. -/
def clearTimeout (kernel : Kernel Thread) : Kernel Thread :=
  if kernel.error kernel.current = .etimeout then kernel.setError kernel.current .eok else kernel

/-- The end of `getValues`' loop is the call of `rt_sem_release`. -/
def stepGet (w : Watch) : Watch :=
  match w.getting with
  | .working =>
    if w.deleted then
      { w with strayRelease := true }
    else
      let (_, needSchedule, kernel, sem) := rtSemRelease w.kernel w.sem
      { w with kernel, sem, getting := if needSchedule then .yielding else .working }
  | .pausing => { w with kernel := rtSchedule threads w.kernel, getting := .rested }
  | .rested => { w with kernel := clearTimeout w.kernel, getting := .working }
  | .yielding => { w with kernel := rtSchedule threads w.kernel, getting := .working }

def semReturn (w : Watch) (code : Err) : Watch :=
  { w with takes := w.takes ++ [code], showing := if code = .eok then .drawing else .failed }

def stepShow (w : Watch) : Watch :=
  match w.showing with
  | .drawing => { w with showing := .taking }
  | .pausing => { w with kernel := rtSchedule threads w.kernel, showing := .rested }
  | .rested => { w with kernel := clearTimeout w.kernel, showing := .drawing }
  | .taking =>
    let (outcome, kernel, sem) := rtSemTake w.kernel w.sem
    match outcome with
    | .returned code => { w with kernel, sem }.semReturn code
    | .waits => { w with kernel, sem, showing := .waiting }
  | .waiting => { w with kernel := rtSchedule threads w.kernel, showing := .woken }
  | .woken => w.semReturn (waited w.kernel)
  | .failed =>
    { w with deleted := true, showing := .gone, kernel := rtSchedule threads (w.kernel.setReady .showValues false) }
  | .gone => w

/-- `uart_input`, in the name of whichever thread was interrupted. -/
def uartInput (w : Watch) : Watch :=
  let (_, needSchedule, kernel, mutex) := rtMutexRelease w.kernel w.mutex
  { w with
    kernel := if needSchedule then rtSchedule threads kernel else kernel
    mutex, callbacks := w.callbacks + 1, fresh := w.fresh + 1 }

/-- `rt_hw_serial_isr` calls back when there is something in the buffer. -/
def uart (w : Watch) (bytes : Nat) : Watch :=
  if w.received + bytes = 0 then w else { w with received := min rxRoom (w.received + bytes) }.uartInput

def sleep (w : Watch) : Option Watch :=
  let thread := w.kernel.current
  let slept := { w with
    kernel := w.kernel.setReady thread false, asleep := fun other => if other = thread then true else w.asleep other }
  if thread = .getValues ∧ w.getting = .working then some { slept with getting := .pausing }
  else if thread = .showValues ∧ w.showing = .drawing then some { slept with showing := .pausing }
  else none

/-- `rt_thread_timeout`. -/
def wake (w : Watch) (thread : Thread) : Option Watch :=
  if w.asleep thread then
    some { w with
      kernel := rtSchedule threads ((w.kernel.setError thread .etimeout).setReady thread true)
      asleep := fun other => if other = thread then false else w.asleep other }
  else
    none

def step (w : Watch) : Event → Option Watch
  | .step =>
    match w.kernel.current with
    | .serial => some w.stepSerial
    | .getValues => some w.stepGet
    | .showValues => some w.stepShow
    | .idle => some w
  | .sleep => w.sleep
  | .wake thread => w.wake thread
  | .uart bytes => some (w.uart bytes)

end Watch

end SmartWatch
