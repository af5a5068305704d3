import SmartWatch.Heap
import SmartWatch.Ipc
import SmartWatch.Lib.Chains
import SmartWatch.Lib.Deadlines
import SmartWatch.Lib.TwosComplement

/-! The message queue of `ipc.c`. A step of a thread in a call goes up to the point
where the interrupts are turned on again, and the copying between two such points is a
step of its own. -/

namespace SmartWatch
open Chains

def mqEntryMax : Nat := 65535

/-- Where a thread stands: outside, at the top of a call, on one of the two lists of
suspended threads, just resumed, or in the middle of a call with a message block in
hand. A time below zero is without end. -/
inductive MqPhase where
  | out (code : Err)
  | sending (buffer : List UInt8) (timeout : Int)
  | sendWaits (buffer : List UInt8) (timeout : Int)
  | sendResumed (buffer : List UInt8) (timeout : Int)
  | urging (buffer : List UInt8)
  | copying (urgent : Bool) (buffer : List UInt8) (msg : Nat)
  | linking (urgent : Bool) (buffer : List UInt8) (msg : Nat)
  | receiving (size : Nat) (timeout : Int)
  | recvWaits (size : Nat) (timeout : Int)
  | recvResumed (size : Nat) (timeout : Int)
  | taking (size : Nat) (msg : Nat)
  | freeing (msg : Nat)
deriving DecidableEq, Repr

/-- `struct rt_messagequeue` with its pool, and the threads that use it. The blocks of
the pool are numbered, and `next` and `data` are their contents; `buffer` is what a
thread has received last. -/
structure MessageQueue (τ : Type) where
  msgSize : Nat
  maxMsgs : Nat
  entry : Nat := 0
  head : Option Nat := none
  tail : Option Nat := none
  free : Option Nat := none
  next : Nat → Option Nat := fun _ => none
  data : Nat → List UInt8
  byPriority : Bool := false
  receivers : List τ := []
  senders : List τ := []
  priority : τ → Nat
  error : τ → Err := fun _ => .eok
  phase : τ → MqPhase := fun _ => .out .eok
  buffer : τ → List UInt8 := fun _ => []

/-- A thread calls a function, goes on with its call, or is no longer suspended since
its time has run out; `ticks` have passed since it was suspended. -/
inductive MqEvent (τ : Type) where
  | send (thread : τ) (buffer : List UInt8) (timeout : Int)
  | urgent (thread : τ) (buffer : List UInt8)
  | recv (thread : τ) (size : Nat) (timeout : Int)
  | reset
  | goOn (thread : τ) (ticks : Nat)
  | timeUp (thread : τ)
deriving DecidableEq, Repr

/-- What is left of the time of a thread that has been resumed. -/
def timeoutLeft (timeout : Int) (ticks : Nat) : Int :=
  if timeout > 0 then max 0 (TwosComplement.wrap 32 (timeout - ticks)) else timeout

namespace MessageQueue

variable {τ : Type} [DecidableEq τ]

/-- The loop of `rt_mq_init` over the blocks of the pool. -/
def freeBlocks : Nat → (Nat → Option Nat) × Option Nat
  | 0 => (fun _ => none, none)
  | count + 1 =>
    let (next, free) := freeBlocks count
    (link next count free, some count)

/-- `mq->msg_size`, a `rt_uint16_t`. -/
def alignedSize (msgSize : Nat) : Nat := rtAlign msgSize % 2 ^ 16

/-- `mq->max_msgs`, a `rt_uint16_t`. A block is a `struct rt_mq_message` and a message. -/
def blockCount (msgSize poolSize : Nat) : Nat := poolSize / (alignedSize msgSize + 4) % 2 ^ 16

def rtMqInit (msgSize poolSize : Nat) (data : Nat → List UInt8) (byPriority : Bool) (priority : τ → Nat) : MessageQueue τ :=
  let (next, free) := freeBlocks (blockCount msgSize poolSize)
  { msgSize := alignedSize msgSize, maxMsgs := blockCount msgSize poolSize, data, byPriority, priority, next, free }

def setPhase (q : MessageQueue τ) (thread : τ) (phase : MqPhase) : MessageQueue τ :=
  { q with phase := fun other => if other = thread then phase else q.phase other }

def setError (q : MessageQueue τ) (thread : τ) (code : Err) : MessageQueue τ :=
  { q with error := fun other => if other = thread then code else q.error other }

/-- The place in a list of suspended threads. -/
def enqueue (q : MessageQueue τ) (thread : τ) (list : List τ) : List τ :=
  Deadlines.insert (fun other => q.byPriority && q.priority thread < q.priority other) thread list

/-- The loop of `rt_mq_send_wait`, up to the next point where the interrupts are on. -/
def sendLoop (q : MessageQueue τ) (thread : τ) (buffer : List UInt8) (timeout : Int) : MessageQueue τ :=
  match q.free with
  | some msg => { q with free := q.next msg }.setPhase thread (.copying false buffer msg)
  | none =>
    let q := q.setError thread .eok
    if timeout = 0 then
      q.setPhase thread (.out .efull)
    else
      { q with senders := q.enqueue thread q.senders }.setPhase thread (.sendWaits buffer timeout)

def urgentStart (q : MessageQueue τ) (thread : τ) (buffer : List UInt8) : MessageQueue τ :=
  match q.free with
  | some msg => { q with free := q.next msg }.setPhase thread (.copying true buffer msg)
  | none => q.setPhase thread (.out .efull)

/-- The copying of the buffer, before which `rt_mq_send_wait` clears the link. -/
def copyIn (q : MessageQueue τ) (thread : τ) (urgent : Bool) (buffer : List UInt8) (msg : Nat) : MessageQueue τ :=
  { q with
    next := if urgent then q.next else link q.next msg none
    data := fun other => if other = msg then buffer ++ (q.data msg).drop buffer.length else q.data other
  }.setPhase thread (.linking urgent buffer msg)

/-- The first receiver that waits goes on. -/
def resumeReceiver (q : MessageQueue τ) : MessageQueue τ :=
  match q.receivers with
  | [] => q
  | first :: rest =>
    match q.phase first with
    | .recvWaits size timeout => { q with receivers := rest }.setPhase first (.recvResumed size timeout)
    | _ => q

def resumeSender (q : MessageQueue τ) : MessageQueue τ :=
  match q.senders with
  | [] => q
  | first :: rest =>
    match q.phase first with
    | .sendWaits buffer timeout => { q with senders := rest }.setPhase first (.sendResumed buffer timeout)
    | _ => q

def linkLast (q : MessageQueue τ) (msg : Nat) : MessageQueue τ :=
  { q with
    next := linkBehind q.next q.tail msg
    tail := some msg
    head := if q.head = none then some msg else q.head }

def linkFirst (q : MessageQueue τ) (msg : Nat) : MessageQueue τ :=
  { q with
    next := link q.next msg q.head
    head := some msg
    tail := if q.tail = none then some msg else q.tail }

/-- The last part of `rt_mq_send_wait` and of `rt_mq_urgent`. -/
def linkIn (q : MessageQueue τ) (thread : τ) (urgent : Bool) (msg : Nat) : MessageQueue τ :=
  let q := if urgent then q.linkFirst msg else q.linkLast msg
  if q.entry < mqEntryMax then
    ({ q with entry := q.entry + 1 }.setPhase thread (.out .eok)).resumeReceiver
  else
    q.setPhase thread (.out .efull)

/-- The loop of `rt_mq_recv`; `none` when it reads a block that is not there. -/
def recvLoop (q : MessageQueue τ) (thread : τ) (size : Nat) (timeout : Int) : Option (MessageQueue τ) :=
  if q.entry = 0 then
    let q := q.setError thread .eok
    if timeout = 0 then
      some ((q.setError thread .etimeout).setPhase thread (.out .etimeout))
    else
      some ({ q with receivers := q.enqueue thread q.receivers }.setPhase thread (.recvWaits size timeout))
  else
    q.head.map fun msg =>
      { q with
        head := q.next msg
        tail := if q.tail = some msg then none else q.tail
        entry := if q.entry > 0 then q.entry - 1 else q.entry
      }.setPhase thread (.taking size msg)

/-- The copying of a block into the buffer of the caller. -/
def copyOut (q : MessageQueue τ) (thread : τ) (size msg : Nat) : MessageQueue τ :=
  let bytes := (q.data msg).take (if size > q.msgSize then q.msgSize else size)
  { q with buffer := fun other => if other = thread then bytes else q.buffer other }.setPhase thread (.freeing msg)

/-- The last part of `rt_mq_recv`. -/
def putFree (q : MessageQueue τ) (msg : Nat) : MessageQueue τ :=
  { q with next := link q.next msg q.free, free := some msg }

/-- One turn of `rt_ipc_list_resume_all` for every suspended thread. -/
def resumeAll (q : MessageQueue τ) : MessageQueue τ :=
  { q with
    receivers := []
    senders := []
    error := fun thread => if thread ∈ q.receivers ++ q.senders then .error else q.error thread
    phase := fun thread =>
      if thread ∈ q.receivers ++ q.senders then
        match q.phase thread with
        | .sendWaits buffer timeout => .sendResumed buffer timeout
        | .recvWaits size timeout => .recvResumed size timeout
        | other => other
      else
        q.phase thread }

/-- The loop of `rt_mq_control`, which is `none` when it has not ended after `turns` turns. -/
def drain : Nat → MessageQueue τ → Option (MessageQueue τ)
  | 0, _ => none
  | turns + 1, q =>
    match q.head with
    | none => some q
    | some msg =>
      drain turns ({ q with head := q.next msg, tail := if q.tail = some msg then none else q.tail }.putFree msg)

def reset (q : MessageQueue τ) : Option (MessageQueue τ) :=
  (drain (q.maxMsgs + 1) q.resumeAll).map fun q => { q with entry := 0 }

/-- The next step of a thread in a call. -/
def goOn (q : MessageQueue τ) (thread : τ) (ticks : Nat) : Option (MessageQueue τ) :=
  match q.phase thread with
  | .sending buffer timeout =>
    if q.free = none ∧ timeout = 0 then
      some (q.setPhase thread (.out .efull))
    else
      some (q.sendLoop thread buffer timeout)
  | .sendResumed buffer timeout =>
    if q.error thread ≠ .eok then
      some (q.setPhase thread (.out (q.error thread)))
    else
      some (q.sendLoop thread buffer (timeoutLeft timeout ticks))
  | .urging buffer => some (q.urgentStart thread buffer)
  | .copying urgent buffer msg => some (q.copyIn thread urgent buffer msg)
  | .linking urgent _ msg => some (q.linkIn thread urgent msg)
  | .receiving size timeout =>
    if q.entry = 0 ∧ timeout = 0 then
      some (q.setPhase thread (.out .etimeout))
    else
      q.recvLoop thread size timeout
  | .recvResumed size timeout =>
    if q.error thread ≠ .eok then
      some (q.setPhase thread (.out (q.error thread)))
    else
      q.recvLoop thread size (timeoutLeft timeout ticks)
  | .taking size msg => some (q.copyOut thread size msg)
  | .freeing msg => some ((q.putFree msg).setPhase thread (.out .eok)).resumeSender
  | .out _ | .sendWaits _ _ | .recvWaits _ _ => some q

def step (q : MessageQueue τ) : MqEvent τ → Option (MessageQueue τ)
  | .send thread buffer timeout =>
    match q.phase thread with
    | .out _ => some (q.setPhase thread (if buffer.length > q.msgSize then .out .error else .sending buffer timeout))
    | _ => some q
  | .urgent thread buffer =>
    match q.phase thread with
    | .out _ => some (q.setPhase thread (if buffer.length > q.msgSize then .out .error else .urging buffer))
    | _ => some q
  | .recv thread size timeout =>
    match q.phase thread with
    | .out _ => some (q.setPhase thread (.receiving size timeout))
    | _ => some q
  | .reset => q.reset
  | .goOn thread ticks => q.goOn thread ticks
  | .timeUp thread =>
    match q.phase thread with
    | .sendWaits buffer timeout =>
      if timeout > 0 then
        some (({ q with senders := q.senders.erase thread }.setError thread .etimeout).setPhase thread (.sendResumed buffer timeout))
      else
        some q
    | .recvWaits size timeout =>
      if timeout > 0 then
        some (({ q with receivers := q.receivers.erase thread }.setError thread .etimeout).setPhase thread (.recvResumed size timeout))
      else
        some q
    | _ => some q

end MessageQueue

end SmartWatch
