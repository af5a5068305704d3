import SmartWatch.Proofs.MessageBlocks
import SmartWatch.Lib.Inbox

/-! The message queue, used by any number of threads at once, is a queue of messages. -/

namespace SmartWatch.Proofs.MessageQueues
open Runs Inbox SmartWatch.Proofs.MessageBlocks

variable {τ : Type} [DecidableEq τ] {q next after : MessageQueue τ} {box : Box τ (List UInt8)} {queue pool : List Nat}
  {thread : τ} {msg ticks : Nat} {sizes : Nat × Nat} {buffer : List UInt8} {timeout : Int}

/-- A message is a whole block that starts with the bytes sent, and a receiver gets as
much of it as it asked for. -/
def blocks (msgSize : Nat) : Format (List UInt8) (List UInt8) (Nat × List UInt8) where
  fills buffer message := decide (buffer <+: message)
  reads message copy := copy.2 == message.take (if copy.1 > msgSize then msgSize else copy.1)

/-- What a step does to the messages: the copies are those in the buffers of the callers. -/
def shown (before : MessageQueue τ) (event : MqEvent τ) (after : MessageQueue τ) :
    List (Act τ (List UInt8) (List UInt8) (Nat × List UInt8)) :=
  match event with
  | .reset => [.clear]
  | .goOn thread _ =>
    match before.phase thread with
    | .linking urgent buffer msg => [.put urgent buffer (before.data msg)]
    | .taking size _ => [.deliver thread (size, after.buffer thread)]
    | _ =>
      match after.phase thread with
      | .taking _ msg => [.take thread (before.data msg)]
      | _ => []
  | _ => []

/-- The messages of the queue and those on their way to a receiver. -/
structure Agrees (sizes : Nat × Nat) (queue : List Nat) (q : MessageQueue τ) (box : Box τ (List UInt8)) : Prop where
  size : (q.msgSize, q.maxMsgs) = sizes
  queue : box.queue = queue.map q.data
  hand : ∀ thread size msg, q.phase thread = .taking size msg → box.hand thread = some (q.data msg)

def Related (sizes : Nat × Nat) (q : MessageQueue τ) (box : Box τ (List UInt8)) : Prop :=
  ∃ queue pool, Kept queue pool (counts pool.length queue.length) q ∧ Agrees sizes queue q box

/-- A step shows nothing. -/
structure Silent (thread : τ) (q next : MessageQueue τ) : Prop where
  data : next.data = q.data
  size : (next.msgSize, next.maxMsgs) = (q.msgSize, q.maxMsgs)
  taking : ∀ other size msg, next.phase other = .taking size msg → other ≠ thread ∧ q.phase other = .taking size msg

omit [DecidableEq τ] in
theorem Silent.agrees (silent : Silent thread q next) (agrees : Agrees sizes queue q box) :
    Agrees sizes queue next box := by
  refine ⟨silent.size.trans agrees.size, silent.data ▸ agrees.queue, fun other size msg is => ?_⟩
  rw [silent.data]
  exact agrees.hand other size msg (silent.taking other size msg is).2

theorem silent_setPhase {phase : MqPhase}
    (same : next.data = q.data ∧ (next.msgSize, next.maxMsgs) = (q.msgSize, q.maxMsgs) ∧ next.phase = q.phase)
    (not : ∀ size msg, phase ≠ .taking size msg) : Silent thread q (next.setPhase thread phase) := by
  refine ⟨same.1, same.2.1, fun other size msg is => ?_⟩
  rw [setPhase_phase] at is
  split at is
  · exact absurd is (not size msg)
  next different => exact ⟨different, same.2.2 ▸ is⟩

omit [DecidableEq τ] in
theorem Silent.put (silent : Silent thread q next) (side : Side) (list : List τ) :
    Silent thread q (side.put next list) := by
  cases side <;> exact ⟨silent.data, silent.size, silent.taking⟩

omit [DecidableEq τ] in
theorem silent_shown (silent : Silent thread q next)
    (empty : inHand (q.phase thread) = none ∨ ∃ msg, q.phase thread = .freeing msg) :
    shown q (.goOn thread ticks) next = [] := by
  cases place : q.phase thread with
  | linking urgent buffer msg =>
    rw [place] at empty
    rcases empty with none | ⟨_, is⟩
    · cases none
    · cases is
  | taking size msg =>
    rw [place] at empty
    rcases empty with none | ⟨_, is⟩
    · cases none
    · cases is
  | _ =>
    cases now : next.phase thread with
    | taking size msg => exact absurd rfl (silent.taking thread size msg now).1
    | _ => simp only [shown, place, now]

def Simulated (sizes : Nat × Nat) (q : MessageQueue τ) (box : Box τ (List UInt8)) (event : MqEvent τ) : Prop :=
  ∃ next after, q.step event = some next ∧ run (Inbox.step (blocks sizes.1)) box (shown q event next) = some after ∧
    Related sizes next after

/-- A step that shows nothing. -/
private theorem silent_event {event : MqEvent τ} (agrees : Agrees sizes queue q box) (taken : q.step event = some next)
    (none : shown q event next = []) (kept : Kept queue pool (counts pool.length queue.length) next)
    (silent : Silent thread q next) : Simulated sizes q box event := by
  refine ⟨next, box, taken, ?_, queue, pool, kept, silent.agrees agrees⟩
  rw [none]
  rfl

/-- A step of a thread without a block that shows nothing. -/
private theorem quiet_simulated (agrees : Agrees sizes queue q box) (empty : inHand (q.phase thread) = none)
    (taken : q.goOn thread ticks = some next)
    (kept : ∃ pool, Kept queue pool (counts pool.length queue.length) next ∧ Silent thread q next) :
    Simulated sizes q box (.goOn thread ticks) := by
  obtain ⟨pool, kept, silent⟩ := kept
  exact silent_event agrees taken (silent_shown silent (.inl empty)) kept silent

/-- A thread leaves a call in which it has found nothing. -/
private theorem leave_kept (kept : Kept queue pool (counts pool.length queue.length) q)
    (empty : inHand (q.phase thread) = none) (awake : Awake (q.phase thread))
    (idle : ∀ side : Side, ¬Going side.goes q thread) (code : Err) :
    ∃ pool, Kept queue pool (counts pool.length queue.length) (q.setPhase thread (.out code)) ∧
      Silent thread q (q.setPhase thread (.out code)) := by
  have left := kept.go (.out code) empty awake rfl (awake_of rfl rfl) fun side is => absurd is (idle side)
  exact ⟨pool, left, silent_setPhase ⟨rfl, rfl, rfl⟩ nofun⟩

private theorem sendLoop_kept (kept : Kept queue pool (counts pool.length queue.length) q)
    (empty : inHand (q.phase thread) = none) (awake : Awake (q.phase thread)) (no_recv : ¬Going recvsOn q thread)
    (buffer : List UInt8) (timeout : Int) :
    ∃ poolNow, Kept queue poolNow (counts poolNow.length queue.length) (q.sendLoop thread buffer timeout) ∧
      Silent thread q (q.sendLoop thread buffer timeout) := by
  unfold MessageQueue.sendLoop
  cases free : q.free with
  | some msg =>
    obtain ⟨rest, _, claimed⟩ := kept.claim empty awake free no_recv false buffer
    exact ⟨rest, claimed, silent_setPhase ⟨rfl, rfl, rfl⟩ nofun⟩
  | none =>
    have nothing : pool = [] := (free ▸ kept.blocks.unused).empty
    subst nothing
    by_cases now : timeout = 0
    · simp only [now, if_true]
      have idle : ∀ side : Side, Going side.goes q thread → counts 0 queue.length side = 0 := by
        intro side is
        cases side with
        | sender => rfl
        | receiver => exact absurd is no_recv
      have left := kept.move (.out .efull) empty awake rfl (awake_of rfl rfl) .eok idle
      exact ⟨[], left, silent_setPhase ⟨rfl, rfl, rfl⟩ nofun⟩
    · simp only [now, if_false]
      have others : ∀ other : Side, other ≠ .sender → ¬Going other.goes q thread := by
        intro other different
        cases other with
        | sender => exact absurd rfl different
        | receiver => exact no_recv
      have suspended := kept.suspend .sender (.sendWaits buffer timeout) rfl empty awake others rfl
      exact ⟨[], suspended, silent_setPhase ⟨rfl, rfl, rfl⟩ nofun⟩

private theorem urgentStart_kept (kept : Kept queue pool (counts pool.length queue.length) q)
    (empty : inHand (q.phase thread) = none) (awake : Awake (q.phase thread))
    (idle : ∀ side : Side, ¬Going side.goes q thread) (buffer : List UInt8) :
    ∃ poolNow, Kept queue poolNow (counts poolNow.length queue.length) (q.urgentStart thread buffer) ∧
      Silent thread q (q.urgentStart thread buffer) := by
  unfold MessageQueue.urgentStart
  cases free : q.free with
  | some msg =>
    obtain ⟨rest, _, claimed⟩ := kept.claim empty awake free (idle .receiver) true buffer
    exact ⟨rest, claimed, silent_setPhase ⟨rfl, rfl, rfl⟩ nofun⟩
  | none => exact leave_kept kept empty awake idle .efull

/-- Resuming shows nothing. -/
private theorem resume_silent (side : Side) (q : MessageQueue τ) : (side.resume q).data = q.data ∧
    ((side.resume q).msgSize, (side.resume q).maxMsgs) = (q.msgSize, q.maxMsgs) ∧
    ∀ other size msg, (side.resume q).phase other = .taking size msg → q.phase other = .taking size msg := by
  rcases side.resume_cases q with ⟨same, _⟩ | ⟨first, rest, phase, _, _, goes, taken⟩
  · rw [same]
    exact ⟨rfl, rfl, fun _ _ _ => id⟩
  · rw [taken]
    have phases : (side.put (q.setPhase first phase) rest).phase = (q.setPhase first phase).phase := by
      cases side <;> rfl
    refine ⟨by cases side <;> rfl, by cases side <;> rfl, fun other size msg is => ?_⟩
    rw [phases, setPhase_phase] at is
    split at is
    · subst is
      cases side <;> cases goes
    · exact is

private theorem copying_simulated (kept : Kept queue pool (counts pool.length queue.length) q)
    (agrees : Agrees sizes queue q box) {urgent : Bool} (copies : q.phase thread = .copying urgent buffer msg) :
    Simulated sizes q box (.goOn thread ticks) := by
  have holds : inHand (q.phase thread) = some msg := congrArg inHand copies
  have out := (kept.blocks.held thread msg holds).2
  have here : (q.copyIn thread urgent buffer msg).phase thread = .linking urgent buffer msg := setPhase_same _ _ _
  have shows_none : shown q (.goOn thread ticks) (q.copyIn thread urgent buffer msg) = [] := by
    simp only [shown, copies, here]
  have same {item : Nat} (different : item ≠ msg) : (q.copyIn thread urgent buffer msg).data item = q.data item :=
    if_neg different
  have filled : Agrees sizes queue (q.copyIn thread urgent buffer msg) box := by
    refine ⟨agrees.size, agrees.queue.trans ?_, fun other size item is => ?_⟩
    · refine List.map_congr_left fun item member => (same fun is => out ?_).symm
      exact List.mem_append_left _ (is ▸ member)
    · change (if other = thread then _ else _) = _ at is
      split at is
      · cases is
      next different =>
        have apart : item ≠ msg := fun is_msg =>
          different (kept.blocks.single other thread msg (is_msg ▸ congrArg inHand is) holds)
        rw [same apart]
        exact agrees.hand other size item is
  refine ⟨q.copyIn thread urgent buffer msg, box, ?_, ?_, queue, pool, kept.fill copies, filled⟩
  · simp only [MessageQueue.step, MessageQueue.goOn, copies]
  · rw [shows_none]
    rfl

/-- The block is linked in before a receiver goes on. -/
private theorem linkIn_spec (kept : Kept queue pool (counts pool.length queue.length) q) {urgent : Bool}
    (links : q.phase thread = .linking urgent buffer msg) :
    ∃ middle, q.linkIn thread urgent msg = middle.resumeReceiver ∧
      Kept (if urgent then msg :: queue else queue ++ [msg]) pool (counts pool.length queue.length) middle ∧
      Silent thread q middle := by
  have room := kept.room (congrArg inHand links)
  refine ⟨_, ?_, kept.link links, ?_⟩
  · unfold MessageQueue.linkIn
    cases urgent <;> exact if_pos room
  · cases urgent <;> exact silent_setPhase ⟨rfl, rfl, rfl⟩ nofun

private theorem linking_simulated (kept : Kept queue pool (counts pool.length queue.length) q)
    (agrees : Agrees sizes queue q box) {urgent : Bool} (links : q.phase thread = .linking urgent buffer msg) :
    Simulated sizes q box (.goOn thread ticks) := by
  have fills := kept.filled thread
  rw [links] at fills
  obtain ⟨middle, taken, linked, silent⟩ := linkIn_spec kept links
  obtain ⟨data, size, taking⟩ := resume_silent .receiver middle
  have same : middle.resumeReceiver.data = q.data := data.trans silent.data
  have resumed := linked.resume .receiver
  have more : queue.length + 1 = (if urgent then msg :: queue else queue ++ [msg]).length := by
    cases urgent
    · change queue.length + 1 = (queue ++ [msg]).length
      rw [List.length_append, List.length_singleton]
    · rfl
  rw [update_receiver, counts, more] at resumed
  have agreed : Agrees sizes (if urgent then msg :: queue else queue ++ [msg]) middle.resumeReceiver
      { box with queue := if urgent then q.data msg :: box.queue else box.queue ++ [q.data msg] } := by
    refine ⟨size.trans (silent.size.trans agrees.size), ?_, fun other size item is => ?_⟩
    · rw [same, agrees.queue]
      cases urgent
      · change queue.map q.data ++ [q.data msg] = (queue ++ [msg]).map q.data
        rw [List.map_append, List.map_singleton]
      · rfl
    · rw [same]
      exact agrees.hand other size item (silent.taking other size item (taking other size item is)).2
  refine ⟨middle.resumeReceiver, _, ?_, ?_, _, pool, resumed, agreed⟩
  · simp only [MessageQueue.step, MessageQueue.goOn, links, taken]
  · simp only [shown, links, run, Inbox.step, blocks, decide_eq_true fills.1, if_true, Option.bind_some]

/-- A receiver copies what it took. -/
private theorem taking_simulated {size : Nat} (kept : Kept queue pool (counts pool.length queue.length) q)
    (agrees : Agrees sizes queue q box) (takes : q.phase thread = .taking size msg) :
    Simulated sizes q box (.goOn thread ticks) := by
  have hand := agrees.hand thread size msg takes
  have copied : (q.copyOut thread size msg).buffer thread =
      (q.data msg).take (if size > sizes.1 then sizes.1 else size) := by
    rw [← agrees.size]
    exact if_pos rfl
  have agreed : Agrees sizes queue (q.copyOut thread size msg)
      { box with hand := fun other => if other = thread then none else box.hand other } := by
    refine ⟨agrees.size, agrees.queue, fun other size item is => ?_⟩
    change (if other = thread then _ else _) = _ at is
    split at is
    · cases is
    next different => exact (if_neg different).trans (agrees.hand other size item is)
  refine ⟨q.copyOut thread size msg, _, ?_, ?_, queue, pool, kept.copy takes, agreed⟩
  · simp only [MessageQueue.step, MessageQueue.goOn, takes]
  · simp only [shown, takes, run, Inbox.step, blocks, hand, copied, Option.any_some, BEq.rfl, if_true, Option.bind_some]

private theorem freeing_simulated (kept : Kept queue pool (counts pool.length queue.length) q)
    (agrees : Agrees sizes queue q box) (frees : q.phase thread = .freeing msg) :
    Simulated sizes q box (.goOn thread ticks) := by
  obtain ⟨data, size, taking⟩ := resume_silent .sender ((q.putFree msg).setPhase thread (.out .eok))
  have released : Silent thread q ((q.putFree msg).setPhase thread (.out .eok)) :=
    silent_setPhase ⟨rfl, rfl, rfl⟩ nofun
  have silent : Silent thread q ((q.putFree msg).setPhase thread (.out .eok)).resumeSender := by
    refine ⟨data.trans released.data, size.trans released.size, fun other size item is => ?_⟩
    exact released.taking other size item (taking other size item is)
  have resumed := (kept.release frees).resume .sender
  rw [update_sender] at resumed
  have taken : q.goOn thread ticks = some ((q.putFree msg).setPhase thread (.out .eok)).resumeSender := by
    simp only [MessageQueue.goOn, frees]
  exact silent_event agrees taken (silent_shown silent (.inr ⟨msg, frees⟩)) resumed silent

private theorem setError_setError (q : MessageQueue τ) (thread : τ) (one two : Err) :
    (q.setError thread one).setError thread two = q.setError thread two := by
  unfold MessageQueue.setError
  congr
  funext other
  split
  · rfl
  next different => exact if_neg different

/-- A receiver takes the first message, or there is none. -/
private theorem recvLoop_simulated (kept : Kept queue pool (counts pool.length queue.length) q)
    (agrees : Agrees sizes queue q box) (empty : inHand (q.phase thread) = none) (awake : Awake (q.phase thread))
    (no_send : ¬Going sendsOn q thread) (size : Nat) (timeout : Int)
    (taken : q.goOn thread ticks = q.recvLoop thread size timeout) :
    Simulated sizes q box (.goOn thread ticks) := by
  unfold MessageQueue.recvLoop at taken
  by_cases none : q.entry = 0
  · have nothing : queue.length = 0 := kept.entry.symm.trans none
    rw [if_pos none] at taken
    by_cases now : timeout = 0
    · rw [if_pos now, setError_setError] at taken
      have idle : ∀ side : Side, Going side.goes q thread → counts pool.length queue.length side = 0 := by
        intro side is
        cases side with
        | sender => exact absurd is no_send
        | receiver => exact nothing
      have left := kept.move (.out .etimeout) empty awake rfl (awake_of rfl rfl) .etimeout idle
      exact quiet_simulated agrees empty taken ⟨pool, left, silent_setPhase ⟨rfl, rfl, rfl⟩ nofun⟩
    · rw [if_neg now] at taken
      have others : ∀ other : Side, other ≠ .receiver → ¬Going other.goes q thread := by
        intro other different
        cases other with
        | sender => exact no_send
        | receiver => exact absurd rfl different
      have suspended := kept.suspend .receiver (.recvWaits size timeout) nothing empty awake others rfl
      exact quiet_simulated agrees empty taken ⟨pool, suspended, silent_setPhase ⟨rfl, rfl, rfl⟩ nofun⟩
  · rw [if_neg none] at taken
    obtain ⟨msg, rest, first, rfl, took⟩ := kept.take empty awake none no_send size
    rw [first] at taken
    have shows_take (next : MessageQueue τ) (now : next.phase thread = .taking size msg) :
        shown q (.goOn thread ticks) next = [.take thread (q.data msg)] := by
      cases place : q.phase thread with
      | linking urgent buffer item =>
        rw [place] at empty
        cases empty
      | taking size item =>
        rw [place] at empty
        cases empty
      | _ => simp only [shown, place, now]
    refine ⟨_, { queue := rest.map q.data, hand := fun other => if other = thread then some (q.data msg) else box.hand other },
      taken, ?_, rest, pool, took, agrees.size, rfl, fun other other_size item is => ?_⟩
    · rw [shows_take _ (setPhase_same _ _ _)]
      simp only [run, Inbox.step, agrees.queue, List.map_cons, List.head?_cons, List.tail_cons, if_true, Option.bind_some]
    · rw [setPhase_phase] at is
      change (if other = thread then _ else _) = _
      split at is
      next same =>
        cases is
        exact if_pos same
      next different => exact (if_neg different).trans (agrees.hand other other_size item is)

/-- A thread that starts to send, or goes on with it, without an error. -/
private theorem sends_simulated (kept : Kept queue pool (counts pool.length queue.length) q)
    (agrees : Agrees sizes queue q box) (empty : inHand (q.phase thread) = none) (awake : Awake (q.phase thread))
    (no_recv : ¬Going recvsOn q thread) (buffer : List UInt8) (timeout : Int)
    (taken : q.goOn thread ticks = some (q.sendLoop thread buffer timeout)) :
    Simulated sizes q box (.goOn thread ticks) :=
  quiet_simulated agrees empty taken (sendLoop_kept kept empty awake no_recv buffer timeout)

private theorem leaves_simulated (kept : Kept queue pool (counts pool.length queue.length) q)
    (agrees : Agrees sizes queue q box) (empty : inHand (q.phase thread) = none) (awake : Awake (q.phase thread))
    (idle : ∀ side : Side, ¬Going side.goes q thread) (code : Err)
    (taken : q.goOn thread ticks = some (q.setPhase thread (.out code))) :
    Simulated sizes q box (.goOn thread ticks) :=
  quiet_simulated agrees empty taken (leave_kept kept empty awake idle code)

omit [DecidableEq τ] in
/-- A thread outside a call, or at the top of one, has not been resumed. -/
private theorem top_spec {phase : MqPhase} (place : q.phase thread = phase) (empty : inHand phase = none)
    (awake : Awake phase) (idle : ∀ side : Side, side.goes phase = false) :
    inHand (q.phase thread) = none ∧ Awake (q.phase thread) ∧ ∀ side : Side, ¬Going side.goes q thread := by
  subst place
  exact ⟨empty, awake, fun side => not_going (idle side)⟩

private theorem goOn_simulated (kept : Kept queue pool (counts pool.length queue.length) q)
    (agrees : Agrees sizes queue q box) (thread : τ) (ticks : Nat) : Simulated sizes q box (.goOn thread ticks) := by
  cases place : q.phase thread with
  | out code | sendWaits buffer timeout | recvWaits size timeout =>
    have empty : inHand (q.phase thread) = none := congrArg inHand place
    have stays : q.goOn thread ticks = some q := by simp only [MessageQueue.goOn, place]
    refine quiet_simulated agrees empty stays ⟨pool, kept, rfl, rfl, fun other size msg is => ⟨fun same => ?_, is⟩⟩
    rw [same, place] at is
    cases is
  | copying urgent buffer msg => exact copying_simulated kept agrees place
  | linking urgent buffer msg => exact linking_simulated kept agrees place
  | taking size msg => exact taking_simulated kept agrees place
  | freeing msg => exact freeing_simulated kept agrees place
  | urging buffer =>
    obtain ⟨empty, awake, idle⟩ := top_spec place rfl (awake_of rfl rfl) fun side => by cases side <;> rfl
    have taken : q.goOn thread ticks = some (q.urgentStart thread buffer) := by
      simp only [MessageQueue.goOn, place]
    exact quiet_simulated agrees empty taken (urgentStart_kept kept empty awake idle buffer)
  | sending buffer timeout =>
    obtain ⟨empty, awake, idle⟩ := top_spec place rfl (awake_of rfl rfl) fun side => by cases side <;> rfl
    by_cases full : q.free = none ∧ timeout = 0
    · refine leaves_simulated kept agrees empty awake idle .efull ?_
      simp only [MessageQueue.goOn, place, full, and_self, if_true]
    · refine sends_simulated kept agrees empty awake (idle .receiver) buffer timeout ?_
      simp only [MessageQueue.goOn, place, full, if_false]
  | receiving size timeout =>
    obtain ⟨empty, awake, idle⟩ := top_spec place rfl (awake_of rfl rfl) fun side => by cases side <;> rfl
    by_cases none : q.entry = 0 ∧ timeout = 0
    · refine leaves_simulated kept agrees empty awake idle .etimeout ?_
      simp only [MessageQueue.goOn, place, none, and_self, if_true]
    · refine recvLoop_simulated kept agrees empty awake (idle .sender) size timeout ?_
      simp only [MessageQueue.goOn, place, none, if_false]
  | sendResumed buffer timeout =>
    obtain ⟨empty, awake⟩ := Side.goes_spec .sender (congrArg sendsOn place)
    by_cases fine : q.error thread = .eok
    · have no_recv : ¬Going recvsOn q thread := not_going (congrArg recvsOn place)
      refine sends_simulated kept agrees empty awake no_recv buffer (timeoutLeft timeout ticks) ?_
      simp only [MessageQueue.goOn, place, fine, ne_eq, not_true_eq_false, if_false]
    · refine leaves_simulated kept agrees empty awake (fun _ is => fine is.2) (q.error thread) ?_
      simp only [MessageQueue.goOn, place, fine, ne_eq, not_false_eq_true, if_true]
  | recvResumed size timeout =>
    obtain ⟨empty, awake⟩ := Side.goes_spec .receiver (congrArg recvsOn place)
    by_cases fine : q.error thread = .eok
    · have no_send : ¬Going sendsOn q thread := not_going (congrArg sendsOn place)
      refine recvLoop_simulated kept agrees empty awake no_send size (timeoutLeft timeout ticks) ?_
      simp only [MessageQueue.goOn, place, fine, ne_eq, not_true_eq_false, if_false]
    · refine leaves_simulated kept agrees empty awake (fun _ is => fine is.2) (q.error thread) ?_
      simp only [MessageQueue.goOn, place, fine, ne_eq, not_false_eq_true, if_true]

/-- The thread that calls a function. -/
def caller : MqEvent τ → Option τ
  | .send thread _ _ | .urgent thread _ | .recv thread _ _ => some thread
  | _ => none

theorem step_busy {event : MqEvent τ} (calls : caller event = some thread)
    (busy : ∀ code, q.phase thread ≠ .out code) :
    q.step event = some q := by
  cases event with
  | send | urgent | recv =>
    cases calls
    simp only [MessageQueue.step]
  | _ => cases calls

theorem call_simulated {event : MqEvent τ} (kept : Kept queue pool (counts pool.length queue.length) q)
    (agrees : Agrees sizes queue q box) (none : ∀ next, shown q event next = []) (phase : MqPhase)
    (empty : inHand phase = Option.none) (awake : Awake phase) (calls : caller event = some thread)
    (begins : ∀ code, q.phase thread = .out code → q.step event = some (q.setPhase thread phase)) :
    Simulated sizes q box event := by
  cases place : q.phase thread with
  | out code =>
    obtain ⟨outside, out, idle⟩ := top_spec place rfl (awake_of rfl rfl) fun side => by cases side <;> rfl
    have begun := kept.go phase outside out empty awake fun side is => absurd is (idle side)
    refine silent_event agrees (begins code place) (none _) begun (silent_setPhase ⟨rfl, rfl, rfl⟩ fun size msg is => ?_)
    rw [is] at empty
    cases empty
  | _ =>
    refine ⟨q, box, step_busy calls fun code is => ?_, ?_, queue, pool, kept, agrees⟩
    · rw [place] at is
      cases is
    · rw [none]
      rfl

theorem timeUp_simulated (kept : Kept queue pool (counts pool.length queue.length) q)
    (agrees : Agrees sizes queue q box) (thread : τ) : Simulated sizes q box (.timeUp thread) := by
  have stays (taken : q.step (.timeUp thread) = some q) : Simulated sizes q box (.timeUp thread) :=
    ⟨q, box, taken, rfl, queue, pool, kept, agrees⟩
  have leaves (side : Side) (phase : MqPhase) (waits : side.waits (q.phase thread) = true) (goes : side.goes phase = true)
      (taken : q.step (.timeUp thread) =
        some (side.put ((q.setError thread .etimeout).setPhase thread phase) ((side.list q).erase thread))) :
      Simulated sizes q box (.timeUp thread) := by
    have silent : Silent thread q ((q.setError thread .etimeout).setPhase thread phase) := by
      refine silent_setPhase ⟨rfl, rfl, rfl⟩ fun size msg is => ?_
      subst is
      cases side <;> cases goes
    exact silent_event agrees taken rfl (kept.timeUp side phase waits goes) (silent.put side _)
  cases place : q.phase thread with
  | sendWaits buffer timeout =>
    by_cases limited : timeout > 0
    · refine leaves .sender (.sendResumed buffer timeout) (congrArg isSender place) rfl ?_
      simp only [MessageQueue.step, place, limited, if_true]
      rfl
    · exact stays (by simp only [MessageQueue.step, place, limited, if_false])
  | recvWaits size timeout =>
    by_cases limited : timeout > 0
    · refine leaves .receiver (.recvResumed size timeout) (congrArg isReceiver place) rfl ?_
      simp only [MessageQueue.step, place, limited, if_true]
      rfl
    · exact stays (by simp only [MessageQueue.step, place, limited, if_false])
  | _ => exact stays (by simp only [MessageQueue.step, place])

theorem step_simulated (q : MessageQueue τ) (box : Box τ (List UInt8)) (event : MqEvent τ)
    (related : Related sizes q box) :
    Simulated sizes q box event := by
  obtain ⟨queue, pool, kept, agrees⟩ := related
  cases event with
  | send thread buffer timeout =>
    by_cases long : buffer.length > q.msgSize
    · refine call_simulated kept agrees (fun _ => rfl) (.out .error) rfl (awake_of rfl rfl) rfl fun code is => ?_
      simp only [MessageQueue.step, is, long, if_true]
    · refine call_simulated kept agrees (fun _ => rfl) (.sending buffer timeout) rfl (awake_of rfl rfl) rfl fun code is => ?_
      simp only [MessageQueue.step, is, long, if_false]
  | urgent thread buffer =>
    by_cases long : buffer.length > q.msgSize
    · refine call_simulated kept agrees (fun _ => rfl) (.out .error) rfl (awake_of rfl rfl) rfl fun code is => ?_
      simp only [MessageQueue.step, is, long, if_true]
    · refine call_simulated kept agrees (fun _ => rfl) (.urging buffer) rfl (awake_of rfl rfl) rfl fun code is => ?_
      simp only [MessageQueue.step, is, long, if_false]
  | recv thread size timeout =>
    refine call_simulated kept agrees (fun _ => rfl) (.receiving size timeout) rfl (awake_of rfl rfl) rfl fun code is => ?_
    simp only [MessageQueue.step, is]
  | reset =>
    obtain ⟨next, taken, now, data, size, same⟩ := kept.reset
    refine ⟨next, { box with queue := [] }, taken, rfl, [], _, now, size.trans agrees.size, rfl, fun thread size msg is => ?_⟩
    rw [data]
    exact agrees.hand thread size msg (same thread size msg is)
  | goOn thread ticks => exact goOn_simulated kept agrees thread ticks
  | timeUp thread => exact timeUp_simulated kept agrees thread

section Runs
variable {msgSize poolSize : Nat} {data : Nat → List UInt8} {byPriority : Bool} {priority : τ → Nat}
  {final : MessageQueue τ} {events : List (MqEvent τ)}

/-- What a run on a new queue shows. -/
def history (msgSize poolSize : Nat) (data : Nat → List UInt8) (byPriority : Bool) (priority : τ → Nat)
    (events : List (MqEvent τ)) : List (Act τ (List UInt8) (List UInt8) (Nat × List UInt8)) :=
  trace MessageQueue.step shown (MessageQueue.rtMqInit msgSize poolSize data byPriority priority) events

theorem run_related (msgSize poolSize : Nat) (data : Nat → List UInt8) (byPriority : Bool) (priority : τ → Nat)
    (events : List (MqEvent τ)) : ∃ final box,
      run MessageQueue.step (MessageQueue.rtMqInit msgSize poolSize data byPriority priority) events = some final ∧
      run (Inbox.step (blocks (MessageQueue.alignedSize msgSize))) {}
        (history msgSize poolSize data byPriority priority events) = some box ∧
      Related (MessageQueue.alignedSize msgSize, MessageQueue.blockCount msgSize poolSize) final box := by
  obtain ⟨pool, kept⟩ := init_kept msgSize poolSize data byPriority priority
  exact run_simulates (Related _) step_simulated events ⟨[], pool, kept, rfl, rfl, fun _ _ _ is => by cases is⟩

/-- Used by any number of threads that send, send urgently, receive, wait, are timed
out and clear the queue in any order of their steps, the message queue never reads a
block that is not there, what it shows is a run of a box of messages, and the linked
blocks are the messages of the box, as many as the counter says. -/
theorem message_queue_refines (msgSize poolSize : Nat) (data : Nat → List UInt8) (byPriority : Bool)
    (priority : τ → Nat) (events : List (MqEvent τ)) : ∃ final box,
      run MessageQueue.step (MessageQueue.rtMqInit msgSize poolSize data byPriority priority) events = some final ∧
      run (Inbox.step (blocks (MessageQueue.alignedSize msgSize))) {}
        (history msgSize poolSize data byPriority priority events) = some box ∧
      ∃ queue, Chains.Chain final.next final.head queue ∧ box.queue = queue.map final.data ∧
        final.entry = queue.length ∧ queue.length ≤ MessageQueue.blockCount msgSize poolSize := by
  obtain ⟨final, box, reached, showed, queue, pool, kept, agrees⟩ :=
    run_related msgSize poolSize data byPriority priority events
  have size : final.maxMsgs = MessageQueue.blockCount msgSize poolSize := (Prod.mk.inj agrees.size).2
  have fits := kept.fits
  rw [size] at fits
  exact ⟨final, box, reached, showed, queue, kept.blocks.queued, agrees.queue, kept.entry, fits⟩

/-- A message put in by a true thread, taken by a false one that had waited for it. -/
def sampleEvents : List (MqEvent Bool) :=
  [.recv false 8 (-1), .goOn false 0, .send true [1, 2] 0, .goOn true 0, .goOn true 0, .goOn true 0, .goOn false 3,
    .goOn false 0, .goOn false 0]

/-- A pool of 16 bytes has two blocks for messages of up to 4 bytes. -/
def sampleQueue : MessageQueue Bool :=
  MessageQueue.rtMqInit 3 16 (fun _ => [0, 0, 0, 0]) false (fun _ => 0)

def sampleHistory : List (Act Bool (List UInt8) (List UInt8) (Nat × List UInt8)) :=
  history 3 16 (fun _ => [0, 0, 0, 0]) false (fun _ : Bool => 0) sampleEvents

theorem message_queue_refines_sample :
    sampleHistory = [.put false [1, 2] [1, 2, 0, 0], .take false [1, 2, 0, 0], .deliver false (8, [1, 2, 0, 0])] ∧
    ∃ final box, run MessageQueue.step sampleQueue sampleEvents = some final ∧
      run (Inbox.step (blocks (MessageQueue.alignedSize 3))) {} sampleHistory = some box ∧
      ∃ queue, Chains.Chain final.next final.head queue ∧ box.queue = queue.map final.data ∧
        final.entry = queue.length ∧ queue.length ≤ MessageQueue.blockCount 3 16 :=
  ⟨by decide, message_queue_refines 3 16 (fun _ => [0, 0, 0, 0]) false (fun _ : Bool => 0) sampleEvents⟩

/-- As long as no urgent message is put in and the queue is not cleared, the messages
taken are the messages put in, in their order, and the rest is in the queue. -/
theorem messages_in_order (msgSize poolSize : Nat) (data : Nat → List UInt8) (byPriority : Bool) (priority : τ → Nat)
    (events : List (MqEvent τ))
    (plain : ∀ act ∈ history msgSize poolSize data byPriority priority events, ordinary act = true) :
    ∃ final queue,
      run MessageQueue.step (MessageQueue.rtMqInit msgSize poolSize data byPriority priority) events = some final ∧
      Chains.Chain final.next final.head queue ∧
      putIn (history msgSize poolSize data byPriority priority events) =
        takenOut (history msgSize poolSize data byPriority priority events) ++ queue.map final.data := by
  obtain ⟨final, box, reached, showed, queue, pool, kept, agrees⟩ :=
    run_related msgSize poolSize data byPriority priority events
  have same := in_order plain showed
  rw [agrees.queue] at same
  exact ⟨final, queue, reached, kept.blocks.queued, same⟩

theorem messages_in_order_sample : ∃ final queue, run MessageQueue.step sampleQueue sampleEvents = some final ∧
    Chains.Chain final.next final.head queue ∧
    putIn sampleHistory = takenOut sampleHistory ++ queue.map final.data :=
  messages_in_order 3 16 (fun _ => [0, 0, 0, 0]) false (fun _ : Bool => 0) sampleEvents (by decide)

/-- In every reachable state each block of the pool is in the queue, in the free list or
in the hand of one thread that puts or takes a message, and in one of them only. -/
theorem every_block_in_one_place
    (reached : run MessageQueue.step (MessageQueue.rtMqInit msgSize poolSize data byPriority priority) events =
      some final) :
    ∃ queue pool, Chains.Chain final.next final.head queue ∧ Chains.Chain final.next final.free pool ∧
      final.tail = queue.getLast? ∧ (queue ++ pool).Nodup ∧
      (∀ msg, (msg ∈ queue ++ pool ∨ ∃ thread, inHand (final.phase thread) = some msg) ↔
        msg < MessageQueue.blockCount msgSize poolSize) ∧
      (∀ thread msg, inHand (final.phase thread) = some msg → msg ∉ queue ++ pool) ∧
      ∀ one two msg, inHand (final.phase one) = some msg → inHand (final.phase two) = some msg → one = two := by
  obtain ⟨_, box, again, showed, queue, pool, kept, agrees⟩ :=
    run_related msgSize poolSize data byPriority priority events
  cases again.symm.trans reached
  have count : final.maxMsgs = MessageQueue.blockCount msgSize poolSize := (Prod.mk.inj agrees.size).2
  obtain ⟨queued, last, unused, nodup, inside, held, single, whole⟩ := kept.blocks
  rw [count] at inside held whole
  refine ⟨queue, pool, queued, unused, last, nodup, fun msg => ⟨fun is => ?_, whole msg⟩, fun thread msg is => ?_, single⟩
  · rcases is with member | ⟨thread, is⟩
    · exact inside msg member
    · exact (held thread msg is).1
  · exact (held thread msg is).2

theorem every_block_in_one_place_sample : ∃ final,
    run MessageQueue.step sampleQueue (sampleEvents.take 5) = some final ∧
    ∃ queue pool, Chains.Chain final.next final.head queue ∧ Chains.Chain final.next final.free pool ∧
      final.tail = queue.getLast? ∧ (queue ++ pool).Nodup ∧
      (∀ msg, (msg ∈ queue ++ pool ∨ ∃ thread, inHand (final.phase thread) = some msg) ↔
        msg < MessageQueue.blockCount 3 16) ∧
      (∀ thread msg, inHand (final.phase thread) = some msg → msg ∉ queue ++ pool) ∧
      ∀ one two msg, inHand (final.phase one) = some msg → inHand (final.phase two) = some msg → one = two :=
  ⟨_, rfl, every_block_in_one_place (rfl : run MessageQueue.step sampleQueue (sampleEvents.take 5) = _)⟩

/-- No wakeup is lost: while threads wait for a free block, as many senders as there are
free blocks have been resumed and not gone on yet; and so for receivers and messages. -/
theorem no_lost_wakeup
    (reached : run MessageQueue.step (MessageQueue.rtMqInit msgSize poolSize data byPriority priority) events =
      some final) :
    ∃ pool, Chains.Chain final.next final.free pool ∧
      Wakeups.Served final.senders (Going sendsOn final) pool.length ∧
      Wakeups.Served final.receivers (Going recvsOn final) final.entry ∧
      (∀ thread, thread ∈ final.senders ↔ isSender (final.phase thread) = true) ∧
      (∀ thread, thread ∈ final.receivers ↔ isReceiver (final.phase thread) = true) ∧
      final.senders.Nodup ∧ final.receivers.Nodup := by
  obtain ⟨_, box, again, showed, queue, pool, kept, agrees⟩ :=
    run_related msgSize poolSize data byPriority priority events
  cases again.symm.trans reached
  have senders := kept.lines .sender
  have receivers := kept.lines .receiver
  refine ⟨pool, kept.blocks.unused, senders.served, ?_, senders.listed, receivers.listed, senders.once, receivers.once⟩
  rw [kept.entry]
  exact receivers.served

theorem no_lost_wakeup_sample : ∃ final, run MessageQueue.step sampleQueue (sampleEvents.take 6) = some final ∧
    ∃ pool, Chains.Chain final.next final.free pool ∧
      Wakeups.Served final.senders (Going sendsOn final) pool.length ∧
      Wakeups.Served final.receivers (Going recvsOn final) final.entry ∧
      (∀ thread, thread ∈ final.senders ↔ isSender (final.phase thread) = true) ∧
      (∀ thread, thread ∈ final.receivers ↔ isReceiver (final.phase thread) = true) ∧
      final.senders.Nodup ∧ final.receivers.Nodup :=
  ⟨_, rfl, no_lost_wakeup (rfl : run MessageQueue.step sampleQueue (sampleEvents.take 6) = _)⟩

end Runs

end SmartWatch.Proofs.MessageQueues
