import SmartWatch.MessageQueue
import SmartWatch.Lib.Pools
import SmartWatch.Lib.Wakeups
import Mathlib.Data.List.Perm.Subperm
import Mathlib.Logic.Function.Basic

/-! Where the message blocks are: in the queue, in the free list, or in the hand of one
thread, through every step of every thread. A thread is suspended only while nobody is
missing who could serve it. -/

namespace SmartWatch.Proofs.MessageBlocks
open Chains Pools Wakeups

/-- The message block in the hand of a thread. -/
def inHand : MqPhase → Option Nat
  | .copying _ _ msg | .linking _ _ msg | .taking _ msg | .freeing msg => some msg
  | _ => none

def isSender : MqPhase → Bool
  | .sendWaits _ _ => true
  | _ => false

def isReceiver : MqPhase → Bool
  | .recvWaits _ _ => true
  | _ => false

def sendsOn : MqPhase → Bool
  | .sendResumed _ _ => true
  | _ => false

def recvsOn : MqPhase → Bool
  | .recvResumed _ _ => true
  | _ => false

/-- The threads that want a free block, or those that want a message. -/
inductive Side where
  | sender
  | receiver
deriving DecidableEq

namespace Side

def waits : Side → MqPhase → Bool
  | sender => isSender
  | receiver => isReceiver

def goes : Side → MqPhase → Bool
  | sender => sendsOn
  | receiver => recvsOn

variable {τ : Type}

def list (side : Side) (q : MessageQueue τ) : List τ :=
  match side with
  | sender => q.senders
  | receiver => q.receivers

def put (side : Side) (q : MessageQueue τ) (list : List τ) : MessageQueue τ :=
  match side with
  | sender => { q with senders := list }
  | receiver => { q with receivers := list }

def resume [DecidableEq τ] (side : Side) (q : MessageQueue τ) : MessageQueue τ :=
  match side with
  | sender => q.resumeSender
  | receiver => q.resumeReceiver

end Side

/-- What is in the block that a thread is about to put into the queue. -/
def Filled (data : Nat → List UInt8) (next : Nat → Option Nat) : MqPhase → Prop
  | .linking urgent buffer msg => buffer <+: data msg ∧ (urgent = false → next msg = none)
  | _ => True

/-- A thread has been resumed without an error and has not gone on yet. -/
def Going {τ : Type} (goes : MqPhase → Bool) (q : MessageQueue τ) (thread : τ) : Prop :=
  goes (q.phase thread) = true ∧ q.error thread = .eok

/-- The two lists of blocks and the two of threads are what the pointers say. Of the
free blocks and of the messages, so many have somebody to come for them. -/
structure Kept {τ : Type} (queue pool : List Nat) (count : Side → Nat) (q : MessageQueue τ) : Prop where
  blocks : Pool q.next q.head q.tail q.free (fun thread => inHand (q.phase thread)) (· < q.maxMsgs) queue pool
  entry : q.entry = queue.length
  small : q.maxMsgs ≤ mqEntryMax
  filled : ∀ thread, Filled q.data q.next (q.phase thread)
  calm : ∀ thread (side : Side), side.waits (q.phase thread) = true → q.error thread = .eok
  lines : ∀ side : Side, Line (side.list q) (fun thread => side.waits (q.phase thread) = true)
    (Going side.goes q) (count side)

def counts (spare unread : Nat) : Side → Nat
  | .sender => spare
  | .receiver => unread

theorem update_sender (spare unread number : Nat) :
    Function.update (counts spare unread) .sender number = counts number unread := by
  funext side
  cases side <;> rfl

theorem update_receiver (spare unread number : Nat) :
    Function.update (counts spare unread) .receiver number = counts spare number := by
  funext side
  cases side <;> rfl

/-- Nobody but the thread has moved. -/
structure Changed {τ : Type} (thread : τ) (q after : MessageQueue τ) : Prop where
  phase : ∀ other, other ≠ thread → after.phase other = q.phase other
  error : ∀ other, other ≠ thread → after.error other = q.error other

def Awake (phase : MqPhase) : Prop := ∀ side : Side, side.waits phase = false

variable {τ : Type} {q after : MessageQueue τ} {queue pool queueNow poolNow : List Nat} {thread : τ}
  {msg number fewer spare unread : Nat} {count countNow : Side → Nat} {side : Side} {waits goes : MqPhase → Bool}
  {list : List τ} {phase : MqPhase}

theorem sendWaits_of (waits : isSender phase = true) : ∃ buffer timeout, phase = .sendWaits buffer timeout := by
  cases phase with
  | sendWaits buffer timeout => exact ⟨buffer, timeout, rfl⟩
  | _ => cases waits

theorem recvWaits_of (waits : isReceiver phase = true) : ∃ size timeout, phase = .recvWaits size timeout := by
  cases phase with
  | recvWaits size timeout => exact ⟨size, timeout, rfl⟩
  | _ => cases waits

theorem awake_of (sends : isSender phase = false) (receives : isReceiver phase = false) : Awake phase := by
  intro side
  cases side with
  | sender => exact sends
  | receiver => exact receives

theorem awake_of_hand (holds : inHand phase = some msg) : Awake phase := by
  cases phase <;> first | exact awake_of rfl rfl | cases holds

/-- A suspended thread has no block, is on one list only and has not been resumed. -/
theorem Side.waits_spec (waits : side.waits phase = true) : inHand phase = none ∧
    (∀ other, other ≠ side → other.waits phase = false) ∧ ∀ other : Side, other.goes phase = false := by
  cases side with
  | sender =>
    obtain ⟨buffer, timeout, rfl⟩ := sendWaits_of waits
    refine ⟨rfl, fun other different => ?_, fun other => by cases other <;> rfl⟩
    cases other with
    | sender => exact absurd rfl different
    | receiver => rfl
  | receiver =>
    obtain ⟨size, timeout, rfl⟩ := recvWaits_of waits
    refine ⟨rfl, fun other different => ?_, fun other => by cases other <;> rfl⟩
    cases other with
    | sender => rfl
    | receiver => exact absurd rfl different

theorem Side.goes_spec (side : Side) (goes : side.goes phase = true) : inHand phase = none ∧ Awake phase := by
  cases side <;> cases phase <;> first | exact ⟨rfl, awake_of rfl rfl⟩ | cases goes

private theorem length_le_of_below {items : List Nat} (nodup : items.Nodup) (below : ∀ item ∈ items, item < number) :
    items.length ≤ number := by
  have inside : items ⊆ List.range number := fun item member => List.mem_range.mpr (below item member)
  have within := (List.subperm_of_subset nodup inside).length_le
  rwa [List.length_range] at within

theorem not_going (not : goes (q.phase thread) = false) : ¬Going goes q thread := by
  rintro ⟨is, _⟩
  rw [not] at is
  cases is

theorem Filled.frame {data dataNow : Nat → List UInt8} {next nextNow : Nat → Option Nat}
    (filled : Filled data next phase)
    (same : ∀ msg, inHand phase = some msg → dataNow msg = data msg ∧ nextNow msg = next msg) :
    Filled dataNow nextNow phase := by
  cases phase with
  | linking urgent buffer msg =>
    obtain ⟨same_data, same_next⟩ := same msg rfl
    change buffer <+: dataNow msg ∧ (urgent = false → nextNow msg = none)
    rw [same_data, same_next]
    exact filled
  | _ => trivial

theorem Filled.empty (none : inHand phase = none) (data : Nat → List UInt8) (next : Nat → Option Nat) :
    Filled data next phase := by
  cases phase with
  | linking urgent buffer msg => cases none
  | _ => trivial

namespace Changed

theorem going (changed : Changed thread q after) {other : τ} (different : other ≠ thread) :
    Going goes after other ↔ Going goes q other := by
  unfold Going
  rw [changed.phase other different, changed.error other different]

theorem hand (changed : Changed thread q after) (other : τ) (different : other ≠ thread) :
    inHand (after.phase other) = inHand (q.phase other) :=
  congrArg inHand (changed.phase other different)

theorem hands (changed : Changed thread q after) (same : inHand (after.phase thread) = inHand (q.phase thread))
    (other : τ) :
    inHand (after.phase other) = inHand (q.phase other) := by
  by_cases this : other = thread
  · rw [this, same]
  · exact changed.hand other this

theorem served (changed : Changed thread q after) (served : Served list (Going goes q) number)
    (idle : Going goes q thread → number = 0) : Served list (Going goes after) number := by
  by_cases is : Going goes q thread
  · rw [idle is]
    exact Served.nothing
  · refine served.mono (List.Sublist.refl _) (fun other on => ?_) (Nat.le_refl _)
    exact (changed.going fun same : other = thread => is (same ▸ on)).mpr on

theorem line (changed : Changed thread q after)
    (line : Line list (fun thread => waits (q.phase thread) = true) (Going goes q) number)
    (before : waits (q.phase thread) = false) (now : waits (after.phase thread) = false)
    (served : Served list (Going goes after) fewer) :
    Line list (fun thread => waits (after.phase thread) = true) (Going goes after) fewer := by
  refine line.keep (fun other => ?_) served
  by_cases this : other = thread
  · rw [this, before, now]
  · rw [changed.phase other this]

end Changed

/-- What is left to show of a step of one thread. -/
theorem Kept.advance (kept : Kept queue pool count q) (changed : Changed thread q after)
    (here : after.phase thread = phase)
    (blocks : Pool after.next after.head after.tail after.free (fun thread => inHand (after.phase thread))
      (· < after.maxMsgs) queueNow poolNow)
    (entry : after.entry = queueNow.length) (small : after.maxMsgs = q.maxMsgs)
    (frame : ∀ other msg, other ≠ thread → inHand (q.phase other) = some msg →
      after.data msg = q.data msg ∧ after.next msg = q.next msg)
    (filled : Filled after.data after.next phase)
    (calm : ∀ side : Side, side.waits phase = true → after.error thread = .eok)
    (lines : ∀ side : Side, Line (side.list after) (fun thread => side.waits (after.phase thread) = true)
      (Going side.goes after) (countNow side)) : Kept queueNow poolNow countNow after := by
  refine ⟨blocks, entry, small ▸ kept.small, fun other => ?_, fun other side waiting => ?_, lines⟩
  · by_cases this : other = thread
    · rw [this, here]
      exact filled
    · rw [changed.phase other this]
      exact (kept.filled other).frame fun msg holds => frame other msg this holds
  · by_cases this : other = thread
    · rw [this, here] at waiting
      rw [this]
      exact calm side waiting
    · rw [changed.phase other this] at waiting
      rw [changed.error other this]
      exact kept.calm other side waiting

/-- A step in which nobody is suspended or resumed. -/
theorem Kept.awake (kept : Kept queue pool count q) (changed : Changed thread q after)
    (here : after.phase thread = phase) (awake : Awake (q.phase thread)) (now : Awake phase)
    (blocks : Pool after.next after.head after.tail after.free (fun thread => inHand (after.phase thread))
      (· < after.maxMsgs) queueNow poolNow)
    (entry : after.entry = queueNow.length) (small : after.maxMsgs = q.maxMsgs)
    (frame : ∀ other msg, other ≠ thread → inHand (q.phase other) = some msg →
      after.data msg = q.data msg ∧ after.next msg = q.next msg)
    (filled : Filled after.data after.next phase) (lists : ∀ side : Side, side.list after = side.list q)
    (served : ∀ side : Side, Served (side.list q) (Going side.goes after) (countNow side)) :
    Kept queueNow poolNow countNow after := by
  refine kept.advance changed here blocks entry small frame filled (fun side waiting => ?_) fun side => ?_
  · rw [now side] at waiting
    cases waiting
  · rw [lists side]
    exact changed.line (kept.lines side) (awake side) (here ▸ now side) (served side)

/-- Who is resumed comes for what is there, unless it is the thread itself. -/
theorem Kept.served (kept : Kept queue pool count q) (changed : Changed thread q after)
    (idle : ∀ side : Side, Going side.goes q thread → count side = 0) (side : Side) :
    Served (side.list q) (Going side.goes after) (count side) :=
  changed.served (kept.lines side).served (idle side)

variable [DecidableEq τ]

@[simp] theorem setPhase_phase (q : MessageQueue τ) (thread other : τ) (phase : MqPhase) :
    (q.setPhase thread phase).phase other = if other = thread then phase else q.phase other := rfl

private theorem setError_self (q : MessageQueue τ) (thread : τ) : q.setError thread (q.error thread) = q := by
  unfold MessageQueue.setError
  congr
  funext other
  split
  next same => rw [same]
  next => rfl

theorem setPhase_same (q : MessageQueue τ) (thread : τ) (phase : MqPhase) :
    (q.setPhase thread phase).phase thread = phase :=
  if_pos rfl

private theorem moved_changed (q : MessageQueue τ) (thread : τ) (code : Err) (phase : MqPhase) :
    Changed thread q ((q.setError thread code).setPhase thread phase) :=
  ⟨fun _ different => if_neg different, fun _ different => if_neg different⟩

/-- A thread without a block goes to another place outside the lists. -/
theorem Kept.move (phase : MqPhase) (kept : Kept queue pool count q) (empty : inHand (q.phase thread) = none)
    (awake : Awake (q.phase thread)) (still : inHand phase = none) (now : Awake phase) (code : Err)
    (idle : ∀ side : Side, Going side.goes q thread → count side = 0) :
    Kept queue pool count ((q.setError thread code).setPhase thread phase) := by
  have changed := moved_changed q thread code phase
  have hands := changed.hands (by rw [setPhase_same, still, empty])
  have blocks := kept.blocks.congr hands
  exact kept.awake changed (setPhase_same _ _ _) awake now blocks kept.entry rfl (fun _ _ _ _ => ⟨rfl, rfl⟩)
    (Filled.empty still _ _) (fun side => by cases side <;> rfl) (kept.served changed idle)

theorem Kept.go (phase : MqPhase) (kept : Kept queue pool count q) (empty : inHand (q.phase thread) = none)
    (awake : Awake (q.phase thread)) (still : inHand phase = none) (now : Awake phase)
    (idle : ∀ side : Side, Going side.goes q thread → count side = 0) :
    Kept queue pool count (q.setPhase thread phase) := by
  have moved := kept.move phase empty awake still now (q.error thread) idle
  rwa [setError_self] at moved

/-- A thread without a block changes the list of one side. -/
private theorem Kept.shift (side : Side) (kept : Kept queue pool count q) (code : Err)
    (empty : inHand (q.phase thread) = none) (still : inHand phase = none)
    (calm : ∀ side : Side, side.waits phase = true → code = .eok) (apart : ∀ other, other ≠ side →
      other.waits (q.phase thread) = false ∧ other.waits phase = false ∧ ¬Going other.goes q thread)
    (line : Line list (fun other => side.waits (((q.setError thread code).setPhase thread phase).phase other) = true)
      (Going side.goes ((q.setError thread code).setPhase thread phase)) number) :
    Kept queue pool (Function.update count side number)
      (side.put ((q.setError thread code).setPhase thread phase) list) := by
  have changed := moved_changed q thread code phase
  have hands := changed.hands (by rw [setPhase_same, still, empty])
  have lines (each : Side) : Line (each.list (side.put ((q.setError thread code).setPhase thread phase) list))
      (fun other => each.waits (((q.setError thread code).setPhase thread phase).phase other) = true)
      (Going each.goes ((q.setError thread code).setPhase thread phase)) (Function.update count side number each) := by
    by_cases same : each = side
    · subst same
      rw [Function.update_self]
      cases each <;> exact line
    · obtain ⟨before, now, idle⟩ := apart each same
      have list : each.list (side.put ((q.setError thread code).setPhase thread phase) list) = each.list q := by
        cases each <;> cases side <;> first | rfl | exact absurd rfl same
      rw [Function.update_of_ne same, list]
      exact changed.line (kept.lines each) before (by rw [setPhase_same]; exact now)
        (changed.served (kept.lines each).served fun is => absurd is idle)
  have blocks := kept.blocks.congr hands
  have told : ∀ side : Side, side.waits phase = true →
      ((q.setError thread code).setPhase thread phase).error thread = .eok :=
    fun side is => (if_pos rfl).trans (calm side is)
  cases side <;> exact kept.advance ⟨changed.phase, changed.error⟩ (setPhase_same _ _ _) blocks kept.entry rfl
    (fun _ _ _ _ => ⟨rfl, rfl⟩) (Filled.empty still _ _) told lines

theorem Kept.suspend (side : Side) (phase : MqPhase) (kept : Kept queue pool count q) (nothing : count side = 0)
    (empty : inHand (q.phase thread) = none) (awake : Awake (q.phase thread))
    (others : ∀ other : Side, other ≠ side → ¬Going other.goes q thread) (waits : side.waits phase = true) :
    Kept queue pool count
      (side.put ((q.setError thread .eok).setPhase thread phase) (q.enqueue thread (side.list q))) := by
  have changed := moved_changed q thread .eok phase
  obtain ⟨still, apart, _⟩ := Side.waits_spec waits
  have line := kept.lines side
  rw [nothing] at line
  have entered : Line (q.enqueue thread (side.list q))
      (fun other => side.waits (((q.setError thread .eok).setPhase thread phase).phase other) = true)
      (Going side.goes ((q.setError thread .eok).setPhase thread phase)) 0 := by
    refine line.enter ?_ (Deadlines.insert_perm _ _ _) ?_ fun other different => ?_
    · rw [awake side]
      exact Bool.false_ne_true
    · rw [setPhase_same]
      exact waits
    · rw [changed.phase other different]
  have suspended := kept.shift side .eok empty still (fun _ _ => rfl)
    (fun other different => ⟨awake other, apart other different, others other different⟩) entered
  rwa [← nothing, Function.update_eq_self] at suspended

/-- What resuming does: nothing, or the first thread that waits goes on. -/
theorem Side.resume_cases (side : Side) (q : MessageQueue τ) :
    side.resume q = q ∧ (∀ first rest, side.list q = first :: rest → side.waits (q.phase first) = false) ∨
      ∃ first rest phase, side.list q = first :: rest ∧ side.waits (q.phase first) = true ∧ side.goes phase = true ∧
        side.resume q = side.put (q.setPhase first phase) rest := by
  cases side with
  | sender =>
    cases listed : q.senders with
    | nil =>
      refine .inl ⟨?_, fun first rest is => by cases listed.symm.trans is⟩
      simp only [resume, MessageQueue.resumeSender, listed]
    | cons first rest =>
      cases place : q.phase first with
      | sendWaits buffer timeout =>
        refine .inr ⟨first, rest, .sendResumed buffer timeout, listed, congrArg isSender place, rfl, ?_⟩
        simp only [resume, MessageQueue.resumeSender, listed, place]
        rfl
      | _ =>
        refine .inl ⟨?_, fun other others is => ?_⟩
        · simp only [resume, MessageQueue.resumeSender, listed, place]
        · cases listed.symm.trans is
          exact congrArg isSender place
  | receiver =>
    cases listed : q.receivers with
    | nil =>
      refine .inl ⟨?_, fun first rest is => by cases listed.symm.trans is⟩
      simp only [resume, MessageQueue.resumeReceiver, listed]
    | cons first rest =>
      cases place : q.phase first with
      | recvWaits size timeout =>
        refine .inr ⟨first, rest, .recvResumed size timeout, listed, congrArg isReceiver place, rfl, ?_⟩
        simp only [resume, MessageQueue.resumeReceiver, listed, place]
        rfl
      | _ =>
        refine .inl ⟨?_, fun other others is => ?_⟩
        · simp only [resume, MessageQueue.resumeReceiver, listed, place]
        · cases listed.symm.trans is
          exact congrArg isReceiver place

/-- One more comes: the first thread that waits for it goes on. -/
theorem Kept.resume (side : Side) (kept : Kept queue pool count q) :
    Kept queue pool (Function.update count side (count side + 1)) (side.resume q) := by
  have line := kept.lines side
  rcases side.resume_cases q with ⟨same, none⟩ | ⟨first, rest, phase, listed, waits, goes, taken⟩
  · have nobody : side.list q = [] := by
      cases listed : side.list q with
      | nil => rfl
      | cons first rest =>
        rw [listed] at line
        have waits := (line.listed first).mp List.mem_cons_self
        rw [none first rest listed] at waits
        cases waits
    rw [same]
    refine ⟨kept.blocks, kept.entry, kept.small, kept.filled, kept.calm, fun each => ?_⟩
    by_cases this : each = side
    · subst this
      rw [Function.update_self]
      rw [nobody] at line ⊢
      exact line.keep (fun _ => Iff.rfl) Served.nobody
    · rw [Function.update_of_ne this]
      exact kept.lines each
  · obtain ⟨empty, apart, idle⟩ := Side.waits_spec waits
    obtain ⟨still, awake⟩ := Side.goes_spec side goes
    have calm := kept.calm first side waits
    rw [listed] at line
    have changed := moved_changed q first .eok phase
    have resumed : Line rest
        (fun other => side.waits (((q.setError first .eok).setPhase first phase).phase other) = true)
        (Going side.goes ((q.setError first .eok).setPhase first phase)) (count side + 1) := by
      have not_both : ∀ other, side.waits (q.phase other) = true → ¬Going side.goes q other := fun other is =>
        not_going ((Side.waits_spec is).2.2 side)
      refine line.resume not_both ?_ ⟨?_, if_pos rfl⟩ (fun other different => ?_) fun other on => ?_
      · rw [setPhase_same, awake side]
        exact Bool.false_ne_true
      · rw [setPhase_same]
        exact goes
      · rw [changed.phase other different]
      · have different : other ≠ first := fun same => not_both first waits (same ▸ on)
        exact (changed.going different).mpr on
    have shifted := kept.shift side .eok empty still (fun _ _ => rfl)
      (fun other different => ⟨apart other different, awake other, not_going (idle other)⟩) resumed
    rw [taken]
    rwa [← calm, setError_self] at shifted

theorem Kept.timeUp (side : Side) (phase : MqPhase) (kept : Kept queue pool count q)
    (waits : side.waits (q.phase thread) = true) (goes : side.goes phase = true) : Kept queue pool count
      (side.put ((q.setError thread .etimeout).setPhase thread phase) ((side.list q).erase thread)) := by
  obtain ⟨empty, apart, idle⟩ := Side.waits_spec waits
  obtain ⟨still, awake⟩ := Side.goes_spec side goes
  have changed := moved_changed q thread .etimeout phase
  have left : Line ((side.list q).erase thread)
      (fun other => side.waits (((q.setError thread .etimeout).setPhase thread phase).phase other) = true)
      (Going side.goes ((q.setError thread .etimeout).setPhase thread phase)) (count side) := by
    refine (kept.lines side).leave ?_ (fun other different => ?_) fun other on => ?_
    · rw [setPhase_same, awake side]
      exact Bool.false_ne_true
    · rw [changed.phase other different]
    · have different : other ≠ thread := fun same => not_going (idle side) (same ▸ on)
      exact (changed.going different).mpr on
  have calm : ∀ each : Side, each.waits phase = true → Err.etimeout = .eok := by
    intro each waiting
    rw [awake each] at waiting
    cases waiting
  have shifted := kept.shift side .etimeout empty still calm
    (fun other different => ⟨apart other different, awake other, not_going (idle other)⟩) left
  rwa [Function.update_eq_self] at shifted

theorem Kept.claim (kept : Kept queue pool (counts pool.length unread) q) (empty : inHand (q.phase thread) = none)
    (awake : Awake (q.phase thread)) (free : q.free = some msg) (no_recv : ¬Going recvsOn q thread) (urgent : Bool)
    (buffer : List UInt8) : ∃ rest, pool = msg :: rest ∧ Kept queue rest (counts rest.length unread)
      ({ q with free := q.next msg }.setPhase thread (.copying urgent buffer msg)) := by
  have changed : Changed thread q ({ q with free := q.next msg }.setPhase thread (.copying urgent buffer msg)) :=
    ⟨fun other different => if_neg different, fun _ _ => rfl⟩
  have blocks := kept.blocks
  rw [free] at blocks
  obtain ⟨rest, rfl, claimed⟩ := blocks.claim changed.hand empty (congrArg inHand (setPhase_same _ _ _))
  refine ⟨rest, rfl, kept.awake changed (setPhase_same _ _ _) awake (awake_of rfl rfl) claimed kept.entry rfl
    (fun _ _ _ _ => ⟨rfl, rfl⟩) trivial (fun side => by cases side <;> rfl) fun side => ?_⟩
  cases side with
  | sender => exact (kept.lines .sender).served.take fun other different on => (changed.going different).mpr on
  | receiver => exact changed.served (kept.lines .receiver).served fun is => absurd is no_recv

theorem Kept.fill (kept : Kept queue pool count q) {urgent : Bool} {buffer : List UInt8}
    (copies : q.phase thread = .copying urgent buffer msg) :
    Kept queue pool count (q.copyIn thread urgent buffer msg) := by
  have changed : Changed thread q (q.copyIn thread urgent buffer msg) :=
    ⟨fun other different => if_neg different, fun _ _ => rfl⟩
  have here : (q.copyIn thread urgent buffer msg).phase thread = .linking urgent buffer msg := setPhase_same _ _ _
  have holds : inHand (q.phase thread) = some msg := congrArg inHand copies
  have frame : ∀ other item, other ≠ thread → inHand (q.phase other) = some item →
      (q.copyIn thread urgent buffer msg).data item = q.data item ∧
        (q.copyIn thread urgent buffer msg).next item = q.next item := by
    intro other item different is
    have apart : item ≠ msg := fun same => different (kept.blocks.single other thread msg (same ▸ is) holds)
    refine ⟨if_neg apart, ?_⟩
    cases urgent
    · exact link_other apart none
    · rfl
  have filled : Filled (q.copyIn thread urgent buffer msg).data (q.copyIn thread urgent buffer msg).next
      (.linking urgent buffer msg) := by
    refine ⟨?_, fun last => ?_⟩
    · change buffer <+: if msg = msg then _ else _
      rw [if_pos rfl]
      exact List.prefix_append _ _
    · subst last
      exact link_same _ _ _
  have blocks : Pool (if urgent then q.next else link q.next msg none) q.head q.tail q.free
      (fun other => inHand (q.phase other)) (· < q.maxMsgs) queue pool := by
    cases urgent
    · exact kept.blocks.write holds none
    · exact kept.blocks
  have idle : ∀ side : Side, Going side.goes q thread → count side = 0 := fun side is =>
    absurd is (not_going (by rw [copies]; cases side <;> rfl))
  have hands := changed.hands (by rw [here, copies]; rfl)
  exact kept.awake changed here (awake_of_hand holds) (awake_of rfl rfl) (blocks.congr hands) kept.entry rfl
    frame filled (fun side => by cases side <;> rfl) (kept.served changed idle)

/-- A thread links the block in its hand into the queue. -/
theorem Kept.link (kept : Kept queue pool count q) {urgent : Bool} {buffer : List UInt8}
    (links : q.phase thread = .linking urgent buffer msg) :
    Kept (if urgent then msg :: queue else queue ++ [msg]) pool count
      (MessageQueue.setPhase { (if urgent then q.linkFirst msg else q.linkLast msg) with entry := q.entry + 1 }
        thread (.out .eok)) := by
  have holds : inHand (q.phase thread) = some msg := congrArg inHand links
  have idle : ∀ side : Side, Going side.goes q thread → count side = 0 := fun side is =>
    absurd is (not_going (by rw [links]; cases side <;> rfl))
  have apart {other : τ} {item : Nat} (different : other ≠ thread) (is : inHand (q.phase other) = some item) :
      item ≠ msg ∧ item ∉ queue ++ pool := by
    have single := kept.blocks.single other thread msg
    exact ⟨fun same => different (single (same ▸ is) holds), (kept.blocks.held other item is).2⟩
  cases urgent with
  | true =>
    have changed : Changed thread q
        (MessageQueue.setPhase { q.linkFirst msg with entry := q.entry + 1 } thread (.out .eok)) :=
      ⟨fun other different => if_neg different, fun _ _ => rfl⟩
    have blocks := kept.blocks.push changed.hand holds (congrArg inHand (setPhase_same _ _ _))
    have entry : q.entry + 1 = (msg :: queue).length := congrArg Nat.succ kept.entry
    have frame : ∀ other item, other ≠ thread → inHand (q.phase other) = some item →
        Chains.link q.next msg q.head item = q.next item :=
      fun _ _ different is => link_other (apart different is).1 _
    exact kept.awake changed (setPhase_same _ _ _) (awake_of_hand holds) (awake_of rfl rfl) blocks entry rfl
      (fun other item different is => ⟨rfl, frame other item different is⟩) trivial
      (fun side => by cases side <;> rfl) (kept.served changed idle)
  | false =>
    have changed : Changed thread q
        (MessageQueue.setPhase { q.linkLast msg with entry := q.entry + 1 } thread (.out .eok)) :=
      ⟨fun other different => if_neg different, fun _ _ => rfl⟩
    have filled := kept.filled thread
    rw [links] at filled
    have frame : ∀ other item, other ≠ thread → inHand (q.phase other) = some item →
        linkBehind q.next q.tail msg item = q.next item := by
      intro other item different is
      rw [kept.blocks.last]
      cases ends : queue.getLast? with
      | none => rfl
      | some last =>
        refine link_other (fun same => (apart different is).2 ?_) _
        exact List.mem_append_left _ (same ▸ List.mem_of_getLast? ends)
    have blocks := kept.blocks.append changed.hand holds (congrArg inHand (setPhase_same _ _ _)) (filled.2 rfl)
    have entry : q.entry + 1 = (queue ++ [msg]).length := by
      rw [List.length_append]
      exact congrArg Nat.succ kept.entry
    change Kept (queue ++ [msg]) pool count
      (MessageQueue.setPhase { q.linkLast msg with entry := q.entry + 1 } thread (.out .eok))
    exact kept.awake changed (setPhase_same _ _ _) (awake_of_hand holds) (awake_of rfl rfl) blocks entry rfl
      (fun other item different is => ⟨rfl, frame other item different is⟩) trivial
      (fun side => by cases side <;> rfl) (kept.served changed idle)

omit [DecidableEq τ] in
theorem Kept.fits (kept : Kept queue pool count q) : queue.length ≤ q.maxMsgs :=
  length_le_of_below (List.nodup_append.mp kept.blocks.nodup).1 fun item member =>
    kept.blocks.inside item (List.mem_append_left _ member)

omit [DecidableEq τ] in
/-- While a block is in somebody's hand the queue is not full. -/
theorem Kept.room (kept : Kept queue pool count q) (holds : inHand (q.phase thread) = some msg) :
    q.entry < mqEntryMax := by
  obtain ⟨less, out⟩ := kept.blocks.held thread msg holds
  have apart : msg ∉ queue := fun member => out (List.mem_append_left _ member)
  have nodup : (msg :: queue).Nodup := List.nodup_cons.mpr ⟨apart, (List.nodup_append.mp kept.blocks.nodup).1⟩
  have within : queue.length + 1 ≤ q.maxMsgs := length_le_of_below nodup fun item member => by
    rcases List.mem_cons.mp member with rfl | member
    · exact less
    · exact kept.blocks.inside item (List.mem_append_left _ member)
  rw [kept.entry]
  exact Nat.lt_of_lt_of_le within kept.small

theorem Kept.take (kept : Kept queue pool (counts spare queue.length) q) (empty : inHand (q.phase thread) = none)
    (awake : Awake (q.phase thread)) (some_entry : q.entry ≠ 0) (no_send : ¬Going sendsOn q thread) (size : Nat) :
    ∃ msg rest, q.head = some msg ∧ queue = msg :: rest ∧
      Kept rest pool (counts spare rest.length) (MessageQueue.setPhase
      { q with
        head := q.next msg
        tail := if q.tail = some msg then none else q.tail
        entry := if q.entry > 0 then q.entry - 1 else q.entry } thread (.taking size msg)) := by
  have blocks := kept.blocks
  have entry := kept.entry
  have lines := kept.lines
  cases queue with
  | nil => exact absurd entry some_entry
  | cons msg rest =>
    have first := blocks.queued.1
    rw [first] at blocks
    have changed : Changed thread q (MessageQueue.setPhase
        { q with
          head := q.next msg
          tail := if q.tail = some msg then none else q.tail
          entry := if q.entry > 0 then q.entry - 1 else q.entry } thread (.taking size msg)) :=
      ⟨fun other different => if_neg different, fun _ _ => rfl⟩
    obtain ⟨others, same, taken⟩ := blocks.take changed.hand empty (congrArg inHand (setPhase_same _ _ _))
    obtain ⟨_, rfl⟩ := List.cons.inj same
    have less : (if q.entry > 0 then q.entry - 1 else q.entry) = rest.length := by
      rw [if_pos (Nat.pos_of_ne_zero some_entry), entry, List.length_cons, Nat.add_sub_cancel]
    refine ⟨msg, rest, first, rfl, kept.awake changed (setPhase_same _ _ _) awake (awake_of rfl rfl) taken less rfl
      (fun _ _ _ _ => ⟨rfl, rfl⟩) trivial (fun side => by cases side <;> rfl) fun side => ?_⟩
    cases side with
    | sender => exact changed.served (lines .sender).served fun is => absurd is no_send
    | receiver => exact (lines .receiver).served.take fun other different on => (changed.going different).mpr on

theorem Kept.copy (kept : Kept queue pool count q) {size : Nat} (takes : q.phase thread = .taking size msg) :
    Kept queue pool count (q.copyOut thread size msg) := by
  have changed : Changed thread q (q.copyOut thread size msg) :=
    ⟨fun other different => if_neg different, fun _ _ => rfl⟩
  have here : (q.copyOut thread size msg).phase thread = .freeing msg := setPhase_same _ _ _
  have idle : ∀ side : Side, Going side.goes q thread → count side = 0 := fun side is =>
    absurd is (not_going (by rw [takes]; cases side <;> rfl))
  have hands := changed.hands (by rw [here, takes]; rfl)
  have holds : inHand (q.phase thread) = some msg := congrArg inHand takes
  have blocks := kept.blocks.congr hands
  exact kept.awake changed here (awake_of_hand holds) (awake_of rfl rfl) blocks kept.entry rfl
    (fun _ _ _ _ => ⟨rfl, rfl⟩) trivial (fun side => by cases side <;> rfl) (kept.served changed idle)

theorem Kept.release (kept : Kept queue pool count q) (frees : q.phase thread = .freeing msg) :
    Kept queue (msg :: pool) count ((q.putFree msg).setPhase thread (.out .eok)) := by
  have changed : Changed thread q ((q.putFree msg).setPhase thread (.out .eok)) :=
    ⟨fun other different => if_neg different, fun _ _ => rfl⟩
  have holds : inHand (q.phase thread) = some msg := congrArg inHand frees
  have frame : ∀ other item, other ≠ thread → inHand (q.phase other) = some item →
      Chains.link q.next msg q.free item = q.next item := by
    intro other item different is
    exact link_other (fun same : item = msg => different (kept.blocks.single other thread msg (same ▸ is) holds)) _
  have idle : ∀ side : Side, Going side.goes q thread → count side = 0 := fun side is =>
    absurd is (not_going (by rw [frees]; cases side <;> rfl))
  have blocks := kept.blocks.release changed.hand holds (congrArg inHand (setPhase_same _ _ _))
  exact kept.awake changed (setPhase_same _ _ _) (awake_of_hand holds) (awake_of rfl rfl) blocks kept.entry rfl
    (fun other item different is => ⟨rfl, frame other item different is⟩) trivial
    (fun side => by cases side <;> rfl) (kept.served changed idle)

omit [DecidableEq τ] in
/-- The messages of the queue go to the free list one by one. -/
theorem drain_spec {hand : τ → Option Nat} {all : Nat → Prop} (turns : Nat) (enough : queue.length < turns)
    (blocks : Pool q.next q.head q.tail q.free hand all queue pool) :
    ∃ next free, MessageQueue.drain turns q = some { q with head := none, tail := none, next, free } ∧
      Pool next none none free hand all [] (queue.reverse ++ pool) ∧
      ∀ item, item ∉ queue → next item = q.next item := by
  induction turns generalizing q queue pool with
  | zero => exact absurd enough (Nat.not_lt_zero _)
  | succ turns ih =>
    unfold MessageQueue.drain
    cases first : q.head with
    | none =>
      have nothing : queue = [] := (first ▸ blocks.queued).empty
      subst nothing
      have last : q.tail = none := blocks.last
      rw [first, last] at blocks
      refine ⟨q.next, q.free, ?_, blocks, fun _ _ => rfl⟩
      cases q
      cases first
      cases last
      rfl
    | some msg =>
      rw [first] at blocks
      obtain ⟨rest, rfl, recycled⟩ := blocks.recycle
      have fewer : rest.length < turns := Nat.lt_of_succ_lt_succ enough
      obtain ⟨next, free, drained, empty, same⟩ := ih (q := MessageQueue.putFree
        { q with head := q.next msg, tail := if q.tail = some msg then none else q.tail } msg) fewer recycled
      refine ⟨next, free, drained, ?_, fun item out => ?_⟩
      · rwa [List.reverse_cons, List.append_assoc]
      · obtain ⟨different, out⟩ := not_or.mp (fun member => out (List.mem_cons.mpr member))
        exact (same item out).trans (link_other different _)

private theorem resumeAll_phase (kept : Kept queue pool count q) (thread : τ) :
    Awake (q.resumeAll.phase thread) ∧ inHand (q.resumeAll.phase thread) = inHand (q.phase thread) ∧
      (Awake (q.phase thread) → q.resumeAll.phase thread = q.phase thread) := by
  change Awake (if _ then _ else _) ∧ inHand (if _ then _ else _) = _ ∧ (_ → (if _ then _ else _) = _)
  by_cases listed : thread ∈ q.receivers ++ q.senders
  · rw [if_pos listed]
    rcases List.mem_append.mp listed with receives | sends
    · obtain ⟨size, timeout, place⟩ := recvWaits_of (((kept.lines .receiver).listed thread).mp receives)
      rw [place]
      exact ⟨awake_of rfl rfl, rfl, fun awake => by cases awake .receiver⟩
    · obtain ⟨buffer, timeout, place⟩ := sendWaits_of (((kept.lines .sender).listed thread).mp sends)
      rw [place]
      exact ⟨awake_of rfl rfl, rfl, fun awake => by cases awake .sender⟩
  · have nowhere (side : Side) : side.waits (q.phase thread) = false := by
      refine Bool.eq_false_iff.mpr fun waits => listed (List.mem_append.mpr ?_)
      have member := ((kept.lines side).listed thread).mpr waits
      cases side with
      | sender => exact .inr member
      | receiver => exact .inl member
    rw [if_neg listed]
    exact ⟨nowhere, rfl, fun _ => rfl⟩

/-- Everybody is resumed, and all messages are dropped. -/
theorem Kept.reset (kept : Kept queue pool count q) : ∃ after, q.reset = some after ∧
    Kept [] (queue.reverse ++ pool) (counts (queue.reverse ++ pool).length 0) after ∧ after.data = q.data ∧
    (after.msgSize, after.maxMsgs) = (q.msgSize, q.maxMsgs) ∧
    ∀ thread size msg, after.phase thread = .taking size msg → q.phase thread = .taking size msg := by
  have few : queue.length < q.maxMsgs + 1 := Nat.lt_succ_of_le kept.fits
  obtain ⟨next, free, drained, blocks, same⟩ := drain_spec (q := q.resumeAll) (q.maxMsgs + 1) few kept.blocks
  have quiet := resumeAll_phase kept
  refine ⟨{ q.resumeAll with head := none, tail := none, next, free, entry := 0 }, ?_, ?_, rfl, rfl,
    fun thread size msg is => ?_⟩
  · unfold MessageQueue.reset
    rw [drained]
    rfl
  · have nobody (side : Side) : ∀ thread, ¬side.waits (q.resumeAll.phase thread) = true := fun thread => by
      rw [(quiet thread).1 side]
      exact Bool.false_ne_true
    refine ⟨blocks.congr fun thread => (quiet thread).2.1, rfl, kept.small, fun thread => ?_,
      fun thread side waiting => absurd waiting (nobody side thread), fun side => ?_⟩
    · change Filled q.data next (q.resumeAll.phase thread)
      by_cases awake : Awake (q.phase thread)
      · rw [(quiet thread).2.2 awake]
        refine (kept.filled thread).frame fun msg holds => ⟨rfl, same msg fun member => ?_⟩
        exact (kept.blocks.held thread msg holds).2 (List.mem_append_left _ member)
      · refine Filled.empty ((quiet thread).2.1.trans ?_) _ _
        cases holds : inHand (q.phase thread) with
        | none => rfl
        | some msg => exact absurd (awake_of_hand holds) awake
    · cases side <;> exact Line.nobody (nobody _)
  · have holds : inHand (q.phase thread) = some msg := (quiet thread).2.1.symm.trans (congrArg inHand is)
    exact ((quiet thread).2.2 (awake_of_hand holds)).symm.trans is

private theorem freeBlocks_chain (number : Nat) :
    Chain (MessageQueue.freeBlocks number).1 (MessageQueue.freeBlocks number).2 (List.range number).reverse := by
  induction number with
  | zero => rfl
  | succ number ih =>
    rw [List.range_succ, List.reverse_append]
    exact ih.push (by simp)

omit [DecidableEq τ] in
theorem init_kept (msgSize poolSize : Nat) (data : Nat → List UInt8) (byPriority : Bool) (priority : τ → Nat) :
    ∃ pool, Kept [] pool (counts pool.length 0)
      (MessageQueue.rtMqInit msgSize poolSize data byPriority priority) := by
  have small : MessageQueue.blockCount msgSize poolSize ≤ mqEntryMax :=
    Nat.le_of_lt_succ (Nat.mod_lt _ (by decide))
  have chain := freeBlocks_chain (MessageQueue.blockCount msgSize poolSize)
  refine ⟨(List.range (MessageQueue.blockCount msgSize poolSize)).reverse,
    ⟨rfl, rfl, chain, ?_, fun msg member => ?_, nofun, nofun, fun msg less => .inl ?_⟩,
    rfl, small, fun _ => trivial, fun _ _ _ => rfl, fun side => ?_⟩
  · exact List.nodup_reverse.mpr List.nodup_range
  · exact List.mem_range.mp (List.mem_reverse.mp member)
  · exact List.mem_reverse.mpr (List.mem_range.mpr less)
  · cases side <;> exact Line.nobody fun _ => Bool.false_ne_true

end SmartWatch.Proofs.MessageBlocks
