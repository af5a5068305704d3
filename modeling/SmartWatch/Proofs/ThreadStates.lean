import SmartWatch.Proofs.ReadyQueue
import Mathlib.Logic.Relation

/-! What the functions of `thread.c` and `ipc.c` do to the lists of threads, one move
of a thread between lists at a time. -/

namespace SmartWatch.Proofs.ThreadStates
open Bitmap SmartWatch.Proofs.ReadyQueue

section Fields
variable {τ ι : Type} [DecidableEq τ] {s : Scheduler τ ι} {thread : τ}

/-- Whether and when a thread runs on, put back into the ready queue. -/
def woken (s : Scheduler τ ι) (thread : τ) (t : ThreadState) : ThreadState :=
  { t with stat := if s.current = some thread then .running else .ready }

theorem insert_thread (s : Scheduler τ ι) (thread other : τ) : (s.rtScheduleInsertThread thread).thread other =
    if other = thread then woken s thread (s.thread other) else s.thread other := by
  unfold Scheduler.rtScheduleInsertThread woken
  by_cases now : s.current = some thread
  · rw [if_pos now, if_pos now]
    rfl
  · rw [if_neg now, if_neg now]
    rfl

@[simp] theorem insert_same (s : Scheduler τ ι) (thread : τ) :
    (s.rtScheduleInsertThread thread).current = s.current ∧ (s.rtScheduleInsertThread thread).lockNest = s.lockNest ∧
      (s.rtScheduleInsertThread thread).waiting = s.waiting ∧ (s.rtScheduleInsertThread thread).defunct = s.defunct ∧
      (s.rtScheduleInsertThread thread).switches = s.switches := by
  unfold Scheduler.rtScheduleInsertThread
  split <;> exact ⟨rfl, rfl, rfl, rfl, rfl⟩

theorem remove_switches (s : Scheduler τ ι) (thread : τ) :
    (s.rtScheduleRemoveThread thread).switches = s.switches := by
  unfold Scheduler.rtScheduleRemoveThread
  dsimp only
  split <;> rfl

end Fields

section Moves
variable {τ ι : Type} [DecidableEq τ] [DecidableEq ι] {s : Scheduler τ ι} {thread : τ}

/-- A new thread, just before it is put into the ready queue. -/
def begun (t : ThreadState) : ThreadState :=
  { t with currentPriority := t.initPriority, numberMask := 1#32 <<< t.initPriority, stat := .suspend, yield := false }

/-- The current thread leaves the processor for good or until it is resumed. -/
def leave (s : Scheduler τ ι) (thread : τ) (stat : Stat) : Scheduler τ ι :=
  (s.rtScheduleRemoveThread thread).update thread fun t => { t with stat, yield := t.yield && stat ≠ .close }

def bury (s : Scheduler τ ι) (thread : τ) : Scheduler τ ι := { s with defunct := thread :: s.defunct }

omit [DecidableEq ι] in
theorem leave_suspend (s : Scheduler τ ι) (thread : τ) :
    leave s thread .suspend = (s.rtScheduleRemoveThread thread).update thread fun t =>
      { t with stat := .suspend } := by
  simp [leave]

omit [DecidableEq ι] in
theorem leave_close (s : Scheduler τ ι) (thread : τ) : leave s thread .close =
    (s.rtScheduleRemoveThread thread).update thread fun t => { t with stat := .close, yield := false } := by
  simp [leave]

/-- What one function does to the threads and their lists, when it may only wake the
threads in one set and change the priorities of those in another. -/
inductive Move (wakes ranks : τ → Prop) (s : Scheduler τ ι) : Scheduler τ ι → Prop where
  | keeps (thread : τ) (change : ThreadState → ThreadState) (keeps : Keeps change) : Move wakes ranks s (s.update thread change)
  | lock (nest : Int16) : Move wakes ranks s { s with lockNest := nest }
  | schedule : Move wakes ranks s s.rtSchedule
  | start (unstarted : s.current = none) (some_ready : s.group ≠ 0) : Move wakes ranks s s.rtSystemSchedulerStart
  | startup (thread : τ) (new : (s.thread thread).stat = .init) :
      Move wakes ranks s (((s.update thread begun).unlink thread).rtScheduleInsertThread thread)
  | resume (thread : τ) (woken : wakes thread) (asleep : (s.thread thread).stat = .suspend) :
      Move wakes ranks s ((s.unlink thread).rtScheduleInsertThread thread)
  | suspend (thread : τ) (current : s.current = some thread) (runs : (s.thread thread).stat = .running) :
      Move wakes ranks s (leave s thread .suspend)
  | wait (object : ι) (thread : τ) (current : s.current = some thread)
      (runs : (s.thread thread).stat = .running) :
      Move wakes ranks s ((leave s thread .suspend).enqueue object thread)
  | exit (thread : τ) (current : s.current = some thread) (runs : (s.thread thread).stat = .running) :
      Move wakes ranks s (bury (leave s thread .close) thread)
  | reap : Move wakes ranks s { s with defunct := s.defunct.tail }
  | priority (thread : τ) (priority : Nat) (small : priority < 32) (ranked : ranks thread) :
      Move wakes ranks s (s.changePriority thread priority)

omit [DecidableEq ι] in
theorem resume_sound (sound : Sound s) (asleep : (s.thread thread).stat = .suspend) :
    Sound ((s.unlink thread).rtScheduleInsertThread thread) := by
  obtain ⟨small, number⟩ := sound.linked.mask thread (by rw [asleep]; exact nofun)
  exact Sound.insert (sound.linked.unlink_waiting (by rw [asleep]; exact nofun)) ((sound.elsewhere thread).same rfl fun _ _ => rfl)
    small number

omit [DecidableEq ι] in
theorem leave_sound (sound : Sound s) (started : (s.thread thread).stat ≠ .init) {stat : Stat}
    (gone : stat = .suspend ∨ stat = .close) : Sound (leave s thread stat) := by
  have elsewhere : Elsewhere thread (s.rtScheduleRemoveThread thread) :=
    (sound.elsewhere thread).same (Scheduler.remove_current s thread) fun _ _ => by rw [Scheduler.remove_thread]
  refine (sound.linked.remove started).put elsewhere _ ?_ ?_ gone
  · rw [Scheduler.remove_thread]
    exact sound.linked.mask thread started
  · rw [Scheduler.remove_thread]
    exact sound.linked.base thread

omit [DecidableEq ι] in
/-- A thread that has left is in no list. -/
theorem leave_lists (sound : Sound s) (stat : Stat) :
    (∀ object, (leave s thread stat).waiting object = (s.waiting object).erase thread) ∧
      (∀ priority, (leave s thread stat).table priority = (s.table priority).erase thread) ∧
      (leave s thread stat).defunct = s.defunct.erase thread ∧
      (∀ object, thread ∉ (leave s thread stat).waiting object) ∧ thread ∉ (leave s thread stat).defunct := by
  have waits : ∀ object, (leave s thread stat).waiting object = (s.waiting object).erase thread :=
    fun object => Scheduler.remove_waiting s thread object
  have dead : (leave s thread stat).defunct = s.defunct.erase thread := Scheduler.remove_defunct s thread
  refine ⟨waits, fun priority => Scheduler.remove_table s thread priority, dead, fun object => ?_, ?_⟩
  · rw [waits]
    exact (sound.linked.once object).not_mem_erase
  · rw [dead]
    exact sound.linked.buried.not_mem_erase

omit [DecidableEq τ] in
private theorem enqueue_sound (sound : Sound s) (object : ι) (asleep : (s.thread thread).stat = .suspend)
    (free : ∀ object, thread ∉ s.waiting object) : Sound (s.enqueue object thread) := by
  obtain ⟨⟨listed, nodup, summary, mask, base, waits, once, apart, dead, buried⟩, running, current⟩ := sound
  have members : ∀ other item, item ∈ (s.enqueue object thread).waiting other →
      item = thread ∧ other = object ∨ item ∈ s.waiting other := by
    intro other item member
    unfold Scheduler.enqueue at member
    dsimp only at member
    split at member
    next same => exact (Deadlines.mem_insert.mp member).imp (fun is => ⟨is, same⟩) id
    next => exact .inr member
  refine ⟨⟨listed, nodup, summary, mask, base, fun other item member => ?_, fun other => ?_, fun one two item first second => ?_,
    dead, buried⟩, running, current⟩
  · rcases members other item member with ⟨rfl, _⟩ | old
    · exact ⟨not_false, asleep⟩
    · exact waits other item old
  · unfold Scheduler.enqueue
    dsimp only
    split
    · exact Deadlines.nodup_insert (free other) (once other)
    · exact once other
  · rcases members one item first with ⟨rfl, rfl⟩ | old
    · rcases members two item second with ⟨_, rfl⟩ | other
      · rfl
      · exact absurd other (free two)
    · rcases members two item second with ⟨rfl, _⟩ | other
      · exact absurd old (free one)
      · exact apart one two item old other

omit [DecidableEq τ] [DecidableEq ι] in
private theorem bury_sound (sound : Sound s) (closed : (s.thread thread).stat = .close) (new : thread ∉ s.defunct) :
    Sound (bury s thread) := by
  obtain ⟨⟨listed, nodup, summary, mask, base, waits, once, apart, dead, buried⟩, running, current⟩ := sound
  refine ⟨⟨listed, nodup, summary, mask, base, waits, once, apart, fun other member => ?_, List.nodup_cons.mpr ⟨new, buried⟩⟩,
    running, current⟩
  rcases List.mem_cons.mp member with rfl | old
  · exact ⟨not_false, closed⟩
  · exact dead other old

omit [DecidableEq τ] [DecidableEq ι] in
private theorem reap_sound (sound : Sound s) : Sound { s with defunct := s.defunct.tail } :=
  { sound with
    linked := { sound.linked with
      dead := fun other member => sound.linked.dead other (List.mem_of_mem_tail member)
      buried := sound.linked.buried.sublist (List.tail_sublist _) } }

omit [DecidableEq ι] in
private theorem startup_sound (sound : Sound s) (new : (s.thread thread).stat = .init) :
    Sound (((s.update thread begun).unlink thread).rtScheduleInsertThread thread) := by
  have out : ∀ priority, thread ∉ s.table priority := fun priority member => by
    have := ((sound.linked.listed thread priority).mp member).2.1
    rw [new] at this
    cases this
  have free : ∀ object, thread ∉ s.waiting object := fun object member => by
    have := (sound.linked.waits object thread member).2
    rw [new] at this
    cases this
  have alive : thread ∉ s.defunct := fun member => by
    have := (sound.linked.dead thread member).2
    rw [new] at this
    cases this
  have base := sound.linked.base thread
  have asleep := (sound.linked.free out free alive).put (sound.elsewhere thread) begun ⟨base, rfl⟩ base (.inl rfl)
  exact resume_sound asleep (by simp [begun])

omit [DecidableEq ι] in
theorem start_sound (sound : Sound s) (unstarted : s.current = none) (some_ready : s.group ≠ 0) :
    Sound s.rtSystemSchedulerStart ∧ ∃ head rest highest, Best s head rest highest ∧
      s.rtSystemSchedulerStart.current = some head ∧ s.rtSystemSchedulerStart.switches = s.switches ++ [head] ∧
      (∀ priority, s.rtSystemSchedulerStart.table priority = (s.table priority).erase head) ∧
      ∀ other, s.rtSystemSchedulerStart.thread other =
        if other = head then { s.thread head with stat := .running, yield := false } else s.thread other := by
  obtain ⟨head, rest, highest, best⟩ := sound.linked.best some_ready
  obtain ⟨ready, priority⟩ := best.ready sound.linked
  have started : (s.thread head).stat ≠ .init := by rw [ready]; exact nofun
  have eq : s.rtSystemSchedulerStart = ({ s with current := some head, switches := s.switches ++ [head] }.rtScheduleRemoveThread
      head).update head fun t => { t with stat := .running, yield := false } := by
    unfold Scheduler.rtSystemSchedulerStart
    rw [best.chosen]
  have before : Linked settled { s with current := some head, switches := s.switches ++ [head] } :=
    sound.linked.congr rfl rfl rfl rfl rfl
  have fields : ∀ other, s.rtSystemSchedulerStart.thread other =
      if other = head then { s.thread head with stat := .running, yield := false } else s.thread other := by
    intro other
    rw [eq, Scheduler.update_thread, Scheduler.remove_thread]
    split
    next same => rw [same]
    next => rfl
  have current : s.rtSystemSchedulerStart.current = some head := by
    rw [eq]
    simp
  refine ⟨⟨?_, fun other is => ?_, fun other is => ?_⟩, head, rest, highest, best, current, ?_, fun priority => ?_, fields⟩
  · rw [eq]
    refine ((before.remove started).update (fun t => { t with stat := .running, yield := false }) (fun _ => ?_) ?_).settle ?_
    · rw [Scheduler.remove_thread]; exact sound.linked.mask head started
    · rw [Scheduler.remove_thread]; exact sound.linked.base head
    · simp
  · rw [fields other] at is
    split at is
    next same => rw [same]; exact current
    next => exact absurd (unstarted.symm.trans (sound.running other is)) nofun
  · rw [current] at is
    rw [fields other, if_pos (Option.some.inj is).symm]
    exact ⟨nofun, nofun⟩
  · rw [eq]
    exact remove_switches _ head
  · rw [eq]
    exact Scheduler.remove_table _ head priority

omit [DecidableEq ι] in
private theorem priority_sound (sound : Sound s) {priority : Nat} (small : priority < 32) :
    Sound (s.changePriority thread priority) := by
  have elsewhere := sound.elsewhere thread
  unfold Scheduler.changePriority
  dsimp only
  split
  next ready =>
    have started : (s.thread thread).stat ≠ .init := by rw [ready]; exact nofun
    have moved := (sound.linked.remove started).update
      (fun t => { t with currentPriority := priority, numberMask := 1#32 <<< priority }) (fun _ => ⟨small, rfl⟩)
      (by rw [Scheduler.remove_thread]; exact sound.linked.base thread)
    refine Sound.insert moved (elsewhere.same ?_ fun other different => ?_) ?_ ?_
    · exact Scheduler.remove_current s thread
    · simp [different]
    · simpa using small
    · simp
  next idle =>
    obtain ⟨⟨listed, nodup, summary, mask, base, waits, once, apart, dead, buried⟩, running, current⟩ := sound
    let change (t : ThreadState) : ThreadState :=
      { t with currentPriority := priority, numberMask := 1#32 <<< priority }
    have stat : ∀ other, ((s.update thread change).thread other).stat = (s.thread other).stat := by
      intro other
      simp only [Scheduler.update_thread]
      split <;> rfl
    have init : ∀ other, ((s.update thread change).thread other).initPriority = (s.thread other).initPriority := by
      intro other
      simp only [Scheduler.update_thread]
      split <;> rfl
    refine ⟨⟨fun other number => ?_, nodup, summary, fun other => ?_, fun other => ?_, fun object other member => ?_, once, apart,
      fun other member => ?_, buried⟩, fun other => ?_, fun other => ?_⟩
    · rw [stat]
      by_cases same : other = thread
      · subst same
        exact iff_of_false (fun member => idle ((listed other number).mp member).2.1) fun is => idle is.2.1
      · simpa [same] using listed other number
    · rw [stat]
      by_cases same : other = thread
      · subst same
        exact fun _ => by simpa [change] using small
      · simpa [same] using mask other
    · rw [init]; exact base other
    · rw [stat]; exact waits object other member
    · rw [stat]; exact dead other member
    · rw [stat]; exact running other
    · rw [stat]; exact current other

variable {wakes ranks : τ → Prop} {after : Scheduler τ ι}

/-- Every move keeps the lists and the states in agreement. -/
theorem Move.sound (move : Move wakes ranks s after) (sound : Sound s) : Sound after := by
  cases move with
  | keeps thread change keeps => exact sound.keeps keeps thread
  | lock nest => exact ⟨sound.linked.congr rfl rfl rfl rfl rfl, sound.running, sound.current⟩
  | schedule => exact rtSchedule_sound sound
  | start unstarted some_ready => exact (start_sound sound unstarted some_ready).1
  | startup thread new => exact startup_sound sound new
  | resume thread woken asleep => exact resume_sound sound asleep
  | suspend thread current runs => exact leave_sound sound (by rw [runs]; exact nofun) (.inl rfl)
  | wait object thread current runs =>
    have asleep : Sound (leave s thread .suspend) := leave_sound sound (by rw [runs]; exact nofun) (.inl rfl)
    exact enqueue_sound asleep object (by simp [leave]) (leave_lists sound _).2.2.2.1
  | exit thread current runs =>
    have gone : Sound (leave s thread .close) := leave_sound sound (by rw [runs]; exact nofun) (.inr rfl)
    exact bury_sound gone (by simp [leave]) (leave_lists sound _).2.2.2.2
  | reap => exact reap_sound sound
  | priority thread priority small ranked => exact priority_sound sound small

omit [DecidableEq ι] in
private theorem leave_thread (s : Scheduler τ ι) {thread other : τ} (stat : Stat) (different : other ≠ thread) :
    (leave s thread stat).thread other = s.thread other := by
  simp [leave, different]

omit [DecidableEq ι] in
private theorem rtSchedule_asleep (sound : Sound s) {other : τ} (asleep : (s.thread other).stat = .suspend) :
    (s.rtSchedule.thread other).stat = .suspend := by
  rcases rtSchedule_cases sound with ⟨same, _⟩ | ⟨fromThread, head, rest, highest, _, current, best, ⟨stays, is⟩ | ⟨_, is⟩⟩
  · rw [same]; exact asleep
  · rw [is, ((kept_spec sound current stays.1).2.2.2 other).1]; exact asleep
  · have fields := (switched_spec sound current best).2.2.2.1 other
    have ready := (best.ready sound.linked).1
    rw [is, fields]
    split
    next same => rw [← same, asleep] at ready; cases ready
    next =>
      split
      next same => rw [← same]; unfold leaving; rw [asleep]; exact asleep
      next => exact asleep

/-- A suspended thread that may not be woken stays suspended. -/
theorem Move.asleep (move : Move wakes ranks s after) (sound : Sound s) (asleep : (s.thread thread).stat = .suspend)
    (spared : ¬wakes thread) : (after.thread thread).stat = .suspend := by
  cases move with
  | keeps other change keeps => exact ((keeps.same s other thread).1).trans asleep
  | lock nest => exact asleep
  | schedule => exact rtSchedule_asleep sound asleep
  | start unstarted some_ready =>
    obtain ⟨_, head, _, _, best, _, _, _, fields⟩ := start_sound sound unstarted some_ready
    have different : thread ≠ head := fun same => by
      have := (best.ready sound.linked).1
      rw [← same, asleep] at this
      cases this
    rw [fields, if_neg different]
    exact asleep
  | startup other new =>
    have different : thread ≠ other := fun same => by rw [← same, asleep] at new; cases new
    simpa [insert_thread, different] using asleep
  | resume other woken _ =>
    have different : thread ≠ other := fun same => spared (same ▸ woken)
    simpa [insert_thread, different] using asleep
  | suspend other current runs =>
    rw [leave_thread s _ fun same => by rw [← same, asleep] at runs; cases runs]
    exact asleep
  | wait object other current runs =>
    change ((leave s other .suspend).thread thread).stat = _
    rw [leave_thread s _ fun same => by rw [← same, asleep] at runs; cases runs]
    exact asleep
  | exit other current runs =>
    change ((leave s other .close).thread thread).stat = _
    rw [leave_thread s _ fun same => by rw [← same, asleep] at runs; cases runs]
    exact asleep
  | reap => exact asleep
  | priority other priority small ranked =>
    unfold Scheduler.changePriority
    dsimp only
    split
    next ready =>
      have different : thread ≠ other := fun same => by rw [← same, asleep] at ready; cases ready
      simpa [insert_thread, different] using asleep
    next =>
      rw [Scheduler.update_thread]
      split <;> exact asleep

/-- What an event does to the threads, move by move. -/
abbrev Moves (wakes ranks : τ → Prop) : Scheduler τ ι → Scheduler τ ι → Prop :=
  Relation.ReflTransGen (Move wakes ranks)

theorem Moves.sound (moves : Moves wakes ranks s after) (sound : Sound s) : Sound after := by
  induction moves with
  | refl => exact sound
  | tail _ move ih => exact move.sound ih

theorem Moves.asleep (moves : Moves wakes ranks s after) (sound : Sound s)
    (asleep : (s.thread thread).stat = .suspend) (spared : ¬wakes thread) :
    (after.thread thread).stat = .suspend := by
  induction moves with
  | refl => exact asleep
  | tail before move ih => exact move.asleep (Moves.sound before sound) ih spared

end Moves

end SmartWatch.Proofs.ThreadStates
