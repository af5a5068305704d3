import SmartWatch.Threads
import SmartWatch.Lib.Runs

/-! Whether the display thread survives. Its error number is what can end it: a
receive interrupt sets it when it comes while the display thread is running, and
`rt_sem_take` returns it when it has had to wait. -/

namespace SmartWatch.Proofs.DisplayThread
open Runs

/-- Between suspending itself and reading its error number. -/
def InTake (w : Watch) : Prop := w.showing = .waiting ∨ w.showing = .woken

/-- A receive interrupt that calls back while the display thread is running in
that stretch. -/
def Disturbs (w : Watch) (event : Event) : Prop :=
  ∃ bytes, event = .uart bytes ∧ 0 < w.received + bytes ∧ w.kernel.current = .showValues ∧ InTake w

instance (w : Watch) : Decidable (InTake w) := inferInstanceAs (Decidable (_ ∨ _))

instance (w : Watch) : ∀ event, Decidable (Disturbs w event)
  | .uart bytes => decidable_of_iff (0 < w.received + bytes ∧ w.kernel.current = .showValues ∧ InTake w)
      ⟨fun all => ⟨bytes, rfl, all⟩, fun ⟨_, same, all⟩ => (by cases same; exact all)⟩
  | .step | .sleep | .wake _ => isFalse fun ⟨_, same, _⟩ => (by cases same)

/-- The display thread is suspended exactly where its code says so. -/
structure Sound (w : Watch) : Prop where
  idle : w.kernel.ready .idle = true
  queue : w.sem.suspended = [] ∨ w.sem.suspended = [.showValues] ∧ InTake w
  mutexQueue : Thread.showValues ∉ w.mutex.suspended
  asleep : w.asleep .showValues = true → w.showing = .pausing ∨ w.showing = .rested
  blocked : w.kernel.ready .showValues = true → w.asleep .showValues = false ∧ w.sem.suspended = []
  running : w.kernel.current = .showValues → w.showing = .rested ∨ w.showing = .woken → w.kernel.ready .showValues = true

structure Alive (w : Watch) : Prop where
  sound : Sound w
  quiet : InTake w → w.kernel.error .showValues = .eok
  going : w.showing ≠ .failed ∧ w.showing ≠ .gone
  takes : ∀ code ∈ w.takes, code = .eok
  deleted : w.deleted = false
  releases : w.strayRelease = false

section Schedule
variable {τ : Type}

private theorem best_ready (kernel : Kernel τ) (ready : List τ) (best : τ)
    (all : ∀ thread ∈ ready, kernel.ready thread = true) (some : kernel.ready best = true ∨ ready ≠ []) :
    let better best thread :=
      if kernel.ready best = false ∨ kernel.priority thread < kernel.priority best then thread else best
    kernel.ready (ready.foldl better best) = true := by
  induction ready generalizing best with
  | nil => exact some.resolve_right (fun different => different rfl)
  | cons thread ready ih =>
    refine ih _ (fun other member => all other (List.mem_cons_of_mem _ member)) (.inl ?_)
    dsimp only
    split
    next => exact all thread List.mem_cons_self
    next kept => simpa using (not_or.mp kept).1

theorem rtSchedule_ready {kernel : Kernel τ} {threads : List τ} {thread : τ} (member : thread ∈ threads)
    (ready : kernel.ready thread = true) : kernel.ready (rtSchedule threads kernel).current = true := by
  refine best_ready kernel _ _ (fun other inside => (List.mem_filter.mp inside).2) (.inr fun empty => ?_)
  have inside : thread ∈ threads.filter kernel.ready := List.mem_filter.mpr ⟨member, ready⟩
  rw [empty] at inside
  exact absurd inside List.not_mem_nil

end Schedule

theorem scheduled {kernel : Kernel Thread} (idle : kernel.ready .idle = true) {thread : Thread}
    (runs : (rtSchedule threads kernel).current = thread) : kernel.ready thread = true := by
  rw [← runs]
  exact rtSchedule_ready (by decide) idle

theorem Sound.of_awake {w : Watch} (idle : w.kernel.ready .idle = true)
    (queue : w.sem.suspended = [] ∨ w.sem.suspended = [.showValues] ∧ InTake w)
    (mutexQueue : Thread.showValues ∉ w.mutex.suspended) (wakes : w.asleep .showValues = false)
    (blocked : w.kernel.ready .showValues = true → w.sem.suspended = [])
    (running : w.kernel.current = .showValues → w.showing = .rested ∨ w.showing = .woken →
      w.kernel.ready .showValues = true) :
    Sound w :=
  ⟨idle, queue, mutexQueue, fun sleeps => Bool.noConfusion (wakes.symm.trans sleeps),
    fun ready => ⟨wakes, blocked ready⟩, running⟩

/-- What another thread or an interrupt may do to the display thread: nothing but
move the processor, give it the semaphore, or change its error number. -/
structure Apart (before after : Watch) : Prop where
  showing : after.showing = before.showing
  asleep : after.asleep .showValues = before.asleep .showValues
  idle : after.kernel.ready .idle = true
  ready : after.kernel.ready .showValues = before.kernel.ready .showValues ∧ after.sem.suspended = before.sem.suspended ∨
    before.sem.suspended = [.showValues] ∧ after.sem.suspended = [] ∧ before.kernel.ready .showValues = false
  mutexQueue : Thread.showValues ∉ after.mutex.suspended
  current : after.kernel.current = before.kernel.current ∨ after.kernel.ready after.kernel.current = true

theorem Sound.apart {before after : Watch} (sound : Sound before) (apart : Apart before after) : Sound after := by
  obtain ⟨idle, queue, _, asleep, blocked, running⟩ := sound
  have inTake : InTake after ↔ InTake before := by unfold InTake; rw [apart.showing]
  refine ⟨apart.idle, ?_, apart.mutexQueue, by rw [apart.asleep, apart.showing]; exact asleep, ?_, ?_⟩
  · rw [inTake]
    rcases apart.ready with ⟨_, same⟩ | ⟨_, empty, _⟩
    · rw [same]; exact queue
    · exact .inl empty
  · rw [apart.asleep]
    rcases apart.ready with ⟨ready, same⟩ | ⟨waiting, empty, _⟩
    · rw [ready, same]; exact blocked
    · refine fun _ => ⟨?_, empty⟩
      rcases queue with none | ⟨_, taking⟩
      · rw [none] at waiting; cases waiting
      · apply Bool.eq_false_iff.mpr
        intro sleeps
        rcases asleep sleeps with pausing | rested <;> rcases taking with first | second <;> simp_all
  · rw [apart.showing]
    intro runs place
    rcases apart.current with same | ready
    · have before := running (by rw [← same]; exact runs) place
      rcases apart.ready with ⟨ready, _⟩ | ⟨_, _, stuck⟩
      · rw [ready]; exact before
      · rw [stuck] at before; cases before
    · rw [runs] at ready; exact ready

theorem stepSerial_apart {w : Watch} (sound : Sound w) (runs : w.kernel.current = .serial) :
    Apart w w.stepSerial := by
  have unchanged : Apart w w := ⟨rfl, rfl, sound.idle, .inl ⟨rfl, rfl⟩, sound.mutexQueue, .inl rfl⟩
  unfold Watch.stepSerial
  split
  next => split <;> exact ⟨rfl, rfl, sound.idle, .inl ⟨rfl, rfl⟩, sound.mutexQueue, .inl rfl⟩
  next =>
    have spec := rtMutexTake_cases w.kernel w.mutex
    rcases taken : rtMutexTake w.kernel w.mutex with ⟨outcome, kernel, mutex⟩
    rw [taken] at spec
    obtain ⟨current, _, result⟩ := spec
    rcases result with ⟨code, rfl, ready, suspended⟩ | ⟨rfl, ready, suspended⟩
    · refine ⟨rfl, rfl, ?_, .inl ⟨?_, rfl⟩, ?_, .inl current⟩
      · exact (congrFun ready _).trans sound.idle
      · exact congrFun ready _
      · exact suspended ▸ sound.mutexQueue
    · refine ⟨rfl, rfl, ?_, .inl ⟨?_, rfl⟩, ?_, .inl current⟩
      · apply (congrFun ready _).trans
        simpa [runs] using sound.idle
      · apply (congrFun ready _).trans
        simp [runs]
      · simp only [suspended, runs, List.mem_append, List.mem_singleton, reduceCtorEq, or_false]
        exact sound.mutexQueue
  next => exact ⟨rfl, rfl, sound.idle, .inl ⟨rfl, rfl⟩, sound.mutexQueue, .inr (scheduled sound.idle rfl)⟩
  next => exact ⟨rfl, rfl, sound.idle, .inl ⟨rfl, rfl⟩, sound.mutexQueue, .inl rfl⟩
  next => exact ⟨rfl, rfl, sound.idle, .inl ⟨rfl, rfl⟩, sound.mutexQueue, .inl rfl⟩

theorem stepGet_apart {w : Watch} (sound : Sound w) : Apart w w.stepGet := by
  unfold Watch.stepGet
  split
  next =>
    split
    next => exact ⟨rfl, rfl, sound.idle, .inl ⟨rfl, rfl⟩, sound.mutexQueue, .inl rfl⟩
    next =>
      have spec := rtSemRelease_cases w.kernel w.sem
      rcases released : rtSemRelease w.kernel w.sem with ⟨code, needSchedule, kernel, sem⟩
      rw [released] at spec
      obtain ⟨current, _, result⟩ := spec
      rcases result with ⟨none, empty, rfl, rfl⟩ | ⟨next, waiting, rfl, rfl⟩
      · exact ⟨rfl, rfl, sound.idle, .inl ⟨rfl, empty.trans none.symm⟩, sound.mutexQueue, .inl rfl⟩
      · rcases sound.queue with none | ⟨one, _⟩
        · rw [none] at waiting; cases waiting
        · obtain ⟨rfl, empty⟩ : next = .showValues ∧ sem.suspended = [] := by
            rw [one] at waiting
            simpa using waiting.symm
          have stuck : w.kernel.ready .showValues = false := Bool.eq_false_iff.mpr fun ready => by
            have := (sound.blocked ready).2
            rw [one] at this
            cases this
          exact ⟨rfl, rfl, sound.idle, .inr ⟨one, empty, stuck⟩, sound.mutexQueue, .inl rfl⟩
  next => exact ⟨rfl, rfl, sound.idle, .inl ⟨rfl, rfl⟩, sound.mutexQueue, .inr (scheduled sound.idle rfl)⟩
  next =>
    unfold Watch.clearTimeout
    split <;> exact ⟨rfl, rfl, sound.idle, .inl ⟨rfl, rfl⟩, sound.mutexQueue, .inl rfl⟩
  next => exact ⟨rfl, rfl, sound.idle, .inl ⟨rfl, rfl⟩, sound.mutexQueue, .inr (scheduled sound.idle rfl)⟩

theorem uart_apart {w : Watch} (sound : Sound w) (bytes : Nat) : Apart w (w.uart bytes) := by
  unfold Watch.uart
  split
  next => exact ⟨rfl, rfl, sound.idle, .inl ⟨rfl, rfl⟩, sound.mutexQueue, .inl rfl⟩
  next =>
    unfold Watch.uartInput
    have spec := rtMutexRelease_cases w.kernel w.mutex
    rcases released : rtMutexRelease w.kernel w.mutex with ⟨code, needSchedule, kernel, mutex⟩
    rw [released] at spec
    obtain ⟨current, result⟩ := spec
    dsimp only
    rcases result with ⟨_, rfl, rfl, rfl⟩ | ⟨_, _, ⟨ready, same, rfl⟩ | ⟨next, waiting, ready⟩⟩
    · exact ⟨rfl, rfl, sound.idle, .inl ⟨rfl, rfl⟩, sound.mutexQueue, .inl rfl⟩
    · exact ⟨rfl, rfl, (congrFun ready _).trans sound.idle, .inl ⟨congrFun ready _, rfl⟩, same ▸ sound.mutexQueue,
        .inl current⟩
    · have absent : Thread.showValues ∉ mutex.suspended ∧ Thread.showValues ≠ next := by
        have := sound.mutexQueue
        rw [waiting] at this
        exact ⟨fun member => this (List.mem_cons_of_mem _ member), fun same => this (same ▸ List.mem_cons_self)⟩
      have idle : kernel.ready .idle = true := by
        rw [ready, Kernel.setReady_ready]
        split
        · rfl
        · exact sound.idle
      have unmoved : kernel.ready .showValues = w.kernel.ready .showValues := by
        rw [ready, Kernel.setReady_ready, if_neg absent.2]
      cases needSchedule with
      | true => exact ⟨rfl, rfl, idle, .inl ⟨unmoved, rfl⟩, absent.1, .inr (scheduled idle rfl)⟩
      | false => exact ⟨rfl, rfl, idle, .inl ⟨unmoved, rfl⟩, absent.1, .inl current⟩

theorem Sound.stepShow {w : Watch} (sound : Sound w) (runs : w.kernel.current = .showValues) : Sound w.stepShow := by
  have awake (place : w.showing ≠ .pausing ∧ w.showing ≠ .rested) : w.asleep .showValues = false :=
    Bool.eq_false_iff.mpr fun sleeps => (sound.asleep sleeps).elim place.1 place.2
  have unqueued (place : ¬ InTake w) : w.sem.suspended = [] := sound.queue.resolve_right fun taking => place taking.2
  have idle := sound.idle
  have mutexQueue := sound.mutexQueue
  unfold Watch.stepShow
  cases place : w.showing with
  | drawing =>
    have empty := unqueued (by simp [InTake, place])
    exact .of_awake idle (.inl empty) mutexQueue (awake (by simp [place])) (fun _ => empty)
      (fun _ => by rintro (there | there) <;> cases there)
  | pausing =>
    have empty := unqueued (by simp [InTake, place])
    exact ⟨idle, .inl empty, mutexQueue, fun _ => .inr rfl, sound.blocked, fun current _ => scheduled idle current⟩
  | rested =>
    obtain ⟨wakes, empty⟩ := sound.blocked (sound.running runs (.inl place))
    have same : (Watch.clearTimeout w.kernel).ready = w.kernel.ready := by
      unfold Watch.clearTimeout
      split <;> rfl
    exact .of_awake ((congrFun same _).trans idle) (.inl empty) mutexQueue wakes (fun _ => empty)
      (fun _ => by rintro (there | there) <;> cases there)
  | taking =>
    have empty := unqueued (by simp [InTake, place])
    have wakes := awake (by simp [place])
    unfold rtSemTake
    by_cases free : w.sem.value > 0
    · rw [if_pos free]
      exact .of_awake idle (.inl empty) mutexQueue wakes (fun _ => empty) (fun _ => by rintro (there | there) <;> cases there)
    · rw [if_neg free]
      refine .of_awake ?_ (.inr ⟨?_, .inl rfl⟩) mutexQueue wakes (fun ready => ?_)
        (fun _ => by rintro (there | there) <;> cases there)
      · simpa [runs] using idle
      · simp [empty, runs]
      · simp [runs] at ready
  | waiting =>
    have taking : InTake { w with kernel := rtSchedule threads w.kernel, showing := .woken } := .inr rfl
    exact .of_awake idle (sound.queue.imp_right fun both => ⟨both.1, taking⟩) mutexQueue (awake (by simp [place]))
      (fun ready => (sound.blocked ready).2) (fun current _ => scheduled idle current)
  | woken =>
    obtain ⟨wakes, empty⟩ := sound.blocked (sound.running runs (.inr place))
    refine .of_awake idle (.inl empty) mutexQueue wakes (fun _ => empty) (fun _ there => ?_)
    simp only [Watch.semReturn] at there
    split at there <;> rcases there with there | there <;> cases there
  | failed =>
    have empty := unqueued (by simp [InTake, place])
    exact .of_awake (by simpa using idle) (.inl empty) mutexQueue (awake (by simp [place])) (fun _ => empty)
      (fun _ => by rintro (there | there) <;> cases there)
  | gone => exact sound

theorem Sound.sleep {w after : Watch} (sound : Sound w) (slept : w.sleep = some after) : Sound after := by
  obtain ⟨idle, queue, mutexQueue, asleep, blocked, running⟩ := sound
  simp only [Watch.sleep] at slept
  split at slept
  next getting =>
    cases slept
    have other : Thread.showValues ≠ w.kernel.current := by rw [getting.1]; decide
    refine ⟨?_, queue, mutexQueue, ?_, ?_, ?_⟩
    · simpa [getting.1] using idle
    · simpa [other] using asleep
    · simpa [other] using blocked
    · simpa [other] using running
  next =>
    split at slept
    next drawing =>
      cases slept
      have empty : w.sem.suspended = [] := queue.resolve_right fun taking => by
        rcases taking.2 with there | there <;> rw [drawing.2] at there <;> cases there
      refine ⟨?_, .inl empty, mutexQueue, fun _ => .inl rfl, fun ready => ?_, fun _ there => ?_⟩
      · simpa [drawing.1] using idle
      · simp [drawing.1] at ready
      · rcases there with there | there <;> cases there
    next => cases slept

theorem Sound.wake {w after : Watch} (sound : Sound w) {thread : Thread} (woken : w.wake thread = some after) :
    Sound after := by
  obtain ⟨idle, queue, mutexQueue, asleep, blocked, running⟩ := sound
  simp only [Watch.wake] at woken
  split at woken
  next sleeps =>
    cases woken
    have ready : ((w.kernel.setError thread .etimeout).setReady thread true).ready .idle = true := by
      simp [idle]
    have unqueued (self : thread = .showValues) : w.sem.suspended = [] := queue.resolve_right fun taking => by
      subst self
      rcases asleep sleeps with there | there <;> rcases taking.2 with other | other <;> rw [there] at other <;> cases other
    refine ⟨ready, queue, mutexQueue, fun still => ?_, fun runnable => ?_, fun current _ => scheduled ready current⟩
    · by_cases self : Thread.showValues = thread
      · simp [self] at still
      · exact asleep (by simpa [self] using still)
    · by_cases self : Thread.showValues = thread
      · exact ⟨by simp [self], unqueued self.symm⟩
      · simpa [self] using blocked (by simpa [self] using runnable)
  next => cases woken

theorem Sound.step {w after : Watch} {event : Event} (sound : Sound w) (taken : w.step event = some after) :
    Sound after := by
  cases event with
  | step =>
    cases runs : w.kernel.current <;> simp only [Watch.step, runs] at taken <;> cases taken
    · exact sound.apart (stepSerial_apart sound runs)
    · exact sound.apart (stepGet_apart sound)
    · exact sound.stepShow runs
    · exact sound
  | sleep => exact sound.sleep taken
  | wake thread => exact sound.wake taken
  | uart bytes =>
    cases taken
    exact sound.apart (uart_apart sound bytes)

/-- A step of another thread or of an interrupt keeps the display thread alive
when it leaves its error number alone. -/
theorem Alive.apart {before after : Watch} (alive : Alive before) (apart : Apart before after)
    (error : InTake before → after.kernel.error .showValues = before.kernel.error .showValues)
    (takes : after.takes = before.takes) (deleted : after.deleted = before.deleted)
    (releases : after.strayRelease = before.strayRelease) : Alive after := by
  have inTake : InTake after ↔ InTake before := by unfold InTake; rw [apart.showing]
  refine ⟨alive.sound.apart apart, fun taking => ?_, by rw [apart.showing]; exact alive.going,
    by rw [takes]; exact alive.takes, deleted.trans alive.deleted, releases.trans alive.releases⟩
  have was := inTake.mp taking
  exact (error was).trans (alive.quiet was)

theorem Alive.serial {w : Watch} (alive : Alive w) (runs : w.kernel.current = .serial) : Alive w.stepSerial := by
  have apart := stepSerial_apart alive.sound runs
  revert apart
  unfold Watch.stepSerial
  cases w.serial with
  | reading =>
    dsimp only
    split <;> exact fun apart => alive.apart apart (fun _ => rfl) rfl rfl rfl
  | taking =>
    have spec := rtMutexTake_cases w.kernel w.mutex
    rcases taken : rtMutexTake w.kernel w.mutex with ⟨outcome, kernel, mutex⟩
    rw [taken] at spec
    obtain ⟨_, error, _⟩ := spec
    have same : kernel.error .showValues = w.kernel.error .showValues := by
      apply (congrFun error _).trans
      simp [runs]
    dsimp only
    cases outcome <;> exact fun apart => alive.apart apart (fun _ => same) rfl rfl rfl
  | waiting | woken | handling => exact fun apart => alive.apart apart (fun _ => rfl) rfl rfl rfl

theorem Alive.get {w : Watch} (alive : Alive w) (runs : w.kernel.current = .getValues) : Alive w.stepGet := by
  have apart := stepGet_apart alive.sound
  revert apart
  unfold Watch.stepGet
  cases w.getting with
  | working =>
    have spec := rtSemRelease_cases w.kernel w.sem
    rcases released : rtSemRelease w.kernel w.sem with ⟨code, needSchedule, kernel, sem⟩
    rw [released] at spec
    simp only [alive.deleted, Bool.false_eq_true, ite_false]
    exact fun apart => alive.apart apart (fun _ => congrFun spec.2.1 _) rfl alive.deleted.symm rfl
  | pausing | yielding => exact fun apart => alive.apart apart (fun _ => rfl) rfl rfl rfl
  | rested =>
    refine fun apart => alive.apart apart (fun _ => ?_) rfl rfl rfl
    simp only [Watch.clearTimeout, runs]
    split
    · simp
    · rfl

/-- Going on, the display thread takes its semaphore or finds it given. -/
theorem Alive.show {w : Watch} (alive : Alive w) (runs : w.kernel.current = .showValues) : Alive w.stepShow := by
  have sound := alive.sound.stepShow runs
  obtain ⟨_, quiet, going, takes, deleted, releases⟩ := alive
  have drawing {after : Watch} (sound : Sound after) (place : ¬ InTake after)
      (going : after.showing ≠ .failed ∧ after.showing ≠ .gone) (takes : ∀ code ∈ after.takes, code = .eok)
      (deleted : after.deleted = false) (releases : after.strayRelease = false) : Alive after :=
    ⟨sound, fun taking => absurd taking place, going, takes, deleted, releases⟩
  have more {code : Err} (fine : code = .eok) : ∀ other ∈ w.takes ++ [code], other = .eok := by
    intro other member
    rcases List.mem_append.mp member with old | new
    · exact takes other old
    · rw [List.mem_singleton.mp new, fine]
  revert sound
  unfold Watch.stepShow
  cases place : w.showing with
  | drawing | pausing | rested =>
    exact fun sound => drawing sound (by rintro (there | there) <;> cases there)
      ⟨(by intro there; cases there), (by intro there; cases there)⟩ takes deleted releases
  | taking =>
    unfold rtSemTake
    by_cases free : w.sem.value > 0
    · rw [if_pos free]
      exact fun sound => drawing sound (by rintro (there | there) <;> cases there)
        ⟨(by intro there; cases there), (by intro there; cases there)⟩ (more rfl) deleted releases
    · rw [if_neg free]
      refine fun sound => ⟨sound, fun _ => ?_, ⟨(by intro there; cases there), (by intro there; cases there)⟩, takes, deleted,
        releases⟩
      simp [runs]
  | waiting =>
    exact fun sound => ⟨sound, fun _ => quiet (.inl place), ⟨(by intro there; cases there), (by intro there; cases there)⟩,
      takes, deleted, releases⟩
  | woken =>
    have fine : waited w.kernel = .eok := by
      rw [waited, runs]
      exact quiet (.inr place)
    simp only [Watch.semReturn, fine, ite_true]
    exact fun sound => drawing sound (by rintro (there | there) <;> cases there)
      ⟨(by intro there; cases there), (by intro there; cases there)⟩ (more rfl) deleted releases
  | failed => exact absurd place going.1
  | gone => exact absurd place going.2

theorem Alive.uart {w : Watch} (alive : Alive w) {bytes : Nat} (undisturbed : ¬ Disturbs w (.uart bytes)) :
    Alive (w.uart bytes) := by
  have apart := uart_apart alive.sound bytes
  revert apart
  unfold Watch.uart
  split
  next => exact fun apart => alive
  next some =>
    have spec := rtMutexRelease_cases w.kernel w.mutex
    unfold Watch.uartInput
    rcases released : rtMutexRelease w.kernel w.mutex with ⟨code, needSchedule, kernel, mutex⟩
    rw [released] at spec
    refine fun apart => alive.apart apart (fun taking => ?_) rfl rfl rfl
    have other : Thread.showValues ≠ w.kernel.current := fun same =>
      undisturbed ⟨bytes, rfl, Nat.pos_of_ne_zero some, same.symm, taking⟩
    have same : kernel.error .showValues = w.kernel.error .showValues := by
      obtain ⟨_, ⟨_, _, kept, _⟩ | ⟨_, kept, _⟩⟩ := spec
      · apply (congrArg (fun kernel => kernel.error .showValues) kept).trans
        simp [other]
      · exact congrFun kept _
    dsimp only
    cases needSchedule <;> exact same

theorem Alive.step {w after : Watch} {event : Event} (alive : Alive w) (undisturbed : ¬ Disturbs w event)
    (taken : w.step event = some after) : Alive after := by
  have sound := alive.sound.step taken
  cases event with
  | step =>
    cases runs : w.kernel.current <;> simp only [Watch.step, runs] at taken <;> cases taken
    · exact alive.serial runs
    · exact alive.get runs
    · exact alive.show runs
    · exact alive
  | sleep =>
    simp only [Watch.step, Watch.sleep] at taken
    split at taken
    next => cases taken; exact ⟨sound, alive.quiet, alive.going, alive.takes, alive.deleted, alive.releases⟩
    next =>
      split at taken
      next =>
        cases taken
        exact ⟨sound, fun there => (by rcases there with there | there <;> cases there),
          ⟨(by intro there; cases there), (by intro there; cases there)⟩, alive.takes, alive.deleted, alive.releases⟩
      next => cases taken
  | wake thread =>
    simp only [Watch.step, Watch.wake] at taken
    split at taken
    next sleeps =>
      cases taken
      refine ⟨sound, fun taking => ?_, alive.going, alive.takes, alive.deleted, alive.releases⟩
      have other : Thread.showValues ≠ thread := by
        rintro rfl
        rcases alive.sound.asleep sleeps with there | there <;> rcases taking with place | place <;>
          exact absurd (there.symm.trans place) (by decide)
      have quiet := alive.quiet taking
      simpa [other] using quiet
    next => cases taken
  | uart bytes =>
    cases taken
    exact alive.uart undisturbed

/-- What the display thread promises: every `rt_sem_take` returns `RT_EOK`, the
branch that deletes the semaphore is never entered, and nothing is released after it. -/
structure Survives (w : Watch) : Prop where
  takes : ∀ code ∈ w.takes, code = .eok
  going : w.showing ≠ .failed ∧ w.showing ≠ .gone
  deleted : w.deleted = false
  releases : w.strayRelease = false

theorem alive_start : Alive {} := by
  refine ⟨⟨rfl, .inl rfl, List.not_mem_nil, nofun, fun _ => ⟨rfl, rfl⟩, fun _ _ => rfl⟩, fun _ => rfl,
    ⟨by decide, by decide⟩, fun _ member => absurd member List.not_mem_nil, rfl, rfl⟩

/-- A byte that arrives just after the display thread has suspended itself ends it. -/
theorem byte_ends_display : ¬ ∀ events final, run Watch.step {} events = some final → Survives final := by
  intro always
  -- draw and suspend; the byte; give way to `getValues`, which releases and gives way; read the error; delete
  let events : List Event := [.step, .step, .uart 1, .step, .step, .step, .step, .step]
  have ends : (run Watch.step {} events).map (·.deleted) = some true := by decide +kernel
  obtain ⟨final, reached, gone⟩ := Option.map_eq_some_iff.mp ends
  have survives := (always events final reached).deleted
  rw [survives] at gone
  cases gone

/-- In every run in which no receive interrupt calls back while the display thread
is running between suspending itself and reading its error number, it survives. -/
theorem survives {events : List Event} {final : Watch}
    (undisturbed : Taken Watch.step (fun w event => ¬ Disturbs w event) {} events)
    (reached : run Watch.step {} events = some final) : Survives final := by
  have alive := run_guarded (fun w event => ¬ Disturbs w event) Alive
    (fun _ _ _ alive undisturbed taken => alive.step undisturbed taken) alive_start undisturbed reached
  exact ⟨alive.takes, alive.going, alive.deleted, alive.releases⟩

/-- Bytes that arrive while it draws and while `getValues` runs do no harm. -/
theorem survives_bytes : ∃ final, run Watch.step {}
      [.uart 1, .step, .step, .step, .uart 2, .step, .step, .step] = some final ∧ final.takes = [.eok] ∧
      Survives final := by
  have reached : (run Watch.step {} [.uart 1, .step, .step, .step, .uart 2, .step, .step, .step]).map (·.takes) =
      some [.eok] := by decide +kernel
  obtain ⟨final, reached, takes⟩ := Option.map_eq_some_iff.mp reached
  exact ⟨final, reached, takes, survives (by decide +kernel) reached⟩

end SmartWatch.Proofs.DisplayThread
