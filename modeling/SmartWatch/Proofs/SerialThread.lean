import SmartWatch.Threads
import SmartWatch.Lib.Runs

/-! Whether the serial thread waits for its bytes. The mutex it waits on starts
free and counts its owner's takes, so no take of the serial thread ever waits. -/

namespace SmartWatch.Proofs.SerialThread
open Runs

/-- The mutex is free, or held by the serial thread. -/
structure Open (mutex : Mutex Thread) : Prop where
  queue : mutex.suspended = []
  owner : mutex.owner = none ∧ mutex.value = 1 ∧ mutex.hold = 0 ∨
    mutex.owner = some .serial ∧ mutex.value = 0 ∧ 1 ≤ mutex.hold ∧ mutex.hold ≤ mutexHoldMax

theorem Open.take {kernel : Kernel Thread} {mutex : Mutex Thread} (opened : Open mutex) (runs : kernel.current = .serial) :
    (∃ code, (rtMutexTake kernel mutex).1 = .returned code) ∧ Open (rtMutexTake kernel mutex).2.2 := by
  obtain ⟨queue, owner⟩ := opened
  unfold rtMutexTake
  dsimp only
  rw [runs]
  rcases owner with ⟨free, value, hold⟩ | ⟨held, value, low, high⟩
  · rw [if_neg (by simp [free]), if_pos (by omega), if_pos (by rw [hold]; decide)]
    exact ⟨⟨_, rfl⟩, queue, .inr ⟨rfl, by simp only; omega, by simp only; omega, by simp only [mutexHoldMax]; omega⟩⟩
  · rw [if_pos held]
    by_cases room : mutex.hold < mutexHoldMax
    · rw [if_pos room]
      exact ⟨⟨_, rfl⟩, queue, .inr ⟨held, value, by simp only; omega, room⟩⟩
    · rw [if_neg room]
      exact ⟨⟨_, rfl⟩, queue, .inr ⟨held, value, low, high⟩⟩

theorem Open.release (kernel : Kernel Thread) {mutex : Mutex Thread} (opened : Open mutex) :
    Open (rtMutexRelease kernel mutex).2.2.2 := by
  obtain ⟨queue, owner⟩ := opened
  unfold rtMutexRelease
  by_cases owned : mutex.owner = some kernel.current
  · rw [if_neg (not_not_intro owned)]
    rcases owner with ⟨free, _⟩ | ⟨held, value, low, high⟩
    · rw [free] at owned
      cases owned
    · simp only [mutexHoldMax] at high
      dsimp only
      by_cases last : (mutex.hold + 255) % 256 = 0
      · rw [if_pos last]
        simp only [queue]
        rw [if_pos (by rw [value]; decide)]
        exact ⟨rfl, .inl ⟨rfl, by simp only; omega, last⟩⟩
      · rw [if_neg last]
        exact ⟨queue, .inr ⟨held, value, by simp only; omega, by simp only [mutexHoldMax]; omega⟩⟩
  · rw [if_pos owned]
    exact ⟨queue, owner⟩

/-- The serial thread never waits in `rt_mutex_take`. -/
structure Awake (w : Watch) : Prop where
  mutex : Open w.mutex
  place : w.serial ≠ .waiting ∧ w.serial ≠ .woken

def Takes (w : Watch) (event : Event) : Prop := event = .step ∧ w.kernel.current = .serial ∧ w.serial = .taking

instance (w : Watch) (event : Event) : Decidable (Takes w event) := inferInstanceAs (Decidable (_ ∧ _))

/-- Everything an event does to the record: a call of `rt_mutex_take` returns at
once, a callback counts, and nothing else matters. -/
theorem Awake.step {w after : Watch} {event : Event} (awake : Awake w) (taken : w.step event = some after) :
    Awake after ∧
      ((Takes w event ∧ after.returns = w.returns + 1 ∧ after.fresh = 0 ∧ after.callbacks = w.callbacks ∧
          after.unfounded = (w.unfounded || w.fresh == 0)) ∨
        (¬ Takes w event ∧ after.returns = w.returns ∧ after.unfounded = w.unfounded ∧
          ∃ more, after.fresh = w.fresh + more ∧ after.callbacks = w.callbacks + more)) := by
  obtain ⟨mutex, place⟩ := awake
  have same {other : Watch} (kept : Awake other) (not_take : ¬ Takes w event) (returns : other.returns = w.returns)
      (unfounded : other.unfounded = w.unfounded) (fresh : other.fresh = w.fresh) (callbacks : other.callbacks = w.callbacks) :
      Awake other ∧ ((Takes w event ∧ other.returns = w.returns + 1 ∧ other.fresh = 0 ∧ other.callbacks = w.callbacks ∧
          other.unfounded = (w.unfounded || w.fresh == 0)) ∨
        (¬ Takes w event ∧ other.returns = w.returns ∧ other.unfounded = w.unfounded ∧
          ∃ more, other.fresh = w.fresh + more ∧ other.callbacks = w.callbacks + more)) :=
    ⟨kept, .inr ⟨not_take, returns, unfounded, 0, fresh, callbacks⟩⟩
  cases event with
  | step =>
    cases runs : w.kernel.current with
    | idle =>
      simp only [Watch.step, runs] at taken
      cases taken
      exact same ⟨mutex, place⟩ (by simp [Takes, runs]) rfl rfl rfl rfl
    | getValues =>
      simp only [Watch.step, runs] at taken
      cases taken
      unfold Watch.stepGet
      cases w.getting with
      | working =>
        dsimp only
        split <;> exact same ⟨mutex, place⟩ (by simp [Takes, runs]) rfl rfl rfl rfl
      | pausing | rested | yielding => exact same ⟨mutex, place⟩ (by simp [Takes, runs]) rfl rfl rfl rfl
    | showValues =>
      simp only [Watch.step, runs] at taken
      cases taken
      unfold Watch.stepShow
      cases w.showing with
      | taking =>
        rcases rtSemTake w.kernel w.sem with ⟨outcome, kernel, sem⟩
        cases outcome <;> exact same ⟨mutex, place⟩ (by simp [Takes, runs]) rfl rfl rfl rfl
      | drawing | pausing | rested | waiting | woken | failed | gone =>
        exact same ⟨mutex, place⟩ (by simp [Takes, runs]) rfl rfl rfl rfl
    | serial =>
      simp only [Watch.step, runs] at taken
      cases taken
      unfold Watch.stepSerial
      cases spot : w.serial with
      | reading =>
        dsimp only
        split <;> exact same ⟨mutex, (by intro there; cases there), (by intro there; cases there)⟩
          (by simp [Takes, spot]) rfl rfl rfl rfl
      | handling =>
        exact same ⟨mutex, (by intro there; cases there), (by intro there; cases there)⟩
          (by simp [Takes, spot]) rfl rfl rfl rfl
      | waiting => exact absurd spot place.1
      | woken => exact absurd spot place.2
      | taking =>
        have spec := mutex.take runs
        rcases result : rtMutexTake w.kernel w.mutex with ⟨outcome, kernel, mutex⟩
        rw [result] at spec
        obtain ⟨⟨code, rfl⟩, opened⟩ := spec
        exact ⟨⟨opened, (by intro there; cases there), (by intro there; cases there)⟩,
          .inl ⟨⟨rfl, runs, spot⟩, rfl, rfl, rfl, rfl⟩⟩
  | sleep =>
    simp only [Watch.step, Watch.sleep] at taken
    split at taken
    next => cases taken; exact same ⟨mutex, place⟩ (by simp [Takes]) rfl rfl rfl rfl
    next =>
      split at taken
      next => cases taken; exact same ⟨mutex, place⟩ (by simp [Takes]) rfl rfl rfl rfl
      next => cases taken
  | wake thread =>
    simp only [Watch.step, Watch.wake] at taken
    split at taken
    next => cases taken; exact same ⟨mutex, place⟩ (by simp [Takes]) rfl rfl rfl rfl
    next => cases taken
  | uart bytes =>
    cases taken
    unfold Watch.uart
    split
    next => exact same ⟨mutex, place⟩ (by simp [Takes]) rfl rfl rfl rfl
    next =>
      unfold Watch.uartInput
      have spec := mutex.release w.kernel
      rcases result : rtMutexRelease w.kernel w.mutex with ⟨code, needSchedule, kernel, released⟩
      rw [result] at spec
      exact ⟨⟨spec, place⟩, .inr ⟨by simp [Takes], rfl, rfl, 1, rfl, rfl⟩⟩

private theorem awake_start : Awake {} := ⟨⟨rfl, .inl ⟨rfl, rfl, rfl⟩⟩, by decide, by decide⟩

/-- Every return of `rt_mutex_take` so far came after a callback of its own. -/
structure Paired (w : Watch) : Prop where
  own : w.unfounded = false
  count : w.returns ≤ w.callbacks

/-- The first take of the serial thread returns with no byte received. -/
theorem spins_at_start : ¬ ∀ events final, run Watch.step {} events = some final → Paired final := by
  intro always
  -- the display thread suspends itself, `getValues` goes to sleep, and the serial thread reads nothing and takes
  let events : List Event := [.step, .step, .step, .sleep, .step, .step, .step]
  have spins : (run Watch.step {} events).map (fun w => (w.returns, w.callbacks)) = some (1, 0) := by decide +kernel
  obtain ⟨final, reached, counts⟩ := Option.map_eq_some_iff.mp spins
  have paired := (always events final reached).count
  simp only [Prod.mk.injEq] at counts
  omega

/-- Every return has a callback of its own exactly in the runs in which every call
of `rt_mutex_take` already comes after a callback later than the call before it. -/
theorem paired_iff {events : List Event} {final : Watch} (reached : run Watch.step {} events = some final) :
    Paired final ↔ Taken Watch.step (fun w event => Takes w event → 0 < w.fresh) {} events := by
  constructor
  · intro paired
    have kept : ∀ (events : List Event) (w : Watch), Awake w → run Watch.step w events = some final →
        w.unfounded = false ∧ Taken Watch.step (fun w event => Takes w event → 0 < w.fresh) w events := by
      intro events
      induction events with
      | nil =>
        intro w _ reached
        cases reached
        exact ⟨paired.own, trivial⟩
      | cons event events ih =>
        intro w awake reached
        obtain ⟨next, taken, rest⟩ := run_cons reached
        obtain ⟨stays, result⟩ := awake.step taken
        obtain ⟨own, met⟩ := ih next stays rest
        have later : ∀ other, w.step event = some other →
            Taken Watch.step (fun w event => Takes w event → 0 < w.fresh) other events := by
          intro other same
          cases taken.symm.trans same
          exact met
        rcases result with ⟨_, _, _, _, flag⟩ | ⟨not_take, _, flag, _⟩
        · rw [own] at flag
          simp only [Bool.false_eq, Bool.or_eq_false_iff, beq_eq_false_iff_ne] at flag
          exact ⟨flag.1, fun _ => Nat.pos_of_ne_zero flag.2, later⟩
        · exact ⟨flag.symm.trans own, fun take => absurd take not_take, later⟩
    exact (kept events {} awake_start reached).2
  · intro met
    have kept := run_guarded (fun w event => Takes w event → 0 < w.fresh)
      (fun w => Awake w ∧ w.unfounded = false ∧ w.returns + w.fresh ≤ w.callbacks)
      (fun w event next ⟨awake, own, count⟩ answered taken => ?_) ⟨awake_start, rfl, Nat.le_refl _⟩ met reached
    · exact ⟨kept.2.1, by omega⟩
    · obtain ⟨stays, ⟨take, returns, fresh, callbacks, flag⟩ | ⟨_, returns, flag, more, fresh, callbacks⟩⟩ :=
        awake.step taken
      · have some := answered take
        refine ⟨stays, ?_, by omega⟩
        rw [flag, own]
        simp only [Bool.false_or, beq_eq_false_iff_ne]
        omega
      · exact ⟨stays, flag.trans own, by omega⟩

/-- One byte, one take that finds the buffer empty again. -/
theorem paired_iff_byte : ∃ final, run Watch.step {}
      [.step, .step, .step, .sleep, .step, .uart 1, .step, .step, .step, .step] = some final ∧ final.returns = 1 ∧
      Paired final := by
  have reached : (run Watch.step {} [.step, .step, .step, .sleep, .step, .uart 1, .step, .step, .step, .step]).map
      (·.returns) = some 1 := by decide +kernel
  obtain ⟨final, reached, returns⟩ := Option.map_eq_some_iff.mp reached
  exact ⟨final, reached, returns, (paired_iff reached).mpr (by decide +kernel)⟩

end SmartWatch.Proofs.SerialThread
