/-! The semaphore and the mutex of `ipc.c` on one processor, created with the FIFO
flag and waited for without a time limit. A function is one step up to the point
where it turns the interrupts on again; a taker that has to wait calls
`rt_schedule` as its next step, and reads its error number after that. -/

namespace SmartWatch

inductive Err where
  | eok
  | error
  | etimeout
  | efull
deriving DecidableEq, Repr

def semValueMax : Nat := 65535

def mutexValueMax : Nat := 65535

def mutexHoldMax : Nat := 255

/-- What the kernel keeps of its threads. A lower priority number comes first. -/
structure Kernel (τ : Type) where
  current : τ
  ready : τ → Bool
  error : τ → Err
  priority : τ → Nat

structure Semaphore (τ : Type) where
  value : Nat := 0
  suspended : List τ := []

structure Mutex (τ : Type) where
  value : Nat := 1
  hold : Nat := 0
  owner : Option τ := none
  originalPriority : Nat := 0xff
  suspended : List τ := []

inductive Outcome where
  | returned (code : Err)
  | waits
deriving DecidableEq, Repr

variable {τ : Type} [DecidableEq τ]

namespace Kernel

def setReady (kernel : Kernel τ) (thread : τ) (ready : Bool) : Kernel τ :=
  { kernel with ready := fun other => if other = thread then ready else kernel.ready other }

def setError (kernel : Kernel τ) (thread : τ) (code : Err) : Kernel τ :=
  { kernel with error := fun other => if other = thread then code else kernel.error other }

def setPriority (kernel : Kernel τ) (thread : τ) (priority : Nat) : Kernel τ :=
  { kernel with priority := fun other => if other = thread then priority else kernel.priority other }

@[simp] theorem setReady_current (kernel : Kernel τ) (thread : τ) (ready : Bool) :
    (kernel.setReady thread ready).current = kernel.current := rfl

@[simp] theorem setReady_ready (kernel : Kernel τ) (thread other : τ) (ready : Bool) :
    (kernel.setReady thread ready).ready other = if other = thread then ready else kernel.ready other := rfl

@[simp] theorem setReady_error (kernel : Kernel τ) (thread : τ) (ready : Bool) :
    (kernel.setReady thread ready).error = kernel.error := rfl

@[simp] theorem setError_current (kernel : Kernel τ) (thread : τ) (code : Err) :
    (kernel.setError thread code).current = kernel.current := rfl

@[simp] theorem setError_error (kernel : Kernel τ) (thread other : τ) (code : Err) :
    (kernel.setError thread code).error other = if other = thread then code else kernel.error other := rfl

@[simp] theorem setError_ready (kernel : Kernel τ) (thread : τ) (code : Err) :
    (kernel.setError thread code).ready = kernel.ready := rfl

/-- The owner gets its own priority back. -/
def restore (kernel : Kernel τ) (thread : τ) (original : Nat) : Kernel τ :=
  if original ≠ kernel.priority thread then kernel.setPriority thread original else kernel

/-- The owner of a mutex inherits the priority of a thread that waits for it. -/
def inherit (kernel : Kernel τ) (thread : τ) (owner : Option τ) : Kernel τ :=
  match owner with
  | some owner =>
    if kernel.priority thread < kernel.priority owner then kernel.setPriority owner (kernel.priority thread) else kernel
  | none => kernel

@[simp] theorem setPriority_ready (kernel : Kernel τ) (thread : τ) (priority : Nat) :
    (kernel.setPriority thread priority).ready = kernel.ready := rfl

@[simp] theorem setPriority_current (kernel : Kernel τ) (thread : τ) (priority : Nat) :
    (kernel.setPriority thread priority).current = kernel.current := rfl

@[simp] theorem setPriority_error (kernel : Kernel τ) (thread : τ) (priority : Nat) :
    (kernel.setPriority thread priority).error = kernel.error := rfl

theorem restore_same (kernel : Kernel τ) (thread : τ) (original : Nat) :
    (kernel.restore thread original).current = kernel.current ∧ (kernel.restore thread original).error = kernel.error ∧
      (kernel.restore thread original).ready = kernel.ready := by
  unfold restore
  split <;> exact ⟨rfl, rfl, rfl⟩

theorem inherit_same (kernel : Kernel τ) (thread : τ) (owner : Option τ) :
    (kernel.inherit thread owner).current = kernel.current ∧ (kernel.inherit thread owner).error = kernel.error ∧
      (kernel.inherit thread owner).ready = kernel.ready := by
  unfold inherit
  cases owner with
  | none => exact ⟨rfl, rfl, rfl⟩
  | some owner =>
    dsimp only
    split <;> exact ⟨rfl, rfl, rfl⟩

end Kernel

/-- `rt_schedule`: the first ready thread of the best priority runs next, unless
the running one is as good. -/
def rtSchedule (threads : List τ) (kernel : Kernel τ) : Kernel τ :=
  { kernel with
    current := (threads.filter kernel.ready).foldl
      (fun best thread =>
        if kernel.ready best = false ∨ kernel.priority thread < kernel.priority best then thread else best)
      kernel.current }

omit [DecidableEq τ] in
@[simp] theorem rtSchedule_ready_eq (threads : List τ) (kernel : Kernel τ) :
    (rtSchedule threads kernel).ready = kernel.ready := rfl

omit [DecidableEq τ] in
@[simp] theorem rtSchedule_error (threads : List τ) (kernel : Kernel τ) :
    (rtSchedule threads kernel).error = kernel.error := rfl

def rtSemTake (kernel : Kernel τ) (sem : Semaphore τ) : Outcome × Kernel τ × Semaphore τ :=
  if sem.value > 0 then
    (.returned .eok, kernel, { sem with value := sem.value - 1 })
  else
    let thread := kernel.current
    (.waits, (kernel.setError thread .eok).setReady thread false, { sem with suspended := sem.suspended ++ [thread] })

/-- The error number a taker returns after it has waited. -/
def waited (kernel : Kernel τ) : Err := kernel.error kernel.current

/-- `rt_ipc_list_resume` on a list that is not empty. -/
def rtIpcListResume (kernel : Kernel τ) (thread : τ) : Kernel τ := kernel.setReady thread true

/-- The result, and whether to schedule. -/
def rtSemRelease (kernel : Kernel τ) (sem : Semaphore τ) : Err × Bool × Kernel τ × Semaphore τ :=
  match sem.suspended with
  | thread :: suspended => (.eok, true, rtIpcListResume kernel thread, { sem with suspended })
  | [] =>
    if sem.value < semValueMax then
      (.eok, false, kernel, { sem with value := sem.value + 1 })
    else
      (.efull, false, kernel, sem)

def rtMutexTake (kernel : Kernel τ) (mutex : Mutex τ) : Outcome × Kernel τ × Mutex τ :=
  let thread := kernel.current
  let kernel := kernel.setError thread .eok
  if mutex.owner = some thread then
    if mutex.hold < mutexHoldMax then
      (.returned .eok, kernel, { mutex with hold := mutex.hold + 1 })
    else
      (.returned .efull, kernel, mutex)
  else if mutex.value > 0 then
    let mutex := { mutex with
      value := mutex.value - 1, owner := some thread, originalPriority := kernel.priority thread }
    if mutex.hold < mutexHoldMax then
      (.returned .eok, kernel, { mutex with hold := mutex.hold + 1 })
    else
      (.returned .efull, kernel, mutex)
  else
    let kernel := kernel.inherit thread mutex.owner
    (.waits, kernel.setReady thread false, { mutex with suspended := mutex.suspended ++ [thread] })

/-- The result, and whether to schedule. `hold` is an unsigned byte. -/
def rtMutexRelease (kernel : Kernel τ) (mutex : Mutex τ) : Err × Bool × Kernel τ × Mutex τ :=
  let thread := kernel.current
  if mutex.owner ≠ some thread then
    (.error, false, kernel.setError thread .error, mutex)
  else
    let mutex := { mutex with hold := (mutex.hold + 255) % 256 }
    if mutex.hold = 0 then
      let kernel := kernel.restore thread mutex.originalPriority
      match mutex.suspended with
      | next :: suspended =>
        let mutex := { mutex with owner := some next, originalPriority := kernel.priority next }
        if mutex.hold < mutexHoldMax then
          (.eok, true, rtIpcListResume kernel next, { mutex with hold := mutex.hold + 1, suspended })
        else
          (.efull, false, kernel, mutex)
      | [] =>
        if mutex.value < mutexValueMax then
          (.eok, false, kernel, { mutex with value := mutex.value + 1, owner := none, originalPriority := 0xff })
        else
          (.efull, false, kernel, mutex)
    else
      (.eok, false, kernel, mutex)

/-- Everything a release of the mutex can do: set the error number of a caller
that does not own it, or count down and at 0 free the mutex or hand it on. -/
theorem rtMutexRelease_cases (kernel : Kernel τ) (mutex : Mutex τ) :
    let (_, needSchedule, after, released) := rtMutexRelease kernel mutex
    after.current = kernel.current ∧
      ((mutex.owner ≠ some kernel.current ∧ needSchedule = false ∧ after = kernel.setError kernel.current .error ∧
          released = mutex) ∨
        (mutex.owner = some kernel.current ∧ after.error = kernel.error ∧
          ((after.ready = kernel.ready ∧ released.suspended = mutex.suspended ∧ needSchedule = false) ∨
            ∃ next, mutex.suspended = next :: released.suspended ∧ after.ready = (kernel.setReady next true).ready))) := by
  unfold rtMutexRelease
  obtain ⟨current, error, ready⟩ := kernel.restore_same kernel.current mutex.originalPriority
  by_cases owned : mutex.owner = some kernel.current
  · rw [if_neg (not_not_intro owned)]
    dsimp only
    by_cases last : (mutex.hold + 255) % 256 = 0
    · rw [if_pos last]
      cases waiting : mutex.suspended with
      | nil =>
        by_cases room : mutex.value < mutexValueMax
        · rw [if_pos room]
          exact ⟨current, .inr ⟨owned, error, .inl ⟨ready, rfl, rfl⟩⟩⟩
        · rw [if_neg room]
          exact ⟨current, .inr ⟨owned, error, .inl ⟨ready, rfl, rfl⟩⟩⟩
      | cons next suspended =>
        have room : (mutex.hold + 255) % 256 < mutexHoldMax := by rw [last]; decide
        dsimp only
        rw [if_pos room]
        refine ⟨current, .inr ⟨owned, error, .inr ⟨next, rfl, ?_⟩⟩⟩
        simp only [rtIpcListResume, Kernel.setReady, ready]
    · rw [if_neg last]
      exact ⟨rfl, .inr ⟨owned, rfl, .inl ⟨rfl, rfl, rfl⟩⟩⟩
  · rw [if_pos owned]
    exact ⟨rfl, .inl ⟨owned, rfl, rfl, rfl⟩⟩

/-- Everything a take of the mutex can do to its caller, and to nobody else. -/
theorem rtMutexTake_cases (kernel : Kernel τ) (mutex : Mutex τ) :
    let (outcome, after, taken) := rtMutexTake kernel mutex
    after.current = kernel.current ∧ after.error = (kernel.setError kernel.current .eok).error ∧
      ((∃ code, outcome = .returned code ∧ after.ready = kernel.ready ∧ taken.suspended = mutex.suspended) ∨
        (outcome = .waits ∧ after.ready = (kernel.setReady kernel.current false).ready ∧
          taken.suspended = mutex.suspended ++ [kernel.current])) := by
  unfold rtMutexTake
  obtain ⟨current, error, ready⟩ := (kernel.setError kernel.current .eok).inherit_same kernel.current mutex.owner
  dsimp only
  by_cases owned : mutex.owner = some kernel.current
  · rw [if_pos owned]
    by_cases room : mutex.hold < mutexHoldMax
    · rw [if_pos room]
      exact ⟨rfl, rfl, .inl ⟨_, rfl, rfl, rfl⟩⟩
    · rw [if_neg room]
      exact ⟨rfl, rfl, .inl ⟨_, rfl, rfl, rfl⟩⟩
  · rw [if_neg owned]
    by_cases free : mutex.value > 0
    · rw [if_pos free]
      by_cases room : mutex.hold < mutexHoldMax
      · rw [if_pos room]
        exact ⟨rfl, rfl, .inl ⟨_, rfl, rfl, rfl⟩⟩
      · rw [if_neg room]
        exact ⟨rfl, rfl, .inl ⟨_, rfl, rfl, rfl⟩⟩
    · rw [if_neg free]
      refine ⟨current, error, .inr ⟨rfl, ?_, rfl⟩⟩
      simp only [Kernel.setReady, ready]
      rfl

theorem rtSemRelease_cases (kernel : Kernel τ) (sem : Semaphore τ) :
    let (_, needSchedule, after, released) := rtSemRelease kernel sem
    after.current = kernel.current ∧ after.error = kernel.error ∧
      ((sem.suspended = [] ∧ released.suspended = [] ∧ after = kernel ∧ needSchedule = false) ∨
        ∃ next, sem.suspended = next :: released.suspended ∧ after = kernel.setReady next true ∧ needSchedule = true) := by
  unfold rtSemRelease
  cases waiting : sem.suspended with
  | cons next suspended => exact ⟨rfl, rfl, .inr ⟨next, rfl, rfl, rfl⟩⟩
  | nil =>
    by_cases room : sem.value < semValueMax
    · dsimp only
      rw [if_pos room]
      exact ⟨rfl, rfl, .inl ⟨rfl, rfl, rfl, rfl⟩⟩
    · dsimp only
      rw [if_neg room]
      exact ⟨rfl, rfl, .inl ⟨rfl, waiting, rfl, rfl⟩⟩

end SmartWatch
