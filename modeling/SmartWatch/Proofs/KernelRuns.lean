import SmartWatch.Proofs.Kernel

/-! What the threads may rely on, over every run of the kernel: the lists agree with
the states, the best thread runs, and a sleeping thread wakes when it should. -/

namespace SmartWatch.Proofs.KernelRuns
open Runs Deadlines SmartWatch.Proofs.TimerList SmartWatch.Proofs.Timers SmartWatch.Proofs.ReadyQueue
  SmartWatch.Proofs.ThreadStates SmartWatch.Proofs.Kernel

variable {τ ι : Type} [DecidableEq τ] [DecidableEq ι] {k final : Core τ ι} {turns : Nat} {thread : τ}

/-- An idle thread and one of a better priority, shortly before the tick counter wraps. -/
def sampleCore : Core Bool Unit where
  tick := 0xffffffff
  timer _ := {}
  world := { thread := fun worker =>
    let priority := if worker then 5 else 31
    { initPriority := priority, currentPriority := priority, initTick := 20, remainingTick := 20 } }

theorem sample_booted : Booted sampleCore := by
  refine ⟨⟨rfl, rfl, fun _ => ⟨Nat.zero_lt_succ _, fun is => absurd is (Ne.symm Bool.false_ne_true), fun _ => rfl⟩⟩, rfl, rfl, fun _ => rfl,
    fun _ => rfl, rfl, fun worker => ⟨rfl, ?_⟩⟩
  cases worker <;> decide

def workerRuns : List (CoreEvent Bool Unit) := [.startup false, .startup true, .start]

theorem sample_reachable (events : List (CoreEvent Bool Unit)) (fine : ∀ event ∈ events, CoreFine event)
    {k : Core Bool Unit} (reached : run (Core.step 3) sampleCore events = some k) :
    KernelReachable 3 k :=
  ⟨_, events, sample_booted, fine, reached⟩

/-- `rt_schedule` in a reachable state: when the scheduler is not locked and some
thread can run, one runs that no ready thread outranks. -/
theorem best_thread_runs [Fintype τ] (reachable : KernelReachable turns k) (enough : Fintype.card τ < turns)
    (unlocked : k.world.lockNest = 0)
    (can : ∃ thread, (k.world.thread thread).stat = .ready ∨ (k.world.thread thread).stat = .running)
    (scheduled : Core.step turns k .schedule = some final) :
    ∃ next, final.world.current = some next ∧ (final.world.thread next).stat = .running ∧
      ∀ other, (final.world.thread other).stat = .ready →
        (final.world.thread next).currentPriority ≤ (final.world.thread other).currentPriority := by
  obtain ⟨now, deadline, healthy⟩ := reachable.healthy enough
  obtain ⟨current, is, rfl⟩ := Option.map_eq_some_iff.mp scheduled
  refine rtSchedule_best healthy.sound unlocked is ?_
  obtain ⟨thread, ready | runs⟩ := can
  · exact .inr ⟨thread, ready⟩
  · cases is.symm.trans (healthy.sound.running thread runs)
    exact .inl runs

theorem best_thread_runs_sample : ∃ k final,
    run (Core.step 3) sampleCore (workerRuns ++ [.suspend, .schedule, .resume true]) = some k ∧
    k.world.current = some false ∧ Core.step 3 k .schedule = some final ∧ final.world.current = some true ∧
    ∃ next, final.world.current = some next ∧ (final.world.thread next).stat = .running ∧
      ∀ other, (final.world.thread other).stat = .ready →
        (final.world.thread next).currentPriority ≤ (final.world.thread other).currentPriority := by
  refine ⟨_, _, rfl, rfl, rfl, rfl, ?_⟩
  have reachable := sample_reachable (workerRuns ++ [.suspend, .schedule, .resume true]) (by decide) rfl
  exact best_thread_runs reachable (by decide) rfl ⟨true, .inl rfl⟩ rfl

omit [DecidableEq ι] in
private theorem rtSchedule_same {s : Scheduler τ ι} (sound : Sound s) (thread : τ) :
    (s.rtSchedule.thread thread).error = (s.thread thread).error ∧
      ((s.rtSchedule.thread thread).stat = .ready ∨ (s.rtSchedule.thread thread).stat = .running ↔
        (s.thread thread).stat = .ready ∨ (s.thread thread).stat = .running) := by
  rcases rtSchedule_cases sound with ⟨same, _⟩ | ⟨fromThread, head, rest, highest, _, current, best, ⟨stays, is⟩ | ⟨_, is⟩⟩
  · rw [same]
    exact ⟨rfl, .rfl⟩
  · rw [is]
    refine ⟨?_, by rw [((kept_spec sound current stays.1).2.2.2 thread).1]⟩
    simp only [kept, Scheduler.update_thread, Scheduler.remove_thread, clearYield]
    split
    · split <;> rfl
    · rfl
  · rw [is, (switched_spec sound current best).2.2.2.1 thread]
    split
    next same => rw [same]; exact ⟨rfl, iff_of_true (.inr rfl) (.inl (best.ready sound.linked).1)⟩
    next =>
      split
      next same =>
        rw [same]
        unfold leaving
        split
        next runs => exact ⟨rfl, iff_of_true (.inl rfl) (.inr runs)⟩
        · exact ⟨rfl, .rfl⟩
      next => exact ⟨rfl, .rfl⟩

section Abstraction

/-- What the threads of the watch see of the scheduler while one of them runs. -/
def view (s : Scheduler τ ι) (current : τ) : SmartWatch.Kernel τ where
  current := current
  ready thread := (s.thread thread).stat = .ready ∨ (s.thread thread).stat = .running
  error thread := (s.thread thread).error
  priority thread := (s.thread thread).currentPriority

def better (kernel : SmartWatch.Kernel τ) (best thread : τ) : τ :=
  if kernel.ready best = false ∨ kernel.priority thread < kernel.priority best then thread else best

omit [DecidableEq τ] in
/-- One of the best threads is chosen, and the first candidate if it is as good. -/
private theorem better_spec (kernel : SmartWatch.Kernel τ) (threads : List τ)
    (ready : ∀ thread ∈ threads, kernel.ready thread = true) (start : τ) :
    let best := threads.foldl (better kernel) start
    (best = start ∨ best ∈ threads) ∧ (kernel.ready best = false → threads = []) ∧
      (∀ thread ∈ threads, kernel.priority best ≤ kernel.priority thread) ∧
      (kernel.ready start = true → kernel.priority best ≤ kernel.priority start ∧
        ((∀ thread ∈ threads, kernel.priority start ≤ kernel.priority thread) → best = start)) := by
  induction threads generalizing start with
  | nil =>
    exact ⟨.inl rfl, fun _ => rfl, fun _ member => absurd member List.not_mem_nil, fun _ => ⟨Nat.le_refl _, fun _ => rfl⟩⟩
  | cons thread threads ih =>
    have here := ready thread List.mem_cons_self
    obtain ⟨among, unready, least, stays⟩ :=
      ih (fun other member => ready other (List.mem_cons_of_mem _ member)) (better kernel start thread)
    have next : kernel.ready (better kernel start thread) = true := by
      unfold better
      split
      · exact here
      next keeps => simpa using (not_or.mp keeps).1
    have no_worse : kernel.priority (better kernel start thread) ≤ kernel.priority thread ∧
        (kernel.ready start = true → kernel.priority (better kernel start thread) ≤ kernel.priority start) := by
      unfold better
      split
      next takes =>
        refine ⟨Nat.le_refl _, fun is => ?_⟩
        rcases takes with unready | less
        · rw [is] at unready; cases unready
        · exact Nat.le_of_lt less
      next keeps => exact ⟨Nat.le_of_not_lt (not_or.mp keeps).2, fun _ => Nat.le_refl _⟩
    obtain ⟨no_later, same⟩ := stays next
    refine ⟨?_, fun is => ?_, fun other member => ?_, fun is => ⟨Nat.le_trans no_later (no_worse.2 is), fun all => ?_⟩⟩
    · rcases among with is | inside
      · rw [List.foldl_cons, is]
        unfold better
        split
        · exact .inr List.mem_cons_self
        · exact .inl rfl
      · exact .inr (List.mem_cons_of_mem _ inside)
    · have := unready is
      rw [List.foldl_cons, this, List.foldl_nil, next] at is
      cases is
    · rcases List.mem_cons.mp member with rfl | inside
      · exact Nat.le_trans no_later no_worse.1
      · exact least other inside
    · have first : better kernel start thread = start := by
        unfold better
        rw [if_neg (not_or.mpr ⟨by rw [is]; exact Ne.symm Bool.false_ne_true, Nat.not_lt.mpr (all thread List.mem_cons_self)⟩)]
      rw [first] at same
      rw [List.foldl_cons, first]
      exact same fun other member => all other (List.mem_cons_of_mem _ member)

/-- The thread that gets the processor is the one the abstract scheduler chooses, or
ready beside it with the same priority. -/
theorem scheduler_refines [Fintype τ] (reachable : KernelReachable turns k) (enough : Fintype.card τ < turns)
    (unlocked : k.world.lockNest = 0) (current : k.world.current = some thread)
    (steady : (k.world.thread thread).yield = false) (threads : List τ) (all : ∀ other, other ∈ threads)
    (scheduled : Core.step turns k .schedule = some final) :
    ∃ next, final.world.current = some next ∧
      (view final.world next).ready = (rtSchedule threads (view k.world thread)).ready ∧
      let chosen := (rtSchedule threads (view k.world thread)).current
      chosen = next ∨ (k.world.thread chosen).stat = .ready ∧ (k.world.thread next).stat = .ready ∧
        (k.world.thread chosen).currentPriority = (k.world.thread next).currentPriority := by
  obtain ⟨now, deadline, healthy⟩ := reachable.healthy enough
  have sound := healthy.sound
  obtain ⟨_, _, rfl⟩ := Option.map_eq_some_iff.mp scheduled
  have ready_same (next : τ) : (view k.world.rtSchedule next).ready = (view k.world thread).ready := by
    funext other
    simp only [view, decide_eq_decide]
    exact (rtSchedule_same sound other).2
  let ready := threads.filter (view k.world thread).ready
  have members (other : τ) : other ∈ ready ↔ (k.world.thread other).stat = .ready ∨ (k.world.thread other).stat = .running := by
    rw [List.mem_filter]
    simp [view, all other]
  obtain ⟨among, unready, least, stays⟩ :=
    better_spec (view k.world thread) ready (fun other member => (List.mem_filter.mp member).2) thread
  have fold : (rtSchedule threads (view k.world thread)).current = ready.foldl (better (view k.world thread)) thread := rfl
  simp only [fold]
  generalize ready.foldl (better (view k.world thread)) thread = chosen at among unready least stays
  rcases rtSchedule_cases sound with ⟨same, why⟩ | ⟨fromThread, head, rest, highest, _, was, best, how⟩
  · have none : ∀ other, (k.world.thread other).stat ≠ .ready := by
      rcases why with locked | unstarted | none
      · exact absurd unlocked locked
      · rw [current] at unstarted; cases unstarted
      · exact none
    refine ⟨thread, by rw [show (k.on (·.rtSchedule)).world = k.world from same]; exact current, ready_same thread, .inl ?_⟩
    rcases among with is | inside
    · exact is
    · have runs := ((members chosen).mp inside).resolve_left (none chosen)
      exact Option.some.inj ((sound.running chosen runs).symm.trans current)
  · cases was.symm.trans current
    obtain ⟨head_ready, head_priority⟩ := best.ready sound.linked
    rcases how with ⟨stay, is⟩ | ⟨gives, is⟩
    · refine ⟨thread, by rw [show (k.on (·.rtSchedule)).world = _ from is]; exact (kept_spec sound was stay.1).2.1,
        ready_same thread, .inl ?_⟩
      refine (stays (by simp [view, stay.1])).2 fun other member => ?_
      change (k.world.thread thread).currentPriority ≤ (k.world.thread other).currentPriority
      rcases (members other).mp member with ready | runs
      · have := best.least other ready
        rcases stay.2 with ahead | ⟨even, _⟩ <;> omega
      · cases (sound.running other runs).symm.trans current
        exact Nat.le_refl _
    · refine ⟨head, by rw [show (k.on (·.rtSchedule)).world = _ from is]; exact (switched_spec sound was best).2.1,
        ready_same head, .inr ?_⟩
      have low : (k.world.thread chosen).currentPriority ≤ (k.world.thread head).currentPriority :=
        least head ((members head).mpr (.inl head_ready))
      have outranked : (k.world.thread thread).stat = .running →
          highest < (k.world.thread thread).currentPriority := fun runs =>
        Nat.lt_of_not_le fun ahead => gives ⟨runs, (Nat.lt_or_eq_of_le ahead).imp id fun even => ⟨even, steady⟩⟩
      have chosen_ready : (k.world.thread chosen).stat = .ready := by
        have can : (k.world.thread chosen).stat = .ready ∨ (k.world.thread chosen).stat = .running := by
          rcases among with same | inside
          · by_contra out
            have := unready (by simpa [view, not_or] using out)
            have := (members head).mpr (.inl head_ready)
            simp_all
          · exact (members chosen).mp inside
        refine can.resolve_right fun runs => ?_
        cases (sound.running chosen runs).symm.trans current
        have := outranked runs
        omega
      exact ⟨chosen_ready, head_ready, Nat.le_antisymm low (head_priority ▸ best.least chosen chosen_ready)⟩

theorem scheduler_refines_sample : ∃ k final,
    run (Core.step 3) sampleCore (workerRuns ++ [.suspend, .schedule, .resume true]) = some k ∧
    Core.step 3 k .schedule = some final ∧ (rtSchedule [false, true] (view k.world false)).current = true ∧
    ∃ next, final.world.current = some next ∧
      (view final.world next).ready = (rtSchedule [false, true] (view k.world false)).ready := by
  refine ⟨_, _, rfl, rfl, rfl, ?_⟩
  have reachable := sample_reachable (workerRuns ++ [.suspend, .schedule, .resume true]) (by decide) rfl
  obtain ⟨next, runs, ready, _⟩ := scheduler_refines reachable (by decide) rfl rfl rfl [false, true] (by decide) rfl
  exact ⟨next, runs, ready⟩

end Abstraction

section Sleeping
variable {now : Nat} {deadline : τ → Nat} {event : CoreEvent τ ι} {time : UInt32}

/-- A thread whose time has run out. -/
def TimedOut (s : Scheduler τ ι) (thread : τ) : Prop :=
  (s.thread thread).error = .etimeout ∧ ((s.thread thread).stat = .ready ∨ (s.thread thread).stat = .running)

omit [DecidableEq ι] in
theorem timeout_timed {s : Scheduler τ ι} (sound : Sound s) {other : τ} (asleep : (s.thread other).stat = .suspend) :
    TimedOut (s.rtThreadTimeout other) other ∧
      ∀ thread, TimedOut s thread → TimedOut (s.rtThreadTimeout other) thread := by
  have errored : Sound (s.update other fun t => { t with error := .etimeout }) :=
    sound.keeps (error_keeps .etimeout) other
  have resumed : Sound (((s.update other fun t => { t with error := .etimeout }).unlink other).rtScheduleInsertThread other) :=
    resume_sound errored (by simpa using asleep)
  have through : ∀ thread,
      TimedOut (((s.update other fun t => { t with error := .etimeout }).unlink other).rtScheduleInsertThread other)
      thread → TimedOut (s.rtThreadTimeout other) thread := fun thread ⟨error, stat⟩ =>
    ⟨(rtSchedule_same resumed thread).1.trans error, (rtSchedule_same resumed thread).2.mpr stat⟩
  refine ⟨through other ?_, fun thread timed => through thread ?_⟩
  · refine ⟨by simp [insert_thread, woken], ?_⟩
    rw [insert_thread, if_pos rfl]
    unfold woken
    dsimp only
    split
    · exact .inr rfl
    · exact .inl rfl
  · have different : thread ≠ other := fun same => by
      have := timed.2
      rw [same, asleep] at this
      rcases this with is | is <;> cases is
    simpa [TimedOut, insert_thread, different] using timed

private theorem due_wakes [Fintype τ] (healthy : Healthy now deadline k) (enough : Fintype.card τ < turns)
    (due : Due now deadline k thread) (ticked : Core.step turns k .tick = some final) :
    TimedOut final.world thread := by
  obtain ⟨current, _, checked⟩ := Option.bind_eq_some_iff.mp ticked
  obtain ⟨⟨agenda, settled, none⟩, sound, asleep⟩ := healthy
  have sliced : Moves (fun _ => False) (fun _ => False) k.world (k.world.timeSlice current) := timeSlice_moves
  have begun : Agenda 1 (now + 1) deadline { k.on (·.timeSlice current) with tick := k.tick + 1 } :=
    agenda.ticked.congr rfl rfl (.refl _) fun _ _ => ⟨rfl, rfl⟩
  let holds (_ : τ → Nat) (s : Core τ ι) : Prop :=
    Sound s.world ∧ (∀ other ∈ s.list, (s.world.thread other).stat = .suspend) ∧ (thread ∈ s.list ∨ TimedOut s.world thread)
  obtain ⟨later, _, _, waits | timed⟩ := check_rule kernel holds (fun due s timer rest later settled first new ripe untouched held => by
    obtain ⟨sound, asleep, state⟩ := held
    obtain ⟨world, list⟩ := kernel_fire settled first
    have stat := asleep timer (first ▸ List.mem_cons_self)
    have moves : Moves (· = timer) (fun _ => False) s.world (s.world.rtThreadTimeout timer) := timeout_moves stat rfl
    change Sound (s.fire Core.threadTimeout timer).world ∧ (∀ other ∈ (s.fire Core.threadTimeout timer).list,
      ((s.fire Core.threadTimeout timer).world.thread other).stat = .suspend) ∧
      (thread ∈ (s.fire Core.threadTimeout timer).list ∨ TimedOut (s.fire Core.threadTimeout timer).world thread)
    rw [world, list]
    refine ⟨moves.sound sound, fun other inside => ?_, ?_⟩
    · exact moves.asleep sound (asleep other (first ▸ List.mem_cons_of_mem _ inside)) fun is => new (is ▸ inside)
    · rcases state with waits | timed
      · rw [first] at waits
        rcases List.mem_cons.mp waits with rfl | inside
        · exact .inr (timeout_timed sound stat).1
        · exact .inl inside
      · exact .inr ((timeout_timed sound stat).2 thread timed))
    begun settled none
    ⟨sliced.sound sound, fun other member => sliced.asleep sound (asleep other member) not_false, .inl due.1⟩ checked
  · have started : Kept kernel now deadline (k.on (·.timeSlice current)) :=
      ⟨agenda.congr rfl rfl (.refl _) fun _ _ => ⟨rfl, rfl⟩, settled, none⟩
    obtain ⟨after, _, stepped, _, tracked⟩ :=
      step_kept kernel started (.tick : TimerEvent τ (Scheduler τ ι)) trivial enough
    cases checked.symm.trans stepped
    have restarted := (Passed.due (tracked thread (kernel_leaves thread) trivial) due.1 due.2).1
    exact absurd waits (restarted.oneshot ((settled thread).2.2 rfl))
  · exact timed

omit [DecidableEq ι] in
theorem Kept.armed (kept : Kept kernel now deadline k) (thread : τ) (small : time.toNat < half) :
    Kept kernel now (fun other => if other = thread then now + time.toNat else deadline other)
        ((waitCalls thread (some time)).foldl Timers.call k) ∧
      thread ∈ ((waitCalls thread (some time)).foldl Timers.call k).list := by
  have stopped := kept.call kernel (.stop thread) trivial
  have set := stopped.call kernel (.setTime thread time) ⟨small, fun is => absurd is (Ne.symm Bool.false_ne_true)⟩
  have started := set.call kernel (.start thread) trivial
  refine ⟨?_, by simp [waitCalls, Timers.call, Timers.rtTimerStart]⟩
  have same : dueAfter ((k.call (.stop thread)).call (.setTime thread time)) now
      (dueAfter (k.call (.stop thread)) now (dueAfter k now deadline (.stop thread)) (.setTime thread time)) (.start thread) =
      fun other => if other = thread then now + time.toNat else deadline other := by
    funext other
    simp [dueAfter, Timers.call]
  rw [same] at started
  exact started

def Sleeps (time : UInt32) (event : CoreEvent τ ι) : Prop :=
  event = .sleep time ∨ ∃ object, event = .wait object (some time)

theorem falls_asleep (healthy : Healthy now deadline k) (runs : k.running = some thread) (sleeps : Sleeps time event)
    (small : time.toNat < half) (entered : Core.step turns k event = some final) :
    ∃ later, Healthy now later final ∧ (final.world.thread thread).stat = .suspend ∧ thread ∈ final.list ∧
      later thread = now + time.toNat := by
  have effect : ∃ world, Effect k event (waitCalls thread (some time)) world ∧ (world.thread thread).stat = .suspend ∧
      final = { (waitCalls thread (some time)).foldl Timers.call k with world } := by
    rcases sleeps with rfl | ⟨object, rfl⟩
    · exact sleep_effect runs small entered
    · exact wait_effect runs (fun _ is => by cases is; exact small) entered
  obtain ⟨world, effect, asleep, rfl⟩ := effect
  obtain ⟨⟨agenda, settled, none⟩, member⟩ := Kept.armed healthy.kept thread small
  obtain ⟨_, ends, _⟩ := effect.healthy healthy
  exact ⟨_, ⟨⟨agenda.congr rfl rfl (.refl _) fun _ _ => ⟨rfl, rfl⟩, settled, none⟩, ends.sound, ends.asleep⟩, asleep, member,
    if_pos rfl⟩

private theorem sleeps_on [Fintype τ] (enough : Fintype.card τ < turns) {wake : Nat} (events : List (CoreEvent τ ι))
    (healthy : Healthy now deadline k) (asleep : (k.world.thread thread).stat = .suspend) (member : thread ∈ k.list)
    (due : deadline thread = wake) (fine : ∀ event ∈ events, CoreFine event)
    (spares : Taken (Core.step turns) (fun k event => ¬Wakes k (fun _ => False) event thread) k events)
    (reached : run (Core.step turns) k events = some final)
    (early : now + events.countP isCoreTick < max (now + 1) wake) :
    ∃ later, Healthy (now + events.countP isCoreTick) later final ∧ (final.world.thread thread).stat = .suspend ∧
      thread ∈ final.list ∧ later thread = wake := by
  induction events generalizing k now deadline with
  | nil =>
    cases reached
    exact ⟨deadline, healthy, asleep, member, due⟩
  | cons event events ih =>
    obtain ⟨next, stepped, rest⟩ := run_cons reached
    obtain ⟨later, ends, moves, untouched⟩ := step_healthy healthy enough (fine event List.mem_cons_self) stepped
    rw [List.countP_cons] at early ⊢
    have spared : ¬Wakes k (Due now deadline k) event thread := by
      cases event with
      | tick =>
        intro due_now
        have : deadline thread ≤ now + 1 := due_now.2
        simp only [isCoreTick, ite_true] at early
        omega
      | _ => exact spares.1
    have same := untouched thread asleep spared
    obtain ⟨last, final_healthy, final_asleep, final_member, final_due⟩ :=
      ih ends (moves.asleep healthy.sound asleep spared) (same.listed.mpr member) (same.deadline.trans due)
        (fun other inside => fine other (List.mem_cons_of_mem _ inside)) (spares.2 next stepped) rest
        (by generalize (if isCoreTick event = true then 1 else 0) = one at early ⊢; omega)
    refine ⟨last, ?_, final_asleep, final_member, final_due⟩
    rw [Nat.add_comm (events.countP isCoreTick), ← Nat.add_assoc]
    exact final_healthy

/-- A thread that sleeps for some ticks, or waits for an object that long, and that
nobody wakes before, is suspended until exactly the tick it asked for, and can run
again from that tick on with the error of a timeout. -/
theorem sleeper_wakes_on_time [Fintype τ] (reachable : KernelReachable turns k) (enough : Fintype.card τ < turns)
    (runs : k.running = some thread) (sleeps : Sleeps time event) (small : time.toNat < half) {asleep : Core τ ι}
    (entered : Core.step turns k event = some asleep) (events : List (CoreEvent τ ι))
    (fine : ∀ event ∈ events, CoreFine event)
    (spares : Taken (Core.step turns) (fun k event => ¬Wakes k (fun _ => False) event thread) asleep events)
    (reached : run (Core.step turns) asleep events = some final) :
    (events.countP isCoreTick < max 1 time.toNat → (final.world.thread thread).stat = .suspend) ∧
      (events.countP isCoreTick = max 1 time.toNat → events.getLast? = some .tick → TimedOut final.world thread) := by
  obtain ⟨now, deadline, healthy⟩ := reachable.healthy enough
  obtain ⟨later, begun, suspended, member, due⟩ := falls_asleep healthy runs sleeps small entered
  refine ⟨fun early => ?_, fun count last => ?_⟩
  · obtain ⟨_, _, still, _⟩ := sleeps_on enough events begun suspended member due fine spares reached (by omega)
    exact still
  · obtain ⟨before, rfl⟩ := List.getLast?_eq_some_iff.mp last
    rw [List.countP_append] at count
    rw [run_append] at reached
    obtain ⟨middle, first, rest⟩ := Option.bind_eq_some_iff.mp reached
    have ticks : before.countP isCoreTick + 1 = max 1 time.toNat := count
    obtain ⟨middle_deadline, ends, _, inside, when⟩ := sleeps_on enough before begun suspended member due
      (fun other inside => fine other (List.mem_append_left _ inside)) spares.front first (by omega)
    obtain ⟨after, ticked, is⟩ := run_cons rest
    cases is
    exact due_wakes ends enough ⟨inside, by omega⟩ ticked

/-- The worker sleeps for two ticks, and the counter wraps meanwhile. -/
theorem sleeper_wakes_on_time_sample : ∃ k asleep final, run (Core.step 3) sampleCore workerRuns = some k ∧
    Core.step 3 k (.sleep 2) = some asleep ∧ run (Core.step 3) asleep [.schedule, .tick, .tick] = some final ∧
    TimedOut final.world true := by
  refine ⟨_, _, _, rfl, rfl, rfl, ?_⟩
  have reachable := sample_reachable workerRuns (by decide) rfl
  have sleeps : Sleeps 2 (.sleep 2 : CoreEvent Bool Unit) := .inl rfl
  refine (sleeper_wakes_on_time reachable (by decide) rfl sleeps (by decide) rfl
    [.schedule, .tick, .tick] (by decide) ?_ rfl).2 (by decide) rfl
  exact ⟨not_false, fun _ _ => ⟨not_false, fun _ _ => ⟨not_false, fun _ _ => trivial⟩⟩⟩

end Sleeping

end SmartWatch.Proofs.KernelRuns
