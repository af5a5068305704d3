import SmartWatch.Proofs.ThreadStates
import SmartWatch.Proofs.Timers

/-! The threads with their timers over whole runs: what every event keeps. -/

namespace SmartWatch.Proofs.Kernel
open Runs Deadlines SmartWatch.Proofs.TimerList SmartWatch.Proofs.Timers SmartWatch.Proofs.ReadyQueue
  SmartWatch.Proofs.ThreadStates

variable {τ ι : Type} [DecidableEq τ] [DecidableEq ι]

/-- The timers of the threads are one-shot, and `rt_thread_timeout` calls no timer. -/
def kernel : System τ (Scheduler τ ι) where
  timeout := Core.threadTimeout
  plain _ := true
  fine _ _ _ member := absurd member List.not_mem_nil
  starts _ _ _ member := absurd member List.not_mem_nil

omit [DecidableEq ι] in
theorem kernel_leaves (thread : τ) : (kernel : System τ (Scheduler τ ι)).Leaves thread :=
  fun _ _ _ member => absurd member List.not_mem_nil

/-- The times that `rt_timer_start` asserts, and the priorities there are. -/
def CoreFine : CoreEvent τ ι → Prop
  | .sleep time | .wait _ (some time) => time.toNat < half
  | .changePriority _ priority => priority < 32
  | _ => True

instance : (event : CoreEvent τ ι) → Decidable (CoreFine event)
  | .sleep time | .wait _ (some time) => inferInstanceAs (Decidable (time.toNat < half))
  | .changePriority _ priority => inferInstanceAs (Decidable (priority < 32))
  | .start | .schedule | .tick | .startup _ | .resume _ | .reap | .suspend | .yield | .enterCritical
  | .exitCritical | .exit
  | .wait _ none | .wakeFirst _ | .failFirst _ => isTrue trivial

def isCoreTick : CoreEvent τ ι → Bool
  | .tick => true
  | _ => false

/-- The threads that an event may wake; `due` are those whose timers fire at a tick. -/
def Wakes (k : Core τ ι) (due : τ → Prop) : CoreEvent τ ι → τ → Prop
  | .tick => due
  | .startup thread | .resume thread => (· = thread)
  | .wakeFirst object | .failFirst object => fun thread => (k.world.waiting object).head? = some thread
  | _ => fun _ => False

def Ranks : CoreEvent τ ι → τ → Prop
  | .changePriority thread _ => (· = thread)
  | _ => fun _ => False

instance : (event : CoreEvent τ ι) → (thread : τ) → Decidable (Ranks event thread)
  | .changePriority other _, thread => inferInstanceAs (Decidable (thread = other))
  | .start, _ | .schedule, _ | .tick, _ | .startup _, _ | .resume _, _ | .reap, _ | .suspend, _ | .sleep _, _
  | .yield, _ | .enterCritical, _ | .exitCritical, _ | .exit, _ | .wait _ _, _ | .wakeFirst _, _
  | .failFirst _, _ => isFalse not_false

/-- Only suspended threads have a timer running. -/
structure Healthy (now : Nat) (deadline : τ → Nat) (k : Core τ ι) : Prop where
  kept : Kept kernel now deadline k
  sound : Sound k.world
  asleep : ∀ thread ∈ k.list, (k.world.thread thread).stat = .suspend

section Moving
variable {s : Scheduler τ ι} {wakes ranks : τ → Prop} {thread : τ}

theorem error_keeps (code : Err) : Keeps fun t => { t with error := code } := fun _ => ⟨rfl, rfl, rfl, rfl⟩

theorem tick_keeps : Keeps fun t => { t with remainingTick := t.remainingTick - 1 } := fun _ => ⟨rfl, rfl, rfl, rfl⟩

theorem yield_keeps : Keeps fun t => { t with remainingTick := t.initTick, yield := true } :=
  fun _ => ⟨rfl, rfl, rfl, rfl⟩

theorem timeout_moves (asleep : (s.thread thread).stat = .suspend) (woken : wakes thread) :
    Moves wakes ranks s (s.rtThreadTimeout thread) :=
  ((Relation.ReflTransGen.single (.keeps thread _ (error_keeps .etimeout))).tail
    (.resume thread woken (by simpa using asleep))).tail .schedule

theorem timeSlice_moves : Moves wakes ranks s (s.timeSlice thread) := by
  have first : Moves wakes ranks s _ := .single (.keeps thread _ tick_keeps)
  unfold Scheduler.timeSlice
  dsimp only
  split
  · exact (first.tail (.keeps thread _ yield_keeps)).tail .schedule
  · exact first

theorem moves_widen {more : τ → Prop} (grows : ∀ other, wakes other → more other) {after : Scheduler τ ι}
    (moves : Moves wakes ranks s after) : Moves more ranks s after := by
  refine Relation.ReflTransGen.mono (fun one two move => ?_) _ _ moves
  cases move with
  | keeps thread change keeps => exact .keeps thread change keeps
  | lock nest => exact .lock nest
  | schedule => exact .schedule
  | start unstarted some_ready => exact .start unstarted some_ready
  | startup thread new => exact .startup thread new
  | resume thread woken asleep => exact .resume thread (grows thread woken) asleep
  | suspend thread current runs => exact .suspend thread current runs
  | wait object thread current runs => exact .wait object thread current runs
  | exit thread current runs => exact .exit thread current runs
  | reap => exact .reap
  | priority thread priority small ranked => exact .priority thread priority small ranked

end Moving

section Tick
variable {k after : Core τ ι} {now : Nat} {deadline : τ → Nat} {thread : τ} {rest : List τ} {turns : Nat}

omit [DecidableEq ι] in
theorem kernel_fire (settled : Settled (fun _ => true) k) (first : k.list = thread :: rest) :
    (k.fire Core.threadTimeout thread).world = k.world.rtThreadTimeout thread ∧
      (k.fire Core.threadTimeout thread).list = rest := by
  have oneshot := (settled thread).2.2 rfl
  unfold Timers.fire
  simp [Core.threadTimeout, first, oneshot]

/-- The tick interrupt wakes the threads whose timers are due, and no others. -/
theorem tick_moves (healthy : Healthy now deadline k)
    (checked : Timers.rtTimerCheck Core.threadTimeout turns { k.on (·.timeSlice thread) with tick := k.tick + 1 } =
      some after) :
    Moves (fun other => other ∈ k.list ∧ deadline other ≤ now + 1) (fun _ => False) k.world after.world ∧
      ∀ other ∈ after.list, (after.world.thread other).stat = .suspend := by
  obtain ⟨⟨agenda, settled, none⟩, sound, asleep⟩ := healthy
  let holds (due : τ → Nat) (s : Core τ ι) : Prop :=
    Moves (fun other => other ∈ k.list ∧ deadline other ≤ now + 1) (fun _ => False) k.world s.world ∧
      ∀ other ∈ s.list, other ∈ k.list ∧ due other = deadline other ∧ (s.world.thread other).stat = .suspend
  have sliced : Moves (fun _ => False) (fun _ => False) k.world (k.world.timeSlice thread) := timeSlice_moves
  have start : holds deadline { k.on (·.timeSlice thread) with tick := k.tick + 1 } :=
    ⟨moves_widen (fun _ is => is.elim) sliced, fun other member => ⟨member, rfl, sliced.asleep sound (asleep other member) not_false⟩⟩
  have begun : Agenda 1 (now + 1) deadline { k.on (·.timeSlice thread) with tick := k.tick + 1 } :=
    agenda.ticked.congr rfl rfl (.refl _) fun _ _ => ⟨rfl, rfl⟩
  obtain ⟨later, moves, all⟩ := check_rule kernel holds (fun due s timer rest later settled first new ripe untouched held => by
    obtain ⟨moves, all⟩ := held
    obtain ⟨world, list⟩ := kernel_fire settled first
    obtain ⟨member, same, stat⟩ := all timer (first ▸ List.mem_cons_self)
    have woken : Moves (· = timer) (fun _ => False) s.world (s.world.rtThreadTimeout timer) := timeout_moves stat rfl
    refine ⟨?_, fun other inside => ?_⟩
    · change Moves _ _ k.world (s.fire Core.threadTimeout timer).world
      rw [world]
      exact moves.trans (moves_widen (fun other is => is ▸ ⟨member, same ▸ ripe⟩) woken)
    · change other ∈ (s.fire Core.threadTimeout timer).list at inside
      change _ ∧ _ ∧ ((s.fire Core.threadTimeout timer).world.thread other).stat = _
      rw [list] at inside
      rw [world]
      have different : other ≠ timer := fun is => new (is ▸ inside)
      obtain ⟨old, equal, still⟩ := all other (first ▸ List.mem_cons_of_mem _ inside)
      exact ⟨old, (untouched other (kernel_leaves other) different).deadline.trans equal,
        woken.asleep (moves.sound sound) still different⟩)
    begun settled none start checked
  exact ⟨moves, fun other member => (all other member).2.2⟩

end Tick

section Events
variable {k after : Core τ ι} {now : Nat} {deadline : τ → Nat} {due : τ → Prop} {event : CoreEvent τ ι} {turns : Nat}
  {thread : τ}

omit [DecidableEq ι] in
private theorem calls_world (k : Core τ ι) (calls : List (TimerCall τ)) (world : Scheduler τ ι) :
    calls.foldl Timers.call { k with world } = { calls.foldl Timers.call k with world } := by
  induction calls generalizing k with
  | nil => rfl
  | cons call calls ih =>
    have first : Timers.call { k with world } call = { Timers.call k call with world } := by
      cases call with
      | stop timer =>
        simp only [Timers.call, Timers.rtTimerStop]
        split <;> rfl
      | start timer | detach timer | setTime timer time | setOneshot timer | setPeriodic timer => rfl
    rw [List.foldl_cons, first]
    exact ih _

private theorem calls_list {ω : Type} (s : Timers τ ω) (calls : List (TimerCall τ)) {timer : τ}
    (member : timer ∈ (calls.foldl Timers.call s).list) : timer ∈ s.list ∨ .start timer ∈ calls := by
  induction calls generalizing s with
  | nil => exact .inl member
  | cons call calls ih =>
    rcases ih _ member with inside | started
    · rcases call_listed s 0 (fun _ => 0) call inside with ⟨old, _⟩ | ⟨rfl, _⟩
      · exact .inl old
      · exact .inr List.mem_cons_self
    · exact .inr (List.mem_cons_of_mem _ started)

/-- An event other than the tick: calls about the timers of the threads it concerns,
and moves of threads. -/
structure Effect (k : Core τ ι) (event : CoreEvent τ ι) (calls : List (TimerCall τ))
    (world : Scheduler τ ι) : Prop where
  moves : Moves (Wakes k (fun _ => False) event) (Ranks event) k.world world
  fine : ∀ call ∈ calls, Fine (kernel : System τ (Scheduler τ ι)).plain call
  starts : ∀ thread, .start thread ∈ calls → (world.thread thread).stat = .suspend
  wakes : ∀ thread, Wakes k (fun _ => False) event thread → thread ∉ (calls.foldl Timers.call k).list
  about : ∀ call ∈ calls, Wakes k (fun _ => False) event call.timer ∨ k.running = some call.timer

/-- An event that concerns no timer and wakes nobody. -/
theorem Effect.quiet {world : Scheduler τ ι}
    (moves : Moves (Wakes k (fun _ => False) event) (Ranks event) k.world world)
    (wakes : ∀ thread, ¬Wakes k (fun _ => False) event thread) : Effect k event [] world :=
  ⟨moves, fun _ member => absurd member List.not_mem_nil, fun _ member => absurd member List.not_mem_nil,
    fun thread woken => absurd woken (wakes thread), fun _ member => absurd member List.not_mem_nil⟩

omit [DecidableEq τ] [DecidableEq ι] in
theorem running_spec (runs : k.running = some thread) :
    k.world.current = some thread ∧ (k.world.thread thread).stat = .running := by
  obtain ⟨current, is⟩ := Option.filter_eq_some_iff.mp runs
  exact ⟨current, of_decide_eq_true is⟩

omit [DecidableEq ι] in
theorem Healthy.stopped (healthy : Healthy now deadline k) (thread : τ) : thread ∉ (k.rtTimerStop thread).list := by
  unfold Timers.rtTimerStop
  split
  · exact healthy.kept.agenda.nodup.not_mem_erase
  next idle => exact fun member => idle (healthy.kept.agenda.active thread member)

/-- A suspended thread is taken out of its list and becomes ready. -/
theorem woken_effect (healthy : Healthy now deadline k)
    (wakes : ∀ other, Wakes k (fun _ => False) event other ↔ other = thread) {world : Scheduler τ ι}
    (asleep : (world.thread thread).stat = .suspend)
    (moves : Moves (Wakes k (fun _ => False) event) (Ranks event) k.world
      ((world.unlink thread).rtScheduleInsertThread thread)) :
    ∃ calls final, Effect k event calls final ∧
      Core.rtThreadResume { k with world } thread = { calls.foldl Timers.call k with world := final } := by
  refine ⟨[.stop thread], (world.unlink thread).rtScheduleInsertThread thread, ⟨moves, ?_, ?_, ?_, ?_⟩, ?_⟩
  · simp [Fine]
  · simp
  · intro other woken
    rw [(wakes other).mp woken]
    exact healthy.stopped thread
  · intro call member
    rw [List.mem_singleton.mp member]
    exact .inl ((wakes thread).mpr rfl)
  · unfold Core.rtThreadResume
    rw [if_neg (not_not_intro asleep)]
    exact congrArg (fun k : Core τ ι => k.on (·.rtScheduleInsertThread thread)) (calls_world k [.stop thread] (world.unlink thread))

private theorem resume_effect (healthy : Healthy now deadline k)
    (wakes : ∀ other, Wakes k (fun _ => False) event other ↔ other = thread) :
    ∃ calls world, Effect k event calls world ∧
      k.rtThreadResume thread = { calls.foldl Timers.call k with world } := by
  by_cases asleep : (k.world.thread thread).stat = .suspend
  · exact woken_effect healthy wakes asleep (.single (.resume thread ((wakes thread).mpr rfl) asleep))
  · refine ⟨[], k.world, ⟨.refl, fun _ member => absurd member List.not_mem_nil, fun _ member => absurd member List.not_mem_nil,
      fun other woken member => ?_, fun _ member => absurd member List.not_mem_nil⟩, ?_⟩
    · rw [(wakes other).mp woken] at member
      exact asleep (healthy.asleep thread member)
    · unfold Core.rtThreadResume
      rw [if_pos asleep]
      rfl

/-- What a thread that suspends itself does with its timer. -/
def waitCalls (thread : τ) : Option UInt32 → List (TimerCall τ)
  | none => [.stop thread]
  | some time => [.stop thread, .setTime thread time, .start thread]

omit [DecidableEq τ] in
theorem mem_waitCalls {thread : τ} {time : Option UInt32} {call : TimerCall τ}
    (member : call ∈ waitCalls thread time) :
    call = .stop thread ∨ ∃ ticks, time = some ticks ∧ (call = .setTime thread ticks ∨ call = .start thread) := by
  cases time <;> simpa [waitCalls] using member

/-- The thread that runs suspends itself, for a time or for good. -/
theorem suspend_effect (event : CoreEvent τ ι) (runs : k.running = some thread) {world : Scheduler τ ι}
    (wakes : ∀ other, ¬Wakes k (fun _ => False) event other)
    (moves : Moves (Wakes k (fun _ => False) event) (Ranks event) k.world world)
    (stat : (world.thread thread).stat = .suspend) {time : Option UInt32}
    (small : ∀ ticks, time = some ticks → ticks.toNat < half) : Effect k event (waitCalls thread time) world := by
  refine ⟨moves, fun call member => ?_, fun other member => ?_, fun other woken => absurd woken (wakes other), fun call member => ?_⟩
  · rcases mem_waitCalls member with rfl | ⟨ticks, is, rfl | rfl⟩
    · trivial
    · exact ⟨small ticks is, fun is => absurd is (Ne.symm Bool.false_ne_true)⟩
    · trivial
  · rcases mem_waitCalls member with is | ⟨_, _, is | is⟩ <;> cases is
    exact stat
  · rcases mem_waitCalls member with rfl | ⟨ticks, is, rfl | rfl⟩ <;> exact .inr runs

omit [DecidableEq ι] in
private theorem suspend_eq (runs : k.running = some thread) :
    k.rtThreadSuspend thread =
      { ([.stop thread] : List (TimerCall τ)).foldl Timers.call k with world := leave k.world thread .suspend } := by
  have stat := (running_spec runs).2
  unfold Core.rtThreadSuspend
  rw [if_neg (fun is => is.2 stat), leave_suspend]
  exact calls_world k [.stop thread] _

theorem sleep_effect {time : UInt32} (runs : k.running = some thread) (small : time.toNat < half)
    (stepped : Core.step turns k (.sleep time) = some after) :
    ∃ world, Effect k (.sleep time) (waitCalls thread (some time)) world ∧ (world.thread thread).stat = .suspend ∧
      after = { (waitCalls thread (some time)).foldl Timers.call k with world } := by
  obtain ⟨current, stat⟩ := running_spec runs
  have asleep : ((leave k.world thread .suspend).thread thread).stat = .suspend := by simp [leave]
  refine ⟨leave k.world thread .suspend, suspend_effect (.sleep time) runs (fun _ => not_false)
    (.single (.suspend thread current stat)) asleep fun _ is => by cases is; exact small, asleep, ?_⟩
  simp only [Core.step, runs, Option.map_some, Option.some.injEq] at stepped
  rw [← stepped, suspend_eq runs]
  rfl

theorem wait_effect {object : ι} {time : Option UInt32} (runs : k.running = some thread)
    (small : ∀ ticks, time = some ticks → ticks.toNat < half)
    (stepped : Core.step turns k (.wait object time) = some after) :
    ∃ world, Effect k (.wait object time) (waitCalls thread time) world ∧ (world.thread thread).stat = .suspend ∧
      after = { (waitCalls thread time).foldl Timers.call k with world } := by
  obtain ⟨current, stat⟩ := running_spec runs
  let ready := k.world.update thread fun t => { t with error := .eok }
  have moves : Moves (fun _ => False) (fun _ => False) k.world ((leave ready thread .suspend).enqueue object thread) :=
    (Relation.ReflTransGen.single (.keeps thread _ (error_keeps .eok))).tail
      (.wait object thread (by simpa [ready] using current) (by simpa [ready] using stat))
  have asleep : (((leave ready thread .suspend).enqueue object thread).thread thread).stat = .suspend := by
    simp [leave, Scheduler.enqueue]
  have runs_still : Core.running { k with world := ready } = some thread := by
    unfold Core.running
    simp [ready, current, stat]
  have suspended := suspend_eq runs_still
  rw [calls_world k _ ready] at suspended
  refine ⟨_, suspend_effect (.wait object time) runs (fun _ => not_false) moves asleep small, asleep, ?_⟩
  simp only [Core.step, runs, Option.map_some, Option.some.injEq] at stepped
  rw [← stepped]
  dsimp only [Core.setError, Core.on]
  rw [suspended]
  cases time <;> rfl

/-- Every event but the tick is one effect. -/
theorem step_effect (healthy : Healthy now deadline k) (fine : CoreFine event) (other : isCoreTick event = false)
    (stepped : Core.step turns k event = some after) :
    ∃ calls world, Effect k event calls world ∧ after = { calls.foldl Timers.call k with world } := by
  cases event with
  | tick => cases other
  | start =>
    simp only [Core.step] at stepped
    split at stepped
    next ready =>
      cases stepped
      exact ⟨[], _, .quiet (.single (.start ready.1 ready.2)) fun _ => not_false, rfl⟩
    next => cases stepped
  | schedule =>
    obtain ⟨_, _, rfl⟩ := Option.map_eq_some_iff.mp stepped
    exact ⟨[], _, .quiet (.single .schedule) fun _ => not_false, rfl⟩
  | startup thread =>
    simp only [Core.step] at stepped
    split at stepped
    next new =>
      cases stepped
      exact woken_effect healthy (fun _ => .rfl) (by simp) (.single (.startup thread new))
    next => cases stepped
  | resume thread =>
    cases stepped
    exact resume_effect healthy fun _ => .rfl
  | changePriority thread priority =>
    cases stepped
    exact ⟨[], _, .quiet (.single (.priority thread priority fine rfl)) fun _ => not_false, rfl⟩
  | reap =>
    cases stepped
    exact ⟨[], _, .quiet (.single .reap) fun _ => not_false, rfl⟩
  | suspend =>
    obtain ⟨thread, runs, rfl⟩ := Option.map_eq_some_iff.mp stepped
    obtain ⟨current, stat⟩ := running_spec runs
    have effect : Effect k .suspend (waitCalls thread none) (leave k.world thread .suspend) :=
      suspend_effect .suspend runs (fun _ => not_false) (.single (.suspend thread current stat)) (by simp [leave])
        fun _ is => by cases is
    exact ⟨_, _, effect, suspend_eq runs⟩
  | sleep time =>
    obtain ⟨thread, runs, _⟩ := Option.map_eq_some_iff.mp stepped
    obtain ⟨world, effect, _, is⟩ := sleep_effect runs fine stepped
    exact ⟨_, world, effect, is⟩
  | yield =>
    obtain ⟨thread, runs, rfl⟩ := Option.map_eq_some_iff.mp stepped
    exact ⟨[], _, .quiet ((Relation.ReflTransGen.single (.keeps thread _ yield_keeps)).tail .schedule) fun _ => not_false, rfl⟩
  | enterCritical =>
    obtain ⟨thread, runs, rfl⟩ := Option.map_eq_some_iff.mp stepped
    exact ⟨[], _, .quiet (.single (.lock _)) fun _ => not_false, rfl⟩
  | exitCritical =>
    obtain ⟨thread, runs, rfl⟩ := Option.map_eq_some_iff.mp stepped
    refine ⟨[], _, .quiet ?_ fun _ => not_false, rfl⟩
    dsimp only [Core.on]
    split <;> exact .single (.lock _)
  | exit =>
    obtain ⟨thread, runs, rfl⟩ := Option.map_eq_some_iff.mp stepped
    obtain ⟨current, stat⟩ := running_spec runs
    refine ⟨[.detach thread], bury (leave k.world thread .close) thread, ⟨.single (.exit thread current stat), ?_, ?_, ?_, ?_⟩, ?_⟩
    · simp [Fine]
    · simp
    · exact fun _ => False.elim
    · intro call member
      rw [List.mem_singleton.mp member]
      exact .inr runs
    · unfold Core.rtThreadExit
      rw [leave_close]
      rfl
  | wait object time =>
    obtain ⟨thread, runs, _⟩ := Option.map_eq_some_iff.mp stepped
    obtain ⟨world, effect, _, is⟩ := wait_effect runs (fun ticks is => by cases is; exact fine) stepped
    exact ⟨_, world, effect, is⟩
  | wakeFirst object =>
    obtain ⟨thread, first, rfl⟩ := Option.map_eq_some_iff.mp stepped
    exact resume_effect healthy fun other => by simp [Wakes, first, eq_comm]
  | failFirst object =>
    obtain ⟨thread, first, rfl⟩ := Option.map_eq_some_iff.mp stepped
    have asleep := (healthy.sound.linked.waits object thread (List.mem_of_head? first)).2
    have wakes : ∀ other, Wakes k (fun _ => False) (.failFirst object) other ↔ other = thread :=
      fun other => by simp [Wakes, first, eq_comm]
    refine woken_effect healthy wakes (by simpa using asleep) ?_
    exact (Relation.ReflTransGen.single (.keeps thread _ (error_keeps .error))).tail
      (.resume thread ((wakes thread).mpr rfl) (by simpa using asleep))

end Events

section Runs
variable {k after : Core τ ι} {now : Nat} {deadline : τ → Nat} {event : CoreEvent τ ι} {turns : Nat} {thread : τ}

/-- The threads whose timers fire at the next tick. -/
def Due (now : Nat) (deadline : τ → Nat) (k : Core τ ι) (thread : τ) : Prop :=
  thread ∈ k.list ∧ deadline thread ≤ now + 1

theorem Effect.healthy {calls : List (TimerCall τ)} {world : Scheduler τ ι} (healthy : Healthy now deadline k)
    (effect : Effect k event calls world) :
    ∃ later, Healthy now later { calls.foldl Timers.call k with world } ∧
      ∀ thread, (k.world.thread thread).stat = .suspend → ¬Wakes k (fun _ => False) event thread →
        Untouched thread deadline k later { calls.foldl Timers.call k with world } := by
  obtain ⟨moves, fine, starts, wakes, about⟩ := effect
  obtain ⟨later, ⟨agenda, settled, none⟩, untouched⟩ := healthy.kept.calls kernel calls fine
  refine ⟨later, ⟨⟨agenda.congr rfl rfl (.refl _) fun _ _ => ⟨rfl, rfl⟩, settled, none⟩, moves.sound healthy.sound,
    fun thread member => ?_⟩, fun thread asleep spared => ?_⟩
  · rcases calls_list k calls member with old | started
    · exact moves.asleep healthy.sound (healthy.asleep thread old) fun woken => wakes thread woken member
    · exact starts thread started
  · have same := untouched thread fun call member is => by
      rcases about call member with woken | runs
      · exact spared (is ▸ woken)
      · have running := (running_spec runs).2
        rw [is, asleep] at running
        cases running
    exact ⟨same.fields, same.listed, same.temporary, same.deadline⟩

/-- What every event keeps, and which threads it may wake. -/
theorem step_healthy [Fintype τ] (healthy : Healthy now deadline k) (enough : Fintype.card τ < turns)
    (fine : CoreFine event) (stepped : Core.step turns k event = some after) :
    ∃ later, Healthy (now + if isCoreTick event then 1 else 0) later after ∧
      Moves (Wakes k (Due now deadline k) event) (Ranks event) k.world after.world ∧
      ∀ thread, (k.world.thread thread).stat = .suspend → ¬Wakes k (Due now deadline k) event thread →
        Untouched thread deadline k later after := by
  by_cases tick : isCoreTick event = true
  · cases event with
    | tick =>
      obtain ⟨current, _, checked⟩ := Option.bind_eq_some_iff.mp stepped
      obtain ⟨moves, asleep⟩ := tick_moves healthy checked
      have sliced : Kept kernel now deadline (k.on (·.timeSlice current)) :=
        ⟨healthy.kept.agenda.congr rfl rfl (.refl _) fun _ _ => ⟨rfl, rfl⟩, healthy.kept.settled, healthy.kept.temporary⟩
      obtain ⟨final, later, stepped, kept, tracked⟩ :=
        step_kept kernel sliced (.tick : TimerEvent τ (Scheduler τ ι)) trivial enough
      cases checked.symm.trans stepped
      refine ⟨later, ⟨kept, moves.sound healthy.sound, asleep⟩, moves, fun thread _ spared => ?_⟩
      have same := (Passed.spared (tracked thread (kernel_leaves thread) trivial) spared).1
      exact ⟨same.fields, same.listed, same.temporary, same.deadline⟩
    | _ => cases tick
  · rw [Bool.not_eq_true] at tick
    obtain ⟨calls, world, effect, rfl⟩ := step_effect healthy fine tick stepped
    have same : Wakes k (Due now deadline k) event = Wakes k (fun _ => False) event := by
      cases event with
      | tick => cases tick
      | _ => rfl
    obtain ⟨later, ends, untouched⟩ := effect.healthy healthy
    rw [same, if_neg (by rw [tick]; exact Bool.false_ne_true)]
    exact ⟨later, ends, effect.moves, untouched⟩

/-- The kernel before the first thread is started. -/
structure Booted (k : Core τ ι) : Prop where
  idle : Idle kernel k
  current : k.world.current = none
  group : k.world.group = 0
  table : ∀ priority, k.world.table priority = []
  waiting : ∀ object, k.world.waiting object = []
  defunct : k.world.defunct = []
  new : ∀ thread, (k.world.thread thread).stat = .init ∧ (k.world.thread thread).initPriority < 32

def KernelReachable (turns : Nat) (k : Core τ ι) : Prop :=
  ∃ first events, Booted first ∧ (∀ event ∈ events, CoreFine event) ∧ run (Core.step turns) first events = some k

omit [DecidableEq ι] in
theorem Booted.healthy (booted : Booted k) : Healthy k.tick.toNat (fun _ => 0) k := by
  obtain ⟨idle, current, group, table, waiting, defunct, new⟩ := booted
  refine ⟨idle.kept, ⟨⟨fun thread priority => ?_, fun priority => ?_, fun priority inside => ?_, fun thread started => ?_,
    fun thread => (new thread).2, fun object thread member => ?_, fun object => ?_, fun one two thread member => ?_,
    fun thread member => ?_, ?_⟩, fun thread runs => ?_, fun thread is => ?_⟩, fun thread member => ?_⟩
  · rw [table]
    refine iff_of_false List.not_mem_nil fun is => ?_
    have := is.2.1
    rw [(new thread).1] at this
    cases this
  · rw [table]; exact List.nodup_nil
  · rw [table, group]; simp
  · exact absurd (new thread).1 started
  · rw [waiting] at member; cases member
  · rw [waiting]; exact List.nodup_nil
  · rw [waiting] at member; cases member
  · rw [defunct] at member; cases member
  · rw [defunct]; exact List.nodup_nil
  · rw [(new thread).1] at runs; cases runs
  · rw [current] at is; cases is
  · rw [idle.list] at member; cases member

theorem KernelReachable.healthy [Fintype τ] (reachable : KernelReachable turns k) (enough : Fintype.card τ < turns) :
    ∃ now deadline, Healthy now deadline k := by
  obtain ⟨first, events, booted, fine, reached⟩ := reachable
  refine run_guarded (fun _ event => CoreFine event) (fun k => ∃ now deadline, Healthy now deadline k)
    (fun state event next ⟨now, deadline, healthy⟩ ok taken => ?_)
    ⟨_, _, booted.healthy⟩ (taken_of_mem events (fun event member _ => fine event member) first) reached
  obtain ⟨later, ends, _⟩ := step_healthy healthy enough ok taken
  exact ⟨_, later, ends⟩

end Runs

end SmartWatch.Proofs.Kernel
