import SmartWatch.Proofs.KernelRuns

/-! Who comes first: ready threads of one priority in the order they became ready,
waiting threads by their priorities, and the time slices. -/

namespace SmartWatch.Proofs.Fairness
open Runs Deadlines Queues SmartWatch.Proofs.TimerList SmartWatch.Proofs.Timers SmartWatch.Proofs.ReadyQueue
  SmartWatch.Proofs.ThreadStates SmartWatch.Proofs.Kernel SmartWatch.Proofs.KernelRuns

section Ready
variable {τ ι : Type} [DecidableEq τ] {s after : Scheduler τ ι} {thread one two : τ} {priority : Nat} {base : List τ}

private theorem insert_table (s : Scheduler τ ι) (thread : τ) (priority : Nat) :
    (s.table priority).Sublist ((s.rtScheduleInsertThread thread).table priority) := by
  unfold Scheduler.rtScheduleInsertThread
  split
  · exact .refl _
  · dsimp only
    split
    · exact List.sublist_append_left _ _
    · exact .refl _

private theorem switched_switches (s : Scheduler τ ι) (thread head : τ) :
    (switched s thread head).switches = s.switches ++ [head] := by
  unfold switched putBack
  rw [show ∀ (s : Scheduler τ ι) change, (s.update head change).switches = s.switches from fun _ _ => rfl, remove_switches]
  dsimp only
  split
  · exact (insert_same _ thread).2.2.2.2
  · rfl

private theorem kept_table (sound : Sound s) (runs : (s.thread thread).stat = .running) (priority : Nat) :
    (kept s thread).table priority = s.table priority ∧ (kept s thread).switches = s.switches := by
  refine ⟨?_, remove_switches _ thread⟩
  refine (Scheduler.remove_table (s.update thread clearYield) thread priority).trans (sound.linked.table_erase fun is => ?_)
  rw [runs] at is
  cases is.1

omit [DecidableEq τ] in
/-- The first ready thread of the best priority is served. -/
theorem InOrder.served (sound : Sound s) {head : τ} {rest : List τ} {highest : Nat} (best : Best s head rest highest)
    (different : one ≠ two) (order : InOrder base one two (s.table priority) s.switches) {queue : List τ}
    (kept : head ≠ one → head ≠ two → [one, two].Sublist (s.table priority) → [one, two].Sublist queue) :
    InOrder base one two queue (s.switches ++ [head]) := by
  have behind (precedes : [one, two].Sublist (s.table priority)) : head ≠ two := by
    rintro rfl
    have place := ((sound.linked.listed head priority).mp
      (precedes.subset (List.mem_cons_of_mem _ (List.mem_singleton_self head)))).2.2
    rw [(best.ready sound.linked).2] at place
    subst place
    rw [best.table] at precedes
    exact head_ne (best.table ▸ sound.linked.nodup highest) different precedes rfl
  exact order.serve behind fun first precedes => kept first (behind precedes) precedes

theorem Move.in_order [DecidableEq ι] {wakes ranks : τ → Prop} (move : Move wakes ranks s after) (sound : Sound s)
    (different : one ≠ two) (spared : ¬ranks one ∧ ¬ranks two)
    (order : InOrder base one two (s.table priority) s.switches) :
    InOrder base one two (after.table priority) after.switches := by
  -- A thread that is not ready is not in the table.
  have erased (other : τ) (idle : (s.thread other).stat ≠ .ready) : (s.table priority).erase other = s.table priority :=
    sound.linked.table_erase fun is => idle is.1
  cases move with
  | keeps other change keeps => exact order
  | lock nest => exact order
  | schedule =>
    rcases rtSchedule_cases sound with ⟨same, _⟩ | ⟨fromThread, head, rest, highest, _, current, best, ⟨stays, is⟩ | ⟨_, is⟩⟩
    · rw [same]; exact order
    · rw [is, (kept_table sound stays.1 priority).1, (kept_table sound stays.1 priority).2]; exact order
    · rw [is, switched_switches, (switched_spec sound current best).2.2.2.2 priority]
      refine InOrder.served sound best different order fun first second precedes => precedes_erase first second ?_
      split
      · exact precedes.trans (List.sublist_append_left _ _)
      · exact precedes
  | start unstarted some_ready =>
    obtain ⟨_, head, rest, highest, best, _, switches, table, _⟩ := start_sound sound unstarted some_ready
    rw [switches, table]
    exact InOrder.served sound best different order precedes_erase
  | startup other new =>
    have out := erased other (by rw [new]; exact nofun)
    rw [(insert_same _ other).2.2.2.2]
    refine order.keep fun precedes => List.Sublist.trans ?_ (insert_table _ other priority)
    change [one, two].Sublist ((s.table priority).erase other)
    rwa [out]
  | resume other woken asleep =>
    have out := erased other (by rw [asleep]; exact nofun)
    rw [(insert_same _ other).2.2.2.2]
    refine order.keep fun precedes => List.Sublist.trans ?_ (insert_table _ other priority)
    change [one, two].Sublist ((s.table priority).erase other)
    rwa [out]
  | suspend other current runs =>
    rw [(leave_lists sound .suspend).2.1, erased other (by rw [runs]; exact nofun)]
    rwa [show (leave s other .suspend).switches = s.switches from remove_switches s other]
  | wait object other current runs =>
    change InOrder base one two ((leave s other .suspend).table priority) (leave s other .suspend).switches
    rw [(leave_lists sound .suspend).2.1, erased other (by rw [runs]; exact nofun)]
    rwa [show (leave s other .suspend).switches = s.switches from remove_switches s other]
  | exit other current runs =>
    change InOrder base one two ((leave s other .close).table priority) (leave s other .close).switches
    rw [(leave_lists sound .close).2.1, erased other (by rw [runs]; exact nofun)]
    rwa [show (leave s other .close).switches = s.switches from remove_switches s other]
  | reap => exact order
  | priority other number small ranked =>
    have first : other ≠ one := fun same => spared.1 (same ▸ ranked)
    have second : other ≠ two := fun same => spared.2 (same ▸ ranked)
    unfold Scheduler.changePriority
    dsimp only
    split
    · rw [(insert_same _ other).2.2.2.2]
      change InOrder base one two _ (s.rtScheduleRemoveThread other).switches
      rw [remove_switches]
      refine order.keep fun precedes => List.Sublist.trans ?_ (insert_table _ other priority)
      rw [Scheduler.update_table, Scheduler.remove_table]
      exact precedes_erase first second precedes
    · exact order

theorem Moves.in_order [DecidableEq ι] {wakes ranks : τ → Prop} (moves : Moves wakes ranks s after) (sound : Sound s)
    (different : one ≠ two) (spared : ¬ranks one ∧ ¬ranks two)
    (order : InOrder base one two (s.table priority) s.switches) :
    InOrder base one two (after.table priority) after.switches := by
  induction moves with
  | refl => exact order
  | tail before move ih => exact Move.in_order move (Moves.sound before sound) different spared ih

end Ready

section Waiting
variable {τ ι : Type} [DecidableEq τ] {s middle after : Scheduler τ ι} {object : ι}

/-- Nobody has begun to wait for an object, and the priorities of those who still do
are as they were. -/
structure Calm (object : ι) (s after : Scheduler τ ι) : Prop where
  sublist : (after.waiting object).Sublist (s.waiting object)
  flag : after.byPriority object = s.byPriority object
  priority : ∀ thread ∈ after.waiting object, (after.thread thread).currentPriority = (s.thread thread).currentPriority

namespace Calm

omit [DecidableEq τ] in
theorem trans (one : Calm object s middle) (two : Calm object middle after) : Calm object s after :=
  ⟨two.sublist.trans one.sublist, two.flag.trans one.flag,
    fun thread member => (two.priority thread member).trans (one.priority thread (two.sublist.subset member))⟩

omit [DecidableEq τ] in
theorem same (waiting : after.waiting = s.waiting) (flag : after.byPriority = s.byPriority)
    (thread : after.thread = s.thread) :
    Calm object s after := by
  refine ⟨?_, ?_, fun _ _ => ?_⟩
  · rw [waiting]
  · rw [flag]
  · rw [thread]

theorem update (s : Scheduler τ ι) (thread : τ) {change : ThreadState → ThreadState}
    (kept : ∀ t, (change t).currentPriority = t.currentPriority) : Calm object s (s.update thread change) := by
  refine ⟨.refl _, rfl, fun other _ => ?_⟩
  simp only [Scheduler.update_thread]
  split
  · exact kept _
  · rfl

theorem unlink (s : Scheduler τ ι) (thread : τ) : Calm object s (s.unlink thread) :=
  ⟨List.erase_sublist, rfl, fun _ _ => rfl⟩

theorem remove (s : Scheduler τ ι) (thread : τ) : Calm object s (s.rtScheduleRemoveThread thread) := by
  have first : Calm object s (s.unlink thread) := unlink s thread
  unfold Scheduler.rtScheduleRemoveThread
  dsimp only
  split
  · exact ⟨first.sublist, first.flag, first.priority⟩
  · exact first

theorem insert (s : Scheduler τ ι) (thread : τ) : Calm object s (s.rtScheduleInsertThread thread) := by
  have changed (stat : Stat) : Calm object s (s.update thread fun t => { t with stat }) :=
    update s thread fun _ => rfl
  unfold Scheduler.rtScheduleInsertThread
  split
  · exact changed .running
  · exact ⟨(changed .ready).sublist, (changed .ready).flag, (changed .ready).priority⟩

/-- A thread that does not wait for the object may get any priority. -/
theorem change {thread : τ} {number : Nat} (out : thread ∉ s.waiting object) :
    Calm object s (s.changePriority thread number) := by
  have changed (s : Scheduler τ ι) (out : thread ∉ s.waiting object) : Calm object s (s.update thread fun t =>
      { t with currentPriority := number, numberMask := 1#32 <<< number }) := by
    refine ⟨.refl _, rfl, fun other member => ?_⟩
    have different : other ≠ thread := fun same => out (same ▸ member)
    simp [different]
  unfold Scheduler.changePriority
  dsimp only
  split
  · have still := changed _ fun member => out ((remove s thread).sublist.subset member)
    exact ((remove s thread).trans still).trans (insert _ thread)
  · exact changed s out

theorem rtSchedule (sound : Sound s) : Calm object s s.rtSchedule := by
  rcases rtSchedule_cases sound with ⟨same, _⟩ | ⟨fromThread, head, rest, highest, _, current, best, ⟨stays, is⟩ | ⟨_, is⟩⟩
  · rw [same]
    exact .same rfl rfl rfl
  · rw [is]
    have cleared : Calm object s (s.update fromThread clearYield) := update s fromThread fun t => (clearYield_keeps t).2.1
    exact (cleared.trans (remove _ fromThread)).trans (update _ fromThread fun _ => rfl)
  · rw [is]
    have away : Calm object s (putBack s fromThread head) := by
      have left : Calm object s
          { s.update fromThread clearYield with current := some head, switches := s.switches ++ [head] } :=
        (update s fromThread fun t => (clearYield_keeps t).2.1).trans (.same rfl rfl rfl)
      unfold putBack
      dsimp only
      split
      · exact left.trans (insert _ fromThread)
      · exact left
    exact (away.trans (remove _ head)).trans (update _ head fun _ => rfl)

theorem leave (s : Scheduler τ ι) (thread : τ) (stat : Stat) : Calm object s (leave s thread stat) :=
  (remove s thread).trans (update _ thread fun _ => rfl)

end Calm

/-- The threads that wait for an object, in the order of their priorities. -/
def ByPriority (object : ι) (s : Scheduler τ ι) : Prop :=
  (s.waiting object).Pairwise fun first second => (s.thread first).currentPriority ≤ (s.thread second).currentPriority

omit [DecidableEq τ] in
theorem Calm.ordered (calm : Calm object s after) (ordered : ByPriority object s) : ByPriority object after := by
  refine (ordered.sublist calm.sublist).imp_of_mem fun {first second} inside within order => ?_
  rw [calm.priority first inside, calm.priority second within]
  exact order

theorem Move.by_priority [DecidableEq ι] {wakes : τ → Prop} (move : Move wakes (fun _ => False) s after)
    (sound : Sound s) (flag : s.byPriority object = true) (ordered : ByPriority object s) :
    after.byPriority object = true ∧ ByPriority object after := by
  have calmly (calm : Calm object s after) : after.byPriority object = true ∧ ByPriority object after :=
    ⟨calm.flag.trans flag, calm.ordered ordered⟩
  cases move with
  | keeps other change keeps => exact calmly (.update s other fun t => (keeps t).2.1)
  | lock nest => exact calmly (.same rfl rfl rfl)
  | schedule => exact calmly (.rtSchedule sound)
  | start unstarted some_ready =>
    obtain ⟨head, rest, highest, best⟩ := sound.linked.best some_ready
    have started : Calm object s { s with current := some head, switches := s.switches ++ [head] } :=
      .same rfl rfl rfl
    unfold Scheduler.rtSystemSchedulerStart at calmly ⊢
    rw [best.chosen] at calmly ⊢
    exact calmly ((started.trans (.remove _ head)).trans (.update _ head fun _ => rfl))
  | startup other new =>
    have begun : Calm object s (s.update other begun) := by
      refine ⟨.refl _, rfl, fun waiting member => ?_⟩
      have different : waiting ≠ other := fun same => by
        have := (sound.linked.waits object waiting member).2
        rw [same, new] at this
        cases this
      simp [different]
    exact calmly ((begun.trans (.unlink _ other)).trans (.insert _ other))
  | resume other woken asleep => exact calmly ((Calm.unlink s other).trans (.insert _ other))
  | suspend other current runs => exact calmly (.leave s other .suspend)
  | wait target other current runs =>
    have left : Calm object s (leave s other .suspend) := .leave s other .suspend
    refine ⟨left.flag.trans flag, ?_⟩
    have kept := left.ordered ordered
    unfold ByPriority Scheduler.enqueue
    dsimp only
    split
    next same =>
      subst same
      refine sorted_insert kept fun waiting member => ?_
      rw [left.flag, flag]
      simp
    next => exact kept
  | exit other current runs =>
    have left : Calm object s (leave s other .close) := .leave s other .close
    exact calmly ⟨left.sublist, left.flag, left.priority⟩
  | reap => exact calmly (.same rfl rfl rfl)
  | priority other number small ranked => exact ranked.elim

theorem Moves.by_priority [DecidableEq ι] {wakes : τ → Prop} (moves : Moves wakes (fun _ => False) s after)
    (sound : Sound s) (flag : s.byPriority object = true) (ordered : ByPriority object s) :
    after.byPriority object = true ∧ ByPriority object after := by
  induction moves with
  | refl => exact ⟨flag, ordered⟩
  | tail before move ih => exact Move.by_priority move (Moves.sound before sound) ih.1 ih.2

end Waiting

section Runs
variable {τ ι : Type} [DecidableEq τ] [DecidableEq ι] [Fintype τ] {k final : Core τ ι} {turns : Nat} {one two : τ}
  {object : ι} {priority : Nat}

/-- An idle thread and two others with their priorities and a time slice of two ticks. -/
def trio (first second : Nat) : Core (Fin 3) Unit where
  tick := 0xffffffff
  timer _ := {}
  world :=
    { byPriority := fun _ => true
      thread := fun number =>
        let priority := if number.val = 0 then 31 else if number.val = 1 then first else second
        { initPriority := priority, currentPriority := priority, initTick := 2, remainingTick := 2 } }

theorem trio_booted {first second : Nat} (small : first < 32 ∧ second < 32) : Booted (trio first second) := by
  refine ⟨⟨rfl, rfl, fun _ => ⟨Nat.zero_lt_succ _, fun is => absurd is (Ne.symm Bool.false_ne_true), fun _ => rfl⟩⟩, rfl, rfl,
    fun _ => rfl, fun _ => rfl, rfl, fun number => ⟨rfl, ?_⟩⟩
  simp only [trio]
  split
  · exact Nat.lt_succ_self 31
  · split
    · exact small.1
    · exact small.2

/-- Of two ready threads of one priority the first gets the processor before the
second, whatever happens, unless the priority of one of them is changed. -/
theorem ready_queue_in_order (reachable : KernelReachable turns k) (enough : Fintype.card τ < turns)
    (precedes : [one, two].Sublist (k.world.table priority)) (events : List (CoreEvent τ ι))
    (fine : ∀ event ∈ events, CoreFine event) (spares : ∀ event ∈ events, ¬Ranks event one ∧ ¬Ranks event two)
    (reached : run (Core.step turns) k events = some final)
    (served : k.world.switches.count two < final.world.switches.count two) :
    ∃ front back, final.world.switches = k.world.switches ++ (front ++ back) ∧ one ∈ front ∧ two ∉ front := by
  obtain ⟨now, deadline, healthy⟩ := reachable.healthy enough
  have different : one ≠ two := fun same => by
    have nodup := (healthy.sound.linked.nodup priority).sublist precedes
    simp [same] at nodup
  have kept : (∃ now deadline, Healthy now deadline final) ∧
      InOrder k.world.switches one two (final.world.table priority) final.world.switches := by
    refine run_guarded (fun _ event => CoreFine event ∧ ¬Ranks event one ∧ ¬Ranks event two)
      (fun state => (∃ now deadline, Healthy now deadline state) ∧
        InOrder k.world.switches one two (state.world.table priority) state.world.switches)
      (fun state event next ⟨⟨now, deadline, healthy⟩, order⟩ ⟨fine, spared⟩ taken => ?_) ⟨⟨now, deadline, healthy⟩, .begin precedes⟩
      (taken_of_mem events (fun event member _ => ⟨fine event member, spares event member⟩) _) reached
    obtain ⟨later, ends, moves, _⟩ := step_healthy healthy enough fine taken
    exact ⟨⟨_, later, ends⟩, Moves.in_order moves healthy.sound different spared order⟩
  exact kept.2.served_first served

theorem ready_queue_in_order_sample : ∃ k final, run (Core.step 4) (trio 5 5)
    [.startup 0, .startup 1, .startup 2] = some k ∧
    run (Core.step 4) k [.start, .tick, .tick] = some final ∧ final.world.switches = [1, 2] ∧
    ∃ front back, final.world.switches = k.world.switches ++ (front ++ back) ∧ 1 ∈ front ∧ 2 ∉ front := by
  refine ⟨_, _, rfl, rfl, rfl, ?_⟩
  have reachable : KernelReachable 4 ((((trio 5 5).rtThreadStartup 0).rtThreadStartup 1).rtThreadStartup 2) :=
    ⟨_, [.startup 0, .startup 1, .startup 2], trio_booted (show 5 < 32 ∧ 5 < 32 by decide), by decide, rfl⟩
  have precedes : [1, 2].Sublist (((((trio 5 5).rtThreadStartup 0).rtThreadStartup 1).rtThreadStartup 2).world.table 5) := .refl _
  exact ready_queue_in_order reachable (by decide) precedes [.start, .tick, .tick] (by decide) (by decide) rfl (by decide)

/-- No thread that waits for the object gets another priority. -/
def Unranked (object : ι) (k : Core τ ι) (event : CoreEvent τ ι) : Prop :=
  ∀ thread ∈ k.world.waiting object, ¬Ranks event thread

/-- In an object that was created for waiting by priority, the thread that is woken next
has the best priority of those that wait. -/
theorem first_waiter_is_best {first : Core τ ι} (booted : Booted first) (flag : first.world.byPriority object = true)
    (enough : Fintype.card τ < turns) (events : List (CoreEvent τ ι)) (fine : ∀ event ∈ events, CoreFine event)
    (unranked : Taken (Core.step turns) (Unranked object) first events)
    (reached : run (Core.step turns) first events = some k) {thread : τ}
    (next : (k.world.waiting object).head? = some thread) :
    ∀ other ∈ k.world.waiting object,
      (k.world.thread thread).currentPriority ≤ (k.world.thread other).currentPriority := by
  have kept : (∃ now deadline, Healthy now deadline k) ∧ k.world.byPriority object = true ∧ ByPriority object k.world := by
    refine run_guarded (fun state event => CoreFine event ∧ Unranked object state event)
      (fun state => (∃ now deadline, Healthy now deadline state) ∧ state.world.byPriority object = true ∧
        ByPriority object state.world)
      (fun state event after ⟨⟨now, deadline, healthy⟩, flag, ordered⟩ ⟨fine, spared⟩ taken => ?_)
      ⟨⟨_, _, booted.healthy⟩, flag, by rw [ByPriority, booted.waiting]; exact .nil⟩ (unranked.and_mem fine) reached
    obtain ⟨later, ends, moves, _⟩ := step_healthy healthy enough fine taken
    refine ⟨⟨_, later, ends⟩, ?_⟩
    cases event with
    | changePriority thread number =>
      cases taken
      have calm : Calm object state.world (state.world.changePriority thread number) :=
        .change fun member => spared thread member rfl
      exact ⟨calm.flag.trans flag, calm.ordered ordered⟩
    | _ => exact Moves.by_priority moves healthy.sound flag ordered
  obtain ⟨rest, is⟩ : ∃ rest, k.world.waiting object = thread :: rest := List.head?_eq_some_iff.mp next
  have ordered := kept.2.2
  rw [ByPriority, is] at ordered
  rw [is]
  intro other member
  rcases List.mem_cons.mp member with rfl | behind
  · exact Nat.le_refl _
  · exact (List.pairwise_cons.mp ordered).1 other behind

/-- The better thread comes second and is woken first. -/
theorem first_waiter_is_best_sample : ∃ k, run (Core.step 4) (trio 7 5)
      [.startup 0, .startup 1, .start, .wait () none, .schedule, .startup 2, .schedule, .wait () (some 9)] = some k ∧
    k.world.waiting () = [2, 1] ∧
    ∀ other ∈ k.world.waiting (), (k.world.thread 2).currentPriority ≤ (k.world.thread other).currentPriority := by
  refine ⟨_, rfl, rfl, ?_⟩
  have unranked : ∀ event ∈ ([.startup 0, .startup 1, .start, .wait () none, .schedule, .startup 2, .schedule, .wait () (some 9)] :
      List (CoreEvent (Fin 3) Unit)), ∀ thread, ¬Ranks event thread := by decide
  exact first_waiter_is_best (trio_booted (show 7 < 32 ∧ 5 < 32 by decide)) rfl
    (show Fintype.card (Fin 3) < 4 by decide) _ (by decide)
    (taken_of_mem _ (fun event member _ thread _ => unranked event member thread) _) rfl rfl

end Runs

section Slices
variable {τ ι : Type} [DecidableEq τ] [DecidableEq ι] {k : Core τ ι} {turns priority ticks : Nat} {thread head : τ}
  {queue rest : List τ}

/-- A thread runs, threads of its priority wait for the processor, no ready thread has
a better one, and no timer is due for some ticks. -/
structure Turning (priority : Nat) (thread : τ) (queue : List τ) (ticks : Nat) (k : Core τ ι) : Prop where
  healthy : ∃ now deadline, Healthy now deadline k ∧ ∀ sleeper ∈ k.list, now + ticks < deadline sleeper
  unlocked : k.world.lockNest = 0
  current : k.world.current = some thread
  runs : (k.world.thread thread).stat = .running
  level : (k.world.thread thread).currentPriority = priority
  table : k.world.table priority = queue
  best : ∀ other, (k.world.thread other).stat = .ready → priority ≤ (k.world.thread other).currentPriority
  slices : ∀ other ∈ thread :: queue, (k.world.thread other).remainingTick ≠ 0 ∧ (k.world.thread other).initTick ≠ 0

/-- How many ticks are left of the slice of a thread. -/
def left (k : Core τ ι) (thread : τ) : Nat := (k.world.thread thread).remainingTick.toNat

omit [DecidableEq ι] in
theorem check_idle {now : Nat} {deadline : τ → Nat} (agenda : Agenda 1 now deadline k)
    (all : ∀ sleeper ∈ k.list, now < deadline sleeper) (some_turns : 0 < turns) :
    Timers.rtTimerCheck Core.threadTimeout turns k = some k := by
  cases turns with
  | zero => exact absurd some_turns (Nat.lt_irrefl 0)
  | succ turns =>
    unfold Timers.rtTimerCheck
    split
    next => rfl
    next sleeper rest first =>
      have member : sleeper ∈ k.list := first ▸ List.mem_cons_self
      rw [if_neg fun ripe => Nat.not_le.mpr (all sleeper member) ((agenda.ripe (Nat.le_refl 1) member).mp ripe)]

/-- A tick at which no timer is due only takes from the slice of the running thread. -/
private theorem idle_tick (turning : Turning priority thread queue (ticks + 1) k) (some_turns : 0 < turns) :
    ∃ next, Core.step turns k .tick = some next ∧ next.world = k.world.timeSlice thread ∧
      ∃ now deadline, Healthy now deadline next ∧ ∀ sleeper ∈ next.list, now + ticks < deadline sleeper := by
  obtain ⟨now, deadline, ⟨⟨agenda, settled, none⟩, sound, asleep⟩, later⟩ := turning.healthy
  have sliced : Moves (fun _ => False) (fun _ => False) k.world (k.world.timeSlice thread) := timeSlice_moves
  let next : Core τ ι := { k.on (·.timeSlice thread) with tick := k.tick + 1 }
  have begun : Agenda 1 (now + 1) deadline next := agenda.ticked.congr rfl rfl (.refl _) fun _ _ => ⟨rfl, rfl⟩
  have all : ∀ sleeper ∈ next.list, now + 1 < deadline sleeper :=
    fun sleeper member => by have := later sleeper member; omega
  refine ⟨next, ?_, rfl, now + 1, deadline, ⟨⟨begun.later fun sleeper member => ?_, settled, none⟩, sliced.sound sound,
    fun sleeper member => sliced.asleep sound (asleep sleeper member) not_false⟩, fun sleeper member => ?_⟩
  · unfold Core.step
    rw [turning.current]
    exact check_idle begun all some_turns
  · have := all sleeper member
    omega
  · have := later sleeper member
    omega

/-- One tick of a time slice. -/
def ticked (t : ThreadState) : ThreadState := { t with remainingTick := t.remainingTick - 1 }

theorem ticked_left {t : ThreadState} (some_left : t.remainingTick ≠ 0) :
    (ticked t).remainingTick.toNat = t.remainingTick.toNat - 1 := by
  have positive : t.remainingTick.toNat ≠ 0 := fun zero => some_left (UInt32.toNat_inj.mp zero)
  have small := UInt32.toNat_lt t.remainingTick
  change (t.remainingTick - 1).toNat = _
  rw [UInt32.toNat_sub]
  change (2 ^ 32 - 1 + t.remainingTick.toNat) % 2 ^ 32 = _
  omega

theorem slice_tick (turning : Turning priority thread queue (ticks + 1) k) (some_turns : 0 < turns)
    (more : 1 < left k thread) :
    ∃ next, Core.step turns k .tick = some next ∧ Turning priority thread queue ticks next ∧
      left next thread = left k thread - 1 ∧ ∀ other, other ≠ thread → left next other = left k other := by
  obtain ⟨next, stepped, world, healthy⟩ := idle_tick turning some_turns
  obtain ⟨_, unlocked, current, runs, level, table, best, slices⟩ := turning
  have counted := ticked_left (slices thread List.mem_cons_self).1
  have remains : (ticked (k.world.thread thread)).remainingTick ≠ 0 := fun zero => by
    rw [zero, UInt32.toNat_zero] at counted
    unfold left at more
    omega
  have same : next.world = k.world.update thread ticked := by
    rw [world]
    unfold Scheduler.timeSlice
    dsimp only
    rw [if_neg (by simpa [ticked] using remains)]
    rfl
  have fields : ∀ other, other ≠ thread → next.world.thread other = k.world.thread other := fun other different => by
    rw [same, Scheduler.update_thread, if_neg different]
  have own : next.world.thread thread = ticked (k.world.thread thread) := by rw [same, Scheduler.update_thread, if_pos rfl]
  refine ⟨next, stepped, ⟨healthy, same ▸ unlocked, same ▸ current, own ▸ runs, own ▸ level, same ▸ table, fun other ready => ?_,
    fun other member => ?_⟩, ?_, fun other different => ?_⟩
  · have different : other ≠ thread := fun is => by
      rw [is, own, show (ticked (k.world.thread thread)).stat = _ from runs] at ready
      cases ready
    rw [fields other different] at ready ⊢
    exact best other ready
  · by_cases is : other = thread
    · rw [is, own]
      exact ⟨remains, (slices thread List.mem_cons_self).2⟩
    · rw [fields other is]
      exact slices other member
  · unfold left
    rw [own]
    exact counted
  · unfold left
    rw [fields other different]

/-- The next thread of the priority gets the processor at the end of a time slice. -/
private theorem switch_tick (turning : Turning priority thread (head :: rest) (ticks + 1) k) (some_turns : 0 < turns)
    (last : left k thread = 1) : ∃ next, Core.step turns k .tick = some next ∧
      Turning priority head (rest ++ [thread]) ticks next ∧
      ∀ other, other ≠ thread → left next other = left k other := by
  obtain ⟨next, stepped, world, healthy⟩ := idle_tick turning some_turns
  obtain ⟨⟨_, _, ⟨_, sound, _⟩, _⟩, unlocked, current, runs, level, table, best, slices⟩ := turning
  have counted := ticked_left (slices thread List.mem_cons_self).1
  let renewed (t : ThreadState) : ThreadState := { t with remainingTick := t.initTick, yield := true }
  let ended := (k.world.update thread ticked).update thread renewed
  have ended_sound : Sound ended := (sound.keeps tick_keeps thread).keeps yield_keeps thread
  have same : next.world = ended.rtSchedule := by
    have zero : (ticked (k.world.thread thread)).remainingTick = 0 := UInt32.toNat_inj.mp (by
      rw [counted, show (k.world.thread thread).remainingTick.toNat = 1 from last]
      rfl)
    rw [world]
    unfold Scheduler.timeSlice
    dsimp only
    rw [if_pos (by simpa [ticked] using zero)]
    rfl
  have own : ended.thread thread = renewed (ticked (k.world.thread thread)) := by simp [ended]
  have others : ∀ other, other ≠ thread → ended.thread other = k.world.thread other :=
    fun other different => by simp [ended, different]
  have inside : head ∈ k.world.table priority := table ▸ List.mem_cons_self
  obtain ⟨_, head_ready, head_level⟩ := (sound.linked.listed head priority).mp inside
  have apart : head ≠ thread := fun is => by rw [is, runs] at head_ready; cases head_ready
  have new : head ∉ rest := (List.nodup_cons.mp (table ▸ sound.linked.nodup priority)).1
  rcases rtSchedule_cases ended_sound with ⟨_, why⟩ | ⟨fromThread, first, behind, highest, _, was, chosen, how⟩
  · rcases why with locked | unstarted | none
    · exact absurd unlocked locked
    · rw [show ended.current = k.world.current from rfl, current] at unstarted
      cases unstarted
    · exact absurd (show (ended.thread head).stat = .ready by rw [others head apart]; exact head_ready) (none head)
  · cases was.symm.trans (show ended.current = some thread from current)
    -- The thread that is chosen is the first of those that wait for their turn.
    have place : highest = priority := by
      obtain ⟨first_ready, first_level⟩ := chosen.ready ended_sound.linked
      have low := chosen.least head (by rw [others head apart]; exact head_ready)
      rw [others head apart, head_level] at low
      have different : first ≠ thread := fun is => by
        rw [is, own, show (renewed (ticked (k.world.thread thread))).stat = _ from runs] at first_ready
        cases first_ready
      rw [others first different] at first_ready first_level
      have := best first first_ready
      omega
    subst place
    have lists : first = head ∧ behind = rest := List.cons.inj (chosen.table.symm.trans table)
    obtain ⟨rfl, rfl⟩ := lists
    have gives : ¬Stays (ended.thread thread) highest := fun ⟨_, stays⟩ => by
      rw [own] at stays
      rcases stays with less | ⟨_, steady⟩
      · exact absurd (show (k.world.thread thread).currentPriority < highest from less) (by omega)
      · cases steady
    obtain ⟨_, is⟩ := how.resolve_left fun stays => gives stays.1
    obtain ⟨_, now, nest, fields, tables⟩ := switched_spec ended_sound was chosen
    rw [← is, ← same] at now nest fields tables
    have running : (ended.thread thread).stat = .running := by rw [own]; exact runs
    have gone : next.world.thread thread = leaving (ended.thread thread) := by rw [fields, if_neg apart.symm, if_pos rfl]
    have ready_now : (next.world.thread thread).stat = .ready := by rw [gone, leaving, if_pos running]
    have far : ∀ other, other ≠ thread → other ≠ first → next.world.thread other = k.world.thread other :=
      fun other away out => by rw [fields, if_neg out, if_neg away, others other away]
    have begun : next.world.thread first = { k.world.thread first with stat := .running } := by
      rw [fields, if_pos rfl, others first apart]
    refine ⟨next, stepped, ⟨healthy, nest.trans unlocked, now, by rw [begun], by rw [begun]; exact head_level, ?_,
      fun other ready => ?_, fun other member => ?_⟩, fun other different => ?_⟩
    · rw [tables, if_pos ⟨running, by rw [own]; exact level.symm⟩, show ended.table highest = first :: behind from chosen.table]
      simp
    · by_cases out : other = first
      · rw [out, begun]; exact head_level.ge
      · by_cases is : other = thread
        · rw [is, gone, leaving, if_pos running, own]; exact level.ge
        · rw [far other is out] at ready ⊢
          exact best other ready
    · by_cases out : other = first
      · rw [out, begun]
        exact slices first (List.mem_cons_of_mem _ List.mem_cons_self)
      · by_cases is : other = thread
        · have positive := (slices thread List.mem_cons_self).2
          rw [is, gone, leaving, if_pos running, own]
          exact ⟨positive, positive⟩
        · rw [far other is out]
          refine slices other ?_
          simp only [List.mem_cons, List.mem_append, List.not_mem_nil, or_false] at member ⊢
          tauto
    · unfold left
      by_cases out : other = first
      · rw [out, begun]
      · rw [far other different out]

/-- The running thread keeps the processor for the rest of its slice. -/
private theorem slice_run (some_turns : 0 < turns) {slice : Nat}
    (turning : Turning priority thread (head :: rest) (ticks + slice) k) (counted : left k thread = slice) :
    (∀ fewer, fewer < slice → ∃ middle, run (Core.step turns) k (List.replicate fewer .tick) = some middle ∧
      middle.world.current = some thread) ∧
    ∃ final, run (Core.step turns) k (List.replicate slice .tick) = some final ∧
      Turning priority head (rest ++ [thread]) ticks final ∧
      ∀ other, other ≠ thread → left final other = left k other := by
  induction slice generalizing k with
  | zero =>
    have none : (k.world.thread thread).remainingTick.toNat = (0 : UInt32).toNat := counted
    exact absurd (UInt32.toNat_inj.mp none) (turning.slices thread List.mem_cons_self).1
  | succ slice ih =>
    have begins : ∃ middle, run (Core.step turns) k (List.replicate 0 .tick) = some middle ∧
        middle.world.current = some thread :=
      ⟨k, rfl, turning.current⟩
    by_cases more : 1 < left k thread
    · obtain ⟨next, stepped, kept, less, same⟩ := slice_tick turning some_turns more
      obtain ⟨before, final, reached, turned, others⟩ := ih kept (by omega)
      have step_run (count : Nat) : run (Core.step turns) k (List.replicate (count + 1) .tick) =
          run (Core.step turns) next (List.replicate count .tick) := by
        rw [List.replicate_succ]
        change (Core.step turns k .tick).bind _ = _
        rw [stepped]
        rfl
      refine ⟨fun fewer few => ?_, final, (step_run slice).trans reached, turned, fun other different =>
        (others other different).trans (same other different)⟩
      cases fewer with
      | zero => exact begins
      | succ fewer =>
        rw [step_run]
        exact before fewer (by omega)
    · have one : slice = 0 := by omega
      subst one
      obtain ⟨next, stepped, turned, others⟩ := switch_tick turning some_turns counted
      refine ⟨fun fewer few => ?_, next, Option.bind_eq_some_iff.mpr ⟨next, stepped, rfl⟩, turned, others⟩
      rw [Nat.lt_one_iff.mp few]
      exact begins

/-- The threads of one priority take their turns in the order of the queue. -/
theorem turns_run (some_turns : 0 < turns) {target : τ} (front back : List τ)
    (turning : Turning priority thread (front ++ target :: back)
      (ticks + (left k thread + (front.map (left k)).sum)) k) :
    (∀ fewer, fewer < left k thread + (front.map (left k)).sum → ∃ middle other,
      run (Core.step turns) k (List.replicate fewer .tick) = some middle ∧ middle.world.current = some other ∧
      other ∈ thread :: front) ∧
    ∃ final, run (Core.step turns) k (List.replicate (left k thread + (front.map (left k)).sum) .tick) = some final ∧
      Turning priority target (back ++ thread :: front) ticks final := by
  induction front generalizing k thread back with
  | nil =>
    obtain ⟨before, final, reached, turned, _⟩ := slice_run some_turns turning rfl
    refine ⟨fun fewer few => ?_, final, reached, turned⟩
    obtain ⟨middle, begun, current⟩ := before fewer few
    exact ⟨middle, thread, begun, current, List.mem_cons_self⟩
  | cons first front ih =>
    have away : thread ∉ first :: front := fun member => by
      obtain ⟨_, _, ⟨_, sound, _⟩, _⟩ := turning.healthy
      have ready := ((sound.linked.listed thread priority).mp (turning.table ▸ List.mem_append_left _ member)).2.1
      rw [turning.runs] at ready
      cases ready
    rw [List.map_cons, List.sum_cons] at turning ⊢
    have counts : ticks + (left k thread + (left k first + (front.map (left k)).sum)) =
        (ticks + (left k first + (front.map (left k)).sum)) + left k thread := by omega
    rw [counts] at turning
    obtain ⟨before, middle, reached, turned, same⟩ := slice_run some_turns turning rfl
    have equal : ∀ other ∈ first :: front, left middle other = left k other := fun other member =>
      same other fun is => away (is ▸ member)
    have sums : left middle first + (front.map (left middle)).sum = left k first + (front.map (left k)).sum := by
      rw [equal first List.mem_cons_self, List.map_congr_left fun other member => equal other (List.mem_cons_of_mem _ member)]
    rw [show front.append (target :: back) ++ [thread] = front ++ target :: (back ++ [thread]) from List.append_assoc _ _ _,
      ← sums] at turned
    obtain ⟨later, final, ends, last⟩ := ih (back ++ [thread]) turned
    rw [sums] at later ends
    rw [List.append_assoc, List.singleton_append] at last
    refine ⟨fun fewer few => ?_, final, ?_, last⟩
    · rcases Nat.lt_or_ge fewer (left k thread) with early | late
      · obtain ⟨state, begun, current⟩ := before fewer early
        exact ⟨state, thread, begun, current, List.mem_cons_self⟩
      · obtain ⟨state, other, begun, current, member⟩ := later (fewer - left k thread) (by omega)
        refine ⟨state, other, ?_, current, List.mem_cons_of_mem _ member⟩
        rw [show fewer = left k thread + (fewer - left k thread) by omega, List.replicate_add]
        exact run_trans reached begun
    · rw [List.replicate_add]
      exact run_trans reached ends

/-- While no timer is due, threads of the best priority share the processor in turn: a
waiting one gets it at exactly the tick at which the slices of those before it are
used up, and they queue up behind. -/
theorem time_slices_in_turn [Fintype τ] (reachable : KernelReachable turns k) (enough : Fintype.card τ < turns)
    (unlocked : k.world.lockNest = 0) (runs : k.running = some thread) {target : τ} (front back : List τ)
    (queue : k.world.table (k.world.thread thread).currentPriority = front ++ target :: back)
    (best : ∀ other, (k.world.thread other).stat = .ready →
      (k.world.thread thread).currentPriority ≤ (k.world.thread other).currentPriority)
    (slices : ∀ other ∈ thread :: front ++ target :: back,
      (k.world.thread other).remainingTick ≠ 0 ∧ (k.world.thread other).initTick ≠ 0)
    (quiet : ∀ sleeper ∈ k.list, left k thread + (front.map (left k)).sum < ahead k sleeper) :
    (∀ fewer, fewer < left k thread + (front.map (left k)).sum → ∃ middle other,
      run (Core.step turns) k (List.replicate fewer .tick) = some middle ∧ middle.world.current = some other ∧
      other ≠ target) ∧
    ∃ final, run (Core.step turns) k (List.replicate (left k thread + (front.map (left k)).sum) .tick) = some final ∧
      final.running = some target ∧
      final.world.table (k.world.thread thread).currentPriority = back ++ thread :: front := by
  obtain ⟨now, deadline, healthy⟩ := reachable.healthy enough
  obtain ⟨current, stat⟩ := running_spec runs
  have turning : Turning (k.world.thread thread).currentPriority thread (front ++ target :: back)
      (0 + (left k thread + (front.map (left k)).sum)) k := by
    refine ⟨⟨now, deadline, healthy, fun sleeper member => ?_⟩, unlocked, current, stat, rfl, queue, best, slices⟩
    have := quiet sleeper member
    have := healthy.kept.ahead kernel member
    omega
  obtain ⟨before, final, reached, turned⟩ := turns_run (Nat.zero_lt_of_lt enough) front back turning
  have nodup := queue ▸ healthy.sound.linked.nodup (k.world.thread thread).currentPriority
  have target_ready :=
    ((healthy.sound.linked.listed target _).mp (queue ▸ List.mem_append_right _ List.mem_cons_self)).2.1
  refine ⟨fun fewer few => ?_, final, reached, ?_, turned.table⟩
  · obtain ⟨middle, other, begun, is, member⟩ := before fewer few
    refine ⟨middle, other, begun, is, fun same => ?_⟩
    rw [same] at member
    rcases List.mem_cons.mp member with first | inside
    · rw [first, stat] at target_ready
      cases target_ready
    · exact (List.nodup_append.mp nodup).2.2 target inside target List.mem_cons_self rfl
  · exact Option.filter_eq_some_iff.mpr ⟨turned.current, decide_eq_true turned.runs⟩

/-- Two threads of one priority with slices of two ticks. -/
theorem time_slices_in_turn_sample : ∃ k,
    run (Core.step 4) (trio 5 5) [.startup 0, .startup 1, .startup 2, .start] = some k ∧
    k.running = some 1 ∧ ∃ final, run (Core.step 4) k [.tick, .tick] = some final ∧ final.running = some 2 := by
  refine ⟨_, rfl, rfl, ?_⟩
  have reachable : KernelReachable 4
      (((((trio 5 5).rtThreadStartup 0).rtThreadStartup 1).rtThreadStartup 2).on (·.rtSystemSchedulerStart)) :=
    ⟨_, [.startup 0, .startup 1, .startup 2, .start], trio_booted (show 5 < 32 ∧ 5 < 32 by decide), by decide, rfl⟩
  obtain ⟨_, final, reached, runs, _⟩ :=
    time_slices_in_turn reachable (by decide) rfl rfl [] [] rfl (by decide) (by decide)
    (fun _ member => absurd member List.not_mem_nil)
  exact ⟨final, reached, runs⟩

end Slices

end SmartWatch.Proofs.Fairness
