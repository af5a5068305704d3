import SmartWatch.Proofs.TimerList
import SmartWatch.Lib.Runs
import Mathlib.Data.Fintype.Card

/-! The timers fire when they should, over every run and wherever the tick counter
wraps. -/

namespace SmartWatch.Proofs.Timers
open Runs Deadlines Queues SmartWatch.Proofs.TimerList

variable {τ ω : Type} [DecidableEq τ]

section Events
variable (system : System τ ω) {s : Timers τ ω} {now : Nat} {deadline : τ → Nat} {timer one two : τ}
  {turns : Nat}

def EventFine (plain : τ → Bool) : TimerEvent τ ω → Prop
  | .call call => Fine plain call
  | .tick | .work _ => True

/-- The event is no call about the timer. -/
def Spares (timer : τ) : TimerEvent τ ω → Prop
  | .call call => call.timer ≠ timer
  | .tick | .work _ => True

def isTick : TimerEvent τ ω → Bool
  | .tick => true
  | .call _ | .work _ => false

/-- Between two events every timer in the list has its deadline now or later. -/
structure Kept (now : Nat) (deadline : τ → Nat) (s : Timers τ ω) : Prop where
  agenda : Agenda 0 now deadline s
  settled : Settled system.plain s
  temporary : s.temporary = []

theorem Kept.call (kept : Kept system now deadline s) (call : TimerCall τ) (fine : Fine system.plain call) :
    Kept system now (dueAfter s now deadline call) (s.call call) := by
  obtain ⟨agenda, settled, none⟩ := kept
  refine ⟨agenda.call (Nat.zero_le 1) settled call, settled.call call fine, ?_⟩
  cases call with
  | stop timer =>
    simp only [Timers.call, Timers.rtTimerStop]
    split
    · simp [Timers.rtTimerDetach, none]
    · exact none
  | start timer => simp [Timers.call, Timers.rtTimerStart, none]
  | detach timer => simp [Timers.call, Timers.rtTimerDetach, none]
  | setTime timer time | setOneshot timer | setPeriodic timer => exact none

theorem Kept.calls (kept : Kept system now deadline s) (calls : List (TimerCall τ))
    (fine : ∀ call ∈ calls, Fine system.plain call) :
    ∃ later, Kept system now later (calls.foldl Timers.call s) ∧ ∀ timer, (∀ call ∈ calls, call.timer ≠ timer) →
      Untouched timer deadline s later (calls.foldl Timers.call s) := by
  induction calls generalizing s deadline with
  | nil => exact ⟨deadline, kept, fun _ _ => ⟨rfl, .rfl, .rfl, rfl⟩⟩
  | cons call calls ih =>
    obtain ⟨later, ends, untouched⟩ := ih (kept.call system call (fine call List.mem_cons_self))
      fun other member => fine other (List.mem_cons_of_mem _ member)
    refine ⟨later, ends, fun timer apart => ?_⟩
    exact (call_untouched s now deadline call (apart call List.mem_cons_self)).trans
      (untouched timer fun other member => apart other (List.mem_cons_of_mem _ member))

theorem step_kept [Fintype τ] (kept : Kept system now deadline s) (event : TimerEvent τ ω)
    (fine : EventFine system.plain event) (enough : Fintype.card τ < turns) :
    ∃ after later, Timers.step system.timeout turns s event = some after ∧
      Kept system (now + if isTick event then 1 else 0) later after ∧
      ∀ timer, system.Leaves timer → Spares timer event →
        if isTick event then Passed (now + 1) deadline { s with tick := s.tick + 1 } later after timer
        else Untouched timer deadline s later after ∧ after.fired.count timer = s.fired.count timer := by
  have ⟨agenda, settled, empty⟩ := kept
  cases event with
  | call call =>
    exact ⟨_, _, rfl, kept.call system call fine, fun timer _ spares =>
      ⟨call_untouched s now deadline call spares, by rw [(call_same s call).1]⟩⟩
  | tick =>
    obtain ⟨after, later, checked, ended, settled_after, none_after, all, passed⟩ :=
      check_spec system agenda.ticked settled empty s.list (fun timer member _ => member)
        (Nat.lt_of_le_of_lt agenda.nodup.length_le_card enough)
    exact ⟨after, later, checked, ⟨ended.later fun timer member => Nat.le_of_lt (all timer member), settled_after, none_after⟩,
      fun timer leaves _ => passed timer leaves⟩
  | work world =>
    exact ⟨_, deadline, rfl, ⟨agenda.congr rfl rfl (.refl _) fun _ _ => ⟨rfl, rfl⟩, settled, empty⟩,
      fun timer _ _ => ⟨⟨rfl, .rfl, .rfl, rfl⟩, rfl⟩⟩

/-- No timer has been started yet. -/
structure Idle (s : Timers τ ω) : Prop where
  list : s.list = []
  temporary : s.temporary = []
  settled : Settled system.plain s

def Reachable (turns : Nat) (s : Timers τ ω) : Prop :=
  ∃ first events, Idle system first ∧ (∀ event ∈ events, EventFine system.plain event) ∧
    run (Timers.step system.timeout turns) first events = some s

omit [DecidableEq τ] in
theorem Idle.kept (idle : Idle system s) : Kept system s.tick.toNat (fun _ => 0) s := by
  obtain ⟨list, temporary, settled⟩ := idle
  have none : ∀ timer, timer ∉ s.list := fun timer => by rw [list]; exact List.not_mem_nil
  refine ⟨⟨?_, by rw [list]; exact List.nodup_nil, by rw [list]; exact List.Pairwise.nil, fun timer member => ?_,
    fun timer member => ?_, fun timer member => ?_, by rw [temporary]; exact List.nodup_nil, fun timer _ => none timer⟩,
    settled, temporary⟩
  · exact (Nat.mod_eq_of_lt (UInt32.toNat_lt s.tick)).symm
  all_goals exact absurd member (none timer)

theorem Reachable.kept [Fintype τ] (reachable : Reachable system turns s) (enough : Fintype.card τ < turns) :
    ∃ now deadline, Kept system now deadline s := by
  obtain ⟨first, events, idle, fine, reached⟩ := reachable
  refine run_guarded (fun _ event => EventFine system.plain event) (fun s => ∃ now deadline, Kept system now deadline s)
    (fun state event next ⟨now, deadline, kept⟩ ok taken => ?_)
    ⟨_, _, idle.kept⟩ (taken_of_mem events (fun event member _ => fine event member) first) reached
  obtain ⟨after, later, stepped, kept_after, _⟩ := step_kept system kept event ok enough
  cases taken.symm.trans stepped
  exact ⟨_, later, kept_after⟩

/-- How far a timer's tick is ahead of the tick counter. -/
def ahead (s : Timers τ ω) (timer : τ) : Nat := ((s.timer timer).timeoutTick - s.tick).toNat

omit [DecidableEq τ] in
theorem Kept.ahead (kept : Kept system now deadline s) (member : timer ∈ s.list) :
    ahead s timer = deadline timer - now ∧ now ≤ deadline timer ∧ deadline timer < now + half := by
  obtain ⟨early, close⟩ := kept.agenda.near timer member
  have value : half = 2147483647 := rfl
  exact ⟨(kept.agenda.shows timer member).sub kept.agenda.tick early (by omega), early, close⟩

/-- Events keep the flag of a timer right that stays periodic. -/
theorem step_marked [Fintype τ] (stays : system.StaysPeriodic timer) (kept : Kept system now deadline s)
    (marked : Marked timer s) {event : TimerEvent τ ω} {after : Timers τ ω}
    (taken : Timers.step system.timeout turns s event = some after) : Marked timer after := by
  have ⟨agenda, settled, empty⟩ := kept
  cases event with
  | call call =>
    cases taken
    exact marked.call call fun runs => absurd runs (empty ▸ List.not_mem_nil)
  | tick =>
    obtain ⟨_, right, _⟩ := check_rule system (fun _ state => Marked timer state ∧ state.temporary = [])
      (fun _ _ _ _ _ _ first _ _ _ ⟨right, empty⟩ => fire_marked system stays first empty right) agenda.ticked settled empty
      ⟨marked, empty⟩ taken
    exact right
  | work world =>
    cases taken
    exact marked

/-- Whatever the threads and the timeout functions do, and wherever the tick counter
wraps, the list holds each timer whose flag is set once, and no other, the next one
first. The exception is a timer that its own timeout function makes one-shot: it stays
out of the list and keeps the flag. -/
theorem list_ordered [Fintype τ] (enough : Fintype.card τ < turns) {first : Timers τ ω} (idle : Idle system first)
    (events : List (TimerEvent τ ω)) (fine : ∀ event ∈ events, EventFine system.plain event)
    (reached : run (Timers.step system.timeout turns) first events = some s) :
    s.list.Nodup ∧ (s.list.Pairwise fun first second => ahead s first ≤ ahead s second) ∧
      (∀ timer ∈ s.list, (s.timer timer).activated = true ∧ ahead s timer < half) ∧
      ∀ timer, (first.timer timer).activated = false → system.StaysPeriodic timer →
        (s.timer timer).activated = true → timer ∈ s.list := by
  have holds : ∃ now deadline, Kept system now deadline s ∧
      ∀ timer, (first.timer timer).activated = false → system.StaysPeriodic timer → Marked timer s := by
    refine run_guarded (fun _ event => EventFine system.plain event)
      (fun state => ∃ now deadline, Kept system now deadline state ∧
        ∀ timer, (first.timer timer).activated = false → system.StaysPeriodic timer → Marked timer state)
      (fun state event next ⟨now, deadline, kept, marked⟩ ok taken => ?_) ⟨_, _, idle.kept, fun timer new _ set => ?_⟩
      (taken_of_mem events (fun event member _ => fine event member) first) reached
    · obtain ⟨after, later, stepped, kept_after, _⟩ := step_kept system kept event ok enough
      cases taken.symm.trans stepped
      exact ⟨_, later, kept_after, fun timer new stays => step_marked system stays kept (marked timer new stays) taken⟩
    · rw [new] at set
      cases set
  obtain ⟨now, deadline, kept, marked⟩ := holds
  refine ⟨kept.agenda.nodup, ?_, fun timer member => ?_, fun timer new stays set => ?_⟩
  · refine kept.agenda.sorted.imp_of_mem fun {one two} first second order => ?_
    have := kept.ahead system first
    have := kept.ahead system second
    omega
  · have := kept.ahead system member
    exact ⟨kept.agenda.active timer member, by omega⟩
  · have listed := marked timer new stays set
    rw [kept.temporary] at listed
    exact listed.resolve_right fun runs => List.not_mem_nil runs.1

/-- A one-shot timer of three ticks and a periodic one of two, whose timeout function
starts a one-shot timer of one tick. They stand shortly before the tick counter wraps. -/
inductive Sample where
  | alarm
  | beat
  | echo
deriving DecidableEq

instance : Fintype Sample := ⟨{.alarm, .beat, .echo}, fun timer => by cases timer <;> decide⟩

def sample : System Sample Unit where
  timeout
    | .beat, world => (world, [.start .echo])
    | .alarm, world | .echo, world => (world, [])
  plain
    | .alarm => true
    | .beat | .echo => false
  fine timer _ call member := by
    cases timer with
    | beat => obtain rfl := List.mem_singleton.mp member; trivial
    | alarm | echo => cases member
  starts timer _ other member := by
    cases timer with
    | beat => cases List.mem_singleton.mp member; rfl
    | alarm | echo => cases member

def sampleTimers : Timers Sample Unit where
  tick := 0xfffffffe
  timer
    | .alarm => { initTick := 3 }
    | .beat => { initTick := 2, periodic := true }
    | .echo => { initTick := 1 }
  world := ()

theorem sample_idle : Idle sample sampleTimers := by
  refine ⟨rfl, rfl, fun timer => ?_⟩
  cases timer <;> refine ⟨by decide, by decide, by decide⟩

private theorem sample_leaves (timer : Sample) (other : timer ≠ .echo) : sample.Leaves timer := by
  intro fires world call member
  cases fires with
  | beat => cases List.mem_singleton.mp member; exact other.symm
  | alarm | echo => cases member

private theorem sample_reachable : Reachable sample 4 sampleTimers :=
  ⟨_, [], sample_idle, fun _ member => absurd member List.not_mem_nil, rfl⟩

private theorem sample_ticks (count : Nat) :
    ∀ event ∈ List.replicate count (TimerEvent.tick : TimerEvent Sample Unit),
    EventFine sample.plain event ∧ ∀ timer, Spares timer event := by
  intro event member
  rw [List.eq_of_mem_replicate member]
  exact ⟨trivial, fun _ => trivial⟩

/-- The counter has wrapped, and at its second tick the periodic timer has started the
third one. -/
theorem list_ordered_sample :
    ∃ s, run (Timers.step sample.timeout 4) sampleTimers
        [.call (.start .alarm), .call (.start .beat), .tick, .tick] = some s ∧
      s.list = [.alarm, .echo, .beat] ∧ s.list.Nodup ∧
      ∀ timer, (s.timer timer).activated = true → timer ∈ s.list := by
  obtain ⟨s, reached, listed⟩ : ∃ s, run (Timers.step sample.timeout 4) sampleTimers
      [.call (.start .alarm), .call (.start .beat), .tick, .tick] = some s ∧ s.list = [.alarm, .echo, .beat] := ⟨_, rfl, rfl⟩
  obtain ⟨nodup, _, _, started⟩ := list_ordered sample (by decide) sample_idle _ (fun event member => by
    simp only [List.mem_cons, List.not_mem_nil, or_false, or_self] at member
    rcases member with rfl | rfl | rfl <;> trivial) reached
  refine ⟨s, reached, listed, nodup, fun timer => started timer ?_ fun world member => ?_⟩
  · cases timer <;> rfl
  · cases timer with
    | beat => cases List.mem_singleton.mp member
    | alarm | echo => cases member

/-- A timer left alone between two times, the second of them `ticks` later. -/
theorem run_tracked [Fintype τ] (enough : Fintype.card τ < turns) (stands : Nat → Nat → (τ → Nat) → Timers τ ω → Prop)
    (step : ∀ now ticks deadline s later after, Kept system now deadline s → stands now ticks deadline s →
      Kept system (now + 1) later after → Passed (now + 1) deadline { s with tick := s.tick + 1 } later after timer →
      stands (now + 1) (ticks + 1) later after)
    (same : ∀ now ticks deadline s later after, Kept system now later after → stands now ticks deadline s →
      Untouched timer deadline s later after → after.fired.count timer = s.fired.count timer →
      stands now ticks later after)
    (leaves : system.Leaves timer) (events : List (TimerEvent τ ω)) (kept : Kept system now deadline s) {ticks : Nat}
    (start : stands now ticks deadline s) (fine : ∀ event ∈ events, EventFine system.plain event)
    (spares : ∀ event ∈ events, Spares timer event) :
    ∃ final now later, run (Timers.step system.timeout turns) s events = some final ∧ Kept system now later final ∧
      stands now (ticks + events.countP isTick) later final := by
  induction events generalizing s now deadline ticks with
  | nil => exact ⟨s, now, deadline, rfl, kept, start⟩
  | cons event events ih =>
    obtain ⟨after, later, stepped, kept_after, tracked⟩ :=
      step_kept system kept event (fine event List.mem_cons_self) enough
    have moved := tracked timer leaves (spares event List.mem_cons_self)
    have fine_rest : ∀ event ∈ events, EventFine system.plain event :=
      fun other member => fine other (List.mem_cons_of_mem _ member)
    have spares_rest : ∀ event ∈ events, Spares timer event :=
      fun other member => spares other (List.mem_cons_of_mem _ member)
    rw [List.countP_cons]
    by_cases is : isTick event = true
    · rw [if_pos is] at moved kept_after ⊢
      obtain ⟨final, last, deadlines, reached, kept_final, ends⟩ :=
        ih kept_after (step now ticks deadline s later after kept start kept_after moved) fine_rest spares_rest
      refine ⟨final, last, deadlines, Option.bind_eq_some_iff.mpr ⟨after, stepped, reached⟩, kept_final, ?_⟩
      rw [Nat.add_comm (List.countP isTick events) 1, ← Nat.add_assoc]
      exact ends
    · rw [if_neg is] at moved kept_after ⊢
      obtain ⟨final, last, deadlines, reached, kept_final, ends⟩ :=
        ih kept_after (same now ticks deadline s later after kept_after start moved.1 moved.2) fine_rest spares_rest
      exact ⟨final, last, deadlines, Option.bind_eq_some_iff.mpr ⟨after, stepped, reached⟩, kept_final, ends⟩

/-- A timer that has just been started. -/
theorem Kept.start (kept : Kept system now deadline s) (timer : τ) :
    Kept system now (dueAfter s now deadline (.start timer)) (s.rtTimerStart timer) ∧
      timer ∈ (s.rtTimerStart timer).list := by
  obtain ⟨agenda, settled, none⟩ := kept
  refine ⟨⟨agenda.call (Nat.zero_le 1) settled (.start timer), settled.call (.start timer) trivial, ?_⟩, ?_⟩
  · simp [Timers.rtTimerStart, none]
  · simp [Timers.rtTimerStart]

/-- A one-shot timer that is started and then left alone calls its timeout function
once, at the tick it was started for: not at an earlier one and not at a later one. -/
theorem oneshot_fires_on_time [Fintype τ] (reachable : Reachable system turns s) (enough : Fintype.card τ < turns)
    (timer : τ) (oneshot : (s.timer timer).periodic = false) (leaves : system.Leaves timer)
    (events : List (TimerEvent τ ω)) (fine : ∀ event ∈ events, EventFine system.plain event)
    (spares : ∀ event ∈ events, Spares timer event) :
    ∃ final, run (Timers.step system.timeout turns) (s.rtTimerStart timer) events = some final ∧
      final.fired.count timer = s.fired.count timer +
        if max 1 (s.timer timer).initTick.toNat ≤ events.countP isTick then 1 else 0 := by
  obtain ⟨now, deadline, kept⟩ := reachable.kept system enough
  obtain ⟨started, listed⟩ := kept.start system timer
  let time := (s.timer timer).initTick.toNat
  let stands (now ticks : Nat) (deadline : τ → Nat) (state : Timers τ ω) : Prop :=
    ticks < max 1 time ∧ timer ∈ state.list ∧ deadline timer + ticks = now + time ∧
        (state.timer timer).periodic = false ∧ state.fired.count timer = s.fired.count timer ∨
      max 1 time ≤ ticks ∧ timer ∉ state.list ∧ state.fired.count timer = s.fired.count timer + 1
  have start : stands now 0 (dueAfter s now deadline (.start timer)) (s.rtTimerStart timer) := by
    refine .inl ⟨by omega, listed, ?_, ?_, rfl⟩
    · exact if_pos rfl
    · simpa [Timers.rtTimerStart] using oneshot
  obtain ⟨final, _, _, reached, _, ends⟩ := run_tracked system enough stands
    (fun now ticks deadline state later after kept stand _ passed => by
      rcases stand with ⟨less, member, due, periodic, count⟩ | ⟨done, out, count⟩
      · by_cases ripe : deadline timer ≤ now + 1
        · obtain ⟨restarted, more⟩ := passed.due member ripe
          exact .inr ⟨by omega, restarted.oneshot periodic, by rw [more]; exact congrArg (· + 1) count⟩
        · obtain ⟨same, equal⟩ := passed.spared fun is => ripe is.2
          refine .inl ⟨by omega, same.listed.mpr member, ?_, ?_, equal.trans count⟩
          · rw [same.deadline]; omega
          · rw [same.fields]; exact periodic
      · obtain ⟨same, equal⟩ := passed.spared fun is => out is.1
        exact .inr ⟨by omega, fun member => out (same.listed.mp member), equal.trans count⟩)
    (fun now ticks deadline state later after _ stand same equal => by
      rcases stand with ⟨less, member, due, periodic, count⟩ | ⟨done, out, count⟩
      · exact .inl ⟨less, same.listed.mpr member, by rw [same.deadline]; exact due, by rw [same.fields]; exact periodic,
          equal.trans count⟩
      · exact .inr ⟨done, fun member => out (same.listed.mp member), equal.trans count⟩)
    leaves events started start fine spares
  refine ⟨final, reached, ?_⟩
  rw [Nat.zero_add] at ends
  rcases ends with ⟨less, _, _, _, count⟩ | ⟨done, _, count⟩
  · rw [if_neg (Nat.not_le.mpr less)]
    exact count
  · rw [if_pos done]
    exact count

theorem oneshot_fires_on_time_sample :
    ∃ final, run (Timers.step sample.timeout 4) (sampleTimers.rtTimerStart .alarm)
      (List.replicate 3 .tick) = some final ∧
      final.fired.count .alarm = 1 := by
  obtain ⟨final, reached, count⟩ := oneshot_fires_on_time sample sample_reachable (by decide) .alarm rfl
    (sample_leaves .alarm (by decide)) (List.replicate 3 .tick) (fun event member => (sample_ticks 3 event member).1)
    fun event member => (sample_ticks 3 event member).2 .alarm
  exact ⟨final, reached, count⟩

/-- A periodic timer that is started and then left alone calls its timeout function
once in every period. -/
theorem periodic_fires_every_period [Fintype τ] (reachable : Reachable system turns s)
    (enough : Fintype.card τ < turns) (timer : τ) (periodic : (s.timer timer).periodic = true)
    (leaves : system.Leaves timer) (events : List (TimerEvent τ ω))
    (fine : ∀ event ∈ events, EventFine system.plain event) (spares : ∀ event ∈ events, Spares timer event) :
    ∃ final, run (Timers.step system.timeout turns) (s.rtTimerStart timer) events = some final ∧
      final.fired.count timer = s.fired.count timer + events.countP isTick / (s.timer timer).initTick.toNat := by
  obtain ⟨now, deadline, kept⟩ := reachable.kept system enough
  obtain ⟨started, listed⟩ := kept.start system timer
  let time := (s.timer timer).initTick.toNat
  have positive : 0 < time := by
    obtain ⟨_, nonzero, plain⟩ := kept.settled timer
    refine Nat.pos_of_ne_zero fun zero => nonzero ?_ (UInt32.toNat_inj.mp zero)
    exact Bool.eq_false_iff.mpr fun is => absurd periodic (by rw [plain is]; exact Bool.false_ne_true)
  let stands (now ticks : Nat) (deadline : τ → Nat) (state : Timers τ ω) : Prop :=
    timer ∈ state.list ∧ (state.timer timer).periodic = true ∧ (state.timer timer).initTick = (s.timer timer).initTick ∧
      ∃ periods, deadline timer + ticks = now + (periods * time + time) ∧ periods * time ≤ ticks ∧
        ticks < periods * time + time ∧ state.fired.count timer = s.fired.count timer + periods
  have start : stands now 0 (dueAfter s now deadline (.start timer)) (s.rtTimerStart timer) := by
    refine ⟨listed, ?_, ?_, 0, ?_, ?_, ?_, rfl⟩
    · simpa [Timers.rtTimerStart] using periodic
    · simp [Timers.rtTimerStart]
    · rw [Nat.zero_mul, Nat.zero_add]
      exact if_pos rfl
    · exact Nat.le_of_eq (Nat.zero_mul time)
    · omega
  obtain ⟨final, _, _, reached, _, ends⟩ := run_tracked system enough stands
    (fun now ticks deadline state later after kept stand _ passed => by
      obtain ⟨member, periodic, init, periods, due, low, high, count⟩ := stand
      by_cases ripe : deadline timer ≤ now + 1
      · obtain ⟨restarted, more⟩ := passed.due member ripe
        unfold Restarted at restarted
        rw [if_pos (show (state.timer timer).periodic = true from periodic)] at restarted
        obtain ⟨back, later_due, same_init, still⟩ := restarted
        have interval : (state.timer timer).initTick.toNat = time := congrArg UInt32.toNat init
        refine ⟨back, still, same_init.trans init, periods + 1, ?_, ?_, ?_, ?_⟩
        · rw [Nat.succ_mul, later_due]
          change now + 1 + (state.timer timer).initTick.toNat + (ticks + 1) = _
          omega
        · rw [Nat.succ_mul]; omega
        · rw [Nat.succ_mul]; omega
        · rw [more]
          change state.fired.count timer + 1 = _
          omega
      · obtain ⟨same, equal⟩ := passed.spared fun is => ripe is.2
        refine ⟨same.listed.mpr member, by rw [same.fields]; exact periodic, by rw [same.fields]; exact init, periods, ?_, ?_, ?_,
          equal.trans count⟩
        · rw [same.deadline]; omega
        · omega
        · omega)
    (fun now ticks deadline state later after _ stand same equal => by
      obtain ⟨member, periodic, init, periods, due, low, high, count⟩ := stand
      exact ⟨same.listed.mpr member, by rw [same.fields]; exact periodic, by rw [same.fields]; exact init, periods,
        by rw [same.deadline]; exact due, low, high, equal.trans count⟩)
    leaves events started start fine spares
  obtain ⟨_, _, _, periods, _, low, high, count⟩ := ends
  refine ⟨final, reached, ?_⟩
  rw [Nat.zero_add] at low high
  rw [count, Nat.div_eq_of_lt_le low (by rw [Nat.succ_mul]; exact high)]

theorem periodic_fires_every_period_sample :
    ∃ final, run (Timers.step sample.timeout 4) (sampleTimers.rtTimerStart .beat)
      (List.replicate 5 .tick) = some final ∧
      final.fired.count .beat = 2 := by
  obtain ⟨final, reached, count⟩ := periodic_fires_every_period sample sample_reachable (by decide) .beat rfl
    (sample_leaves .beat (by decide)) (List.replicate 5 .tick) (fun event member => (sample_ticks 5 event member).1)
    fun event member => (sample_ticks 5 event member).2 .beat
  exact ⟨final, reached, count⟩

/-- If `two` calls its timeout function on the way, `one` does so first. -/
def FiresBefore (s final : Timers τ ω) (one two : τ) : Prop :=
  s.fired.count two < final.fired.count two →
    ∃ front back, final.fired = s.fired ++ (front ++ back) ∧ one ∈ front ∧ two ∉ front

/-- Where the walk of `rt_timer_start` leaves the second of two timers. -/
private theorem start_order (kept : Kept system now deadline s) (different : one ≠ two) (pending : one ∈ s.list) :
    if ahead s one ≤ (s.timer two).initTick.toNat then [one, two].Sublist (s.rtTimerStart two).list
    else [two, one].Sublist (s.rtTimerStart two).list := by
  have away := kept.ahead system pending
  have due : dueAfter s now deadline (.start two) two = now + (s.timer two).initTick.toNat := if_pos rfl
  have same : ∀ other ∈ s.list.erase two, dueAfter s now deadline (.start two) other = deadline other :=
    fun other member => if_neg (kept.agenda.nodup.mem_erase_iff.mp member).1
  have member : one ∈ s.list.erase two := (List.mem_erase_of_ne different).mpr pending
  have stop : ∀ other ∈ s.list.erase two, startStops s two other = true ↔
      dueAfter s now deadline (.start two) two < dueAfter s now deadline (.start two) other := by
    intro other inside
    rw [same other inside, due]
    exact kept.agenda.stops two (Nat.zero_le 1) (kept.settled two).1 other inside
  rw [start_list]
  split
  next order =>
    refine insert_behind ?_ stop member ?_
    · refine (kept.agenda.sorted.sublist List.erase_sublist).imp_of_mem fun first second order => ?_
      rw [same _ first, same _ second]
      exact order
    · rw [same one member, due]
      omega
  next order =>
    refine insert_ahead stop member ?_
    rw [same one member, due]
    omega

private theorem run_in_order [Fintype τ] (enough : Fintype.card τ < turns) (kept : Kept system now deadline s)
    (different : one ≠ two) (precedes : [one, two].Sublist s.list) (leaves_one : system.Leaves one)
    (leaves_two : system.Leaves two) (events : List (TimerEvent τ ω))
    (fine : ∀ event ∈ events, EventFine system.plain event)
    (spares : ∀ event ∈ events, Spares one event ∧ Spares two event) {final : Timers τ ω}
    (reached : run (Timers.step system.timeout turns) s events = some final) : FiresBefore s final one two := by
  have holds : ∃ now deadline, Kept system now deadline final ∧ InOrder s.fired one two final.list final.fired := by
    refine run_guarded (fun _ event => EventFine system.plain event ∧ Spares one event ∧ Spares two event)
      (fun state => ∃ now deadline, Kept system now deadline state ∧ InOrder s.fired one two state.list state.fired)
      (fun state event next ⟨now, deadline, kept, order⟩ ⟨fine, spares⟩ taken => ?_) ⟨_, _, kept, .begin precedes⟩
      (taken_of_mem events (fun event member _ => ⟨fine event member, spares event member⟩) _) reached
    obtain ⟨after, later, stepped, kept_after, _⟩ := step_kept system kept event fine enough
    cases taken.symm.trans stepped
    refine ⟨_, later, kept_after, ?_⟩
    cases event with
    | call call =>
      cases stepped
      rw [(call_same state call).1]
      exact order.keep (call_precedes call spares.1 spares.2)
    | tick =>
      exact check_in_order system kept.agenda.ticked kept.settled kept.temporary different leaves_one leaves_two stepped order
    | work world =>
      cases stepped
      exact order
  obtain ⟨_, _, _, order⟩ := holds
  exact order.served_first

/-- Of a pending timer and one that is started now, the one that is due earlier fires
first, and the pending one when they are due at one tick. -/
theorem earlier_fires_first [Fintype τ] (reachable : Reachable system turns s) (enough : Fintype.card τ < turns)
    (different : one ≠ two) (pending : one ∈ s.list) (leaves_one : system.Leaves one) (leaves_two : system.Leaves two)
    (events : List (TimerEvent τ ω)) (fine : ∀ event ∈ events, EventFine system.plain event)
    (spares : ∀ event ∈ events, Spares one event ∧ Spares two event) {final : Timers τ ω}
    (reached : run (Timers.step system.timeout turns) (s.rtTimerStart two) events = some final) :
    if ahead s one ≤ (s.timer two).initTick.toNat then FiresBefore s final one two else FiresBefore s final two one := by
  obtain ⟨now, deadline, kept⟩ := reachable.kept system enough
  obtain ⟨started, _⟩ := kept.start system two
  have order := start_order system kept different pending
  split at order
  next earlier =>
    rw [if_pos earlier]
    exact run_in_order system enough started different order leaves_one leaves_two events fine spares reached
  next later =>
    have swapped : ∀ event ∈ events, Spares two event ∧ Spares one event :=
      fun event member => (spares event member).symm
    rw [if_neg later]
    exact run_in_order system enough started different.symm order leaves_two leaves_one events fine swapped reached

/-- The alarm is started first and fires second. -/
theorem earlier_fires_first_sample :
    ∃ front back, [.beat, .alarm, .echo, .beat] = front ++ back ∧ Sample.beat ∈ front ∧ Sample.alarm ∉ front := by
  have reachable : Reachable sample 4 (sampleTimers.rtTimerStart .alarm) := by
    refine ⟨_, [.call (.start .alarm)], sample_idle, fun event member => ?_, rfl⟩
    rw [List.mem_singleton.mp member]
    trivial
  have order := earlier_fires_first sample reachable (by decide) (show Sample.alarm ≠ .beat by decide)
    (List.mem_singleton_self _)
    (sample_leaves .alarm (by decide)) (sample_leaves .beat (by decide)) (List.replicate 4 .tick)
    (fun event member => (sample_ticks 4 event member).1)
    (fun event member => ⟨(sample_ticks 4 event member).2 .alarm, (sample_ticks 4 event member).2 .beat⟩) rfl
  rw [if_neg (by decide)] at order
  obtain ⟨front, back, fired, before, after⟩ := order (by decide)
  exact ⟨front, back, fired, before, after⟩

end Events

end SmartWatch.Proofs.Timers
