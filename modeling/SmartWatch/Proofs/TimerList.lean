import SmartWatch.Timer
import SmartWatch.Lib.Queues
import Mathlib.Data.List.Nodup

/-! What the functions of `timer.c` do to the list of timers. The invariant gives
each timer in the list its deadline on a counter that does not wrap. -/

namespace SmartWatch.Proofs.TimerList
open Deadlines Queues

/-- `RT_TICK_MAX / 2`. -/
def half : Nat := 2147483647

theorem half_eq : (tickMax / 2).toNat = half := by decide

variable {τ ω : Type} [DecidableEq τ]

/-- The times that `rt_timer_start` asserts. A timer that is periodic, or that a
timeout function starts, must not have the time 0, or `rt_timer_check` goes on
with it; `plain` are the other timers. -/
def Fine (plain : τ → Bool) : TimerCall τ → Prop
  | .setTime timer time => time.toNat < half ∧ (plain timer = false → time ≠ 0)
  | .setPeriodic timer => plain timer = false
  | _ => True

/-- The timers of a program: what their timeout functions do is fine. -/
structure System (τ ω : Type) where
  timeout : Timeout τ ω
  plain : τ → Bool
  fine : ∀ timer world, ∀ call ∈ (timeout timer world).2, Fine plain call
  starts : ∀ timer world other, .start other ∈ (timeout timer world).2 → plain other = false

/-- The settings of the timers meet what the calls are held to. -/
def Settled (plain : τ → Bool) (s : Timers τ ω) : Prop :=
  ∀ timer, (s.timer timer).initTick.toNat < half ∧ (plain timer = false → (s.timer timer).initTick ≠ 0) ∧
    (plain timer = true → (s.timer timer).periodic = false)

/-- The list is in the order of the deadlines, all of them close to now. -/
structure Agenda (late now : Nat) (deadline : τ → Nat) (s : Timers τ ω) : Prop where
  tick : Shows s.tick now
  nodup : s.list.Nodup
  sorted : s.list.Pairwise fun first second => deadline first ≤ deadline second
  shows : ∀ timer ∈ s.list, Shows (s.timer timer).timeoutTick (deadline timer)
  near : ∀ timer ∈ s.list, now ≤ deadline timer + late ∧ deadline timer < now + half
  active : ∀ timer ∈ s.list, (s.timer timer).activated = true
  once : s.temporary.Nodup
  apart : ∀ timer ∈ s.temporary, timer ∉ s.list

/-- The deadlines after a call. -/
def dueAfter (s : Timers τ ω) (now : Nat) (deadline : τ → Nat) : TimerCall τ → τ → Nat
  | .start timer => fun other => if other = timer then now + (s.timer timer).initTick.toNat else deadline other
  | _ => deadline

section Calls
variable {plain : τ → Bool} {s : Timers τ ω} {late now : Nat} {deadline : τ → Nat}

theorem Settled.call (settled : Settled plain s) (call : TimerCall τ) (fine : Fine plain call) :
    Settled plain (s.call call) := by
  intro other
  obtain ⟨small, positive, oneshot⟩ := settled other
  cases call with
  | start timer =>
    simp only [Timers.call, Timers.rtTimerStart, Timers.update_timer, Timers.remove_timer]
    split
    next same => subst same; simpa using ⟨small, positive, oneshot⟩
    next => exact ⟨small, positive, oneshot⟩
  | stop timer =>
    simp only [Timers.call, Timers.rtTimerStop, Timers.rtTimerDetach]
    split
    · simp only [Timers.update_timer, Timers.remove_timer]
      split <;> exact ⟨small, positive, oneshot⟩
    · exact ⟨small, positive, oneshot⟩
  | detach timer =>
    simp only [Timers.call, Timers.rtTimerDetach, Timers.update_timer, Timers.remove_timer]
    split <;> exact ⟨small, positive, oneshot⟩
  | setTime timer time =>
    simp only [Timers.call, Timers.update_timer]
    split
    next same => subst same; exact ⟨fine.1, fine.2, oneshot⟩
    next => exact ⟨small, positive, oneshot⟩
  | setOneshot timer =>
    simp only [Timers.call, Timers.update_timer]
    split
    · exact ⟨small, positive, fun _ => rfl⟩
    · exact ⟨small, positive, oneshot⟩
  | setPeriodic timer =>
    simp only [Timers.call, Timers.update_timer]
    split
    next same => subst same; exact ⟨small, positive, fun is => absurd is (by rw [fine]; exact Bool.false_ne_true)⟩
    next => exact ⟨small, positive, oneshot⟩

omit [DecidableEq τ] in
/-- Only the timers in the list count, and of them two fields. -/
theorem Agenda.congr {after : Timers τ ω} (agenda : Agenda late now deadline s) (tick : after.tick = s.tick)
    (list : after.list = s.list) (temporary : after.temporary.Sublist s.temporary)
    (same : ∀ timer ∈ s.list, (after.timer timer).timeoutTick = (s.timer timer).timeoutTick ∧
      (after.timer timer).activated = (s.timer timer).activated) : Agenda late now deadline after := by
  obtain ⟨shown, nodup, sorted, shows, near, active, once, apart⟩ := agenda
  rw [← list] at nodup sorted shows near active apart same
  refine ⟨tick ▸ shown, nodup, sorted, fun timer member => ?_, near, fun timer member => ?_, once.sublist temporary,
    fun timer member => ?_⟩
  · rw [(same timer member).1]
    exact shows timer member
  · rw [(same timer member).2]
    exact active timer member
  · exact apart timer (temporary.subset member)

theorem Agenda.detach (agenda : Agenda late now deadline s) (timer : τ) :
    Agenda late now deadline (s.rtTimerDetach timer) := by
  obtain ⟨shown, nodup, sorted, shows, near, active, once, apart⟩ := agenda
  have kept : ∀ other ∈ s.list.erase timer, other ≠ timer ∧ other ∈ s.list :=
    fun other member => nodup.mem_erase_iff.mp member
  refine ⟨shown, nodup.erase timer, sorted.sublist List.erase_sublist, fun other member => ?_, fun other member => ?_,
    fun other member => ?_, once.erase timer, fun other member => ?_⟩
  · simpa [Timers.rtTimerDetach, (kept other member).1] using shows other (kept other member).2
  · exact near other (kept other member).2
  · simpa [Timers.rtTimerDetach, (kept other member).1] using active other (kept other member).2
  · exact fun inside => apart other (List.erase_subset member) (kept other inside).2

omit [DecidableEq τ] in
theorem Agenda.ticked (agenda : Agenda 0 now deadline s) :
    Agenda 1 (now + 1) deadline { s with tick := s.tick + 1 } :=
  { agenda with
    tick := agenda.tick.next
    near := fun timer member => by have := agenda.near timer member; omega }

omit [DecidableEq τ] in
theorem Agenda.later {first second : Nat} (agenda : Agenda first now deadline s)
    (near : ∀ timer ∈ s.list, now ≤ deadline timer + second) : Agenda second now deadline s :=
  { agenda with near := fun timer member => ⟨near timer member, (agenda.near timer member).2⟩ }

omit [DecidableEq τ] in
/-- The test of `rt_timer_check`. -/
theorem Agenda.ripe (agenda : Agenda late now deadline s) (some_time : late ≤ 1) {timer : τ}
    (member : timer ∈ s.list) :
    s.tick - (s.timer timer).timeoutTick < tickMax / 2 ↔ deadline timer ≤ now := by
  obtain ⟨early, close⟩ := agenda.near timer member
  have value : half = 2147483647 := rfl
  refine agenda.tick.less_half (agenda.shows timer member) (by rw [half_eq]; decide) ?_ ?_
  all_goals
    rw [half_eq]
    omega

/-- Where the walk of `rt_timer_start` stops. -/
def startStops (s : Timers τ ω) (timer : τ) : τ → Bool :=
  ((s.remove timer).update timer fun t =>
    { t with activated := false, timeoutTick := s.tick + t.initTick }).stopsAt (s.tick + (s.timer timer).initTick)

theorem start_list (s : Timers τ ω) (timer : τ) :
    (s.rtTimerStart timer).list = Deadlines.insert (startStops s timer) timer (s.list.erase timer) := by
  simp [Timers.rtTimerStart, startStops]

theorem Agenda.stops (agenda : Agenda late now deadline s) (timer : τ) (some_time : late ≤ 1)
    (small : (s.timer timer).initTick.toNat < half) : ∀ other ∈ s.list.erase timer,
      startStops s timer other = true ↔ now + (s.timer timer).initTick.toNat < deadline other := by
  intro other member
  have value : half = 2147483647 := rfl
  obtain ⟨different, inside⟩ := agenda.nodup.mem_erase_iff.mp member
  obtain ⟨early, close⟩ := agenda.near other inside
  have own := agenda.tick.add (s.timer timer).initTick
  have equal := (agenda.shows other inside).sub_eq_zero own (by omega) (by omega)
  have order : (s.timer other).timeoutTick - (s.tick + (s.timer timer).initTick) < tickMax / 2 ↔
      now + (s.timer timer).initTick.toNat ≤ deadline other :=
    (agenda.shows other inside).less_half own (by rw [half_eq]; decide) (by rw [half_eq]; omega) (by rw [half_eq]; omega)
  simp only [startStops, Timers.stopsAt, Timers.update_timer, Timers.remove_timer, if_neg different]
  split
  next zero =>
    have := equal.mp zero
    constructor
    · intro wrong; cases wrong
    · intro less; omega
  next apart =>
    rw [decide_eq_true_iff, order]
    have : deadline other ≠ now + (s.timer timer).initTick.toNat := fun is => apart (equal.mpr is)
    omega

/-- What `rt_timer_start` leaves: the timer in the list at its new deadline. -/
theorem Agenda.start (agenda : Agenda late now deadline s) (timer : τ) (some_time : late ≤ 1)
    (small : (s.timer timer).initTick.toNat < half) :
    Agenda late now (dueAfter s now deadline (.start timer)) (s.rtTimerStart timer) := by
  have stop := agenda.stops timer some_time small
  obtain ⟨shown, nodup, sorted, shows, near, active, once, apart⟩ := agenda
  have value : half = 2147483647 := rfl
  have kept : ∀ other ∈ s.list.erase timer, other ≠ timer ∧ other ∈ s.list :=
    fun other member => nodup.mem_erase_iff.mp member
  have same : ∀ other ∈ s.list.erase timer, dueAfter s now deadline (.start timer) other = deadline other :=
    fun other member => if_neg (kept other member).1
  have due : dueAfter s now deadline (.start timer) timer = now + (s.timer timer).initTick.toNat := if_pos rfl
  have members : ∀ other ∈ (s.rtTimerStart timer).list, other = timer ∨ other ∈ s.list.erase timer := by
    rw [start_list]
    exact fun other member => mem_insert.mp member
  refine ⟨shown, ?_, ?_, fun other member => ?_, fun other member => ?_, fun other member => ?_, once.erase timer,
    fun other member => ?_⟩
  · rw [start_list]
    exact nodup_insert (fun member => (kept timer member).1 rfl) (nodup.erase timer)
  · rw [start_list]
    refine sorted_insert ((sorted.sublist List.erase_sublist).imp_of_mem fun first second order => ?_) fun other member => ?_
    · rw [same _ first, same _ second]
      exact order
    · rw [same other member, due]
      exact stop other member
  · rcases members other member with rfl | inside
    · rw [due]
      simpa [Timers.rtTimerStart] using shown.add (s.timer other).initTick
    · rw [same other inside]
      simpa [Timers.rtTimerStart, (kept other inside).1] using shows other (kept other inside).2
  · rcases members other member with rfl | inside
    · rw [due]
      omega
    · rw [same other inside]
      exact near other (kept other inside).2
  · rcases members other member with rfl | inside
    · simp [Timers.rtTimerStart]
    · simpa [Timers.rtTimerStart, (kept other inside).1] using active other (kept other inside).2
  · intro inside
    have was : other ∈ s.temporary.erase timer := member
    rcases members other inside with rfl | within
    · exact once.not_mem_erase was
    · exact apart other (List.erase_subset was) (kept other within).2

theorem Agenda.call (agenda : Agenda late now deadline s) (some_time : late ≤ 1) (settled : Settled plain s)
    (call : TimerCall τ) : Agenda late now (dueAfter s now deadline call) (s.call call) := by
  cases call with
  | start timer => exact agenda.start timer some_time (settled timer).1
  | stop timer =>
    simp only [Timers.call, Timers.rtTimerStop]
    split
    · exact agenda.detach timer
    · exact agenda
  | detach timer => exact agenda.detach timer
  | setTime timer time | setOneshot timer | setPeriodic timer =>
    refine agenda.congr rfl rfl (.refl _) fun other _ => ?_
    simp only [Timers.call, Timers.update_timer]
    split <;> exact ⟨rfl, rfl⟩

theorem call_same (s : Timers τ ω) (call : TimerCall τ) :
    (s.call call).fired = s.fired ∧ (s.call call).world = s.world := by
  cases call with
  | stop timer =>
    simp only [Timers.call, Timers.rtTimerStop]
    split <;> exact ⟨rfl, rfl⟩
  | start timer | detach timer | setTime timer time | setOneshot timer | setPeriodic timer => exact ⟨rfl, rfl⟩

private theorem call_temporary (s : Timers τ ω) (call : TimerCall τ) : (s.call call).temporary.Sublist s.temporary := by
  cases call with
  | stop timer =>
    simp only [Timers.call, Timers.rtTimerStop]
    split
    · exact List.erase_sublist
    · exact .refl _
  | start timer | detach timer => exact List.erase_sublist
  | setTime timer time | setOneshot timer | setPeriodic timer => exact .refl _

/-- What stays of a timer that nobody calls about. -/
structure Untouched (timer : τ) (deadline : τ → Nat) (s : Timers τ ω) (later : τ → Nat)
    (after : Timers τ ω) : Prop where
  fields : after.timer timer = s.timer timer
  listed : timer ∈ after.list ↔ timer ∈ s.list
  temporary : timer ∈ after.temporary ↔ timer ∈ s.temporary
  deadline : later timer = deadline timer

omit [DecidableEq τ] in
theorem Untouched.trans {timer : τ} {first second third : τ → Nat} {middle after : Timers τ ω}
    (one : Untouched timer first s second middle) (two : Untouched timer second middle third after) :
    Untouched timer first s third after :=
  ⟨two.fields.trans one.fields, two.listed.trans one.listed, two.temporary.trans one.temporary, two.deadline.trans one.deadline⟩

theorem call_untouched (s : Timers τ ω) (now : Nat) (deadline : τ → Nat) (call : TimerCall τ) {timer : τ}
    (different : call.timer ≠ timer) : Untouched timer deadline s (dueAfter s now deadline call) (s.call call) := by
  have other : timer ≠ call.timer := different.symm
  have detached : Untouched timer deadline s deadline (s.rtTimerDetach call.timer) := by
    refine ⟨?_, List.mem_erase_of_ne other, List.mem_erase_of_ne other, rfl⟩
    simp [Timers.rtTimerDetach, other]
  cases call with
  | start started =>
    have other : timer ≠ started := other
    refine ⟨?_, ?_, List.mem_erase_of_ne other, if_neg other⟩
    · simp [Timers.call, Timers.rtTimerStart, other]
    · simp only [Timers.call, Timers.rtTimerStart, Timers.update_list, mem_insert, Timers.remove_list]
      rw [List.mem_erase_of_ne other]
      exact or_iff_right other
  | stop stopped =>
    simp only [Timers.call, Timers.rtTimerStop]
    split
    · exact detached
    · exact ⟨rfl, .rfl, .rfl, rfl⟩
  | detach stopped => exact detached
  | setTime changed time | setOneshot changed | setPeriodic changed =>
    exact ⟨if_neg other, .rfl, .rfl, rfl⟩

/-- The deadline of a timer in the list is as it was, or the timer was started. -/
theorem call_listed (s : Timers τ ω) (now : Nat) (deadline : τ → Nat) (call : TimerCall τ) {timer : τ}
    (member : timer ∈ (s.call call).list) : timer ∈ s.list ∧ dueAfter s now deadline call timer = deadline timer ∨
      call = .start timer ∧ dueAfter s now deadline call timer = now + (s.timer timer).initTick.toNat := by
  by_cases same : call.timer = timer
  · subst same
    cases call with
    | start timer => exact .inr ⟨rfl, if_pos rfl⟩
    | stop timer =>
      refine .inl ⟨?_, rfl⟩
      simp only [Timers.call, Timers.rtTimerStop] at member
      split at member
      · exact List.mem_of_mem_erase member
      · exact member
    | detach timer => exact .inl ⟨List.mem_of_mem_erase member, rfl⟩
    | setTime timer time | setOneshot timer | setPeriodic timer => exact .inl ⟨member, rfl⟩
  · have untouched := call_untouched s now deadline call same
    exact .inl ⟨untouched.listed.mp member, untouched.deadline⟩

/-- The flag of a timer says that it is in the list, or that it is periodic and its
timeout function runs. -/
def Marked (timer : τ) (s : Timers τ ω) : Prop :=
  (s.timer timer).activated = true → timer ∈ s.list ∨ timer ∈ s.temporary ∧ (s.timer timer).periodic = true

/-- Only the timeout function of a periodic timer can leave it a flag that says nothing. -/
theorem Marked.call {timer : τ} (marked : Marked timer s) (call : TimerCall τ)
    (periodic : timer ∈ s.temporary → call ≠ .setOneshot timer) : Marked timer (s.call call) := by
  by_cases same : call.timer = timer
  · subst same
    cases call with
    | start timer => exact fun _ => .inl (mem_insert.mpr (.inl rfl))
    | stop timer =>
      by_cases active : (s.timer timer).activated = true
      · intro still
        simp [Timers.call, Timers.rtTimerStop, Timers.rtTimerDetach, TimerCall.timer, active] at still
      · rwa [show s.call (.stop timer) = s from if_neg active]
    | detach timer =>
      intro still
      simp [Timers.call, Timers.rtTimerDetach, TimerCall.timer] at still
    | setTime timer time => simpa [Marked, Timers.call, TimerCall.timer] using marked
    | setOneshot timer =>
      intro active
      have was := marked (by simpa [Timers.call, TimerCall.timer] using active)
      exact .inl (was.resolve_right fun runs => periodic runs.1 rfl)
    | setPeriodic timer =>
      intro active
      have was := marked (by simpa [Timers.call, TimerCall.timer] using active)
      exact was.imp_right fun runs => ⟨runs.1, by simp [Timers.call, TimerCall.timer]⟩
  · have untouched := call_untouched s 0 (fun _ => 0) call same
    unfold Marked
    rw [untouched.fields, untouched.listed, untouched.temporary]
    exact marked

private theorem calls_temporary (s : Timers τ ω) (calls : List (TimerCall τ)) :
    (calls.foldl Timers.call s).temporary.Sublist s.temporary := by
  induction calls generalizing s with
  | nil => exact .refl _
  | cons call calls ih => exact (ih _).trans (call_temporary s call)

theorem Marked.calls {timer : τ} (marked : Marked timer s) (calls : List (TimerCall τ))
    (periodic : timer ∈ s.temporary → .setOneshot timer ∉ calls) : Marked timer (calls.foldl Timers.call s) := by
  induction calls generalizing s with
  | nil => exact marked
  | cons call calls ih =>
    have here := marked.call call fun runs is => periodic runs (is ▸ List.mem_cons_self)
    exact ih here fun runs later => periodic ((call_temporary s call).subset runs) (List.mem_cons_of_mem _ later)

/-- What a piece of `rt_timer_check` leaves: no timer becomes due by it. -/
structure Moved (plain : τ → Bool) (now : Nat) (deadline : τ → Nat) (s : Timers τ ω) (later : τ → Nat)
    (after : Timers τ ω) : Prop where
  agenda : Agenda 1 now later after
  settled : Settled plain after
  listed : ∀ timer ∈ after.list, timer ∈ s.list ∧ later timer = deadline timer ∨ now < later timer

theorem calls_moved (agenda : Agenda 1 now deadline s) (settled : Settled plain s) (calls : List (TimerCall τ))
    (fine : ∀ call ∈ calls, Fine plain call) (starts : ∀ timer, .start timer ∈ calls → plain timer = false) :
    ∃ later, Moved plain now deadline s later (calls.foldl Timers.call s) ∧
      (calls.foldl Timers.call s).fired = s.fired ∧
      ∀ timer, (∀ call ∈ calls, call.timer ≠ timer) →
      Untouched timer deadline s later (calls.foldl Timers.call s) := by
  induction calls generalizing s deadline with
  | nil =>
    exact ⟨deadline, ⟨agenda, settled, fun _ member => .inl ⟨member, rfl⟩⟩, rfl, fun _ _ => ⟨rfl, .rfl, .rfl, rfl⟩⟩
  | cons call calls ih =>
    have here : Fine plain call := fine call List.mem_cons_self
    obtain ⟨later, ⟨agenda_later, settled_later, listed⟩, fired, untouched⟩ :=
      ih (agenda.call (Nat.le_refl 1) settled call) (settled.call call here)
        (fun other member => fine other (List.mem_cons_of_mem _ member))
        (fun timer member => starts timer (List.mem_cons_of_mem _ member))
    refine ⟨later, ⟨agenda_later, settled_later, fun timer member => ?_⟩, fired.trans (call_same s call).1,
      fun timer apart => ?_⟩
    · rcases listed timer member with ⟨inside, same⟩ | after
      · rcases call_listed s now deadline call inside with ⟨old, equal⟩ | ⟨started, equal⟩
        · exact .inl ⟨old, same.trans equal⟩
        · refine .inr ?_
          have positive := (settled timer).2.1 (starts timer (started ▸ List.mem_cons_self))
          have : (s.timer timer).initTick.toNat ≠ 0 := fun zero => positive (UInt32.toNat_inj.mp zero)
          omega
      · exact .inr after
    · exact (call_untouched s now deadline call (apart call List.mem_cons_self)).trans
        (untouched timer fun other member => apart other (List.mem_cons_of_mem _ member))

end Calls

section Firing
variable (system : System τ ω) {s : Timers τ ω} {late now : Nat} {deadline : τ → Nat} {timer : τ} {rest : List τ}

/-- The timeout functions leave a timer alone. -/
def System.Leaves (other : τ) : Prop := ∀ timer world, ∀ call ∈ (system.timeout timer world).2, call.timer ≠ other

/-- The first timer is taken out of the list for its timeout function. -/
def takeOut (s : Timers τ ω) (timer : τ) (world : ω) : Timers τ ω :=
  let s := (s.remove timer).update timer fun t => { t with activated := t.activated && t.periodic }
  { s with temporary := timer :: s.temporary, fired := s.fired ++ [timer], world }

theorem Agenda.taken (agenda : Agenda late now deadline s) (first : s.list = timer :: rest) (none : s.temporary = [])
    (world : ω) : Agenda late now deadline (takeOut s timer world) ∧ (takeOut s timer world).list = rest := by
  obtain ⟨shown, nodup, sorted, shows, near, active, once, apart⟩ := agenda
  have list : (takeOut s timer world).list = rest := by simp [takeOut, first]
  have temporary : (takeOut s timer world).temporary = [timer] := by simp [takeOut, none]
  rw [first] at nodup sorted shows near active
  obtain ⟨new, rest_nodup⟩ := List.nodup_cons.mp nodup
  have same : ∀ other ∈ rest, (takeOut s timer world).timer other = s.timer other := fun other member => by
    have : other ≠ timer := fun is => new (is ▸ member)
    simp [takeOut, this]
  refine ⟨⟨shown, ?_, ?_, fun other member => ?_, fun other member => ?_, fun other member => ?_, ?_,
    fun other member => ?_⟩, list⟩
  · rw [list]; exact rest_nodup
  · rw [list]; exact (List.pairwise_cons.mp sorted).2
  · rw [list] at member
    rw [same other member]
    exact shows other (List.mem_cons_of_mem _ member)
  · rw [list] at member
    exact near other (List.mem_cons_of_mem _ member)
  · rw [list] at member
    rw [same other member]
    exact active other (List.mem_cons_of_mem _ member)
  · rw [temporary]; exact List.nodup_singleton _
  · rw [temporary] at member
    rw [list, List.mem_singleton.mp member]
    exact new

theorem Settled.taken (settled : Settled system.plain s) (timer : τ) (world : ω) :
    Settled system.plain (takeOut s timer world) := by
  intro other
  simp only [takeOut, Timers.update_timer, Timers.remove_timer]
  split <;> exact settled other

/-- The second half of the loop's body, after the timeout function. -/
def finish (s : Timers τ ω) (timer : τ) : Timers τ ω :=
  if s.temporary = [] then s
  else if (s.timer timer).periodic ∧ (s.timer timer).activated then
    ({ s with temporary := s.temporary.erase timer }.update timer fun t => { t with activated := false }).rtTimerStart timer
  else { s with temporary := s.temporary.erase timer }

theorem fire_eq (s : Timers τ ω) (timer : τ) : s.fire system.timeout timer =
    finish ((system.timeout timer s.world).2.foldl Timers.call
      (takeOut s timer (system.timeout timer s.world).1)) timer := rfl

/-- What becomes of a timer in the list: it has left, or stands at a new deadline
with the settings it had. -/
def Restarted (now : Nat) (before : Timer) (later : τ → Nat) (after : Timers τ ω) (timer : τ) : Prop :=
  if before.periodic then
    timer ∈ after.list ∧ later timer = now + before.initTick.toNat ∧
      (after.timer timer).initTick = before.initTick ∧ (after.timer timer).periodic = true
  else
    timer ∉ after.list

theorem finish_spec (agenda : Agenda 1 now deadline s) (settled : Settled system.plain s)
    (only : s.temporary.Sublist [timer]) :
    ∃ later, Moved system.plain now deadline s later (finish s timer) ∧
      (finish s timer).temporary = [] ∧ (finish s timer).fired = s.fired ∧
      (∀ other, other ≠ timer → Untouched other deadline s later (finish s timer)) ∧
      (timer ∈ s.temporary → ((s.timer timer).activated = (s.timer timer).periodic) →
        Restarted now (s.timer timer) later (finish s timer) timer) := by
  unfold finish
  rcases List.sublist_singleton.mp only with none | one
  · rw [if_pos none]
    refine ⟨deadline, ⟨agenda, settled, fun _ member => .inl ⟨member, rfl⟩⟩, none, rfl, fun _ _ => ⟨rfl, .rfl, .rfl, rfl⟩,
      fun member => ?_⟩
    rw [none] at member
    exact absurd member List.not_mem_nil
  · have some : s.temporary ≠ [] := one ▸ List.cons_ne_nil _ _
    have away : timer ∉ s.list := agenda.apart timer (one ▸ List.mem_singleton_self _)
    have erased : s.temporary.erase timer = [] := by rw [one]; exact List.erase_cons_head timer []
    have out : ∀ other, other ≠ timer → other ∉ s.temporary := fun other different member =>
      different (List.mem_singleton.mp (one ▸ member))
    rw [if_neg some]
    by_cases again : (s.timer timer).periodic = true ∧ (s.timer timer).activated = true
    · rw [if_pos again]
      let ready := { s with temporary := s.temporary.erase timer }.update timer fun t => { t with activated := false }
      have positive : (s.timer timer).initTick.toNat ≠ 0 := by
        obtain ⟨_, nonzero, oneshot⟩ := settled timer
        refine fun zero => nonzero ?_ (UInt32.toNat_inj.mp zero)
        exact Bool.eq_false_iff.mpr fun is => absurd again.1 (by rw [oneshot is]; exact Bool.false_ne_true)
      have ready_agenda : Agenda 1 now deadline ready := by
        refine agenda.congr rfl rfl List.erase_sublist fun other member => ?_
        have different : other ≠ timer := fun is => away (is ▸ member)
        simp [ready, different]
      have settled_ready : Settled system.plain ready := by
        intro other
        simp only [ready, Timers.update_timer]
        split <;> exact settled other
      have init : (ready.timer timer).initTick = (s.timer timer).initTick := by simp [ready]
      have started := ready_agenda.call (Nat.le_refl 1) settled_ready (.start timer)
      have listed := fun other => @call_listed τ ω _ ready now deadline (.start timer) other
      have untouched : ∀ other, other ≠ timer →
          Untouched other deadline s (dueAfter ready now deadline (.start timer)) (ready.rtTimerStart timer) := by
        intro other different
        have moved := @call_untouched τ ω _ ready now deadline (.start timer) other different.symm
        refine ⟨?_, moved.listed, ?_, moved.deadline⟩
        · rw [show (ready.rtTimerStart timer).timer other = ready.timer other from moved.fields]
          simp [ready, different]
        · refine moved.temporary.trans ?_
          exact iff_of_false (fun member => out other different (List.erase_subset member)) (out other different)
      refine ⟨dueAfter ready now deadline (.start timer), ⟨started, settled_ready.call (.start timer) trivial,
        fun other member => ?_⟩, ?_, rfl, untouched, fun _ _ => ?_⟩
      · rcases listed other member with ⟨old, same⟩ | ⟨is, due⟩
        · exact .inl ⟨old, same⟩
        · cases is
          rw [init] at due
          exact .inr (by omega)
      · simp [Timers.rtTimerStart, erased]
      · unfold Restarted
        rw [if_pos again.1]
        refine ⟨?_, ?_, ?_, ?_⟩
        · simp [Timers.rtTimerStart]
        · rw [← init]
          exact if_pos rfl
        · simp [Timers.rtTimerStart]
        · simpa [Timers.rtTimerStart] using again.1
    · rw [if_neg again]
      refine ⟨deadline, ⟨agenda.congr rfl rfl List.erase_sublist fun _ _ => ⟨rfl, rfl⟩, settled,
        fun _ member => .inl ⟨member, rfl⟩⟩, erased, rfl, fun other different => ⟨rfl, .rfl, ?_, rfl⟩, fun _ same => ?_⟩
      · exact iff_of_false (fun member => out other different (List.erase_subset member)) (out other different)
      · unfold Restarted
        rw [if_neg fun periodic => again ⟨periodic, same.trans periodic⟩]
        exact away

theorem fire_spec (agenda : Agenda 1 now deadline s) (settled : Settled system.plain s)
    (first : s.list = timer :: rest) (none : s.temporary = []) :
    ∃ later, Agenda 1 now later (s.fire system.timeout timer) ∧ Settled system.plain (s.fire system.timeout timer) ∧
      (s.fire system.timeout timer).temporary = [] ∧ (s.fire system.timeout timer).fired = s.fired ++ [timer] ∧
      (∀ other ∈ (s.fire system.timeout timer).list, other ∈ rest ∧ later other = deadline other ∨
        now < later other) ∧
      (∀ other, system.Leaves other → other ≠ timer →
        Untouched other deadline s later (s.fire system.timeout timer)) ∧
      (system.Leaves timer → Restarted now (s.timer timer) later (s.fire system.timeout timer) timer) := by
  have active := agenda.active timer (first ▸ List.mem_cons_self)
  obtain ⟨taken_agenda, list⟩ := agenda.taken first none (system.timeout timer s.world).1
  rw [fire_eq]
  generalize called : (system.timeout timer s.world).2 = calls
  have fine : ∀ call ∈ calls, Fine system.plain call := called ▸ system.fine timer s.world
  have starts : ∀ other, .start other ∈ calls → system.plain other = false := called ▸ system.starts timer s.world
  obtain ⟨middle, moved, fired, left⟩ := calls_moved taken_agenda (settled.taken system timer _) calls fine starts
  have sublist := calls_temporary (takeOut s timer (system.timeout timer s.world).1) calls
  have temporary : (takeOut s timer (system.timeout timer s.world).1).temporary = [timer] := by simp [takeOut, none]
  rw [temporary] at sublist
  obtain ⟨later, ended, empty, same_fired, untouched, again⟩ := finish_spec system moved.agenda moved.settled sublist
  refine ⟨later, ended.agenda, ended.settled, empty, ?_, fun other member => ?_, fun other leaves different => ?_, fun leaves => ?_⟩
  · rw [same_fired, fired]
    rfl
  · rcases ended.listed other member with ⟨inside, same⟩ | after
    · rcases moved.listed other inside with ⟨old, equal⟩ | after
      · exact .inl ⟨list ▸ old, same.trans equal⟩
      · exact .inr (same ▸ after)
    · exact .inr after
  · have gone := (left other (called ▸ leaves timer s.world)).trans (untouched other different)
    refine ⟨?_, ?_, ?_, gone.deadline⟩
    · rw [gone.fields]
      simp [takeOut, different]
    · rw [gone.listed, list, first, List.mem_cons]
      exact (or_iff_right different).symm
    · rw [gone.temporary, temporary, none, List.mem_singleton]
      exact iff_of_false different List.not_mem_nil
  · have kept := left timer (called ▸ leaves timer s.world)
    have fields : (List.foldl Timers.call (takeOut s timer (system.timeout timer s.world).1) calls).timer timer =
        { s.timer timer with activated := (s.timer timer).activated && (s.timer timer).periodic } := by
      rw [kept.fields]
      simp [takeOut]
    have restarted :=
      again (kept.temporary.mpr (temporary ▸ List.mem_singleton_self _)) (by rw [fields]; simp [active])
    rw [fields] at restarted
    exact restarted

private theorem finish_marked {other : τ} (marked : Marked other s) (only : s.temporary.Sublist [timer]) :
    Marked other (finish s timer) ∧ (finish s timer).temporary = [] := by
  unfold finish
  rcases List.sublist_singleton.mp only with none | one
  · rw [if_pos none]
    exact ⟨marked, none⟩
  · have erased : s.temporary.erase timer = [] := by rw [one]; exact List.erase_cons_head timer []
    rw [if_neg (one ▸ List.cons_ne_nil _ _)]
    split
    next again =>
      refine ⟨fun active => ?_, by simp [Timers.rtTimerStart, erased]⟩
      by_cases same : other = timer
      · exact .inl (mem_insert.mpr (.inl same))
      · have was := marked (by simpa [Timers.rtTimerStart, same] using active)
        rw [one, List.mem_singleton] at was
        have inside : other ∈ s.list := was.resolve_right fun runs => same runs.1
        exact .inl (mem_insert.mpr (.inr ((List.mem_erase_of_ne same).mpr inside)))
    next stays =>
      refine ⟨fun active => .inl ((marked active).resolve_right fun runs => ?_), erased⟩
      rw [one, List.mem_singleton] at runs
      exact stays (runs.1 ▸ ⟨runs.2, active⟩)

/-- The timeout function of the timer does not make it one-shot. -/
def System.StaysPeriodic (timer : τ) : Prop := ∀ world, .setOneshot timer ∉ (system.timeout timer world).2

/-- Between two timeout functions the flag of such a timer is right. -/
theorem fire_marked {other : τ} (stays : system.StaysPeriodic other) (first : s.list = timer :: rest)
    (none : s.temporary = []) (marked : Marked other s) :
    Marked other (s.fire system.timeout timer) ∧ (s.fire system.timeout timer).temporary = [] := by
  rw [fire_eq]
  have taken : Marked other (takeOut s timer (system.timeout timer s.world).1) := by
    intro active
    by_cases same : other = timer
    · subst same
      simp only [takeOut, Timers.update_timer, if_true, Timers.remove_timer, Bool.and_eq_true] at active
      exact .inr ⟨List.mem_cons_self, by simpa [takeOut] using active.2⟩
    · have was := marked (by simpa [takeOut, same] using active)
      rw [none] at was
      have inside : other ∈ s.list := was.resolve_right fun runs => List.not_mem_nil runs.1
      exact .inl ((List.mem_erase_of_ne same).mpr inside)
  have temporary : (takeOut s timer (system.timeout timer s.world).1).temporary = [timer] := by simp [takeOut, none]
  have called := taken.calls (system.timeout timer s.world).2 fun runs => by
    obtain rfl := List.mem_singleton.mp (temporary ▸ runs)
    exact stays s.world
  have only := calls_temporary (takeOut s timer (system.timeout timer s.world).1) (system.timeout timer s.world).2
  exact finish_marked called (temporary ▸ only)

omit [DecidableEq τ] in
theorem Restarted.oneshot {before : Timer} {later : τ → Nat} {after : Timers τ ω}
    (restarted : Restarted now before later after timer) (oneshot : before.periodic = false) :
    timer ∉ after.list := by
  unfold Restarted at restarted
  rwa [if_neg (by rw [oneshot]; exact Bool.false_ne_true)] at restarted

omit [DecidableEq τ] in
theorem Restarted.untouched {before : Timer} {later : τ → Nat} {after : Timers τ ω}
    (restarted : Restarted now before deadline s timer) (same : Untouched timer deadline s later after) :
    Restarted now before later after timer := by
  unfold Restarted at *
  split at restarted
  · obtain ⟨member, due, init, periodic⟩ := restarted
    rw [if_pos ‹_›, same.fields, same.deadline]
    exact ⟨same.listed.mpr member, due, init, periodic⟩
  · rw [if_neg ‹_›]
    exact fun member => restarted (same.listed.mp member)

/-- What `rt_timer_check` does to a timer that the timeout functions leave alone. -/
def Passed (now : Nat) (deadline : τ → Nat) (s : Timers τ ω) (later : τ → Nat) (after : Timers τ ω)
    (timer : τ) : Prop :=
  if timer ∈ s.list ∧ deadline timer ≤ now then
    Restarted now (s.timer timer) later after timer ∧ after.fired.count timer = s.fired.count timer + 1
  else
    Untouched timer deadline s later after ∧ after.fired.count timer = s.fired.count timer

theorem Passed.due {later : τ → Nat} {after : Timers τ ω} (passed : Passed now deadline s later after timer)
    (member : timer ∈ s.list) (due : deadline timer ≤ now) :
    Restarted now (s.timer timer) later after timer ∧ after.fired.count timer = s.fired.count timer + 1 := by
  unfold Passed at passed
  rwa [if_pos ⟨member, due⟩] at passed

theorem Passed.spared {later : τ → Nat} {after : Timers τ ω} (passed : Passed now deadline s later after timer)
    (spared : ¬(timer ∈ s.list ∧ deadline timer ≤ now)) :
    Untouched timer deadline s later after ∧ after.fired.count timer = s.fired.count timer := by
  unfold Passed at passed
  rwa [if_neg spared] at passed

/-- The loop ends when it may take more turns than there are timers due at first,
and by then it has called the timeout function of each of them. -/
theorem check_spec {turns : Nat} (agenda : Agenda 1 now deadline s) (settled : Settled system.plain s)
    (none : s.temporary = []) (due : List τ) (covers : ∀ timer ∈ s.list, deadline timer ≤ now → timer ∈ due)
    (enough : due.length < turns) :
    ∃ after later, Timers.rtTimerCheck system.timeout turns s = some after ∧ Agenda 1 now later after ∧
      Settled system.plain after ∧ after.temporary = [] ∧ (∀ timer ∈ after.list, now < later timer) ∧
      ∀ timer, system.Leaves timer → Passed now deadline s later after timer := by
  induction turns generalizing s deadline due with
  | zero => exact absurd enough (Nat.not_lt_zero _)
  | succ turns ih =>
    have stays : (∀ timer ∈ s.list, now < deadline timer) → ∀ timer, Passed now deadline s deadline s timer := by
      intro all timer
      unfold Passed
      rw [if_neg fun is => Nat.not_le.mpr (all timer is.1) is.2]
      exact ⟨⟨rfl, .rfl, .rfl, rfl⟩, rfl⟩
    unfold Timers.rtTimerCheck
    cases first : s.list with
    | nil =>
      have all : ∀ timer ∈ s.list, now < deadline timer := fun timer member => by rw [first] at member; cases member
      exact ⟨s, deadline, rfl, agenda, settled, none, all, fun timer _ => stays all timer⟩
    | cons head rest =>
      have member : head ∈ s.list := first ▸ List.mem_cons_self
      have test := agenda.ripe (Nat.le_refl 1) member
      dsimp only
      by_cases ripe : deadline head ≤ now
      · rw [if_pos (test.mpr ripe)]
        have inside : head ∈ due := covers head member ripe
        obtain ⟨middle, fired_agenda, fired_settled, empty, fired, listed, untouched, again⟩ :=
          fire_spec system agenda settled first none
        have rest_out : head ∉ rest := (List.nodup_cons.mp (first ▸ agenda.nodup)).1
        obtain ⟨after, later, checked, ended, settled_after, empty_after, all, passed⟩ :=
          ih fired_agenda fired_settled empty (due.erase head) (fun other still before => by
              rcases listed other still with ⟨old, same⟩ | after
              · have was : other ∈ due := covers other (first ▸ List.mem_cons_of_mem _ old) (same ▸ before)
                have different : other ≠ head := fun is => rest_out (is ▸ old)
                exact (List.mem_erase_of_ne different).mpr was
              · omega)
            (by rw [List.length_erase_of_mem inside]; have := List.length_pos_of_mem inside; omega)
        refine ⟨after, later, checked, ended, settled_after, empty_after, all, fun timer leaves => ?_⟩
        have rest_passed := passed timer leaves
        by_cases same : timer = head
        · subst same
          have restarted := again leaves
          unfold Passed at rest_passed ⊢
          rw [if_pos ⟨member, ripe⟩]
          have not_due : ¬(timer ∈ (s.fire system.timeout timer).list ∧ middle timer ≤ now) := fun ⟨back, before⟩ => by
            rcases listed timer back with ⟨old, _⟩ | after
            · exact rest_out old
            · omega
          rw [if_neg not_due, fired] at rest_passed
          exact ⟨restarted.untouched rest_passed.1, by rw [rest_passed.2]; simp⟩
        · have kept := untouched timer leaves same
          have count : (s.fire system.timeout head).fired.count timer = s.fired.count timer := by
            rw [fired]
            simp [Ne.symm same]
          unfold Passed at rest_passed ⊢
          simp only [kept.listed, kept.deadline, kept.fields, count] at rest_passed
          by_cases is : timer ∈ s.list ∧ deadline timer ≤ now
          · rw [if_pos is] at rest_passed ⊢
            exact rest_passed
          · rw [if_neg is] at rest_passed ⊢
            exact ⟨kept.trans rest_passed.1, rest_passed.2⟩
      · rw [if_neg fun is => ripe (test.mp is)]
        have all : ∀ timer ∈ s.list, now < deadline timer := fun timer inside => by
          have sorted := agenda.sorted
          rw [first] at sorted inside
          rcases List.mem_cons.mp inside with rfl | behind
          · omega
          · have := (List.pairwise_cons.mp sorted).1 timer behind
            omega
        exact ⟨s, deadline, rfl, agenda, settled, none, all, fun timer _ => stays all timer⟩

/-- What the loop of `rt_timer_check` keeps, if its body does for every timer that is due. -/
theorem check_rule {turns : Nat} (holds : (τ → Nat) → Timers τ ω → Prop)
    (kept : ∀ deadline (s : Timers τ ω) timer rest later, Settled system.plain s → s.list = timer :: rest →
      timer ∉ rest →
      deadline timer ≤ now →
      (∀ other, system.Leaves other → other ≠ timer →
        Untouched other deadline s later (s.fire system.timeout timer)) →
      holds deadline s → holds later (s.fire system.timeout timer))
    (agenda : Agenda 1 now deadline s) (settled : Settled system.plain s) (none : s.temporary = [])
    (start : holds deadline s) {after : Timers τ ω}
    (checked : Timers.rtTimerCheck system.timeout turns s = some after) :
    ∃ later, holds later after := by
  induction turns generalizing s deadline with
  | zero => cases checked
  | succ turns ih =>
    unfold Timers.rtTimerCheck at checked
    cases first : s.list with
    | nil =>
      rw [first] at checked
      cases checked
      exact ⟨deadline, start⟩
    | cons head rest =>
      rw [first] at checked
      dsimp only at checked
      have test := agenda.ripe (Nat.le_refl 1) (first ▸ List.mem_cons_self)
      by_cases ripe : deadline head ≤ now
      · rw [if_pos (test.mpr ripe)] at checked
        obtain ⟨later, fired_agenda, fired_settled, empty, _, _, untouched, _⟩ :=
          fire_spec system agenda settled first none
        have new : head ∉ rest := (List.nodup_cons.mp (first ▸ agenda.nodup)).1
        exact ih fired_agenda fired_settled empty (kept deadline s head rest later settled first new ripe untouched start) checked
      · rw [if_neg fun is => ripe (test.mp is)] at checked
        cases checked
        exact ⟨deadline, start⟩

end Firing

section Order
variable (system : System τ ω) {s : Timers τ ω} {now : Nat} {deadline : τ → Nat} {turns : Nat}
  {one two : τ} {base : List τ}

theorem call_precedes (call : TimerCall τ) (first : call.timer ≠ one) (second : call.timer ≠ two)
    (precedes : [one, two].Sublist s.list) : [one, two].Sublist (s.call call).list := by
  have erased : [one, two].Sublist (s.list.erase call.timer) := precedes_erase first second precedes
  cases call with
  | start timer => exact erased.trans (sublist_insert _ _ _)
  | stop timer =>
    simp only [Timers.call, Timers.rtTimerStop]
    split
    · exact erased
    · exact precedes
  | detach timer => exact erased
  | setTime timer time | setOneshot timer | setPeriodic timer => exact precedes

private theorem fire_precedes {timer : τ} (first : timer ≠ one) (second : timer ≠ two) (leaves_one : system.Leaves one)
    (leaves_two : system.Leaves two) (precedes : [one, two].Sublist s.list) :
    [one, two].Sublist (s.fire system.timeout timer).list := by
  rw [fire_eq]
  have called : ∀ (calls : List (TimerCall τ)) (state : Timers τ ω), (∀ call ∈ calls, call.timer ≠ one ∧ call.timer ≠ two) →
      [one, two].Sublist state.list → [one, two].Sublist (calls.foldl Timers.call state).list := by
    intro calls
    induction calls with
    | nil => exact fun _ _ kept => kept
    | cons call calls ih =>
      intro state other kept
      obtain ⟨apart, away⟩ := other call List.mem_cons_self
      exact ih _ (fun call member => other call (List.mem_cons_of_mem _ member)) (call_precedes call apart away kept)
  have out : [one, two].Sublist (takeOut s timer (system.timeout timer s.world).1).list :=
    @call_precedes τ ω _ s one two (.detach timer) first second precedes
  have middle := called (system.timeout timer s.world).2 _
    (fun call member => ⟨leaves_one timer s.world call member, leaves_two timer s.world call member⟩) out
  unfold finish
  split
  · exact middle
  · split
    · exact call_precedes (.start timer) first second middle
    · exact middle

/-- The timers fire in the order of the list. -/
theorem check_in_order (agenda : Agenda 1 now deadline s) (settled : Settled system.plain s) (none : s.temporary = [])
    (different : one ≠ two) (leaves_one : system.Leaves one) (leaves_two : system.Leaves two) {after : Timers τ ω}
    (checked : Timers.rtTimerCheck system.timeout turns s = some after)
    (order : InOrder base one two s.list s.fired) :
    InOrder base one two after.list after.fired := by
  induction turns generalizing s deadline with
  | zero => cases checked
  | succ turns ih =>
    unfold Timers.rtTimerCheck at checked
    cases first : s.list with
    | nil =>
      rw [first] at checked
      cases checked
      exact order
    | cons head rest =>
      rw [first] at checked
      dsimp only at checked
      have test := agenda.ripe (Nat.le_refl 1) (first ▸ List.mem_cons_self)
      by_cases ripe : deadline head ≤ now
      · rw [if_pos (test.mpr ripe)] at checked
        obtain ⟨later, fired_agenda, fired_settled, empty, fired, _, _, _⟩ :=
          fire_spec system agenda settled first none
        refine ih fired_agenda fired_settled empty checked ?_
        rw [fired]
        have behind (precedes : [one, two].Sublist s.list) : head ≠ two := by
          rw [first] at precedes
          exact head_ne (first ▸ agenda.nodup) different precedes
        exact order.serve behind fun is precedes =>
          fire_precedes system is (behind precedes) leaves_one leaves_two precedes
      · rw [if_neg fun is => ripe (test.mp is)] at checked
        cases checked
        exact order

end Order

end SmartWatch.Proofs.TimerList
