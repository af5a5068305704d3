/-! Runs of state machines driven by a list of events. A machine is either total
(`σ → ε → σ`, run by `List.foldl`) or partial (`σ → ε → Option σ`, where `none`
says that the event cannot happen in that state). -/

namespace Runs

variable {σ : Type u} {ε : Type v}

section Total
variable (step : σ → ε → σ)

/-- Every step of the run meets `ok`, judged on the state before the step. -/
def Steps (ok : σ → ε → Prop) : σ → List ε → Prop
  | _, [] => True
  | state, event :: events => ok state event ∧ Steps ok (step state event) events

instance Steps.decidable (ok : σ → ε → Prop) [∀ state event, Decidable (ok state event)] :
    ∀ state events, Decidable (Steps step ok state events)
  | _, [] => inferInstanceAs (Decidable True)
  | state, event :: events =>
    have := Steps.decidable ok (step state event) events
    inferInstanceAs (Decidable (_ ∧ _))

theorem foldl_invariant (holds : σ → Prop) (kept : ∀ state event, holds state → holds (step state event))
    (state : σ) (events : List ε) (start : holds state) : holds (events.foldl step state) := by
  induction events generalizing state with
  | nil => exact start
  | cons event events ih => exact ih (step state event) (kept state event start)

theorem foldl_guarded (ok : σ → ε → Prop) (holds : σ → Prop)
    (kept : ∀ state event, holds state → ok state event → holds (step state event))
    (state : σ) (events : List ε) (start : holds state) (met : Steps step ok state events) :
    holds (events.foldl step state) := by
  induction events generalizing state with
  | nil => exact start
  | cons event events ih => exact ih (step state event) (kept state event start met.1) met.2

theorem Steps.initial_part {ok : σ → ε → Prop} {state : σ} (first rest : List ε)
    (met : Steps step ok state (first ++ rest)) : Steps step ok state first := by
  induction first generalizing state with
  | nil => trivial
  | cons event first ih => exact ⟨met.1, ih met.2⟩

theorem steps_of_all {ok : σ → ε → Prop} (met : ∀ state event, ok state event) (state : σ) (events : List ε) :
    Steps step ok state events := by
  induction events generalizing state with
  | nil => trivial
  | cons event events ih => exact ⟨met state event, ih _⟩

theorem steps_iff {ok : σ → ε → Prop} {state : σ} {events : List ε} : Steps step ok state events ↔
    ∀ first event, first ++ [event] <+: events → ok (first.foldl step state) event := by
  induction events generalizing state with
  | nil =>
    refine ⟨fun _ first event within => ?_, fun _ => trivial⟩
    exact absurd (List.prefix_nil.mp within) (List.append_ne_nil_of_right_ne_nil _ (List.cons_ne_nil _ _))
  | cons event events ih =>
    constructor
    · intro met first other within
      cases first with
      | nil =>
        obtain ⟨rfl, _⟩ := List.cons_prefix_cons.mp within
        exact met.1
      | cons head first =>
        obtain ⟨rfl, inner⟩ := List.cons_prefix_cons.mp within
        exact ih.mp met.2 first other inner
    · intro always
      refine ⟨always [] event (List.cons_prefix_cons.mpr ⟨rfl, List.nil_prefix⟩), ih.mpr fun first other within => ?_⟩
      exact always (event :: first) other (List.cons_prefix_cons.mpr ⟨rfl, within⟩)

/-- When `ok` is exactly what a single step needs to keep `good`, then `good`
holds after every initial part of a run if and only if all its steps meet `ok`. -/
theorem always_iff (ok : σ → ε → Prop) (holds good : σ → Prop)
    (kept : ∀ state event, holds state → good state → ok state event → holds (step state event))
    (exact_step : ∀ state event, holds state → good state → (good (step state event) ↔ ok state event))
    (state : σ) (events : List ε) (start : holds state) (fine : good state) :
    (∀ first, first <+: events → good (first.foldl step state)) ↔ Steps step ok state events := by
  induction events generalizing state with
  | nil =>
    refine ⟨fun _ => trivial, fun _ first within => ?_⟩
    rw [List.prefix_nil.mp within]
    exact fine
  | cons event events ih =>
    constructor
    · intro always
      have now : ok state event := (exact_step state event start fine).mp (always [event] ⟨events, rfl⟩)
      have next := (exact_step state event start fine).mpr now
      refine ⟨now, (ih _ (kept state event start fine now) next).mp fun first within => ?_⟩
      exact always (event :: first) (List.cons_prefix_cons.mpr ⟨rfl, within⟩)
    · intro met first within
      cases first with
      | nil => exact fine
      | cons other first =>
        obtain ⟨rfl, inner⟩ := List.cons_prefix_cons.mp within
        have next := (exact_step state other start fine).mpr met.1
        exact (ih _ (kept state other start fine met.1) next).mpr met.2 first inner

/-- Conditions that agree wherever an invariant holds, and keep it, are met by the same runs. -/
theorem steps_congr (ok other : σ → ε → Prop) (holds : σ → Prop)
    (kept : ∀ state event, holds state → ok state event → holds (step state event))
    (same : ∀ state event, holds state → (ok state event ↔ other state event))
    (state : σ) (events : List ε) (start : holds state) :
    Steps step ok state events ↔ Steps step other state events := by
  induction events generalizing state with
  | nil => exact Iff.rfl
  | cons event events ih =>
    have here := same state event start
    constructor
    · intro met
      exact ⟨here.mp met.1, (ih _ (kept state event start met.1)).mp met.2⟩
    · intro met
      have now := here.mpr met.1
      exact ⟨now, (ih _ (kept state event start now)).mpr met.2⟩

/-- Two machines driven by the same events stay related. -/
theorem foldl_related {τ : Type w} (other : τ → ε → τ) (ok : σ → ε → Prop) (related : σ → τ → Prop)
    (kept : ∀ one two event, related one two → ok one event → related (step one event) (other two event))
    (one : σ) (two : τ) (events : List ε) (start : related one two) (met : Steps step ok one events) :
    related (events.foldl step one) (events.foldl other two) := by
  induction events generalizing one two with
  | nil => exact start
  | cons event events ih => exact ih _ _ (kept one two event start met.1) met.2

end Total

section Partial
variable (step : σ → ε → Option σ)

/-- The state after the events, when each of them can happen where it stands. -/
def run : σ → List ε → Option σ
  | state, [] => some state
  | state, event :: events => (step state event).bind fun next => run next events

/-- Every step the run takes meets `ok`, judged on the state before the step. -/
def Taken (ok : σ → ε → Prop) : σ → List ε → Prop
  | _, [] => True
  | state, event :: events => ok state event ∧ ∀ next, step state event = some next → Taken ok next events

instance Taken.decidable (ok : σ → ε → Prop) [∀ state event, Decidable (ok state event)] :
    ∀ state events, Decidable (Taken step ok state events)
  | _, [] => inferInstanceAs (Decidable True)
  | state, event :: events =>
    match taken : step state event with
    | none => decidable_of_iff (ok state event)
        ⟨fun fine => ⟨fine, fun _ same => (by rw [taken] at same; cases same)⟩, fun met => met.1⟩
    | some next =>
      have := Taken.decidable ok next events
      decidable_of_iff (ok state event ∧ Taken step ok next events)
        ⟨fun met => ⟨met.1, fun _ same => (by rw [taken] at same; cases same; exact met.2)⟩,
          fun met => ⟨met.1, met.2 next taken⟩⟩

variable {step}

theorem taken_of_mem {ok : σ → ε → Prop} (events : List ε) (met : ∀ event ∈ events, ∀ state, ok state event) (state : σ) :
    Taken step ok state events := by
  induction events generalizing state with
  | nil => trivial
  | cons event events ih =>
    have others := ih fun other member => met other (List.mem_cons_of_mem _ member)
    exact ⟨met event List.mem_cons_self state, fun next _ => others next⟩

theorem Taken.and_mem {ok : σ → ε → Prop} {fine : ε → Prop} {state : σ} {events : List ε} (met : Taken step ok state events)
    (all : ∀ event ∈ events, fine event) : Taken step (fun state event => fine event ∧ ok state event) state events := by
  induction events generalizing state with
  | nil => trivial
  | cons event events ih =>
    exact ⟨⟨all event List.mem_cons_self, met.1⟩, fun next taken =>
      ih (met.2 next taken) fun other member => all other (List.mem_cons_of_mem _ member)⟩

theorem Taken.front {ok : σ → ε → Prop} {state : σ} {first rest : List ε} (met : Taken step ok state (first ++ rest)) :
    Taken step ok state first := by
  induction first generalizing state with
  | nil => trivial
  | cons event first ih => exact ⟨met.1, fun next taken => ih (met.2 next taken)⟩

theorem Taken.rest {ok : σ → ε → Prop} {state middle : σ} {first rest : List ε} (met : Taken step ok state (first ++ rest))
    (reached : run step state first = some middle) : Taken step ok middle rest := by
  induction first generalizing state with
  | nil =>
    cases reached
    exact met
  | cons event first ih =>
    obtain ⟨next, taken, goes⟩ := Option.bind_eq_some_iff.mp reached
    exact ih (met.2 next taken) goes

/-- A partial machine that goes on where an invariant holds and its steps meet a condition. -/
theorem run_goes {ok : σ → ε → Prop} (holds : σ → Prop)
    (goes : ∀ state event, holds state → ok state event → ∃ next, step state event = some next ∧ holds next)
    {state : σ} {events : List ε} (start : holds state) (met : Taken step ok state events) :
    ∃ final, run step state events = some final ∧ holds final := by
  induction events generalizing state with
  | nil => exact ⟨state, rfl, start⟩
  | cons event events ih =>
    obtain ⟨next, taken, kept⟩ := goes state event start met.1
    obtain ⟨final, reached, fine⟩ := ih kept (met.2 next taken)
    exact ⟨final, Option.bind_eq_some_iff.mpr ⟨next, taken, reached⟩, fine⟩

theorem run_cons {state final : σ} {event : ε} {events : List ε}
    (reached : run step state (event :: events) = some final) :
    ∃ next, step state event = some next ∧ run step next events = some final :=
  Option.bind_eq_some_iff.mp reached

theorem run_more {state next final : σ} {event : ε} {events : List ε} (taken : step state event = some next)
    (reached : run step next events = some final) : run step state (event :: events) = some final :=
  Option.bind_eq_some_iff.mpr ⟨next, taken, reached⟩

theorem taken_more {ok : σ → ε → Prop} {state next : σ} {event : ε} {events : List ε} (fine : ok state event)
    (taken : step state event = some next) (met : Taken step ok next events) : Taken step ok state (event :: events) := by
  refine ⟨fine, fun other same => ?_⟩
  rw [taken] at same
  cases same
  exact met

theorem run_append (state : σ) (first rest : List ε) :
    run step state (first ++ rest) = (run step state first).bind fun middle => run step middle rest := by
  induction first generalizing state with
  | nil => rfl
  | cons event first ih =>
    simp only [List.cons_append, run, Option.bind_assoc]
    congr
    funext next
    exact ih next

theorem run_trans {state middle final : σ} {first rest : List ε}
    (before : run step state first = some middle) (after : run step middle rest = some final) :
    run step state (first ++ rest) = some final := by
  rw [run_append, before]
  exact after

theorem run_invariant (holds : σ → Prop)
    (kept : ∀ state event next, holds state → step state event = some next → holds next)
    {state final : σ} {events : List ε} (start : holds state) (reached : run step state events = some final) :
    holds final := by
  induction events generalizing state with
  | nil => cases reached; exact start
  | cons event events ih =>
    obtain ⟨next, taken, rest⟩ := run_cons reached
    exact ih (kept state event next start taken) rest

/-- The invariant rule for the runs whose steps all meet a condition. -/
theorem run_guarded (ok : σ → ε → Prop) (holds : σ → Prop)
    (kept : ∀ state event next, holds state → ok state event → step state event = some next → holds next)
    {state final : σ} {events : List ε} (start : holds state) (met : Taken step ok state events)
    (reached : run step state events = some final) : holds final := by
  induction events generalizing state with
  | nil => cases reached; exact start
  | cons event events ih =>
    obtain ⟨next, taken, rest⟩ := run_cons reached
    exact ih (kept state event next start met.1 taken) (met.2 next taken) rest

/-- What the steps of a run show, judged on the states before and after a step. -/
def trace {α : Type w} (step : σ → ε → Option σ) (shown : σ → ε → σ → List α) : σ → List ε → List α
  | _, [] => []
  | state, event :: events =>
    match step state event with
    | none => []
    | some next => shown state event next ++ trace step shown next events

/-- A machine that can always go on, where each step shows a run of another machine:
what a whole run shows is a run of the other machine. -/
theorem run_simulates {α : Type w} {τ : Type x} {other : τ → α → Option τ} {shown : σ → ε → σ → List α} (related : σ → τ → Prop)
    (kept : ∀ state spec event, related state spec → ∃ next after, step state event = some next ∧
      run other spec (shown state event next) = some after ∧ related next after)
    {state : σ} {spec : τ} (events : List ε) (start : related state spec) :
    ∃ final last, run step state events = some final ∧ run other spec (trace step shown state events) = some last ∧
      related final last := by
  induction events generalizing state spec with
  | nil => exact ⟨state, spec, rfl, rfl, start⟩
  | cons event events ih =>
    obtain ⟨next, after, taken, showed, now⟩ := kept state spec event start
    obtain ⟨final, last, reached, shows_rest, fine⟩ := ih now
    refine ⟨final, last, Option.bind_eq_some_iff.mpr ⟨next, taken, reached⟩, ?_, fine⟩
    unfold trace
    rw [taken]
    exact run_trans showed shows_rest

end Partial

end Runs
