import SmartWatch.Lib.Runs

/-! A serial transmitter with a data register and a shift register. The processor
runs a program that moves side pins, waits until the line is idle, and hands over
items; the shifter works on its own. The receiver samples the pins when an item
has left the shift register. -/

namespace SerialLine
open Runs

variable {α : Type u} {π : Type v}

inductive Op (α : Type u) (π : Type v) where
  | pin (change : π → π)
  | drain
  | send (item : α)

structure State (α : Type u) (π : Type v) where
  todo : List (Op α π)
  pins : π
  holding : Option α := none
  shifting : Option α := none
  latched : List (α × π) := []

/-- The processor takes its next step, the data register moves on to the shift
register, or the item in the shift register is out. -/
inductive Event where
  | cpu
  | load
  | finish
deriving DecidableEq, Repr

/-- A send waits for an empty data register, a drain for both registers. -/
def step (state : State α π) : Event → Option (State α π)
  | .cpu =>
    match state.todo with
    | [] => none
    | .pin change :: todo => some { state with todo, pins := change state.pins }
    | .drain :: todo => if state.holding.isNone && state.shifting.isNone then some { state with todo } else none
    | .send item :: todo => if state.holding.isNone then some { state with todo, holding := some item } else none
  | .load =>
    match state.holding, state.shifting with
    | some item, none => some { state with holding := none, shifting := some item }
    | _, _ => none
  | .finish =>
    match state.shifting with
    | some item => some { state with shifting := none, latched := state.latched ++ [(item, state.pins)] }
    | none => none

def start (pins : π) (program : List (Op α π)) : State α π := { todo := program, pins }

def sends : List (Op α π) → List α
  | [] => []
  | .send item :: program => item :: sends program
  | _ :: program => sends program

def State.inFlight (state : State α π) : List α := state.shifting.toList ++ state.holding.toList

def State.finished (state : State α π) : Prop := state.todo = [] ∧ state.inFlight = []

theorem step_sends {state next : State α π} {event : Event} (taken : step state event = some next) :
    next.latched.map Prod.fst ++ next.inFlight ++ sends next.todo =
      state.latched.map Prod.fst ++ state.inFlight ++ sends state.todo := by
  obtain ⟨todo, pins, holding, shifting, latched⟩ := state
  cases event with
  | cpu =>
    cases todo with
    | nil => cases taken
    | cons op todo =>
      cases op with
      | pin change =>
        cases taken
        rfl
      | drain =>
        obtain ⟨_, rfl⟩ := Option.ite_none_right_eq_some.mp taken |>.imp_right Option.some.inj
        rfl
      | send item =>
        obtain ⟨empty, rfl⟩ := Option.ite_none_right_eq_some.mp taken |>.imp_right Option.some.inj
        cases Option.isNone_iff_eq_none.mp empty
        simp [State.inFlight, sends]
  | load =>
    cases holding <;> cases shifting <;> cases taken
    rfl
  | finish =>
    cases shifting <;> cases taken
    simp [State.inFlight]

theorem run_sends {state final : State α π} {events : List Event} (reached : run step state events = some final) :
    final.latched.map Prod.fst ++ final.inFlight ++ sends final.todo =
      state.latched.map Prod.fst ++ state.inFlight ++ sends state.todo :=
  run_invariant (fun middle => middle.latched.map Prod.fst ++ middle.inFlight ++ sends middle.todo =
    state.latched.map Prod.fst ++ state.inFlight ++ sends state.todo)
    (fun _ _ _ same taken => (step_sends taken).trans same) rfl reached

section Pins
variable (good : α → π → Prop)

/-- Every interleaving latches the items once and in order, each with pins that
are good for it. -/
def Faithful (pins : π) (program : List (Op α π)) : Prop :=
  ∀ events final, run step (start pins program) events = some final →
    (∀ entry ∈ final.latched, good entry.1 entry.2) ∧ final.latched.map Prod.fst <+: sends program ∧
      (final.finished → final.latched.map Prod.fst = sends program)

/-- The items that may still be on their way after an operation, of those that
may have been before it. A send implies that all but the last have left. -/
def flight (before : List α) : Op α π → List α
  | .pin _ => before
  | .drain => []
  | .send item => before.getLast?.toList ++ [item]

def pinsAfter (pins : π) : Op α π → π
  | .pin change => change pins
  | _ => pins

/-- After each operation the pins are good for all that may be on its way. -/
def Safe (pins : π) (before : List α) : List (Op α π) → Prop
  | [] => True
  | op :: program => (∀ item ∈ flight before op, good item (pinsAfter pins op)) ∧
      Safe (pinsAfter pins op) (flight before op) program

def advance (at_start : π × List α) (program : List (Op α π)) : π × List α :=
  program.foldl (fun current op => (pinsAfter current.1 op, flight current.2 op)) at_start

variable {good}

theorem safe_append (pins : π) (before : List α) (first rest : List (Op α π)) :
    Safe good pins before (first ++ rest) ↔ Safe good pins before first ∧
      Safe good (advance (pins, before) first).1 (advance (pins, before) first).2 rest := by
  induction first generalizing pins before with
  | nil => simp [Safe, advance]
  | cons op first ih =>
    simp only [List.cons_append, Safe, ih, and_assoc]
    rfl

/-- What a safe program keeps at every step of every interleaving. -/
structure Sound (good : α → π → Prop) (state : State α π) (before : List α) : Prop where
  recent : state.inFlight <:+ before
  current : ∀ item ∈ before, good item state.pins
  past : ∀ entry ∈ state.latched, good entry.1 entry.2
  rest : Safe good state.pins before state.todo

theorem Sound.step {state next : State α π} {before : List α} {event : Event} (sound : Sound good state before)
    (taken : step state event = some next) : ∃ after, Sound good next after := by
  obtain ⟨todo, pins, holding, shifting, latched⟩ := state
  obtain ⟨recent, current, past, rest⟩ := sound
  cases event with
  | cpu =>
    cases todo with
    | nil => cases taken
    | cons op todo =>
      cases op with
      | pin change =>
        cases taken
        exact ⟨before, recent, rest.1, past, rest.2⟩
      | drain =>
        obtain ⟨empty, rfl⟩ := Option.ite_none_right_eq_some.mp taken |>.imp_right Option.some.inj
        simp only [Bool.and_eq_true, Option.isNone_iff_eq_none] at empty
        obtain ⟨rfl, rfl⟩ := empty
        exact ⟨[], List.nil_suffix, rest.1, past, rest.2⟩
      | send item =>
        obtain ⟨empty, rfl⟩ := Option.ite_none_right_eq_some.mp taken |>.imp_right Option.some.inj
        cases Option.isNone_iff_eq_none.mp empty
        refine ⟨before.getLast?.toList ++ [item], ?_, rest.1, past, rest.2⟩
        cases shifting with
        | none => exact List.suffix_append _ _
        | some first =>
          obtain ⟨older, rfl⟩ := recent
          exact ⟨[], by simp [State.inFlight]⟩
  | load =>
    cases holding <;> cases shifting <;> cases taken
    exact ⟨before, recent, current, past, rest⟩
  | finish =>
    cases shifting with
    | none => cases taken
    | some item =>
      cases taken
      have member : item ∈ before := recent.subset (List.mem_cons_self)
      refine ⟨before, (List.suffix_cons item _).trans recent, current, fun entry inside => ?_, rest⟩
      rcases List.mem_append.mp inside with old | last
      · exact past entry old
      · cases List.mem_singleton.mp last
        exact current item member

theorem faithful_of_safe {pins : π} {program : List (Op α π)} (safe : Safe good pins [] program) :
    Faithful good pins program := by
  intro events final reached
  obtain ⟨before, sound⟩ := run_invariant (fun state => ∃ before, Sound good state before)
    (fun _ _ _ ⟨_, sound⟩ taken => sound.step taken)
    ⟨[], ⟨[], rfl⟩, fun _ member => absurd member List.not_mem_nil,
      fun _ member => absurd member List.not_mem_nil, safe⟩ reached
  have kept : final.latched.map Prod.fst ++ final.inFlight ++ sends final.todo = sends program := run_sends reached
  refine ⟨sound.past, ⟨final.inFlight ++ sends final.todo, by rw [← List.append_assoc]; exact kept⟩, fun done => ?_⟩
  rw [done.1, done.2] at kept
  simpa [sends] using kept

inductive Lagging : State α π → List α → Prop where
  | idle {todo : List (Op α π)} {pins : π} {latched : List (α × π)} : Lagging ⟨todo, pins, none, none, latched⟩ []
  | one {todo : List (Op α π)} {pins : π} {latched : List (α × π)} {item : α} :
      Lagging ⟨todo, pins, some item, none, latched⟩ [item]
  | two {todo : List (Op α π)} {pins : π} {latched : List (α × π)} {first item : α} :
      Lagging ⟨todo, pins, some item, some first, latched⟩ [first, item]

/-- Left alone, the line empties, and everything on its way is latched with the
pins as they are. -/
theorem Lagging.empties {state : State α π} {before : List α} (lagging : Lagging state before) :
    ∃ events, run SerialLine.step state events = some { state with
      holding := none, shifting := none, latched := state.latched ++ before.map (·, state.pins) } := by
  cases lagging with
  | idle => exact ⟨[], by simp [run]⟩
  | one => exact ⟨[.load, .finish], rfl⟩
  | two => exact ⟨[.finish, .load, .finish], by simp [run, SerialLine.step]⟩

theorem Lagging.cpu {state : State α π} {before : List α} {op : Op α π} {program : List (Op α π)}
    (lagging : Lagging state before) (next : state.todo = op :: program) :
    ∃ events after, run SerialLine.step state events = some after ∧ after.todo = program ∧
      after.pins = pinsAfter state.pins op ∧ Lagging after (flight before op) := by
  cases op with
  | pin change =>
    cases lagging <;> cases next
    · exact ⟨[.cpu], _, rfl, rfl, rfl, .idle⟩
    · exact ⟨[.cpu], _, rfl, rfl, rfl, .one⟩
    · exact ⟨[.cpu], _, rfl, rfl, rfl, .two⟩
  | drain =>
    obtain ⟨events, emptied⟩ := lagging.empties
    refine ⟨events ++ [.cpu], ⟨program, state.pins, none, none, state.latched ++ before.map (·, state.pins)⟩,
      run_trans emptied ?_, rfl, rfl, .idle⟩
    simp only [run, SerialLine.step, next]
    rfl
  | send item =>
    cases lagging <;> cases next
    · exact ⟨[.cpu], _, rfl, rfl, rfl, .one⟩
    · exact ⟨[.load, .cpu], _, rfl, rfl, rfl, .two⟩
    · exact ⟨[.finish, .load, .cpu], _, rfl, rfl, rfl, .two⟩

theorem exists_bad (state : State α π) {before : List α} {program : List (Op α π)} (lagging : Lagging state before)
    (left : state.todo = program) (unsafe_program : ¬ Safe good state.pins before program) :
    ∃ events final, run step state events = some final ∧ ∃ entry ∈ final.latched, ¬ good entry.1 entry.2 := by
  induction program generalizing state before with
  | nil => exact absurd trivial unsafe_program
  | cons op program ih =>
    obtain ⟨events, after, reached, todo, pins, lags⟩ := lagging.cpu left
    by_cases fine : ∀ item ∈ flight before op, good item (pinsAfter state.pins op)
    · obtain ⟨more, final, finish, bad⟩ :=
        ih _ lags todo (by rw [pins]; exact fun safe => unsafe_program ⟨fine, safe⟩)
      exact ⟨events ++ more, final, run_trans reached finish, bad⟩
    · simp only [Classical.not_forall] at fine
      obtain ⟨item, member, bad⟩ := fine
      obtain ⟨more, emptied⟩ := lags.empties
      refine ⟨events ++ more, _, run_trans reached emptied, (item, after.pins), ?_, by rw [pins]; exact bad⟩
      exact List.mem_append_right _ (List.mem_map.mpr ⟨item, member, rfl⟩)

/-- The static check is exact. -/
theorem faithful_iff_safe (pins : π) (program : List (Op α π)) :
    Faithful good pins program ↔ Safe good pins [] program := by
  refine ⟨fun faithful => ?_, faithful_of_safe⟩
  apply Classical.byContradiction
  intro unsafe_program
  obtain ⟨events, final, reached, entry, member, bad⟩ :=
    exists_bad (start pins program) .idle rfl unsafe_program
  exact bad ((faithful events final reached).1 entry member)

end Pins

end SerialLine
