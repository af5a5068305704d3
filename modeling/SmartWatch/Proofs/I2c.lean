import SmartWatch.I2c
import SmartWatch.Lib.Runs

/-! Which interleavings of a register read with the bus end as they should: the
last byte must not complete before the driver has disabled ACK. -/

namespace SmartWatch.Proofs.I2c
open Runs

private theorem disarms_iff (read : RegisterRead) (i : Nat) : read.disarms i = true ↔ i + 2 = read.len := by
  cases read with
  | mpuReadByte =>
    simp only [RegisterRead.disarms, RegisterRead.len, Bool.false_eq_true, false_iff]
    omega
  | mpuReadLen len =>
    simp only [RegisterRead.disarms, RegisterRead.len, decide_eq_true_eq]
    omega

/-- The driver is past the statement that disables ACK, which a read of one byte
does not reach. -/
def Armed (read : RegisterRead) (s : I2c) : Prop :=
  2 ≤ read.len ∧ (read.len < s.i + 2 ∨ s.i + 2 = read.len ∧ s.pc = .receiving)

instance (read : RegisterRead) (s : I2c) : Decidable (Armed read s) := inferInstanceAs (Decidable (_ ∧ _))

/-- The last byte completes with ACK disabled. -/
def Prompt (read : RegisterRead) (s : I2c) : I2cEvent → Prop
  | .driver => True
  | .byte => s.acks.length + 1 = read.len → Armed read s

instance (read : RegisterRead) (s : I2c) : (event : I2cEvent) → Decidable (Prompt read s event)
  | .driver => inferInstanceAs (Decidable True)
  | .byte => inferInstanceAs (Decidable (_ → _))

/-- What holds at each statement of the driver. -/
def Place (read : RegisterRead) (s : I2c) : Prop :=
  match s.pc with
  | .start => s.acks = [] ∧ s.i = 0 ∧ s.streaming = false ∧ s.stop = false
  | .addressing => s.acks = [] ∧ s.i = 0 ∧ s.streaming = false ∧ s.stop = false ∧ s.ack = true
  | .polling => s.i ≤ read.len ∧ s.stop = false ∧ (s.ack = false ↔ 2 ≤ read.len ∧ read.len < s.i + 2)
  | .disarming => s.i + 2 = read.len ∧ s.dataRegister ≠ none ∧ s.stop = false ∧ s.ack = true
  | .receiving => s.i < read.len ∧ s.dataRegister ≠ none ∧ s.stop = false ∧
      (s.ack = false ↔ 2 ≤ read.len ∧ read.len ≤ s.i + 2)
  | .stopping => s.i = read.len ∧ s.stop = false ∧ (s.ack = false ↔ 2 ≤ read.len)
  | .done => s.i = read.len ∧ s.stop = true ∧ (s.ack = false ↔ 2 ≤ read.len) ∧
      (s.streaming = true → s.shiftRegister = none)

structure Sound (read : RegisterRead) (stream : Nat → UInt8) (s : I2c) : Prop where
  order : s.buf ++ s.dataRegister.toList ++ s.shiftRegister.toList = (List.range s.acks.length).map stream
  count : s.buf.length = s.i
  full : s.dataRegister = none → s.shiftRegister = none
  place : Place read s
  going : s.pc ≠ .start → s.pc ≠ .addressing → s.streaming = false → read.len ≤ s.acks.length

theorem sound_start (read : RegisterRead) (stream : Nat → UInt8) (ack : Bool) : Sound read stream { ack } := by
  constructor <;> simp [Place]

section Steps
variable {read : RegisterRead} {stream : Nat → UInt8} {s next : I2c}

private theorem Sound.completed (sound : Sound read stream s) :
    s.i + s.dataRegister.toList.length + s.shiftRegister.toList.length = s.acks.length := by
  have lengths := congrArg List.length sound.order
  simpa only [List.length_append, sound.count, List.length_map, List.length_range] using lengths

theorem Sound.driver (sound : Sound read stream s) (taken : s.driver read = some next) : Sound read stream next := by
  have completed := sound.completed
  have place := sound.place
  cases pc : s.pc with
  | start =>
    simp only [I2c.driver, pc] at taken
    simp only [Place, pc] at place
    cases taken
    exact { sound with place := ⟨place.1, place.2.1, place.2.2.1, place.2.2.2, rfl⟩, going := fun _ wrong => absurd rfl wrong }
  | addressing =>
    simp only [I2c.driver, pc] at taken
    simp only [Place, pc] at place
    cases taken
    have acked : s.ack = false ↔ 2 ≤ read.len ∧ read.len < s.i + 2 := by
      rw [place.2.2.2.2]
      simp only [Bool.true_eq_false, false_iff]
      omega
    have first : s.i ≤ read.len := by omega
    exact { sound with place := ⟨first, place.2.2.2.1, acked⟩, going := nofun }
  | polling =>
    simp only [I2c.driver, pc] at taken
    simp only [Place, pc] at place
    have going := sound.going (by rw [pc]; decide) (by rw [pc]; decide)
    split at taken
    next more =>
      split at taken
      next ready =>
        have there : s.dataRegister ≠ none := Option.isSome_iff_ne_none.mp ready
        cases taken
        by_cases last : s.i + 2 = read.len
        · have disarms := (disarms_iff read s.i).mpr last
          simp only [disarms, if_true]
          have acked : s.ack = true := by
            apply (Bool.not_eq_false _).mp
            intro off
            have armed := place.2.2.mp off
            omega
          exact { sound with place := ⟨last, there, place.2.1, acked⟩, going := fun _ _ => going }
        · have disarms : read.disarms s.i = false := (Bool.not_eq_true _).mp (mt (disarms_iff read s.i).mp last)
          simp only [disarms]
          have acked : s.ack = false ↔ 2 ≤ read.len ∧ read.len ≤ s.i + 2 := by
            rw [place.2.2]
            omega
          exact { sound with place := ⟨more, there, place.2.1, acked⟩, going := fun _ _ => going }
      next =>
        cases taken
        exact sound
    next ended =>
      cases taken
      have acked : s.ack = false ↔ 2 ≤ read.len := by
        rw [place.2.2]
        omega
      have all : s.i = read.len := by omega
      exact { sound with place := ⟨all, place.2.1, acked⟩, going := fun _ _ => going }
  | disarming =>
    simp only [I2c.driver, pc] at taken
    simp only [Place, pc] at place
    have going := sound.going (by rw [pc]; decide) (by rw [pc]; decide)
    cases taken
    have armed : s.i < read.len ∧ 2 ≤ read.len ∧ read.len ≤ s.i + 2 := by omega
    exact { sound with
      place := ⟨armed.1, place.2.1, place.2.2.1, iff_of_true rfl armed.2⟩, going := fun _ _ => going }
  | receiving =>
    simp only [I2c.driver, pc] at taken
    simp only [Place, pc] at place
    have going := sound.going (by rw [pc]; decide) (by rw [pc]; decide)
    obtain ⟨byte, there, rfl⟩ := Option.map_eq_some_iff.mp taken
    have acked : s.ack = false ↔ 2 ≤ read.len ∧ read.len < s.i + 1 + 2 := by
      rw [place.2.2.2]
      omega
    have next : s.i + 1 ≤ read.len := by omega
    refine ⟨?_, ?_, fun _ => rfl, ⟨next, place.2.2.1, acked⟩, fun _ _ => going⟩
    · have order := sound.order
      rw [there] at order
      simpa using order
    · rw [List.length_append, sound.count]
      rfl
  | stopping =>
    simp only [I2c.driver, pc] at taken
    simp only [Place, pc] at place
    cases taken
    have free : (s.streaming && s.shiftRegister.isNone) = true → s.shiftRegister = none := fun still =>
      Option.isNone_iff_eq_none.mp (Bool.and_eq_true_iff.mp still).2
    have going : read.len ≤ s.acks.length := by omega
    exact { sound with place := ⟨place.1, rfl, place.2.2, free⟩, going := fun _ _ _ => going }
  | done =>
    simp only [I2c.driver, pc] at taken
    cases taken

private theorem Sound.armed_late (sound : Sound read stream s) (streaming : s.streaming = true)
    (off : s.ack = false) :
    read.len ≤ s.acks.length + 1 := by
  have completed := sound.completed
  have place := sound.place
  cases pc : s.pc <;> simp only [Place, pc] at place
  case receiving =>
    obtain ⟨byte, there⟩ := Option.ne_none_iff_exists'.mp place.2.1
    have armed := place.2.2.2.mp off
    rw [there] at completed
    simp only [Option.toList_some, List.length_singleton] at completed
    omega
  case start | addressing => exact absurd (place.2.2.1.symm.trans streaming) (by decide)
  case disarming => exact absurd (place.2.2.2.symm.trans off) (by decide)
  case polling =>
    have armed := place.2.2.mp off
    omega
  case stopping | done => omega

private theorem byte_cases (taken : s.byte stream = some next) :
    s.streaming = true ∧ s.shiftRegister = none ∧
      (s.dataRegister = none ∧ next = { s with
          acks := s.acks ++ [s.ack], streaming := s.ack && !s.stop, dataRegister := some (stream s.acks.length) } ∨
        s.dataRegister ≠ none ∧ next = { s with
          acks := s.acks ++ [s.ack], streaming := s.ack && !s.stop, shiftRegister := some (stream s.acks.length) }) := by
  unfold I2c.byte at taken
  split at taken
  next free =>
    refine ⟨free.1, free.2, ?_⟩
    dsimp only at taken
    split at taken
    next empty => exact .inl ⟨Option.isNone_iff_eq_none.mp empty, (Option.some.inj taken).symm⟩
    next full => exact .inr ⟨fun empty => full (Option.isNone_iff_eq_none.mpr empty), (Option.some.inj taken).symm⟩
  next => cases taken

private theorem place_byte {acks : List Bool} {streaming : Bool} {dataRegister shiftRegister : Option UInt8}
    (place : Place read s) (started : s.streaming = true) (kept : dataRegister ≠ none)
    (halts : s.stop = true → streaming = false) :
    Place read { s with acks, streaming, dataRegister, shiftRegister } := by
  obtain ⟨pc, i, buf, ack, stop, _, _, _, _⟩ := s
  cases pc with
  | start | addressing => exact absurd (place.2.2.1.symm.trans started) (by decide)
  | disarming | receiving => exact ⟨place.1, kept, place.2.2⟩
  | polling | stopping => exact place
  | done =>
    have ended := halts place.2.1
    exact ⟨place.1, place.2.1, place.2.2.1, fun still => by cases ended.symm.trans still⟩

theorem Sound.byte (sound : Sound read stream s) (taken : s.byte stream = some next) : Sound read stream next := by
  have completed := sound.completed
  have order := sound.order
  obtain ⟨streaming, free, effect⟩ := byte_cases taken
  have going : (s.ack && !s.stop) = false → read.len ≤ (s.acks ++ [s.ack]).length := by
    intro ends
    rw [List.length_append, List.length_singleton]
    rcases Bool.and_eq_false_iff.mp ends with off | stopped
    · exact sound.armed_late streaming off
    · have place := sound.place
      cases pc : s.pc <;> simp only [Place, pc] at place
      case done => omega
      all_goals simp [place] at stopped
  have halts : s.stop = true → (s.ack && !s.stop) = false := by
    intro stop
    rw [stop, Bool.not_true, Bool.and_false]
  rw [free] at order
  rcases effect with ⟨empty, rfl⟩ | ⟨busy, rfl⟩
  · rw [empty] at order
    refine ⟨?_, sound.count, nofun, place_byte sound.place streaming nofun halts, fun _ _ => going⟩
    simpa [free, List.range_succ] using order
  · refine ⟨?_, sound.count, fun none => absurd none busy, place_byte sound.place streaming busy halts, fun _ _ => going⟩
    simp only [Option.toList_none, List.append_nil] at order
    simp [order, List.range_succ]

theorem Sound.step (sound : Sound read stream s) {event : I2cEvent} (taken : s.step read stream event = some next) :
    Sound read stream next := by
  cases event with
  | driver => exact sound.driver taken
  | byte => exact sound.byte taken

private theorem driver_cases (taken : s.driver read = some next) :
    next.acks = s.acks ∧ (next.streaming = true → s.streaming = true ∨ s.pc = .addressing) := by
  unfold I2c.driver at taken
  cases pc : s.pc <;> simp only [pc] at taken
  case addressing =>
    cases taken
    exact ⟨rfl, fun _ => .inr rfl⟩
  case polling =>
    split at taken
    next =>
      split at taken <;> cases taken <;> exact ⟨rfl, .inl⟩
    next =>
      cases taken
      exact ⟨rfl, .inl⟩
  case receiving =>
    obtain ⟨_, _, rfl⟩ := Option.map_eq_some_iff.mp taken
    exact ⟨rfl, .inl⟩
  case stopping =>
    cases taken
    exact ⟨rfl, fun still => .inl (Bool.and_eq_true_iff.mp still).1⟩
  case done => cases taken
  case start | disarming =>
    cases taken
    exact ⟨rfl, .inl⟩

private theorem acks_step {event : I2cEvent} (taken : s.step read stream event = some next) :
    s.acks <+: next.acks := by
  cases event with
  | driver => exact (driver_cases taken).1 ▸ List.prefix_refl _
  | byte =>
    obtain ⟨_, _, ⟨_, rfl⟩ | ⟨_, rfl⟩⟩ := byte_cases taken <;> exact List.prefix_append _ _

private theorem acks_run {final : I2c} {events : List I2cEvent}
    (reached : run (I2c.step read stream) s events = some final) :
    s.acks <+: final.acks :=
  run_invariant (fun other => s.acks <+: other.acks) (fun _ _ _ before taken => before.trans (acks_step taken))
    (List.prefix_refl _) reached

end Steps

def Complete (s : I2c) : Prop := s.pc = .done ∧ s.streaming = false

instance (s : I2c) : Decidable (Complete s) := inferInstanceAs (Decidable (_ ∧ _))

/-- All bytes are acknowledged but the last, and all of them are in the buffer
with none behind them. -/
structure Right (read : RegisterRead) (stream : Nat → UInt8) (s : I2c) : Prop where
  acks : s.acks = List.replicate (read.len - 1) true ++ [false]
  buf : s.buf = (List.range read.len).map stream
  rest : s.dataRegister = none ∧ s.shiftRegister = none

section Answers
variable {read : RegisterRead} {stream : Nat → UInt8} {s next : I2c}

private theorem Sound.ack_iff (sound : Sound read stream s) (streaming : s.streaming = true) :
    s.ack = false ↔ Armed read s := by
  have place := sound.place
  unfold Armed
  cases pc : s.pc <;> simp only [Place, pc] at place
  case start | addressing => exact absurd (place.2.2.1.symm.trans streaming) (by decide)
  case polling =>
    rw [place.2.2]
    simp only [reduceCtorEq, and_false, or_false]
  case disarming =>
    rw [place.2.2.2]
    simp only [reduceCtorEq, and_false, or_false, Bool.true_eq_false, false_iff]
    omega
  case receiving =>
    rw [place.2.2.2]
    simp only [and_true]
    omega
  case stopping =>
    rw [place.2.2]
    simp only [reduceCtorEq, and_false, or_false]
    omega
  case done =>
    rw [place.2.2.1]
    simp only [reduceCtorEq, and_false, or_false]
    omega

structure OnTime (read : RegisterRead) (stream : Nat → UInt8) (s : I2c) : Prop where
  sound : Sound read stream s
  answers : s.acks = List.replicate s.acks.length true ∧ s.acks.length < read.len ∨
    s.acks = List.replicate (read.len - 1) true ++ [false] ∧ s.streaming = false

theorem onTime_start (read : RegisterRead) (stream : Nat → UInt8) (ack : Bool) (some : 0 < read.len) :
    OnTime read stream { ack } := ⟨sound_start read stream ack, .inl ⟨rfl, some⟩⟩

theorem OnTime.answer (onTime : OnTime read stream s) (streaming : s.streaming = true)
    (prompt : Prompt read s .byte) :
    s.acks = List.replicate s.acks.length true ∧ s.acks.length < read.len ∧
      (s.ack = true ↔ s.acks.length + 1 < read.len) := by
  obtain ⟨same, more⟩ | ⟨_, ended⟩ := onTime.answers
  · refine ⟨same, more, ?_⟩
    constructor
    · intro on
      apply Nat.lt_of_le_of_ne more
      intro last
      have off := (onTime.sound.ack_iff streaming).mpr (prompt last)
      rw [on] at off
      cases off
    · intro early
      apply (Bool.not_eq_false _).mp
      intro off
      have late := onTime.sound.armed_late streaming off
      omega
  · rw [streaming] at ended
    cases ended

theorem OnTime.driver (onTime : OnTime read stream s) (taken : s.driver read = some next) :
    OnTime read stream next := by
  refine ⟨onTime.sound.driver taken, ?_⟩
  obtain ⟨same, starts⟩ := driver_cases taken
  rw [same]
  rcases onTime.answers with early | ⟨complete, ended⟩
  · exact .inl early
  · refine .inr ⟨complete, (Bool.not_eq_true _).mp fun again => ?_⟩
    rcases starts again with streaming | addressing
    · rw [streaming] at ended
      cases ended
    · have place := onTime.sound.place
      simp only [Place, addressing, complete] at place
      exact List.append_ne_nil_of_right_ne_nil _ (List.cons_ne_nil _ _) place.1

theorem OnTime.byte (onTime : OnTime read stream s) (prompt : Prompt read s .byte)
    (taken : s.byte stream = some next) :
    OnTime read stream next := by
  refine ⟨onTime.sound.byte taken, ?_⟩
  obtain ⟨streaming, _, effect⟩ := byte_cases taken
  obtain ⟨same, more, on⟩ := onTime.answer streaming prompt
  have answered : next.acks = s.acks ++ [s.ack] ∧ next.streaming = (s.ack && !s.stop) := by
    rcases effect with ⟨_, rfl⟩ | ⟨_, rfl⟩ <;> exact ⟨rfl, rfl⟩
  rw [answered.1, answered.2, List.length_append, List.length_singleton]
  by_cases early : s.acks.length + 1 < read.len
  · rw [on.mpr early, List.replicate_succ', ← same]
    exact .inl ⟨rfl, early⟩
  · have off : s.ack = false := (Bool.not_eq_true _).mp fun acked => early (on.mp acked)
    have last : s.acks.length = read.len - 1 := by omega
    rw [off, same, last]
    exact .inr ⟨rfl, rfl⟩

theorem OnTime.step (onTime : OnTime read stream s) {event : I2cEvent} (prompt : Prompt read s event)
    (taken : s.step read stream event = some next) : OnTime read stream next := by
  cases event with
  | driver => exact onTime.driver taken
  | byte => exact onTime.byte prompt taken

theorem OnTime.right (onTime : OnTime read stream s) (some : 0 < read.len) (complete : Complete s) :
    Right read stream s := by
  have completed := onTime.sound.completed
  have place := onTime.sound.place
  simp only [Place, complete.1] at place
  obtain ⟨_, more⟩ | ⟨acks, _⟩ := onTime.answers
  · omega
  · have all : s.acks.length = read.len := by
      rw [acks, List.length_append, List.length_replicate, List.length_singleton]
      omega
    have data : s.dataRegister = none := Option.toList_eq_nil_iff.mp (List.eq_nil_of_length_eq_zero (by omega))
    have shift : s.shiftRegister = none := Option.toList_eq_nil_iff.mp (List.eq_nil_of_length_eq_zero (by omega))
    have order := onTime.sound.order
    rw [data, shift, all] at order
    exact ⟨acks, by simpa using order, data, shift⟩

/-- A last byte that is not prompt is acknowledged, and stays so. -/
theorem Sound.late (sound : Sound read stream s) {event : I2cEvent} (taken : s.step read stream event = some next)
    (late : ¬ Prompt read s event) : s.acks.length + 1 = read.len ∧ next.acks = s.acks ++ [true] := by
  cases event with
  | driver => exact absurd trivial late
  | byte =>
    obtain ⟨last, unarmed⟩ := Classical.not_imp.mp late
    obtain ⟨streaming, _, effect⟩ := byte_cases taken
    have on : s.ack = true := (Bool.not_eq_false _).mp (mt (sound.ack_iff streaming).mp unarmed)
    refine ⟨last, ?_⟩
    rw [← on]
    rcases effect with ⟨_, rfl⟩ | ⟨_, rfl⟩ <;> rfl

private theorem prompt_of_right {final : I2c} {events : List I2cEvent} (sound : Sound read stream s)
    (reached : run (I2c.step read stream) s events = some final) (right : Right read stream final) :
    Taken (I2c.step read stream) (Prompt read) s events := by
  induction events generalizing s with
  | nil => trivial
  | cons event events ih =>
    obtain ⟨next, taken, rest⟩ := run_cons reached
    refine ⟨?_, fun other same => ?_⟩
    · apply Classical.byContradiction
      intro late
      obtain ⟨last, answered⟩ := sound.late taken late
      obtain ⟨more, whole⟩ := acks_run rest
      rw [answered, right.acks, show read.len - 1 = s.acks.length by omega] at whole
      have ends := (List.append_inj (whole.trans (List.append_nil _).symm) (by simp)).1
      have different := (List.append_inj' ends rfl).2
      cases different
    · cases taken.symm.trans same
      exact ih (sound.step taken) rest

end Answers

/-- A state from which some continuation of the run completes it. -/
def Finishes (read : RegisterRead) (stream : Nat → UInt8) (s : I2c) : Prop :=
  ∃ events final, run (I2c.step read stream) s events = some final ∧ Complete final

section Progress
variable {read : RegisterRead} {stream : Nat → UInt8} {s next : I2c}

theorem Finishes.before {event : I2cEvent} (finishes : Finishes read stream next)
    (taken : s.step read stream event = some next) : Finishes read stream s := by
  obtain ⟨events, final, reached, complete⟩ := finishes
  exact ⟨event :: events, final, Option.bind_eq_some_iff.mpr ⟨next, taken, reached⟩, complete⟩

private theorem byte_taken (stream : Nat → UInt8) (streaming : s.streaming = true) (free : s.shiftRegister = none) :
    ∃ next, s.byte stream = some next := by
  unfold I2c.byte
  rw [if_pos ⟨streaming, free⟩]
  dsimp only
  split <;> exact ⟨_, rfl⟩

private theorem finishes_done (sound : Sound read stream s) (pc : s.pc = .done) : Finishes read stream s := by
  have place := sound.place
  simp only [Place, pc] at place
  cases streaming : s.streaming with
  | false => exact ⟨[], s, rfl, pc, streaming⟩
  | true =>
    obtain ⟨next, taken⟩ := byte_taken stream streaming (place.2.2.2 streaming)
    obtain ⟨_, _, effect⟩ := byte_cases taken
    refine ⟨[.byte], next, by rw [run, I2c.step, taken]; rfl, ?_⟩
    rcases effect with ⟨_, rfl⟩ | ⟨_, rfl⟩ <;> exact ⟨pc, by simp [place.2.1]⟩

/-- How far the driver is from the end. -/
def work (read : RegisterRead) (s : I2c) : Nat :=
  match s.pc with
  | .start => 5 * read.len + 5
  | .addressing => 5 * read.len + 4
  | .polling => 5 * (read.len - s.i) + if s.dataRegister.isNone then 3 else 2
  | .disarming => 5 * (read.len - s.i) + 1
  | .receiving => 5 * (read.len - s.i)
  | .stopping => 1
  | .done => 0

private theorem byte_comes (sound : Sound read stream s) (pc : s.pc = .polling) (more : s.i < read.len)
    (empty : s.dataRegister = none) : ∃ next, s.byte stream = some next := by
  have completed := sound.completed
  have free := sound.full empty
  rw [empty, free] at completed
  have streaming : s.streaming = true := by
    apply (Bool.not_eq_false _).mp
    intro ended
    have all := sound.going (by rw [pc]; decide) (by rw [pc]; decide) ended
    simp only [Option.toList_none, List.length_nil] at completed
    omega
  exact byte_taken stream streaming free

private theorem advances (sound : Sound read stream s) (working : s.pc ≠ .done) :
    ∃ event next, s.step read stream event = some next ∧ work read next < work read s := by
  have place := sound.place
  cases pc : s.pc <;> simp only [Place, pc] at place
  case done => exact absurd pc working
  case polling =>
    by_cases more : s.i < read.len
    · cases there : s.dataRegister with
      | none =>
        obtain ⟨next, taken⟩ := byte_comes sound pc more there
        refine ⟨.byte, next, taken, ?_⟩
        obtain ⟨_, _, ⟨_, rfl⟩ | ⟨busy, _⟩⟩ := byte_cases taken
        · simp [work, pc, there]
        · exact absurd there busy
      | some byte =>
        refine ⟨.driver, _, by simp only [I2c.step, I2c.driver, pc, more, there, Option.isSome_some, if_true]; rfl, ?_⟩
        cases read.disarms s.i <;> simp [work, pc, there]
    · refine ⟨.driver, _, by simp only [I2c.step, I2c.driver, pc, more, if_false]; rfl, ?_⟩
      simp only [work, pc]
      split <;> omega
  case receiving =>
    obtain ⟨byte, there⟩ := Option.ne_none_iff_exists'.mp place.2.1
    refine ⟨.driver, _, by simp only [I2c.step, I2c.driver, pc, there, Option.map_some]; rfl, ?_⟩
    simp only [work, pc]
    split <;> omega
  case addressing =>
    refine ⟨.driver, _, by simp only [I2c.step, I2c.driver, pc]; rfl, ?_⟩
    simp only [work, pc]
    split <;> omega
  case start | disarming | stopping =>
    refine ⟨.driver, _, by simp only [I2c.step, I2c.driver, pc]; rfl, ?_⟩
    simp only [work, pc]
    omega

private theorem Sound.finishes (sound : Sound read stream s) : Finishes read stream s := by
  induction left : work read s using Nat.strongRecOn generalizing s with
  | ind left ih =>
    by_cases done : s.pc = .done
    · exact finishes_done sound done
    · obtain ⟨event, next, taken, less⟩ := advances sound done
      exact (ih _ (left ▸ less) (sound.step taken) rfl).before taken

/-- However late its bytes come, a read is never stuck. -/
theorem never_stuck (ack : Bool) {events : List I2cEvent}
    (reached : run (I2c.step read stream) { ack } events = some s) : Finishes read stream s :=
  (run_invariant (Sound read stream) (fun _ _ _ sound taken => sound.step taken) (sound_start read stream ack) reached).finishes

end Progress

/-- The one byte of `MPU_Read_Byte` is acknowledged, and the next one is left over. -/
theorem one_byte_is_acknowledged : ¬ ∀ read stream ack events final, 0 < RegisterRead.len read →
    run (I2c.step read stream) { ack } events = some final → Complete final → Right read stream final := by
  intro always
  have right := always .mpuReadByte (fun _ => 0x68) true
    ([.driver, .driver, .byte] ++ List.replicate 4 .driver ++ [.byte])
    { pc := .done, i := 1, buf := [0x68], ack := true, stop := true, dataRegister := some 0x68, acks := [true, true] }
    (by decide) (by decide) (by decide)
  exact absurd right.rest.1 (by decide)

/-- A read ends right exactly when its last byte completes behind the statement
that disables ACK. -/
theorem right_iff (read : RegisterRead) (stream : Nat → UInt8) (ack : Bool) (events : List I2cEvent) (final : I2c)
    (positive : 0 < read.len) (reached : run (I2c.step read stream) { ack } events = some final)
    (complete : Complete final) :
    Right read stream final ↔ Taken (I2c.step read stream) (Prompt read) { ack } events := by
  constructor
  · exact prompt_of_right (sound_start read stream ack) reached
  · intro prompt
    have onTime :=
      run_guarded (Prompt read) (OnTime read stream) (fun _ _ _ onTime prompt taken => onTime.step prompt taken)
      (onTime_start read stream ack positive) prompt reached
    exact onTime.right positive complete

/-- Two bytes, the second while the driver takes the first. -/
theorem right_iff_two_bytes : Right (.mpuReadLen 2) (fun i => UInt8.ofNat i)
    { pc := .done, i := 2, buf := [0, 1], ack := false, stop := true, acks := [true, false] } :=
  have reached : run (I2c.step (.mpuReadLen 2) fun i => UInt8.ofNat i) { ack := false }
      ([.driver, .driver, .byte, .driver, .driver, .byte] ++ List.replicate 5 .driver) = some _ := by decide
  (right_iff (.mpuReadLen 2) _ false _ _ (by decide) reached (by decide)).mpr (by decide)

end SmartWatch.Proofs.I2c
