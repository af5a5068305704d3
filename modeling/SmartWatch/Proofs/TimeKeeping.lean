import SmartWatch.Uptime
import SmartWatch.Lib.Runs
import Mathlib.Algebra.Group.Nat.Defs

/-! Whether the readings of `now` keep time. The clock adds a 32-bit difference of
ticks to an offset, so it falls back when that difference wraps. -/

namespace SmartWatch.Proofs.TimeKeeping
open TwosComplement Runs

/-- The later reading is not before the earlier one, and as many seconds after it
as there are ticks between them, rounded down or up. -/
def Keeps (later earlier : Reading) : Prop :=
  earlier.now ≤ later.now ∧
    (later.now - earlier.now = ((later.ticks - earlier.ticks) / tickPerSecond : Nat) ∨
      later.now - earlier.now = ((later.ticks - earlier.ticks + (tickPerSecond - 1)) / tickPerSecond : Nat))

instance (later earlier : Reading) : Decidable (Keeps later earlier) := inferInstanceAs (Decidable (_ ∧ _))

def KeepsTime (up : Uptime) : Prop := up.readings.Pairwise Keeps

instance (up : Uptime) : Decidable (KeepsTime up) := inferInstanceAs (Decidable (List.Pairwise _ _))

/-- The difference of ticks that the clock divides. -/
def count (rtc : SoftRtc) (tick : UInt32) : Nat := (tick - rtc.initTick).toNat

/-- The exact time is later than a `time_t` can hold. -/
def Overflows (bits : Nat) (rtc : SoftRtc) (tick : UInt32) : Prop := 2 ^ (bits - 1) ≤ rtc.initTime + rtc.elapsed tick

instance (bits : Nat) (rtc : SoftRtc) (tick : UInt32) : Decidable (Overflows bits rtc tick) :=
  inferInstanceAs (Decidable (_ ≤ _))

/-- Since the reading neither the difference of ticks has wrapped nor `time_t` has
overflowed, or the ticks lost in wraps make up the one turn that `time_t` has made. -/
def Steady (bits : Nat) (up : Uptime) (earlier : Reading) : Prop :=
  up.ticks - earlier.ticks ≤ count up.rtc up.tick ∧
      (Overflows bits up.rtc earlier.tick ↔ Overflows bits up.rtc up.tick) ∨
    up.ticks - earlier.ticks + count up.rtc earlier.tick = count up.rtc up.tick + tickPerSecond * 2 ^ bits ∧
      Overflows bits up.rtc earlier.tick ∧ ¬ Overflows bits up.rtc up.tick

instance (bits : Nat) (up : Uptime) (earlier : Reading) : Decidable (Steady bits up earlier) :=
  inferInstanceAs (Decidable (_ ∨ _))

def SteadyStep (bits : Nat) (up : Uptime) : UptimeEvent → Prop
  | .tick => True
  | .getValues => ∀ earlier ∈ up.readings, Steady bits up earlier

instance (bits : Nat) (up : Uptime) : (event : UptimeEvent) → Decidable (SteadyStep bits up event)
  | .tick => inferInstanceAs (Decidable True)
  | .getValues => inferInstanceAs (Decidable (∀ earlier ∈ up.readings, Steady bits up earlier))

structure Sound (bits : Nat) (up : Uptime) : Prop where
  offset : Fits bits up.rtc.initTime
  read : ∀ reading ∈ up.readings, reading.now = up.rtc.getTime bits reading.tick ∧ reading.ticks ≤ up.ticks ∧
    (count up.rtc reading.tick + (up.ticks - reading.ticks)) % 2 ^ 32 = count up.rtc up.tick

theorem elapsed_eq (rtc : SoftRtc) (tick : UInt32) : rtc.elapsed tick = (count rtc tick / 1000 : Nat) := rfl

/-- A `time_t` turns at most once, for the elapsed seconds are few. -/
theorem getTime_eq {bits : Nat} {rtc : SoftRtc} (wide : 32 ≤ bits) (offset : Fits bits rtc.initTime) (tick : UInt32) :
    rtc.getTime bits tick = rtc.initTime + rtc.elapsed tick - if Overflows bits rtc tick then 2 ^ bits else 0 := by
  have half : (2 : Int) ^ 31 ≤ 2 ^ (bits - 1) := half_le wide
  have double : (2 : Int) ^ bits = 2 * 2 ^ (bits - 1) := double_half (by omega)
  have few : count rtc tick < 2 ^ 32 := UInt32.toNat_lt _
  obtain ⟨low, high⟩ := offset
  have seconds := elapsed_eq rtc tick
  unfold SoftRtc.getTime
  split
  next past =>
    unfold Overflows at past
    rw [← wrap_sub_turn, wrap_of_fits (by omega) ⟨by omega, by omega⟩]
  next held =>
    unfold Overflows at held
    rw [wrap_of_fits (by omega) ⟨by omega, by omega⟩, Int.sub_zero]

/-- Two readings of `initTime + count / 1000`, `distance` ticks apart, when the
count has wrapped `wraps` times between them and `time_t` turns at `half`. -/
private theorem apart_iff {initTime half : Int} {earlier later distance wraps turns : Nat}
    (offset : -half ≤ initTime ∧ initTime < half) (wide : half = 2147483648 * turns)
    (within : earlier < 4294967296 ∧ later < 4294967296) (same : earlier + distance = later + 4294967296 * wraps)
    {before now : Int}
    (first : before = initTime + (earlier / 1000 : Nat) - if half ≤ initTime + (earlier / 1000 :
      Nat) then 2 * half else 0)
    (second : now = initTime + (later / 1000 : Nat) - if half ≤ initTime + (later / 1000 :
      Nat) then 2 * half else 0) :
    (before ≤ now ∧ (now - before = (distance / 1000 : Nat) ∨
      now - before = ((distance + (1000 - 1)) / 1000 : Nat))) ↔
      (distance ≤ later ∧ (half ≤ initTime + (earlier / 1000 : Nat) ↔ half ≤ initTime + (later / 1000 : Nat)) ∨
        (distance + earlier : Int) = later + 1000 * (2 * half) ∧ half ≤ initTime + (earlier / 1000 : Nat) ∧
          ¬ half ≤ initTime + (later / 1000 : Nat)) := by
  by_cases past : half ≤ initTime + (earlier / 1000 : Nat) <;> by_cases still : half ≤ initTime + (later / 1000 : Nat)
  · rw [if_pos past] at first
    rw [if_pos still] at second
    simp only [past, still, not_true_eq_false, and_false, or_false, and_true]
    constructor <;> omega
  · rw [if_pos past] at first
    rw [if_neg still] at second
    simp only [past, still, not_false_eq_true, and_true, iff_false, not_true_eq_false, and_false, false_or]
    constructor <;> omega
  · rw [if_neg past] at first
    rw [if_pos still] at second
    simp only [past, still, false_and, and_false, or_false, iff_true, iff_false]
    omega
  · rw [if_neg past] at first
    rw [if_neg still] at second
    simp only [past, still, false_and, and_false, or_false, and_true]
    constructor <;> omega

private theorem keeps_iff {bits : Nat} {up : Uptime} {reading : Reading} (wide : 32 ≤ bits) (sound : Sound bits up)
    (member : reading ∈ up.readings) :
    Keeps ⟨up.ticks, up.tick, up.rtc.getTime bits up.tick⟩ reading ↔ Steady bits up reading := by
  obtain ⟨told, order, same⟩ := sound.read reading member
  have within : count up.rtc reading.tick < 2 ^ 32 ∧ count up.rtc up.tick < 2 ^ 32 :=
    ⟨UInt32.toNat_lt _, UInt32.toNat_lt _⟩
  have double : (2 : Int) ^ bits = 2 * 2 ^ (bits - 1) := double_half (by omega)
  obtain ⟨turns, half⟩ : ∃ turns : Nat, (2 : Int) ^ (bits - 1) = 2147483648 * turns := by
    refine ⟨2 ^ (bits - 32), ?_⟩
    rw [show bits - 1 = 31 + (bits - 32) by omega, Int.pow_add]
    rfl
  have first := getTime_eq wide sound.offset reading.tick
  have second := getTime_eq wide sound.offset up.tick
  rw [← told, double] at first
  rw [double] at second
  have wraps : count up.rtc reading.tick + (up.ticks - reading.ticks) = count up.rtc up.tick +
      4294967296 * ((count up.rtc reading.tick + (up.ticks - reading.ticks)) / 4294967296) := by omega
  have turn : (((up.ticks - reading.ticks : Nat) : Int) + count up.rtc reading.tick =
      count up.rtc up.tick + 1000 * (2 * 2 ^ (bits - 1))) ↔
      up.ticks - reading.ticks + count up.rtc reading.tick = count up.rtc up.tick + tickPerSecond * 2 ^ bits := by
    have power : ((2 ^ bits : Nat) : Int) = 2 ^ bits := Int.natCast_pow 2 bits
    rw [← double, ← power, tickPerSecond]
    omega
  have apart := apart_iff sound.offset half within wraps first second
  rw [turn] at apart
  exact apart

theorem sound_step {bits : Nat} {up : Uptime} (event : UptimeEvent) (sound : Sound bits up) :
    Sound bits (up.step bits event) := by
  refine ⟨by cases event <;> exact sound.offset, fun reading member => ?_⟩
  cases event with
  | tick =>
    obtain ⟨told, order, same⟩ := sound.read reading member
    have next : count up.rtc (up.tick + 1) = (count up.rtc up.tick + 1) % 2 ^ 32 := by
      unfold count
      rw [UInt32.toNat_sub, UInt32.toNat_sub, UInt32.toNat_add]
      have := up.rtc.initTick.toNat_lt
      simp only [UInt32.reduceToNat]
      omega
    refine ⟨told, Nat.le_succ_of_le order, ?_⟩
    simp only [Uptime.step, next, ← same]
    omega
  | getValues =>
    rcases List.mem_cons.mp member with rfl | old
    · have within : count up.rtc up.tick < 2 ^ 32 := UInt32.toNat_lt _
      refine ⟨rfl, Nat.le_refl _, ?_⟩
      simp only [Uptime.step]
      omega
    · exact sound.read reading old

private theorem keepsTime_step {bits : Nat} {up : Uptime} (event : UptimeEvent) (wide : 32 ≤ bits)
    (sound : Sound bits up) (keeps : KeepsTime up) : KeepsTime (up.step bits event) ↔ SteadyStep bits up event := by
  cases event with
  | tick => exact iff_of_true keeps trivial
  | getValues =>
    have steady (reading : Reading) (member : reading ∈ up.readings) := keeps_iff wide sound member
    constructor
    · intro next reading member
      exact (steady reading member).mp ((List.pairwise_cons.mp next).1 reading member)
    · intro met
      exact List.pairwise_cons.mpr ⟨fun reading member => (steady reading member).mpr (met reading member), keeps⟩

/-- 2 to the 32 ticks after the clock was started, the time falls back. -/
theorem falls_back_after_49_days : ¬ ∀ rtc tick (events : List UptimeEvent),
    KeepsTime (events.foldl (Uptime.step 32) { rtc, tick }) := by
  intro always
  have keeps := always ⟨0, 1644739200⟩ 0xffffffff [.getValues, .tick, .getValues]
  exact absurd keeps (by decide)

/-- The readings keep time exactly in the runs in which, between two readings,
neither the difference of ticks wraps nor `time_t` overflows, but for the run of
136 years or more in which the wraps lose exactly one turn of `time_t`. -/
theorem keepsTime_iff (bits : Nat) (rtc : SoftRtc) (tick : UInt32) (events : List UptimeEvent) (wide : 32 ≤ bits)
    (offset : Fits bits rtc.initTime) :
    (∀ first, first <+: events → KeepsTime (first.foldl (Uptime.step bits) { rtc, tick })) ↔
      Steps (Uptime.step bits) (SteadyStep bits) { rtc, tick } events := by
  have start : Sound bits { rtc, tick } := ⟨offset, nofun⟩
  exact always_iff (Uptime.step bits) (SteadyStep bits) (Sound bits) KeepsTime
    (fun _ event sound _ _ => sound_step event sound)
    (fun _ event sound keeps => keepsTime_step event wide sound keeps) _ events start .nil

theorem keepsTime_iff_second : KeepsTime
    ([.getValues, .tick, .getValues].foldl (Uptime.step 32) { rtc := ⟨0, 1644739200⟩, tick := 999 }) :=
  (keepsTime_iff 32 ⟨0, 1644739200⟩ 999 [.getValues, .tick, .getValues] (by decide) (by decide)).mpr (by decide) _
    (List.prefix_refl _)

end SmartWatch.Proofs.TimeKeeping
