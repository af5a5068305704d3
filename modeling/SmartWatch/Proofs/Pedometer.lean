import SmartWatch.Pedometer
import SmartWatch.Lib.Runs
import Mathlib.Data.Int.Lemmas

/-! The step test against the exact length of the acceleration, for one sample
and for the samples of successive iterations. -/

namespace SmartWatch.Proofs.Pedometer
open TwosComplement Runs

/-- A big-endian pair as a two's-complement number. -/
def bigEndian (high low : UInt8) : Int := wrap 16 (256 * high.toNat + low.toNat)

theorem axis_toInt (high low : UInt8) : (axis high low).toInt = bigEndian high low := by
  have joined : (high.toUInt16 <<< 8 ||| low.toUInt16).toNat = 256 * high.toNat + low.toNat := by
    have upper := high.toNat_lt
    have lower : low.toNat < 2 ^ 8 := low.toNat_lt
    have sum := Nat.shiftLeft_add_eq_or_of_lt lower high.toNat
    rw [Nat.shiftLeft_eq] at sum
    simp only [UInt16.toNat_or, UInt16.toNat_shiftLeft, UInt8.toNat_toUInt16, UInt16.reduceToNat, Nat.reduceMod,
      Nat.shiftLeft_eq]
    rw [Nat.mod_eq_of_lt (by omega), ← sum]
    omega
  have signed : (axis high low).toInt = Int.bmod (high.toUInt16 <<< 8 ||| low.toUInt16).toNat (2 ^ 16) :=
    BitVec.toInt_eq_toNat_bmod _
  rw [signed, joined, bigEndian, wrap, Int.bmod_def]
  split <;> omega

/-- The exact square of the length of the acceleration. -/
def energy (axes : Axes) : Int :=
  axes.aacx.toInt * axes.aacx.toInt + axes.aacy.toInt * axes.aacy.toInt + axes.aacz.toInt * axes.aacz.toInt

theorem square_range (value : Int16) : 0 ≤ value.toInt * value.toInt ∧ value.toInt * value.toInt ≤ 2 ^ 30 := by
  have low := value.le_toInt
  have high := value.toInt_lt
  have small : value.toInt.natAbs ≤ 32768 := by omega
  have square : (value.toInt.natAbs * value.toInt.natAbs : Nat) = value.toInt * value.toInt := Int.natAbs_mul_self
  have bound := Nat.mul_le_mul small small
  omega

theorem inInt_eq {exact : Int} (low : 0 ≤ exact) : inInt exact = if exact < 2 ^ 31 then some exact else none := by
  have same : Fits 32 exact ↔ exact < 2 ^ 31 := ⟨fun fits => fits.2, fun high => ⟨by omega, high⟩⟩
  simp only [inInt, same]

theorem vector_eq (axes : Axes) : vector axes =
    if energy axes < 2 ^ 31 then some (UInt16.ofNat (Nat.sqrt (energy axes).toNat)) else none := by
  obtain ⟨xLow, xHigh⟩ := square_range axes.aacx
  obtain ⟨yLow, yHigh⟩ := square_range axes.aacy
  obtain ⟨zLow, zHigh⟩ := square_range axes.aacz
  have two : 0 ≤ axes.aacx.toInt * axes.aacx.toInt + axes.aacy.toInt * axes.aacy.toInt := by omega
  have three : 0 ≤ energy axes := by unfold energy; omega
  rw [vector, inInt_eq xLow, inInt_eq yLow, inInt_eq zLow, if_pos (by omega), if_pos (by omega), if_pos (by omega)]
  simp only [Option.bind_eq_bind, Option.bind_some, inInt_eq two]
  unfold energy at three ⊢
  split
  next =>
    rw [Option.bind_some, inInt_eq three]
    split <;> rfl
  next overflow => rw [if_neg (by omega), Option.bind_none]

private theorem sqrt_lt {square : Int} (small : square < 2 ^ 31) : Nat.sqrt square.toNat < 46341 := by
  apply Nat.sqrt_lt.mpr
  omega

private theorem totalvector_zero {length : Nat} (small : length < 46341) :
    (totalvector (UInt16.ofNat length) 0).toNat = length / 2 := by
  have stored : (UInt16.ofNat length).toNat = length := by
    rw [UInt16.toNat_ofNat']
    omega
  have half : ((length : Int) - (0 : UInt16).toNat).tdiv 2 = (length / 2 : Nat) := by
    rw [UInt16.toNat_zero, Int.natCast_zero, Int.sub_zero]
    rfl
  rw [totalvector, stored, half, UInt16.ofInt, UInt16.toNat_ofNat']
  omega

private theorem counts_eq (axes : Axes) : counts axes =
    if energy axes < 2 ^ 31 then some (decide (21002 ^ 2 ≤ energy axes)) else none := by
  rw [counts, vector_eq]
  split
  next small =>
    have length := sqrt_lt small
    have long : 21002 ≤ Nat.sqrt (energy axes).toNat ↔ 21002 ^ 2 ≤ energy axes := by
      rw [Nat.le_sqrt]
      omega
    have tested : ((totalvector (UInt16.ofNat (Nat.sqrt (energy axes).toNat)) 0).toNat : Int) > threshold ↔
        21002 ^ 2 ≤ energy axes := by
      rw [totalvector_zero length, ← long, threshold]
      omega
    simp only [Option.bind_eq_bind, Option.bind_some, tested]
    rfl
  next => rfl

def decoded (buf : AccelBytes) : Fin 3 → Int
  | 0 => bigEndian (buf.get 0) (buf.get 1)
  | 1 => bigEndian (buf.get 2) (buf.get 3)
  | 2 => bigEndian (buf.get 4) (buf.get 5)

def square (buf : AccelBytes) : Int := decoded buf 0 ^ 2 + decoded buf 1 ^ 2 + decoded buf 2 ^ 2

private theorem square_eq (buf : AccelBytes) : square buf = energy (mpuGetAccelerometer buf) := by
  simp only [square, decoded, energy, mpuGetAccelerometer, axis_toInt, Int.pow_succ, Int.pow_zero, Int.one_mul]
  rfl

/-- Each axis of one sample is at least as large in magnitude as that of another. -/
def Exceeds (one other : AccelBytes) : Prop := ∀ axis, (decoded other axis).natAbs ≤ (decoded one axis).natAbs

theorem Exceeds.square_le {one other : AccelBytes} (exceeds : Exceeds one other) : square other ≤ square one := by
  have squares (axis : Fin 3) : decoded other axis ^ 2 ≤ decoded one axis ^ 2 :=
    Int.natAbs_le_iff_sq_le.mp (exceeds axis)
  exact Int.add_le_add (Int.add_le_add (squares 0) (squares 1)) (squares 2)

/-- The test of a sample is free of overflow, counts exactly the long samples, and
counts a sample that exceeds a counted one. -/
structure Tested (buf : AccelBytes) : Prop where
  exactly : ∃ counted, counts (mpuGetAccelerometer buf) = some counted ∧ (counted = true ↔ 21002 ^ 2 ≤ square buf)
  monotone : ∀ other, counts (mpuGetAccelerometer other) = some true → Exceeds buf other →
    counts (mpuGetAccelerometer buf) = some true

/-- Two axes at the negative end: the sum of their squares is 2 to the 31. -/
theorem shock_overflows : ¬ ∀ buf, Tested buf := by
  intro always
  obtain ⟨counted, tested, _⟩ := (always #v[0x80, 0, 0x80, 0, 0, 0]).exactly
  have undefined : counts (mpuGetAccelerometer #v[0x80, 0, 0x80, 0, 0, 0]) = none := by decide
  rw [undefined] at tested
  cases tested

theorem tested_iff (buf : AccelBytes) : Tested buf ↔ square buf < 2 ^ 31 := by
  constructor
  · intro tested
    obtain ⟨counted, same, _⟩ := tested.exactly
    rw [counts_eq, ← square_eq] at same
    split at same
    next small => exact small
    next => cases same
  · intro small
    have test := counts_eq (mpuGetAccelerometer buf)
    rw [← square_eq, if_pos small] at test
    refine ⟨⟨_, test, decide_eq_true_iff⟩, fun other counted exceeds => ?_⟩
    rw [counts_eq, ← square_eq] at counted
    split at counted
    next =>
      have long : 21002 ^ 2 ≤ square other := of_decide_eq_true (Option.some.inj counted)
      rw [test, decide_eq_true (Int.le_trans long exceeds.square_le)]
    next => cases counted

/-- The truncated length of the acceleration. -/
def magnitude (axes : Axes) : Nat := Nat.sqrt (energy axes).toNat

def previous (samples : List Axes) : Nat := samples.foldl (fun _ sample => magnitude sample) 0

/-- The change of the magnitude that counts as a step. -/
def Rises (before now : Nat) : Prop := ((now : Int) - before).tdiv 2 > threshold

instance (before now : Nat) : Decidable (Rises before now) := inferInstanceAs (Decidable (_ > _))

/-- Steps are counted on change: in every iteration, and so at most once in a run
of identical samples. -/
structure OnChange (samples : List Axes) : Prop where
  each : ∀ first sample, first ++ [sample] <+: samples → ∃ before after,
    stepsAfter first = some before ∧ stepsAfter (first ++ [sample]) = some after ∧
      after = if Rises (previous first) (magnitude sample) then toInt (before + 1) else before
  alike : ∀ first sample count, first ++ List.replicate count sample <+: samples → ∃ before after,
    stepsAfter first = some before ∧ stepsAfter (first ++ List.replicate count sample) = some after ∧
      (after = before ∨ after = toInt (before + 1))

/-- The sample is short, or longer than its predecessor by as much as a step needs. -/
def Jumps (before : Nat) (sample : Axes) : Prop :=
  energy sample < 2 ^ 31 ∧ (magnitude sample < 21002 ∨ before + 21002 ≤ magnitude sample)

instance (before : Nat) (sample : Axes) : Decidable (Jumps before sample) := inferInstanceAs (Decidable (_ ∧ _))

theorem stepsAfter_append (first rest : List Axes) :
    stepsAfter (first ++ rest) = (stepsAfter first).bind fun steps => rest.foldlM countStep steps := by
  rw [stepsAfter, List.foldlM_append]
  rfl

theorem countStep_eq (steps : Int) (axes : Axes) : countStep steps axes =
    if energy axes < 2 ^ 31 then some (if 21002 ≤ magnitude axes then toInt (steps + 1) else steps) else none := by
  rw [countStep, counts_eq]
  split
  next small =>
    have long : 21002 ≤ magnitude axes ↔ 21002 ^ 2 ≤ energy axes := by
      rw [magnitude, Nat.le_sqrt]
      omega
    simp only [Option.bind_eq_bind, Option.bind_some, long, decide_eq_true_eq]
    rfl
  next => rfl

theorem rises_iff (before now : Nat) : Rises before now ↔ before + 21002 ≤ now := by
  unfold Rises threshold
  by_cases falls : (now : Int) - before ≤ 0
  · have low : ((now : Int) - before).tdiv 2 ≤ 0 := Int.tdiv_le_tdiv (by decide) falls
    omega
  · rw [Int.tdiv_eq_ediv_of_nonneg (by omega)]
    omega

theorem previous_append (first : List Axes) (sample : Axes) : previous (first ++ [sample]) = magnitude sample := by
  rw [previous, List.foldl_append]
  rfl

theorem stepsAfter_defined {samples : List Axes} (small : ∀ sample ∈ samples, energy sample < 2 ^ 31) :
    ∃ steps, stepsAfter samples = some steps := by
  suffices walked : ∀ start, ∃ steps, samples.foldlM countStep start = some steps from walked 0
  induction samples with
  | nil => exact fun start => ⟨start, rfl⟩
  | cons sample samples ih =>
    intro start
    have rest := ih fun other member => small other (List.mem_cons_of_mem _ member)
    rw [List.foldlM_cons, countStep_eq, if_pos (small sample List.mem_cons_self)]
    exact rest _

theorem counts_on_change {first : List Axes} {sample : Axes} {before : Int} (reached : stepsAfter first = some before) :
    stepsAfter (first ++ [sample]) =
        some (if Rises (previous first) (magnitude sample) then toInt (before + 1) else before) ↔
      Jumps (previous first) sample := by
  have moved : toInt (before + 1) ≠ before := by
    unfold toInt wrap
    omega
  rw [stepsAfter_append, reached, Option.bind_some]
  simp only [List.foldlM_cons, List.foldlM_nil, bind_pure, countStep_eq]
  simp only [rises_iff, Jumps]
  by_cases small : energy sample < 2 ^ 31
  · rw [if_pos small]
    by_cases long : 21002 ≤ magnitude sample
    · by_cases change : previous first + 21002 ≤ magnitude sample
      · simp only [long, change, small, if_true, or_true, and_true]
      · simp only [long, change, small, if_true, if_false, Option.some.injEq, moved, true_and, or_false, false_iff]
        omega
    · have steady : ¬ previous first + 21002 ≤ magnitude sample := by omega
      simp only [long, steady, small, if_false, true_and, or_false, true_iff]
      omega
  · simp only [small, if_false, reduceCtorEq, false_and]

theorem alike_steps {first : List Axes} {sample : Axes} {before : Int} (count : Nat)
    (reached : stepsAfter first = some before)
    (jumps : ∀ more < count, Jumps (previous (first ++ List.replicate more sample)) sample) : ∃ after,
      stepsAfter (first ++ List.replicate count sample) = some after ∧ (after = before ∨ after = toInt (before + 1)) := by
  induction count with
  | zero => exact ⟨before, by rw [List.replicate_zero, List.append_nil, reached], .inl rfl⟩
  | succ count ih =>
    obtain ⟨now, walked, few⟩ := ih fun more less => jumps more (by omega)
    have jump := jumps count (by omega)
    have next := (counts_on_change walked).mpr jump
    rw [List.append_assoc, ← List.replicate_succ'] at next
    refine ⟨_, next, ?_⟩
    cases count with
    | zero =>
      rw [List.replicate_zero, List.append_nil, reached] at walked
      cases walked
      split
      next => exact .inr rfl
      next => exact .inl rfl
    | succ count =>
      have steady : ¬ Rises (previous (first ++ List.replicate (count + 1) sample)) (magnitude sample) := by
        rw [rises_iff, List.replicate_succ', ← List.append_assoc, previous_append]
        omega
      rw [if_neg steady]
      exact few

/-- Two hard shakes of the same strength are two steps. -/
theorem twice_shaken : ¬ ∀ samples, OnChange samples := by
  intro always
  obtain ⟨before, after, start, twice, few⟩ := (always (List.replicate 2 ⟨21002, 0, 0⟩)).alike [] ⟨21002, 0, 0⟩ 2
    (List.prefix_refl _)
  cases start
  have two : stepsAfter (List.replicate 2 ⟨21002, 0, 0⟩) = some 2 := by decide +kernel
  cases two.symm.trans twice
  exact absurd few (by decide)

/-- Steps are counted on change exactly in the runs without overflow in which no
long sample follows one that is almost as long or longer. -/
theorem onChange_iff (samples : List Axes) :
    OnChange samples ↔ Steps (fun _ sample => magnitude sample) Jumps 0 samples := by
  constructor
  · intro onChange
    apply (steps_iff _).mpr
    intro first sample within
    obtain ⟨before, after, reached, next, same⟩ := onChange.each first sample within
    exact (counts_on_change reached).mp (same ▸ next)
  · intro met
    have jumps := (steps_iff _).mp met
    have small {sample : Axes} (member : sample ∈ samples) : energy sample < 2 ^ 31 := by
      obtain ⟨first, rest, split⟩ := List.append_of_mem member
      exact (jumps first sample ⟨rest, by rw [split, List.append_assoc]; rfl⟩).1
    have reached {first rest : List Axes} (within : first ++ rest <+: samples) : ∃ before, stepsAfter first = some before :=
      stepsAfter_defined fun sample member => small (within.subset (List.mem_append_left rest member))
    constructor
    · intro first sample within
      obtain ⟨before, walked⟩ := reached within
      exact ⟨before, _, walked, (counts_on_change walked).mpr (jumps first sample within), rfl⟩
    · intro first sample count within
      obtain ⟨before, walked⟩ := reached within
      obtain ⟨after, next, few⟩ := alike_steps count walked fun more less => by
        apply jumps _ sample
        apply List.IsPrefix.trans _ within
        rw [List.append_assoc, List.prefix_append_right_inj, ← List.replicate_succ']
        exact List.prefix_replicate_iff.mpr ⟨by rw [List.length_replicate]; exact less, by rw [List.length_replicate]⟩
      exact ⟨before, after, walked, next, few⟩

end SmartWatch.Proofs.Pedometer
