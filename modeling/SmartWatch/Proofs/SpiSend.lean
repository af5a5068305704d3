import SmartWatch.SpiSend

/-! For which frame sizes and lengths the blocking send writes the frames of the
buffer, however long each of its waits takes. -/

namespace SmartWatch.Proofs.SpiSend
open Polling

/-- The frame size the hardware uses. -/
def dff (ctlr1 : UInt16) : Bool := ctlr1 &&& spiCtlr1Dff != 0

/-- The frames of a buffer of `n` bytes. -/
def frames (ctlr1 : UInt16) (memory : Nat → UInt8) (n : Nat) : List DataWrite :=
  if dff ctlr1 then (List.range (n / 2)).map fun i => loadHalfword memory (2 * i)
  else (List.range n).map (loadByte memory)

private theorem halfword_toNat (high low : UInt8) :
    (high.toUInt16 <<< 8 ||| low.toUInt16).toNat = 256 * high.toNat + low.toNat := by
  have first := high.toNat_lt
  have second := low.toNat_lt
  have shift : UInt16.toNat 8 % 16 = 8 := rfl
  have small : high.toNat <<< 8 < 2 ^ 16 := by rw [Nat.shiftLeft_eq]; omega
  rw [UInt16.toNat_or, UInt16.toNat_shiftLeft, UInt8.toNat_toUInt16, UInt8.toNat_toUInt16, shift, Nat.mod_eq_of_lt small,
    ← Nat.shiftLeft_add_eq_or_of_lt second, Nat.shiftLeft_eq]
  omega

@[simp] theorem loadByte_bytes (memory : Nat → UInt8) (offset : Nat) : (loadByte memory offset).bytes = [memory offset] := by
  simp [DataWrite.bytes, loadByte]

@[simp] theorem loadHalfword_bytes (memory : Nat → UInt8) (offset : Nat) :
    (loadHalfword memory offset).bytes = [memory offset, memory (offset + 1)] := by
  have whole := halfword_toNat (memory (offset + 1)) (memory offset)
  have first := (memory offset).toNat_lt
  have second := (memory (offset + 1)).toNat_lt
  have shift : UInt16.toNat 8 % 16 = 8 := rfl
  have low : (loadHalfword memory offset).value.toUInt8 = memory offset := by
    apply UInt8.toNat_inj.mp
    rw [loadHalfword, UInt16.toNat_toUInt8, whole]
    omega
  have high : ((loadHalfword memory offset).value >>> 8).toUInt8 = memory (offset + 1) := by
    apply UInt8.toNat_inj.mp
    rw [loadHalfword, UInt16.toNat_toUInt8, UInt16.toNat_shiftRight, whole, shift, Nat.shiftRight_eq_div_pow]
    omega
  rw [DataWrite.bytes, low, high]
  rfl

/-- The frames are the bytes of the buffer, each of them once and in order. -/
theorem frames_bytes (ctlr1 : UInt16) (memory : Nat → UInt8) (n : Nat) (even : dff ctlr1 = true → n % 2 = 0) :
    (frames ctlr1 memory n).flatMap DataWrite.bytes = (List.range n).map memory := by
  unfold frames
  split
  next wide =>
    obtain ⟨half, rfl⟩ : ∃ half, n = 2 * half := ⟨n / 2, by have := even wide; omega⟩
    rw [Nat.mul_div_cancel_left half (by decide)]
    clear even
    induction half with
    | zero => rfl
    | succ half ih =>
      rw [List.range_succ, List.map_append, List.flatMap_append, ih, show 2 * (half + 1) = 2 * half + 1 + 1 by omega,
        List.range_succ, List.range_succ]
      simp
  next narrow =>
    simp only [List.flatMap_map, loadByte_bytes]
    exact List.map_eq_flatMap.symm

/-- The send returns, whenever TXE keeps coming, with the frames written and
nothing else. -/
def Delivers (shift : UInt32) (ctlr1 : UInt16) (memory : Nat → UInt8) (n : Nat) : Prop :=
  ∀ txe, Recurs txe → ∃ polls, (writeDataSend shift ctlr1 memory txe n polls).len = 0 ∧
    (writeDataSend shift ctlr1 memory txe n polls).written = frames ctlr1 memory n

private theorem less (len : UInt8) (first rest : Nat) :
    len - UInt8.ofNat first - UInt8.ofNat rest = len - UInt8.ofNat (first + rest) := by
  apply UInt8.toNat_inj.mp
  have bound := len.toNat_lt
  simp only [UInt8.toNat_sub, UInt8.toNat_ofNat']
  omega

section Turns
variable {shift : UInt32} {ctlr1 : UInt16} (memory : Nat → UInt8) (len : UInt8)

theorem turns_bytes (narrow : ctlr1.toUInt32 &&& shift = 0) (turns : Nat) :
    (sendTurn shift ctlr1 memory)^[turns] { len } =
      { len := len - UInt8.ofNat turns, pTxBuffer := turns, written := (List.range turns).map (loadByte memory) } := by
  induction turns with
  | zero => simp
  | succ turns ih =>
    have test : ¬ ctlr1.toUInt32 &&& shift ≠ 0 := not_not_intro narrow
    rw [Function.iterate_succ_apply', ih, sendTurn, if_neg test, List.range_succ, List.map_append, ← less len turns 1]
    rfl

theorem turns_halfwords (wide : ctlr1.toUInt32 &&& shift ≠ 0) (turns : Nat) :
    (sendTurn shift ctlr1 memory)^[turns] { len } =
      { len := len - UInt8.ofNat (2 * turns), pTxBuffer := turns, written := (List.range turns).map (loadHalfword memory) } := by
  induction turns with
  | zero => simp
  | succ turns ih =>
    rw [Function.iterate_succ_apply', ih, sendTurn, if_pos wide, List.range_succ, List.map_append,
      show 2 * (turns + 1) = 2 * turns + 1 + 1 by omega, ← less len (2 * turns + 1) 1, ← less len (2 * turns) 1]
    rfl

end Turns

/-- The lengths that go out as they should: none, fewer than 256 bytes where the
test reads the 8-bit size as such, and two bytes where it reads the 16-bit size as such. -/
def Sendable (shift : UInt32) (ctlr1 : UInt16) (n : Nat) : Prop :=
  n = 0 ∨ dff ctlr1 = false ∧ ctlr1.toUInt32 &&& shift = 0 ∧ n < 256 ∨
    dff ctlr1 = true ∧ ctlr1.toUInt32 &&& shift ≠ 0 ∧ n = 2

instance (shift : UInt32) (ctlr1 : UInt16) (n : Nat) : Decidable (Sendable shift ctlr1 n) :=
  inferInstanceAs (Decidable (_ ∨ _))

private theorem delivers_of_turns {shift : UInt32} {ctlr1 : UInt16} {memory : Nat → UInt8} {n : Nat} (turns : Nat)
    (busy : ∀ earlier < turns, ((sendTurn shift ctlr1 memory)^[earlier] { len := UInt8.ofNat n }).len ≠ 0)
    (ends : ((sendTurn shift ctlr1 memory)^[turns] { len := UInt8.ofNat n }).len = 0)
    (right : ((sendTurn shift ctlr1 memory)^[turns] { len := UInt8.ofNat n }).written = frames ctlr1 memory n) :
    Delivers shift ctlr1 memory n := by
  intro txe recurs
  have going (earlier : Nat) (less : earlier < turns) :
      (((sendTurn shift ctlr1 memory)^[earlier] { len := UInt8.ofNat n }).len == 0) = false :=
    beq_eq_false_iff_ne.mpr (busy earlier less)
  obtain ⟨polls, reached⟩ : ∃ polls, writeDataSend shift ctlr1 memory txe n polls =
      (sendTurn shift ctlr1 memory)^[turns] { len := UInt8.ofNat n } := reaches recurs _ turns going
  refine ⟨polls, ?_⟩
  rw [reached]
  exact ⟨ends, right⟩

theorem delivers_of_sendable {shift : UInt32} {ctlr1 : UInt16} (memory : Nat → UInt8) {n : Nat}
    (sendable : Sendable shift ctlr1 n) : Delivers shift ctlr1 memory n := by
  rcases sendable with rfl | ⟨bytes, narrow, small⟩ | ⟨halfwords, wide, rfl⟩
  · apply delivers_of_turns 0
    · exact fun _ less => absurd less (Nat.not_lt_zero _)
    · rfl
    · unfold frames
      split <;> rfl
  · have turns := turns_bytes memory (UInt8.ofNat n) narrow
    apply delivers_of_turns n
    · intro earlier less
      rw [turns]
      intro none
      have left := congrArg UInt8.toNat none
      simp only [UInt8.toNat_sub, UInt8.toNat_ofNat', UInt8.toNat_zero] at left
      omega
    · rw [turns]
      exact UInt8.sub_self _
    · rw [turns, frames, bytes]
      rfl
  · have turns := turns_halfwords memory (UInt8.ofNat 2) wide
    apply delivers_of_turns 1
    · intro earlier less
      obtain rfl : earlier = 0 := by omega
      change UInt8.ofNat 2 ≠ 0
      decide
    · rw [turns]
      rfl
    · rw [turns, frames, halfwords]
      rfl

theorem sendable_of_delivers {shift : UInt32} {ctlr1 : UInt16} {memory : Nat → UInt8} {n : Nat}
    (even : dff ctlr1 = true → n % 2 = 0) (delivers : Delivers shift ctlr1 memory n) : Sendable shift ctlr1 n := by
  obtain ⟨polls, _, right⟩ := delivers _ recurs_always
  obtain ⟨turns, reached, busy⟩ :=
    after_eq_iterate (fun s => s.len == 0) (sendTurn shift ctlr1 memory) (fun _ => true)
    { len := UInt8.ofNat n } polls
  rw [writeDataSend, spiSendData, reached] at right
  by_cases empty : n = 0
  · exact .inl empty
  by_cases narrow : ctlr1.toUInt32 &&& shift = 0
  · rw [turns_bytes memory _ narrow] at right
    cases size : dff ctlr1 with
    | false =>
      refine .inr (.inl ⟨size, narrow, ?_⟩)
      rw [frames, size] at right
      have count : turns = n := by simpa using congrArg List.length right
      -- A length of 256 or more is done after what `uint8_t` keeps of it.
      apply Nat.lt_of_not_le
      intro long
      have going := busy (n % 256) (by omega)
      rw [turns_bytes memory _ narrow] at going
      have done : UInt8.ofNat n - UInt8.ofNat (n % 256) = 0 := by
        apply UInt8.toNat_inj.mp
        simp only [UInt8.toNat_sub, UInt8.toNat_ofNat', UInt8.toNat_zero]
        omega
      rw [done] at going
      cases going
    | true =>
      have first : loadHalfword memory (2 * 0) ∈ frames ctlr1 memory n := by
        have some := even size
        rw [frames, size]
        exact List.mem_map.mpr ⟨0, List.mem_range.mpr (by omega), rfl⟩
      rw [← right] at first
      obtain ⟨_, _, same⟩ := List.mem_map.mp first
      cases congrArg DataWrite.halfword same
  · rw [turns_halfwords memory _ narrow] at right
    cases size : dff ctlr1 with
    | false =>
      have first : loadByte memory 0 ∈ frames ctlr1 memory n := by
        rw [frames, size]
        exact List.mem_map.mpr ⟨0, List.mem_range.mpr (by omega), rfl⟩
      rw [← right] at first
      obtain ⟨_, _, same⟩ := List.mem_map.mp first
      cases congrArg DataWrite.halfword same
    | true =>
      refine .inr (.inr ⟨size, narrow, ?_⟩)
      have whole := even size
      rw [frames, size, if_pos rfl] at right
      have count : turns = n / 2 := by simpa using congrArg List.length right
      -- The second halfword is read at the second byte.
      have few : n / 2 ≤ 1 := by
        apply Nat.le_of_not_lt
        intro many
        have second : loadHalfword memory 1 ∈ (List.range turns).map (loadHalfword memory) :=
          List.mem_map.mpr ⟨1, List.mem_range.mpr (by omega), rfl⟩
        rw [show (List.range turns).map (loadHalfword memory) = _ from right] at second
        obtain ⟨i, _, same⟩ := List.mem_map.mp second
        have offset : 2 * i = 1 := congrArg DataWrite.offset same
        omega
      omega

/-- 256 bytes in 8-bit frames: nothing is sent at all. -/
theorem sends_none_of_256 : ¬ ∀ shift ctlr1 memory n, (dff ctlr1 = true → n % 2 = 0) → Delivers shift ctlr1 memory n := by
  intro always
  have sendable := sendable_of_delivers (by decide) (always 1 0 (fun _ => 0) 256 (by decide))
  exact absurd sendable (by decide)

/-- What the send delivers, for both frame sizes and every length. -/
theorem delivers_iff (shift : UInt32) (ctlr1 : UInt16) (memory : Nat → UInt8) (n : Nat)
    (even : dff ctlr1 = true → n % 2 = 0) : Delivers shift ctlr1 memory n ↔ Sendable shift ctlr1 n :=
  ⟨sendable_of_delivers even, delivers_of_sendable memory⟩

/-- The two bytes of a pixel in 8-bit frames. -/
theorem delivers_iff_pixel : Delivers 1 0x0344 (fun i => if i = 0 then 0x07 else 0xe0) 2 :=
  (delivers_iff 1 0x0344 (fun i => if i = 0 then 0x07 else 0xe0) 2 (by decide)).mpr (by decide)

end SmartWatch.Proofs.SpiSend
