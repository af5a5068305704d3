/-! Byte memory, and the strings C keeps in it: the bytes of a text and a zero
byte behind them. -/

namespace CString

abbrev Memory := Nat → UInt8

def put (memory : Memory) (write : Nat × UInt8) : Memory :=
  fun place => if place = write.1 then write.2 else memory place

/-- One byte after the other, from an address on. -/
def writes (address : Nat) : List UInt8 → List (Nat × UInt8)
  | [] => []
  | byte :: bytes => (address, byte) :: writes (address + 1) bytes

/-- The text at an address, when its zero byte is among the first `capacity` bytes. -/
def text (memory : Memory) (address : Nat) : Nat → Option (List UInt8)
  | 0 => none
  | capacity + 1 =>
    if memory address = 0 then some [] else (text memory (address + 1) capacity).map (memory address :: ·)

theorem mem_writes {address : Nat} {bytes : List UInt8} {write : Nat × UInt8} (made : write ∈ writes address bytes) :
    address ≤ write.1 ∧ write.1 < address + bytes.length := by
  induction bytes generalizing address with
  | nil => cases made
  | cons byte bytes ih =>
    rw [List.length_cons]
    rcases List.mem_cons.mp made with rfl | later
    · exact ⟨Nat.le_refl _, Nat.lt_add_of_pos_right (Nat.succ_pos _)⟩
    · have inside := ih later
      omega

theorem last_mem_writes (address : Nat) (bytes : List UInt8) (byte : UInt8) :
    (address + bytes.length, byte) ∈ writes address (bytes ++ [byte]) := by
  induction bytes generalizing address with
  | nil => exact List.mem_cons_self
  | cons first bytes ih =>
    have later := ih (address + 1)
    rw [Nat.add_right_comm, Nat.add_assoc] at later
    exact List.mem_cons_of_mem _ later

theorem put_outside (memory : Memory) (address : Nat) (bytes : List UInt8) {place : Nat}
    (outside : place < address ∨ address + bytes.length ≤ place) :
    (writes address bytes).foldl put memory place = memory place := by
  induction bytes generalizing memory address with
  | nil => rfl
  | cons byte bytes ih =>
    rw [List.length_cons] at outside
    have other : place ≠ address := by omega
    rw [writes, List.foldl_cons, ih _ _ (by omega), put, if_neg other]

theorem text_congr {one other : Memory} {address capacity : Nat}
    (same : ∀ place, address ≤ place → place < address + capacity → one place = other place) :
    text one address capacity = text other address capacity := by
  induction capacity generalizing address with
  | zero => rfl
  | succ capacity ih =>
    have rest := @ih (address + 1) fun place low high => same place (by omega) (by omega)
    rw [text, text, same address (Nat.le_refl _) (by omega), rest]

theorem put_last (memory : Memory) (address : Nat) (bytes : List UInt8) (byte : UInt8) :
    (writes address (bytes ++ [byte])).foldl put memory (address + bytes.length) = byte := by
  induction bytes generalizing memory address with
  | nil => exact if_pos rfl
  | cons first bytes ih =>
    have later := ih (put memory (address, first)) (address + 1)
    rwa [Nat.add_right_comm, Nat.add_assoc] at later

/-- What is stored is read back when there is room for its zero byte, and has no
end in the room when there is none. -/
theorem text_stored (memory : Memory) (address capacity : Nat) {bytes : List UInt8} (solid : 0 ∉ bytes) :
    text ((writes address (bytes ++ [0])).foldl put memory) address capacity =
      if bytes.length < capacity then some bytes else none := by
  induction bytes generalizing memory address capacity with
  | nil =>
    cases capacity with
    | zero => rfl
    | succ capacity =>
      have here : (writes address ([] ++ [0])).foldl put memory address = 0 := if_pos rfl
      rw [text, if_pos here]
      exact (if_pos (Nat.succ_pos capacity)).symm
  | cons byte bytes ih =>
    obtain ⟨nonzero, solid⟩ := not_or.mp (mt List.mem_cons.mpr solid)
    cases capacity with
    | zero => rfl
    | succ capacity =>
      have here : (writes address (byte :: bytes ++ [0])).foldl put memory address = byte := by
        rw [List.cons_append, writes, List.foldl_cons, put_outside _ _ _ (.inl (Nat.lt_succ_self _))]
        exact if_pos rfl
      rw [text, here, if_neg (Ne.symm nonzero), List.cons_append, writes, List.foldl_cons, ih _ _ _ solid,
        List.length_cons]
      by_cases room : bytes.length < capacity
      · rw [if_pos room, if_pos (Nat.succ_lt_succ room)]
        rfl
      · rw [if_neg room, if_neg (mt Nat.lt_of_succ_lt_succ room)]
        rfl

end CString
