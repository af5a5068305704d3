import Mathlib.Algebra.Group.Int.Defs

/-! Signed integers of a fixed width: a result that leaves the range wraps. -/

namespace TwosComplement

/-- The value of the width that is congruent to the exact result. -/
def wrap (bits : Nat) (value : Int) : Int := (value + 2 ^ (bits - 1)) % 2 ^ bits - 2 ^ (bits - 1)

def Fits (bits : Nat) (value : Int) : Prop := -2 ^ (bits - 1) ≤ value ∧ value < 2 ^ (bits - 1)

instance (bits : Nat) (value : Int) : Decidable (Fits bits value) := inferInstanceAs (Decidable (_ ∧ _))

theorem double_half {bits : Nat} (some : 0 < bits) : (2 : Int) ^ bits = 2 * 2 ^ (bits - 1) := by
  obtain ⟨half, rfl⟩ : ∃ half, bits = half + 1 := ⟨bits - 1, by omega⟩
  rw [Nat.add_sub_cancel, Int.pow_succ, Int.mul_comm]

theorem wrap_of_fits {bits : Nat} {value : Int} (some : 0 < bits) (fits : Fits bits value) :
    wrap bits value = value := by
  have double := double_half some
  unfold Fits at fits
  unfold wrap
  rw [Int.emod_eq_of_lt (by omega) (by omega)]
  omega

theorem wrap_add_wrap (bits : Nat) (first second : Int) :
    wrap bits (wrap bits first + second) = wrap bits (first + second) := by
  unfold wrap
  have shift : (first + 2 ^ (bits - 1)) % 2 ^ bits - 2 ^ (bits - 1) + second + 2 ^ (bits - 1) =
      (first + 2 ^ (bits - 1)) % 2 ^ bits + second := by omega
  rw [shift, Int.emod_add_emod]
  congr 2
  omega

theorem wrap_sub_turn (bits : Nat) (value : Int) : wrap bits (value - 2 ^ bits) = wrap bits value := by
  unfold wrap
  rw [show value - 2 ^ bits + 2 ^ (bits - 1) = value + 2 ^ (bits - 1) - 2 ^ bits by omega, Int.sub_emod_right]

theorem half_le {first last : Nat} (wide : first ≤ last) : (2 : Int) ^ (first - 1) ≤ 2 ^ (last - 1) := by
  have powers : 2 ^ (first - 1) ≤ 2 ^ (last - 1) := Nat.pow_le_pow_right (by omega) (by omega)
  exact_mod_cast powers

end TwosComplement
