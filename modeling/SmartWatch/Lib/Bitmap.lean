import Mathlib.Data.List.Basic

/-! A table of lists with one bit for each list that is not empty, as ready queues
keep it. -/

namespace Bitmap

variable {w : Nat} {α : Type u}

theorem getLsbD_mark (group : BitVec w) (index other : Nat) :
    (group ||| 1#w <<< index).getLsbD other = (group.getLsbD other || decide (other < w ∧ other = index)) := by
  rw [BitVec.getLsbD_or, BitVec.getLsbD_shiftLeft, BitVec.getLsbD_one]
  congr 1
  rw [Bool.eq_iff_iff]
  simp only [Bool.and_eq_true, decide_eq_true_eq, Bool.not_eq_true', decide_eq_false_iff_not]
  omega

theorem getLsbD_clear (group : BitVec w) (index other : Nat) :
    (group &&& ~~~(1#w <<< index)).getLsbD other = (group.getLsbD other && decide (other ≠ index)) := by
  rw [BitVec.getLsbD_and, BitVec.getLsbD_not, BitVec.getLsbD_shiftLeft, BitVec.getLsbD_one]
  rcases Nat.lt_or_ge other w with inside | outside
  · congr 1
    rw [Bool.eq_iff_iff]
    simp only [Bool.and_eq_true, decide_eq_true_eq, Bool.not_eq_true', decide_eq_false_iff_not, Bool.and_eq_false_iff,
      Bool.not_eq_false']
    omega
  · rw [BitVec.getLsbD_of_ge group other outside]
    rfl

/-- A bit is set where its list is not empty. -/
def Summarises (group : BitVec w) (table : Nat → List α) : Prop :=
  ∀ index, index < w → (group.getLsbD index = true ↔ table index ≠ [])

namespace Summarises

variable {group : BitVec w} {table : Nat → List α}

theorem push (summary : Summarises group table) (index : Nat) (item : α) : Summarises (group ||| 1#w <<< index)
    (fun other => if other = index then table other ++ [item] else table other) := by
  intro other inside
  rw [getLsbD_mark]
  by_cases same : other = index
  · simp [same, same ▸ inside]
  · simp [same, summary other inside]

/-- The bit of a list that has become empty is cleared. -/
theorem drop (summary : Summarises group table) (index : Nat) (after : Nat → List α)
    (others : ∀ other, other ≠ index → after other = table other) (shorter : after index ≠ [] → table index ≠ []) :
    Summarises (if after index = [] then group &&& ~~~(1#w <<< index) else group) after := by
  intro other inside
  by_cases same : other = index
  · subst same
    split
    next empty => rw [getLsbD_clear]; simp [empty]
    next full => simp [full, (summary other inside).mpr (shorter full)]
  · rw [others other same, ← summary other inside]
    split
    · rw [getLsbD_clear]; simp [same]
    · exact .rfl

theorem ne_zero (summary : Summarises group table) {index : Nat} (inside : index < w) (full : table index ≠ []) :
    group ≠ 0#w := by
  rintro rfl
  exact absurd ((summary index inside).mpr full) (by simp)

end Summarises

/-- The number of the lowest bit that is set. -/
structure Lowest (value : BitVec w) (index : Nat) : Prop where
  set : value.getLsbD index = true
  below : ∀ lower, lower < index → value.getLsbD lower = false

theorem Lowest.lt {value : BitVec w} {index : Nat} (lowest : Lowest value index) : index < w :=
  BitVec.lt_of_getLsbD lowest.set

end Bitmap
