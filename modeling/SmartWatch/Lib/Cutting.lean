/-! Cutting a list at the `k`-th of its elements that are marked. -/

namespace Cutting

variable {α : Type u} (mark : α → Bool)

/-- What comes before the `k`-th mark. -/
def before : Nat → List α → List α
  | 0, _ => []
  | _ + 1, [] => []
  | k + 1, item :: items =>
    if mark item then (if k = 0 then [] else item :: before k items) else item :: before (k + 1) items

/-- What comes up to and with the `k`-th mark. -/
def through : Nat → List α → List α
  | 0, _ => []
  | _ + 1, [] => []
  | k + 1, item :: items => item :: through (if mark item then k else k + 1) items

/-- What comes after the `k`-th mark. -/
def behind (k : Nat) (items : List α) : List α := items.drop (through mark k items).length

@[simp] theorem before_zero (items : List α) : before mark 0 items = [] := by cases items <;> rfl

@[simp] theorem before_nil (k : Nat) : before mark k [] = [] := by cases k <;> rfl

@[simp] theorem through_nil (k : Nat) : through mark k [] = [] := by cases k <;> rfl

theorem through_initial (k : Nat) (items : List α) : through mark k items <+: items := by
  induction items generalizing k with
  | nil => cases k <;> exact List.prefix_refl _
  | cons item items ih =>
    cases k with
    | zero => exact List.nil_prefix
    | succ k => exact List.cons_prefix_cons.mpr ⟨rfl, ih _⟩

theorem through_append_behind (k : Nat) (items : List α) : through mark k items ++ behind mark k items = items :=
  List.prefix_iff_eq_append.mp (through_initial mark k items)

theorem before_of_few {k : Nat} {items : List α} (few : items.countP mark < k) : before mark k items = items := by
  induction items generalizing k with
  | nil => exact before_nil mark k
  | cons item items ih =>
    obtain ⟨k, rfl⟩ : ∃ less, k = less + 1 := ⟨k - 1, by omega⟩
    rw [List.countP_cons] at few
    rw [before]
    split
    next marked =>
      rw [if_pos marked] at few
      rw [if_neg (by omega), ih (by omega)]
    next plain =>
      rw [if_neg plain] at few
      rw [ih few]

/-- A list cut at a mark is cut in its first part, or in the rest at a mark less. -/
theorem before_append (k : Nat) (first rest : List α) : before mark k (first ++ rest) =
    if first.countP mark < k then first ++ before mark (k - first.countP mark) rest else before mark k first := by
  induction first generalizing k with
  | nil => cases k <;> simp [before]
  | cons item first ih =>
    cases k with
    | zero => simp [before]
    | succ k =>
      rw [List.cons_append, before, before, List.countP_cons]
      by_cases marked : mark item
      · simp only [marked, if_true]
        by_cases last : k = 0
        · simp only [last, if_true, Nat.zero_add, Nat.add_lt_iff_lt_sub_right, Nat.sub_self, Nat.not_lt_zero, if_false]
        · have next := ih k
          simp only [last, if_false, next, Nat.add_lt_add_iff_right, Nat.add_sub_add_right]
          split <;> rfl
      · have next := ih (k + 1)
        simp only [marked, Bool.false_eq_true, if_false, next, Nat.add_zero]
        split <;> rfl

end Cutting
