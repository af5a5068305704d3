import Mathlib.Data.List.Nodup

/-! A queue whose items are served from the front, with a record of the items served:
of two items in it, the one in front is served first. -/

namespace Queues

variable {α : Type u}

/-- One item is before the other in the queue and neither has been served since, or it
has been served before the other. -/
def InOrder (base : List α) (one two : α) (queue served : List α) : Prop :=
  ([one, two].Sublist queue ∧ ∃ since, served = base ++ since ∧ one ∉ since ∧ two ∉ since) ∨
    ∃ front back, served = base ++ (front ++ back) ∧ one ∈ front ∧ two ∉ front

variable {base queue after served : List α} {one two item : α}

theorem InOrder.begin (precedes : [one, two].Sublist queue) : InOrder served one two queue served :=
  .inl ⟨precedes, [], (List.append_nil _).symm, List.not_mem_nil, List.not_mem_nil⟩

/-- Nothing is served, and the two stay in the queue. -/
theorem InOrder.keep (order : InOrder base one two queue served) (kept : [one, two].Sublist queue → [one, two].Sublist after) :
    InOrder base one two after served :=
  order.imp (fun ⟨precedes, log⟩ => ⟨kept precedes, log⟩) id

theorem InOrder.serve (order : InOrder base one two queue served) (behind : [one, two].Sublist queue → item ≠ two)
    (kept : item ≠ one → [one, two].Sublist queue → [one, two].Sublist after) :
    InOrder base one two after (served ++ [item]) := by
  rcases order with ⟨precedes, since, rfl, not_one, not_two⟩ | ⟨front, back, rfl, is_one, not_two⟩
  · have other := behind precedes
    by_cases first : item = one
    · refine .inr ⟨since ++ [item], [], by simp, ?_, ?_⟩
      · rw [first]
        exact List.mem_append_right _ (List.mem_singleton_self one)
      · simp [not_two, other.symm]
    · refine .inl ⟨kept first precedes, since ++ [item], List.append_assoc _ _ _, ?_, ?_⟩
      · simp [not_one, Ne.symm first]
      · simp [not_two, other.symm]
  · exact .inr ⟨front, back ++ [item], by simp, is_one, not_two⟩

theorem InOrder.served_first [DecidableEq α] (order : InOrder base one two queue served)
    (more : base.count two < served.count two) : ∃ front back, served = base ++ (front ++ back) ∧ one ∈ front ∧ two ∉ front := by
  rcases order with ⟨_, since, rfl, _, not_two⟩ | first
  · rw [List.count_append, List.count_eq_zero_of_not_mem not_two] at more
    exact absurd more (Nat.lt_irrefl _)
  · exact first

/-- The first item of a queue is not the one behind. -/
theorem head_ne {rest : List α} (nodup : (item :: rest).Nodup) (different : one ≠ two)
    (precedes : [one, two].Sublist (item :: rest)) : item ≠ two := by
  rintro rfl
  have new := (List.nodup_cons.mp nodup).1
  rcases List.sublist_cons_iff.mp precedes with inside | ⟨_, same, _⟩
  · exact new (inside.subset (List.mem_cons_of_mem _ (List.mem_singleton_self item)))
  · exact different (List.cons.inj same).1

theorem precedes_erase [DecidableEq α] (first : item ≠ one) (second : item ≠ two) (precedes : [one, two].Sublist queue) :
    [one, two].Sublist (queue.erase item) := by
  have erased := precedes.erase item
  rwa [List.erase_of_not_mem (by simp [first, second])] at erased

end Queues
