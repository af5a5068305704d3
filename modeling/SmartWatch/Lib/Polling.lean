import Mathlib.Logic.Function.Iterate

/-! A loop that polls a flag before each turn of its body, until it is done. The
flag has a value for every poll. -/

namespace Polling

variable {σ : Type u} (done : σ → Bool) (turn : σ → σ) (flag : Nat → Bool)

def poll (state : σ) (set : Bool) : σ := if set && !done state then turn state else state

def after (start : σ) : Nat → σ
  | 0 => start
  | polls + 1 => poll done turn (after start polls) (flag polls)

/-- The flag is always set again. -/
def Recurs : Prop := ∀ polls, ∃ later, polls ≤ later ∧ flag later = true

theorem recurs_always : Recurs fun _ => true := fun polls => ⟨polls, Nat.le_refl _, rfl⟩

/-- Whatever the flag does, the loop has taken some number of turns, and each of
them when it was not done. -/
theorem after_eq_iterate (start : σ) (polls : Nat) : ∃ turns, after done turn flag start polls = turn^[turns] start ∧
    ∀ earlier < turns, done (turn^[earlier] start) = false := by
  induction polls with
  | zero => exact ⟨0, rfl, fun _ less => absurd less (Nat.not_lt_zero _)⟩
  | succ polls ih =>
    obtain ⟨turns, reached, busy⟩ := ih
    rw [after, poll, reached]
    split
    next taken =>
      refine ⟨turns + 1, (Function.iterate_succ_apply' turn turns start).symm, fun earlier less => ?_⟩
      rcases Nat.lt_succ_iff_lt_or_eq.mp less with before | rfl
      · exact busy earlier before
      · simpa using (Bool.and_eq_true_iff.mp taken).2
    next => exact ⟨turns, rfl, busy⟩

variable {done turn flag}

/-- A loop that is not done waits until the flag is set and then takes its turn. -/
theorem waits (recurs : Recurs flag) (start : σ) (polls : Nat) (busy : done (after done turn flag start polls) = false) :
    ∃ later, after done turn flag start later = turn (after done turn flag start polls) := by
  obtain ⟨later, order, set⟩ := recurs polls
  obtain ⟨distance, rfl⟩ := Nat.exists_eq_add_of_le order
  clear order
  induction distance generalizing polls with
  | zero =>
    refine ⟨polls + 1, ?_⟩
    rw [Nat.add_zero] at set
    rw [after, poll, set, busy]
    rfl
  | succ distance ih =>
    by_cases now : flag polls = true
    · refine ⟨polls + 1, ?_⟩
      rw [after, poll, now, busy]
      rfl
    · have kept : after done turn flag start (polls + 1) = after done turn flag start polls := by
        rw [after, poll, (Bool.not_eq_true _).mp now]
        rfl
      rw [← kept] at busy ⊢
      exact ih (polls + 1) busy (by rw [Nat.add_right_comm]; exact set)

/-- The loop takes as many turns as it is not done for. -/
theorem reaches (recurs : Recurs flag) (start : σ) (turns : Nat)
    (busy : ∀ earlier < turns, done (turn^[earlier] start) = false) :
    ∃ polls, after done turn flag start polls = turn^[turns] start := by
  induction turns with
  | zero => exact ⟨0, rfl⟩
  | succ turns ih =>
    obtain ⟨polls, reached⟩ := ih fun earlier less => busy earlier (Nat.lt_succ_of_lt less)
    have next := waits recurs start polls (by rw [reached]; exact busy turns (Nat.lt_succ_self _))
    rw [reached] at next
    rw [Function.iterate_succ_apply']
    exact next

end Polling
