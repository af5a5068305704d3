import SmartWatch.Fields
import SmartWatch.Lib.Civil
import SmartWatch.Lib.Runs

/-! What any sequence of button presses can do to the menu globals, and what the
SELECT press that leaves the last menu passes to the clock. -/

namespace SmartWatch.Proofs.Buttons
open Runs

/-- The counters start at 0 while the month and the day start at 1, so a counter
of 0 also stands for a variable nobody has edited. -/
structure Tracks (g : Globals) (field : Field) : Prop where
  range : 0 ≤ g.counter field ∧ g.counter field ≤ field.last
  copy : g.value field = g.counter field ∨ g.counter field = 0 ∧ g.value field = field.first

structure Consistent (g : Globals) : Prop where
  menu : 0 ≤ g.menuIndex ∧ g.menuIndex ≤ 5
  fields : ∀ field, Tracks g field

theorem initial : Consistent {} := by
  refine ⟨by decide, fun field => ?_⟩
  cases field <;> exact ⟨by decide, by decide⟩

/-- Everything a press can do: edit the field of the open menu, refresh `Hour`
from its counter outside the menus, or move to the next menu. -/
theorem press_cases (g : Globals) (button : Button) :
    (∃ field, g.menuIndex = field.menu ∧
      (button = .up ∧ press g button = g.edit field (raise (g.counter field) field.last field.first) ∨
        button = .down ∧ press g button = g.edit field (lower (g.counter field) field.first))) ∨
    (button ≠ .select ∧ Field.ofMenu g.menuIndex = none ∧ press g button = { g with hour := g.hoursbutton }) ∨
    (button = .select ∧
      press g button = { g with menuIndex := if g.menuIndex + 1 > 5 then 0 else g.menuIndex + 1 }) := by
  cases button with
  | select =>
    refine .inr (.inr ⟨rfl, ?_⟩)
    simp only [press, interrupt, selectBtn]
    split <;> rfl
  | up =>
    rw [show press g .up = upBtn g from rfl, upBtn_eq]
    cases selected : Field.ofMenu g.menuIndex with
    | some field => exact .inl ⟨field, Field.ofMenu_eq_some.mp selected, .inl ⟨rfl, rfl⟩⟩
    | none => exact .inr (.inl ⟨by decide, rfl, rfl⟩)
  | down =>
    rw [show press g .down = downBtn g from rfl, downBtn_eq]
    cases selected : Field.ofMenu g.menuIndex with
    | some field => exact .inl ⟨field, Field.ofMenu_eq_some.mp selected, .inr ⟨rfl, rfl⟩⟩
    | none => exact .inr (.inl ⟨by decide, rfl, rfl⟩)

theorem first_le_last (field : Field) : 0 ≤ field.first ∧ field.first ≤ 1 ∧ 1 < field.last := by
  cases field <;> decide

private theorem raise_range {counter last first : Int} (low : 0 ≤ counter) (order : 0 ≤ first ∧ first ≤ last) :
    0 ≤ raise counter last first ∧ raise counter last first ≤ last := by
  unfold raise
  split <;> omega

private theorem lower_range {counter last clamp : Int} (high : counter ≤ last) (order : 0 ≤ clamp ∧ clamp ≤ last) :
    0 ≤ lower counter clamp ∧ lower counter clamp ≤ last := by
  unfold lower
  split <;> omega

theorem Consistent.edit {g : Globals} (valid : Consistent g) (field : Field) {count : Int}
    (range : 0 ≤ count ∧ count ≤ field.last) : Consistent (g.edit field count) := by
  refine ⟨by simpa using valid.menu, fun other => ?_⟩
  by_cases same : other = field
  · subst other
    exact ⟨by simpa using range, .inl (by simp)⟩
  · have kept := valid.fields other
    exact ⟨by simpa [same] using kept.range, by simpa [same] using kept.copy⟩

/-- Outside the menus `Hour` is copied from a counter it equals. -/
theorem Consistent.hour_copied {g : Globals} (valid : Consistent g) : { g with hour := g.hoursbutton } = g := by
  have same : g.hour = g.hoursbutton := by
    rcases (valid.fields .hour).copy with copy | ⟨zero, first⟩
    · exact copy
    · exact first.trans zero.symm
  cases g
  cases same
  rfl

theorem Consistent.press {g : Globals} (valid : Consistent g) (button : Button) : Consistent (press g button) := by
  rcases press_cases g button with ⟨field, _, ⟨_, next⟩ | ⟨_, next⟩⟩ | ⟨_, _, next⟩ | ⟨_, next⟩
  · have order := first_le_last field
    rw [next]
    exact valid.edit field (raise_range (valid.fields field).range.1 (by omega))
  · have order := first_le_last field
    rw [next]
    exact valid.edit field (lower_range (valid.fields field).range.2 (by omega))
  · rw [next, valid.hour_copied]
    exact valid
  · rw [next]
    refine ⟨?_, fun field => ?_⟩
    · have menu := valid.menu
      simp only
      split <;> omega
    · have kept := valid.fields field
      cases field <;> exact ⟨kept.range, kept.copy⟩

theorem consistent_run (buttons : List Button) : Consistent (buttons.foldl press {}) :=
  foldl_invariant press Consistent (fun _ button valid => valid.press button) {} buttons initial

/-- DOWN takes a one-based field below its first value: the handlers clamp when
the counter falls below 0, not when it falls below 1. -/
def Underflows (field : Field) (g : Globals) (button : Button) : Prop :=
  button = .down ∧ g.menuIndex = field.menu ∧ g.counter field = 1 ∧ field.first = 1

instance (field : Field) (g : Globals) (button : Button) : Decidable (Underflows field g button) :=
  inferInstanceAs (Decidable (_ ∧ _))

def NeverUnderflows (field : Field) (buttons : List Button) : Prop :=
  Steps press (fun g button => ¬ Underflows field g button) {} buttons

theorem value_press {g : Globals} (field : Field) {button : Button} (valid : Consistent g)
    (above : field.first ≤ g.value field) (safe : ¬ Underflows field g button) :
    field.first ≤ (press g button).value field := by
  have order := first_le_last field
  have range := (valid.fields field).range
  rcases press_cases g button with ⟨edited, menu, ⟨_, next⟩ | ⟨down, next⟩⟩ | ⟨_, _, next⟩ | ⟨_, next⟩
  · by_cases same : field = edited
    · subst edited
      simp only [next, Globals.edit_value, ite_true, raise]
      split <;> omega
    · simpa [next, same] using above
  · by_cases same : field = edited
    · subst edited
      have counted : ¬ (g.counter field = 1 ∧ field.first = 1) := fun both => safe ⟨down, menu, both⟩
      simp only [next, Globals.edit_value, ite_true, lower]
      split <;> omega
    · simpa [next, same] using above
  · have hours := (valid.fields .hour).range
    rw [next]
    cases field with
    | hour => exact hours.1
    | minute | second | month | day => exact above
  · rw [next]
    cases field <;> exact above

theorem value_run (field : Field) {buttons : List Button} (never : NeverUnderflows field buttons) :
    field.first ≤ (buttons.foldl press {}).value field := by
  have kept := foldl_guarded press (fun g button => ¬ Underflows field g button)
    (fun g => Consistent g ∧ field.first ≤ g.value field)
    (fun g button both safe => ⟨both.1.press button, value_press field both.1 both.2 safe⟩) {} buttons
    ⟨initial, by cases field <;> decide⟩ never
  exact kept.2

theorem Tracks.value_le {g : Globals} {field : Field} (tracks : Tracks g field) : g.value field ≤ field.last := by
  have order := first_le_last field
  have range := tracks.range
  rcases tracks.copy with copy | ⟨_, first⟩ <;> omega

theorem Tracks.value_nonneg {g : Globals} {field : Field} (tracks : Tracks g field) : 0 ≤ g.value field := by
  have order := first_le_last field
  have range := tracks.range
  rcases tracks.copy with copy | ⟨_, first⟩ <;> omega

theorem selectBtn_calls {g : Globals} {call : RtcCall} (made : call ∈ (selectBtn g).2) :
    5 ≤ g.menuIndex ∧ (call = .setTime g.hour g.minute g.second ∨ call = .setDate 2022 g.month g.day) := by
  simp only [selectBtn] at made
  split at made
  next late => exact ⟨by omega, by simpa using made⟩
  next => cases made

theorem calls_mem {g : Globals} {buttons : List Button} {call : RtcCall} (made : call ∈ calls g buttons) :
    ∃ first, first <+: buttons ∧ call ∈ (selectBtn (first.foldl press g)).2 := by
  induction buttons generalizing g with
  | nil => cases made
  | cons button buttons ih =>
    simp only [calls, List.mem_append] at made
    rcases made with now | later
    · cases button with
      | select => exact ⟨[], List.nil_prefix, now⟩
      | up | down => cases now
    · obtain ⟨first, within, found⟩ := ih later
      exact ⟨button :: first, List.cons_prefix_cons.mpr ⟨rfl, within⟩, found⟩

def Real : RtcCall → Prop
  | .setTime hour minute second => (0 ≤ hour ∧ hour ≤ 23) ∧ (0 ≤ minute ∧ minute ≤ 59) ∧ 0 ≤ second ∧ second ≤ 59
  | .setDate year month day => year = 2022 ∧ 1 ≤ month ∧ (Civil.Date.mk 2022 month.toNat day).Valid

instance (call : RtcCall) : Decidable (Real call) := by
  cases call <;> unfold Real <;> infer_instance

/-- February 31: nothing ties the day to the month. -/
theorem saves_february_31 : ¬ ∀ buttons, ∀ call ∈ calls {} buttons, Real call := by
  intro always
  have saved := always (List.replicate 4 .select ++ [.up, .up, .select] ++ List.replicate 31 .up ++ [.select])
    (.setDate 2022 2 31) (by decide +kernel)
  exact absurd saved (by decide)

/-- Every saved time of day is real, the month is at most 12 and the day at most
31; neither is below 1 unless a DOWN press took it there. -/
theorem saved_in_range (buttons : List Button) : ∀ call ∈ calls {} buttons,
    match call with
    | .setTime hour minute second => (0 ≤ hour ∧ hour ≤ 23) ∧ (0 ≤ minute ∧ minute ≤ 59) ∧ 0 ≤ second ∧ second ≤ 59
    | .setDate year month day => year = 2022 ∧ month ≤ 12 ∧ day ≤ 31 ∧
        (NeverUnderflows .month buttons → 1 ≤ month) ∧ (NeverUnderflows .day buttons → 1 ≤ day) := by
  intro call made
  obtain ⟨first, ⟨rest, rfl⟩, saved⟩ := calls_mem made
  have valid := (consistent_run first).fields
  obtain ⟨_, rfl | rfl⟩ := selectBtn_calls saved
  · exact ⟨⟨(valid .hour).value_nonneg, (valid .hour).value_le⟩,
      ⟨(valid .minute).value_nonneg, (valid .minute).value_le⟩, (valid .second).value_nonneg, (valid .second).value_le⟩
  · refine ⟨rfl, (valid .month).value_le, (valid .day).value_le, fun never => ?_, fun never => ?_⟩
    · exact value_run .month (never.initial_part press first rest)
    · exact value_run .day (never.initial_part press first rest)

theorem saved_in_range_february_5 :
    RtcCall.setDate 2022 2 5 ∈ calls {} (List.replicate 4 .select ++ [.up, .up, .select] ++ List.replicate 5 .up ++ [.select]) ∧
      (1 : Int) ≤ 2 ∧ (1 : Int) ≤ 5 := by
  have made : RtcCall.setDate 2022 2 5 ∈
      calls {} (List.replicate 4 .select ++ [.up, .up, .select] ++ List.replicate 5 .up ++ [.select]) := by decide
  have saved := saved_in_range _ _ made
  exact ⟨made, saved.2.2.2.1 (by unfold NeverUnderflows; decide), saved.2.2.2.2 (by unfold NeverUnderflows; decide)⟩

end SmartWatch.Proofs.Buttons
