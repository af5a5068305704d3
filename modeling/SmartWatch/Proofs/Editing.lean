import SmartWatch.Proofs.Buttons

/-! What UP and DOWN do to the edited variable, from every state that presses
reach. The law is about the variable, the handlers count in its counter. -/

namespace SmartWatch.Proofs.Editing
open Buttons

/-- The law of a menu for the edited variable. A value below the range is no
value of the law's. -/
def Moved (field : Field) (button : Button) (before after : Int) : Prop :=
  match button with
  | .up => (before < field.last → after = before + 1) ∧ (before = field.last → after = field.first)
  | .down => (field.first < before → after = before - 1) ∧ (before = field.first → after = field.first)
  | .select => True

instance (field : Field) (button : Button) (before after : Int) : Decidable (Moved field button before after) := by
  cases button <;> unfold Moved <;> infer_instance

structure Obeys (g : Globals) (button : Button) : Prop where
  edited : ∀ field, g.menuIndex = field.menu → Moved field button (g.value field) ((press g button).value field)
  others : ∀ field, g.menuIndex ≠ field.menu → (press g button).value field = g.value field
  menu : (press g button).menuIndex = g.menuIndex

/-- The counter of a one-based field meets the clamp of the other fields, or still
stands at the 0 it starts with. -/
def Slips (g : Globals) (button : Button) (field : Field) : Prop :=
  g.menuIndex = field.menu ∧ field.first = 1 ∧
    (button = .down ∧ g.counter field = 1 ∨ button = .up ∧ g.counter field = 0 ∧ g.value field = 1)

theorem raise_moved {counter value : Int} {field : Field} (range : 0 ≤ counter ∧ counter ≤ field.last)
    (copy : value = counter ∨ counter = 0 ∧ value = field.first) :
    Moved field .up value (raise counter field.last field.first) ↔ ¬ (field.first = 1 ∧ counter = 0 ∧ value = 1) := by
  have order := first_le_last field
  simp only [Moved, raise]
  constructor
  · rintro ⟨next, _⟩ slipped
    split at next <;> omega
  · intro fine
    refine ⟨fun below => ?_, fun full => ?_⟩
    · split <;> omega
    · split <;> omega

theorem lower_moved {counter value : Int} {field : Field} (range : 0 ≤ counter ∧ counter ≤ field.last)
    (copy : value = counter ∨ counter = 0 ∧ value = field.first) :
    Moved field .down value (lower counter field.first) ↔ ¬ (field.first = 1 ∧ counter = 1) := by
  have order := first_le_last field
  simp only [Moved, lower]
  constructor
  · rintro ⟨_, least⟩ slipped
    split at least <;> omega
  · intro fine
    refine ⟨fun above => ?_, fun least => ?_⟩
    · split <;> omega
    · split <;> omega

theorem obeys_edit {g : Globals} {field : Field} {button : Button} {count : Int} (menu : g.menuIndex = field.menu)
    (next : press g button = g.edit field count) : Obeys g button ↔ Moved field button (g.value field) count := by
  constructor
  · intro obeys
    have moved := obeys.edited field menu
    rwa [next, Globals.edit_value, if_pos rfl] at moved
  · intro moved
    refine ⟨?_, ?_, by rw [next, Globals.edit_menuIndex]⟩
    · intro other there
      obtain rfl := Field.menu_injective (there.symm.trans menu)
      rwa [next, Globals.edit_value, if_pos rfl]
    · intro other away
      have different : other ≠ field := fun same => away (same ▸ menu)
      rw [next, Globals.edit_value, if_neg different]

theorem obeys_iff_consistent {g : Globals} {button : Button} (valid : Consistent g) (edits : button ≠ .select) :
    Obeys g button ↔ ∀ field, ¬ Slips g button field := by
  rcases press_cases g button with ⟨field, menu, ⟨up, next⟩ | ⟨down, next⟩⟩ | ⟨_, outside, next⟩ | ⟨select, _⟩
  · have tracks := valid.fields field
    subst up
    rw [obeys_edit menu next, raise_moved tracks.range tracks.copy]
    constructor
    · rintro moved other ⟨there, one, ⟨wrong, _⟩ | ⟨_, zero, unset⟩⟩
      · cases wrong
      · obtain rfl := Field.menu_injective (there.symm.trans menu)
        exact moved ⟨one, zero, unset⟩
    · intro never slipped
      exact never field ⟨menu, slipped.1, .inr ⟨rfl, slipped.2⟩⟩
  · have tracks := valid.fields field
    subst down
    rw [obeys_edit menu next, lower_moved tracks.range tracks.copy]
    constructor
    · rintro moved other ⟨there, one, ⟨_, least⟩ | ⟨wrong, _⟩⟩
      · obtain rfl := Field.menu_injective (there.symm.trans menu)
        exact moved ⟨one, least⟩
      · cases wrong
    · intro never slipped
      exact never field ⟨menu, slipped.1, .inl ⟨rfl, slipped.2⟩⟩
  · have nowhere (field : Field) : g.menuIndex ≠ field.menu := by
      intro there
      rw [Field.ofMenu_eq_some.mpr there] at outside
      cases outside
    have unchanged : press g button = g := next.trans valid.hour_copied
    constructor
    · exact fun _ field slipped => nowhere field slipped.1
    · intro _
      refine ⟨fun field there => absurd there (nowhere field), ?_, by rw [unchanged]⟩
      intro field _
      rw [unchanged]
  · exact absurd select edits

/-- The first UP in the month menu leaves January as it is. -/
theorem first_up_keeps_january : ¬ ∀ buttons : List Button, ∀ button, button ≠ .select →
    Obeys (buttons.foldl press {}) button := by
  intro always
  have obeys := always (List.replicate 4 .select) .up (by decide)
  have moved := obeys.edited .month (by decide)
  exact absurd moved (by decide)

/-- A press obeys the law in every state that presses reach, unless DOWN finds
the month or the day at 1, or UP finds it at the 1 it starts with. -/
theorem obeys_iff (buttons : List Button) (button : Button) (edits : button ≠ .select) :
    Obeys (buttons.foldl press {}) button ↔ ∀ field, ¬ Slips (buttons.foldl press {}) button field :=
  obeys_iff_consistent (consistent_run buttons) edits

theorem obeys_iff_second_up : Obeys ([.select, .select, .select, .select, .up].foldl press {}) .up := by
  apply (obeys_iff [.select, .select, .select, .select, .up] .up (by decide)).mpr
  rintro field ⟨menu, _, ⟨wrong, _⟩ | ⟨_, zero, _⟩⟩
  · cases wrong
  · cases field with
    | month => exact absurd zero (by decide)
    | hour | minute | second | day => exact absurd menu (by decide)

end SmartWatch.Proofs.Editing
