import SmartWatch.Buttons

/-! The setting menus seen as an editor of five fields. Each field has a button
counter and the variable that a save stores; the handlers move the counter
inside the field's range and copy it to the variable. -/

namespace SmartWatch

inductive Field where
  | hour
  | minute
  | second
  | month
  | day
deriving DecidableEq, Repr

namespace Field

def menu : Field → Int
  | hour => 1
  | minute => 2
  | second => 3
  | month => 4
  | day => 5

/-- The least value of the field, where UP wraps to and DOWN clamps to. -/
def first : Field → Int
  | hour | minute | second => 0
  | month | day => 1

def last : Field → Int
  | hour => 23
  | minute | second => 59
  | month => 12
  | day => 31

def ofMenu (menu : Int) : Option Field :=
  match menu with
  | 1 => some hour
  | 2 => some minute
  | 3 => some second
  | 4 => some month
  | 5 => some day
  | _ => none

theorem ofMenu_eq_some {menu : Int} {field : Field} : ofMenu menu = some field ↔ menu = field.menu := by
  constructor
  · unfold ofMenu
    split <;> intro same <;> cases same <;> rfl
  · rintro rfl
    cases field <;> rfl

theorem ofMenu_menu (field : Field) : ofMenu field.menu = some field := ofMenu_eq_some.mpr rfl

theorem menu_injective {one other : Field} (same : one.menu = other.menu) : one = other := by
  have := ofMenu_menu one
  rw [same, ofMenu_menu] at this
  exact (Option.some.inj this).symm

end Field

namespace Globals

def counter (g : Globals) : Field → Int
  | .hour => g.hoursbutton
  | .minute => g.minutesbutton
  | .second => g.secondsbutton
  | .month => g.monthbutton
  | .day => g.daysbutton

def value (g : Globals) : Field → Int
  | .hour => g.hour
  | .minute => g.minute
  | .second => g.second
  | .month => g.month
  | .day => g.day

def edit (g : Globals) (field : Field) (count : Int) : Globals :=
  match field with
  | .hour => { g with hoursbutton := count, hour := count }
  | .minute => { g with minutesbutton := count, minute := count }
  | .second => { g with secondsbutton := count, second := count }
  | .month => { g with monthbutton := count, month := count }
  | .day => { g with daysbutton := count, day := count }

@[simp] theorem edit_menuIndex (g : Globals) (field : Field) (count : Int) :
    (g.edit field count).menuIndex = g.menuIndex := by cases field <;> rfl

@[simp] theorem edit_counter (g : Globals) (field other : Field) (count : Int) :
    (g.edit field count).counter other = if other = field then count else g.counter other := by
  cases field <;> cases other <;> rfl

@[simp] theorem edit_value (g : Globals) (field other : Field) (count : Int) :
    (g.edit field count).value other = if other = field then count else g.value other := by
  cases field <;> cases other <;> rfl

end Globals

theorem upBtn_eq (g : Globals) : upBtn g =
    match Field.ofMenu g.menuIndex with
    | some field => g.edit field (raise (g.counter field) field.last field.first)
    | none => { g with hour := g.hoursbutton } := by
  cases selected : Field.ofMenu g.menuIndex with
  | some field =>
    have menu := Field.ofMenu_eq_some.mp selected
    cases g
    simp only at menu
    subst menu
    cases field <;> rfl
  | none =>
    unfold upBtn
    split
    case h_6 => rfl
    all_goals
      rename_i menu
      simp only [menu, Field.ofMenu, reduceCtorEq] at selected

theorem downBtn_eq (g : Globals) : downBtn g =
    match Field.ofMenu g.menuIndex with
    | some field => g.edit field (lower (g.counter field) field.first)
    | none => { g with hour := g.hoursbutton } := by
  cases selected : Field.ofMenu g.menuIndex with
  | some field =>
    have menu := Field.ofMenu_eq_some.mp selected
    cases g
    simp only at menu
    subst menu
    cases field <;> rfl
  | none =>
    unfold downBtn
    split
    case h_6 => rfl
    all_goals
      rename_i menu
      simp only [menu, Field.ofMenu, reduceCtorEq] at selected

end SmartWatch
