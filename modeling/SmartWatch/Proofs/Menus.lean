import SmartWatch.ShowValues
import SmartWatch.Proofs.Buttons
import SmartWatch.Proofs.Panel
import SmartWatch.Proofs.Stamp

/-! What the setting menus show against what a save stores. The screen goes by the
counters, the save by the variables. -/

namespace SmartWatch.Proofs.Menus
open Runs Buttons SmartWatch.Proofs.Panel Stamp

private theorem itoa_eq {value : Int} (low : 0 ≤ value) (high : value ≤ 99) :
    itoa value = if value < 10 then [Nat.digitChar value.toNat] else twoDigits value := by
  have all : ∀ value : Fin 100, itoa (value.val : Nat) =
      if ((value.val : Nat) : Int) < 10 then [Nat.digitChar (value.val : Int).toNat] else twoDigits (value.val : Nat) := by
    decide
  have := all ⟨value.toNat, by omega⟩
  simpa only [Int.toNat_of_nonneg low] using this

theorem itoa_digits {value : Int} (low : 0 ≤ value) (high : value ≤ 99) :
    '\n' ∉ itoa value ∧ (itoa value).length = if value < 10 then 1 else 2 := by
  rw [itoa_eq low high]
  split
  next small =>
    have := digitChar_printable value.toNat (by omega)
    exact ⟨by simp [Ne.symm this.1], rfl⟩
  next =>
    have tens := digitChar_printable (value / 10).toNat (by omega)
    have ones := digitChar_printable (value % 10).toNat (by omega)
    exact ⟨by simp [twoDigits, Ne.symm tens.1, Ne.symm ones.1], rfl⟩

theorem itoa_codes (value : Int) : Codes 45 57 (itoa value) := by
  have digits : Codes 45 57 (Nat.toDigits 10 value.natAbs) := by
    intro ch member
    obtain ⟨low, high⟩ := Char.isDigit_iff_toNat.mp (Nat.isDigit_of_mem_toDigits (by decide) (by decide) member)
    exact ⟨Nat.le_trans (by decide) low, high⟩
  unfold itoa
  split
  · exact (show Codes 45 57 ['-'] by decide).append digits
  · exact digits

/-- The character last drawn at a place. -/
def shownAt (draws : List Draw) (place : UInt16 × UInt16) : Option Char :=
  ((draws.flatMap Draw.cells).reverse.find? fun cell => (cell.x, cell.y) = place).map Cell.ch

def shownText (draws : List Draw) (places : List (UInt16 × UInt16)) : List (Option Char) := places.map (shownAt draws)

theorem shownAt_append {first rest : List Draw} {place : UInt16 × UInt16} {ch : Char}
    (shown : shownAt rest place = some ch) : shownAt (first ++ rest) place = some ch := by
  obtain ⟨cell, found, rfl⟩ := Option.map_eq_some_iff.mp shown
  simp [shownAt, List.flatMap_append, List.find?_append, found]

theorem shownText_append (first : List Draw) {rest : List Draw} {places : List (UInt16 × UInt16)} {text : List Char}
    (shown : shownText rest places = text.map some) : shownText (first ++ rest) places = text.map some := by
  induction places generalizing text with
  | nil => exact shown
  | cons place places ih =>
    cases text with
    | nil => cases shown
    | cons ch text =>
      obtain ⟨head, tail⟩ := List.cons.inj shown
      exact List.cons_eq_cons.mpr ⟨shownAt_append head, ih tail⟩

def places : Field → List (UInt16 × UInt16)
  | .hour => [(40, 60), (60, 60)]
  | .minute => [(100, 60), (120, 60)]
  | .second => [(160, 60), (180, 60)]
  | .month => [(109, 120), (120, 120), (131, 120)]
  | .day => [(153, 120), (164, 120)]

/-- The text of a value of a field: a month's name, or two digits. -/
def Denotes (field : Field) (value : Int) (text : List (Option Char)) : Prop :=
  match field with
  | .month => (1 ≤ value ∧ value ≤ 12) ∧ text = (monthName value.toNat).map some
  | _ => (0 ≤ value ∧ value ≤ 99) ∧ text = (twoDigits value).map some

/-- What SELECT in the last menu passes on for the field. -/
def stored (g : Globals) (field : Field) : Option Int :=
  match (selectBtn { g with menuIndex := 5 }).2, field with
  | [.setTime hour _ _, .setDate ..], .hour => some hour
  | [.setTime _ minute _, .setDate ..], .minute => some minute
  | [.setTime _ _ second, .setDate ..], .second => some second
  | [.setTime .., .setDate _ month _], .month => some month
  | [.setTime .., .setDate _ _ day], .day => some day
  | _, _ => none

theorem stored_eq (g : Globals) (field : Field) : stored g field = some (g.value field) := by cases field <;> rfl

/-- A turn of the display loop in the menu of a field shows what a save would store. -/
def Agrees (g : Globals) : Prop :=
  ∀ field, g.menuIndex = field.menu → ∀ themeChanged strings readings, ∃ value, stored g field = some value ∧
    Denotes field value (shownText (showValues themeChanged g strings readings).2 (places field))

theorem writeString_cells (x y : UInt16) (str : List Char) (font : Font) (ink : Ink)
    (room : x.toNat + font.width.toNat * str.length < screenWidth) (printable : '\n' ∉ str) :
    ({ x, y, str, font, ink } : Draw).cells = rowCells font.width x y str := by
  have passes : str.foldlM (fun (state : Unit) (_ : Char) => some state) () = some () := by
    clear room printable
    induction str with
    | nil => rfl
    | cons ch str ih => exact ih
  exact textCells_row _ _ _ str x y () () room printable passes

private theorem numberDraws_shown {counter value : Int} {left right y : UInt16} {font : Font} {ink : Ink}
    (beside : right = left + font.width.toUInt16) (apart : left ≠ right)
    (room : left.toNat + font.width.toNat * 2 < screenWidth) (low : 0 ≤ value) (high : value ≤ 99)
    (same : counter < 10 ↔ value < 10) :
    shownText (numberDraws counter (itoa value) left right y font ink) [(left, y), (right, y)] =
      (twoDigits value).map some := by
  obtain ⟨printable, length⟩ := itoa_digits low high
  have moved : right.toNat = left.toNat + font.width.toNat := by
    rw [beside]
    simp only [screenWidth, UInt16.toNat_add, UInt8.toNat_toUInt16] at *
    omega
  unfold numberDraws
  by_cases small : value < 10
  · rw [if_pos small] at length
    have zero := writeString_cells left y ['0'] font ink
      (by simp only [List.length_singleton]; omega) (by decide)
    have digit := writeString_cells right y (itoa value) font ink
      (by rw [length]; omega) printable
    have tens : value / 10 = 0 := by omega
    have ones : value % 10 = value := by omega
    simp only [same.mpr small, ite_true, shownText, List.map_cons, List.map_nil, shownAt, List.flatMap_cons,
      List.flatMap_nil, zero, digit]
    simp [itoa_eq low high, small, rowCells, Ne.symm apart, twoDigits, tens, ones]
  · rw [if_neg small] at length
    have digits := writeString_cells left y (itoa value) font ink
      (by rw [length]; exact room) printable
    simp only [mt same.mp small, ite_false, shownText, List.map_cons, List.map_nil, shownAt, List.flatMap_cons,
      List.flatMap_nil, digits]
    simp [itoa_eq low high, small, rowCells, ← beside, Ne.symm apart, twoDigits]

private theorem monthDraws_shown (g : Globals) {month : Int} (low : 1 ≤ month) (high : month ≤ 12)
    (copy : g.monthbutton = month ∨ g.monthbutton = 0 ∧ month = 1) :
    shownText (monthDraws g) (places .month) = (monthName month.toNat).map some := by
  have which : month = 1 ∨ month = 2 ∨ month = 3 ∨ month = 4 ∨ month = 5 ∨ month = 6 ∨ month = 7 ∨ month = 8 ∨
      month = 9 ∨ month = 10 ∨ month = 11 ∨ month = 12 := by omega
  have text : monthText g.monthbutton = monthName month.toNat := by
    rcases copy with same | ⟨zero, rfl⟩
    · rw [same]
      rcases which with rfl | rfl | rfl | rfl | rfl | rfl | rfl | rfl | rfl | rfl | rfl | rfl <;> rfl
    · rw [zero]
      rfl
  simp only [monthDraws, text]
  rcases which with rfl | rfl | rfl | rfl | rfl | rfl | rfl | rfl | rfl | rfl | rfl | rfl <;> decide

/-- Counter and variable are below 10 together. -/
theorem small_iff {g : Globals} {field : Field} (tracks : Tracks g field) :
    g.counter field < 10 ↔ g.value field < 10 := by
  have order := first_le_last field
  rcases tracks.copy with copy | ⟨zero, first⟩ <;> omega

theorem showValues_field {g : Globals} {field : Field} (menu : g.menuIndex = field.menu) (themeChanged : Bool)
    (strings : Strings) (readings : Readings) :
    ∃ first, (showValues themeChanged g strings readings).2 = first ++
      match field with
      | .hour => numberDraws g.hoursbutton (itoa g.hour) 40 60 60 .clockFont .swapped
      | .minute => numberDraws g.minutesbutton (itoa g.minute) 100 120 60 .clockFont .swapped
      | .second => numberDraws g.secondsbutton (itoa g.second) 160 180 60 .clockFont .swapped
      | .month => monthDraws g
      | .day => numberDraws g.daysbutton (itoa g.day) 153 164 120 .font11x18 .swapped := by
  cases field <;> simp only [Field.menu] at menu <;>
    simp only [showValues, showMenu, menu, hourDraws, minuteDraws, secondDraws, dayDraws, ← List.append_assoc] <;>
    exact ⟨_, rfl⟩

private theorem agrees_of {g : Globals} (valid : Consistent g) (above : 1 ≤ g.month) : Agrees g := by
  intro field menu themeChanged strings readings
  have tracks := valid.fields field
  have low := tracks.value_nonneg
  have high := tracks.value_le
  have same := small_iff tracks
  obtain ⟨first, draws⟩ := showValues_field menu themeChanged strings readings
  refine ⟨g.value field, stored_eq g field, ?_⟩
  rw [draws]
  cases field with
  | month =>
    refine ⟨⟨above, high⟩, shownText_append first (monthDraws_shown g above high ?_)⟩
    exact tracks.copy.imp_left Eq.symm
  | hour | minute | second | day =>
    simp only [Field.last] at high
    refine ⟨⟨low, by omega⟩, shownText_append first (numberDraws_shown (by decide) (by decide) (by decide) low ?_ same)⟩
    exact Int.le_trans high (by decide)

private theorem month_of_agrees {g : Globals} (agrees : Agrees g) (menu : g.menuIndex = 4) : 1 ≤ g.month := by
  obtain ⟨value, saved, low, _⟩ := agrees .month menu false {} ⟨[], [], []⟩
  rw [stored_eq] at saved
  cases saved
  exact low.1

/-- Month 0: DOWN takes the month from 1 to 0, and the screen says January. -/
theorem shows_january_for_0 :
    ¬ ∀ buttons : List Button, Agrees (buttons.foldl press {}) := by
  intro always
  have agrees := always (List.replicate 4 .select ++ [.up, .down])
  exact absurd (month_of_agrees agrees (by decide)) (by decide)

/-- The menus show what a save stores, after every initial part of the presses,
exactly when no DOWN takes the month below January. -/
theorem agrees_iff (buttons : List Button) :
    (∀ first, first <+: buttons → Agrees (first.foldl press {})) ↔ NeverUnderflows .month buttons := by
  refine always_iff press (fun g button => ¬ Underflows .month g button) (fun g => Consistent g ∧ 1 ≤ g.month) Agrees
    (fun g button ⟨valid, above⟩ _ safe => ⟨valid.press button, value_press .month valid above safe⟩) ?_ {} buttons
    ⟨initial, by decide⟩ (agrees_of initial (by decide))
  rintro g button ⟨valid, above⟩ _
  refine ⟨fun agrees under => ?_, fun safe => agrees_of (valid.press button) (value_press .month valid above safe)⟩
  obtain ⟨down, menu, one, _⟩ := under
  subst down
  simp only [Globals.counter, Field.menu] at menu one
  have pressed : press g .down = { g with monthbutton := 0, month := 0 } := by
    simp only [press, interrupt, downBtn, menu, lower, one]
    rfl
  rw [pressed] at agrees
  have above : (1 : Int) ≤ 0 := month_of_agrees agrees menu
  omega

end SmartWatch.Proofs.Menus
