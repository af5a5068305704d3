import SmartWatch.Proofs.Buffers
import SmartWatch.Proofs.DateLine

/-! Which fields the screen shows highlighted. A turn in a menu takes the highlight
off the field of the menu before it only, and draws that field with the string
that menu left behind. The strings are those of arrays that the alignment to words
keeps apart. -/

namespace SmartWatch.Proofs.Highlight
open Runs Raster Buttons Calendar Stamp TextCut DateLine Menus SmartWatch.Proofs.Panel

/-- The strings of `getValues`, with the text `ctime` gives for a date. -/
structure Reading where
  battString : List Char
  stepString : List Char
  date : Civil.Date
  hour : Int
  minute : Int
  second : Int
  valid : date.Valid
  era : 0 ≤ date.year ∧ date.year ≤ 9999
  clock : Clock hour minute second

def Reading.readings (reading : Reading) : Readings :=
  { battString := reading.battString
    string := stamp reading.date reading.hour reading.minute reading.second
    stepString := reading.stepString }

/-- The watch as the button interrupts and the turns of the display loop see it.
`style` is how each pixel was last drawn, by row and column, and `lastMenu` the
menu of the last turn. -/
structure Face where
  g : Globals := {}
  strings : Strings := {}
  style : Frame Ink := fun _ _ => .plain
  lastMenu : Int := 0

inductive Event where
  | press (button : Button)
  | turn (themeChanged : Bool) (reading : Reading)

def parts (draw : Draw) : List (Rect × Frame Ink) :=
  draw.cells.map fun cell => (⟨cell.x.toNat, cell.y.toNat, draw.font.width.toNat, draw.font.height.toNat⟩, fun _ _ => draw.ink)

def step (face : Face) : Event → Face
  | .press button => { face with g := press face.g button }
  | .turn themeChanged reading =>
    let (strings, draws) := showValues themeChanged face.g face.strings reading.readings
    { face with strings, style := paintAll face.style (draws.flatMap parts), lastMenu := face.g.menuIndex }

/-- The event for the arrays as bytes of the memory. -/
def Event.stored : Event → StoredEvent
  | .press button => .press button
  | .turn themeChanged reading => .showValues themeChanged reading.readings

private theorem run_setting (events : List Event) (face : Face) :
    (events.map Event.stored).foldl Buffers.Setting.step ⟨face.g, face.strings⟩ =
      ⟨(events.foldl step face).g, (events.foldl step face).strings⟩ := by
  induction events generalizing face with
  | nil => rfl
  | cons event events ih =>
    rw [List.map_cons, List.foldl_cons, List.foldl_cons, ← ih (step face event)]
    cases event <;> rfl

/-- With a byte free behind each array, the memory holds the strings of the face. -/
theorem strings_stored (image : Image) (padded : Buffers.Spaced image 3) (events : List Event) :
    Buffers.Holds image 3 ((events.map Event.stored).foldl (Stored.step image) (.start image)).memory
      (events.foldl step {}).strings := by
  have related := Buffers.padded_run image padded (events.map Event.stored)
  rw [run_setting events {}] at related
  exact related.holds

def region : Field → Rect
  | .hour => ⟨40, 60, 40, 50⟩
  | .minute => ⟨100, 60, 40, 50⟩
  | .second => ⟨160, 60, 40, 50⟩
  | .month => ⟨109, 120, 33, 18⟩
  | .day => ⟨153, 120, 22, 18⟩

/-- The field of the last menu is highlighted whole, and no pixel of another is. -/
def Highlighted (face : Face) : Prop :=
  ∀ field row column, (region field).Covers row column → (face.style row column = .swapped ↔ face.lastMenu = field.menu)

def text (strings : Strings) : Field → List Char
  | .hour => strings.hourStr
  | .minute => strings.minuteStr
  | .second => strings.secondStr
  | .month => []
  | .day => strings.dayStr

/-- The turns that leave the right highlight: on the basic screen, after it, in
the menu of the last turn, or in the next menu, where the string of the last one
must not be a digit short of what its counter now calls for. The fifth menu takes
no highlight off. -/
def Handled (face : Face) : Event → Prop
  | .press _ => True
  | .turn .. => face.g.menuIndex = 0 ∨ face.lastMenu = 0 ∨ face.lastMenu = face.g.menuIndex ∨
      ∃ field, face.lastMenu = field.menu ∧ face.g.menuIndex = field.menu + 1 ∧ field ≠ .month ∧
        ¬ (10 ≤ face.g.counter field ∧ (text face.strings field).length = 1)

def Covers (draw : Draw) (row column : Nat) : Prop := ∃ part ∈ parts draw, part.1.Covers row column

theorem paintAll_append (style : Frame Ink) (first rest : List Draw) :
    paintAll style ((first ++ rest).flatMap parts) =
      paintAll (paintAll style (first.flatMap parts)) (rest.flatMap parts) := by
  simp only [paintAll, List.flatMap_append, List.foldl_append]

def Covered (draws : List Draw) (row column : Nat) : Prop := ∃ draw ∈ draws, Covers draw row column

/-- Calls in one ink leave it where they draw and nothing elsewhere. -/
theorem uniform_draws (draws : List Draw) (style : Frame Ink) {ink : Ink} (same : ∀ draw ∈ draws, draw.ink = ink)
    (row column : Nat) :
    (Covered draws row column → paintAll style (draws.flatMap parts) row column = ink) ∧
      (¬ Covered draws row column → paintAll style (draws.flatMap parts) row column = style row column) := by
  refine ⟨fun ⟨draw, member, part, inside, covers⟩ => ?_, fun outside => paintAll_outside style fun part inside covers => ?_⟩
  · refine paintAll_uniform style (fun part inside => ?_) ⟨part, List.mem_flatMap.mpr ⟨draw, member, inside⟩, covers⟩
    obtain ⟨draw, member, inside⟩ := List.mem_flatMap.mp inside
    obtain ⟨cell, _, rfl⟩ := List.mem_map.mp inside
    rw [same draw member]
  · obtain ⟨draw, member, inside⟩ := List.mem_flatMap.mp inside
    exact outside ⟨draw, member, part, inside, covers⟩

private theorem rowCells_covers {width height : UInt8} {x y : UInt16} {str : List Char}
    (room : x.toNat + width.toNat * str.length < screenWidth) (row column : Nat) :
    (∃ cell ∈ rowCells width x y str,
        (⟨cell.x.toNat, cell.y.toNat, width.toNat, height.toNat⟩ : Rect).Covers row column) ↔
      (y.toNat ≤ row ∧ row < y.toNat + height.toNat) ∧ x.toNat ≤ column ∧
      column < x.toNat + width.toNat * str.length := by
  induction str generalizing x with
  | nil =>
    refine ⟨fun ⟨_, member, _⟩ => absurd member List.not_mem_nil, fun inside => ?_⟩
    rw [List.length_nil] at inside
    omega
  | cons ch str ih =>
    rw [List.length_cons, Nat.mul_succ] at room ⊢
    have moved : (x + width.toUInt16).toNat = x.toNat + width.toNat := by
      simp only [screenWidth, UInt16.toNat_add, UInt8.toNat_toUInt16] at *
      omega
    have rest := ih (x := x + width.toUInt16) (by omega)
    rw [moved] at rest
    simp only [rowCells, List.mem_cons, exists_eq_or_imp, rest]
    simp only [Rect.Covers]
    omega

private theorem covers_row (draw : Draw) {str : List Char}
    (cells : draw.cells = rowCells draw.font.width draw.x draw.y str)
    (room : draw.x.toNat + draw.font.width.toNat * str.length < screenWidth) (row column : Nat) :
    Covers draw row column ↔ (draw.y.toNat ≤ row ∧ row < draw.y.toNat + draw.font.height.toNat) ∧
      draw.x.toNat ≤ column ∧ column < draw.x.toNat + draw.font.width.toNat * str.length := by
  rw [← rowCells_covers room, Covers, parts, cells]
  constructor
  · rintro ⟨part, member, covers⟩
    obtain ⟨cell, inside, rfl⟩ := List.mem_map.mp member
    exact ⟨cell, inside, covers⟩
  · rintro ⟨cell, inside, covers⟩
    exact ⟨_, List.mem_map.mpr ⟨cell, inside, rfl⟩, covers⟩

/-- How many characters of a number field a menu draws. -/
def drawnDigits (counter : Int) (str : List Char) : Nat := if counter < 10 then str.length + 1 else str.length

theorem numberDraws_ink (counter : Int) (str : List Char) (left right y : UInt16) (font : Font) (ink : Ink) :
    ∀ draw ∈ numberDraws counter str left right y font ink, draw.ink = ink := by
  intro draw member
  unfold numberDraws at member
  split at member
  · simp only [List.mem_cons, List.not_mem_nil, or_false] at member
    rcases member with rfl | rfl <;> rfl
  · rw [List.mem_singleton.mp member]

theorem numberDraws_covered {counter : Int} {str : List Char} {left right y : UInt16} {font : Font} {ink : Ink}
    (beside : right = left + font.width.toUInt16)
    (room : left.toNat + font.width.toNat * (str.length + 1) < screenWidth) (printable : '\n' ∉ str)
    (row column : Nat) :
    Covered (numberDraws counter str left right y font ink) row column ↔
      (y.toNat ≤ row ∧ row < y.toNat + font.height.toNat) ∧
        left.toNat ≤ column ∧ column < left.toNat + font.width.toNat * drawnDigits counter str := by
  rw [Nat.mul_succ] at room
  have moved : right.toNat = left.toNat + font.width.toNat := by
    rw [beside]
    simp only [screenWidth, UInt16.toNat_add, UInt8.toNat_toUInt16] at *
    omega
  have zeroRoom : left.toNat + font.width.toNat * ['0'].length < screenWidth := by
    rw [List.length_singleton]
    omega
  have zero := covers_row _ (writeString_cells _ y _ _ ink zeroRoom (by decide)) zeroRoom row column
  have leftRoom : left.toNat + font.width.toNat * str.length < screenWidth := by omega
  have alone := covers_row _ (writeString_cells _ y _ _ ink leftRoom printable) leftRoom row column
  have rightRoom : right.toNat + font.width.toNat * str.length < screenWidth := by omega
  have second := covers_row _ (writeString_cells _ y _ _ ink rightRoom printable) rightRoom row column
  simp only [moved, List.length_singleton] at zero alone second
  unfold Covered numberDraws drawnDigits
  split
  · simp only [List.mem_cons, List.not_mem_nil, or_false, exists_eq_or_imp, exists_eq_left, zero, second, Nat.mul_succ]
    omega
  · simp only [List.mem_singleton, exists_eq_left, alone]

/-- The calls that draw a field in an ink. The month is only ever drawn highlighted. -/
def fieldDraws (g : Globals) (strings : Strings) (ink : Ink) : Field → List Draw
  | .hour => hourDraws g strings ink
  | .minute => minuteDraws g strings ink
  | .second => secondDraws g strings ink
  | .month => monthDraws g
  | .day => dayDraws g strings ink

def pitch : Field → Nat
  | .hour | .minute | .second => 20
  | .month | .day => 11

/-- The first characters of a field, and what may be drawn behind it. -/
def Box (field : Field) (count row column : Nat) : Prop :=
  ((region field).top ≤ row ∧ row < (region field).top + (region field).height) ∧
    (region field).left ≤ column ∧ column < (region field).left + pitch field * count

instance (field : Field) (count row column : Nat) : Decidable (Box field count row column) :=
  inferInstanceAs (Decidable (_ ∧ _))

structure Strings.Sane (strings : Strings) : Prop where
  short : ∀ field, (text strings field).length ≤ 2
  printable : ∀ field, '\n' ∉ text strings field

theorem fieldDraws_ink (g : Globals) (strings : Strings) (ink : Ink) {field : Field} (number : field ≠ .month) :
    ∀ draw ∈ fieldDraws g strings ink field, draw.ink = ink := by
  cases field with
  | month => exact absurd rfl number
  | hour | minute | second | day => exact numberDraws_ink _ _ _ _ _ _ _

theorem fieldDraws_covered {g : Globals} {strings : Strings} (sane : Strings.Sane strings) (ink : Ink) {field : Field}
    (number : field ≠ .month) (row column : Nat) :
    Covered (fieldDraws g strings ink field) row column ↔
      Box field (drawnDigits (g.counter field) (text strings field)) row column := by
  have short := sane.short field
  have printable := sane.printable field
  cases field with
  | month => exact absurd rfl number
  | hour | minute | second | day =>
    refine numberDraws_covered (by decide) ?_ printable row column
    simp only [Font.width, screenWidth, UInt16.reduceToNat, UInt8.reduceToNat]
    omega

theorem monthDraws_covered (g : Globals) (row column : Nat) :
    Covered (monthDraws g) row column ↔ (region .month).Covers row column := by
  have names : ∃ first second third, monthText g.monthbutton = [first, second, third] ∧ '\n' ∉ [first, second, third] ∧
      ' ' ∉ [first, second, third] := by
    unfold monthText
    split <;> exact ⟨_, _, _, rfl, by decide, by decide⟩
  obtain ⟨first, second, third, name, printable, solid⟩ := names
  have passes := date_passes (i := 0) [first, second, third] (by rw [countP_space_of_solid solid]; decide)
  have draw : (⟨.rtcSt7789Date, 109, 120, monthText g.monthbutton, .font11x18, .swapped⟩ : Draw).cells =
      rowCells 11 109 120 [first, second, third] := by
    rw [name]
    exact textCells_row dateCut 11 18 _ 109 120 0 _ (show 109 + 11 * 3 < 240 by decide) printable passes
  have covers := covers_row _ draw (show 109 + 11 * 3 < 240 by decide) row column
  rw [Covered, monthDraws]
  simp only [List.mem_singleton, exists_eq_left, covers]
  simp [Rect.Covers, region, Font.width, Font.height]

def cleared : Field → Option Field
  | .minute => some .hour
  | .second => some .minute
  | .month => some .second
  | .hour | .day => none

def written (g : Globals) (strings : Strings) : Field → Strings
  | .hour => { strings with hourStr := itoa g.hour }
  | .minute => { strings with minuteStr := itoa g.minute }
  | .second => { strings with secondStr := itoa g.second }
  | .month => strings
  | .day => { strings with dayStr := itoa g.day }

theorem written_text (g : Globals) (strings : Strings) (field other : Field) :
    text (written g strings field) other =
      if other = field ∧ field ≠ .month then itoa (g.value field) else text strings other := by
  cases field <;> cases other <;> rfl

theorem showMenu_field {g : Globals} {field : Field} (menu : g.menuIndex = field.menu) (strings : Strings)
    (readings : Readings) :
    showMenu g strings readings = (written g strings field,
      (cleared field).elim [] (fieldDraws g (written g strings field) .plain) ++
        fieldDraws g (written g strings field) .swapped field) := by
  cases field <;> simp only [Field.menu] at menu <;> simp only [showMenu, menu] <;> rfl

theorem icons_clear {field : Field} {row column : Nat} (inside : (region field).Covers row column) :
    ¬ Covered icons row column := by
  have percent := covers_row ⟨.writeString, 210, 10, ['%'], .font7x10, .plain⟩
    (writeString_cells _ _ _ _ _ (by decide) (by decide)) (by decide) row column
  have foot := covers_row ⟨.writeString, 85, 180, ['!'], .clockFont, .plain⟩
    (writeString_cells _ _ _ _ _ (by decide) (by decide)) (by decide) row column
  simp only [Covered, icons, List.mem_cons, List.not_mem_nil, or_false, exists_eq_or_imp, exists_eq_left, percent, foot]
  cases field <;> simp [Rect.Covers, region, Font.width, Font.height] at inside ⊢ <;> omega

/-- A number field is drawn whole when its text has the digits the counter calls for. -/
theorem drawnDigits_fresh {g : Globals} {field : Field} (tracks : Tracks g field) (number : field ≠ .month) :
    drawnDigits (g.counter field) (itoa (g.value field)) = 2 := by
  have high := tracks.value_le
  have last : field.last ≤ 59 := by cases field <;> decide
  have length := (itoa_digits tracks.value_nonneg (by omega)).2
  have small := small_iff tracks
  unfold drawnDigits
  rw [length]
  split <;> split <;> omega

private theorem written_sane {g : Globals} {strings : Strings} (valid : Consistent g) (sane : Strings.Sane strings)
    (field : Field) :
    Strings.Sane (written g strings field) := by
  have tracks := valid.fields field
  have high := tracks.value_le
  have last : field.last ≤ 59 := by cases field <;> decide
  have digits := itoa_digits tracks.value_nonneg (by omega)
  constructor <;> intro other <;> rw [written_text] <;> split
  · rw [digits.2]
    split <;> omega
  · exact sane.short other
  · exact digits.1
  · exact sane.printable other

private theorem regions_apart {one other : Field} (different : other ≠ one) {row column : Nat}
    (inside : (region other).Covers row column) (count : Nat) (short : count ≤ 3) : ¬ Box one count row column := by
  have pitches : pitch one * count ≤ pitch one * 3 := Nat.mul_le_mul_left _ short
  rintro ⟨rows, columns⟩
  cases one <;> cases other <;> first
    | exact different rfl
    | simp only [Rect.Covers, region, pitch] at inside pitches rows columns
      omega

private theorem own_covered {face : Face} (valid : Consistent face.g) (sane : Strings.Sane face.strings)
    (field : Field) (row column : Nat) :
    Covered (fieldDraws face.g (written face.g face.strings field) .swapped field) row column ↔
      (region field).Covers row column := by
  by_cases number : field ≠ .month
  · rw [fieldDraws_covered (written_sane valid sane field) .swapped number, written_text]
    simp only [number, ne_eq, not_false_iff, and_self, ite_true, drawnDigits_fresh (valid.fields field) number]
    cases field with
    | month => exact absurd rfl number
    | hour | minute | second | day => rfl
  · cases Classical.not_not.mp number
    exact monthDraws_covered face.g row column

private theorem own_ink (g : Globals) (strings : Strings) (field : Field) :
    ∀ draw ∈ fieldDraws g strings .swapped field, draw.ink = .swapped := by
  by_cases number : field ≠ .month
  · exact fieldDraws_ink g strings .swapped number
  · cases Classical.not_not.mp number
    intro draw member
    rw [List.mem_singleton.mp member]

/-- A turn in the menu of a field highlights the field, takes the highlight off
the field before it as far as that is drawn, and touches no other field. -/
theorem turn_style {face : Face} (valid : Consistent face.g) (sane : Strings.Sane face.strings) {field : Field}
    (menu : face.g.menuIndex = field.menu) (themeChanged : Bool) (reading : Reading) {other : Field}
    {row column : Nat} (inside : (region other).Covers row column) :
    (step face (.turn themeChanged reading)).style row column =
      if other = field then .swapped
      else if cleared field = some other ∧
          Box other (drawnDigits (face.g.counter other) (text face.strings other)) row column then .plain
      else face.style row column := by
  have draws : (step face (.turn themeChanged reading)).style = paintAll face.style
      (((if themeChanged then icons else []) ++
        ((cleared field).elim [] (fieldDraws face.g (written face.g face.strings field) .plain) ++
          fieldDraws face.g (written face.g face.strings field) .swapped field)).flatMap parts) := by
    simp only [step, showValues, showMenu_field menu]
  rw [draws, paintAll_append, paintAll_append]
  have noIcons : ¬ Covered (if themeChanged then icons else []) row column := by
    split
    · exact icons_clear inside
    · rintro ⟨_, member, _⟩
      exact absurd member List.not_mem_nil
  have plain : ∀ draw ∈ if themeChanged then icons else [], draw.ink = .plain := by split <;> simp [icons]
  have start := (uniform_draws _ face.style plain row column).2 noIcons
  generalize paintAll face.style ((if themeChanged then icons else []).flatMap parts) = base at start ⊢
  obtain ⟨highlights, spares⟩ := uniform_draws _
    (paintAll base (((cleared field).elim [] (fieldDraws face.g (written face.g face.strings field) .plain)).flatMap parts))
    (own_ink face.g (written face.g face.strings field) field) row column
  rw [own_covered valid sane field row column] at highlights spares
  by_cases same : other = field
  · subst same
    rw [if_pos rfl]
    exact highlights inside
  · rw [if_neg same]
    have outside : ¬ (region field).Covers row column := by
      have apart := regions_apart same inside 2
      cases field <;> first
        | exact apart (by decide)
        | exact regions_apart same inside 3 (by decide)
    rw [spares outside, ← start]
    cases before : cleared field with
    | none => simp [paintAll]
    | some previous =>
      have number : previous ≠ .month := by rintro rfl; cases field <;> cases before
      have differs : previous ≠ field := by rintro rfl; cases previous <;> cases before
      have kept : text (written face.g face.strings field) previous = text face.strings previous := by
        rw [written_text, if_neg fun both => differs both.1]
      obtain ⟨clears, leaves⟩ := uniform_draws _ base
        (fieldDraws_ink face.g (written face.g face.strings field) .plain number) row column
      rw [fieldDraws_covered (written_sane valid sane field) .plain number, kept] at clears leaves
      simp only [Option.elim_some, Option.some.injEq]
      by_cases target : previous = other
      · subst target
        by_cases box : Box previous (drawnDigits (face.g.counter previous) (text face.strings previous)) row column
        · rw [if_pos ⟨rfl, box⟩, clears box]
        · rw [if_neg fun both => box both.2, leaves box]
      · rw [if_neg fun both => target both.1]
        refine leaves (regions_apart (Ne.symm target) inside _ ?_)
        have short := sane.short previous
        unfold drawnDigits
        split <;> omega

private theorem covers_first (draw : Draw) {str : List Char} {rest : List Cell}
    (cells : draw.cells = rowCells draw.font.width draw.x draw.y str ++ rest)
    (room : draw.x.toNat + draw.font.width.toNat * str.length < screenWidth) {row column : Nat}
    (inside : (draw.y.toNat ≤ row ∧ row < draw.y.toNat + draw.font.height.toNat) ∧
      draw.x.toNat ≤ column ∧ column < draw.x.toNat + draw.font.width.toNat * str.length) :
      Covers draw row column := by
  obtain ⟨cell, member, covers⟩ := (rowCells_covers room row column).mpr inside
  refine ⟨_, List.mem_map.mpr ⟨cell, ?_, rfl⟩, covers⟩
  rw [cells]
  exact List.mem_append_left _ member

private theorem time_covers (reading : Reading) (row column : Nat)
    (inside : (60 ≤ row ∧ row < 110) ∧ 40 ≤ column ∧ column < 200) :
    Covers ⟨.rtcSt7789Time, 40, 60, reading.readings.string, .clockFont, .plain⟩ row column := by
  obtain ⟨_, _, _, weekday, _⟩ := weekdayName_shape (Civil.weekday reading.date.number)
  obtain ⟨_, _, _, month, _⟩ := monthName_shape reading.date.month
  have most := Civil.monthLength_le reading.date.year reading.date.month
  have days := reading.valid.day
  obtain ⟨_, _, day, _⟩ := dayText_shape reading.date.day days.1 (by omega)
  obtain ⟨⟨hourLow, hourHigh⟩, ⟨minuteLow, minuteHigh⟩, secondLow, secondHigh⟩ := reading.clock
  obtain ⟨h, h', hour, hourText⟩ := twoDigits_shape hourLow (by omega)
  obtain ⟨m, m', minute, minuteText⟩ := twoDigits_shape minuteLow (by omega)
  obtain ⟨s, s', second, secondText⟩ := twoDigits_shape secondLow (by omega)
  obtain ⟨rest, text⟩ : ∃ rest, reading.readings.string.drop 11 = [h, h', ':', m, m', ':', s, s'] ++ rest := by
    simp only [Reading.readings, stamp, clockText, weekday, month, day, hour, minute, second]
    exact ⟨_, rfl⟩
  simp only [List.mem_cons, List.not_mem_nil, or_false, not_or] at hourText minuteText secondText
  have cells := textCells_line timeCut 20 50 [h, h', ':', m, m', ':', s, s'] rest 40 60 () ()
    (show 40 + 20 * 8 < 240 by decide) (by simp [hourText, minuteText, secondText])
    (time_passes (by simp [hourText, minuteText, secondText]))
  rw [← text] at cells
  exact covers_first ⟨.rtcSt7789Time, 40, 60, reading.readings.string, .clockFont, .plain⟩ cells
    (show 40 + 20 * 8 < 240 by decide) inside

private theorem date_covers (reading : Reading) (row column : Nat)
    (inside : (120 ≤ row ∧ row < 138) ∧ 65 ≤ column ∧ column < 175) :
    Covers (dateCall reading.readings.string) row column := by
  have length := dateText_length reading.date
  have few : (dateText reading.date).countP space < 4 := by
    rw [dateText_spaces reading.valid]
    split <;> decide
  obtain ⟨rest, text⟩ := stamp_date reading.date reading.hour reading.minute reading.second
  have cells := date_line (dateText reading.date) (' ' :: rest) (by omega) (dateText_printable reading.valid) few
  rw [← text] at cells
  refine covers_first (dateCall reading.readings.string) cells ?_ ?_ <;> rw [length]
  · exact (show 65 + 11 * 10 < 240 by decide)
  · exact inside

private theorem basicScreen_covers (reading : Reading) {field : Field} {row column : Nat}
    (inside : (region field).Covers row column) : Covered (basicScreen reading.readings) row column := by
  have time := time_covers reading row column
  have date := date_covers reading row column
  cases field <;> simp only [Rect.Covers, region] at inside
  case hour | minute | second => exact ⟨_, by simp [basicScreen], time (by omega)⟩
  case month | day => exact ⟨_, dateCall_drawn reading.readings, date (by omega)⟩

private theorem basic_style {face : Face} (menu : face.g.menuIndex = 0) (themeChanged : Bool) (reading : Reading)
    {field : Field} {row column : Nat} (inside : (region field).Covers row column) :
    (step face (.turn themeChanged reading)).style row column = .plain := by
  have draws : (step face (.turn themeChanged reading)).style =
      paintAll face.style (((if themeChanged then icons else []) ++ basicScreen reading.readings).flatMap parts) := by
    simp only [step, showValues, showMenu, menu]
  obtain ⟨draw, member, covers⟩ := basicScreen_covers reading inside
  rw [draws]
  refine (uniform_draws _ face.style ?_ row column).1 ⟨draw, List.mem_append_right _ member, covers⟩
  split <;> simp [icons, basicScreen]

/-- What holds of the watch whether or not the highlight is right: the string of
the last menu's field has been written. -/
structure Coherent (face : Face) : Prop where
  valid : Consistent face.g
  sane : Strings.Sane face.strings
  menu : 0 ≤ face.lastMenu ∧ face.lastMenu ≤ 5
  last : ∀ field, face.lastMenu = field.menu → field ≠ .month → 1 ≤ (text face.strings field).length

theorem menu_cases {menu : Int} (range : 0 ≤ menu ∧ menu ≤ 5) : menu = 0 ∨ ∃ field : Field, menu = field.menu := by
  have which : menu = 0 ∨ menu = 1 ∨ menu = 2 ∨ menu = 3 ∨ menu = 4 ∨ menu = 5 := by omega
  rcases which with rfl | rfl | rfl | rfl | rfl | rfl
  · exact .inl rfl
  · exact .inr ⟨.hour, rfl⟩
  · exact .inr ⟨.minute, rfl⟩
  · exact .inr ⟨.second, rfl⟩
  · exact .inr ⟨.month, rfl⟩
  · exact .inr ⟨.day, rfl⟩

theorem menu_pos (field : Field) : 0 < field.menu := by cases field <;> decide

theorem Coherent.step {face : Face} (coherent : Coherent face) (event : Event) : Coherent (step face event) := by
  obtain ⟨valid, sane, menu, last⟩ := coherent
  cases event with
  | press button => exact ⟨valid.press button, sane, menu, last⟩
  | turn themeChanged reading =>
    rcases menu_cases valid.menu with basic | ⟨field, open_menu⟩
    · have strings : (Highlight.step face (.turn themeChanged reading)).strings = face.strings := by
        simp only [Highlight.step, showValues, showMenu, basic]
      refine ⟨valid, by rw [strings]; exact sane, valid.menu, fun field same => ?_⟩
      have positive := menu_pos field
      have zero : face.g.menuIndex = field.menu := same
      omega
    · have strings : (Highlight.step face (.turn themeChanged reading)).strings = written face.g face.strings field := by
        simp only [Highlight.step, showValues, showMenu_field open_menu]
      refine ⟨valid, by rw [strings]; exact written_sane valid sane field, valid.menu, fun other same number => ?_⟩
      obtain rfl : field = other := Field.menu_injective (open_menu.symm.trans same)
      have tracks := valid.fields field
      have high := tracks.value_le
      have top : field.last ≤ 59 := by cases field <;> decide
      rw [strings, written_text, if_pos ⟨rfl, number⟩, (itoa_digits tracks.value_nonneg (by omega)).2]
      split <;> omega

theorem coherent_start : Coherent {} := by
  refine ⟨initial, ⟨fun field => ?_, fun field => ?_⟩, by decide, fun field same => ?_⟩
  · cases field <;> decide
  · cases field <;> decide
  · cases field <;> cases same

/-- The last pixel of a field is the first to stay highlighted when the field is
drawn with too few digits. -/
theorem last_pixel (field : Field) :
    ∃ row column, (region field).Covers row column ∧
      (field ≠ .month → ∀ count ≤ 1, ¬ Box field count row column) := by
  refine ⟨(region field).top, (region field).left + (region field).width - 1, ?_, fun number count short box => ?_⟩
  · cases field <;> decide
  · have pitches : pitch field * count ≤ pitch field * 1 := Nat.mul_le_mul_left _ short
    cases field <;> simp only [Box, region, pitch, ne_eq, not_true] at box pitches number <;> omega

private theorem cleared_iff {field other : Field} :
    cleared field = some other ↔ field.menu = other.menu + 1 ∧ other ≠ .month := by
  cases field <;> cases other <;> decide

private theorem drawnDigits_two {counter : Int} {str : List Char} (some : 1 ≤ str.length) :
    2 ≤ drawnDigits counter str ↔ ¬ (10 ≤ counter ∧ str.length = 1) := by
  unfold drawnDigits
  split <;> omega

private theorem box_of_region {field : Field} {row column : Nat} (inside : (region field).Covers row column)
    (number : field ≠ .month) {count : Nat} (enough : 2 ≤ count) : Box field count row column := by
  have pitches : pitch field * 2 ≤ pitch field * count := Nat.mul_le_mul_left _ enough
  cases field <;> simp only [Rect.Covers, Box, region, pitch, ne_eq, not_true] at * <;> omega

private theorem turn_iff {face : Face} (coherent : Coherent face) (right : Highlighted face) (themeChanged : Bool)
    (reading : Reading) :
    Highlighted (step face (.turn themeChanged reading)) ↔ Handled face (.turn themeChanged reading) := by
  rcases menu_cases coherent.valid.menu with basic | ⟨field, menu⟩
  · refine ⟨fun _ => .inl basic, fun _ other row column inside => ?_⟩
    rw [basic_style basic themeChanged reading inside]
    have positive := menu_pos other
    have zero : (step face (.turn themeChanged reading)).lastMenu = 0 := basic
    exact ⟨fun plain => (nomatch plain), fun same => by omega⟩
  · have now : (step face (.turn themeChanged reading)).lastMenu = field.menu := menu
    have style {other : Field} {row column : Nat} (inside : (region other).Covers row column) :=
      turn_style coherent.valid coherent.sane menu themeChanged reading inside
    constructor
    · intro highlighted
      rcases menu_cases coherent.menu with start | ⟨previous, last⟩
      · exact .inr (.inl start)
      by_cases same : previous = field
      · exact .inr (.inr (.inl (by rw [last, menu, same])))
      -- the field of the last menu is gone at its last pixel, so it has been drawn whole
      obtain ⟨row, column, inside, short⟩ := last_pixel previous
      have lit := (right previous row column inside).mpr last
      have gone : (step face (.turn themeChanged reading)).style row column ≠ .swapped := fun still =>
        same (Field.menu_injective (now.symm.trans ((highlighted previous row column inside).mp still))).symm
      rw [style inside, if_neg same] at gone
      split at gone
      next drawn =>
        obtain ⟨after, number⟩ := cleared_iff.mp drawn.1
        have enough : 2 ≤ drawnDigits (face.g.counter previous) (text face.strings previous) :=
          Nat.not_lt.mp fun few => short number _ (Nat.le_of_lt_succ few) drawn.2
        have written := coherent.last previous last number
        exact .inr (.inr (.inr ⟨previous, last, by rw [menu, after], number, (drawnDigits_two written).mp enough⟩))
      next => exact absurd lit gone
    · intro handled other row column inside
      rw [now, style inside]
      by_cases same : other = field
      · simp [same]
      rw [if_neg same]
      refine ⟨fun swapped => ?_, fun equal => absurd (Field.menu_injective equal).symm same⟩
      split at swapped
      next => cases swapped
      next kept =>
        have last := (right other row column inside).mp swapped
        have positive := menu_pos field
        have before := menu_pos other
        rcases handled with basic | start | again | ⟨previous, from_menu, next, number, digits⟩
        · omega
        · omega
        · exact absurd (Field.menu_injective (last.symm.trans (again.trans menu))) same
        · obtain rfl := Field.menu_injective (from_menu.symm.trans last)
          have written := coherent.last previous last number
          exact absurd ⟨cleared_iff.mpr ⟨by rw [← menu, next], number⟩,
            box_of_region inside number ((drawnDigits_two written).mpr digits)⟩ kept

def newYear : Reading where
  battString := ['9', '9']
  stepString := ['0']
  date := ⟨2022, 1, 1⟩
  hour := 0
  minute := 0
  second := 0
  valid := by decide
  era := by decide
  clock := by decide

/-- The month stays highlighted when the fifth menu opens. -/
theorem month_stays_highlighted :
    ¬ ∀ events : List Event, ∀ first, first <+: events → Highlighted (first.foldl step {}) := by
  intro always
  have right :=
    always (List.replicate 4 (.press .select) ++ [.turn false newYear, .press .select, .turn false newYear]) _
    (List.prefix_refl _)
  have still := (right .month 120 109 (by decide)).mp (by decide +kernel)
  exact absurd still (by decide +kernel)

/-- The highlight is right after every turn exactly when every turn is on the
basic screen, follows the basic screen or its own menu, or follows the menu before
it with that menu's string still of the length its counter calls for. -/
theorem highlighted_iff (events : List Event) :
    (∀ first, first <+: events → Highlighted (first.foldl step {})) ↔ Steps step Handled {} events := by
  refine always_iff step Handled Coherent Highlighted (fun face event coherent _ _ => coherent.step event)
    (fun face event coherent right => ?_) {} events coherent_start ?_
  · cases event with
    | press button => exact ⟨fun _ => trivial, fun _ => right⟩
    | turn themeChanged reading => exact turn_iff coherent right themeChanged reading
  · intro field row column _
    cases field <;> exact ⟨fun plain => (nomatch plain), fun same => by cases same⟩

end SmartWatch.Proofs.Highlight
