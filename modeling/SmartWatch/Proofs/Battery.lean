import SmartWatch.Battery
import SmartWatch.Lib.Runs
import SmartWatch.Proofs.Menus
import SmartWatch.Proofs.Panel
import SmartWatch.Proofs.Rectangle

/-! The battery row. A pass draws its number over the row as it is and draws the
sign no more, so a number is whole only if it covers the one before it. -/

namespace SmartWatch.Proofs.Battery
open Raster Runs Menus SmartWatch.Proofs.Panel SmartWatch.Proofs.Rectangle

section Painting
variable (memory : Font → Int → UInt16) (theme : UInt16)

def tableRow (ch : Char) (row : Nat) : UInt32 := (font7x10Rows.getD ((ch.toNat - 37) * 10 + row) 0).toUInt32

private theorem glyphRow_eq {ch : Char} {row : Nat} (within : 37 ≤ ch.toNat ∧ ch.toNat ≤ 57) (inside : row < 10) :
    (Font.font7x10.toFontDef memory).glyphRow ch row = tableRow ch row := by
  have offset : 50 ≤ (ch.toNat - 32 : Int) * (10 : Nat) + row ∧ (ch.toNat - 32 : Int) * (10 : Nat) + row < 260 := by omega
  have index : ((ch.toNat - 32 : Int) * (10 : Nat) + row - 50).toNat = (ch.toNat - 37) * 10 + row := by omega
  rw [tableRow, ← index]
  exact congrArg UInt16.toUInt32 (if_pos ⟨rfl, offset⟩)

/-- Cells side by side, painted over a frame. -/
theorem paintAll_row (font : FontDef) (color bgcolor : UInt16) (frame : Frame UInt16) (x y : UInt16) (str : List Char)
    (wide : 0 < font.width.toNat) (room : x.toNat + font.width.toNat * str.length < screenWidth) {row : Nat}
    (inside : row < font.height.toNat) (column : Nat) :
    paintAll frame ((rowCells font.width x y str).map fun cell => (rect font cell, glyph font color bgcolor cell.ch))
        (y.toNat + topRow + row) column =
      if x.toNat ≤ column then
        (str[(column - x.toNat) / font.width.toNat]?).elim (frame (y.toNat + topRow + row) column) fun ch =>
          glyph font color bgcolor ch row ((column - x.toNat) % font.width.toNat)
      else frame (y.toNat + topRow + row) column := by
  induction str generalizing x frame with
  | nil =>
    simp only [rowCells, List.map_nil, List.getElem?_nil, Option.elim_none, ite_self]
    rfl
  | cons ch str ih =>
    rw [List.length_cons, Nat.mul_succ] at room
    have moved : (x + font.width.toUInt16).toNat = x.toNat + font.width.toNat := by
      simp only [screenWidth, UInt16.toNat_add, UInt8.toNat_toUInt16] at *
      omega
    have same : (rect font ⟨x, y, ch⟩).Covers (y.toNat + topRow + row) column ↔
        x.toNat ≤ column ∧ column < x.toNat + font.width.toNat := by
      simp only [Rect.Covers, rect]
      omega
    have first : paint frame (rect font ⟨x, y, ch⟩) (glyph font color bgcolor ch) (y.toNat + topRow + row) column =
        if x.toNat ≤ column ∧ column < x.toNat + font.width.toNat then glyph font color bgcolor ch row (column - x.toNat)
        else frame (y.toNat + topRow + row) column := by
      simp only [paint, same]
      simp only [rect, Nat.add_sub_cancel_left]
    rw [rowCells, List.map_cons]
    refine (ih (paint frame (rect font ⟨x, y, ch⟩) (glyph font color bgcolor ch)) _ (by omega)).trans ?_
    rw [moved, first]
    by_cases left : x.toNat ≤ column
    · by_cases within : column < x.toNat + font.width.toNat
      · rw [if_neg (by omega), if_pos left, if_pos ⟨left, within⟩, Nat.div_eq_of_lt (by omega), Nat.mod_eq_of_lt (by omega)]
        rfl
      · have shifted : column - x.toNat = column - (x.toNat + font.width.toNat) + font.width.toNat := by omega
        rw [if_pos (by omega), if_pos left, if_neg (by omega), shifted, Nat.add_div_right _ wide, Nat.add_mod_right,
          List.getElem?_cons_succ]
    · rw [if_neg (by omega), if_neg left, if_neg (by omega)]

private theorem font_sizes (font : Font) : 0 < font.width.toNat ∧ font.width.toNat < screenWidth ∧
    0 < font.height.toNat := by
  cases font <;> decide

private theorem ops_exec (draw : Draw) (screen : Screen)
    (fits : draw.y.toNat + draw.font.height.toNat ≤ screenHeight) :
    ((draw.ops memory theme).foldl Screen.exec screen).memory = paintAll screen.memory (draw.cells.map fun cell =>
      (rect (draw.font.toFontDef memory) cell,
        glyph (draw.font.toFontDef memory) (draw.ink.color theme) (draw.ink.bgcolor theme) cell.ch)) := by
  obtain ⟨wide, narrow, tall⟩ := font_sizes draw.font
  rw [Draw.ops, List.foldl_append]
  exact draw_exec draw.routine (draw.font.toFontDef memory) draw.x draw.y draw.str _ _ screen wide narrow tall fits

private theorem draws_above (draws : List Draw) (screen : Screen) {top row : Nat} (above : row < top + topRow)
    (column : Nat) (low : ∀ draw ∈ draws, top ≤ draw.y.toNat ∧ draw.y.toNat + draw.font.height.toNat ≤ screenHeight) :
    (screen.draw memory theme draws).memory row column = screen.memory row column := by
  induction draws generalizing screen with
  | nil => rfl
  | cons draw draws ih =>
    obtain ⟨below, fits⟩ := low draw List.mem_cons_self
    obtain ⟨wide, narrow, tall⟩ := font_sizes draw.font
    refine (ih _ fun other member => low other (List.mem_cons_of_mem _ member)).trans ?_
    rw [ops_exec memory theme draw screen fits]
    apply paintAll_outside
    intro part member
    obtain ⟨cell, drawn, rfl⟩ := List.mem_map.mp member
    have place :=
      cells_below draw.routine (draw.font.toFontDef memory) draw.x draw.y draw.str tall narrow fits cell drawn
    simp only [Rect.Covers, rect]
    omega

abbrev small (ch : Char) : Frame UInt16 := glyph (Font.font7x10.toFontDef memory) theme background ch

private theorem small_eq {ch : Char} {row : Nat} (within : 37 ≤ ch.toNat ∧ ch.toNat ≤ 57) (inside : row < 10)
    (column : Nat) :
    small memory theme ch row column = if lit (tableRow ch row) column then theme else background := by
  rw [small, glyph, glyphRow_eq memory within inside]

private theorem digit_code {ch : Char} (digit : ch.isDigit) : ∃ number < 10, ch.toNat = 48 + number := by
  have code : 48 ≤ ch.toNat ∧ ch.toNat ≤ 57 := Char.isDigit_iff_toNat.mp digit
  exact ⟨ch.toNat - 48, by omega, by omega⟩

private theorem digit_rows : ∀ number < 10,
    (∀ row < 10, lit (font7x10Rows.getD ((48 + number - 37) * 10 + row) 0).toUInt32 6 = false) ∧
      ∃ row < 10, ∃ column < 6, lit (font7x10Rows.getD ((48 + number - 37) * 10 + row) 0).toUInt32 column = true := by
  decide +kernel

private theorem percent_rows : ∀ row < 10, lit (tableRow '%' row) 0 = false := by decide +kernel

private theorem digit_blank {ch : Char} (digit : ch.isDigit) {row : Nat} (inside : row < 10) :
    small memory theme ch row 6 = background := by
  obtain ⟨number, few, code⟩ := digit_code digit
  have blank := (digit_rows number few).1 row inside
  rw [← code] at blank
  rw [small_eq memory theme (by omega) inside, tableRow, blank]
  rfl

private theorem digit_seen {ch : Char} (digit : ch.isDigit) :
    ∃ row < 10, ∃ column < 6, small memory theme ch row column = theme := by
  obtain ⟨number, few, code⟩ := digit_code digit
  obtain ⟨row, inside, column, within, seen⟩ := (digit_rows number few).2
  rw [← code] at seen
  refine ⟨row, inside, column, within, ?_⟩
  rw [small_eq memory theme (by omega) inside, tableRow, seen]
  rfl

private theorem percent_blank {row : Nat} (inside : row < 10) : small memory theme '%' row 0 = background := by
  rw [small_eq memory theme (by decide) inside, percent_rows row inside]
  rfl

private theorem line_exec (left top : Nat) {x y : UInt16} (str : List Char) (screen : Screen) (atX : x.toNat = left)
    (atY : y.toNat = top) (room : left + 7 * str.length < 240) (fits : top + 10 ≤ 280) (printable : '\n' ∉ str)
    {row : Nat} (inside : row < 10) (column : Nat) :
    ((({ x, y, str, font := .font7x10, ink := .plain } : Draw).ops memory theme).foldl Screen.exec screen).memory
        (top + topRow + row) column =
      if left ≤ column then
        (str[(column - left) / 7]?).elim (screen.memory (top + topRow + row) column) fun ch =>
          small memory theme ch row ((column - left) % 7)
      else screen.memory (top + topRow + row) column := by
  subst atX atY
  have cells := writeString_cells x y str .font7x10 .plain room printable
  rw [ops_exec memory theme _ screen fits, cells]
  exact paintAll_row (Font.font7x10.toFontDef memory) theme background screen.memory x y str (show 0 < 7 by decide) room inside column

private theorem draw_cons (screen : Screen) (draw : Draw) (draws : List Draw) :
    screen.draw memory theme (draw :: draws) =
    Screen.draw memory theme ((draw.ops memory theme).foldl Screen.exec screen) draws := rfl

/-- The pixel of a text in the battery row. -/
def pixel (text : List Char) (row column : Nat) : UInt16 :=
  (text[column / 7]?).elim background fun ch => small memory theme ch row (column % 7)

/-- The battery row shows the text and nothing else up to the sign, and the sign. -/
structure Shows (text : List Char) (frame : Frame UInt16) : Prop where
  number : ∀ row < 10, ∀ column < 20, frame (10 + topRow + row) (190 + column) = pixel memory theme text row column
  percent : ∀ row < 10, ∀ column < 7, frame (10 + topRow + row) (210 + column) = small memory theme '%' row column

theorem pass_exec (readings : Readings) (screen : Screen) (short : readings.battString.length ≤ 3)
    (printable : '\n' ∉ readings.battString) {row : Nat} (inside : row < 10) (column : Nat) :
    (screen.draw memory theme (basicScreen readings)).memory (10 + topRow + row) (190 + column) =
      (readings.battString[column / 7]?).elim (screen.memory (10 + topRow + row) (190 + column)) fun ch =>
        small memory theme ch row (column % 7) := by
  have line :=
    line_exec memory theme 190 10 (x := 190) (y := 10) readings.battString screen rfl rfl (by omega) (by decide)
    printable inside (190 + column)
  rw [if_pos (Nat.le_add_right 190 column), Nat.add_sub_cancel_left] at line
  rw [basicScreen, draw_cons, ← line]
  apply draws_above memory theme _ _ (show 10 + topRow + row < 60 + topRow by omega)
  simp only [List.forall_mem_cons, List.not_mem_nil, false_implies, implies_true, and_true]
  decide

theorem clear_exec (screen : Screen) {row column : Nat} (inside : row < 280) (narrow : column < 240) :
    ((fillRectangle 0 0 240 280 background).foldl Screen.exec screen).memory (topRow + row) column = background := by
  obtain ⟨width, height, fill, wide, tall⟩ :=
    fillRectangle_eq (x := 0) (y := 0) 240 280 background (by decide) (by decide)
  have sizes : width.toNat = 240 ∧ height.toNat = 280 := ⟨wide.trans (by decide), tall.trans (by decide)⟩
  rw [fill, filled_exec background screen (by rw [sizes.1]; decide) (by rw [sizes.2]; decide), paint]
  refine if_pos ?_
  simp only [Rect.Covers, sizes, UInt16.reduceToNat]
  omega

/-- What a pass leaves on the screen when the row showed another number. -/
theorem shows_pass (readings : Readings) {screen : Screen} {last : List Char} (visible : theme ≠ background)
    (short : readings.battString.length ≤ 3) (digits : ∀ ch ∈ readings.battString, ch.isDigit)
    (before : Shows memory theme last screen.memory) (lastShort : last.length ≤ 3)
    (lastDigits : ∀ ch ∈ last, ch.isDigit) :
    Shows memory theme readings.battString (screen.draw memory theme (basicScreen readings)).memory ↔
      last.length ≤ readings.battString.length := by
  have printable : '\n' ∉ readings.battString := fun newline => absurd (digits _ newline) (by decide)
  have drawn {row : Nat} (inside : row < 10) (column : Nat) :=
    pass_exec memory theme readings screen short printable inside column
  constructor
  · intro shows
    apply Nat.le_of_not_lt
    intro longer
    have digit := lastDigits _ (List.getElem_mem longer)
    obtain ⟨row, inside, column, within, seen⟩ := digit_seen memory theme digit
    have index : (7 * readings.battString.length + column) / 7 = readings.battString.length ∧
        (7 * readings.battString.length + column) % 7 = column := by omega
    have left := before.number row inside (7 * readings.battString.length + column) (by omega)
    have now := shows.number row inside (7 * readings.battString.length + column) (by omega)
    rw [drawn inside, left] at now
    simp only [pixel, index, List.getElem?_eq_getElem longer, Option.elim_some, seen,
      List.getElem?_eq_none (Nat.le_refl readings.battString.length), Option.elim_none] at now
    exact visible now
  · intro covered
    constructor
    · intro row inside column narrow
      rw [drawn inside, pixel]
      cases found : readings.battString[column / 7]? with
      | some ch => rfl
      | none =>
        have past : last[column / 7]? = none := by
          have := List.getElem?_eq_none_iff.mp found
          exact List.getElem?_eq_none (by omega)
        rw [Option.elim_none, before.number row inside column narrow, pixel, past]
    · intro row inside column narrow
      have kept := before.percent row inside column narrow
      rw [show 210 + column = 190 + (20 + column) by omega] at kept ⊢
      rw [drawn inside, kept]
      cases found : readings.battString[(20 + column) / 7]? with
      | none => rfl
      | some ch =>
        -- The third digit reaches the first column of the sign.
        obtain ⟨third, same⟩ := List.getElem?_eq_some_iff.mp found
        obtain rfl : column = 0 := by omega
        rw [percent_blank memory theme inside]
        exact digit_blank memory theme (digits ch (same ▸ List.getElem_mem third)) inside

private theorem start_shows (screen : Screen) : Shows memory theme []
    (Gauge.start memory theme screen).screen.memory := by
  have drawn {row : Nat} (inside : row < 10) (column : Nat) : (Gauge.start memory theme screen).screen.memory
      (10 + topRow + row) column = if 210 ≤ column then
        (['%'][(column - 210) / 7]?).elim
          (((fillRectangle 0 0 240 280 background).foldl Screen.exec screen).memory (10 + topRow + row) column)
          fun ch => small memory theme ch row ((column - 210) % 7)
      else ((fillRectangle 0 0 240 280 background).foldl Screen.exec screen).memory (10 + topRow + row) column := by
    have line := line_exec memory theme 210 10 (x := 210) (y := 10) ['%']
      ((fillRectangle 0 0 240 280 background).foldl Screen.exec screen) rfl rfl (by decide) (by decide) (by decide) inside column
    rw [Gauge.start, icons, draw_cons, ← line]
    dsimp only
    apply draws_above memory theme _ _ (show 10 + topRow + row < 60 + topRow by omega)
    decide
  constructor
  · intro row inside column narrow
    rw [drawn inside, if_neg (by omega), show 10 + topRow + row = topRow + (10 + row) by omega, clear_exec screen (by omega) (by omega)]
    rfl
  · intro row inside column narrow
    rw [drawn inside, if_pos (by omega), Nat.add_sub_cancel_left, Nat.div_eq_of_lt narrow, Nat.mod_eq_of_lt narrow]
    rfl

end Painting

/-- The conversions that stand for 0 to 100 percent. -/
def Calibrated (adc : UInt16) : Prop := 1809 ≤ adc.toNat ∧ adc.toNat ≤ 2622

instance (adc : UInt16) : Decidable (Calibrated adc) := inferInstanceAs (Decidable (_ ∧ _))

def percent (adc : UInt16) : Nat := (adc.toNat - 1800) * 100 / 806 - 1

theorem batt_eq (adc : UInt16) : (batt adc).toNat = (adc.toNat + 63736) % 65536 * 100 / 806 := by
  have wrapped : (adc - 1800).toNat = (adc.toNat + 63736) % 65536 := by
    rw [UInt16.toNat_sub, Nat.add_comm]
    rfl
  rw [batt, UInt16.toNat_ofNat', wrapped]
  omega

theorem battText_calibrated {adc : UInt16} (calibrated : Calibrated adc) :
    battText adc = Nat.toDigits 10 (percent adc) := by
  obtain ⟨low, high⟩ := calibrated
  have batt := batt_eq adc
  rw [show (adc.toNat + 63736) % 65536 = adc.toNat - 1800 by omega] at batt
  have level : ((SmartWatch.batt adc).toNat - 1 : Int) = (percent adc : Nat) := by
    unfold percent
    omega
  rw [battText, level, itoa, if_neg (by omega)]
  rfl

theorem percent_le {adc : UInt16} (calibrated : Calibrated adc) : percent adc ≤ 100 := by
  obtain ⟨low, high⟩ := calibrated
  unfold percent
  omega

theorem percent_mono {one other : UInt16} (le : one ≤ other) : percent one ≤ percent other := by
  have le := UInt16.le_iff_toNat_le.mp le
  unfold percent
  omega

/-- A number of percent is written for calibrated conversions only. -/
theorem calibrated_of_text {adc : UInt16} {number : Nat} (most : number ≤ 100)
    (text : battText adc = Nat.toDigits 10 number) :
    Calibrated adc := by
  have batt := batt_eq adc
  have within := adc.toNat_lt
  have level : ((SmartWatch.batt adc).toNat - 1 : Int) = number := by
    unfold battText itoa at text
    split at text
    next negative =>
      have digit : '-'.isDigit = true := Nat.isDigit_of_mem_toDigits (b := 10) (n := number) (by decide) (by decide)
        (text ▸ List.mem_cons_self)
      exact absurd digit (by decide)
    next positive =>
      have same := congrArg (Nat.ofDigitChars 10 · 0) text
      simp only [Nat.ofDigitChars_ten_toDigits] at same
      omega
  unfold Calibrated
  omega

private theorem digits_length {number : Nat} (most : number ≤ 100) : (Nat.toDigits 10 number).length =
    if number < 10 then 1 else if number < 100 then 2 else 3 := by
  have one := Nat.length_toDigits_le_iff (b := 10) (n := number) (k := 1) (by decide) (by decide)
  have two := Nat.length_toDigits_le_iff (b := 10) (n := number) (k := 2) (by decide) (by decide)
  have three := Nat.length_toDigits_le_iff (b := 10) (n := number) (k := 3) (by decide) (by decide)
  have some : 0 < (Nat.toDigits 10 number).length := Nat.length_toDigits_pos
  split
  · omega
  · split <;> omega

/-- A text covers another when neither 10 nor 100 percent lies between them. -/
theorem covers_iff {last adc : UInt16} (before : Calibrated last) (now : Calibrated adc) :
    (battText last).length ≤ (battText adc).length ↔
      (1889 ≤ last.toNat → 1889 ≤ adc.toNat) ∧ (2615 ≤ last.toNat → 2615 ≤ adc.toNat) := by
  rw [battText_calibrated before, battText_calibrated now, digits_length (percent_le before), digits_length (percent_le now)]
  unfold Calibrated at before now
  have ten (adc : UInt16) : percent adc < 10 ↔ adc.toNat < 1889 := by
    unfold percent
    omega
  have hundred (adc : UInt16) : percent adc < 100 ↔ adc.toNat < 2615 := by
    unfold percent
    omega
  simp only [ten, hundred]
  split <;> split <;> (try split) <;> (try split) <;> omega

private theorem battText_digits {adc : UInt16} (calibrated : Calibrated adc) :
    (battText adc).length ≤ 3 ∧ ∀ ch ∈ battText adc, ch.isDigit := by
  rw [battText_calibrated calibrated]
  refine ⟨?_, fun ch member => Nat.isDigit_of_mem_toDigits (by decide) (by decide) member⟩
  rw [digits_length (percent_le calibrated)]
  split
  · decide
  · split <;> decide

section Passes
variable (memory : Font → Int → UInt16) (theme : UInt16)

/-- The row shows the string of the latest pass, and the strings of all passes are
percentages that do not fall while the readings rise. -/
structure Right (gauge : Gauge) : Prop where
  shows : ∀ pass ∈ gauge.passes.head?, Shows memory theme pass.battString gauge.screen.memory
  number : ∃ number : UInt16 → Nat,
    (∀ pass ∈ gauge.passes, number pass.adc ≤ 100 ∧ pass.battString = Nat.toDigits 10 (number pass.adc)) ∧
      ∀ one ∈ gauge.passes, ∀ other ∈ gauge.passes, one.adc ≤ other.adc → number one.adc ≤ number other.adc

structure Sound (gauge : Gauge) : Prop where
  reading : ∀ reading ∈ gauge.reading, reading.battString = battText reading.adc
  passes : ∀ pass ∈ gauge.passes, pass.battString = battText pass.adc
  blank : gauge.passes = [] → Shows memory theme [] gauge.screen.memory

/-- A pass draws a calibrated conversion, with no fewer digits than the pass before it. -/
def Legible (gauge : Gauge) : GaugeEvent → Prop
  | .getValues _ => True
  | .pass .. => ∀ reading ∈ gauge.reading, Calibrated reading.adc ∧ ∀ last ∈ gauge.passes.head?,
    (1889 ≤ last.adc.toNat → 1889 ≤ reading.adc.toNat) ∧ (2615 ≤ last.adc.toNat → 2615 ≤ reading.adc.toNat)

variable {memory theme}

theorem sound_step {gauge : Gauge} (event : GaugeEvent) (sound : Sound memory theme gauge) :
    Sound memory theme (gauge.step memory theme event) := by
  cases event with
  | getValues adc => exact { sound with reading := fun reading same => (by cases same; rfl) }
  | pass string stepString =>
    simp only [Gauge.step]
    split
    next => exact sound
    next reading found =>
      refine ⟨sound.reading, fun pass member => ?_, nofun⟩
      rcases List.mem_cons.mp member with rfl | old
      · exact sound.reading pass found
      · exact sound.passes pass old

theorem calibrated_passes {gauge : Gauge} (sound : Sound memory theme gauge) (right : Right memory theme gauge) :
    ∀ pass ∈ gauge.passes, Calibrated pass.adc := by
  intro pass member
  obtain ⟨number, written, -⟩ := right.number
  obtain ⟨most, text⟩ := written pass member
  exact calibrated_of_text most ((sound.passes pass member).symm.trans text)

theorem row_before {gauge : Gauge} (sound : Sound memory theme gauge) (right : Right memory theme gauge) :
    ∃ last, Shows memory theme last gauge.screen.memory ∧ last.length ≤ 3 ∧ (∀ ch ∈ last, ch.isDigit) ∧
      ∀ text : List Char, last.length ≤ text.length ↔
        ∀ pass ∈ gauge.passes.head?, (battText pass.adc).length ≤ text.length := by
  cases found : gauge.passes with
  | nil => exact ⟨[], sound.blank found, Nat.zero_le 3, nofun, fun text => iff_of_true (Nat.zero_le _) nofun⟩
  | cons pass passes =>
    have head : pass ∈ gauge.passes.head? := by rw [found]; rfl
    have member : pass ∈ gauge.passes := by rw [found]; exact List.mem_cons_self
    have text := sound.passes pass member
    obtain ⟨short, digits⟩ := battText_digits (calibrated_passes sound right pass member)
    have shows := right.shows pass head
    rw [text] at shows
    exact ⟨battText pass.adc, shows, short, digits, fun text => ⟨fun le other same => (by cases same; exact le),
      fun all => all pass rfl⟩⟩

theorem right_step {gauge : Gauge} (event : GaugeEvent) (visible : theme ≠ background)
    (sound : Sound memory theme gauge) (right : Right memory theme gauge) :
    Right memory theme (gauge.step memory theme event) ↔ Legible gauge event := by
  cases event with
  | getValues adc => exact iff_of_true ⟨right.shows, right.number⟩ trivial
  | pass string stepString =>
    simp only [Gauge.step, Legible]
    split
    next none =>
      rw [none]
      exact iff_of_true right fun _ same => by cases same
    next reading found =>
      have text := sound.reading reading found
      have earlier := calibrated_passes sound right
      obtain ⟨last, before, lastShort, lastDigits, covers⟩ := row_before sound right
      have shows (calibrated : Calibrated reading.adc) := by
        obtain ⟨short, digits⟩ := battText_digits calibrated
        rw [← text] at short digits
        exact shows_pass memory theme ⟨reading.battString, string, stepString⟩ visible short digits before
          lastShort lastDigits
      have order (calibrated : Calibrated reading.adc) : last.length ≤ reading.battString.length ↔
          ∀ pass ∈ gauge.passes.head?, (1889 ≤ pass.adc.toNat → 1889 ≤ reading.adc.toNat) ∧
            (2615 ≤ pass.adc.toNat → 2615 ≤ reading.adc.toNat) := by
        rw [covers, text]
        exact forall₂_congr fun pass head => covers_iff (earlier pass (List.mem_of_mem_head? head)) calibrated
      constructor
      · intro next other same
        obtain rfl : reading = other := Option.some.inj (found.symm.trans same)
        obtain ⟨number, written, -⟩ := next.number
        obtain ⟨most, decimal⟩ := written reading List.mem_cons_self
        have calibrated := calibrated_of_text most (text.symm.trans decimal)
        exact ⟨calibrated, (order calibrated).mp ((shows calibrated).mp (next.shows reading rfl))⟩
      · intro legible
        obtain ⟨calibrated, covered⟩ := legible reading found
        refine ⟨fun pass head => ?_, percent, fun pass member => ?_, fun _ _ _ _ le => percent_mono le⟩
        · obtain rfl : reading = pass := Option.some.inj head
          exact (shows calibrated).mpr ((order calibrated).mpr covered)
        · rcases List.mem_cons.mp member with rfl | old
          · exact ⟨percent_le calibrated, text.trans (battText_calibrated calibrated)⟩
          · exact ⟨percent_le (earlier pass old), (sound.passes pass old).trans (battText_calibrated (earlier pass old))⟩

theorem theme_visible {ch : Char} (chosen : themeOf ch = some theme) : theme ≠ background := by
  unfold themeOf at chosen
  split at chosen <;> cases chosen <;> decide

theorem sound_start (screen : Screen) : Sound memory theme (Gauge.start memory theme screen) :=
  ⟨nofun, nofun, fun _ => start_shows memory theme screen⟩

theorem right_start (screen : Screen) : Right memory theme (Gauge.start memory theme screen) :=
  ⟨nofun, percent, nofun, nofun⟩

theorem sound_run (screen : Screen) (events : List GaugeEvent) :
    Sound memory theme (events.foldl (Gauge.step memory theme) (Gauge.start memory theme screen)) :=
  foldl_invariant _ (Sound memory theme) (fun _ event sound => sound_step event sound) _ events (sound_start screen)

end Passes

/-- The battery falls from 10 to 9 percent, and the row shows 90. -/
theorem zero_of_10_stays : ¬ ∀ memory theme screen, ∀ events : List GaugeEvent, (∃ ch, themeOf ch = some theme) →
    Right memory theme (events.foldl (Gauge.step memory theme) (Gauge.start memory theme screen)) := by
  intro always
  let memory : Font → Int → UInt16 := fun _ _ => 0
  let screen : Screen := ⟨false, true, ⟨⟨fun _ _ => 0, 0, 0⟩, ⟨0, 0, 0, 0⟩, .nothing⟩⟩
  have green : ∃ ch, themeOf ch = some 0x07E0 := ⟨'G', rfl⟩
  let pass : GaugeEvent := .pass "Tue Jun 14 22:31:44 2022\n".toList "0".toList
  have sound : Sound memory 0x07E0 _ := sound_run screen [.getValues 1889, pass, .getValues 1888]
  have right := always memory 0x07E0 screen [.getValues 1889, pass, .getValues 1888] green
  have next := always memory 0x07E0 screen [.getValues 1889, pass, .getValues 1888, pass] green
  have visible : (0x07E0 : UInt16) ≠ background := by decide
  obtain ⟨_, legible⟩ := (right_step pass visible sound right).mp next ⟨1888, battText 1888⟩ rfl
  exact absurd ((legible ⟨1889, battText 1889⟩ rfl).1 (by decide)) (by decide)

/-- The battery row is right after every pass exactly in the runs whose passes draw
calibrated conversions and never fewer digits than the pass before. -/
theorem gauge_iff (memory : Font → Int → UInt16) (theme : UInt16) (screen : Screen) (events : List GaugeEvent)
    {ch : Char} (chosen : themeOf ch = some theme) :
    (∀ first, first <+: events →
        Right memory theme (first.foldl (Gauge.step memory theme) (Gauge.start memory theme screen))) ↔
      Steps (Gauge.step memory theme) Legible (Gauge.start memory theme screen) events :=
  always_iff (Gauge.step memory theme) Legible (Sound memory theme) (Right memory theme)
    (fun _ event sound _ _ => sound_step event sound)
    (fun _ event sound right => right_step event (theme_visible chosen) sound right) _ events (sound_start screen)
    (right_start screen)

/-- From 9 to 10 percent. -/
theorem gauge_iff_ten : Right (fun _ _ => 0) 0x07E0
    ([.getValues 1888, .pass "Tue Jun 14 22:31:44 2022\n".toList ['0'], .getValues 1889,
        .pass "Tue Jun 14 22:31:45 2022\n".toList ['0']].foldl (Gauge.step (fun _ _ => 0) 0x07E0)
      (Gauge.start (fun _ _ => 0) 0x07E0 ⟨false, true, ⟨⟨fun _ _ => 0, 0, 0⟩, ⟨0, 0, 0, 0⟩, .nothing⟩⟩)) := by
  refine (gauge_iff (fun _ _ => 0) 0x07E0 _ [.getValues 1888, .pass "Tue Jun 14 22:31:44 2022\n".toList ['0'], .getValues 1889,
    .pass "Tue Jun 14 22:31:45 2022\n".toList ['0']] (show themeOf 'G' = some 0x07E0 from rfl)).mpr
      ⟨trivial, ?_, trivial, ?_, trivial⟩ _ (List.prefix_refl _)
  · rintro _ ⟨rfl⟩
    exact ⟨by decide, nofun⟩
  · rintro _ ⟨rfl⟩
    refine ⟨by decide, ?_⟩
    rintro _ ⟨rfl⟩
    decide

end SmartWatch.Proofs.Battery
