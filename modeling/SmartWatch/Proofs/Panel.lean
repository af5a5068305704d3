import SmartWatch.Panel

/-! The text routines against the frame buffer: every character cell lies on the
screen, no two share a pixel, and the memory changes in these cells only. -/

namespace SmartWatch.Proofs.Panel
open Raster

theorem word_bytes (value : UInt16) : word (highByte value) (lowByte value) = value := by
  apply UInt16.toNat.inj
  have small := value.toNat_lt
  simp only [word, highByte, lowByte, UInt16.toNat_ofNat', UInt16.toNat_toUInt8, UInt16.toNat_shiftRight]
  have shifted : value.toNat >>> (UInt16.toNat 8 % 16) = value.toNat / 256 := Nat.shiftRight_eq_div_pow _ 8
  rw [shifted]
  omega

/-- `LCD_SetWindows` opens the window and leaves the panel waiting for pixels at
its corner, whatever it was doing before. -/
theorem lcdSetWindows_exec (screen : Screen) (xStart yStart xEnd yEnd : UInt16) :
    (lcdSetWindows xStart yStart xEnd yEnd).foldl Screen.exec screen =
      { dc := false, cs := true
        panel := { writer := ⟨screen.memory, (yStart + 20).toNat, xStart.toNat⟩
                   window := ⟨xStart.toNat, (yStart + 20).toNat, xEnd.toNat, (yEnd + 20).toNat⟩
                   receiving := .pixels none } } := by
  have opened : (lcdSetWindows xStart yStart xEnd yEnd).foldl Screen.exec screen =
      { dc := false, cs := true
        panel := { writer := ⟨screen.memory, (word (highByte (yStart + 20)) (lowByte (yStart + 20))).toNat,
                     (word (highByte xStart) (lowByte xStart)).toNat⟩
                   window := ⟨(word (highByte xStart) (lowByte xStart)).toNat,
                     (word (highByte (yStart + 20)) (lowByte (yStart + 20))).toNat,
                     (word (highByte xEnd) (lowByte xEnd)).toNat,
                     (word (highByte (yEnd + 20)) (lowByte (yEnd + 20))).toNat⟩
                   receiving := .pixels none } } := rfl
  simpa only [word_bytes] using opened

private theorem pixels_exec (screen : Screen) (colours : List UInt16) (low : screen.cs = false)
    (waiting : screen.panel.receiving = .pixels none) :
    (colours.flatMap fun colour => writeData [highByte colour, lowByte colour]).foldl Screen.exec screen =
      { dc := screen.dc || !colours.isEmpty, cs := false
        panel := { screen.panel with
          writer := colours.foldl (Writer.put screen.panel.window) screen.panel.writer } } := by
  induction colours generalizing screen with
  | nil =>
    obtain ⟨dc, cs, panel⟩ := screen
    cases low
    simp
  | cons colour colours ih =>
    obtain ⟨dc, cs, writer, window, receiving⟩ := screen
    cases low
    cases waiting
    have one : (writeData [highByte colour, lowByte colour]).foldl Screen.exec
        { dc, cs := false, panel := { writer, window, receiving := .pixels none } } =
        { dc := true, cs := false, panel := { writer := writer.put window colour, window, receiving := .pixels none } } := by
      rw [← word_bytes colour, word_bytes colour]
      exact congrArg (fun pixel => Screen.mk true false ⟨writer.put window pixel, window, .pixels none⟩) (word_bytes colour)
    rw [List.flatMap_cons, List.foldl_append, one, ih _ rfl rfl]
    simp

def rect (font : FontDef) (cell : Cell) : Rect :=
  { left := cell.x.toNat, top := cell.y.toNat + topRow, width := font.width.toNat, height := font.height.toNat }

/-- The pixels of a character. -/
def glyph (font : FontDef) (color bgcolor : UInt16) (ch : Char) : Frame UInt16 := fun i j =>
  if lit (font.glyphRow ch i) j then color else bgcolor

theorem writeChar_eq (x y : UInt16) (ch : Char) (font : FontDef) (color bgcolor : UInt16) :
    writeChar x y ch font color bgcolor =
      lcdSetWindows x y (x + font.width.toUInt16 - 1) (y + font.height.toUInt16 - 1) ++ [.cs false] ++
        (rowOrder font.width.toNat font.height.toNat (glyph font color bgcolor ch)).flatMap
          fun colour => writeData [highByte colour, lowByte colour] := by
  simp only [writeChar, rowOrder, List.flatMap_assoc, List.flatMap_map]
  rfl

structure OnScreen (font : FontDef) (cell : Cell) : Prop where
  columns : cell.x.toNat + font.width.toNat ≤ screenWidth
  rows : cell.y.toNat + font.height.toNat ≤ screenHeight

theorem writeChar_exec (screen : Screen) (font : FontDef) (color bgcolor : UInt16) (cell : Cell)
    (wide : 0 < font.width.toNat) (tall : 0 < font.height.toNat) (fits : OnScreen font cell) :
    ((writeChar cell.x cell.y cell.ch font color bgcolor).foldl Screen.exec screen).memory =
      paint screen.memory (rect font cell) (glyph font color bgcolor cell.ch) := by
  have columns := fits.columns
  have rows := fits.rows
  simp only [screenWidth, screenHeight] at columns rows
  have top : (cell.y + 20).toNat = cell.y.toNat + topRow := by
    simp only [UInt16.toNat_add, UInt16.reduceToNat, topRow]
    omega
  have right : (cell.x + font.width.toUInt16 - 1).toNat = cell.x.toNat + font.width.toNat - 1 := by
    simp only [UInt16.toNat_sub, UInt16.toNat_add, UInt8.toNat_toUInt16, UInt16.reduceToNat]
    omega
  have bottom : (cell.y + font.height.toUInt16 - 1 + 20).toNat = cell.y.toNat + topRow + font.height.toNat - 1 := by
    simp only [UInt16.toNat_sub, UInt16.toNat_add, UInt8.toNat_toUInt16, UInt16.reduceToNat, topRow]
    omega
  have filled := Writer.fill (rect font cell) screen.memory (glyph font color bgcolor cell.ch) wide tall
  rw [writeChar_eq, List.foldl_append, List.foldl_append, lcdSetWindows_exec, top, right, bottom]
  simp only [List.foldl_cons, List.foldl_nil, Screen.exec]
  rw [pixels_exec _ _ rfl rfl]
  exact congrArg Writer.frame filled

private theorem cells_exec (screen : Screen) (font : FontDef) (color bgcolor : UInt16) (cells : List Cell)
    (wide : 0 < font.width.toNat) (tall : 0 < font.height.toNat) (fit : ∀ cell ∈ cells, OnScreen font cell) :
    ((cells.flatMap fun cell => writeChar cell.x cell.y cell.ch font color bgcolor).foldl Screen.exec screen).memory =
      paintAll screen.memory (cells.map fun cell => (rect font cell, glyph font color bgcolor cell.ch)) := by
  induction cells generalizing screen with
  | nil => rfl
  | cons cell cells ih =>
    have first := writeChar_exec screen font color bgcolor cell wide tall (fit cell List.mem_cons_self)
    rw [List.flatMap_cons, List.foldl_append, ih _ fun other member => fit other (List.mem_cons_of_mem _ member), first]
    rfl

section Loop
variable {σ : Type} (cut : σ → Char → Option σ) {width height : UInt8}

/-- A cell at or after a place in reading order. -/
def After (height : UInt8) (x y : UInt16) (cell : Cell) : Prop :=
  cell.y = y ∧ x.toNat ≤ cell.x.toNat ∨ y.toNat + height.toNat ≤ cell.y.toNat

/-- What a turn of the loop starts from: the line fits, and so does the next
cell unless the loop is about to wrap. -/
private theorem line (x y : UInt16) (narrow : width.toNat < screenWidth)
    (fits : y.toNat + height.toNat ≤ screenHeight) :
    let wraps := x.toNat + width.toNat ≥ screenWidth
    let column := if wraps then 0 else x
    let row := if wraps then y + height.toUInt16 else y
    ¬ (wraps ∧ row.toNat + height.toNat ≥ screenHeight) →
      column.toNat + width.toNat < screenWidth ∧ row.toNat + height.toNat ≤ screenHeight ∧
        (row = y ∧ column = x ∨ row.toNat = y.toNat + height.toNat) := by
  intro wraps column row stays
  have edges : screenWidth = 240 ∧ screenHeight = 280 := ⟨rfl, rfl⟩
  by_cases wrapped : x.toNat + width.toNat ≥ screenWidth
  · have moved : row.toNat = y.toNat + height.toNat := by
      simp only [row, wraps, wrapped, ite_true, UInt16.toNat_add, UInt8.toNat_toUInt16]
      omega
    have room : ¬ row.toNat + height.toNat ≥ screenHeight := fun full => stays ⟨wrapped, full⟩
    have start : column.toNat = 0 := by simp only [column, wraps, wrapped, ite_true, UInt16.reduceToNat]
    exact ⟨by omega, by omega, .inr moved⟩
  · have same : row = y := by simp only [row, wraps, wrapped, ite_false]
    have stay : column = x := by simp only [column, wraps, wrapped, ite_false]
    rw [same, stay]
    exact ⟨by omega, fits, .inl ⟨rfl, rfl⟩⟩

/-- Every cell lies on the screen, at or after the place the loop has reached,
and apart from the cells that follow it. -/
theorem textCells_spec (str : List Char) (x y : UInt16) (state : σ) (tall : 0 < height.toNat)
    (narrow : width.toNat < screenWidth) (fits : y.toNat + height.toNat ≤ screenHeight) :
    (∀ cell ∈ textCells cut width height str x y state,
      cell.x.toNat + width.toNat ≤ screenWidth ∧ cell.y.toNat + height.toNat ≤ screenHeight ∧
        After height x y cell) ∧
    (textCells cut width height str x y state).Pairwise fun one other =>
      After height (one.x + width.toUInt16) one.y other := by
  induction str generalizing x y state with
  | nil => exact ⟨fun _ member => absurd member List.not_mem_nil, .nil⟩
  | cons ch str ih =>
    simp only [textCells]
    have turn := line x y narrow fits
    simp only at turn
    generalize (if x.toNat + width.toNat ≥ screenWidth then 0 else x) = column at turn ⊢
    generalize (if x.toNat + width.toNat ≥ screenWidth then y + height.toUInt16 else y) = row at turn ⊢
    split
    next => exact ⟨fun _ member => absurd member List.not_mem_nil, .nil⟩
    next stays =>
      obtain ⟨inside, bottom, place⟩ := turn stays
      have later {column' : UInt16} (next : column.toNat ≤ column'.toNat) {cell : Cell}
          (after : After height column' row cell) : After height x y cell := by
        unfold After at *
        rcases place with ⟨rfl, rfl⟩ | below <;> rcases after with ⟨same, right⟩ | lower
        · exact .inl ⟨same, by omega⟩
        · exact .inr lower
        · exact .inr (by rw [same]; omega)
        · exact .inr (by omega)
      split
      next =>
        obtain ⟨cells, apart⟩ := ih column row state bottom
        exact ⟨fun cell member => ⟨(cells cell member).1, (cells cell member).2.1,
          later (Nat.le_refl _) (cells cell member).2.2⟩, apart⟩
      next =>
        split
        next => exact ⟨fun _ member => absurd member List.not_mem_nil, .nil⟩
        next state _ =>
          obtain ⟨cells, apart⟩ := ih (column + width.toUInt16) row state bottom
          have next : (column + width.toUInt16).toNat = column.toNat + width.toNat := by
            simp only [screenWidth, UInt16.toNat_add, UInt8.toNat_toUInt16] at *
            omega
          refine ⟨fun cell member => ?_, .cons (fun cell member => (cells cell member).2.2) apart⟩
          rcases List.mem_cons.mp member with rfl | member
          · exact ⟨Nat.le_of_lt inside, bottom, later (Nat.le_refl _) (.inl ⟨rfl, Nat.le_refl _⟩)⟩
          · exact ⟨(cells cell member).1, (cells cell member).2.1, later (by omega) (cells cell member).2.2⟩

private theorem textCells_length (str : List Char) (x y : UInt16) (state : σ) :
    (textCells cut width height str x y state).length ≤ str.length := by
  induction str generalizing x y state with
  | nil => exact Nat.le_refl _
  | cons ch str ih =>
    simp only [textCells]
    generalize (if x.toNat + width.toNat ≥ screenWidth then 0 else x) = column
    generalize (if x.toNat + width.toNat ≥ screenWidth then y + height.toUInt16 else y) = row
    split
    next => exact Nat.zero_le _
    next =>
      split
      next => exact Nat.le_succ_of_le (ih ..)
      next =>
        split
        next => exact Nat.zero_le _
        next => exact Nat.succ_le_succ (ih ..)

private theorem textCells_mem (str : List Char) (x y : UInt16) (state : σ) :
    ∀ cell ∈ textCells cut width height str x y state, cell.ch ∈ str ∧ cell.ch ≠ '\n' := by
  induction str generalizing x y state with
  | nil => exact fun cell drawn => absurd drawn List.not_mem_nil
  | cons ch str ih =>
    intro cell drawn
    simp only [textCells] at drawn
    generalize (if x.toNat + width.toNat ≥ screenWidth then 0 else x) = column at drawn
    generalize (if x.toNat + width.toNat ≥ screenWidth then y + height.toUInt16 else y) = row at drawn
    split at drawn
    next => cases drawn
    next =>
      split at drawn
      next => exact (ih _ _ _ cell drawn).imp_left (List.mem_cons_of_mem _)
      next shows =>
        split at drawn
        next => cases drawn
        next =>
          rcases List.mem_cons.mp drawn with rfl | later
          · exact ⟨List.mem_cons_self, fun newline => shows (.inr newline)⟩
          · exact (ih _ _ _ cell later).imp_left (List.mem_cons_of_mem _)

/-- What stands behind a text changes nothing of how it is drawn. -/
theorem textCells_subset (first rest : List Char) (x y : UInt16) (state : σ) :
    textCells cut width height first x y state ⊆ textCells cut width height (first ++ rest) x y state := by
  induction first generalizing x y state with
  | nil => exact List.nil_subset _
  | cons ch first ih =>
    simp only [List.cons_append, textCells]
    generalize (if x.toNat + width.toNat ≥ screenWidth then 0 else x) = column
    generalize (if x.toNat + width.toNat ≥ screenWidth then y + height.toUInt16 else y) = row
    split
    next => exact List.Subset.refl _
    next =>
      split
      next => exact ih ..
      next =>
        split
        next => exact List.Subset.refl _
        next => exact List.cons_subset_cons _ (ih ..)

/-- The cells of a text that stays on its line. -/
def rowCells (width : UInt8) (x y : UInt16) : List Char → List Cell
  | [] => []
  | ch :: str => ⟨x, y, ch⟩ :: rowCells width (x + width.toUInt16) y str

theorem rowCells_length (width : UInt8) (x y : UInt16) (str : List Char) :
    (rowCells width x y str).length = str.length := by
  induction str generalizing x with
  | nil => rfl
  | cons ch str ih => rw [rowCells, List.length_cons, List.length_cons, ih]

variable (width height)

theorem textCells_line (first rest : List Char) (x y : UInt16) (state left : σ)
    (room : x.toNat + width.toNat * first.length < screenWidth) (printable : '\n' ∉ first)
    (passes : first.foldlM cut state = some left) :
    textCells cut width height (first ++ rest) x y state = rowCells width x y first ++
      textCells cut width height rest (first.foldl (fun x _ => x + width.toUInt16) x) y left := by
  induction first generalizing x state with
  | nil => cases passes; rfl
  | cons ch first ih =>
    rw [List.foldlM_cons] at passes
    obtain ⟨next, passed, passes⟩ := Option.bind_eq_some_iff.mp passes
    obtain ⟨visible, printable⟩ := not_or.mp (mt List.mem_cons.mpr printable)
    rw [List.length_cons, Nat.mul_succ] at room
    have stays : ¬ x.toNat + width.toNat ≥ screenWidth := by omega
    have moved : (x + width.toUInt16).toNat = x.toNat + width.toNat := by
      simp only [screenWidth, UInt16.toNat_add, UInt8.toNat_toUInt16] at *
      omega
    have later := ih (x + width.toUInt16) next (by omega) printable passes
    simp only [List.cons_append, textCells, stays, false_and, ite_false, false_or, Ne.symm visible, passed, later]
    rfl

theorem textCells_row (str : List Char) (x y : UInt16) (state left : σ)
    (room : x.toNat + width.toNat * str.length < screenWidth) (printable : '\n' ∉ str)
    (passes : str.foldlM cut state = some left) :
    textCells cut width height str x y state = rowCells width x y str := by
  have whole := textCells_line cut width height str [] x y state left room printable passes
  simpa [textCells] using whole

end Loop

theorem cells_mem (routine : Routine) (width height : UInt8) (x y : UInt16) (str : List Char) :
    ∀ cell ∈ routine.cells width height x y str, cell.ch ∈ str ∧ cell.ch ≠ '\n' := by
  intro cell drawn
  cases routine with
  | writeString => exact textCells_mem _ str x y _ cell drawn
  | rtcSt7789Time => exact (textCells_mem _ _ x y _ cell drawn).imp_left List.mem_of_mem_drop
  | rtcSt7789Date => exact textCells_mem _ str x y _ cell drawn

/-- The memory after a text routine is the memory before it with exactly the
pixels of the given cells replaced. -/
structure Drawn (font : FontDef) (color bgcolor : UInt16) (cells : List Cell)
    (before after : Frame UInt16) : Prop where
  inside : ∀ cell ∈ cells, OnScreen font cell
  disjoint : cells.Pairwise fun one other => (rect font one).Apart (rect font other)
  replaced : ∀ cell ∈ cells, ∀ i < font.height.toNat, ∀ j < font.width.toNat,
    after (cell.y.toNat + i + topRow) (cell.x.toNat + j) = if lit (font.glyphRow cell.ch i) j then color else bgcolor
  kept : ∀ row column, (∀ cell ∈ cells, ¬ (rect font cell).Covers row column) → after row column = before row column

theorem cells_spec (routine : Routine) (font : FontDef) (x y : UInt16) (str : List Char)
    (tall : 0 < font.height.toNat) (narrow : font.width.toNat < screenWidth)
    (fits : y.toNat + font.height.toNat ≤ screenHeight) :
    (∀ cell ∈ routine.cells font.width font.height x y str, OnScreen font cell) ∧
      (routine.cells font.width font.height x y str).Pairwise fun one other =>
        After font.height (one.x + font.width.toUInt16) one.y other := by
  have spec {σ : Type} (cut : σ → Char → Option σ) (str : List Char) (state : σ) :=
    textCells_spec cut str x y state tall narrow fits
  cases routine <;> exact ⟨fun cell member => ⟨((spec ..).1 cell member).1, ((spec ..).1 cell member).2.1⟩, (spec ..).2⟩

private theorem apart_of_after {font : FontDef} {one other : Cell} (inside : OnScreen font one)
    (after : After font.height (one.x + font.width.toUInt16) one.y other) :
    (rect font one).Apart (rect font other) := by
  have columns := inside.columns
  have right : (one.x + font.width.toUInt16).toNat = one.x.toNat + font.width.toNat := by
    simp only [screenWidth, UInt16.toNat_add, UInt8.toNat_toUInt16] at *
    omega
  rcases after with ⟨_, beside⟩ | below
  · exact Rect.apart_of_columns (by simp only [rect]; omega)
  · exact Rect.apart_of_rows (by simp only [rect]; omega)

theorem cells_below (routine : Routine) (font : FontDef) (x y : UInt16) (str : List Char)
    (tall : 0 < font.height.toNat) (narrow : font.width.toNat < screenWidth)
    (fits : y.toNat + font.height.toNat ≤ screenHeight) :
    ∀ cell ∈ routine.cells font.width font.height x y str, y.toNat ≤ cell.y.toNat := by
  have spec {σ : Type} (cut : σ → Char → Option σ) (str : List Char) (state : σ) :
      ∀ cell ∈ textCells cut font.width font.height str x y state, y.toNat ≤ cell.y.toNat := by
    intro cell member
    rcases ((textCells_spec cut str x y state tall narrow fits).1 cell member).2.2 with ⟨same, _⟩ | below
    · exact Nat.le_of_eq (congrArg UInt16.toNat same.symm)
    · omega
  cases routine <;> exact spec _ _ _

theorem draw_exec (routine : Routine) (font : FontDef) (x y : UInt16) (str : List Char) (color bgcolor : UInt16)
    (screen : Screen) (wide : 0 < font.width.toNat) (narrow : font.width.toNat < screenWidth)
    (tall : 0 < font.height.toNat) (fits : y.toNat + font.height.toNat ≤ screenHeight) :
    ((routine.draw x y str font color bgcolor).foldl Screen.exec screen).memory =
      paintAll screen.memory ((routine.cells font.width font.height x y str).map
        fun cell => (rect font cell, glyph font color bgcolor cell.ch)) := by
  rw [Routine.draw, List.foldl_append, List.foldl_append]
  exact cells_exec { screen with cs := false } font color bgcolor _ wide tall
    (cells_spec routine font x y str tall narrow fits).1

/-- All three text routines draw only on the screen, no pixel twice, and change
nothing but the cells they draw. They draw at most one cell for a character. -/
theorem text_drawn (routine : Routine) (font : FontDef) (x y : UInt16) (str : List Char) (color bgcolor : UInt16)
    (screen : Screen) (wide : 0 < font.width.toNat) (narrow : font.width.toNat < screenWidth)
    (tall : 0 < font.height.toNat) (fits : y.toNat + font.height.toNat ≤ screenHeight)
    (_long : routine = .rtcSt7789Time → 11 ≤ str.length) :
    (routine.cells font.width font.height x y str).length ≤ str.length ∧
      Drawn font color bgcolor (routine.cells font.width font.height x y str) screen.memory
        ((routine.draw x y str font color bgcolor).foldl Screen.exec screen).memory := by
  obtain ⟨inside, order⟩ := cells_spec routine font x y str tall narrow fits
  have disjoint : (routine.cells font.width font.height x y str).Pairwise fun one other =>
      (rect font one).Apart (rect font other) :=
    order.imp_of_mem fun member _ after => apart_of_after (inside _ member) after
  have painted := draw_exec routine font x y str color bgcolor screen wide narrow tall fits
  refine ⟨?_, inside, disjoint, fun cell member i low j left => ?_, fun row column outside => ?_⟩
  · cases routine
    · exact textCells_length ..
    · exact Nat.le_trans (textCells_length ..) (by rw [List.length_drop]; omega)
    · exact textCells_length ..
  · have covers : (rect font cell).Covers (cell.y.toNat + i + topRow) (cell.x.toNat + j) := by
      simp only [Rect.Covers, rect]
      omega
    have found := paintAll_inside screen.memory (List.pairwise_map.mpr disjoint)
      (List.mem_map_of_mem (f := fun cell => (rect font cell, glyph font color bgcolor cell.ch)) member) covers
    rw [painted, found]
    change glyph font color bgcolor cell.ch (cell.y.toNat + i + topRow - (cell.y.toNat + topRow))
      (cell.x.toNat + j - cell.x.toNat) = _
    rw [show cell.y.toNat + i + topRow - (cell.y.toNat + topRow) = i by omega, Nat.add_sub_cancel_left]
    rfl
  · rw [painted]
    apply paintAll_outside
    intro part member
    obtain ⟨cell, drawn, rfl⟩ := List.mem_map.mp member
    exact outside cell drawn

/-- Both sides of the last lit column of the first digit, from a dark screen. -/
theorem text_drawn_time : [55, 56].map (((rtcSt7789Time 40 60 "Tue Jun 14 22:31:44 2022\n".toList
      ⟨20, 50, fun _ => 0xffff⟩ 0x07e0 0).foldl Screen.exec
        ⟨true, true, ⟨⟨fun _ _ => 0, 0, 0⟩, ⟨0, 0, 0, 0⟩, .nothing⟩⟩).memory 80) = [0x07e0, 0] := by
  have drawn :=
    (text_drawn .rtcSt7789Time ⟨20, 50, fun _ => 0xffff⟩ 40 60 "Tue Jun 14 22:31:44 2022\n".toList 0x07e0 0
    ⟨true, true, ⟨⟨fun _ _ => 0, 0, 0⟩, ⟨0, 0, 0, 0⟩, .nothing⟩⟩ (by decide) (by decide) (by decide) (by decide)
    (fun _ => by decide)).2
  have first := drawn.replaced ⟨40, 60, '2'⟩ (by decide) 0 (by decide)
  have left := (first 15 (by decide)).trans (show _ = (0x07e0 : UInt16) by decide)
  have right := (first 16 (by decide)).trans (show _ = (0 : UInt16) by decide)
  exact List.cons_eq_cons.mpr ⟨left, List.cons_eq_cons.mpr ⟨right, rfl⟩⟩

end SmartWatch.Proofs.Panel
