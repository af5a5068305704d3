import SmartWatch.Proofs.Panel

/-! `FillRectangle` for every 16-bit corner, size and colour: which pixels of the
panel it changes and what it sends. An empty rectangle opens a reversed or wrapped
window and sends no pixel into it. -/

namespace SmartWatch.Proofs.Rectangle
open Raster SmartWatch.Proofs.Panel

/-- The part of the rectangle that lies on the screen. -/
def visible (x y w h : UInt16) : Rect :=
  { left := x.toNat, top := y.toNat
    width := min screenWidth (x.toNat + w.toNat) - x.toNat
    height := min screenHeight (y.toNat + h.toNat) - y.toNat }

theorem visible_covers (x y w h : UInt16) (row column : Nat) : (visible x y w h).Covers row column ↔
    (row < screenHeight ∧ column < screenWidth) ∧
      (x.toNat ≤ column ∧ column < x.toNat + w.toNat) ∧ y.toNat ≤ row ∧ row < y.toNat + h.toNat := by
  simp only [Rect.Covers, visible]
  omega

def dataAfter (sent : List UInt8) : Op → List UInt8
  | .send true _ => []
  | .send false byte => sent ++ [byte]
  | _ => sent

/-- The bytes sent after the last command. -/
def dataSent (ops : List Op) : List UInt8 := ops.foldl dataAfter []

def pixel (color : UInt16) : List Op := [.send false (highByte color), .send false (lowByte color)]

/-- The window and the two loops, once the size is clipped. -/
def filled (x y width height color : UInt16) : List Op :=
  lcdSetWindows x y (x + width - 1) (y + height - 1) ++ [.cs false, .dc true] ++
    (List.replicate (height.toNat * width.toNat) (pixel color)).flatten ++ [.cs true, .dc false]

private theorem loops (height width : Nat) (ops : List Op) :
    (List.replicate height (List.replicate width ops).flatten).flatten =
    (List.replicate (height * width) ops).flatten := by
  rw [← List.flatten_replicate_replicate, List.flatten_flatten, List.map_replicate]

private theorem clip (edge : UInt16) {corner size : UInt16} (inside : corner.toNat < edge.toNat) :
    (if (corner.toNat + size.toNat : Int) - 1 ≥ (edge.toNat : Nat) then edge - corner else size).toNat =
      min edge.toNat (corner.toNat + size.toNat) - corner.toNat := by
  have wide := edge.toNat_lt
  split
  next beyond =>
    rw [UInt16.toNat_sub_of_le edge corner (UInt16.le_iff_toNat_le.mpr (by omega))]
    omega
  next => omega

theorem fillRectangle_eq {x y : UInt16} (w h color : UInt16) (columns : x.toNat < screenWidth)
    (rows : y.toNat < screenHeight) :
    ∃ width height : UInt16, fillRectangle x y w h color = filled x y width height color ∧
      width.toNat = (visible x y w h).width ∧ height.toNat = (visible x y w h).height := by
  have onScreen : ¬ (x.toNat ≥ screenWidth ∨ y.toNat ≥ screenHeight) := by omega
  refine ⟨_, _, ?_, clip 240 columns, clip 280 rows⟩
  rw [fillRectangle, if_neg onScreen, filled, ← loops]
  rfl

theorem fillRectangle_off {x y : UInt16} (w h color : UInt16)
    (off : ¬ (x.toNat < screenWidth ∧ y.toNat < screenHeight)) :
    fillRectangle x y w h color = [] := by
  rw [fillRectangle, if_pos (by omega)]

theorem pixels_sent (color : UInt16) (count : Nat) (screen : Screen) (data : screen.dc = true)
    (low : screen.cs = false) (waiting : screen.panel.receiving = .pixels none) :
    (List.replicate count (pixel color)).flatten.foldl Screen.exec screen =
      { screen with panel := { screen.panel with
        writer := (List.replicate count color).foldl (Writer.put screen.panel.window) screen.panel.writer } } := by
  induction count generalizing screen with
  | zero => rfl
  | succ count ih =>
    obtain ⟨dc, cs, writer, window, receiving⟩ := screen
    cases data
    cases low
    cases waiting
    have one : (pixel color).foldl Screen.exec ⟨true, false, ⟨writer, window, .pixels none⟩⟩ =
        ⟨true, false, ⟨writer.put window color, window, .pixels none⟩⟩ :=
      congrArg (fun pixel => Screen.mk true false ⟨writer.put window pixel, window, .pixels none⟩) (word_bytes color)
    rw [List.replicate_succ, List.flatten_cons, List.foldl_append, one, ih _ rfl rfl rfl]
    rfl

theorem solid_rows (width height : Nat) (color : UInt16) :
    rowOrder width height (fun _ _ => color) = List.replicate (height * width) color := by
  apply List.eq_replicate_iff.mpr
  refine ⟨rowOrder_length width height _, fun value member => ?_⟩
  obtain ⟨row, _, member⟩ := List.mem_flatMap.mp member
  obtain ⟨column, _, same⟩ := List.mem_map.mp member
  exact same.symm

theorem filled_exec {x y width height : UInt16} (color : UInt16) (screen : Screen)
    (columns : x.toNat + width.toNat ≤ screenWidth) (rows : y.toNat + height.toNat ≤ screenHeight) :
    ((filled x y width height color).foldl Screen.exec screen).memory =
      paint screen.memory ⟨x.toNat, y.toNat + topRow, width.toNat, height.toNat⟩ fun _ _ => color := by
  simp only [filled, List.foldl_append, lcdSetWindows_exec, List.foldl_cons, List.foldl_nil, Screen.exec]
  rw [pixels_sent color _ _ rfl rfl rfl]
  by_cases empty : height.toNat * width.toNat = 0
  · funext row column
    have nothing : ¬ (Rect.mk x.toNat (y.toNat + topRow) width.toNat height.toNat).Covers row column := by
      rcases Nat.mul_eq_zero.mp empty with none | none <;> simp only [Rect.Covers, none] <;> omega
    rw [empty, paint, if_neg nothing]
    rfl
  · have tall : 0 < height.toNat := Nat.pos_of_ne_zero fun none => empty (by rw [none, Nat.zero_mul])
    have wide : 0 < width.toNat := Nat.pos_of_ne_zero fun none => empty (by rw [none, Nat.mul_zero])
    simp only [screenWidth, screenHeight] at columns rows
    have top : (y + 20).toNat = y.toNat + topRow := by
      simp only [UInt16.toNat_add, UInt16.reduceToNat, topRow]
      omega
    have right : (x + width - 1).toNat = x.toNat + width.toNat - 1 := by
      simp only [UInt16.toNat_sub, UInt16.toNat_add, UInt16.reduceToNat]
      omega
    have bottom : (y + height - 1 + 20).toNat = y.toNat + topRow + height.toNat - 1 := by
      simp only [UInt16.toNat_sub, UInt16.toNat_add, UInt16.reduceToNat, topRow]
      omega
    have fills :=
      Writer.fill ⟨x.toNat, y.toNat + topRow, width.toNat, height.toNat⟩ screen.memory (fun _ _ => color) wide tall
    rw [solid_rows] at fills
    rw [top, right, bottom]
    exact congrArg Writer.frame fills

theorem filled_sent (x y width height color : UInt16) : dataSent (filled x y width height color) =
    (List.replicate (height.toNat * width.toNat) [highByte color, lowByte color]).flatten := by
  have window (sent : List UInt8) : (lcdSetWindows x y (x + width - 1) (y + height - 1)).foldl dataAfter sent = [] :=
    rfl
  have pixels (count : Nat) (sent : List UInt8) : (List.replicate count (pixel color)).flatten.foldl dataAfter sent =
      sent ++ (List.replicate count [highByte color, lowByte color]).flatten := by
    induction count generalizing sent with
    | zero => exact (List.append_nil sent).symm
    | succ count ih =>
      rw [List.replicate_succ, List.flatten_cons, List.foldl_append, ih, List.replicate_succ, List.flatten_cons]
      simp only [pixel, List.foldl_cons, List.foldl_nil, dataAfter, List.append_assoc]
      rfl
  simp only [dataSent, filled, List.foldl_append, window, pixels, List.foldl_cons, List.foldl_nil, dataAfter, List.nil_append]

/-- Exactly the pixels of the screen that lie in the rectangle take the colour,
and two bytes are sent for each of them. -/
theorem fillRectangle_drawn (x y w h color : UInt16) (screen : Screen) :
    (∀ row column, ((fillRectangle x y w h color).foldl Screen.exec screen).memory (row + topRow) column =
      if (row < screenHeight ∧ column < screenWidth) ∧
          (x.toNat ≤ column ∧ column < x.toNat + w.toNat) ∧ y.toNat ≤ row ∧ row < y.toNat + h.toNat
        then color else screen.memory (row + topRow) column) ∧
    (∀ row < topRow, ((fillRectangle x y w h color).foldl Screen.exec screen).memory row = screen.memory row) ∧
    dataSent (fillRectangle x y w h color) =
      (List.replicate ((visible x y w h).height * (visible x y w h).width)
        [highByte color, lowByte color]).flatten := by
  by_cases inside : x.toNat < screenWidth ∧ y.toNat < screenHeight
  · obtain ⟨columns, rows⟩ := inside
    obtain ⟨width, height, ops, wide, tall⟩ := fillRectangle_eq w h color columns rows
    have fits : x.toNat + width.toNat ≤ screenWidth ∧ y.toNat + height.toNat ≤ screenHeight := by
      rw [wide, tall]
      simp only [visible]
      omega
    rw [ops, filled_exec color screen fits.1 fits.2, filled_sent, wide, tall]
    refine ⟨fun row column => ?_, fun row above => ?_, rfl⟩
    · have same := visible_covers x y w h row column
      have moved : (Rect.mk x.toNat (y.toNat + topRow) (visible x y w h).width (visible x y w h).height).Covers
          (row + topRow) column ↔ (visible x y w h).Covers row column := by
        simp only [Rect.Covers, visible]
        omega
      simp only [paint, moved, same]
    · funext column
      have outside : ¬ (Rect.mk x.toNat (y.toNat + topRow) (visible x y w h).width (visible x y w h).height).Covers
          row column := by
        simp only [Rect.Covers]
        omega
      rw [paint, if_neg outside]
  · rw [fillRectangle_off w h color inside]
    have nothing : (visible x y w h).height * (visible x y w h).width = 0 := by
      apply Nat.mul_eq_zero.mpr
      simp only [visible]
      omega
    refine ⟨fun row column => ?_, fun _ _ => rfl, by rw [nothing]; rfl⟩
    have outside : ¬ ((row < screenHeight ∧ column < screenWidth) ∧
        (x.toNat ≤ column ∧ column < x.toNat + w.toNat) ∧ y.toNat ≤ row ∧ row < y.toNat + h.toNat) := by omega
    rw [if_neg outside]
    rfl

end SmartWatch.Proofs.Rectangle
