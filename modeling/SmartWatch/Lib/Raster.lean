/-! Frames of pixels addressed by row and column, rectangles of a frame, and the
writer of a display controller, which fills a window in row order. -/

namespace Raster

variable {α : Type u}

abbrev Frame (α : Type u) := Nat → Nat → α

structure Rect where
  left : Nat
  top : Nat
  width : Nat
  height : Nat
deriving DecidableEq, Repr

def Rect.Covers (rect : Rect) (row column : Nat) : Prop :=
  (rect.top ≤ row ∧ row < rect.top + rect.height) ∧ rect.left ≤ column ∧ column < rect.left + rect.width

instance (rect : Rect) (row column : Nat) : Decidable (rect.Covers row column) :=
  inferInstanceAs (Decidable (_ ∧ _))

def Rect.Apart (one other : Rect) : Prop := ∀ row column, one.Covers row column → ¬ other.Covers row column

theorem Rect.apart_of_columns {one other : Rect} (beside : one.left + one.width ≤ other.left) : one.Apart other := by
  intro row column first second
  unfold Covers at first second
  omega

theorem Rect.apart_of_rows {one other : Rect} (below : one.top + one.height ≤ other.top) : one.Apart other := by
  intro row column first second
  unfold Covers at first second
  omega

def paint (frame : Frame α) (rect : Rect) (image : Frame α) : Frame α := fun row column =>
  if rect.Covers row column then image (row - rect.top) (column - rect.left) else frame row column

def paintAll (frame : Frame α) (parts : List (Rect × Frame α)) : Frame α :=
  parts.foldl (fun frame part => paint frame part.1 part.2) frame

theorem paintAll_outside (frame : Frame α) {parts : List (Rect × Frame α)} {row column : Nat}
    (outside : ∀ part ∈ parts, ¬ part.1.Covers row column) : paintAll frame parts row column = frame row column := by
  induction parts generalizing frame with
  | nil => rfl
  | cons part parts ih =>
    have first : ¬ part.1.Covers row column := outside part List.mem_cons_self
    apply (ih (paint frame part.1 part.2) fun other member => outside other (List.mem_cons_of_mem _ member)).trans
    simp only [paint, first, ite_false]

/-- Of rectangles that are pairwise apart each shows its own image at the end. -/
theorem paintAll_inside (frame : Frame α) {parts : List (Rect × Frame α)}
    (apart : parts.Pairwise fun one other => one.1.Apart other.1) {part : Rect × Frame α} (member : part ∈ parts)
    {row column : Nat} (covers : part.1.Covers row column) :
    paintAll frame parts row column = part.2 (row - part.1.top) (column - part.1.left) := by
  induction parts generalizing frame with
  | nil => cases member
  | cons first parts ih =>
    obtain ⟨away, rest⟩ := List.pairwise_cons.mp apart
    rcases List.mem_cons.mp member with rfl | later
    · have kept := paintAll_outside (paint frame part.1 part.2)
        fun other inside => away other inside row column covers
      apply kept.trans
      simp only [paint, covers, ite_true]
    · exact ih (paint frame first.1 first.2) rest later

theorem paintAll_uniform (frame : Frame α) {parts : List (Rect × Frame α)} {pixel : α}
    (uniform : ∀ part ∈ parts, part.2 = fun _ _ => pixel) {row column : Nat}
    (covered : ∃ part ∈ parts, part.1.Covers row column) : paintAll frame parts row column = pixel := by
  induction parts generalizing frame with
  | nil =>
    obtain ⟨_, member, _⟩ := covered
    exact absurd member List.not_mem_nil
  | cons first parts ih =>
    have rest := fun part member => uniform part (List.mem_cons_of_mem first member)
    by_cases later : ∃ part ∈ parts, part.1.Covers row column
    · exact ih (paint frame first.1 first.2) rest later
    · obtain ⟨part, member, covers⟩ := covered
      rcases List.mem_cons.mp member with rfl | member
      · have kept :=
          paintAll_outside (paint frame part.1 part.2) fun other member covers => later ⟨other, member, covers⟩
        apply kept.trans
        simp only [paint, covers, ite_true, uniform part List.mem_cons_self]
      · exact absurd ⟨part, member, covers⟩ later

/-- A window, its last row and column included. -/
structure Window where
  left : Nat
  top : Nat
  right : Nat
  bottom : Nat
deriving DecidableEq, Repr

def Rect.window (rect : Rect) : Window :=
  { left := rect.left, top := rect.top, right := rect.left + rect.width - 1, bottom := rect.top + rect.height - 1 }

structure Writer (α : Type u) where
  frame : Frame α
  row : Nat
  column : Nat

/-- Writing a pixel moves along the row, then to the next row, and from the last
pixel of the window back to its corner. -/
def Writer.put (window : Window) (writer : Writer α) (pixel : α) : Writer α where
  frame := fun row column => if row = writer.row ∧ column = writer.column then pixel else writer.frame row column
  row := if writer.column < window.right then writer.row
    else if writer.row < window.bottom then writer.row + 1 else window.top
  column := if writer.column < window.right then writer.column + 1 else window.left

/-- The pixels of an image of the given size, row after row. -/
def rowOrder (width height : Nat) (image : Frame α) : List α :=
  (List.range height).flatMap fun row => (List.range width).map (image row)

theorem rowOrder_length (width height : Nat) (image : Frame α) : (rowOrder width height image).length = height * width := by
  simp [rowOrder, List.length_flatMap, List.map_const']

private theorem Writer.put_row (window : Window) (frame : Frame α) (row start count : Nat) (pixel : Nat → α)
    (ends : window.left + start + count = window.right) :
    ((List.range' start (count + 1)).map pixel).foldl (put window) ⟨frame, row, window.left + start⟩ =
      ⟨fun r c => if r = row ∧ window.left + start ≤ c ∧ c ≤ window.right then pixel (c - window.left) else frame r c,
        if row < window.bottom then row + 1 else window.top, window.left⟩ := by
  induction count generalizing frame start with
  | zero =>
    have last : ¬ window.left + start < window.right := by omega
    simp only [List.range', List.map_cons, List.map_nil, List.foldl_cons, List.foldl_nil, put, last, ite_false,
      Writer.mk.injEq, and_true]
    funext r c
    have same : (r = row ∧ c = window.left + start) ↔ r = row ∧ window.left + start ≤ c ∧ c ≤ window.right := by omega
    simp only [same]
    split
    next inside => rw [show c - window.left = start by omega]
    next => rfl
  | succ count ih =>
    have more : window.left + start < window.right := by omega
    rw [List.range'_succ, List.map_cons, List.foldl_cons]
    simp only [put, more, ite_true]
    rw [show window.left + start + 1 = window.left + (start + 1) by omega, ih _ (start + 1) (by omega)]
    simp only [Writer.mk.injEq, and_true]
    funext r c
    by_cases first : r = row ∧ c = window.left + start
    · obtain ⟨rfl, rfl⟩ := first
      have skipped : ¬ window.left + (start + 1) ≤ window.left + start := by omega
      have reached : window.left + start ≤ window.right := by omega
      simp only [skipped, false_and, and_false, ite_false, and_self, ite_true, reached, Nat.le_refl]
      rw [show window.left + start - window.left = start by omega]
    · have same : (r = row ∧ window.left + (start + 1) ≤ c ∧ c ≤ window.right) ↔
          r = row ∧ window.left + start ≤ c ∧ c ≤ window.right := by omega
      simp only [same, first, ite_false]

private theorem Writer.put_full_row (rect : Rect) (frame : Frame α) (row : Nat) (pixel : Nat → α) (wide : 0 < rect.width) :
    ((List.range rect.width).map pixel).foldl (put rect.window) ⟨frame, row, rect.left⟩ =
      ⟨fun r c => if r = row ∧ rect.left ≤ c ∧ c < rect.left + rect.width then pixel (c - rect.left) else frame r c,
        if row < rect.window.bottom then row + 1 else rect.top, rect.left⟩ := by
  have filled := put_row rect.window frame row 0 (rect.width - 1) pixel (by simp only [Rect.window]; omega)
  rw [Nat.sub_add_cancel wide, ← List.range_eq_range', Nat.add_zero] at filled
  apply filled.trans
  simp only [Writer.mk.injEq]
  refine ⟨?_, rfl, rfl⟩
  funext r c
  have same : c ≤ rect.window.right ↔ c < rect.left + rect.width := by simp only [Rect.window]; omega
  simp only [same]
  rfl

private theorem Writer.put_rows (rect : Rect) (frame : Frame α) (image : Frame α) (start count : Nat)
    (wide : 0 < rect.width) (ends : start + count + 1 = rect.height) :
    ((List.range' start (count + 1)).flatMap fun row => (List.range rect.width).map (image row)).foldl
        (put rect.window) ⟨frame, rect.top + start, rect.left⟩ =
      ⟨fun r c => if rect.top + start ≤ r ∧ rect.Covers r c then image (r - rect.top) (c - rect.left) else frame r c,
        rect.top, rect.left⟩ := by
  induction count generalizing frame start with
  | zero =>
    have last : ¬ rect.top + start < rect.window.bottom := by simp only [Rect.window]; omega
    simp only [List.range', List.flatMap_cons, List.flatMap_nil, List.append_nil, put_full_row _ _ _ _ wide, last, ite_false]
    refine Writer.mk.injEq .. |>.mpr ⟨?_, rfl, rfl⟩
    funext r c
    have same : (r = rect.top + start ∧ rect.left ≤ c ∧ c < rect.left + rect.width) ↔
        rect.top + start ≤ r ∧ rect.Covers r c := by
      unfold Rect.Covers
      omega
    simp only [same]
    split
    next inside =>
      obtain ⟨low, ⟨_, _⟩, _⟩ := inside
      rw [show r - rect.top = start by omega]
    next => rfl
  | succ count ih =>
    have more : rect.top + start < rect.window.bottom := by simp only [Rect.window]; omega
    rw [List.range'_succ, List.flatMap_cons, List.foldl_append, put_full_row _ _ _ _ wide]
    simp only [more, ite_true]
    rw [show rect.top + start + 1 = rect.top + (start + 1) by omega]
    apply (ih _ (start + 1) (by omega)).trans
    simp only [Writer.mk.injEq, and_true]
    funext r c
    by_cases first : r = rect.top + start
    · subst first
      have skipped : ¬ rect.top + (start + 1) ≤ rect.top + start := by omega
      have same : (rect.left ≤ c ∧ c < rect.left + rect.width) ↔ rect.Covers (rect.top + start) c := by
        unfold Rect.Covers
        omega
      simp only [skipped, false_and, ite_false, true_and, same, Nat.le_refl]
      rw [show rect.top + start - rect.top = start by omega]
    · have same : rect.top + (start + 1) ≤ r ∧ rect.Covers r c ↔ rect.top + start ≤ r ∧ rect.Covers r c := by
        unfold Rect.Covers
        omega
      simp only [same, first, false_and, ite_false]

/-- As many pixels as the window holds replace exactly the window, and the
writer is back at the corner. -/
theorem Writer.fill (rect : Rect) (frame : Frame α) (image : Frame α) (wide : 0 < rect.width) (tall : 0 < rect.height) :
    (rowOrder rect.width rect.height image).foldl (put rect.window) ⟨frame, rect.top, rect.left⟩ =
      ⟨paint frame rect image, rect.top, rect.left⟩ := by
  have filled := put_rows rect frame image 0 (rect.height - 1) wide (by omega)
  rw [Nat.sub_add_cancel tall, ← List.range_eq_range', Nat.add_zero] at filled
  apply filled.trans
  simp only [Writer.mk.injEq, and_true]
  funext r c
  have same : rect.top ≤ r ∧ rect.Covers r c ↔ rect.Covers r c := by
    unfold Rect.Covers
    omega
  simp only [same, paint]

end Raster
