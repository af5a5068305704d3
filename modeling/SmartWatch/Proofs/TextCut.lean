import SmartWatch.Display
import SmartWatch.Lib.Cutting

/-! Which characters of a string the cutting text routines draw. A space that
meets the right edge is skipped before it is counted, so the cut depends on the
layout as well. -/

namespace SmartWatch.Proofs.TextCut
open Cutting

section Layout
variable (width : UInt8)

def Wraps (x : UInt16) : Prop := x.toNat + width.toNat ≥ screenWidth

instance (x : UInt16) : Decidable (Wraps width x) := inferInstanceAs (Decidable (_ ≥ _))

def column (x : UInt16) : UInt16 := if Wraps width x then 0 else x

/-- The characters that are skipped: a space at the start of a wrapped line, and
every newline. -/
def Dropped (x : UInt16) (ch : Char) : Prop := Wraps width x ∧ ch = ' ' ∨ ch = '\n'

instance (x : UInt16) (ch : Char) : Decidable (Dropped width x ch) := inferInstanceAs (Decidable (_ ∨ _))

def next (x : UInt16) (ch : Char) : UInt16 :=
  if Dropped width x ch then column width x else column width x + width.toUInt16

/-- What a text without end draws from the column on. -/
def kept : UInt16 → List Char → List Char
  | _, [] => []
  | x, ch :: str => if Dropped width x ch then kept (next width x ch) str else ch :: kept (next width x ch) str

theorem kept_append (x : UInt16) (first rest : List Char) :
    kept width x (first ++ rest) = kept width x first ++ kept width (first.foldl (next width) x) rest := by
  induction first generalizing x with
  | nil => rfl
  | cons ch first ih =>
    rw [List.cons_append, kept, kept, ih]
    split <;> rfl

end Layout

section Loop
variable {σ : Type} (cut : σ → Char → Option σ) (width height : UInt8)

/-- What is drawn of the characters the loop is left with. -/
def taken : σ → List Char → List Char
  | _, [] => []
  | state, ch :: str =>
    match cut state ch with
    | none => []
    | some state => ch :: taken state str

def Roomy : UInt16 → UInt16 → σ → List Char → Prop
  | _, _, _, [] => True
  | x, y, state, ch :: str =>
    let row := if Wraps width x then y + height.toUInt16 else y
    ¬ (Wraps width x ∧ row.toNat + height.toNat ≥ screenHeight) ∧
      if Dropped width x ch then Roomy (next width x ch) row state str
      else ∀ after ∈ cut state ch, Roomy (next width x ch) row after str

instance Roomy.decidable : ∀ x y state str, Decidable (Roomy cut width height x y state str)
  | _, _, _, [] => inferInstanceAs (Decidable True)
  | x, _, state, ch :: str =>
    have := fun y state => Roomy.decidable (next width x ch) y state str
    inferInstanceAs (Decidable (¬ (Wraps width x ∧ _) ∧
      if Dropped width x ch then _ else ∀ after ∈ cut state ch, Roomy cut width height (next width x ch) _ after str))

private theorem textCells_turn {x y : UInt16} {state : σ} {ch : Char} {str : List Char}
    (room : ¬ (Wraps width x ∧ (if Wraps width x then y + height.toUInt16 else y).toNat +
      height.toNat ≥ screenHeight)) :
    textCells cut width height (ch :: str) x y state =
      let row := if Wraps width x then y + height.toUInt16 else y
      if Dropped width x ch then textCells cut width height str (next width x ch) row state
      else match cut state ch with
        | none => []
        | some state => ⟨column width x, row, ch⟩ :: textCells cut width height str (next width x ch) row state := by
  rw [textCells]
  refine (if_neg room).trans ?_
  dsimp only
  by_cases dropped : Dropped width x ch
  · refine (if_pos dropped).trans ?_
    rw [if_pos dropped, next, if_pos dropped]
    rfl
  · refine (if_neg dropped).trans ?_
    rw [if_neg dropped, next, if_neg dropped]
    rfl

private theorem textCells_chars {x y : UInt16} {state : σ} {str : List Char}
    (roomy : Roomy cut width height x y state str) :
    (textCells cut width height str x y state).map Cell.ch = taken cut state (kept width x str) := by
  induction str generalizing x y state with
  | nil => rfl
  | cons ch str ih =>
    obtain ⟨room, rest⟩ := roomy
    rw [textCells_turn cut width height room, kept]
    dsimp only at rest ⊢
    split at rest
    next dropped =>
      rw [if_pos dropped, if_pos dropped]
      exact ih rest
    next drawn =>
      rw [if_neg drawn, if_neg drawn, taken]
      cases passed : cut state ch with
      | none => rfl
      | some after => rw [List.map_cons, ih (rest after passed)]

theorem Roomy.initial_part {x y : UInt16} {state : σ} {first rest : List Char}
    (roomy : Roomy cut width height x y state (first ++ rest)) : Roomy cut width height x y state first := by
  induction first generalizing x y state with
  | nil => trivial
  | cons ch first ih =>
    obtain ⟨room, later⟩ := roomy
    refine ⟨room, ?_⟩
    split at later
    next dropped =>
      rw [if_pos dropped]
      exact ih later
    next drawn =>
      rw [if_neg drawn]
      exact fun after passed => ih (later after passed)

end Loop

def space (ch : Char) : Bool := ch = ' '

def timeCut (_ : Unit) (ch : Char) : Option Unit := if ch = ' ' then none else some ()

def dateCut (i : Nat) (ch : Char) :
    Option Nat := if ch = ' ' then (if i + 1 ≥ 4 then none else some (i + 1)) else some i

private theorem taken_time (str : List Char) : taken timeCut () str = before space 1 str := by
  induction str with
  | nil => rfl
  | cons ch str ih =>
    rw [taken, before, timeCut]
    by_cases blank : ch = ' '
    · simp only [blank, space, decide_true, if_true]
    · simp only [blank, space, decide_false, Bool.false_eq_true, if_false, ih]

private theorem taken_date {i : Nat} (few : i < 4) (str : List Char) :
    taken dateCut i str = before space (4 - i) str := by
  induction str generalizing i with
  | nil =>
    obtain ⟨left, same⟩ : ∃ left, 4 - i = left + 1 := ⟨3 - i, by omega⟩
    rw [same]
    rfl
  | cons ch str ih =>
    obtain ⟨left, same⟩ : ∃ left, 4 - i = left + 1 := ⟨3 - i, by omega⟩
    rw [taken, same, before, dateCut]
    by_cases blank : ch = ' '
    · by_cases last : left = 0
      · have full : i + 1 ≥ 4 := by omega
        simp only [blank, space, last, full, decide_true, if_true]
      · have more : ¬ i + 1 ≥ 4 := by omega
        simp only [blank, space, last, more, decide_true, if_true, if_false, ih (show i + 1 < 4 by omega)]
        rw [show 4 - (i + 1) = left by omega]
    · simp only [blank, space, decide_false, Bool.false_eq_true, if_false, ih few, same]

theorem time_passes {first : List Char} (solid : ' ' ∉ first) : first.foldlM timeCut () = some () := by
  induction first with
  | nil => rfl
  | cons ch first ih =>
    obtain ⟨plain, solid⟩ := not_or.mp (mt List.mem_cons.mpr solid)
    rw [List.foldlM_cons, timeCut, if_neg (Ne.symm plain)]
    exact ih solid

theorem countP_space_of_solid {text : List Char} (solid : ' ' ∉ text) : text.countP space = 0 := by
  refine List.countP_eq_zero.mpr fun ch member => ?_
  simp only [space, decide_eq_true_eq]
  rintro rfl
  exact solid member

theorem date_passes {i : Nat} (first : List Char) (few : i + first.countP space < 4) :
    first.foldlM dateCut i = some (i + first.countP space) := by
  induction first generalizing i with
  | nil => rfl
  | cons ch first ih =>
    rw [List.foldlM_cons, dateCut]
    by_cases blank : ch = ' '
    · have counted : (ch :: first).countP space = first.countP space + 1 :=
        List.countP_cons_of_pos (by simp [space, blank])
      rw [counted] at few ⊢
      rw [if_pos blank, if_neg (by omega)]
      exact (ih (by omega)).trans (congrArg some (by omega))
    · have counted : (ch :: first).countP space = first.countP space :=
        List.countP_cons_of_neg (by simp [space, blank])
      rw [counted] at few ⊢
      rw [if_neg blank]
      exact ih few

/-- The space that ends the text, counted from where the routine begins. -/
def limit : Routine → Nat
  | .writeString => 0
  | .rtcSt7789Time => 1
  | .rtcSt7789Date => 4

/-- How many characters the routine drops. -/
def start : Routine → Nat
  | .rtcSt7789Time => 11
  | _ => 0

structure Choice where
  width : UInt8
  height : UInt8
  x : UInt16
  y : UInt16
deriving DecidableEq, Repr

/-- The line wrapping of the routine never runs out of vertical room. -/
def HasRoom (choice : Choice) (str : List Char) : Routine → Prop
  | .writeString => True
  | .rtcSt7789Time => Roomy timeCut choice.width choice.height choice.x choice.y () (str.drop 11)
  | .rtcSt7789Date => Roomy dateCut choice.width choice.height choice.x choice.y 0 str

instance (choice : Choice) (str : List Char) : (routine : Routine) → Decidable (HasRoom choice str routine)
  | .writeString => inferInstanceAs (Decidable True)
  | .rtcSt7789Time => Roomy.decidable timeCut choice.width choice.height choice.x choice.y () (str.drop 11)
  | .rtcSt7789Date => Roomy.decidable dateCut choice.width choice.height choice.x choice.y 0 str

def drawn (routine : Routine) (choice : Choice) (str : List Char) : List Char :=
  (routine.cells choice.width choice.height choice.x choice.y str).map Cell.ch

def upTo (routine : Routine) (str : List Char) : List Char :=
  str.take (start routine) ++ through space (limit routine) (str.drop (start routine))

/-- Nothing is drawn from behind the space that ends the text. -/
def Ends (routine : Routine) (choice : Choice) (str : List Char) : Prop :=
  drawn routine choice str = drawn routine choice (upTo routine str)

/-- The drawn text is the same wherever and in whatever font it is drawn, and ends
where it should. -/
structure SameText (routine : Routine) (one other : Choice) (str : List Char) : Prop where
  visible : (drawn routine one str).filter (!space ·) = (drawn routine other str).filter (!space ·)
  ends : Ends routine one str ∧ Ends routine other str

theorem drawn_eq {routine : Routine} {choice : Choice} {str : List Char} (cuts : routine ≠ .writeString)
    (room : HasRoom choice str routine) :
    drawn routine choice str = before space (limit routine)
      (kept choice.width choice.x (str.drop (start routine))) := by
  cases routine with
  | writeString => exact absurd rfl cuts
  | rtcSt7789Time => exact (textCells_chars timeCut _ _ room).trans (taken_time _)
  | rtcSt7789Date => exact (textCells_chars dateCut _ _ room).trans (taken_date (by decide) _)

theorem upTo_drop {routine : Routine} {str : List Char} (long : start routine ≤ str.length) :
    (upTo routine str).drop (start routine) = through space (limit routine) (str.drop (start routine)) :=
  List.drop_left' (List.length_take_of_le long)

theorem HasRoom.upTo {routine : Routine} {choice : Choice} {str : List Char} (room : HasRoom choice str routine)
    (long : start routine ≤ str.length) : HasRoom choice (upTo routine str) routine := by
  have same := upTo_drop long
  have whole := through_append_behind space (limit routine) (str.drop (start routine))
  cases routine with
  | writeString => trivial
  | rtcSt7789Time =>
    unfold HasRoom at room ⊢
    rw [show (TextCut.upTo .rtcSt7789Time str).drop 11 = _ from same]
    rw [show str.drop 11 = _ from whole.symm] at room
    exact room.initial_part
  | rtcSt7789Date =>
    unfold HasRoom at room ⊢
    rw [show TextCut.upTo .rtcSt7789Date str = _ from same]
    rw [show str = _ from whole.symm] at room
    exact room.initial_part

/-- How many of the spaces up to the one that ends the text the layout skips. -/
def skipped (routine : Routine) (choice : Choice) (str : List Char) : Nat :=
  limit routine - (kept choice.width choice.x (through space (limit routine) (str.drop (start routine)))).countP space

/-- What the layout draws from behind the space that ends the text. -/
def left (routine : Routine) (choice : Choice) (str : List Char) : List Char :=
  let text := str.drop (start routine)
  kept choice.width ((through space (limit routine) text).foldl (next choice.width) choice.x) (behind space (limit routine) text)

/-- No space up to the one that ends the text is skipped, or nothing is to be drawn
behind it, or one is skipped and a space comes next that is not. -/
def Sharp (routine : Routine) (choice : Choice) (str : List Char) : Prop :=
  skipped routine choice str = 0 ∨ left routine choice str = [] ∨
    skipped routine choice str = 1 ∧ (left routine choice str).head? = some ' '

instance (routine : Routine) (choice : Choice) (str : List Char) : Decidable (Sharp routine choice str) :=
  inferInstanceAs (Decidable (_ ∨ _))

section Exact
variable {routine : Routine} {choice other : Choice} {str : List Char}

/-- The routine draws what the layout keeps of the text up to its last space, and
goes on behind it with the spaces that were skipped still to count. -/
theorem drawn_upTo (cuts : routine ≠ .writeString) (room : HasRoom choice str routine)
    (long : start routine ≤ str.length) :
    drawn routine choice str = drawn routine choice (upTo routine str) ++
      before space (skipped routine choice str) (left routine choice str) := by
  have whole := through_append_behind space (limit routine) (str.drop (start routine))
  rw [drawn_eq cuts room, drawn_eq cuts (room.upTo long), upTo_drop long]
  conv => lhs; rw [← whole, kept_append, before_append]
  split
  next few =>
    rw [before_of_few space few]
    rfl
  next all =>
    have none : skipped routine choice str = 0 := by
      unfold skipped
      omega
    rw [none, before_zero, List.append_nil]

private theorem before_eq_nil_iff (count : Nat) (str : List Char) :
    before space count str = [] ↔ count = 0 ∨ str = [] ∨ count = 1 ∧ str.head? = some ' ' := by
  cases count with
  | zero => simp
  | succ count =>
    cases str with
    | nil => simp
    | cons ch str =>
      by_cases blank : ch = ' '
      · by_cases last : count = 0 <;> simp [before, space, blank, last]
      · simp [before, space, blank]

private theorem ends_iff (cuts : routine ≠ .writeString) (room : HasRoom choice str routine)
    (long : start routine ≤ str.length) :
    Ends routine choice str ↔ Sharp routine choice str := by
  rw [Ends, drawn_upTo cuts room long, List.append_right_eq_self]
  exact before_eq_nil_iff _ _

def visible (ch : Char) : Bool := !space ch && ch != '\n'

private theorem kept_visible (width : UInt8) (x : UInt16) {few count : Nat} (enough : few ≤ count) (str : List Char) :
    (before space count (kept width x (through space few str))).filter (!space ·) =
    (through space few str).filter visible := by
  induction str generalizing x few count with
  | nil => simp [kept]
  | cons ch str ih =>
    cases few with
    | zero => simp [through, kept]
    | succ few =>
      obtain ⟨count, rfl⟩ : ∃ less, count = less + 1 := ⟨count - 1, by omega⟩
      rw [through, kept]
      split
      next dropped =>
        have hidden : visible ch = false := by
          rcases dropped with ⟨_, rfl⟩ | rfl <;> decide
        rw [List.filter_cons_of_neg (by rw [hidden]; decide)]
        apply ih
        split <;> omega
      next drawn =>
        have plain : ch ≠ '\n' := fun newline => drawn (.inr newline)
        rw [before]
        by_cases blank : space ch = true
        · have hidden : visible ch = false := by simp [visible, blank]
          rw [if_pos blank, if_pos blank, List.filter_cons_of_neg (by rw [hidden]; decide)]
          by_cases last : count = 0
          · obtain rfl : few = 0 := by omega
            simp [through, last]
          · rw [if_neg last, List.filter_cons_of_neg (by simp [blank])]
            exact ih _ (by omega)
        · have shown : visible ch = true := by simp [visible, blank, plain]
          rw [if_neg blank, if_neg blank, List.filter_cons_of_pos (by simp [blank]), List.filter_cons_of_pos shown]
          exact congrArg (ch :: ·) (ih _ (by omega))

private theorem drawn_visible (cuts : routine ≠ .writeString) (room : HasRoom choice str routine)
    (long : start routine ≤ str.length) (ends : Ends routine choice str) :
    (drawn routine choice str).filter (!space ·) =
      (through space (limit routine) (str.drop (start routine))).filter visible := by
  rw [ends, drawn_eq cuts (room.upTo long), upTo_drop long]
  exact kept_visible _ _ (Nat.le_refl _) _

end Exact

/-- At x = 60 the space behind the time meets the right edge, and the year is drawn. -/
theorem year_on_the_next_line : ¬ ∀ routine one other str, routine ≠ .writeString → start routine ≤ str.length →
    HasRoom one str routine → HasRoom other str routine → SameText routine one other str := by
  intro always
  have same := always .rtcSt7789Time ⟨20, 50, 60, 60⟩ ⟨20, 50, 40, 60⟩ "Tue Jun 14 22:31:44 2022\n".toList (by decide) (by decide)
    (by decide) (by decide)
  exact absurd same.visible (by decide)

/-- The drawn text depends on the string alone exactly when neither layout skips a
space that should count, or nothing comes of it. -/
theorem sameText_iff (routine : Routine) (one other : Choice) (str : List Char) (cuts : routine ≠ .writeString)
    (long : start routine ≤ str.length) (first : HasRoom one str routine) (second : HasRoom other str routine) :
    SameText routine one other str ↔ Sharp routine one str ∧ Sharp routine other str := by
  rw [← ends_iff cuts first long, ← ends_iff cuts second long]
  constructor
  · exact fun same => same.ends
  · intro ends
    refine ⟨?_, ends⟩
    rw [drawn_visible cuts first long ends.1, drawn_visible cuts second long ends.2]

/-- The clock font and the date's font, both at their own places. -/
theorem sameText_iff_tuesday :
    SameText .rtcSt7789Time ⟨20, 50, 40, 60⟩ ⟨11, 18, 65, 120⟩ "Tue Jun 14 22:31:44 2022\n".toList :=
  (sameText_iff .rtcSt7789Time ⟨20, 50, 40, 60⟩ ⟨11, 18, 65, 120⟩ "Tue Jun 14 22:31:44 2022\n".toList (by decide) (by decide)
    (by decide) (by decide)).mpr (by decide)

end SmartWatch.Proofs.TextCut
