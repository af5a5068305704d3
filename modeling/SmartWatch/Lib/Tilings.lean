import Mathlib.Data.List.Chain

/-! A line cut into pieces, some of them in use: cutting a free piece, freeing one in
use, and joining free pieces that lie beside each other. -/

namespace Tilings

structure Piece where
  size : Nat
  used : Bool
deriving DecidableEq, Repr

variable {pieces result front back rest : List Piece} {one two piece : Piece} {start size less need limit : Nat}

def total : List Piece → Nat
  | [] => 0
  | piece :: rest => piece.size + total rest

/-- The pieces in use, by their starts and sizes. -/
def inUse : Nat → List Piece → List (Nat × Nat)
  | _, [] => []
  | start, piece :: rest =>
    if piece.used then (start, piece.size) :: inUse (start + piece.size) rest else inUse (start + piece.size) rest

/-- How much of the line some pieces take. -/
def extent : List (Nat × Nat) → Nat
  | [] => 0
  | area :: rest => area.2 + extent rest

/-- Where the first free piece starts, or the end of the line. -/
def firstFree : Nat → List Piece → Nat
  | start, [] => start
  | start, piece :: rest => if piece.used then firstFree (start + piece.size) rest else start

/-- The first free piece of a size among those that start before a limit. -/
def firstFit (limit need : Nat) : Nat → List Piece → Option Nat
  | _, [] => none
  | start, piece :: rest =>
    if start < limit then
      if piece.used = false ∧ need ≤ piece.size then some start else firstFit limit need (start + piece.size) rest
    else
      none

/-- No two free pieces lie beside each other. -/
def Joined (pieces : List Piece) : Prop := pieces.IsChain fun one two => one.used = true ∨ two.used = true

/-- Free pieces that lie beside each other become one. -/
inductive Joins : List Piece → List Piece → Prop where
  | done (pieces : List Piece) : Joins pieces pieces
  | join (before : List Piece) (first second : Nat) (behind : List Piece) {whole : List Piece}
      (more : Joins (before ++ ⟨first + second, false⟩ :: behind) whole) :
      Joins (before ++ ⟨first, false⟩ :: ⟨second, false⟩ :: behind) whole

@[simp] theorem total_nil : total [] = 0 := rfl

@[simp] theorem total_cons (piece : Piece) (rest : List Piece) : total (piece :: rest) = piece.size + total rest := rfl

@[simp] theorem total_append (front back : List Piece) : total (front ++ back) = total front + total back := by
  induction front with
  | nil => rw [List.nil_append, total_nil, Nat.zero_add]
  | cons piece front ih => rw [List.cons_append, total_cons, total_cons, ih, Nat.add_assoc]

theorem extent_append (front back : List (Nat × Nat)) : extent (front ++ back) = extent front + extent back := by
  induction front with
  | nil => rw [List.nil_append, extent, Nat.zero_add]
  | cons area front ih => rw [List.cons_append, extent, extent, ih, Nat.add_assoc]

theorem total_mod {unit : Nat} (all : ∀ piece ∈ pieces, piece.size % unit = 0) : total pieces % unit = 0 := by
  induction pieces with
  | nil => exact Nat.zero_mod unit
  | cons piece rest ih =>
    have behind := ih fun other member => all other (List.mem_cons_of_mem _ member)
    rw [total_cons, Nat.add_mod, all piece List.mem_cons_self, behind, Nat.zero_add, Nat.zero_mod]

theorem inUse_append (start : Nat) (front back : List Piece) :
    inUse start (front ++ back) = inUse start front ++ inUse (start + total front) back := by
  induction front generalizing start with
  | nil => rfl
  | cons piece front ih =>
    simp only [List.cons_append, inUse, ih, total_cons, Nat.add_assoc]
    split <;> rfl

/-- What the pieces in use are, around one of them. -/
theorem inUse_middle (start : Nat) (front back : List Piece) (piece : Piece) : inUse start (front ++ piece :: back) =
    inUse start front ++ (if piece.used then [(start + total front, piece.size)] else []) ++
      inUse (start + total front + piece.size) back := by
  rw [inUse_append, inUse, List.append_assoc]
  split <;> rfl

theorem inUse_bounds {begin : Nat} (member : (begin, size) ∈ inUse start pieces) :
    start ≤ begin ∧ begin + size ≤ start + total pieces := by
  induction pieces generalizing start with
  | nil => cases member
  | cons piece rest ih =>
    rw [total_cons]
    have later : (begin, size) ∈ inUse (start + piece.size) rest →
        start ≤ begin ∧ begin + size ≤ start + (piece.size + total rest) := fun inside => by
      have := ih inside
      omega
    unfold inUse at member
    split at member
    · rcases List.mem_cons.mp member with same | inside
      · cases same
        omega
      · exact later inside
    · exact later member

theorem extent_le (start : Nat) (pieces : List Piece) : extent (inUse start pieces) ≤ total pieces := by
  induction pieces generalizing start with
  | nil => exact Nat.le_refl 0
  | cons piece rest ih =>
    have := ih (start + piece.size)
    unfold inUse
    split
    · exact Nat.add_le_add_left this _
    · exact Nat.le_trans this (Nat.le_add_left _ _)

/-- The pieces in use do not overlap. -/
theorem inUse_apart (start : Nat) (pieces : List Piece) :
    (inUse start pieces).Pairwise fun one two => one.1 + one.2 ≤ two.1 := by
  induction pieces generalizing start with
  | nil => exact .nil
  | cons piece rest ih =>
    unfold inUse
    split
    · exact .cons (fun ⟨begin, size⟩ member => (inUse_bounds member).1) (ih _)
    · exact ih _

theorem inUse_disjoint {one two : Nat × Nat} (first : one ∈ inUse start pieces) (second : two ∈ inUse start pieces)
    (other : one.1 ≠ two.1) :
    one.1 + one.2 ≤ two.1 ∨ two.1 + two.2 ≤ one.1 := by
  have apart : (inUse start pieces).Pairwise fun one two => one.1 + one.2 ≤ two.1 ∨ two.1 + two.2 ≤ one.1 :=
    (inUse_apart start pieces).imp .inl
  have symmetric : Std.Symm fun one two : Nat × Nat => one.1 + one.2 ≤ two.1 ∨ two.1 + two.2 ≤ one.1 :=
    ⟨fun _ _ holds => holds.symm⟩
  exact apart.forall first second fun same => other (congrArg Prod.fst same)

/-- A piece in use is one of the line. -/
theorem mem_inUse {begin : Nat} (member : (begin, size) ∈ inUse start pieces) :
    ∃ front back, pieces = front ++ ⟨size, true⟩ :: back ∧ begin = start + total front := by
  induction pieces generalizing start with
  | nil => cases member
  | cons piece rest ih =>
    have later : (begin, size) ∈ inUse (start + piece.size) rest →
        ∃ front back, piece :: rest = front ++ ⟨size, true⟩ :: back ∧ begin = start + total front := fun inside => by
      obtain ⟨front, back, same, place⟩ := ih inside
      refine ⟨piece :: front, back, congrArg (piece :: ·) same, ?_⟩
      rw [place, total_cons, Nat.add_assoc]
    unfold inUse at member
    split at member
    next used =>
      rcases List.mem_cons.mp member with same | inside
      · cases same
        exact ⟨[], rest, congrArg (· :: rest) (by rw [← used]), rfl⟩
      · exact later inside
    next => exact later member

theorem inUse_positive {begin : Nat} (positive : ∀ piece ∈ pieces, 0 < piece.size)
    (member : (begin, size) ∈ inUse start pieces) :
    0 < size := by
  obtain ⟨front, back, rfl, _⟩ := mem_inUse member
  exact positive ⟨size, true⟩ (by simp)

/-- At one place there is one piece. -/
theorem inUse_same {begin one two : Nat} (positive : ∀ piece ∈ pieces, 0 < piece.size)
    (first : (begin, one) ∈ inUse start pieces) (second : (begin, two) ∈ inUse start pieces) : one = two := by
  obtain ⟨front, back, rfl, rfl⟩ := mem_inUse first
  rw [inUse_middle] at second
  rcases List.mem_append.mp second with second | behind
  · rcases List.mem_append.mp second with before | here
    · have := inUse_bounds before
      have := inUse_positive (fun piece member => positive piece (List.mem_append_left _ member)) before
      omega
    · exact (congrArg Prod.snd (List.mem_singleton.mp here)).symm
  · have := inUse_bounds behind
    have := positive ⟨one, true⟩ (by simp)
    dsimp only at *
    omega

/-- The other pieces in use are those before one and those behind it. -/
theorem inUse_other (positive : ∀ other ∈ front ++ piece :: back, 0 < other.size) (start : Nat) (area : Nat × Nat) :
    (area ∈ inUse start (front ++ piece :: back) ∧ area.1 ≠ start + total front) ↔
      area ∈ inUse start front ∨ area ∈ inUse (start + total front + piece.size) back := by
  obtain ⟨begin, size⟩ := area
  have here := positive piece (by simp)
  have before (member : (begin, size) ∈ inUse start front) : begin ≠ start + total front := by
    have := inUse_bounds member
    have := inUse_positive (fun other inside => positive other (List.mem_append_left _ inside)) member
    omega
  have behind (member : (begin, size) ∈ inUse (start + total front + piece.size) back) : begin ≠ start + total front := by
    have := inUse_bounds member
    omega
  rw [inUse_middle, List.mem_append, List.mem_append]
  constructor
  · rintro ⟨(first | here) | last, other⟩
    · exact .inl first
    · split at here
      · exact absurd (congrArg Prod.fst (List.mem_singleton.mp here)) other
      · cases here
    · exact .inr last
  · rintro (first | last)
    · exact ⟨.inl (.inl first), before first⟩
    · exact ⟨.inr last, behind last⟩

theorem le_firstFree (start : Nat) (pieces : List Piece) : start ≤ firstFree start pieces := by
  induction pieces generalizing start with
  | nil => exact Nat.le_refl _
  | cons piece rest ih =>
    unfold firstFree
    split
    · exact Nat.le_trans (Nat.le_add_right _ _) (ih _)
    · exact Nat.le_refl _

theorem firstFree_used (used : ∀ piece ∈ front, piece.used = true) (start : Nat) (back : List Piece) :
    firstFree start (front ++ back) = firstFree (start + total front) back := by
  induction front generalizing start with
  | nil => rfl
  | cons piece front ih =>
    rw [List.cons_append, firstFree, if_pos (used piece List.mem_cons_self), ih (fun other member => used other (List.mem_cons_of_mem _ member)),
      total_cons, Nat.add_assoc]

/-- The pieces before the first free one are in use. -/
theorem firstFree_split (start : Nat) (pieces : List Piece) :
    ∃ front back, pieces = front ++ back ∧ (∀ piece ∈ front, piece.used = true) ∧
    firstFree start pieces = start + total front ∧ ∀ piece, back.head? = some piece → piece.used = false := by
  induction pieces generalizing start with
  | nil => exact ⟨[], [], rfl, fun _ member => absurd member List.not_mem_nil, rfl, fun _ is => by cases is⟩
  | cons piece rest ih =>
    unfold firstFree
    split
    next used =>
      obtain ⟨front, back, same, all, place, free⟩ := ih (start + piece.size)
      refine ⟨piece :: front, back, congrArg (piece :: ·) same, fun other member => ?_, ?_, free⟩
      · rcases List.mem_cons.mp member with rfl | inside
        · exact used
        · exact all other inside
      · rw [place, total_cons, Nat.add_assoc]
    next free =>
      refine ⟨[], piece :: rest, rfl, fun _ member => absurd member List.not_mem_nil, rfl, fun other is => ?_⟩
      cases is
      exact Bool.eq_false_iff.mpr free

/-- A piece that is freed is the first free one if it lies before the one that was. -/
theorem firstFree_free (start size : Nat) (front back : List Piece) :
    firstFree start (front ++ ⟨size, false⟩ :: back) =
    if start + total front < firstFree start (front ++ ⟨size, true⟩ :: back) then start + total front
    else firstFree start (front ++ ⟨size, true⟩ :: back) := by
  induction front generalizing start with
  | nil =>
    have := le_firstFree (start + size) back
    simp only [List.nil_append, firstFree, total_nil, Nat.add_zero, if_true, Bool.false_eq_true, if_false]
    split <;> omega
  | cons piece front ih =>
    simp only [List.cons_append, firstFree, total_cons, ← Nat.add_assoc]
    split
    · exact ih _
    · rw [if_neg (by omega)]

/-- Cutting a piece in use changes nothing for the free ones. -/
theorem firstFree_halves (start one two : Nat) (front back : List Piece) :
    firstFree start (front ++ [⟨one, true⟩] ++ ⟨two, true⟩ :: back) =
      firstFree start (front ++ ⟨one + two, true⟩ :: back) := by
  induction front generalizing start with
  | nil => simp only [List.nil_append, List.cons_append, firstFree, if_true, Nat.add_assoc]
  | cons piece front ih => simp only [List.cons_append, firstFree, ih]

theorem firstFree_le (start size : Nat) (front back : List Piece) :
    firstFree start (front ++ ⟨size, false⟩ :: back) ≤ start + total front := by
  rw [firstFree_free]
  split <;> omega

/-- A free piece before the place counts, whatever comes after. -/
theorem firstFree_before (free : ∃ piece ∈ front, piece.used = false) (start : Nat) (back : List Piece) :
    firstFree start (front ++ back) = firstFree start front := by
  induction front generalizing start with
  | nil =>
    obtain ⟨_, member, _⟩ := free
    cases member
  | cons piece front ih =>
    obtain ⟨other, member, other_free⟩ := free
    simp only [List.cons_append, firstFree]
    split
    next used =>
      rcases List.mem_cons.mp member with rfl | inside
      · rw [used] at other_free
        cases other_free
      · exact ih ⟨other, inside, other_free⟩ _
    next => rfl

theorem firstFree_lt (free : ∃ piece ∈ front, piece.used = false) (positive : ∀ piece ∈ front, 0 < piece.size)
    (start : Nat) :
    firstFree start front < start + total front := by
  obtain ⟨ahead, behind, rfl, all, place, _⟩ := firstFree_split start front
  cases behind with
  | nil =>
    obtain ⟨piece, member, unused⟩ := free
    rw [all piece (by simpa using member)] at unused
    cases unused
  | cons piece behind =>
    have := positive piece (by simp)
    rw [place, total_append, total_cons]
    omega

/-- The pieces before a free one that is the first are in use. -/
theorem firstFree_first (first : firstFree start (front ++ ⟨size, false⟩ :: back) = start + total front)
    (positive : ∀ piece ∈ front, 0 < piece.size) : ∀ piece ∈ front, piece.used = true := by
  intro piece member
  cases used : piece.used with
  | true => rfl
  | false =>
    have earlier := firstFree_lt ⟨piece, member, used⟩ positive start
    rw [← first, firstFree_before ⟨piece, member, used⟩] at earlier
    exact absurd earlier (Nat.lt_irrefl _)

/-- The seams between the pieces lie outside those in use. -/
theorem inUse_seam (front back : List Piece) {begin : Nat} (member : (begin, size) ∈ inUse start (front ++ back)) :
    start + total front ≤ begin ∨ begin + size ≤ start + total front := by
  rw [inUse_append] at member
  rcases List.mem_append.mp member with inside | inside
  · exact .inr (inUse_bounds inside).2
  · exact .inl (inUse_bounds inside).1

theorem Joins.trans {middle : List Piece} (one : Joins pieces middle) (two : Joins middle result) :
    Joins pieces result := by
  induction one with
  | done => exact two
  | join before first second behind _ ih => exact .join before first second behind (ih two)

/-- What joining leaves as it is. -/
theorem Joins.same (joins : Joins pieces result) (start : Nat) :
    total result = total pieces ∧ inUse start result = inUse start pieces ∧
      firstFree start result = firstFree start pieces := by
  induction joins with
  | done => exact ⟨rfl, rfl, rfl⟩
  | join before first second behind more ih =>
    obtain ⟨same_total, same_use, same_free⟩ := ih
    refine ⟨same_total.trans ?_, same_use.trans ?_, same_free.trans ?_⟩
    · simp only [total_append, total_cons, Nat.add_assoc]
    · simp only [inUse_append, inUse, Bool.false_eq_true, if_false, Nat.add_assoc]
    · obtain ⟨ahead, rest, rfl, all, _, free⟩ := firstFree_split start before
      rw [List.append_assoc, List.append_assoc, firstFree_used all, firstFree_used all]
      cases rest with
      | nil => rfl
      | cons piece rest =>
        simp only [List.cons_append, firstFree, free piece rfl, Bool.false_eq_true, if_false]

theorem firstFit_some {place : Nat} (found : firstFit limit need start pieces = some place) :
    ∃ front size back, pieces = front ++ ⟨size, false⟩ :: back ∧ place = start + total front ∧ need ≤ size ∧
      place < limit := by
  induction pieces generalizing start with
  | nil => cases found
  | cons piece rest ih =>
    unfold firstFit at found
    split at found
    next within =>
      split at found
      next fits =>
        cases found
        exact ⟨[], piece.size, rest, congrArg (· :: rest) (by rw [← fits.1]), rfl, fits.2, within⟩
      next =>
        obtain ⟨front, size, back, same, at_place, fits, before⟩ := ih found
        refine ⟨piece :: front, size, back, congrArg (piece :: ·) same, ?_, fits, before⟩
        rw [at_place, total_cons, Nat.add_assoc]
    next => cases found

theorem firstFit_none (nothing : firstFit limit need start pieces = none)
    (split : pieces = front ++ ⟨size, false⟩ :: back) (fits : need ≤ size) : limit ≤ start + total front := by
  induction front generalizing start pieces with
  | nil =>
    rw [split, List.nil_append, firstFit] at nothing
    split at nothing
    · rw [if_pos ⟨rfl, fits⟩] at nothing
      cases nothing
    next beyond => exact Nat.not_lt.mp beyond
  | cons piece front ih =>
    rw [split, List.cons_append, firstFit] at nothing
    rw [total_cons, ← Nat.add_assoc]
    split at nothing
    · split at nothing
      · cases nothing
      · exact ih nothing rfl
    next beyond => omega

theorem firstFit_beyond (beyond : limit ≤ start) (pieces : List Piece) : firstFit limit need start pieces = none := by
  cases pieces with
  | nil => rfl
  | cons piece rest => exact if_neg (by omega)

/-- The search may begin at the first free piece. -/
theorem firstFit_used (used : ∀ piece ∈ front, piece.used = true) (start : Nat) (back : List Piece) :
    firstFit limit need start (front ++ back) = firstFit limit need (start + total front) back := by
  induction front generalizing start with
  | nil => rfl
  | cons piece front ih =>
    have not : ¬(piece.used = false ∧ need ≤ piece.size) := fun is => by
      rw [used piece List.mem_cons_self] at is
      cases is.1
    rw [List.cons_append, firstFit, if_neg not, total_cons, ← Nat.add_assoc, ih (fun other member => used other (List.mem_cons_of_mem _ member))]
    split
    · rfl
    next beyond => exact (firstFit_beyond (by omega) back).symm

/-- The parts of a line, of which the first one may end in a piece in use. -/
theorem Joined.parts (tight : Joined (front ++ piece :: back)) (less : Nat) :
    Joined front ∧ Joined back ∧ Joined (front ++ [⟨less, true⟩]) := by
  obtain ⟨first, second⟩ := List.isChain_split.mp tight
  refine ⟨first.left_of_append, (List.isChain_cons.mp second).2, ?_⟩
  refine List.isChain_append.mpr ⟨first.left_of_append, List.isChain_singleton _, fun last member one head => ?_⟩
  cases head
  exact .inr rfl

/-- A free piece is cut in two, of which the first is used, or is used as a whole. -/
theorem Joined.cut (tight : Joined (front ++ ⟨size, false⟩ :: back)) (less rest : Nat) :
    Joined (front ++ ⟨less, true⟩ :: ⟨rest, false⟩ :: back) ∧ Joined (front ++ ⟨less, true⟩ :: back) := by
  obtain ⟨next, behind⟩ := List.isChain_cons.mp (List.isChain_split.mp tight).2
  have ahead := (tight.parts less).2.2
  refine ⟨List.isChain_append_cons_cons.mpr ⟨ahead, .inl rfl, List.isChain_cons.mpr ⟨fun other is => next other is, behind⟩⟩,
    List.isChain_split.mpr ⟨ahead, List.isChain_cons.mpr ⟨fun other is => .inl rfl, behind⟩⟩⟩

/-- A free piece between two lines without free neighbours. -/
theorem Joined.middle (ahead : Joined front) (behind : Joined back)
    (last : ∀ piece, front.getLast? = some piece → piece.used = true)
    (next : ∀ piece, back.head? = some piece → piece.used = true) (size : Nat) :
    Joined (front ++ ⟨size, false⟩ :: back) :=
  List.isChain_append.mpr ⟨ahead, List.isChain_cons.mpr ⟨fun other is => .inr (next other is), behind⟩,
    fun other is _ _ => .inl (last other is)⟩

/-- A line without a piece in use is one free piece. -/
theorem Joined.single (tight : Joined pieces) (none : inUse start pieces = []) (some_pieces : pieces ≠ []) :
    pieces = [⟨total pieces, false⟩] := by
  have unused : ∀ piece ∈ pieces, piece.used = false := fun piece member => by
    obtain ⟨front, back, rfl⟩ := List.append_of_mem member
    cases used : piece.used with
    | false => rfl
    | true =>
      rw [inUse_middle, used] at none
      simp at none
  match pieces with
  | [] => exact absurd rfl some_pieces
  | [piece] =>
    have free := unused piece (List.mem_singleton_self _)
    cases piece
    cases free
    simp
  | one :: two :: rest =>
    have seam := (List.isChain_cons_cons.mp tight).1
    rw [unused one (by simp), unused two (by simp)] at seam
    exact absurd seam (by decide)

end Tilings
