import SmartWatch.Heap
import SmartWatch.Lib.Tilings

/-! The headers of the heap cut it into blocks. What the parts of the allocator do to
the headers is what cutting, freeing and joining do to the blocks. -/

namespace SmartWatch.Proofs.HeapBlocks
open Tilings

variable {h after : Heap} {mem memNow : Nat → HeapMem} {pieces front back middle middleNow rest : List Piece}
  {prev start size place turns : Nat} {used : Bool} {areas : List (Nat × Nat)}

/-- The headers of a list of blocks, each with the one before. -/
def Laid (mem : Nat → HeapMem) : Nat → Nat → List Piece → Prop
  | _, _, [] => True
  | prev, start, piece :: rest =>
    mem start = { magic := heapMagic, used := piece.used, next := start + piece.size, prev } ∧
      Laid mem start (start + piece.size) rest

def lastStart : Nat → Nat → List Piece → Nat
  | prev, _, [] => prev
  | _, start, piece :: rest => lastStart start (start + piece.size) rest

theorem laid_append (prev start : Nat) (front back : List Piece) : Laid mem prev start (front ++ back) ↔
    Laid mem prev start front ∧ Laid mem (lastStart prev start front) (start + total front) back := by
  induction front generalizing prev start with
  | nil => exact ⟨fun laid => ⟨trivial, laid⟩, And.right⟩
  | cons piece front ih =>
    simp only [List.cons_append, Laid, lastStart, total_cons, ← Nat.add_assoc, ih, and_assoc]

theorem lastStart_append (prev start : Nat) (front back : List Piece) :
    lastStart prev start (front ++ back) = lastStart (lastStart prev start front) (start + total front) back := by
  induction front generalizing prev start with
  | nil => rfl
  | cons first front ih => simp only [List.cons_append, lastStart, ih, total_cons, Nat.add_assoc]

/-- Only the headers inside count. -/
theorem Laid.frame (laid : Laid mem prev start pieces) (positive : ∀ piece ∈ pieces, 0 < piece.size)
    (same : ∀ place, start ≤ place → place < start + total pieces → memNow place = mem place) :
    Laid memNow prev start pieces := by
  induction pieces generalizing prev start with
  | nil => trivial
  | cons piece rest ih =>
    have := positive piece List.mem_cons_self
    rw [total_cons] at same
    have others : ∀ other ∈ rest, 0 < other.size := fun other member => positive other (List.mem_cons_of_mem _ member)
    have behind := ih laid.2 others fun place low high => same place (by omega) (by omega)
    exact ⟨(same start (Nat.le_refl _) (by omega)).trans laid.1, behind⟩

/-- Some blocks in the middle are cut in another way, and the next one is told. -/
theorem Laid.splice (laid : Laid mem 0 0 (front ++ middle ++ back))
    (positive : ∀ piece ∈ front ++ middle ++ back, 0 < piece.size) (whole : total middleNow = total middle)
    (now : Laid memNow (lastStart 0 0 front) (total front) middleNow)
    (ahead : ∀ place, place < total front → memNow place = mem place)
    (behind : ∀ place, total front + total middle < place → place < total (front ++ middle ++ back) →
      memNow place = mem place)
    (seam : back ≠ [] → memNow (total front + total middle) =
      { mem (total front + total middle) with prev := lastStart (lastStart 0 0 front) (total front) middleNow }) :
    Laid memNow 0 0 (front ++ middleNow ++ back) := by
  rw [laid_append, laid_append] at laid ⊢
  simp only [Nat.zero_add, total_append] at laid behind ⊢
  obtain ⟨⟨first, _⟩, last⟩ := laid
  have kept := first.frame (fun piece member => positive piece (by simp [member])) fun place _ less => ahead place (by omega)
  refine ⟨⟨kept, now⟩, ?_⟩
  rw [whole]
  cases back with
  | nil => trivial
  | cons piece rest =>
    have size := positive piece (by simp)
    rw [total_cons] at behind
    have others : ∀ other ∈ rest, 0 < other.size := fun other member => positive other (by simp [member])
    refine ⟨?_, last.2.frame others fun place low high => behind place (by omega) (by omega)⟩
    rw [seam (List.cons_ne_nil _ _), last.1, lastStart_append 0 0 front middleNow, Nat.zero_add]

/-- The headers of the whole heap, and the one at its end. -/
structure Shape (pieces : List Piece) (h : Heap) : Prop where
  laid : Laid h.mem 0 0 pieces
  whole : total pieces = h.heapEnd
  ends : (h.mem h.heapEnd).used = true ∧ (h.mem h.heapEnd).next = h.heapEnd
  sizes : ∀ piece ∈ pieces, 16 ≤ piece.size ∧ piece.size % 4 = 0

/-- A header may stand at a place without touching what is in use. -/
def Clear (areas : List (Nat × Nat)) (place : Nat) : Prop := ∀ area ∈ areas, place ≤ area.1 ∨ area.1 + area.2 ≤ place

/-- The heap is where it was, and so is every byte behind the headers of some areas. -/
structure Still (areas : List (Nat × Nat)) (h after : Heap) : Prop where
  heapPtr : after.heapPtr = h.heapPtr
  memSizeAligned : after.memSizeAligned = h.memSizeAligned
  data : ∀ area ∈ areas, ∀ place, area.1 + sizeofStructMem ≤ place → place < area.1 + area.2 → after.data place = h.data place

/-- Nothing but the headers and the lowest free block has changed. -/
structure Same (areas : List (Nat × Nat)) (h after : Heap) : Prop extends Still areas h after where
  usedMem : after.usedMem = h.usedMem
  maxMem : after.maxMem = h.maxMem
  complaints : after.complaints = h.complaints

theorem Still.refl (areas : List (Nat × Nat)) (h : Heap) : Still areas h h := ⟨rfl, rfl, fun _ _ _ _ _ => rfl⟩

theorem Still.trans {middle : Heap} (one : Still areas h middle) (two : Still areas middle after) :
    Still areas h after :=
  ⟨two.heapPtr.trans one.heapPtr, two.memSizeAligned.trans one.memSizeAligned, fun area member place low high =>
    (two.data area member place low high).trans (one.data area member place low high)⟩

theorem Same.refl (areas : List (Nat × Nat)) (h : Heap) : Same areas h h := ⟨.refl areas h, rfl, rfl, rfl⟩

theorem Same.trans {middle : Heap} (one : Same areas h middle) (two : Same areas middle after) : Same areas h after :=
  ⟨one.toStill.trans two.toStill, two.usedMem.trans one.usedMem, two.maxMem.trans one.maxMem,
    two.complaints.trans one.complaints⟩

/-- A header may stand where a block begins or ends. -/
theorem clear_seam (front back : List Piece) : Clear (inUse 0 (front ++ back)) (total front) :=
    fun ⟨begin, size⟩ member => by
  have := inUse_seam front back member
  rwa [Nat.zero_add] at this

/-- A header may stand anywhere in a free block. -/
theorem clear_free (front back : List Piece) {size : Nat} (low : total front ≤ place)
    (high : place ≤ total front + size) :
    Clear (inUse 0 (front ++ ⟨size, false⟩ :: back)) place := fun ⟨begin, extent⟩ member => by
  rw [inUse_middle, Nat.zero_add] at member
  rcases List.mem_append.mp member with member | later
  · have earlier := inUse_bounds (by simpa using member : (begin, extent) ∈ inUse 0 front)
    omega
  · have further : total front + size ≤ begin := (inUse_bounds later).1
    omega

theorem setMem_same (clear : Clear areas place) (header : HeapMem) : Same areas h (h.setMem place header) := by
  refine ⟨⟨rfl, rfl, fun area member other low high => if_neg fun is => ?_⟩, rfl, rfl, rfl⟩
  have := clear area member
  omega

theorem setMem_mem (h : Heap) (place other : Nat) (header : HeapMem) :
    (h.setMem place header).mem other = if other = place then header else h.mem other := rfl

private theorem split_mem {ptr ptr2 : Nat} (first : ptr < ptr2) (second : ptr2 < (h.mem ptr).next) (place : Nat) :
    (h.split ptr ptr2).mem place =
      if place = ptr then { h.mem ptr with next := ptr2 }
      else if place = ptr2 then { magic := heapMagic, next := (h.mem ptr).next, prev := ptr }
      else if place = (h.mem ptr).next ∧ (h.mem ptr).next ≠ h.heapEnd then
        { h.mem (h.mem ptr).next with prev := ptr2 }
      else h.mem place := by
  have apart : ptr ≠ ptr2 := Nat.ne_of_lt first
  have other : (h.mem ptr).next ≠ ptr ∧ (h.mem ptr).next ≠ ptr2 := by omega
  have same_end (one two : Nat) (header other : HeapMem) : ((h.setMem one header).setMem two other).heapEnd = h.heapEnd := rfl
  unfold Heap.split
  by_cases ends : (h.mem ptr).next = h.heapEnd
  · simp only [same_end, setMem_mem, apart, if_false, ends, ne_eq, not_true_eq_false, and_false]
  · simp only [same_end, setMem_mem, apart, other, if_false, ends, ne_eq, not_false_eq_true, and_true, if_true]
    by_cases same : place = (h.mem ptr).next
    · simp only [same, other, if_true, if_false]
    · simp only [same, if_false]

private theorem linkOver_mem {mem next : Nat} (apart : mem ≠ next) (place : Nat) : (h.linkOver mem next).mem place =
    if place = next then { h.mem place with prev := mem }
    else if place = mem then { h.mem place with next } else h.mem place := by
  unfold Heap.linkOver
  simp only [setMem_mem]
  by_cases there : place = next
  · simp only [there, apart.symm, if_true, if_false]
  · by_cases here : place = mem
    · simp only [here, apart, if_true, if_false]
    · simp only [there, here, if_false]

private theorem linkOver_same {mem next : Nat} (one : Clear areas mem) (two : Clear areas next) :
    Same areas h (h.linkOver mem next) :=
  (setMem_same one _).trans (setMem_same two _)

theorem split_lfree (h : Heap) (ptr ptr2 : Nat) : (h.split ptr ptr2).lfree = h.lfree := by
  unfold Heap.split
  dsimp only
  split <;> rfl

theorem split_same {ptr ptr2 : Nat} (one : Clear areas ptr) (two : Clear areas ptr2)
    (three : Clear areas (h.mem ptr).next) :
    Same areas h (h.split ptr ptr2) := by
  have cut (header other : HeapMem) : Same areas h ((h.setMem ptr2 header).setMem ptr other) :=
    (setMem_same two _).trans (setMem_same one _)
  unfold Heap.split
  dsimp only
  split
  · exact (cut _ _).trans (setMem_same three _)
  · exact cut _ _

private theorem split_size (h : Heap) (ptr ptr2 : Nat) : (h.split ptr ptr2).memSizeAligned = h.memSizeAligned :=
  have none (place : Nat) : Clear [] place := fun _ member => absurd member List.not_mem_nil
  (split_same (none _) (none _) (none _)).memSizeAligned

namespace Shape

theorem positive (shape : Shape pieces h) : ∀ piece ∈ pieces, 0 < piece.size := fun piece member =>
  Nat.lt_of_lt_of_le (by decide) (shape.sizes piece member).1

theorem header {piece : Piece} (shape : Shape (front ++ piece :: back) h) : h.mem (total front) =
    { magic := heapMagic, used := piece.used, next := total front + piece.size, prev := lastStart 0 0 front } := by
  have laid := ((laid_append 0 0 front (piece :: back)).mp shape.laid).2
  rw [Nat.zero_add] at laid
  exact laid.1

/-- The block after some others knows the one before it. -/
theorem seam (shape : Shape (front ++ middle ++ back) h) (more : back ≠ []) :
    (h.mem (total front + total middle)).prev = lastStart (lastStart 0 0 front) (total front) middle := by
  have laid := ((laid_append 0 0 (front ++ middle) back).mp shape.laid).2
  rw [Nat.zero_add, total_append, lastStart_append, Nat.zero_add] at laid
  cases back with
  | nil => exact absurd rfl more
  | cons piece rest => rw [laid.1]

/-- Some blocks in the middle are cut in another way. -/
theorem splice (shape : Shape (front ++ middle ++ back) h) (whole : total middleNow = total middle)
    (sizes : ∀ piece ∈ middleNow, 16 ≤ piece.size ∧ piece.size % 4 = 0)
    (same : after.memSizeAligned = h.memSizeAligned)
    (now : Laid after.mem (lastStart 0 0 front) (total front) middleNow)
    (ahead : ∀ place, place < total front → after.mem place = h.mem place)
    (behind : ∀ place, total front + total middle < place → after.mem place = h.mem place)
    (seam : ∃ prev, after.mem (total front + total middle) = { h.mem (total front + total middle) with prev } ∧
      (back ≠ [] → prev = lastStart (lastStart 0 0 front) (total front) middleNow)) :
    Shape (front ++ middleNow ++ back) after := by
  obtain ⟨prev, at_seam, told⟩ := seam
  have ends : after.heapEnd = h.heapEnd := congrArg (· + sizeofStructMem) same
  have total_same : total (front ++ middleNow ++ back) = total (front ++ middle ++ back) := by
    simp only [total_append, whole]
  have laid := shape.laid.splice shape.positive whole now ahead (fun place less _ => behind place less)
    fun more => told more ▸ at_seam
  refine ⟨laid, total_same.trans (shape.whole.trans ends.symm), ?_, fun piece member => ?_⟩
  · have at_end : after.mem h.heapEnd = h.mem h.heapEnd ∨
        ∃ prev, after.mem h.heapEnd = { h.mem h.heapEnd with prev } := by
      rw [← shape.whole, total_append, total_append]
      rcases Nat.eq_zero_or_pos (total back) with none | some_back
      · rw [none]
        exact .inr ⟨prev, at_seam⟩
      · exact .inl (behind _ (by omega))
    rw [ends]
    rcases at_end with same | ⟨_, same⟩ <;> rw [same] <;> exact shape.ends
  · rcases List.mem_append.mp member with member | last
    · rcases List.mem_append.mp member with first | inside
      · exact shape.sizes piece (by simp [first])
      · exact sizes piece inside
    · exact shape.sizes piece (by simp [last])

theorem mark (shape : Shape (front ++ ⟨size, used⟩ :: back) h) (flag : Bool) : Shape (front ++ ⟨size, flag⟩ :: back)
    (h.setMem (total front) { h.mem (total front) with used := flag, magic := heapMagic }) := by
  have header := shape.header
  have big := shape.sizes ⟨size, used⟩ (by simp)
  rw [List.append_cons] at shape ⊢
  refine shape.splice rfl (fun piece member => ?_) rfl ⟨?_, trivial⟩ (fun place less => if_neg (by omega))
    (fun place less => ?_) ?_
  · rw [List.mem_singleton.mp member]
    exact big
  · rw [setMem_mem, if_pos rfl, header]
  · have : total [(⟨size, used⟩ : Piece)] = size := by simp
    exact if_neg (by omega)
  · have total_one : total [(⟨size, used⟩ : Piece)] = size := by simp
    refine ⟨_, ?_, fun more => shape.seam more⟩
    rw [setMem_mem, if_neg (by have : 16 ≤ size := big.1; omega)]

/-- A block is cut in two, and the second one is free. -/
theorem split (shape : Shape (front ++ ⟨size, used⟩ :: back) h) {first second : Nat} (cut : first + second = size)
    (one : 16 ≤ first ∧ first % 4 = 0) (two : 16 ≤ second ∧ second % 4 = 0) :
    Shape (front ++ ⟨first, used⟩ :: ⟨second, false⟩ :: back) (h.split (total front) (total front + first)) := by
  have header := shape.header
  have whole := shape.whole
  have next : (h.mem (total front)).next = total front + size := by rw [header]
  have inside : total front + first < (h.mem (total front)).next := by
    rw [next]
    omega
  have cells := split_mem (by omega : total front < total front + first) inside
  have total_one : total [(⟨size, used⟩ : Piece)] = size := by simp
  rw [total_append, total_cons] at whole
  change total front + (size + total back) = h.heapEnd at whole
  rw [next] at cells
  have result : Shape (front ++ [⟨first, used⟩, ⟨second, false⟩] ++ back)
      (h.split (total front) (total front + first)) := by
    rw [List.append_cons] at shape
    refine shape.splice (by simp [cut]) (fun piece member => ?_) (split_size _ _ _) ⟨?_, ?_, trivial⟩
      (fun place less => ?_) (fun place less => ?_) ?_
    · rcases List.mem_cons.mp member with rfl | member
      · exact one
      · rw [List.mem_singleton.mp member]
        exact two
    · rw [cells, if_pos rfl, header]
    · rw [cells, if_neg (by change total front + first ≠ total front; omega), if_pos rfl]
      change HeapMem.mk heapMagic false (total front + size) (total front) =
        HeapMem.mk heapMagic false (total front + first + second) (total front)
      rw [Nat.add_assoc, cut]
    · rw [cells, if_neg (by omega), if_neg (by omega), if_neg (by omega)]
    · rw [cells, if_neg (by omega), if_neg (by omega), if_neg (by omega)]
    · rw [total_one, cells, if_neg (by omega), if_neg (by omega)]
      cases back with
      | nil => exact ⟨_, if_neg fun is => is.2 whole, fun more => absurd rfl more⟩
      | cons piece rest =>
        have size_pos := shape.positive piece (by simp)
        rw [total_cons] at whole
        exact ⟨_, if_pos ⟨rfl, by omega⟩, fun _ => rfl⟩
  rwa [List.append_assoc] at result

theorem join {one two : Nat} (shape : Shape (front ++ ⟨one, false⟩ :: ⟨two, false⟩ :: back) h) {joined : Heap}
    (same : joined.memSizeAligned = h.memSizeAligned) (cells : ∀ place, joined.mem place =
      if place = total front + one + two then { h.mem place with prev := total front }
      else if place = total front then { h.mem place with next := total front + one + two } else h.mem place) :
    Shape (front ++ ⟨one + two, false⟩ :: back) joined := by
  have header := shape.header
  have first := shape.sizes ⟨one, false⟩ (by simp)
  have second := shape.sizes ⟨two, false⟩ (by simp)
  have total_two : total [(⟨one, false⟩ : Piece), ⟨two, false⟩] = one + two := by simp
  change 16 ≤ one ∧ one % 4 = 0 at first
  change 16 ≤ two ∧ two % 4 = 0 at second
  have result : Shape (front ++ [⟨one + two, false⟩] ++ back) joined := by
    have parts : front ++ ⟨one, false⟩ :: ⟨two, false⟩ :: back = front ++ [⟨one, false⟩, ⟨two, false⟩] ++ back := by simp
    rw [parts] at shape
    refine shape.splice (by simp) (fun piece member => ?_) same ⟨?_, trivial⟩ (fun place less => ?_)
      (fun place less => ?_) ?_
    · rw [List.mem_singleton.mp member]
      change 16 ≤ one + two ∧ (one + two) % 4 = 0
      omega
    · rw [cells, if_neg (by omega), if_pos rfl, header]
      change HeapMem.mk heapMagic false (total front + one + two) _ =
        HeapMem.mk heapMagic false (total front + (one + two)) _
      rw [Nat.add_assoc]
    · rw [cells, if_neg (by omega), if_neg (by omega)]
    · rw [cells, if_neg (by omega), if_neg (by omega)]
    · rw [total_two, ← Nat.add_assoc, cells, if_pos rfl]
      exact ⟨_, rfl, fun _ => rfl⟩
  rwa [List.append_assoc] at result

end Shape

theorem plugForward_spec (shape : Shape (front ++ ⟨size, false⟩ :: back) h) (tight : Joined back)
    (low : h.lfree = firstFree 0 (front ++ ⟨size, false⟩ :: back)) : ∃ larger rest,
      Joins (front ++ ⟨size, false⟩ :: back) (front ++ ⟨larger, false⟩ :: rest) ∧
      Shape (front ++ ⟨larger, false⟩ :: rest) (h.plugForward (total front)) ∧ Joined rest ∧
      (∀ piece, rest.head? = some piece → piece.used = true) ∧
      Same (inUse 0 (front ++ ⟨size, false⟩ :: back)) h (h.plugForward (total front)) ∧
      (h.plugForward (total front)).lfree = h.lfree := by
  have next : (h.mem (total front)).next = total front + size := by rw [shape.header]
  have whole := shape.whole
  rw [total_append, total_cons] at whole
  change total front + (size + total back) = h.heapEnd at whole
  have big : 16 ≤ size := (shape.sizes ⟨size, false⟩ (by simp)).1
  have stays : (∀ piece, back.head? = some piece → piece.used = true) → (h.mem (total front + size)).used = true →
      ∃ larger rest, Joins (front ++ ⟨size, false⟩ :: back) (front ++ ⟨larger, false⟩ :: rest) ∧
        Shape (front ++ ⟨larger, false⟩ :: rest) (h.plugForward (total front)) ∧ Joined rest ∧
        (∀ piece, rest.head? = some piece → piece.used = true) ∧
        Same (inUse 0 (front ++ ⟨size, false⟩ :: back)) h (h.plugForward (total front)) ∧
        (h.plugForward (total front)).lfree = h.lfree := by
    intro used at_next
    have same : h.plugForward (total front) = h := by
      unfold Heap.plugForward
      rw [next]
      exact if_neg fun is => by rw [at_next] at is; cases is.2.1
    rw [same]
    exact ⟨size, back, .done _, shape, tight, used, .refl _ h, rfl⟩
  cases back with
  | nil =>
    refine stays (fun _ is => by cases is) ?_
    rw [show total front + size = h.heapEnd from whole]
    exact shape.ends.1
  | cons piece rest =>
    have split : front ++ ⟨size, false⟩ :: piece :: rest = (front ++ [⟨size, false⟩]) ++ piece :: rest := by simp
    have second := (split ▸ shape).header
    rw [total_append, total_cons, total_nil] at second
    change h.mem (total front + (size + 0)) = _ at second
    rw [Nat.add_zero] at second
    obtain ⟨two, used⟩ := piece
    cases used with
    | true => exact stays (fun _ is => by cases is; rfl) (by rw [second])
    | false =>
      have low_le := firstFree_le 0 size front (⟨two, false⟩ :: rest)
      rw [Nat.zero_add, ← low] at low_le
      have some_second : 16 ≤ two := (shape.sizes ⟨two, false⟩ (by simp)).1
      rw [total_cons] at whole
      change total front + (size + (two + total rest)) = h.heapEnd at whole
      have cond : total front ≠ total front + size ∧ (h.mem (total front + size)).used = false ∧
          total front + size ≠ h.heapEnd := by
        refine ⟨by omega, by rw [second], by omega⟩
      have further : (h.mem (total front + size)).next = total front + size + two := by rw [second]
      have plugged : h.plugForward (total front) = Heap.linkOver
          { h with lfree := if h.lfree = total front + size then total front else h.lfree } (total front)
            (total front + size + two) := by
        unfold Heap.plugForward
        rw [next, ← further]
        exact if_pos cond
      have kept : ¬h.lfree = total front + size := by omega
      rw [plugged, if_neg kept]
      have joined : Shape (front ++ ⟨size + two, false⟩ :: rest)
          (h.linkOver (total front) (total front + size + two)) := shape.join rfl (linkOver_mem (by omega))
      refine ⟨size + two, rest, .join front size two rest (.done _), joined, (List.isChain_cons.mp tight).2,
        fun other is => ?_, linkOver_same (clear_seam _ _) ?_, rfl⟩
      · have := (List.isChain_cons.mp tight).1 other is
        exact this.resolve_left Bool.false_ne_true
      · have seam := clear_seam (front ++ [⟨size, false⟩, ⟨two, false⟩]) rest
        simpa [Nat.add_assoc] using seam

theorem plugBackward_spec (shape : Shape (front ++ ⟨size, false⟩ :: back) h) (tight : Joined front)
    (low : h.lfree = firstFree 0 (front ++ ⟨size, false⟩ :: back)) : ∃ before larger,
      Joins (front ++ ⟨size, false⟩ :: back) (before ++ ⟨larger, false⟩ :: back) ∧
      Shape (before ++ ⟨larger, false⟩ :: back) (h.plugBackward (total front)) ∧ Joined before ∧
      (∀ piece, before.getLast? = some piece → piece.used = true) ∧
      Same (inUse 0 (front ++ ⟨size, false⟩ :: back)) h (h.plugBackward (total front)) ∧
      (h.plugBackward (total front)).lfree = h.lfree := by
  have header := shape.header
  have big : 16 ≤ size := (shape.sizes ⟨size, false⟩ (by simp)).1
  rcases List.eq_nil_or_concat front with rfl | ⟨before, last, rfl⟩
  · have same : h.plugBackward (total []) = h := by
      unfold Heap.plugBackward
      rw [header]
      exact if_neg fun is => is.1 rfl
    rw [same]
    exact ⟨[], size, .done _, shape, tight, fun _ is => (by cases is), .refl _ h, rfl⟩
  · rw [List.concat_eq_append] at *
    have prev : (h.mem (total (before ++ [last]))).prev = total before := by
      rw [header, lastStart_append, Nat.zero_add]
      rfl
    have previous := (List.append_assoc before [last] _ ▸ shape).header
    obtain ⟨one, used⟩ := last
    cases used with
    | true =>
      have same : h.plugBackward (total (before ++ [⟨one, true⟩])) = h := by
        unfold Heap.plugBackward
        rw [prev]
        exact if_neg fun is => by rw [previous] at is; cases is.2
      rw [same]
      refine ⟨before ++ [⟨one, true⟩], size, .done _, shape, tight, fun piece is => ?_, .refl _ h, rfl⟩
      rw [List.getLast?_append, List.getLast?_singleton, Option.some_or] at is
      cases is
      rfl
    | false =>
      have low_le := firstFree_le 0 one before (⟨size, false⟩ :: back)
      rw [List.append_assoc] at low shape
      change h.lfree = firstFree 0 (before ++ ⟨one, false⟩ :: ⟨size, false⟩ :: back) at low
      rw [Nat.zero_add, ← low] at low_le
      have some_first : 16 ≤ one := (shape.sizes ⟨one, false⟩ (by simp)).1
      have next : (h.mem (total (before ++ [⟨one, false⟩]))).next = total before + one + size := by
        rw [header, total_append]
        rfl
      have whole_one : total (before ++ [⟨one, false⟩]) = total before + one := by simp
      rw [whole_one] at next prev ⊢
      have plugged : h.plugBackward (total before + one) = Heap.linkOver
          { h with lfree := if h.lfree = total before + one then total before else h.lfree } (total before)
            (total before + one + size) := by
        unfold Heap.plugBackward
        rw [prev, ← next]
        exact if_pos ⟨by omega, by rw [previous]⟩
      have kept : ¬h.lfree = total before + one := by omega
      rw [plugged, if_neg kept]
      have joined : Shape (before ++ ⟨one + size, false⟩ :: back)
          (h.linkOver (total before) (total before + one + size)) := shape.join rfl (linkOver_mem (by omega))
      refine ⟨before, one + size, ?_, joined, tight.left_of_append, fun piece is => ?_, linkOver_same ?_ ?_, rfl⟩
      · rw [List.append_assoc]
        exact .join before one size back (.done _)
      · exact ((List.isChain_append.mp tight).2.2 piece is ⟨one, false⟩ rfl).resolve_right Bool.false_ne_true
      · rw [List.append_assoc]
        exact clear_seam _ _
      · have seam := clear_seam (before ++ [⟨one, false⟩, ⟨size, false⟩]) back
        simpa [Nat.add_assoc] using seam

/-- `plug_holes` on a free block joins it with the free blocks beside it. -/
theorem plugHoles_spec (shape : Shape (front ++ ⟨size, false⟩ :: back) h) (ahead : Joined front)
    (behind : Joined back) (low : h.lfree = firstFree 0 (front ++ ⟨size, false⟩ :: back)) : ∃ joined,
      Joins (front ++ ⟨size, false⟩ :: back) joined ∧ Shape joined (h.plugHoles (total front)) ∧ Joined joined ∧
      Same (inUse 0 (front ++ ⟨size, false⟩ :: back)) h (h.plugHoles (total front)) ∧
      (h.plugHoles (total front)).lfree = firstFree 0 joined := by
  obtain ⟨larger, rest, forward, shaped, tight, next, same, lfree⟩ := plugForward_spec shape behind low
  have still := (forward.same 0).2.2
  obtain ⟨before, whole, backward, done, first, last, same_too, lfree_too⟩ :=
    plugBackward_spec shaped ahead (lfree.trans (low.trans still.symm))
  refine ⟨_, forward.trans backward, done, first.middle tight last next _,
    same.trans ((forward.same 0).2.1 ▸ same_too), ?_⟩
  exact lfree_too.trans (lfree.trans (low.trans ((forward.trans backward).same 0).2.2.symm))

end SmartWatch.Proofs.HeapBlocks
