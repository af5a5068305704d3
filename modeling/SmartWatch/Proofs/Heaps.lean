import SmartWatch.Proofs.HeapBlocks

/-! The functions of the allocator on a heap whose headers are in order. -/

namespace SmartWatch.Proofs.Heaps
open Tilings SmartWatch.Proofs.HeapBlocks

variable {h after : Heap} {pieces front back rest : List Piece} {prev start size need turns ptr : Nat}

/-- What all callers may rely on: the blocks tile the heap, no two free ones lie beside
each other, the lowest free one and the memory in use are known, and no address wraps. -/
structure Intact (pieces : List Piece) (h : Heap) : Prop where
  shape : Shape pieces h
  joined : Joined pieces
  low : h.lfree = firstFree 0 pieces
  used : h.usedMem = extent (inUse 0 pieces)
  most : h.usedMem ≤ h.maxMem
  aligned : h.heapPtr % 4 = 0 ∧ h.memSizeAligned % 4 = 0
  room : minSizeAligned ≤ h.memSizeAligned ∧ h.heapPtr + h.memSizeAligned + 2 * sizeofStructMem < 2 ^ 32
  quiet : h.complaints = 0

theorem minus_eq {one two : Nat} (less : two ≤ one) (small : one < 2 ^ 32) : minus one two = one - two := by
  unfold minus
  rw [Nat.add_comm one, Nat.add_sub_assoc less, Nat.add_mod_left]
  exact Nat.mod_eq_of_lt (by omega)

theorem rtAlign_eq (small : size ≤ 2 ^ 32 - 4) : rtAlign size = (size + 3) / 4 * 4 := by
  unfold rtAlign
  rw [Nat.mod_eq_of_lt (by omega)]

theorem length_le (sizes : ∀ piece ∈ pieces, 16 ≤ piece.size ∧ piece.size % 4 = 0) :
    16 * pieces.length ≤ total pieces := by
  induction pieces with
  | nil => exact Nat.le_refl 0
  | cons piece rest ih =>
    have := ih fun other member => sizes other (List.mem_cons_of_mem _ member)
    have := (sizes piece List.mem_cons_self).1
    rw [List.length_cons, total_cons]
    omega

/-- The search of `rt_malloc` finds the first block that fits. -/
private theorem search_spec {limit : Nat} (laid : Laid h.mem prev start rest) (whole : start + total rest = h.heapEnd)
    (sizes : ∀ piece ∈ rest, 16 ≤ piece.size ∧ piece.size % 4 = 0) (small : h.heapEnd < 2 ^ 32)
    (limited : minus h.memSizeAligned size = limit) (within : limit ≤ h.memSizeAligned)
    (enough : rest.length < turns) :
    h.search size turns start = some (firstFit limit (size + sizeofStructMem) start rest) := by
  induction turns generalizing prev start rest with
  | zero => exact absurd enough (Nat.not_lt_zero _)
  | succ turns ih =>
    unfold Heap.search
    rw [limited]
    cases rest with
    | nil =>
      rw [total_nil, Nat.add_zero] at whole
      have : h.heapEnd = h.memSizeAligned + 12 := rfl
      rw [if_neg (by omega)]
      rfl
    | cons piece rest =>
      rw [total_cons] at whole
      obtain ⟨header, laid⟩ := laid
      have big := (sizes piece List.mem_cons_self).1
      have struct_size : sizeofStructMem = 12 := rfl
      have fits : minus (start + piece.size) (start + sizeofStructMem) = piece.size - sizeofStructMem := by
        rw [struct_size, minus_eq (by omega) (by omega)]
        omega
      have cond : (h.mem start).used = false ∧ piece.size - sizeofStructMem ≥ size ↔
          piece.used = false ∧ size + sizeofStructMem ≤ piece.size := by
        rw [header, struct_size]
        exact and_congr_right fun _ => by omega
      have next : (h.mem start).next = start + piece.size := by rw [header]
      have fewer : rest.length < turns := Nat.lt_of_succ_lt_succ enough
      have others := ih laid (by omega) (fun other member => sizes other (List.mem_cons_of_mem _ member)) fewer
      rw [firstFit, next, fits, others]
      simp only [cond]
      split
      · split <;> rfl
      · rfl

private theorem lowest_spec (laid : Laid h.mem prev start rest) (whole : start + total rest = h.heapEnd)
    (positive : ∀ piece ∈ rest, 0 < piece.size) (enough : rest.length < turns) :
    h.lowest turns start = some (firstFree start rest) := by
  induction turns generalizing prev start rest with
  | zero => exact absurd enough (Nat.not_lt_zero _)
  | succ turns ih =>
    unfold Heap.lowest
    cases rest with
    | nil => exact if_neg fun is => is.2 whole
    | cons piece rest =>
      rw [total_cons] at whole
      obtain ⟨header, laid⟩ := laid
      have size := positive piece List.mem_cons_self
      have next : (h.mem start).next = start + piece.size := by rw [header]
      have used : (h.mem start).used = piece.used := by rw [header]
      have fewer : rest.length < turns := Nat.lt_of_succ_lt_succ enough
      have others := ih laid (by omega) (fun other member => positive other (List.mem_cons_of_mem _ member)) fewer
      rw [firstFree, next, used, others]
      have inside : start ≠ h.heapEnd := by omega
      simp only [inside, ne_eq, not_false_eq_true, and_true]
      split <;> rfl

/-- What `rt_malloc` does to a heap besides the headers. -/
structure Allotted (areas : List (Nat × Nat)) (h after : Heap) (taken : Nat) : Prop extends Still areas h after where
  usedMem : after.usedMem = (h.usedMem + taken) % 2 ^ 32
  maxMem : after.usedMem ≤ after.maxMem
  complaints : after.complaints = h.complaints

theorem use_spec (shape : Shape (front ++ ⟨size, false⟩ :: back) h) (taken : Nat) :
    Shape (front ++ ⟨size, true⟩ :: back) (h.use (total front) taken) ∧
      Allotted (inUse 0 (front ++ ⟨size, false⟩ :: back)) h (h.use (total front) taken) taken ∧
      (h.use (total front) taken).lfree = h.lfree := by
  have marked := shape.mark true
  have same := setMem_same (h := h) (clear_seam front (⟨size, false⟩ :: back))
    { h.mem (total front) with used := true, magic := heapMagic }
  have most : (h.usedMem + taken) % 2 ^ 32 ≤
      if h.maxMem < (h.usedMem + taken) % 2 ^ 32 then (h.usedMem + taken) % 2 ^ 32 else h.maxMem := by
    split <;> omega
  exact ⟨⟨marked.laid, marked.whole, marked.ends, marked.sizes⟩, ⟨⟨rfl, rfl, same.data⟩, rfl, most, rfl⟩, rfl⟩

private theorem allot_spec (shape : Shape (front ++ ⟨size, false⟩ :: back) h)
    (tight : Joined (front ++ ⟨size, false⟩ :: back)) (small : h.heapEnd < 2 ^ 32)
    (fits : need + sizeofStructMem ≤ size) (rounded : minSizeAligned ≤ need ∧ need % 4 = 0) :
    ∃ taken rest, Shape (front ++ ⟨taken, true⟩ :: rest) (h.allot (total front) need) ∧
      Joined (front ++ ⟨taken, true⟩ :: rest) ∧
      need + sizeofStructMem ≤ taken ∧ inUse (total front + taken) rest = inUse (total front + size) back ∧
      Allotted (inUse 0 (front ++ ⟨size, false⟩ :: back)) h (h.allot (total front) need) taken ∧
      (h.allot (total front) need).lfree = h.lfree := by
  have header := shape.header
  have whole := shape.whole
  have cut := shape.sizes ⟨size, false⟩ (by simp)
  change 16 ≤ size ∧ size % 4 = 0 at cut
  rw [total_append, total_cons] at whole
  change total front + (size + total back) = h.heapEnd at whole
  have struct_size : sizeofStructMem = 12 := rfl
  have min_size : minSizeAligned = 12 := rfl
  rw [struct_size] at fits ⊢
  rw [min_size] at rounded
  have next : (h.mem (total front)).next = total front + size := by rw [header]
  have room : minus (h.mem (total front)).next (total front + 12) = size - 12 := by
    rw [next, minus_eq (by omega) (by omega)]
    omega
  by_cases spare : size - 12 ≥ need + 12 + 12
  · have parted := shape.split (by omega : need + 12 + (size - (need + 12)) = size) (by omega) (by omega)
    have inside {place : Nat} (low : total front ≤ place) (high : place ≤ total front + size) :=
      clear_free front back low high
    have seam : Clear (inUse 0 (front ++ ⟨size, false⟩ :: back)) (total front + (need + 12)) :=
      inside (by omega) (by omega)
    have behind : Clear (inUse 0 (front ++ ⟨size, false⟩ :: back)) (h.mem (total front)).next :=
      next ▸ inside (by omega) (Nat.le_refl _)
    have same := split_same (h := h) (inside (Nat.le_refl _) (by omega)) seam behind
    have joined := ((Joins.join front (need + 12) (size - (need + 12)) back (.done _)).same 0).2.1
    rw [show need + 12 + (size - (need + 12)) = size by omega] at joined
    have done : h.allot (total front) need =
        (h.split (total front) (total front + (need + 12))).use (total front) (need + 12) := by
      have place : total front + (need + 12) = total front + sizeofStructMem + need := by omega
      rw [place]
      exact if_pos (room.symm ▸ spare)
    obtain ⟨shaped, allotted, low⟩ := use_spec parted (need + 12)
    have tight := (tight.cut (need + 12) (size - (need + 12))).1
    have used := allotted.usedMem
    rw [same.usedMem] at used
    have quiet := allotted.complaints.trans same.complaints
    have still := same.toStill.trans (joined ▸ allotted.toStill)
    have others : inUse (total front + (need + 12)) (⟨size - (need + 12), false⟩ :: back) =
        inUse (total front + size) back := by
      rw [inUse, if_neg Bool.false_ne_true]
      congr 1
      change total front + (need + 12) + (size - (need + 12)) = total front + size
      omega
    rw [done]
    exact ⟨need + 12, ⟨size - (need + 12), false⟩ :: back, shaped, tight, Nat.le_refl _, others,
      ⟨still, used, allotted.maxMem, quiet⟩, low.trans (split_lfree _ _ _)⟩
  · have extent : minus (h.mem (total front)).next (total front) = size := by
      rw [next, minus_eq (by omega) (by omega)]
      omega
    have done : h.allot (total front) need = h.use (total front) size := by
      rw [← extent]
      exact if_neg (room.symm ▸ spare)
    obtain ⟨shaped, allotted, low⟩ := use_spec shape size
    rw [done]
    exact ⟨size, back, shaped, (tight.cut size 0).2, fits, rfl, allotted, low⟩

def wanted (size : Nat) : Nat := if rtAlign size < minSizeAligned then minSizeAligned else rtAlign size

/-- The block `rt_malloc` finds for a request. -/
def fit (pieces : List Piece) (memSizeAligned size : Nat) : Option Nat :=
  if size = 0 ∨ rtAlign size > memSizeAligned then none
  else firstFit (memSizeAligned - wanted size) (wanted size + sizeofStructMem) 0 pieces

theorem wanted_spec (small : size ≤ 2 ^ 32 - 4) :
    size ≤ wanted size ∧ minSizeAligned ≤ wanted size ∧ wanted size % 4 = 0 := by
  have min_size : minSizeAligned = 12 := rfl
  unfold wanted
  rw [rtAlign_eq small, min_size]
  by_cases short : (size + 3) / 4 * 4 < 12
  · rw [if_pos short]
    omega
  · rw [if_neg short]
    omega

private theorem found_spec (intact : Intact pieces h) {need : Nat} (fits : need ≤ h.memSizeAligned) :
    h.search need (h.memSizeAligned + 2) h.lfree =
      some (firstFit (h.memSizeAligned - need) (need + sizeofStructMem) 0 pieces) := by
  obtain ⟨ahead, rest, rfl, used, place, _⟩ := firstFree_split 0 pieces
  have whole := intact.shape.whole
  have few := length_le intact.shape.sizes
  have limited := minus_eq fits (by have := intact.room.2; omega)
  have ends : h.heapEnd = h.memSizeAligned + 12 := rfl
  have laid := ((laid_append 0 0 ahead rest).mp intact.shape.laid).2
  rw [total_append] at whole few
  rw [List.length_append] at few
  rw [intact.low, firstFit_used used, place]
  have room : h.heapPtr + h.memSizeAligned + 2 * 12 < 2 ^ 32 := intact.room.2
  have sizes : ∀ piece ∈ rest, 16 ≤ piece.size ∧ piece.size % 4 = 0 :=
    fun piece member => intact.shape.sizes piece (List.mem_append_right _ member)
  exact search_spec laid (by omega) sizes (by omega) limited (by omega) (by omega)

/-- The loop behind the search moves the lowest free block on when that was the one found. -/
private theorem lowest_allotted {taken : Nat} (shape : Shape (front ++ ⟨taken, true⟩ :: rest) h)
    (low : h.lfree = firstFree 0 (front ++ ⟨size, false⟩ :: back)) :
    if total front = h.lfree then
      h.lowest (h.memSizeAligned + 2) h.lfree = some (firstFree 0 (front ++ ⟨taken, true⟩ :: rest))
    else h.lfree = firstFree 0 (front ++ ⟨taken, true⟩ :: rest) := by
  have before : ∀ piece ∈ front, 0 < piece.size :=
    fun piece member => shape.positive piece (List.mem_append_left _ member)
  have whole := shape.whole
  have few := length_le shape.sizes
  have ends : h.heapEnd = h.memSizeAligned + 12 := rfl
  rw [total_append] at whole few
  rw [List.length_append] at few
  split
  next first =>
    have used := firstFree_first (by rw [← low, ← first, Nat.zero_add]) before
    have laid := ((laid_append 0 0 front _).mp shape.laid).2
    rw [firstFree_used used, ← first]
    rw [Nat.zero_add] at laid ⊢
    have positive : ∀ piece ∈ (⟨taken, true⟩ : Piece) :: rest, 0 < piece.size :=
      fun piece member => shape.positive piece (List.mem_append_right _ member)
    exact lowest_spec laid (by omega) positive (by omega)
  next other =>
    by_cases free : ∃ piece ∈ front, piece.used = false
    · rw [low, firstFree_before free, firstFree_before free]
    · have used : ∀ piece ∈ front, piece.used = true := fun piece member => by
        cases flag : piece.used with
        | true => rfl
        | false => exact absurd ⟨piece, member, flag⟩ free
      rw [firstFree_used used, Nat.zero_add] at low
      exact absurd low.symm other

theorem Intact.small (intact : Intact pieces h) : h.heapEnd < 2 ^ 32 := by
  have room := intact.room.2
  unfold Heap.heapEnd
  omega

/-- Where a request is granted, and what this leaves of the other areas. -/
structure Granted (pieces now : List Piece) (h after : Heap) (place taken : Nat) : Prop where
  intact : Intact now after
  areas : ∀ area, area ∈ inUse 0 now ↔ area = (place, taken) ∨ area ∈ inUse 0 pieces
  fresh : ∀ area ∈ inUse 0 pieces, area.1 ≠ place
  still : Still (inUse 0 pieces) h after

private theorem shape_counted (shape : Shape pieces h) (lfree usedMem : Nat) :
    Shape pieces { h with lfree } ∧ Shape pieces { h with usedMem } :=
  ⟨⟨shape.laid, shape.whole, shape.ends, shape.sizes⟩, shape.laid, shape.whole, shape.ends, shape.sizes⟩

theorem granted (intact : Intact (front ++ ⟨size, false⟩ :: back) h) {middle : Heap} {taken : Nat}
    (shape : Shape (front ++ ⟨taken, true⟩ :: rest) middle) (joined : Joined (front ++ ⟨taken, true⟩ :: rest))
    (others : inUse (total front + taken) rest = inUse (total front + size) back)
    (allotted : Allotted (inUse 0 (front ++ ⟨size, false⟩ :: back)) h middle taken) :
    Granted (front ++ ⟨size, false⟩ :: back) (front ++ ⟨taken, true⟩ :: rest) h
      { middle with lfree := firstFree 0 (front ++ ⟨taken, true⟩ :: rest) } (total front) taken := by
  have still := allotted.toStill
  have quiet := allotted.complaints.trans intact.quiet
  refine ⟨⟨(shape_counted shape _ 0).1, joined, rfl, ?_, allotted.maxMem, ?_, ?_, quiet⟩,
    fun area => ?_, fun area member => ?_, ⟨still.heapPtr, still.memSizeAligned, still.data⟩⟩
  · have before := intact.used
    have small : middle.heapEnd < 2 ^ 32 := by
      rw [Heap.heapEnd, still.memSizeAligned]
      exact intact.small
    have bound := Nat.lt_of_le_of_lt (extent_le 0 _) (shape.whole ▸ small)
    rw [inUse_middle] at before bound ⊢
    simp only [Nat.zero_add, Bool.false_eq_true, if_false, if_true, List.append_nil, extent_append,
      extent] at before bound ⊢
    rw [others] at bound ⊢
    rw [allotted.usedMem, Nat.mod_eq_of_lt (by omega)]
    omega
  · rw [still.heapPtr, still.memSizeAligned]
    exact intact.aligned
  · rw [still.heapPtr, still.memSizeAligned]
    exact intact.room
  · rw [inUse_middle, inUse_middle]
    simp only [Nat.zero_add, Bool.false_eq_true, if_false, if_true, List.append_nil, List.mem_append,
      List.mem_singleton, others]
    rw [or_assoc, or_left_comm]
  · have split := (inUse_other intact.shape.positive 0 area).mpr
    rw [inUse_middle] at member
    simp only [Bool.false_eq_true, if_false, List.append_nil] at member
    have := (split (List.mem_append.mp member)).2
    rwa [Nat.zero_add] at this

private theorem moved_on {low rmem : Nat}
    (place : if ptr = after.lfree then after.lowest turns after.lfree = some low else after.lfree = low) :
    (if ptr = after.lfree then (after.lowest turns after.lfree).map fun lfree => ({ after with lfree }, rmem)
      else some (after, rmem)) =
      some ({ after with lfree := low }, rmem) := by
  split at place
  next first => rw [if_pos first, place, Option.map_some]
  next other => rw [if_neg other, ← place]

private theorem grant_spec (intact : Intact (front ++ ⟨size, false⟩ :: back) h) (fits : need + sizeofStructMem ≤ size)
    (rounded : minSizeAligned ≤ need ∧ need % 4 = 0) : ∃ taken now after,
      h.grant need (some (total front)) = some (after, h.heapPtr + total front + sizeofStructMem) ∧
      need + sizeofStructMem ≤ taken ∧
      Granted (front ++ ⟨size, false⟩ :: back) now h after (total front) taken := by
  obtain ⟨taken, rest, shape, joined, enough, others, allotted, low⟩ :=
    allot_spec intact.shape intact.joined intact.small fits rounded
  have place := lowest_allotted shape (low.trans intact.low)
  rw [allotted.memSizeAligned] at place
  exact ⟨taken, _, _, moved_on place, enough, granted intact shape joined others allotted⟩

/-- `rt_malloc` grants a request in the first block that fits, or leaves the heap as it is. -/
theorem rtMalloc_spec (intact : Intact pieces h) (small : size ≤ 2 ^ 32 - 4) :
    (fit pieces h.memSizeAligned size = none ∧ h.rtMalloc size = some (h, 0)) ∨
    ∃ place taken now after, fit pieces h.memSizeAligned size = some place ∧
      h.rtMalloc size = some (after, h.heapPtr + place + sizeofStructMem) ∧ wanted size + sizeofStructMem ≤ taken ∧
      Granted pieces now h after place taken := by
  unfold fit Heap.rtMalloc
  by_cases empty : size = 0
  · exact .inl ⟨if_pos (.inl empty), if_pos empty⟩
  · rw [if_neg empty]
    by_cases large : rtAlign size > h.memSizeAligned
    · exact .inl ⟨if_pos (.inr large), if_pos large⟩
    · rw [if_neg large, if_neg fun is => is.elim empty large]
      have least := wanted_spec small
      have within : wanted size ≤ h.memSizeAligned := by
        have := intact.room.1
        unfold wanted
        split <;> omega
      have found := found_spec intact within
      change _ ∧ (h.search (wanted size) _ _).bind (h.grant (wanted size)) = _ ∨ ∃ place taken now after, _ ∧
        (h.search (wanted size) _ _).bind (h.grant (wanted size)) = _ ∧ _
      rw [found, Option.bind_some]
      cases first : firstFit (h.memSizeAligned - wanted size) (wanted size + sizeofStructMem) 0 pieces with
      | none => exact .inl ⟨rfl, rfl⟩
      | some place =>
        obtain ⟨front, size, back, rfl, at_place, fits, _⟩ := firstFit_some first
        rw [Nat.zero_add] at at_place
        subst at_place
        obtain ⟨taken, now, after, granted, enough, done⟩ := grant_spec intact fits least.2
        exact .inr ⟨_, taken, now, after, rfl, granted, enough, done⟩

/-- What giving memory back does to a heap besides the headers. -/
structure Returned (areas : List (Nat × Nat)) (h after : Heap) (less : Nat) : Prop extends Still areas h after where
  usedMem : after.usedMem = minus h.usedMem less
  maxMem : after.maxMem = h.maxMem
  complaints : after.complaints = h.complaints

theorem release_spec (shape : Shape (front ++ ⟨size, true⟩ :: back) h) (small : h.heapEnd < 2 ^ 32)
    (low : h.lfree = firstFree 0 (front ++ ⟨size, true⟩ :: back)) :
    Shape (front ++ ⟨size, false⟩ :: back) (h.release (total front)) ∧
      (h.release (total front)).lfree = firstFree 0 (front ++ ⟨size, false⟩ :: back) ∧
      Returned (inUse 0 (front ++ ⟨size, false⟩ :: back)) h (h.release (total front)) size := by
  have marked := shape.mark false
  have same := setMem_same (h := h) (clear_seam front (⟨size, false⟩ :: back))
    { h.mem (total front) with used := false, magic := heapMagic }
  have whole := shape.whole
  rw [total_append, total_cons] at whole
  change total front + (size + total back) = h.heapEnd at whole
  have next : (h.mem (total front)).next = total front + size := by rw [shape.header]
  have taken : minus (h.mem (total front)).next (total front) = size := by
    rw [next, minus_eq (by omega) (by omega)]
    omega
  refine ⟨⟨marked.laid, marked.whole, marked.ends, marked.sizes⟩, ?_, ⟨⟨rfl, rfl, same.data⟩, ?_, rfl, rfl⟩⟩
  · rw [firstFree_free, ← low, Nat.zero_add]
    rfl
  · rw [← taken]
    rfl

theorem shrink_lfree (h : Heap) (ptr ptr2 less : Nat) :
    (h.shrink ptr ptr2 less).lfree = if ptr2 < h.lfree then ptr2 else h.lfree := by
  have kept : (({ h with usedMem := minus h.usedMem less } : Heap).split ptr ptr2).lfree = h.lfree :=
    split_lfree _ _ _
  unfold Heap.shrink
  dsimp only
  rw [kept]

theorem same_returned {areas : List (Nat × Nat)} {less : Nat}
    (same : Same areas { h with usedMem := minus h.usedMem less } after) (lfree : Nat) :
    Returned areas h { after with lfree } less :=
  ⟨⟨same.heapPtr, same.memSizeAligned, same.data⟩, same.usedMem, same.maxMem, same.complaints⟩

theorem shrink_spec {first second : Nat} (shape : Shape (front ++ ⟨size, true⟩ :: back) h)
    (cut : first + second = size) (one : 16 ≤ first ∧ first % 4 = 0) (two : 16 ≤ second ∧ second % 4 = 0)
    (low : h.lfree = firstFree 0 (front ++ ⟨size, true⟩ :: back)) (less : Nat) :
    Shape (front ++ ⟨first, true⟩ :: ⟨second, false⟩ :: back) (h.shrink (total front) (total front + first) less) ∧
      (h.shrink (total front) (total front + first) less).lfree =
      firstFree 0 (front ++ ⟨first, true⟩ :: ⟨second, false⟩ :: back) ∧
      Returned (inUse 0 (front ++ ⟨first, true⟩ :: ⟨second, false⟩ :: back)) h
        (h.shrink (total front) (total front + first) less) less := by
  have next : (h.mem (total front)).next = total front + size := by rw [shape.header]
  have parted := (shape_counted shape 0 (minus h.usedMem less)).2.split cut one two
  have split : front ++ ⟨first, true⟩ :: ⟨second, false⟩ :: back =
      (front ++ [⟨first, true⟩]) ++ ⟨second, false⟩ :: back := by simp
  have place : total (front ++ [⟨first, true⟩]) = total front + first := by simp
  have inside {at_place : Nat} (least : total front + first ≤ at_place) (most : at_place ≤ total front + size) :
      Clear (inUse 0 (front ++ ⟨first, true⟩ :: ⟨second, false⟩ :: back)) at_place := by
    rw [split]
    exact clear_free _ _ (by omega) (by omega)
  have behind : Clear (inUse 0 (front ++ ⟨first, true⟩ :: ⟨second, false⟩ :: back)) (h.mem (total front)).next := by
    rw [next]
    exact inside (by omega) (Nat.le_refl _)
  have same := split_same (h := { h with usedMem := minus h.usedMem less })
    (clear_seam front (⟨first, true⟩ :: ⟨second, false⟩ :: back)) (inside (Nat.le_refl _) (by omega)) behind
  have mark := firstFree_free 0 second (front ++ [⟨first, true⟩]) back
  have whole_used : firstFree 0 (front ++ [⟨first, true⟩] ++ ⟨second, true⟩ :: back) =
      firstFree 0 (front ++ ⟨size, true⟩ :: back) := by
    rw [← cut]
    exact firstFree_halves 0 first second front back
  rw [whole_used, place, Nat.zero_add, ← low, ← split] at mark
  refine ⟨(shape_counted parted _ 0).1, ?_, same_returned same _⟩
  rw [mark, shrink_lfree]

private theorem returned_intact {before : List Piece} {middle : Heap} {less : Nat} (intact : Intact before h)
    (shape : Shape (front ++ ⟨size, false⟩ :: back) middle) (ahead : Joined front) (behind : Joined back)
    (low : middle.lfree = firstFree 0 (front ++ ⟨size, false⟩ :: back))
    (returned : Returned (inUse 0 (front ++ ⟨size, false⟩ :: back)) h middle less)
    (counts : extent (inUse 0 before) = extent (inUse 0 (front ++ ⟨size, false⟩ :: back)) + less) :
    ∃ now, inUse 0 now = inUse 0 (front ++ ⟨size, false⟩ :: back) ∧ Intact now (middle.plugHoles (total front)) ∧
      Still (inUse 0 now) h (middle.plugHoles (total front)) := by
  obtain ⟨now, joins, shaped, joined, same, lfree⟩ := plugHoles_spec shape ahead behind low
  have areas := (joins.same 0).2.1
  have still := returned.toStill.trans same.toStill
  have used : h.usedMem = extent (inUse 0 (front ++ ⟨size, false⟩ :: back)) + less := intact.used.trans counts
  have bound : extent (inUse 0 before) ≤ total before := extent_le 0 before
  have whole := intact.shape.whole
  have small := intact.small
  have left : middle.usedMem = h.usedMem - less := by
    rw [returned.usedMem, minus_eq (by omega) (by rw [intact.used]; omega)]
  refine ⟨now, areas, ⟨shaped, joined, lfree, ?_, ?_, ?_, ?_, ?_⟩, areas.symm ▸ still⟩
  · rw [same.usedMem, left, areas, used]
    omega
  · have := intact.most
    rw [same.usedMem, same.maxMem, left, returned.maxMem]
    omega
  · rw [still.heapPtr, still.memSizeAligned]
    exact intact.aligned
  · rw [still.heapPtr, still.memSizeAligned]
    exact intact.room
  · rw [same.complaints, returned.complaints]
    exact intact.quiet

theorem address_spec (shape : Shape (front ++ ⟨size, true⟩ :: back) h) :
    ¬h.outside (h.heapPtr + total front + sizeofStructMem) ∧ h.heapPtr + total front + sizeofStructMem ≠ 0 ∧
      h.heapPtr + total front + sizeofStructMem - sizeofStructMem - h.heapPtr = total front ∧
      total front + size ≤ h.heapEnd := by
  have whole := shape.whole
  have big : 16 ≤ size := (shape.sizes ⟨size, true⟩ (by simp)).1
  have struct_size : sizeofStructMem = 12 := rfl
  rw [total_append, total_cons] at whole
  change total front + (size + total back) = h.heapEnd at whole
  unfold Heap.outside
  omega

private theorem counts_middle (front back : List Piece) (size : Nat) :
    extent (inUse 0 (front ++ ⟨size, true⟩ :: back)) = extent (inUse 0 (front ++ ⟨size, false⟩ :: back)) + size := by
  rw [inUse_middle, inUse_middle]
  simp only [if_true, Bool.false_eq_true, if_false, List.append_nil, extent_append, extent]
  omega

/-- `rt_free` of a block in use ends with the other ones in use. -/
theorem rtFree_spec {begin : Nat} (intact : Intact pieces h) (member : (begin, size) ∈ inUse 0 pieces) : ∃ now,
    Intact now (h.rtFree (h.heapPtr + begin + sizeofStructMem)) ∧
      (∀ area, area ∈ inUse 0 now ↔ area ∈ inUse 0 pieces ∧ area.1 ≠ begin) ∧
      Still (inUse 0 now) h (h.rtFree (h.heapPtr + begin + sizeofStructMem)) := by
  obtain ⟨front, back, rfl, place⟩ := mem_inUse member
  rw [Nat.zero_add] at place
  subst place
  obtain ⟨not_outside, not_null, header_at, _⟩ := address_spec intact.shape
  have header := intact.shape.header
  have fine : ¬((h.mem (total front)).used = false ∨ (h.mem (total front)).magic ≠ heapMagic) := by
    rw [header]
    simp
  have freed : h.rtFree (h.heapPtr + total front + sizeofStructMem) =
      (h.release (total front)).plugHoles (total front) := by
    unfold Heap.rtFree
    rw [if_neg fun is => is.elim not_null not_outside, header_at]
    dsimp only
    rw [if_neg fine]
  obtain ⟨shape, low, returned⟩ := release_spec intact.shape intact.small intact.low
  obtain ⟨ahead, behind, _⟩ := intact.joined.parts 0
  have counts := counts_middle front back size
  obtain ⟨now, areas, done, still⟩ := returned_intact intact shape ahead behind low returned counts
  rw [freed]
  refine ⟨now, done, fun area => ?_, still⟩
  have others := inUse_other intact.shape.positive 0 area
  rw [Nat.zero_add] at others
  rw [areas, others, inUse_middle]
  simp [List.mem_append]

/-- The part of `rt_realloc` under the semaphore: the block has the size already, or is cut
to it, or has to move. -/
theorem resize_spec {begin newsize : Nat} (intact : Intact pieces h) (member : (begin, size) ∈ inUse 0 pieces)
    (rounded : newsize % 4 = 0 ∧ 0 < newsize) :
    (h.resize (h.heapPtr + begin + sizeofStructMem) newsize = (h, none) ∧ newsize + sizeofStructMem = size) ∨
    (newsize + sizeofStructMem ≤ size ∧ ∃ after now,
      h.resize (h.heapPtr + begin + sizeofStructMem) newsize = (after, none) ∧ Intact now after ∧
      (∀ area, area ∈ inUse 0 now ↔
        area = (begin, newsize + sizeofStructMem) ∨ area ∈ inUse 0 pieces ∧ area.1 ≠ begin) ∧
      Still (inUse 0 now) h after) ∨
    h.resize (h.heapPtr + begin + sizeofStructMem) newsize = (h, some (size - sizeofStructMem)) := by
  obtain ⟨front, back, rfl, place⟩ := mem_inUse member
  rw [Nat.zero_add] at place
  subst place
  obtain ⟨not_outside, _, header_at, within⟩ := address_spec intact.shape
  have small := intact.small
  have struct_size : sizeofStructMem = 12 := rfl
  have sizes := intact.shape.sizes ⟨size, true⟩ (by simp)
  change 16 ≤ size ∧ size % 4 = 0 at sizes
  have next : (h.mem (total front)).next = total front + size := by rw [intact.shape.header]
  have capacity : minus (minus (h.mem (total front)).next (total front)) sizeofStructMem = size - sizeofStructMem := by
    have whole_block : minus (total front + size) (total front) = size := by
      rw [minus_eq (by omega) (by omega)]
      omega
    rw [next, whole_block, minus_eq (by omega) (by omega)]
  unfold Heap.resize
  rw [if_neg not_outside, header_at]
  dsimp only
  rw [capacity]
  by_cases same : size - sizeofStructMem = newsize
  · exact .inl ⟨if_pos same, by omega⟩
  · rw [if_neg same]
    by_cases shorter : newsize + sizeofStructMem + minSizeAligned < size - sizeofStructMem
    · rw [if_pos shorter]
      have min_size : minSizeAligned = 12 := rfl
      have less : minus (size - sizeofStructMem) newsize = size - (newsize + sizeofStructMem) := by
        rw [minus_eq (by omega) (by omega)]
        omega
      have at_place : total front + sizeofStructMem + newsize = total front + (newsize + sizeofStructMem) := by omega
      rw [less, at_place]
      -- The block is cut behind its header and the bytes that stay.
      obtain ⟨first, first_eq⟩ : ∃ first, first = newsize + sizeofStructMem := ⟨_, rfl⟩
      obtain ⟨second, second_eq⟩ : ∃ second, second = size - first := ⟨_, rfl⟩
      rw [← first_eq, ← second_eq]
      have cut : first + second = size := by omega
      obtain ⟨shape, low, returned⟩ := shrink_spec intact.shape cut (by omega) (by omega) intact.low second
      have split : front ++ ⟨first, true⟩ :: ⟨second, false⟩ :: back =
          (front ++ [⟨first, true⟩]) ++ ⟨second, false⟩ :: back := by simp
      have place : total (front ++ [⟨first, true⟩]) = total front + first := by simp
      obtain ⟨_, behind, ahead⟩ := intact.joined.parts first
      rw [split] at shape low returned
      have counts : extent (inUse 0 (front ++ ⟨size, true⟩ :: back)) =
          extent (inUse 0 (front ++ [⟨first, true⟩] ++ ⟨second, false⟩ :: back)) + second := by
        rw [← split, inUse_middle, inUse_middle]
        simp only [if_true, Bool.false_eq_true, if_false, extent_append, extent, inUse]
        rw [Nat.add_assoc (0 + total front), cut]
        omega
      obtain ⟨now, areas, done, still⟩ := returned_intact intact shape ahead behind low returned counts
      rw [place] at done still
      refine .inr (.inl ⟨by omega, _, now, rfl, done, fun area => ?_, still⟩)
      have others := inUse_other intact.shape.positive 0 area
      rw [Nat.zero_add] at others
      rw [areas, others, ← split, inUse_middle]
      simp only [if_true, inUse, Bool.false_eq_true, if_false, List.mem_append, List.mem_singleton, Nat.zero_add]
      rw [Nat.add_assoc (total front), cut, or_assoc, or_left_comm]
    · rw [if_neg shorter]
      exact .inr (.inr rfl)

/-- Bytes written behind the header of a block in use reach no other byte and no header. -/
theorem store_spec {begin offset : Nat} {bytes : List UInt8} (intact : Intact pieces h)
    (member : (begin, size) ∈ inUse 0 pieces) (inside : offset + bytes.length + sizeofStructMem ≤ size) :
    Intact pieces (h.store (h.heapPtr + begin + sizeofStructMem + offset) bytes) ∧
      ∀ place, (h.store (h.heapPtr + begin + sizeofStructMem + offset) bytes).data place =
        if begin + sizeofStructMem + offset ≤ place then
          bytes[place - (begin + sizeofStructMem + offset)]?.getD (h.data place)
        else h.data place := by
  obtain ⟨front, back, rfl, place⟩ := mem_inUse member
  rw [Nat.zero_add] at place
  subst place
  have struct_size : sizeofStructMem = 12 := rfl
  have first : h.heapPtr + total front + sizeofStructMem + offset - h.heapPtr =
      total front + sizeofStructMem + offset := by omega
  have total_one : total [(⟨size, true⟩ : Piece)] = size := by simp
  have elsewhere {other : Nat} (apart : other ≤ total front ∨ total front + size ≤ other) :
      (h.store (h.heapPtr + total front + sizeofStructMem + offset) bytes).mem other = h.mem other := by
    refine if_neg fun is => ?_
    rw [first] at is
    omega
  have shape := intact.shape
  have header := shape.header
  have big := shape.sizes ⟨size, true⟩ (by simp)
  rw [List.append_cons] at shape
  have stored : Shape (front ++ [⟨size, true⟩] ++ back)
      (h.store (h.heapPtr + total front + sizeofStructMem + offset) bytes) := by
    have kept := (elsewhere (.inl (Nat.le_refl _))).trans header
    refine shape.splice rfl (fun piece member => ?_) rfl ⟨kept, trivial⟩ (fun place less => elsewhere (.inl (by omega)))
      (fun place less => elsewhere (.inr (by omega))) ⟨_, ?_, fun more => shape.seam more⟩
    · rw [List.mem_singleton.mp member]
      exact big
    · rw [elsewhere (.inr (by omega))]
  rw [← List.append_cons] at stored
  refine ⟨{ intact with shape := stored }, fun place => ?_⟩
  rw [← first]
  rfl

/-- What `rt_system_heap_init` writes. -/
structure New (endAddr : Nat) (h : Heap) : Prop where
  first : h.mem 0 = { magic := heapMagic, used := false, next := h.heapEnd, prev := 0 }
  last : h.mem h.heapEnd = { magic := heapMagic, used := true, next := h.heapEnd, prev := h.heapEnd }
  fields : h.lfree = 0 ∧ h.usedMem = 0 ∧ h.maxMem = 0 ∧ h.complaints = 0
  aligned : h.heapPtr % 4 = 0 ∧ h.memSizeAligned % 4 = 0
  within : h.heapPtr + h.memSizeAligned + 2 * sizeofStructMem ≤ endAddr

theorem init_new {beginAddr endAddr : Nat} {mem : Nat → HeapMem} {data : Nat → UInt8}
    (initial : Heap.rtSystemHeapInit beginAddr endAddr mem data = some h) : New endAddr h := by
  have struct_size : sizeofStructMem = 12 := rfl
  unfold Heap.rtSystemHeapInit at initial
  dsimp only at initial
  split at initial
  next fits =>
    have same := Option.some.inj initial
    have aligned : rtAlign beginAddr % 4 = 0 ∧ rtAlignDown endAddr % 4 = 0 :=
      ⟨Nat.mul_mod_left _ _, Nat.mul_mod_left _ _⟩
    have down : rtAlignDown endAddr ≤ endAddr := Nat.div_mul_le_self _ _
    generalize rtAlign beginAddr = first at *
    generalize rtAlignDown endAddr = last at *
    subst same
    rw [struct_size] at fits
    refine ⟨?_, if_pos rfl, ⟨rfl, rfl, rfl, rfl⟩, ⟨aligned.1, ?_⟩, ?_⟩
    · rw [setMem_mem, if_neg (by omega), setMem_mem, if_pos rfl]
      rfl
    · change (last - first - 2 * 12) % 4 = 0
      omega
    · change first + (last - first - 2 * 12) + 2 * 12 ≤ endAddr
      omega
  next => cases initial

theorem New.intact {endAddr : Nat} (new : New endAddr h) (within : endAddr < 2 ^ 32)
    (room : minSizeAligned ≤ h.memSizeAligned) : Intact [⟨h.heapEnd, false⟩] h := by
  obtain ⟨low, used, most, quiet⟩ := new.fields
  have struct_size : sizeofStructMem = 12 := rfl
  have min_size : minSizeAligned = 12 := rfl
  have ends : h.heapEnd = h.memSizeAligned + 12 := rfl
  have aligned := new.aligned
  have inside := new.within
  have shape : Shape [⟨h.heapEnd, false⟩] h := by
    refine ⟨⟨?_, trivial⟩, Nat.add_zero _, ?_, fun piece member => ?_⟩
    · rw [new.first, Nat.zero_add]
    · rw [new.last]
      exact ⟨rfl, rfl⟩
    · rw [List.mem_singleton.mp member]
      change 16 ≤ h.heapEnd ∧ h.heapEnd % 4 = 0
      omega
  exact ⟨shape, List.isChain_singleton _, low, used, by omega, aligned, ⟨room, by omega⟩, quiet⟩

/-- Where the heap has less room than the smallest block, the limit of the search wraps,
and it goes round at the end of the heap for ever. -/
theorem New.search_endless {endAddr : Nat} (new : New endAddr h) (short : h.memSizeAligned < minSizeAligned)
    (asked : rtAlign size ≤ h.memSizeAligned) (turns : Nat) : h.search (wanted size) turns h.lfree = none := by
  have struct_size : sizeofStructMem = 12 := rfl
  have min_size : minSizeAligned = 12 := rfl
  have ends : h.heapEnd = h.memSizeAligned + 12 := rfl
  have inside := new.within
  have least : wanted size = 12 := if_pos (Nat.lt_of_le_of_lt asked short)
  have limit : minus h.memSizeAligned 12 = h.memSizeAligned + 2 ^ 32 - 12 := Nat.mod_eq_of_lt (by omega)
  have at_end (turns : Nat) : h.search 12 turns h.heapEnd = none := by
    induction turns with
    | zero => rfl
    | succ turns ih =>
      unfold Heap.search
      rw [limit, new.last, if_pos (by omega), if_neg fun is => (by cases is.1)]
      exact ih
  rw [least, new.fields.1]
  cases turns with
  | zero => rfl
  | succ turns =>
    have room : minus h.heapEnd (0 + 12) = h.memSizeAligned := by
      rw [minus_eq (by omega) (by omega)]
      omega
    unfold Heap.search
    rw [limit, new.first, if_pos (by omega), struct_size, room, if_neg fun is => absurd is.2 (by omega)]
    exact at_end turns

end SmartWatch.Proofs.Heaps
