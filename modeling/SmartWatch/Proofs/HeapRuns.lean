import SmartWatch.Lib.Runs
import SmartWatch.Proofs.Heaps

/-! Any number of callers use one heap, in any order of the sections in which its
functions hold the semaphore. -/

namespace SmartWatch.Proofs.HeapRuns
open Runs Tilings SmartWatch.Proofs.HeapBlocks SmartWatch.Proofs.Heaps

variable {s next after : Session} {event : HeapEvent} {events : List HeapEvent} {pieces : List Piece}
  {begin size index rmem rmem' : Nat}

/-- The memory that is held is the memory in use. -/
structure Owned (pieces : List Piece) (s : Session) : Prop where
  intact : Intact pieces s.heap
  granted : ∀ rmem size, s.held rmem = some size → ∃ begin extent, (begin, extent) ∈ inUse 0 pieces ∧
    rmem = s.heap.heapPtr + begin + sizeofStructMem ∧ size + sizeofStructMem ≤ extent
  known : ∀ begin extent, (begin, extent) ∈ inUse 0 pieces → (s.held (s.heap.heapPtr + begin + sizeofStructMem)).isSome

/-- A heap that `rt_system_heap_init` has made, with room for a block: without it
`rt_malloc` may not end (`small_heap_hangs`). -/
def Booted (s : Session) : Prop :=
  (∃ beginAddr endAddr mem data, endAddr < 2 ^ 32 ∧ Heap.rtSystemHeapInit beginAddr endAddr mem data = some s.heap) ∧
    minSizeAligned ≤ s.heap.memSizeAligned ∧ ∀ rmem, s.held rmem = none

/-- What an event leaves of the byte at an index of memory that is held. -/
def Spares (rmem index : Nat) : HeapEvent → Prop
  | .malloc _ => True
  | .free other => other ≠ rmem
  | .resize other newsize => other = rmem → index < newsize
  | .store other offset bytes => other = rmem → index < offset ∨ offset + bytes.length ≤ index

/-- A byte of memory that is held. -/
def Holds (s : Session) (rmem index : Nat) (byte : UInt8) : Prop :=
  (∃ size, s.held rmem = some size ∧ index < size) ∧ s.heap.data (rmem - s.heap.heapPtr + index) = byte

theorem Booted.owned (booted : Booted s) : Owned [⟨s.heap.heapEnd, false⟩] s := by
  obtain ⟨⟨_, _, _, _, within, initial⟩, room, none⟩ := booted
  refine ⟨(init_new initial).intact within room, fun rmem size is => ?_, fun begin extent member => ?_⟩
  · rw [none] at is
    cases is
  · cases member

theorem hold_other (other : rmem' ≠ rmem) (size : Option Nat) : s.hold rmem size rmem' = s.held rmem' := if_neg other

theorem hold_here (s : Session) (rmem : Nat) (size : Option Nat) : s.hold rmem size rmem = size := if_pos rfl

theorem hold_none (free : s.held rmem = none) : s.hold rmem none = s.held := by
  funext other
  unfold Session.hold
  split
  next same => rw [same, free]
  next => rfl

/-- What the caller of a held address knows about it. -/
theorem Owned.address (owned : Owned pieces s) (held : s.held rmem = some size) :
    ¬s.heap.outside rmem ∧ rmem ≠ 0 := by
  obtain ⟨begin, extent, member, rfl, _⟩ := owned.granted rmem size held
  obtain ⟨front, back, rfl, place⟩ := mem_inUse member
  rw [Nat.zero_add] at place
  subst place
  obtain ⟨not_outside, not_null, _⟩ := address_spec owned.intact.shape
  exact ⟨not_outside, not_null⟩

/-- A byte of an area that stays. -/
theorem Owned.byte {heap : Heap} {areas : List (Nat × Nat)} {extent : Nat} (still : Still areas s.heap heap)
    (member : (begin, extent) ∈ areas) (fits : size + sizeofStructMem ≤ extent) (within : index < size) :
    heap.data (s.heap.heapPtr + begin + sizeofStructMem - s.heap.heapPtr + index) =
      s.heap.data (s.heap.heapPtr + begin + sizeofStructMem - s.heap.heapPtr + index) := by
  have place : s.heap.heapPtr + begin + sizeofStructMem - s.heap.heapPtr + index = begin + sizeofStructMem + index := by omega
  rw [place]
  exact still.data _ member _ (Nat.le_add_right _ _) (by omega)

/-- What a step comes to: the invariant, and the bytes it spares. -/
structure Kept (event : HeapEvent) (pieces : List Piece) (s next : Session) : Prop where
  owned : Owned pieces next
  heapPtr : next.heap.heapPtr = s.heap.heapPtr
  bytes : ∀ rmem index byte, Spares rmem index event → Holds s rmem index byte → Holds next rmem index byte

theorem Kept.same (owned : Owned pieces s) : Kept event pieces s s := ⟨owned, rfl, fun _ _ _ _ holds => holds⟩

/-- A caller of `rt_malloc` holds what it is given, at an address that nobody held. -/
private theorem malloc_kept (owned : Owned pieces s) (small : size ≤ 2 ^ 32 - 4) : ∃ next now p,
    s.heap.rtMalloc size = some (next.heap, p) ∧ s.step (.malloc size) = some next ∧ Kept (.malloc size) now s next ∧
      (p = 0 → next = s) ∧ (p ≠ 0 → next.held = s.hold p (some size)) ∧
      ∀ other extent, s.held other = some extent → other ≠ p := by
  unfold Session.step
  dsimp only
  rcases rtMalloc_spec owned.intact small with ⟨_, refused⟩ | ⟨place, taken, now, heap, _, granted, enough, done⟩
  · rw [refused]
    have pointers (other extent : Nat) (held : s.held other = some extent) : other ≠ 0 := (owned.address held).2
    exact ⟨s, pieces, 0, rfl, rfl, .same owned, fun _ => rfl, fun not => absurd rfl not, pointers⟩
  · rw [granted]
    have pointer : s.heap.heapPtr + place + sizeofStructMem ≠ 0 := Nat.succ_ne_zero _
    have fits : size + sizeofStructMem ≤ taken := Nat.le_trans (Nat.add_le_add_right (wanted_spec small).1 _) enough
    have still := done.still
    have fresh (other extent : Nat) (held : s.held other = some extent) :
        other ≠ s.heap.heapPtr + place + sizeofStructMem := by
      obtain ⟨begin, area, member, rfl, _⟩ := owned.granted other extent held
      have := done.fresh _ member
      omega
    have kept {rmem extent : Nat} (held : s.held rmem = some extent) :
        s.hold (s.heap.heapPtr + place + sizeofStructMem) (some size) rmem = some extent :=
      (hold_other (fresh rmem extent held) _).trans held
    have given : (if s.heap.heapPtr + place + sizeofStructMem ≠ 0 then
          s.hold (s.heap.heapPtr + place + sizeofStructMem) (some size) else s.held) =
        s.hold (s.heap.heapPtr + place + sizeofStructMem) (some size) := if_pos pointer
    refine ⟨_, now, _, rfl, rfl, ?_, fun null => absurd null pointer, fun _ => given, fresh⟩
    refine ⟨⟨done.intact, fun rmem extent held => ?_, fun begin extent member => ?_⟩, still.heapPtr,
      fun rmem index byte _ holds => ?_⟩
    · dsimp only at held
      rw [if_pos pointer] at held
      by_cases here : rmem = s.heap.heapPtr + place + sizeofStructMem
      · rw [here, hold_here] at held
        cases held
        exact ⟨place, taken, (done.areas _).mpr (.inl rfl), here.trans (by rw [still.heapPtr]), fits⟩
      · rw [hold_other here] at held
        obtain ⟨begin, area, member, at_place, inside⟩ := owned.granted rmem extent held
        exact ⟨begin, area, (done.areas _).mpr (.inr member), at_place.trans (by rw [still.heapPtr]), inside⟩
    · dsimp only
      rw [if_pos pointer, still.heapPtr]
      rcases (done.areas _).mp member with new | old
      · cases new
        rw [hold_here]
        rfl
      · obtain ⟨extent, held⟩ := Option.isSome_iff_exists.mp (owned.known begin extent old)
        rw [kept held]
        rfl
    · obtain ⟨⟨extent, held, within⟩, rfl⟩ := holds
      refine ⟨⟨extent, ?_, within⟩, ?_⟩
      · dsimp only
        rw [if_pos pointer, kept held]
      · obtain ⟨begin, area, member, rfl, inside⟩ := owned.granted rmem extent held
        dsimp only
        rw [still.heapPtr]
        exact Owned.byte still member inside within

private theorem free_kept (owned : Owned pieces s) (lawful : s.Lawful (.free rmem)) :
    ∃ next now, s.step (.free rmem) = some next ∧ Kept (.free rmem) now s next := by
  unfold Session.step
  dsimp only
  cases held : s.held rmem with
  | none =>
    have ignored : rmem = 0 ∨ s.heap.outside rmem := by
      rcases lawful with null | outside | some
      · exact .inl null
      · exact .inr outside
      · rw [held] at some
        cases some
    have same : s.heap.rtFree rmem = s.heap := if_pos ignored
    rw [same, hold_none held]
    exact ⟨s, pieces, rfl, .same owned⟩
  | some size =>
    obtain ⟨begin, extent, member, rfl, _⟩ := owned.granted rmem size held
    obtain ⟨now, intact, areas, still⟩ := rtFree_spec owned.intact member
    refine ⟨_, now, rfl, ⟨intact, fun other size held => ?_, fun other extent member => ?_⟩, still.heapPtr,
      fun other index byte spares holds => ?_⟩
    · dsimp only at held ⊢
      by_cases here : other = s.heap.heapPtr + begin + sizeofStructMem
      · rw [here, hold_here] at held
        cases held
      · rw [hold_other here] at held
        obtain ⟨place, area, member, rfl, inside⟩ := owned.granted other size held
        exact ⟨place, area, (areas _).mpr ⟨member, fun same => here (by rw [← same])⟩, by rw [still.heapPtr], inside⟩
    · obtain ⟨member, different⟩ := (areas _).mp member
      dsimp only at different ⊢
      rw [still.heapPtr, hold_other (by omega)]
      exact owned.known other extent member
    · obtain ⟨⟨size, held, within⟩, rfl⟩ := holds
      obtain ⟨place, area, member, rfl, inside⟩ := owned.granted other size held
      have different : s.heap.heapPtr + begin + sizeofStructMem ≠ s.heap.heapPtr + place + sizeofStructMem := spares
      refine ⟨⟨size, ?_, within⟩, ?_⟩
      · dsimp only
        rw [hold_other different.symm]
        exact held
      · dsimp only
        rw [still.heapPtr]
        exact Owned.byte still ((areas _).mpr ⟨member, by dsimp only; omega⟩) inside within

/-- A block that is cut in place. -/
private theorem cut_kept {newsize : Nat} {now : List Piece} {heap : Heap} (owned : Owned pieces s)
    (intact : Intact now heap)
    (areas : ∀ area, area ∈ inUse 0 now ↔
      area = (begin, newsize + sizeofStructMem) ∨ area ∈ inUse 0 pieces ∧ area.1 ≠ begin)
    (still : Still (inUse 0 now) s.heap heap) :
    Kept (.resize (s.heap.heapPtr + begin + sizeofStructMem) newsize) now s
      { heap, held := s.hold (s.heap.heapPtr + begin + sizeofStructMem) (some newsize) } := by
  refine ⟨⟨intact, fun other size held => ?_, fun other extent member => ?_⟩, still.heapPtr,
    fun other index byte spares holds => ?_⟩
  · dsimp only at held ⊢
    rw [still.heapPtr]
    by_cases here : other = s.heap.heapPtr + begin + sizeofStructMem
    · rw [here, hold_here] at held
      cases held
      exact ⟨begin, _, (areas _).mpr (.inl rfl), here, Nat.le_refl _⟩
    · rw [hold_other here] at held
      obtain ⟨place, area, member, rfl, inside⟩ := owned.granted other size held
      exact ⟨place, area, (areas _).mpr (.inr ⟨member, fun same => here (by rw [← same])⟩), rfl, inside⟩
  · dsimp only
    rw [still.heapPtr]
    rcases (areas _).mp member with new | ⟨member, different⟩
    · cases new
      rw [hold_here]
      rfl
    · dsimp only at different
      rw [hold_other (by omega)]
      exact owned.known other extent member
  · obtain ⟨⟨size, other_held, within⟩, rfl⟩ := holds
    obtain ⟨place, area, member, rfl, inside⟩ := owned.granted other size other_held
    unfold Holds
    dsimp only
    rw [still.heapPtr]
    by_cases here : place = begin
    · subst here
      have shorter : index < newsize := spares rfl
      exact ⟨⟨newsize, hold_here .., shorter⟩, Owned.byte still ((areas _).mpr (.inl rfl)) (Nat.le_refl _) shorter⟩
    · rw [hold_other (by omega)]
      exact ⟨⟨size, other_held, within⟩, Owned.byte still ((areas _).mpr (.inr ⟨member, here⟩)) inside within⟩

private theorem resize_kept {newsize : Nat} (owned : Owned pieces s) (lawful : s.Lawful (.resize rmem newsize)) :
    ∃ next now, s.step (.resize rmem newsize) = some next ∧ Kept (.resize rmem newsize) now s next := by
  obtain ⟨⟨rounded, positive, _⟩, known⟩ := lawful
  unfold Session.step
  dsimp only
  cases held : s.held rmem with
  | none =>
    have outside : s.heap.outside rmem := known.resolve_right fun some => by
      rw [held] at some
      cases some
    have same : s.heap.resize rmem newsize = (s.heap, none) := if_pos outside
    rw [same]
    refine ⟨s, pieces, ?_, .same owned⟩
    dsimp only
    rw [Option.map_none, hold_none held]
  | some size =>
    obtain ⟨begin, extent, member, rfl, inside⟩ := owned.granted rmem size held
    rcases resize_spec owned.intact member ⟨rounded, positive⟩ with
      ⟨same, fits⟩ | ⟨_, heap, now, cut, intact, areas, still⟩ | moves
    · rw [same]
      refine ⟨_, pieces, rfl, cut_kept owned owned.intact (fun area => ?_) (.refl _ _)⟩
      subst fits
      refine ⟨fun is => ?_, fun is => ?_⟩
      · obtain ⟨place, extent⟩ := area
        by_cases here : place = begin
        · subst here
          exact .inl (congrArg _ (inUse_same owned.intact.shape.positive is member))
        · exact .inr ⟨is, here⟩
      · rcases is with rfl | ⟨is, _⟩
        · exact member
        · exact is
    · rw [cut]
      exact ⟨_, now, rfl, cut_kept owned intact areas still⟩
    · rw [moves]
      exact ⟨s, pieces, rfl, .same owned⟩

private theorem store_kept {offset : Nat} {bytes : List UInt8} (owned : Owned pieces s)
    (lawful : s.Lawful (.store rmem offset bytes)) :
    ∃ next now, s.step (.store rmem offset bytes) = some next ∧ Kept (.store rmem offset bytes) now s next := by
  obtain ⟨size, held, within⟩ := lawful
  obtain ⟨begin, extent, member, rfl, inside⟩ := owned.granted rmem size held
  obtain ⟨intact, data⟩ :=
    store_spec owned.intact member (by omega : offset + bytes.length + sizeofStructMem ≤ extent)
  refine ⟨_, pieces, rfl, ⟨intact, owned.granted, owned.known⟩, rfl, fun other index byte spares holds => ?_⟩
  obtain ⟨held_too, rfl⟩ := holds
  refine ⟨held_too, ?_⟩
  obtain ⟨room, other_held, below⟩ := held_too
  obtain ⟨place, area, other_member, rfl, fits⟩ := owned.granted other room other_held
  have at_place : s.heap.heapPtr + place + sizeofStructMem - s.heap.heapPtr + index = place + sizeofStructMem + index := by omega
  change (s.heap.store (s.heap.heapPtr + begin + sizeofStructMem + offset) bytes).data
    (s.heap.heapPtr + place + sizeofStructMem - s.heap.heapPtr + index) = _
  rw [at_place, data]
  split
  next behind =>
    have past : bytes.length ≤ place + sizeofStructMem + index - (begin + sizeofStructMem + offset) := by
      by_cases here : place = begin
      · subst here
        have apart : index < offset ∨ offset + bytes.length ≤ index := spares rfl
        omega
      · have apart := inUse_disjoint other_member member here
        dsimp only at apart
        omega
    rw [List.getElem?_eq_none past, Option.getD_none]
  next => rfl

theorem step_kept (owned : Owned pieces s) (lawful : s.Lawful event) :
    ∃ next now, s.step event = some next ∧ Kept event now s next := by
  cases event with
  | malloc size =>
    obtain ⟨next, now, _, _, taken, steps, _⟩ := malloc_kept owned lawful
    exact ⟨next, now, taken, steps⟩
  | free rmem => exact free_kept owned lawful
  | resize rmem newsize => exact resize_kept owned lawful
  | store rmem offset bytes => exact store_kept owned lawful

/-- Whatever the callers do, both loops of `rt_malloc` end and the headers stay in order. -/
theorem run_owned (booted : Booted s) (lawful : Taken Session.step Session.Lawful s events) :
    ∃ after, run Session.step s events = some after ∧ ∃ pieces, Owned pieces after :=
  run_goes (fun s => ∃ pieces, Owned pieces s) (fun _ _ owned lawful => by
    obtain ⟨_, owned⟩ := owned
    obtain ⟨next, now, taken, steps⟩ := step_kept owned lawful
    exact ⟨next, taken, now, steps.owned⟩) ⟨_, booted.owned⟩ lawful

private theorem reached_owned (booted : Booted s) (lawful : Taken Session.step Session.Lawful s events)
    (reached : run Session.step s events = some after) :
    ∃ pieces, Owned pieces after := by
  obtain ⟨final, same, owned⟩ := run_owned booted lawful
  rw [reached] at same
  cases same
  exact owned

def small : Heap :=
  (Heap.rtSystemHeapInit 0x20000000 0x20000100 (fun _ => {}) fun _ => 0).getD
    { heapPtr := 0, memSizeAligned := 0, mem := fun _ => {}, data := fun _ => 0 }

def sample : Session := { heap := small, held := fun _ => none }

def requests : List HeapEvent := [.malloc 20, .malloc 8, .store 0x2000000c 0 [1, 2, 3]]

def others : List HeapEvent := [.malloc 30, .free 0x2000002c, .resize 0x2000000c 16, .malloc 100]

def returns : List HeapEvent := [.malloc 20, .malloc 8, .free 0x2000000c, .free 0x2000002c]

def asked : Session := (run Session.step sample requests).getD sample

def freed : Session := (run Session.step sample returns).getD sample

theorem sample_booted : Booted sample := by
  obtain ⟨h, initial⟩ := Option.isSome_iff_exists.mp
    (by decide +kernel : (Heap.rtSystemHeapInit 0x20000000 0x20000100 (fun _ => {}) fun _ => 0).isSome = true)
  refine ⟨⟨0x20000000, 0x20000100, fun _ => {}, fun _ => 0, by decide, ?_⟩, by decide +kernel, fun _ => rfl⟩
  change _ = some small
  unfold small
  rw [initial, Option.getD_some]

private theorem sample_lawful : Taken Session.step Session.Lawful sample (requests ++ others) := by decide +kernel

private theorem asked_reached : run Session.step sample requests = some asked := by
  obtain ⟨after, reached⟩ :=
    Option.isSome_iff_exists.mp (by decide +kernel : (run Session.step sample requests).isSome = true)
  unfold asked
  rw [reached, Option.getD_some]

/-- A heap with less room than the smallest block hangs `rt_malloc` with the first request
that it does not refuse at once, however long one waits. -/
theorem small_heap_hangs {beginAddr endAddr : Nat} {mem : Nat → HeapMem} {data : Nat → UInt8} {h : Heap}
    (initial : Heap.rtSystemHeapInit beginAddr endAddr mem data = some h) (short : h.memSizeAligned < minSizeAligned)
    (some_size : 0 < size) (fits : rtAlign size ≤ h.memSizeAligned) :
    h.rtMalloc size = none ∧ ∀ turns, h.search (wanted size) turns h.lfree = none := by
  have endless := (init_new initial).search_endless short fits
  refine ⟨?_, endless⟩
  unfold Heap.rtMalloc
  rw [if_neg (Nat.ne_of_gt some_size), if_neg (Nat.not_lt.mpr fits)]
  change (h.search (wanted size) _ _).bind _ = none
  rw [endless, Option.bind_none]

def tiny : Heap :=
  (Heap.rtSystemHeapInit 0x20000000 0x20000020 (fun _ => {}) fun _ => 0).getD small

theorem small_heap_hangs_sample : tiny.rtMalloc 5 = none ∧
    ∀ turns, tiny.search (wanted 5) turns tiny.lfree = none := by
  obtain ⟨h, initial⟩ := Option.isSome_iff_exists.mp
    (by decide +kernel : (Heap.rtSystemHeapInit 0x20000000 0x20000020 (fun _ => {}) fun _ => 0).isSome = true)
  have same : tiny = h := by
    unfold tiny
    rw [initial, Option.getD_some]
  exact small_heap_hangs (initial.trans (congrArg some same.symm)) (by decide +kernel) (by decide) (by decide +kernel)

/-- In every run the loops of the allocator end, and leave the headers in order. -/
theorem heap_stays_in_order (booted : Booted s) (lawful : Taken Session.step Session.Lawful s events) :
    ∃ after, run Session.step s events = some after ∧ ∃ pieces, Intact pieces after.heap := by
  obtain ⟨after, reached, pieces, owned⟩ := run_owned booted lawful
  exact ⟨after, reached, pieces, owned.intact⟩

theorem heap_stays_in_order_sample :
    ∃ after, run Session.step sample (requests ++ others) = some after ∧ ∃ pieces, Intact pieces after.heap :=
  heap_stays_in_order sample_booted sample_lawful

/-- Memory that is held is aligned and inside the heap, with room for a header before the next one. -/
theorem held_memory_apart (booted : Booted s) (lawful : Taken Session.step Session.Lawful s events)
    (reached : run Session.step s events = some after) (held : after.held rmem = some size) :
    rmem % 4 = 0 ∧ after.heap.heapPtr + sizeofStructMem ≤ rmem ∧
      rmem + size ≤ after.heap.heapPtr + after.heap.heapEnd ∧
      ∀ other extent, after.held other = some extent → other ≠ rmem →
        rmem + size + sizeofStructMem ≤ other ∨ other + extent + sizeofStructMem ≤ rmem := by
  obtain ⟨pieces, owned⟩ := reached_owned booted lawful reached
  obtain ⟨begin, area, member, rfl, inside⟩ := owned.granted rmem size held
  have bounds := inUse_bounds member
  have aligned := owned.intact.aligned.1
  have whole := owned.intact.shape.whole
  have struct_size : sizeofStructMem = 12 := rfl
  refine ⟨?_, by omega, by omega, fun other extent other_held different => ?_⟩
  · obtain ⟨front, back, rfl, rfl⟩ := mem_inUse member
    have := total_mod fun piece inside => (owned.intact.shape.sizes piece (List.mem_append_left _ inside)).2
    omega
  · obtain ⟨place, room, other_member, rfl, fits⟩ := owned.granted other extent other_held
    have apart := inUse_disjoint member other_member (by dsimp only; omega)
    dsimp only at apart
    omega

theorem held_memory_apart_sample :
    0x2000002c % 4 = 0 ∧ asked.heap.heapPtr + sizeofStructMem ≤ 0x2000002c ∧
      0x2000002c + 8 ≤ asked.heap.heapPtr + asked.heap.heapEnd ∧
      ∀ other extent, asked.held other = some extent → other ≠ 0x2000002c →
        0x2000002c + 8 + sizeofStructMem ≤ other ∨ other + extent + sizeofStructMem ≤ 0x2000002c :=
  held_memory_apart sample_booted sample_lawful.front asked_reached (by decide +kernel)

/-- A byte of memory that is held stays until its caller writes it, frees it or cuts it off. -/
theorem held_bytes_stay {byte : UInt8} (booted : Booted s) {first rest : List HeapEvent}
    (lawful : Taken Session.step Session.Lawful s (first ++ rest))
    (reached : run Session.step s first = some next) (holds : Holds next rmem index byte)
    (spared : ∀ event ∈ rest, Spares rmem index event) :
    ∃ after, run Session.step s (first ++ rest) = some after ∧ Holds after rmem index byte := by
  have owned := reached_owned booted lawful.front reached
  have stepped (state : Session) (event : HeapEvent) (both : (∃ pieces, Owned pieces state) ∧ Holds state rmem index byte)
      (met : Spares rmem index event ∧ state.Lawful event) :
      ∃ next, state.step event = some next ∧ (∃ pieces, Owned pieces next) ∧ Holds next rmem index byte := by
    obtain ⟨⟨_, owned⟩, holds⟩ := both
    obtain ⟨next, now, taken, steps⟩ := step_kept owned met.2
    exact ⟨next, taken, ⟨now, steps.owned⟩, steps.bytes rmem index byte met.1 holds⟩
  obtain ⟨after, goes, _, kept⟩ :=
    run_goes (fun s => (∃ pieces, Owned pieces s) ∧ Holds s rmem index byte) stepped ⟨owned, holds⟩
      ((lawful.rest reached).and_mem spared)
  exact ⟨after, run_trans reached goes, kept⟩

theorem held_bytes_stay_sample : ∃ after, run Session.step sample (requests ++ others) = some after ∧
    Holds after 0x2000000c 1 2 :=
  held_bytes_stay sample_booted sample_lawful asked_reached ⟨⟨20, by decide +kernel, by decide⟩, by decide +kernel⟩
    (by simp [others, Spares])

/-- `rt_malloc` refuses a request exactly when each free block that has room for it is the
last one and has room for nothing else. -/
theorem malloc_refuses_iff (booted : Booted s) (lawful : Taken Session.step Session.Lawful s events)
    (reached : run Session.step s events = some after) (small : size ≤ 2 ^ 32 - 4) (some_size : 0 < size) :
    ∃ pieces heap p, Intact pieces after.heap ∧ after.heap.rtMalloc size = some (heap, p) ∧
      (p = 0 ↔ ∀ front room back, pieces = front ++ ⟨room, false⟩ :: back → wanted size + sizeofStructMem ≤ room →
        back = [] ∧ room = wanted size + sizeofStructMem) := by
  obtain ⟨pieces, owned⟩ := reached_owned booted lawful reached
  have intact := owned.intact
  have whole := intact.shape.whole
  have ends : after.heap.heapEnd = after.heap.memSizeAligned + sizeofStructMem := rfl
  rcases rtMalloc_spec intact small with ⟨nothing, refused⟩ | ⟨place, taken, now, heap, found, granted, _⟩
  · refine ⟨pieces, _, 0, intact, refused, fun _ front room back split enough => ?_, fun _ => rfl⟩
    rw [split, total_append, total_cons] at whole
    change total front + (room + total back) = _ at whole
    have positive := intact.shape.positive
    have late : after.heap.memSizeAligned - wanted size ≤ total front := by
      unfold fit at nothing
      split at nothing
      next large =>
        have : rtAlign size ≤ wanted size := by
          unfold wanted
          split <;> omega
        have := large.resolve_left (Nat.ne_of_gt some_size)
        omega
      next =>
        have := firstFit_none nothing split enough
        omega
    have none_behind : total back = 0 := by omega
    refine ⟨?_, by omega⟩
    cases back with
    | nil => rfl
    | cons piece rest =>
      have := positive piece (by rw [split]; simp)
      rw [total_cons] at none_behind
      omega
  · refine ⟨pieces, heap, _, intact, granted, fun null => absurd null (Nat.succ_ne_zero _), fun only => ?_⟩
    unfold fit at found
    split at found
    next => cases found
    next =>
      obtain ⟨front, room, back, split, at_place, fits, before⟩ := firstFit_some found
      obtain ⟨rfl, exactly⟩ := only front room back split fits
      rw [split, total_append, total_cons, total_nil] at whole
      change total front + (room + 0) = _ at whole
      omega

theorem malloc_refuses_iff_sample : ∃ pieces heap p, Intact pieces asked.heap ∧
    asked.heap.rtMalloc 100 = some (heap, p) ∧
    (p = 0 ↔ ∀ front room back, pieces = front ++ ⟨room, false⟩ :: back → wanted 100 + sizeofStructMem ≤ room →
      back = [] ∧ room = wanted 100 + sizeofStructMem) :=
  malloc_refuses_iff sample_booted sample_lawful.front asked_reached (by decide) (by decide)

/-- What `rt_realloc` leaves: the sections it consists of are a run, and the first bytes
are found at the address it returns. -/
structure Resized (s final : Session) (sections : List HeapEvent) (rmem size newsize p : Nat) : Prop where
  lawful : Taken Session.step Session.Lawful s sections
  reached : run Session.step s sections = some final
  refused : p = 0 → final = s
  room : p ≠ 0 → ∃ extent, final.held p = some extent ∧ newsize ≤ extent
  first : p ≠ 0 → ∀ index, index < size → index < newsize →
    Holds final p index (s.heap.data (rmem - s.heap.heapPtr + index))
  moved : p ≠ 0 → p ≠ rmem → final.held rmem = none
  others : ∀ other index byte, other ≠ rmem → Holds s other index byte → Holds final other index byte

theorem Resized.nothing (s : Session) (rmem size newsize : Nat) : Resized s s [] rmem size newsize 0 :=
  ⟨trivial, rfl, fun _ => rfl, fun not => absurd rfl not, fun not => absurd rfl not, fun not => absurd rfl not,
    fun _ _ _ _ holds => holds⟩

/-- A byte that is written. -/
private theorem store_byte {byte : UInt8} {bytes : List UInt8} (h : Heap) (dst : Nat)
    (there : bytes[index]? = some byte) :
    (h.store dst bytes).data (dst - h.heapPtr + index) = byte := by
  refine (if_pos (Nat.le_add_right _ _)).trans ?_
  rw [Nat.add_sub_cancel_left, there, Option.getD_some]

private theorem load_byte (h : Heap) (src count : Nat) (within : index < count) :
    (h.load src count)[index]? = some (h.data (src - h.heapPtr + index)) := by
  unfold Heap.load
  rw [List.getElem?_map, List.getElem?_range within, Option.map_some]

/-- The block keeps its place. -/
private theorem stays_resized {newsize : Nat} {heap : Heap} (owned : Owned pieces s) (held : s.held rmem = some size)
    (lawful : s.Lawful (.resize rmem newsize)) (stays : s.heap.resize rmem newsize = (heap, none)) :
    ∃ final, final.heap = heap ∧ Resized s final [.resize rmem newsize] rmem size newsize rmem := by
  obtain ⟨next, now, taken, steps⟩ := resize_kept owned lawful
  have same : next = { heap, held := s.hold rmem (some newsize) } := by
    unfold Session.step at taken
    dsimp only at taken
    rw [stays, held] at taken
    exact (Option.some.inj taken).symm
  have pointer := (owned.address held).2
  refine ⟨next, by rw [same], ⟨taken_more lawful taken trivial, run_more taken rfl, fun null => absurd null pointer,
    fun _ => ⟨newsize, ?_, Nat.le_refl _⟩, fun _ index within short => ?_, fun _ different => absurd rfl different,
    fun other index byte different holds => ?_⟩⟩
  · rw [same]
    exact hold_here ..
  · exact steps.bytes rmem index _ (fun _ => short) ⟨⟨size, held, within⟩, rfl⟩
  · exact steps.bytes other index byte (fun here => absurd here.symm different) holds

/-- The block moves, or there is no room for it. -/
private theorem moves_resized {newsize room : Nat} (owned : Owned pieces s) (held : s.held rmem = some size)
    (fits : size ≤ room) (small : newsize ≤ 2 ^ 32 - 4) : ∃ sections final p,
      ((s.heap.rtMalloc newsize).map fun (h, nmem) =>
        if nmem ≠ 0 then
          ((h.store nmem (h.load rmem (if room < newsize then room else newsize))).rtFree rmem, nmem)
        else (h, nmem)) =
          some (final.heap, p) ∧ Resized s final sections rmem size newsize p := by
  obtain ⟨one, now, nmem, granted, taken, steps, refused, given, fresh⟩ := malloc_kept owned small
  rw [granted, Option.map_some]
  by_cases pointer : nmem = 0
  · have same := refused pointer
    subst same pointer
    exact ⟨[], one, 0, rfl, .nothing one rmem size newsize⟩
  · dsimp only
    rw [if_pos pointer]
    generalize counted : (if room < newsize then room else newsize) = count
    have short : count ≤ newsize ∧ ∀ index, index < size → index < newsize → index < count := by
      rw [← counted]
      split <;> exact ⟨by omega, fun index _ _ => by omega⟩
    have new_held : one.held nmem = some newsize := by
      rw [given pointer]
      exact hold_here ..
    have lawful_store : one.Lawful (.store nmem 0 (one.heap.load rmem count)) := by
      refine ⟨newsize, new_held, ?_⟩
      unfold Heap.load
      rw [List.length_map, List.length_range, Nat.zero_add]
      exact short.1
    obtain ⟨two, now_two, taken_two, steps_two⟩ := store_kept steps.owned lawful_store
    have second : two = { one with heap := one.heap.store nmem (one.heap.load rmem count) } :=
      (Option.some.inj taken_two).symm
    have old_held : two.held rmem = some size := by
      rw [second]
      dsimp only
      rw [given pointer]
      exact (hold_other (fresh rmem size held) _).trans held
    have lawful_free : two.Lawful (.free rmem) := .inr (.inr (by rw [old_held]; rfl))
    obtain ⟨three, now_three, taken_three, steps_three⟩ := free_kept steps_two.owned lawful_free
    have third : three = { heap := two.heap.rtFree rmem, held := two.hold rmem none } :=
      (Option.some.inj taken_three).symm
    have kept {other index : Nat} {byte : UInt8} (different : other ≠ nmem) (holds : Holds s other index byte) :
        Holds two other index byte := by
      have granted := steps.bytes other index byte trivial holds
      exact steps_two.bytes other index byte (fun here => absurd here.symm different) granted
    have lawfully : Taken Session.step Session.Lawful s
        [.malloc newsize, .store nmem 0 (one.heap.load rmem count), .free rmem] :=
      taken_more small taken (taken_more lawful_store taken_two (taken_more lawful_free taken_three trivial))
    have goes : run Session.step s [.malloc newsize, .store nmem 0 (one.heap.load rmem count), .free rmem] = some three :=
      run_more taken (run_more taken_two (run_more taken_three rfl))
    refine ⟨[.malloc newsize, .store nmem 0 (one.heap.load rmem count), .free rmem], three, nmem, ?_,
      ⟨lawfully, goes, fun null => absurd null pointer, fun _ => ⟨newsize, ?_, Nat.le_refl _⟩,
        fun _ index within below => ?_, fun _ _ => ?_, fun other index byte different holds => ?_⟩⟩
    · rw [third, second]
    · rw [third]
      refine (hold_other (fresh rmem size held).symm _).trans ?_
      rw [second]
      exact new_held
    · have two_held : two.held nmem = some newsize := by
        rw [second]
        exact new_held
      refine steps_three.bytes nmem index _ (fresh rmem size held) ⟨⟨newsize, two_held, below⟩, ?_⟩
      have before := (steps.bytes rmem index _ trivial ⟨⟨size, held, within⟩, rfl⟩).2
      rw [second]
      exact (store_byte one.heap nmem (load_byte one.heap rmem count (short.2 index within below))).trans before
    · rw [third]
      exact hold_here ..
    · obtain ⟨extent, other_held, _⟩ := holds.1
      exact steps_three.bytes other index byte different.symm (kept (fresh other extent other_held) holds)

/-- `rt_realloc` of memory that is held keeps its first bytes, wherever the memory is
afterwards, and all other memory; when it refuses it changes nothing. -/
theorem realloc_keeps_bytes {newsize : Nat} (booted : Booted s) (lawful : Taken Session.step Session.Lawful s events)
    (reached : run Session.step s events = some after) (held : after.held rmem = some size)
    (small : newsize ≤ 2 ^ 32 - 4) (some_size : 0 < newsize) :
    ∃ sections final p, after.heap.rtRealloc rmem newsize = some (final.heap, p) ∧
      Resized after final sections rmem size newsize p := by
  obtain ⟨pieces, owned⟩ := reached_owned booted lawful reached
  have rounded := rtAlign_eq small
  have pointer := (owned.address held).2
  have wider {final : Session} {sections : List HeapEvent} {p : Nat}
      (resized : Resized after final sections rmem size (rtAlign newsize) p) :
      Resized after final sections rmem size newsize p := by
    refine { resized with room := fun not => ?_, first := fun not index within short => ?_ }
    · obtain ⟨extent, held, enough⟩ := resized.room not
      exact ⟨extent, held, by omega⟩
    · exact resized.first not index within (by omega)
  unfold Heap.rtRealloc
  dsimp only
  by_cases large : rtAlign newsize > after.heap.memSizeAligned
  · rw [if_pos large]
    exact ⟨[], after, 0, rfl, .nothing after rmem size newsize⟩
  · rw [if_neg large, if_neg (by omega), if_neg pointer]
    have lawful_resize : after.Lawful (.resize rmem (rtAlign newsize)) :=
      ⟨⟨by omega, by omega, Nat.not_lt.mp large⟩, .inr (by rw [held]; rfl)⟩
    obtain ⟨begin, extent, member, at_place, inside⟩ := owned.granted rmem size held
    have parts :=
      resize_spec owned.intact member (⟨by omega, by omega⟩ : rtAlign newsize % 4 = 0 ∧ 0 < rtAlign newsize)
    rw [← at_place] at parts
    rcases parts with ⟨same, _⟩ | ⟨_, heap, _, cut, _⟩ | moves
    · obtain ⟨final, heap_same, resized⟩ := stays_resized owned held lawful_resize same
      rw [same]
      exact ⟨_, final, rmem, by rw [heap_same], wider resized⟩
    · obtain ⟨final, heap_same, resized⟩ := stays_resized owned held lawful_resize cut
      rw [cut]
      exact ⟨_, final, rmem, by rw [heap_same], wider resized⟩
    · obtain ⟨sections, final, p, result, resized⟩ :=
        moves_resized owned held (by omega : size ≤ extent - sizeofStructMem) (by omega : rtAlign newsize ≤ 2 ^ 32 - 4)
      rw [moves]
      exact ⟨sections, final, p, result, wider resized⟩

theorem realloc_keeps_bytes_sample : ∃ sections final p, asked.heap.rtRealloc 0x2000000c 60 = some (final.heap, p) ∧
    Resized asked final sections 0x2000000c 20 60 p :=
  realloc_keeps_bytes sample_booted sample_lawful.front asked_reached (by decide +kernel) (by decide) (by decide)

/-- `rt_calloc` gives memory of the product of its arguments, as far as that fits into 32
bits, and all of it is zero. -/
theorem calloc_zeroes {count : Nat} (booted : Booted s) (lawful : Taken Session.step Session.Lawful s events)
    (reached : run Session.step s events = some after) (small : count * size % 2 ^ 32 ≤ 2 ^ 32 - 4) :
    ∃ sections final p, after.heap.rtCalloc count size = some (final.heap, p) ∧
      Taken Session.step Session.Lawful after sections ∧
      run Session.step after sections = some final ∧
      (p ≠ 0 → final.held p = some (count * size % 2 ^ 32) ∧ ∀ index < count * size % 2 ^ 32, Holds final p index 0) ∧
      ∀ other index byte, Holds after other index byte → Holds final other index byte := by
  obtain ⟨pieces, owned⟩ := reached_owned booted lawful reached
  unfold Heap.rtCalloc
  dsimp only
  generalize count * size % 2 ^ 32 = bytes at *
  obtain ⟨one, now, p, granted, taken, steps, refused, given, fresh⟩ := malloc_kept owned small
  rw [granted, Option.map_some]
  dsimp only
  by_cases pointer : p = 0
  · have same := refused pointer
    subst same
    rw [if_neg fun not => not pointer]
    exact ⟨[], one, p, rfl, trivial, rfl, fun not => absurd pointer not, fun _ _ _ holds => holds⟩
  · rw [if_pos pointer]
    have new_held : one.held p = some bytes := by
      rw [given pointer]
      exact hold_here ..
    have lawful_store : one.Lawful (.store p 0 (List.replicate bytes 0)) := by
      refine ⟨bytes, new_held, ?_⟩
      rw [List.length_replicate, Nat.zero_add]
    obtain ⟨two, _, taken_two, steps_two⟩ := store_kept steps.owned lawful_store
    have second : two = { one with heap := one.heap.store p (List.replicate bytes 0) } :=
      (Option.some.inj taken_two).symm
    have lawfully : Taken Session.step Session.Lawful after [.malloc bytes, .store p 0 (List.replicate bytes 0)] :=
      taken_more small taken (taken_more lawful_store taken_two trivial)
    have goes : run Session.step after [.malloc bytes, .store p 0 (List.replicate bytes 0)] = some two :=
      run_more taken (run_more taken_two rfl)
    refine ⟨[.malloc bytes, .store p 0 (List.replicate bytes 0)], two, p, by rw [second], lawfully, goes, fun _ => ?_,
      fun other index byte holds => ?_⟩
    · rw [second]
      refine ⟨new_held, fun index within => ⟨⟨bytes, new_held, within⟩, store_byte one.heap p ?_⟩⟩
      exact (List.getElem?_replicate_of_lt within)
    · obtain ⟨extent, other_held, _⟩ := holds.1
      have different := fresh other extent other_held
      have granted := steps.bytes other index byte trivial holds
      exact steps_two.bytes other index byte (fun here => absurd here.symm different) granted

theorem calloc_zeroes_sample : ∃ sections final p, asked.heap.rtCalloc 5 6 = some (final.heap, p) ∧
    Taken Session.step Session.Lawful asked sections ∧ run Session.step asked sections = some final ∧
    (p ≠ 0 → final.held p = some (5 * 6 % 2 ^ 32) ∧ ∀ index < 5 * 6 % 2 ^ 32, Holds final p index 0) ∧
    ∀ other index byte, Holds asked other index byte → Holds final other index byte :=
  calloc_zeroes sample_booted sample_lawful.front asked_reached (by decide)

/-- When all memory has been given back the heap is one free block again. -/
theorem freed_heap_is_whole (booted : Booted s) (lawful : Taken Session.step Session.Lawful s events)
    (reached : run Session.step s events = some after) (none : ∀ rmem, after.held rmem = none) :
    after.heap.mem 0 = { magic := heapMagic, used := false, next := after.heap.heapEnd, prev := 0 } ∧
      after.heap.lfree = 0 ∧ after.heap.usedMem = 0 := by
  obtain ⟨pieces, owned⟩ := reached_owned booted lawful reached
  have intact := owned.intact
  have unused : inUse 0 pieces = [] := by
    refine List.eq_nil_iff_forall_not_mem.mpr fun ⟨begin, extent⟩ member => ?_
    have held := owned.known begin extent member
    rw [none] at held
    cases held
  have whole := intact.shape.whole
  have some_pieces : pieces ≠ [] := by
    rintro rfl
    exact absurd whole (Nat.ne_of_lt (Nat.succ_pos _))
  have used := intact.used
  have low := intact.low
  have laid := intact.shape.laid
  rw [unused] at used
  rw [intact.joined.single unused some_pieces] at low laid
  refine ⟨laid.1.trans ?_, low, used⟩
  rw [whole, Nat.zero_add]

private theorem returns_lawful : Taken Session.step Session.Lawful sample returns := by decide +kernel

private theorem freed_reached : run Session.step sample returns = some freed := by
  obtain ⟨after, reached⟩ :=
    Option.isSome_iff_exists.mp (by decide +kernel : (run Session.step sample returns).isSome = true)
  unfold freed
  rw [reached, Option.getD_some]

private theorem freed_none (rmem : Nat) : freed.held rmem = none := by
  cases held : freed.held rmem with
  | none => rfl
  | some size =>
    obtain ⟨_, owned⟩ := reached_owned sample_booted returns_lawful freed_reached
    obtain ⟨within, _⟩ := owned.address held
    have bounds : freed.heap.heapPtr = 0x20000000 ∧ freed.heap.heapEnd = 244 := by decide +kernel
    have every : ∀ place < 244, freed.held (0x20000000 + place) = none := by decide +kernel
    unfold Heap.outside at within
    rw [bounds.1, bounds.2] at within
    have here := every (rmem - 0x20000000) (by omega)
    rw [show 0x20000000 + (rmem - 0x20000000) = rmem by omega, held] at here
    cases here

theorem freed_heap_is_whole_sample :
    freed.heap.mem 0 = { magic := heapMagic, used := false, next := freed.heap.heapEnd, prev := 0 } ∧
      freed.heap.lfree = 0 ∧ freed.heap.usedMem = 0 :=
  freed_heap_is_whole sample_booted returns_lawful freed_reached freed_none

end SmartWatch.Proofs.HeapRuns
