import Mathlib.Algebra.Group.Nat.Defs

/-! The heap of `mem.c`. A `struct heap_mem *` is the offset of the header from
`heap_ptr`, and `rt_size_t` is a number below 2^32. The headers lie among the bytes
that the callers are given. -/

namespace SmartWatch

def heapMagic : Nat := 0x1ea0

def sizeofStructMem : Nat := 12

def minSizeAligned : Nat := 12

structure HeapMem where
  magic : Nat := 0
  used : Bool := false
  next : Nat := 0
  prev : Nat := 0
deriving DecidableEq, Repr

/-- The bytes of a header, the lowest first. -/
def headerByte (header : HeapMem) (place : Nat) : UInt8 :=
  UInt8.ofNat ((header.magic + 2 ^ 16 * header.used.toNat + 2 ^ 32 * header.next + 2 ^ 64 * header.prev) / 256 ^ place)

/-- What some bytes read as a number. -/
def number (data : Nat → UInt8) (place count : Nat) : Nat :=
  (List.range count).foldr (fun index high => (data (place + index)).toNat + 256 * high) 0

def headerOf (data : Nat → UInt8) (place : Nat) : HeapMem where
  magic := number data place 2
  used := number data (place + 2) 2 ≠ 0
  next := number data (place + 4) 4
  prev := number data (place + 8) 4

/-- The variables of the file, how often `rt_free` has complained, and the memory: its
bytes, and the headers that stand in them. -/
structure Heap where
  heapPtr : Nat
  memSizeAligned : Nat
  mem : Nat → HeapMem
  data : Nat → UInt8
  lfree : Nat := 0
  usedMem : Nat := 0
  maxMem : Nat := 0
  complaints : Nat := 0

/-- `RT_ALIGN` and `RT_ALIGN_DOWN` to `RT_ALIGN_SIZE`, which is 4. -/
def rtAlign (size : Nat) : Nat := (size + 3) % 2 ^ 32 / 4 * 4

def rtAlignDown (size : Nat) : Nat := size / 4 * 4

/-- A difference of two numbers of 32 bits. -/
def minus (one two : Nat) : Nat := (one + 2 ^ 32 - two) % 2 ^ 32

namespace Heap

def heapEnd (h : Heap) : Nat := h.memSizeAligned + sizeofStructMem

/-- A header is written over the bytes of its place. -/
def setMem (h : Heap) (mem : Nat) (header : HeapMem) : Heap :=
  { h with
    mem := fun other => if other = mem then header else h.mem other
    data := fun place => if mem ≤ place ∧ place < mem + sizeofStructMem then headerByte header (place - mem) else h.data place }

/-- Bytes are written to an address, and change the headers they fall on. -/
def store (h : Heap) (dst : Nat) (bytes : List UInt8) : Heap :=
  let begin := dst - h.heapPtr
  let data := fun place => if begin ≤ place then bytes[place - begin]?.getD (h.data place) else h.data place
  { h with
    mem := fun other => if begin < other + sizeofStructMem ∧ other < begin + bytes.length then headerOf data other else h.mem other
    data }

/-- `rt_system_heap_init`, when the addresses leave room for two headers. -/
def rtSystemHeapInit (beginAddr endAddr : Nat) (mem : Nat → HeapMem) (data : Nat → UInt8) : Option Heap :=
  let beginAlign := rtAlign beginAddr
  let endAlign := rtAlignDown endAddr
  if endAlign > 2 * sizeofStructMem ∧ endAlign - 2 * sizeofStructMem ≥ beginAlign then
    let memSizeAligned := endAlign - beginAlign - 2 * sizeofStructMem
    let heapEnd := memSizeAligned + sizeofStructMem
    let h : Heap := { heapPtr := beginAlign, memSizeAligned, mem, data }
    some ((h.setMem 0 { magic := heapMagic, next := heapEnd, prev := 0 }).setMem heapEnd
      { magic := heapMagic, used := true, next := heapEnd, prev := heapEnd })
  else
    none

/-- A block reaches up to another one, which is told. -/
def linkOver (h : Heap) (mem next : Nat) : Heap :=
  let h := h.setMem mem { h.mem mem with next }
  h.setMem next { h.mem next with prev := mem }

/-- The first half of `plug_holes`: the block takes a free one behind it. -/
def plugForward (h : Heap) (mem : Nat) : Heap :=
  let nmem := (h.mem mem).next
  if mem ≠ nmem ∧ (h.mem nmem).used = false ∧ nmem ≠ h.heapEnd then
    { h with lfree := if h.lfree = nmem then mem else h.lfree }.linkOver mem (h.mem nmem).next
  else
    h

/-- The second half: a free block before it takes the block. -/
def plugBackward (h : Heap) (mem : Nat) : Heap :=
  let pmem := (h.mem mem).prev
  if pmem ≠ mem ∧ (h.mem pmem).used = false then
    { h with lfree := if h.lfree = mem then pmem else h.lfree }.linkOver pmem (h.mem mem).next
  else
    h

def plugHoles (h : Heap) (mem : Nat) : Heap := (h.plugForward mem).plugBackward mem

/-- The search of `rt_malloc` from an offset, which is `none` when it has not ended after
`turns` turns; the search itself may end with nothing. -/
def search (h : Heap) (size : Nat) : Nat → Nat → Option (Option Nat)
  | 0, _ => none
  | turns + 1, ptr =>
    if ptr < minus h.memSizeAligned size then
      if (h.mem ptr).used = false ∧ minus (h.mem ptr).next (ptr + sizeofStructMem) ≥ size then
        some (some ptr)
      else
        search h size turns (h.mem ptr).next
    else
      some none

/-- The remainder of a block becomes a free block of its own. -/
def split (h : Heap) (ptr ptr2 : Nat) : Heap :=
  let next := (h.mem ptr).next
  let h := h.setMem ptr2 { magic := heapMagic, used := false, next, prev := ptr }
  let h := h.setMem ptr { h.mem ptr with next := ptr2 }
  if next ≠ h.heapEnd then h.setMem next { h.mem next with prev := ptr2 } else h

/-- A block is used, and counted. -/
def use (h : Heap) (ptr taken : Nat) : Heap :=
  let usedMem := (h.usedMem + taken) % 2 ^ 32
  { h.setMem ptr { h.mem ptr with used := true, magic := heapMagic } with
    usedMem, maxMem := if h.maxMem < usedMem then usedMem else h.maxMem }

/-- The block found is cut to size when another one fits behind, and used. -/
def allot (h : Heap) (ptr size : Nat) : Heap :=
  if minus (h.mem ptr).next (ptr + sizeofStructMem) ≥ size + sizeofStructMem + minSizeAligned then
    (h.split ptr (ptr + sizeofStructMem + size)).use ptr (size + sizeofStructMem)
  else
    h.use ptr (minus (h.mem ptr).next ptr)

/-- The loop that looks for the next free block. -/
def lowest (h : Heap) : Nat → Nat → Option Nat
  | 0, _ => none
  | turns + 1, lfree => if (h.mem lfree).used = true ∧ lfree ≠ h.heapEnd then lowest h turns (h.mem lfree).next else some lfree

/-- `rt_malloc` behind the search. The lowest free block moves on when it is the one found. -/
def grant (h : Heap) (size : Nat) : Option Nat → Option (Heap × Nat)
  | none => some (h, 0)
  | some ptr =>
    let rmem := h.heapPtr + ptr + sizeofStructMem
    let turns := h.memSizeAligned + 2
    let h := h.allot ptr size
    if ptr = h.lfree then (h.lowest turns h.lfree).map fun lfree => ({ h with lfree }, rmem) else some (h, rmem)

/-- `rt_malloc`, which is `none` when one of its loops does not end; the address 0 is `RT_NULL`. -/
def rtMalloc (h : Heap) (size : Nat) : Option (Heap × Nat) :=
  if size = 0 then
    some (h, 0)
  else
    let size := rtAlign size
    if size > h.memSizeAligned then
      some (h, 0)
    else
      let size := if size < minSizeAligned then minSizeAligned else size
      (h.search size (h.memSizeAligned + 2) h.lfree).bind (h.grant size)

def outside (h : Heap) (rmem : Nat) : Prop := rmem < h.heapPtr ∨ rmem ≥ h.heapPtr + h.heapEnd

instance (h : Heap) (rmem : Nat) : Decidable (h.outside rmem) := inferInstanceAs (Decidable (_ ∨ _))

/-- A block is free, and counted off. -/
def release (h : Heap) (mem : Nat) : Heap :=
  { h.setMem mem { h.mem mem with used := false, magic := heapMagic } with
    lfree := if mem < h.lfree then mem else h.lfree
    usedMem := minus h.usedMem (minus (h.mem mem).next mem) }

def rtFree (h : Heap) (rmem : Nat) : Heap :=
  if rmem = 0 ∨ h.outside rmem then
    h
  else
    let mem := rmem - sizeofStructMem - h.heapPtr
    let h := if (h.mem mem).used = false ∨ (h.mem mem).magic ≠ heapMagic then { h with complaints := h.complaints + 1 } else h
    (h.release mem).plugHoles mem

/-- The end of a block becomes a free one. -/
def shrink (h : Heap) (ptr ptr2 less : Nat) : Heap :=
  let h := { h with usedMem := minus h.usedMem less }.split ptr ptr2
  { h with lfree := if ptr2 < h.lfree then ptr2 else h.lfree }

/-- The part of `rt_realloc` in which it holds the semaphore: the block stays or shrinks
in place, or is of this size and has to move. -/
def resize (h : Heap) (rmem newsize : Nat) : Heap × Option Nat :=
  if h.outside rmem then
    (h, none)
  else
    let ptr := rmem - sizeofStructMem - h.heapPtr
    let size := minus (minus (h.mem ptr).next ptr) sizeofStructMem
    if size = newsize then
      (h, none)
    else if newsize + sizeofStructMem + minSizeAligned < size then
      let ptr2 := ptr + sizeofStructMem + newsize
      ((h.shrink ptr ptr2 (minus size newsize)).plugHoles ptr2, none)
    else
      (h, some size)

/-- The bytes from an address on. -/
def load (h : Heap) (src count : Nat) : List UInt8 := (List.range count).map fun index => h.data (src - h.heapPtr + index)

def rtRealloc (h : Heap) (rmem newsize : Nat) : Option (Heap × Nat) :=
  let newsize := rtAlign newsize
  if newsize > h.memSizeAligned then
    some (h, 0)
  else if newsize = 0 then
    some (h.rtFree rmem, 0)
  else if rmem = 0 then
    h.rtMalloc newsize
  else
    match h.resize rmem newsize with
    | (h, none) => some (h, rmem)
    | (h, some size) =>
      (h.rtMalloc newsize).map fun (h, nmem) =>
        if nmem ≠ 0 then
          ((h.store nmem (h.load rmem (if size < newsize then size else newsize))).rtFree rmem, nmem)
        else
          (h, nmem)

def rtCalloc (h : Heap) (count size : Nat) : Option (Heap × Nat) :=
  let bytes := count * size % 2 ^ 32
  (h.rtMalloc bytes).map fun (h, p) => if p ≠ 0 then (h.store p (List.replicate bytes 0), p) else (h, p)

end Heap

/-- The heap and the addresses the callers hold, with the sizes they asked for. -/
structure Session where
  heap : Heap
  held : Nat → Option Nat

inductive HeapEvent
  | malloc (size : Nat)
  | free (rmem : Nat)
  | resize (rmem newsize : Nat)
  | store (rmem offset : Nat) (bytes : List UInt8)
deriving DecidableEq, Repr

namespace Session

def hold (s : Session) (rmem : Nat) (size : Option Nat) : Nat → Option Nat :=
  fun other => if other = rmem then size else s.held other

/-- A caller uses the heap, or the memory it holds. -/
def step (s : Session) : HeapEvent → Option Session
  | .malloc size => (s.heap.rtMalloc size).map fun (heap, p) => { heap, held := if p ≠ 0 then s.hold p (some size) else s.held }
  | .free rmem => some { heap := s.heap.rtFree rmem, held := s.hold rmem none }
  | .resize rmem newsize =>
    match s.heap.resize rmem newsize with
    | (heap, none) => some { heap, held := s.hold rmem ((s.held rmem).map fun _ => newsize) }
    | (heap, some _) => some { heap, held := s.held }
  | .store rmem offset bytes => some { s with heap := s.heap.store (rmem + offset) bytes }

/-- What the callers keep to: no size that rounds up past 2^32, no address that is freed
or resized without being held, and no byte outside the memory asked for. -/
def Lawful (s : Session) : HeapEvent → Prop
  | .malloc size => size ≤ 2 ^ 32 - 4
  | .free rmem => rmem = 0 ∨ s.heap.outside rmem ∨ (s.held rmem).isSome
  | .resize rmem newsize => (newsize % 4 = 0 ∧ 0 < newsize ∧ newsize ≤ s.heap.memSizeAligned) ∧ (s.heap.outside rmem ∨ (s.held rmem).isSome)
  | .store rmem offset bytes => ∃ size ∈ s.held rmem, offset + bytes.length ≤ size

instance (s : Session) : ∀ event, Decidable (s.Lawful event)
  | .malloc _ => inferInstanceAs (Decidable (_ ≤ _))
  | .free _ => inferInstanceAs (Decidable (_ ∨ _))
  | .resize _ _ => inferInstanceAs (Decidable (_ ∧ _))
  | .store _ _ _ => inferInstanceAs (Decidable (∃ size ∈ s.held _, _))

end Session

end SmartWatch
