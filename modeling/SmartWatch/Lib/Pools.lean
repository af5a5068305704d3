import SmartWatch.Lib.Chains

/-! A pool of blocks, each of them linked into a queue, linked into a list of free
blocks, or in the hand of one party. -/

namespace Pools
open Chains

variable {τ : Type u} {β : Type v} {next : β → Option β} {head tail free : Option β} {hand after : τ → Option β}
  {all : β → Prop} {queue pool rest : List β} {block : β} {party : τ}

/-- The links, and the blocks that they lead to. -/
structure Pool (next : β → Option β) (head tail free : Option β) (hand : τ → Option β) (all : β → Prop)
    (queue pool : List β) : Prop where
  queued : Chain next head queue
  last : tail = queue.getLast?
  unused : Chain next free pool
  nodup : (queue ++ pool).Nodup
  inside : ∀ block ∈ queue ++ pool, all block
  held : ∀ party block, hand party = some block → all block ∧ block ∉ queue ++ pool
  single : ∀ one two block, hand one = some block → hand two = some block → one = two
  whole : ∀ block, all block → block ∈ queue ++ pool ∨ ∃ party, hand party = some block

namespace Pool

/-- A block goes from one of the lists to a hand that is empty. -/
private theorem hands {before now : List β} (single : ∀ one two block, hand one = some block → hand two = some block →
      one = two)
    (held : ∀ party block, hand party = some block → all block ∧ block ∉ before) (nodup : before.Nodup)
    (inside : ∀ block ∈ before, all block)
    (whole : ∀ block, all block → block ∈ before ∨ ∃ party, hand party = some block)
    (moved : before.Perm (block :: now)) (empty : hand party = none) (holds : after party = some block)
    (same : ∀ other, other ≠ party → after other = hand other) :
    (∀ other item, after other = some item → all item ∧ item ∉ now) ∧
      (∀ one two item, after one = some item → after two = some item → one = two) ∧
      ∀ item, all item → item ∈ now ∨ ∃ other, after other = some item := by
  have apart := (List.nodup_cons.mp (moved.nodup_iff.mp nodup)).1
  have member : block ∈ before := moved.mem_iff.mpr List.mem_cons_self
  have shrinks : ∀ item ∈ now, item ∈ before := fun item is => moved.mem_iff.mpr (List.mem_cons_of_mem _ is)
  have others : ∀ other item, after other = some item →
      (other = party ∧ item = block) ∨ (other ≠ party ∧ hand other = some item) := by
    intro other item is
    by_cases this : other = party
    · rw [this, holds] at is
      exact .inl ⟨this, (Option.some.inj is).symm⟩
    · exact .inr ⟨this, same other this ▸ is⟩
  refine ⟨fun other item is => ?_, fun one two item first second => ?_, fun item exists_item => ?_⟩
  · rcases others other item is with ⟨_, rfl⟩ | ⟨_, is⟩
    · exact ⟨inside item member, apart⟩
    · exact ⟨(held other item is).1, fun now_in => (held other item is).2 (shrinks item now_in)⟩
  · rcases others one item first with ⟨rfl, rfl⟩ | ⟨_, first⟩ <;> rcases others two _ second with ⟨rfl, same_item⟩ | ⟨_, second⟩
    · rfl
    · exact absurd member (held two _ second).2
    · exact absurd (same_item ▸ member) (held one _ first).2
    · exact single one two item first second
  · rcases whole item exists_item with is | ⟨other, is⟩
    · rcases List.mem_cons.mp (moved.mem_iff.mp is) with rfl | is
      · exact .inr ⟨party, holds⟩
      · exact .inl is
    · have different : other ≠ party := fun this => by rw [this, empty] at is; cases is
      exact .inr ⟨other, (same other different).trans is⟩

/-- A block goes from a hand to one of the lists. -/
private theorem lists {before now : List β}
    (single : ∀ one two block, hand one = some block → hand two = some block → one = two)
    (held : ∀ party block, hand party = some block → all block ∧ block ∉ before)
    (whole : ∀ block, all block → block ∈ before ∨ ∃ party, hand party = some block)
    (moved : now.Perm (block :: before)) (holds : hand party = some block) (empty : after party = none)
    (same : ∀ other, other ≠ party → after other = hand other) :
    (∀ other item, after other = some item → all item ∧ item ∉ now) ∧
      (∀ one two item, after one = some item → after two = some item → one = two) ∧
      ∀ item, all item → item ∈ now ∨ ∃ other, after other = some item := by
  have others : ∀ other item, after other = some item → other ≠ party ∧ hand other = some item := by
    intro other item is
    have different : other ≠ party := fun this => by rw [this, empty] at is; cases is
    exact ⟨different, same other different ▸ is⟩
  refine ⟨fun other item is => ?_, fun one two item first second => ?_, fun item exists_item => ?_⟩
  · obtain ⟨different, is⟩ := others other item is
    refine ⟨(held other item is).1, fun now_in => ?_⟩
    rcases List.mem_cons.mp (moved.mem_iff.mp now_in) with rfl | before_in
    · exact different (single other party item is holds)
    · exact (held other item is).2 before_in
  · exact single one two item (others one item first).2 (others two item second).2
  · rcases whole item exists_item with is | ⟨other, is⟩
    · exact .inl (moved.mem_iff.mpr (List.mem_cons_of_mem _ is))
    · by_cases this : other = party
      · rw [this, holds] at is
        rw [← Option.some.inj is]
        exact .inl (moved.mem_iff.mpr List.mem_cons_self)
      · exact .inr ⟨other, (same other this).trans is⟩

theorem congr (blocks : Pool next head tail free hand all queue pool) (same : ∀ party, after party = hand party) :
    Pool next head tail free after all queue pool := by
  rwa [funext same]

/-- A free block is taken. -/
theorem claim (blocks : Pool next head tail (some block) hand all queue pool)
    (same : ∀ other, other ≠ party → after other = hand other) (empty : hand party = none)
    (holds : after party = some block) :
    ∃ rest, pool = block :: rest ∧ Pool next head tail (next block) after all queue rest := by
  obtain ⟨rest, rfl, unused⟩ := blocks.unused.cons
  have moved : (queue ++ block :: rest).Perm (block :: (queue ++ rest)) := List.perm_middle
  have ⟨fresh, nodup⟩ := List.nodup_cons.mp (moved.nodup_iff.mp blocks.nodup)
  have ⟨held, single, whole⟩ :=
    hands blocks.single blocks.held blocks.nodup blocks.inside blocks.whole moved empty holds same
  exact ⟨rest, rfl, blocks.queued, blocks.last, unused, nodup,
    fun item member => blocks.inside item (moved.mem_iff.mpr (List.mem_cons_of_mem _ member)), held, single, whole⟩

/-- The first block of the queue is taken. -/
theorem take [DecidableEq β] (blocks : Pool next (some block) tail free hand all queue pool)
    (same : ∀ other, other ≠ party → after other = hand other) (empty : hand party = none)
    (holds : after party = some block) :
    ∃ rest, queue = block :: rest ∧ Pool next (next block)
      (if tail = some block then none else tail) free after all rest pool := by
  obtain ⟨rest, rfl, queued⟩ := blocks.queued.cons
  obtain ⟨fresh, nodup⟩ := List.nodup_cons.mp blocks.nodup
  have ⟨held, single, whole⟩ :=
    hands blocks.single blocks.held blocks.nodup blocks.inside blocks.whole (List.Perm.refl _) empty holds same
  refine ⟨rest, rfl, queued, ?_, blocks.unused, nodup, fun item member => blocks.inside item (List.mem_cons_of_mem _ member),
    held, single, whole⟩
  rw [blocks.last]
  cases rest with
  | nil => exact if_pos rfl
  | cons second others =>
    rw [List.getLast?_cons_cons]
    refine if_neg fun ends => fresh (List.mem_append_left _ ?_)
    exact List.mem_of_getLast? ends

/-- The link of a block in hand is written. -/
theorem write [DecidableEq β] (blocks : Pool next head tail free hand all queue pool)
    (holds : hand party = some block) (target : Option β) :
    Pool (link next block target) head tail free hand all queue pool := by
  have out := (blocks.held party block holds).2
  rw [List.mem_append, not_or] at out
  exact { blocks with queued := blocks.queued.frame out.1 target, unused := blocks.unused.frame out.2 target }

/-- A block is linked in at the end of the queue. -/
theorem append [DecidableEq β] (blocks : Pool next head tail free hand all queue pool)
    (same : ∀ other, other ≠ party → after other = hand other) (holds : hand party = some block)
    (empty : after party = none) (ends : next block = none) :
    Pool (linkBehind next tail block) (if head = none then some block else head) (some block) free after all
      (queue ++ [block]) pool := by
  obtain ⟨queued, last, unused, nodup, inside, held, single, whole⟩ := blocks
  obtain ⟨exists_block, out⟩ := held party block holds
  have moved : (queue ++ [block] ++ pool).Perm (block :: (queue ++ pool)) := by
    rw [List.append_assoc]
    exact List.perm_middle
  have ⟨held, single, whole⟩ := lists single held whole moved holds empty same
  refine ⟨?_, by simp, ?_, moved.nodup_iff.mpr (List.nodup_cons.mpr ⟨out, nodup⟩), fun item member => ?_, held, single, whole⟩
  · rcases List.eq_nil_or_concat queue with rfl | ⟨front, old, rfl⟩
    · rw [last, queued]
      exact ⟨rfl, ends⟩
    · rw [last, List.concat_eq_append, List.getLast?_append, List.getLast?_singleton, Option.some_or]
      rw [List.concat_eq_append] at queued nodup out
      rw [if_neg (by rw [queued.start_eq]; cases front <;> exact fun none => by cases none)]
      refine queued.append (List.nodup_append.mp nodup).1 ends fun member => out (List.mem_append_left _ member)
  · rcases List.eq_nil_or_concat queue with rfl | ⟨front, old, rfl⟩
    · rw [last]
      exact unused
    · rw [last, List.concat_eq_append, List.getLast?_append, List.getLast?_singleton, Option.some_or]
      rw [List.concat_eq_append] at nodup
      refine unused.frame (fun member => ?_) _
      exact (List.nodup_append.mp nodup).2.2 old (List.mem_append_right _ (List.mem_singleton_self old)) old member rfl
  · rcases List.mem_cons.mp (moved.mem_iff.mp member) with rfl | member
    · exact exists_block
    · exact inside item member

/-- A block is linked in at the front of the queue. -/
theorem push [DecidableEq β] (blocks : Pool next head tail free hand all queue pool)
    (same : ∀ other, other ≠ party → after other = hand other) (holds : hand party = some block)
    (empty : after party = none) :
    Pool (link next block head) (some block)
      (if tail = none then some block else tail) free after all (block :: queue) pool := by
  obtain ⟨queued, last, unused, nodup, inside, held, single, whole⟩ := blocks
  obtain ⟨exists_block, out⟩ := held party block holds
  have ⟨held, single, whole⟩ := lists single held whole (List.Perm.refl _) holds empty same
  have fresh := List.nodup_cons.mpr ⟨out, nodup⟩
  rw [List.mem_append, not_or] at out
  refine ⟨queued.push out.1, ?_, unused.frame out.2 head, fresh, fun item member => ?_, held, single, whole⟩
  · rw [last]
    cases queue with
    | nil => exact if_pos rfl
    | cons first rest => exact (if_neg fun none => by simp at none).trans (List.getLast?_cons_cons).symm
  · rcases List.mem_cons.mp member with rfl | member
    · exact exists_block
    · exact inside item member

/-- A block in hand is free again. -/
theorem release [DecidableEq β] (blocks : Pool next head tail free hand all queue pool)
    (same : ∀ other, other ≠ party → after other = hand other) (holds : hand party = some block)
    (empty : after party = none) :
    Pool (link next block free) head tail (some block) after all queue (block :: pool) := by
  obtain ⟨queued, last, unused, nodup, inside, held, single, whole⟩ := blocks
  obtain ⟨exists_block, out⟩ := held party block holds
  have moved : (queue ++ block :: pool).Perm (block :: (queue ++ pool)) := List.perm_middle
  have ⟨held, single, whole⟩ := lists single held whole moved holds empty same
  have fresh := List.nodup_cons.mpr ⟨out, nodup⟩
  rw [List.mem_append, not_or] at out
  refine ⟨queued.frame out.1 free, last, unused.push out.2, moved.nodup_iff.mpr fresh, fun item member => ?_,
    held, single, whole⟩
  rcases List.mem_cons.mp (moved.mem_iff.mp member) with rfl | member
  · exact exists_block
  · exact inside item member

/-- The first block of the queue is free again. -/
theorem recycle [DecidableEq β] (blocks : Pool next (some block) tail free hand all queue pool) :
    ∃ rest, queue = block :: rest ∧ Pool (link next block free) (next block)
      (if tail = some block then none else tail) (some block)
      hand all rest (block :: pool) := by
  obtain ⟨rest, rfl, queued⟩ := blocks.queued.cons
  have ⟨_, last, unused, nodup, inside, held, single, whole⟩ := blocks
  have moved : (rest ++ block :: pool).Perm (block :: (rest ++ pool)) := List.perm_middle
  have fresh : block ∉ rest ++ pool := (List.nodup_cons.mp nodup).1
  rw [List.mem_append, not_or] at fresh
  refine ⟨rest, rfl, queued.frame fresh.1 free, ?_, unused.push fresh.2, moved.nodup_iff.mpr nodup,
    fun item member => inside item (moved.mem_iff.mp member), fun party item is => ⟨(held party item is).1, ?_⟩, single,
    fun item is => ?_⟩
  · rw [last]
    cases rest with
    | nil => exact if_pos rfl
    | cons second others =>
      rw [List.getLast?_cons_cons]
      exact if_neg fun ends => fresh.1 (List.mem_of_getLast? ends)
  · exact fun member => (held party item is).2 (moved.mem_iff.mp member)
  · exact (whole item is).imp moved.mem_iff.mpr id

end Pool

end Pools
