import Mathlib.Data.List.Basic

/-! Deadlines kept as stamps of a 32-bit counter that wraps, and items kept in the
order of their deadlines, the ones with one deadline in the order they came in. -/

namespace Deadlines

/-- What the counter shows at a time that does not wrap. -/
def Shows (stamp : UInt32) (time : Nat) : Prop := stamp.toNat = time % 4294967296

namespace Shows

variable {stamp other : UInt32} {time later : Nat}

theorem add (shows : Shows stamp time) (distance : UInt32) : Shows (stamp + distance) (time + distance.toNat) := by
  unfold Shows at *
  rw [UInt32.toNat_add, shows]
  omega

theorem next (shows : Shows stamp time) : Shows (stamp + 1) (time + 1) := shows.add 1

/-- The difference of two stamps is that of the times, unless it is negative. -/
theorem sub (shows : Shows stamp time) (shown : Shows other later) (order : later ≤ time) (near : time < later + 4294967296) :
    (stamp - other).toNat = time - later := by
  unfold Shows at *
  rw [UInt32.toNat_sub, shows, shown]
  omega

theorem sub_wraps (shows : Shows stamp time) (shown : Shows other later) (order : time < later)
    (near : later < time + 4294967296) : (stamp - other).toNat = 4294967296 - (later - time) := by
  unfold Shows at *
  rw [UInt32.toNat_sub, shows, shown]
  omega

/-- Two times that are less than half the counter apart compare as their stamps do. -/
theorem less_half (shows : Shows stamp time) (shown : Shows other later) {half : UInt32} (small : half.toNat < 2147483648)
    (before : time < later + half.toNat) (after : later ≤ time + half.toNat + 1) : stamp - other < half ↔ later ≤ time := by
  rw [UInt32.lt_iff_toNat_lt]
  rcases Nat.lt_or_ge time later with less | order
  · rw [shows.sub_wraps shown less (by omega)]
    omega
  · rw [shows.sub shown order (by omega)]
    omega

theorem sub_eq_zero (shows : Shows stamp time) (shown : Shows other later)
    (before : time < later + 4294967296) (after : later < time + 4294967296) : stamp - other = 0 ↔ time = later := by
  rw [← UInt32.toNat_inj]
  rcases Nat.lt_or_ge time later with less | order
  · rw [shows.sub_wraps shown less (by omega), UInt32.toNat_zero]
    omega
  · rw [shows.sub shown order (by omega), UInt32.toNat_zero]
    omega

end Shows

variable {α : Type u}

/-- Walks along a list to the first item that stops it and puts the new one there. -/
def insert (stops : α → Bool) (item : α) : List α → List α
  | [] => [item]
  | first :: rest => if stops first then item :: first :: rest else first :: insert stops item rest

theorem insert_perm (stops : α → Bool) (item : α) (items : List α) : (insert stops item items).Perm (item :: items) := by
  induction items with
  | nil => exact .refl _
  | cons first rest ih =>
    unfold insert
    split
    · exact .refl _
    · exact (ih.cons first).trans (.swap item first rest)

@[simp] theorem mem_insert {stops : α → Bool} {item other : α} {items : List α} :
    other ∈ insert stops item items ↔ other = item ∨ other ∈ items :=
  (insert_perm stops item items).mem_iff.trans List.mem_cons

theorem nodup_insert {stops : α → Bool} {item : α} {items : List α} (new : item ∉ items) (nodup : items.Nodup) :
    (insert stops item items).Nodup :=
  (insert_perm stops item items).nodup_iff.mpr (List.nodup_cons.mpr ⟨new, nodup⟩)

/-- Stopping at the first later deadline keeps the order. -/
theorem sorted_insert {deadline : α → Nat} {stops : α → Bool} {item : α} {items : List α}
    (sorted : items.Pairwise fun first second => deadline first ≤ deadline second)
    (stop : ∀ other ∈ items, stops other = true ↔ deadline item < deadline other) :
    (insert stops item items).Pairwise fun first second => deadline first ≤ deadline second := by
  induction items with
  | nil => exact List.pairwise_singleton _ _
  | cons first rest ih =>
    obtain ⟨least, rest_sorted⟩ := List.pairwise_cons.mp sorted
    have here := stop first List.mem_cons_self
    unfold insert
    split
    next stopped =>
      refine List.pairwise_cons.mpr ⟨fun other member => ?_, sorted⟩
      have less := here.mp stopped
      rcases List.mem_cons.mp member with rfl | inside
      · exact Nat.le_of_lt less
      · exact Nat.le_trans (Nat.le_of_lt less) (least other inside)
    next passed =>
      have order : deadline first ≤ deadline item := Nat.le_of_not_lt fun less => passed (here.mpr less)
      have placed := ih rest_sorted fun other inside => stop other (List.mem_cons_of_mem _ inside)
      refine List.pairwise_cons.mpr ⟨fun other member => ?_, placed⟩
      rcases mem_insert.mp member with rfl | inside
      · exact order
      · exact least other inside

theorem sublist_insert (stops : α → Bool) (item : α) (items : List α) : items.Sublist (insert stops item items) := by
  induction items with
  | nil => exact List.nil_sublist _
  | cons first rest ih =>
    unfold insert
    split
    · exact List.sublist_cons_self _ _
    · exact ih.cons_cons first

/-- The new item comes behind those that are due no later. -/
theorem insert_behind {deadline : α → Nat} {stops : α → Bool} {item earlier : α} {items : List α}
    (sorted : items.Pairwise fun first second => deadline first ≤ deadline second)
    (stop : ∀ other ∈ items, stops other = true ↔ deadline item < deadline other) (member : earlier ∈ items)
    (order : deadline earlier ≤ deadline item) : [earlier, item].Sublist (insert stops item items) := by
  induction items with
  | nil => cases member
  | cons first rest ih =>
    obtain ⟨least, rest_sorted⟩ := List.pairwise_cons.mp sorted
    have passed : ¬stops first = true := fun stopped => by
      have less := (stop first List.mem_cons_self).mp stopped
      rcases List.mem_cons.mp member with rfl | inside
      · omega
      · have := least earlier inside
        omega
    rw [insert, if_neg passed]
    rcases List.mem_cons.mp member with rfl | inside
    · exact (List.singleton_sublist.mpr (mem_insert.mpr (.inl rfl))).cons_cons earlier
    · exact (ih rest_sorted (fun other behind => stop other (List.mem_cons_of_mem _ behind)) inside).cons first

/-- It comes in front of those that are due later. -/
theorem insert_ahead {deadline : α → Nat} {stops : α → Bool} {item later : α} {items : List α}
    (stop : ∀ other ∈ items, stops other = true ↔ deadline item < deadline other) (member : later ∈ items)
    (order : deadline item < deadline later) : [item, later].Sublist (insert stops item items) := by
  induction items with
  | nil => cases member
  | cons first rest ih =>
    unfold insert
    split
    next => exact (List.singleton_sublist.mpr member).cons_cons item
    next passed =>
      rcases List.mem_cons.mp member with rfl | inside
      · exact absurd ((stop later List.mem_cons_self).mpr order) passed
      · exact (ih (fun other behind => stop other (List.mem_cons_of_mem _ behind)) inside).cons first

end Deadlines
