import Mathlib.Data.List.Nodup

/-! Lists linked through a table of next links, and what pushing, popping and
appending a link does to them. -/

namespace Chains

variable {β : Type u} {next : β → Option β} {start : Option β} {item : β} {items rest : List β}

/-- The items met on the way from a link to the end. -/
def Chain (next : β → Option β) : Option β → List β → Prop
  | start, [] => start = none
  | start, item :: rest => start = some item ∧ Chain next (next item) rest

theorem Chain.empty (chain : Chain next none items) : items = [] := by
  cases items with
  | nil => rfl
  | cons item rest => cases chain.1

theorem Chain.cons (chain : Chain next (some item) items) : ∃ rest, items = item :: rest ∧ Chain next (next item) rest := by
  cases items with
  | nil => cases chain
  | cons first rest =>
    obtain ⟨same, inner⟩ := chain
    cases same
    exact ⟨rest, rfl, inner⟩

theorem Chain.start_eq (chain : Chain next start items) : start = items.head? := by
  cases items with
  | nil => exact chain
  | cons item rest => exact chain.1

/-- Only the links of the items count. -/
theorem Chain.congr {after : β → Option β} (chain : Chain next start items) (same : ∀ item ∈ items, after item = next item) :
    Chain after start items := by
  induction items generalizing start with
  | nil => exact chain
  | cons item rest ih =>
    obtain ⟨begins, inner⟩ := chain
    refine ⟨begins, ?_⟩
    rw [same item List.mem_cons_self]
    exact ih inner fun other member => same other (List.mem_cons_of_mem _ member)

variable [DecidableEq β]

def link (next : β → Option β) (item : β) (target : Option β) : β → Option β :=
  fun other => if other = item then target else next other

/-- The item is linked behind another, if there is another. -/
def linkBehind (next : β → Option β) (last : Option β) (item : β) : β → Option β :=
  match last with
  | some last => link next last (some item)
  | none => next

@[simp] theorem link_same (next : β → Option β) (item : β) (target : Option β) : link next item target item = target := if_pos rfl

theorem link_other {other : β} (different : other ≠ item) (target : Option β) : link next item target other = next other :=
  if_neg different

theorem Chain.frame (chain : Chain next start items) (out : item ∉ items) (target : Option β) :
    Chain (link next item target) start items :=
  chain.congr fun other member => link_other (fun same : other = item => out (same ▸ member)) target

theorem Chain.push (chain : Chain next start items) (new : item ∉ items) :
    Chain (link next item start) (some item) (item :: items) := by
  refine ⟨rfl, ?_⟩
  rw [link_same]
  exact chain.frame new start

/-- A new last item is linked behind the old one. -/
theorem Chain.append {last : β} (chain : Chain next start (items ++ [last])) (nodup : (items ++ [last]).Nodup)
    (ends : next item = none) (new : item ∉ items ++ [last]) :
    Chain (link next last (some item)) start (items ++ [last] ++ [item]) := by
  induction items generalizing start with
  | nil =>
    obtain ⟨begins, _⟩ := chain
    have different : item ≠ last := fun same => new (same ▸ List.mem_singleton_self last)
    refine ⟨begins, ?_⟩
    rw [link_same]
    refine ⟨rfl, ?_⟩
    rw [link_other different]
    exact ends
  | cons first rest ih =>
    obtain ⟨begins, inner⟩ := chain
    obtain ⟨apart, rest_nodup⟩ := List.nodup_cons.mp nodup
    have different : first ≠ last := fun same => apart (same ▸ List.mem_append_right _ (List.mem_singleton_self _))
    refine ⟨begins, ?_⟩
    rw [link_other different]
    exact ih inner rest_nodup fun member => new (List.mem_cons_of_mem _ member)

end Chains
