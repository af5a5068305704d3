import Mathlib.Data.List.Nodup

/-! Parties that wait for something countable and are resumed one by one as it comes:
as long as one waits, at least as many have been resumed as there is of it. -/

namespace Wakeups

variable {τ : Type u} {waiting : List τ} {resumed after : τ → Prop} {count : Nat} {party : τ}

def Served (waiting : List τ) (resumed : τ → Prop) (count : Nat) : Prop :=
  waiting = [] ∨ ∃ woken : List τ, woken.Nodup ∧ (∀ party ∈ woken, resumed party) ∧ count ≤ woken.length

theorem Served.nobody : Served [] resumed count := .inl rfl

theorem Served.nothing : Served waiting resumed 0 :=
  .inr ⟨[], List.nodup_nil, fun _ member => absurd member List.not_mem_nil, Nat.le_refl 0⟩

theorem Served.mono {others : List τ} {fewer : Nat} (served : Served waiting resumed count)
    (shorter : others.Sublist waiting) (same : ∀ party, resumed party → after party) (less : fewer ≤ count) :
    Served others after fewer := by
  rcases served with rfl | ⟨woken, nodup, all, enough⟩
  · exact .inl (List.sublist_nil.mp shorter)
  · exact .inr ⟨woken, nodup, fun party member => same party (all party member), Nat.le_trans less enough⟩

/-- One more comes, and the first that waits is resumed. -/
theorem Served.resume (served : Served (party :: waiting) resumed count) (new : ¬resumed party)
    (same : ∀ other, resumed other → after other) (woke : after party) : Served waiting after (count + 1) := by
  rcases served with none | ⟨woken, nodup, all, enough⟩
  · cases none
  · refine .inr ⟨party :: woken, List.nodup_cons.mpr ⟨fun member => new (all party member), nodup⟩, fun other member => ?_, ?_⟩
    · rcases List.mem_cons.mp member with rfl | inside
      · exact woke
      · exact same other (all other inside)
    · rw [List.length_cons]
      omega

/-- A party that has been resumed goes on and takes one. -/
theorem Served.take [DecidableEq τ] (served : Served waiting resumed (count + 1))
    (same : ∀ other, other ≠ party → resumed other → after other) :
    Served waiting after count := by
  rcases served with none | ⟨woken, nodup, all, enough⟩
  · exact .inl none
  · refine .inr ⟨woken.erase party, nodup.erase party, fun other member => ?_, ?_⟩
    · obtain ⟨different, inside⟩ := nodup.mem_erase_iff.mp member
      exact same other different (all other inside)
    · have := List.le_length_erase (a := party) (l := woken)
      omega

/-- A list of exactly those who wait, each of them once. -/
structure Line (list : List τ) (waits resumed : τ → Prop) (count : Nat) : Prop where
  listed : ∀ party, party ∈ list ↔ waits party
  once : list.Nodup
  served : Served list resumed count

namespace Line

variable {list : List τ} {waits waitsNow : τ → Prop}

theorem nobody (none : ∀ party, ¬waits party) : Line [] waits resumed count :=
  ⟨fun party => ⟨fun member => absurd member List.not_mem_nil, fun is => absurd is (none party)⟩, List.nodup_nil, Served.nobody⟩

/-- The same wait. -/
theorem keep {fewer : Nat} (line : Line list waits resumed count) (same : ∀ party, waitsNow party ↔ waits party)
    (served : Served list after fewer) : Line list waitsNow after fewer :=
  ⟨fun party => (line.listed party).trans (same party).symm, line.once, served⟩

/-- A party finds nothing and waits. -/
theorem enter {entered : List τ} (line : Line list waits resumed 0) (out : ¬waits party)
    (moved : entered.Perm (party :: list)) (now : waitsNow party)
    (same : ∀ other, other ≠ party → (waitsNow other ↔ waits other)) : Line entered waitsNow after 0 := by
  have new : party ∉ list := fun member => out ((line.listed party).mp member)
  refine ⟨fun other => ?_, moved.nodup_iff.mpr (List.nodup_cons.mpr ⟨new, line.once⟩), .nothing⟩
  rw [moved.mem_iff, List.mem_cons]
  by_cases this : other = party
  · exact ⟨fun _ => this ▸ now, fun _ => .inl this⟩
  · rw [same other this, ← line.listed]
    exact ⟨fun member => member.resolve_left this, .inr⟩

/-- One more comes, and the first in the line goes on. -/
theorem resume (line : Line (party :: list) waits resumed count) (apart : ∀ other, waits other → ¬resumed other)
    (gone : ¬waitsNow party) (woke : after party) (same : ∀ other, other ≠ party → (waitsNow other ↔ waits other))
    (on : ∀ other, resumed other → after other) : Line list waitsNow after (count + 1) := by
  have first : waits party := (line.listed party).mp List.mem_cons_self
  obtain ⟨new, once⟩ := List.nodup_cons.mp line.once
  refine ⟨fun other => ?_, once, line.served.resume (apart party first) on woke⟩
  by_cases this : other = party
  · exact ⟨fun member => absurd (this ▸ member) new, fun is => absurd (this ▸ is) gone⟩
  · rw [same other this, ← line.listed, List.mem_cons]
    exact ⟨.inr, fun member => member.resolve_left this⟩

/-- Someone in the line gives up. -/
theorem leave [DecidableEq τ] (line : Line list waits resumed count) (gone : ¬waitsNow party)
    (same : ∀ other, other ≠ party → (waitsNow other ↔ waits other)) (on : ∀ other, resumed other → after other) :
    Line (list.erase party) waitsNow after count := by
  refine ⟨fun other => ?_, line.once.erase party, line.served.mono List.erase_sublist on (Nat.le_refl _)⟩
  rw [line.once.mem_erase_iff, line.listed]
  by_cases this : other = party
  · exact ⟨fun is => absurd this is.1, fun is => absurd (this ▸ is) gone⟩
  · rw [same other this]
    exact ⟨And.right, fun is => ⟨this, is⟩⟩

end Line

end Wakeups
