import SmartWatch.Lib.Runs

/-! What a queue of messages between parties is for. A message is made from a source and
put last, or first when it is urgent; a party takes the first message and gets a copy of
what it took. The actions carry the messages, so that a list of them is a history. -/

namespace Inbox

/-- Which message may be made from a source, and which copy of a message may be handed over. -/
structure Format (α : Type u) (μ : Type v) (ρ : Type w) where
  fills : α → μ → Bool
  reads : μ → ρ → Bool

inductive Act (τ : Type t) (α : Type u) (μ : Type v) (ρ : Type w) where
  | put (urgent : Bool) (source : α) (message : μ)
  | take (party : τ) (message : μ)
  | deliver (party : τ) (copy : ρ)
  | clear
deriving DecidableEq, Repr

structure Box (τ : Type t) (μ : Type v) where
  queue : List μ := []
  hand : τ → Option μ := fun _ => none

variable {τ : Type t} {α : Type u} {μ : Type v} {ρ : Type w} [DecidableEq τ] [DecidableEq μ] {format : Format α μ ρ}

def step (format : Format α μ ρ) (box : Box τ μ) : Act τ α μ ρ → Option (Box τ μ)
  | .put urgent source message =>
    if format.fills source message then
      some { box with queue := if urgent then message :: box.queue else box.queue ++ [message] }
    else
      none
  | .take party message =>
    if box.queue.head? = some message then
      some { queue := box.queue.tail, hand := fun other => if other = party then some message else box.hand other }
    else
      none
  | .deliver party copy =>
    if (box.hand party).any (format.reads · copy) then
      some { box with hand := fun other => if other = party then none else box.hand other }
    else
      none
  | .clear => some { box with queue := [] }

/-- The messages put into the box, and those taken from it. -/
def putIn (acts : List (Act τ α μ ρ)) : List μ :=
  acts.filterMap fun act => match act with
    | .put _ _ message => some message
    | _ => none

def takenOut (acts : List (Act τ α μ ρ)) : List μ :=
  acts.filterMap fun act => match act with
    | .take _ message => some message
    | _ => none

/-- Neither an urgent message nor a clearing. -/
def ordinary : Act τ α μ ρ → Bool
  | .put urgent _ _ => !urgent
  | .clear => false
  | _ => true

private theorem step_in_order {box after : Box τ μ} {act : Act τ α μ ρ} (plain : ordinary act = true)
    (taken : step format box act = some after) : box.queue ++ putIn [act] = takenOut [act] ++ after.queue := by
  cases act with
  | put urgent source message =>
    simp only [step] at taken
    split at taken <;> cases taken
    simp only [ordinary, Bool.not_eq_true'] at plain
    simp [putIn, takenOut, plain]
  | take party message =>
    simp only [step] at taken
    split at taken <;> cases taken
    next first =>
      obtain ⟨rest, same⟩ := List.head?_eq_some_iff.mp first
      simp [putIn, takenOut, same]
  | deliver party copy =>
    simp only [step] at taken
    split at taken <;> cases taken
    simp [putIn, takenOut]
  | clear => cases plain

/-- What has been put in comes out in the same order, and what has not come out is in
the box: nothing is lost, doubled or made up. -/
theorem in_order {box final : Box τ μ} {acts : List (Act τ α μ ρ)} (plain : ∀ act ∈ acts, ordinary act = true)
    (reached : Runs.run (step format) box acts = some final) : box.queue ++ putIn acts = takenOut acts ++ final.queue := by
  induction acts generalizing box with
  | nil =>
    cases reached
    simp [putIn, takenOut]
  | cons act acts ih =>
    obtain ⟨next, taken, rest⟩ := Runs.run_cons reached
    have now := step_in_order (plain act List.mem_cons_self) taken
    have later := ih (fun other member => plain other (List.mem_cons_of_mem _ member)) rest
    have puts : putIn (act :: acts) = putIn [act] ++ putIn acts := List.filterMap_append (l := [act])
    have takes : takenOut (act :: acts) = takenOut [act] ++ takenOut acts := List.filterMap_append (l := [act])
    rw [puts, takes, ← List.append_assoc, now, List.append_assoc, later, List.append_assoc]

end Inbox
