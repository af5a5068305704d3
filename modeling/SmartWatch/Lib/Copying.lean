/-! A text that is copied item by item while another party may replace it between
two items. What the copy is to become is a text that was there as a whole as long
as every replacement keeps the items already copied or the ones still to come. -/

namespace Copying

variable {α : Type u}

/-- `seen` are the texts that have been there since the copy began. -/
structure Copy (α : Type u) where
  text : List α
  copied : List α
  seen : List (List α)

namespace Copy

def start (text : List α) : Copy α := ⟨text, [], [text]⟩

def read (copy : Copy α) : Copy α := { copy with copied := copy.copied ++ copy.text[copy.copied.length]?.toList }

def write (copy : Copy α) (text : List α) : Copy α := { copy with text, seen := text :: copy.seen }

/-- The copy that comes of it when nothing is replaced any more. -/
def pending (copy : Copy α) : List α := copy.copied ++ copy.text.drop copy.copied.length

def Whole (copy : Copy α) : Prop := copy.pending ∈ copy.seen

/-- The new text begins with what has been copied, or goes on as the old one does. -/
def Seamless (copy : Copy α) (text : List α) : Prop :=
  text.take copy.copied.length = copy.copied ∨ text.drop copy.copied.length = copy.text.drop copy.copied.length

theorem start_whole (text : List α) : (start text).Whole := List.mem_singleton.mpr rfl

theorem read_pending (copy : Copy α) : copy.read.pending = copy.pending := by
  unfold pending read
  cases there : copy.text[copy.copied.length]? with
  | none => rw [Option.toList_none, List.append_nil]
  | some item =>
    obtain ⟨inside, same⟩ := List.getElem?_eq_some_iff.mp there
    rw [List.drop_eq_getElem_cons inside, same, Option.toList_some, List.length_append, List.append_assoc]
    rfl

theorem Whole.read {copy : Copy α} (whole : copy.Whole) : copy.read.Whole := by
  unfold Whole
  rw [read_pending]
  exact whole

theorem Whole.write {copy : Copy α} {text : List α} (whole : copy.Whole) (seamless : copy.Seamless text) :
    (copy.write text).Whole := by
  rcases seamless with first | rest
  · have same : (copy.write text).pending = text := by
      have parts := List.take_append_drop copy.copied.length text
      rwa [first] at parts
    exact List.mem_cons.mpr (.inl same)
  · have same : (copy.write text).pending = copy.pending := congrArg (copy.copied ++ ·) rest
    exact List.mem_cons_of_mem _ (same ▸ whole)

theorem Whole.complete {copy : Copy α} (whole : copy.Whole) (ended : copy.text.length ≤ copy.copied.length) :
    copy.copied ∈ copy.seen := by
  have same : copy.pending = copy.copied := by rw [pending, List.drop_eq_nil_of_le ended, List.append_nil]
  exact same ▸ whole

end Copy

end Copying
