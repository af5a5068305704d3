import SmartWatch.Scheduler
import SmartWatch.Lib.Bitmap
import Mathlib.Data.List.Nodup
import Mathlib.Data.Nat.Bitwise

/-! The ready queue of `scheduler.c`: the table of ready threads and its bits agree,
and the lowest bit stands for the best priority. -/

namespace SmartWatch.Proofs.ReadyQueue
open Bitmap

section Ffs

private theorem lowest_of_byte : ∀ byte : Fin 256, byte.val ≠ 0 → lowestBitBitmap.getD byte.val 0 < 8 ∧
    byte.val.testBit (lowestBitBitmap.getD byte.val 0) = true ∧
    ∀ lower : Fin 8, lower.val < lowestBitBitmap.getD byte.val 0 → byte.val.testBit lower.val = false := by
  decide +kernel

private theorem mask_bits (bit : Nat) : (0xff#32).getLsbD bit = decide (bit < 8) := by
  rw [BitVec.getLsbD_ofNat, show 255 = 2 ^ 8 - 1 from rfl, Nat.testBit_two_pow_sub_one]
  rcases Nat.lt_or_ge bit 8 with less | more
  · simp [less, show bit < 32 by omega]
  · simp [Nat.not_lt.mpr more]

/-- The byte that a mask and a shift cut out. -/
def byteAt (value : BitVec 32) (shift : Nat) : Nat := ((value &&& 0xff#32 <<< shift) >>> shift).toNat

private theorem byte_bits (value : BitVec 32) (shift bit : Nat) :
    (byteAt value shift).testBit bit = (decide (bit < 8) && value.getLsbD (shift + bit)) := by
  rw [byteAt, BitVec.testBit_toNat, BitVec.getLsbD_ushiftRight, BitVec.getLsbD_and, BitVec.getLsbD_shiftLeft,
    show shift + bit - shift = bit by omega, mask_bits]
  rcases Nat.lt_or_ge (shift + bit) 32 with inside | outside
  · rw [Bool.and_comm]
    simp [inside, show ¬shift + bit < shift by omega]
  · rw [BitVec.getLsbD_of_ge value _ outside]
    simp

private theorem byte_lt (value : BitVec 32) (shift : Nat) : byteAt value shift < 256 := by
  refine Nat.lt_of_not_le fun more => ?_
  obtain ⟨bit, high, set⟩ := Nat.exists_ge_and_testBit_of_ge_two_pow (show 2 ^ 8 ≤ byteAt value shift from more)
  rw [byte_bits, decide_eq_false (Nat.not_lt.mpr high)] at set
  cases set

private theorem mask_zero (value : BitVec 32) (shift : Nat) :
    value &&& 0xff#32 <<< shift = 0#32 ↔ ∀ bit, bit < 8 → value.getLsbD (shift + bit) = false := by
  constructor
  · intro zero bit less
    have := byte_bits value shift bit
    rw [byteAt, zero, decide_eq_true less, Bool.true_and] at this
    rw [← this]
    simp
  · intro none
    apply BitVec.eq_of_getLsbD_eq
    intro bit inside
    rw [BitVec.getLsbD_and, BitVec.getLsbD_shiftLeft, mask_bits, BitVec.getLsbD_zero]
    by_cases within : shift ≤ bit ∧ bit - shift < 8
    · have := none (bit - shift) within.2
      rw [show shift + (bit - shift) = bit by omega] at this
      rw [this, Bool.false_and]
    · rcases not_and_or.mp within with low | high
      · simp [show bit < shift by omega]
      · simp [high]

/-- When the bits below a byte are clear, its lowest bit is that of the value. -/
private theorem lowest_in_byte (value : BitVec 32) (shift : Nat)
    (below : ∀ lower, lower < shift → value.getLsbD lower = false) (some : value &&& 0xff#32 <<< shift ≠ 0#32) :
    Lowest value (lowestBitBitmap.getD (byteAt value shift) 0 + shift) := by
  have nonzero : byteAt value shift ≠ 0 := fun zero => some ((mask_zero value shift).mpr fun bit less => by
    have := byte_bits value shift bit
    rw [zero, decide_eq_true less, Bool.true_and, Nat.zero_testBit] at this
    exact this.symm)
  obtain ⟨small, set, lowest⟩ := lowest_of_byte ⟨byteAt value shift, byte_lt value shift⟩ nonzero
  dsimp only at small set lowest
  refine ⟨?_, fun lower less => ?_⟩
  · rw [byte_bits, decide_eq_true small, Bool.true_and] at set
    rw [Nat.add_comm]
    exact set
  · rcases Nat.lt_or_ge lower shift with out | inside
    · exact below lower out
    · have clear := lowest ⟨lower - shift, by omega⟩ (by dsimp only; omega)
      rw [byte_bits, decide_eq_true (show lower - shift < 8 by omega), Bool.true_and,
        show shift + (lower - shift) = lower by omega] at clear
      exact clear

private theorem rtFfs_eq (value : BitVec 32) : rtFfs value =
    if value = 0#32 then 0
    else if value &&& 0xff#32 <<< 0 ≠ 0#32 then lowestBitBitmap.getD (byteAt value 0) 0 + 0 + 1
    else if value &&& 0xff#32 <<< 8 ≠ 0#32 then lowestBitBitmap.getD (byteAt value 8) 0 + 8 + 1
    else if value &&& 0xff#32 <<< 16 ≠ 0#32 then lowestBitBitmap.getD (byteAt value 16) 0 + 16 + 1
    else lowestBitBitmap.getD (byteAt value 24) 0 + 24 + 1 := by
  have first : byteAt value 0 = (value &&& 0xff#32).toNat := by simp [byteAt]
  rw [first]
  rfl

/-- `__rt_ffs` is one more than the number of the lowest bit that is set. -/
theorem rtFfs_spec (value : BitVec 32) (nonzero : value ≠ 0#32) :
    Lowest value (rtFfs value - 1) ∧ 0 < rtFfs value := by
  have low (shift : Nat) (zero : value &&& 0xff#32 <<< shift = 0#32)
      (below : ∀ lower, lower < shift → value.getLsbD lower = false) :
      ∀ lower, lower < shift + 8 → value.getLsbD lower = false := by
    intro lower less
    rcases Nat.lt_or_ge lower shift with out | inside
    · exact below lower out
    · have := (mask_zero value shift).mp zero (lower - shift) (by omega)
      rwa [show shift + (lower - shift) = lower by omega] at this
  have none : ∀ lower, lower < 0 → value.getLsbD lower = false := fun _ less => absurd less (Nat.not_lt_zero _)
  rw [rtFfs_eq, if_neg nonzero]
  by_cases first : value &&& 0xff#32 <<< 0 = 0#32
  · have one := low 0 first none
    rw [if_neg (not_not_intro first)]
    by_cases second : value &&& 0xff#32 <<< 8 = 0#32
    · have two := low 8 second one
      rw [if_neg (not_not_intro second)]
      by_cases third : value &&& 0xff#32 <<< 16 = 0#32
      · have three := low 16 third two
        rw [if_neg (not_not_intro third)]
        refine ⟨lowest_in_byte value 24 three fun fourth => nonzero ?_, Nat.succ_pos _⟩
        apply BitVec.eq_of_getLsbD_eq
        intro bit inside
        rw [low 24 fourth three bit inside, BitVec.getLsbD_zero]
      · rw [if_pos third]
        exact ⟨lowest_in_byte value 16 two third, Nat.succ_pos _⟩
    · rw [if_pos second]
      exact ⟨lowest_in_byte value 8 one second, Nat.succ_pos _⟩
  · rw [if_pos first]
    exact ⟨lowest_in_byte value 0 none first, Nat.succ_pos _⟩

end Ffs

section Lists
variable {τ ι : Type} [DecidableEq τ]

/-- The list nodes of the threads that are not on the move agree with their states. -/
structure Linked (moves : τ → Prop) (s : Scheduler τ ι) : Prop where
  listed : ∀ thread priority, thread ∈ s.table priority ↔
    ¬moves thread ∧ (s.thread thread).stat = .ready ∧ (s.thread thread).currentPriority = priority
  nodup : ∀ priority, (s.table priority).Nodup
  summary : Summarises s.group s.table
  mask : ∀ thread, (s.thread thread).stat ≠ .init → (s.thread thread).currentPriority < 32 ∧
    (s.thread thread).numberMask = 1#32 <<< (s.thread thread).currentPriority
  base : ∀ thread, (s.thread thread).initPriority < 32
  waits : ∀ object thread, thread ∈ s.waiting object → ¬moves thread ∧ (s.thread thread).stat = .suspend
  once : ∀ object, (s.waiting object).Nodup
  apart : ∀ one two thread, thread ∈ s.waiting one → thread ∈ s.waiting two → one = two
  dead : ∀ thread ∈ s.defunct, ¬moves thread ∧ (s.thread thread).stat = .close
  buried : s.defunct.Nodup

def settled : τ → Prop := fun _ => False

/-- Only the current thread runs, and it is not in the ready queue. -/
structure Sound (s : Scheduler τ ι) : Prop where
  linked : Linked settled s
  running : ∀ thread, (s.thread thread).stat = .running → s.current = some thread
  current : ∀ thread, s.current = some thread → (s.thread thread).stat ≠ .ready ∧ (s.thread thread).stat ≠ .init

variable {s : Scheduler τ ι} {moves : τ → Prop} {thread : τ}

/-- A change of a thread that leaves its status and its priority as they are. -/
def Keeps (change : ThreadState → ThreadState) : Prop :=
  ∀ t, (change t).stat = t.stat ∧ (change t).currentPriority = t.currentPriority ∧ (change t).numberMask = t.numberMask ∧
    (change t).initPriority = t.initPriority

theorem Keeps.same {change : ThreadState → ThreadState} (keeps : Keeps change) (s : Scheduler τ ι)
    (thread other : τ) :
    ((s.update thread change).thread other).stat = (s.thread other).stat ∧
      ((s.update thread change).thread other).currentPriority = (s.thread other).currentPriority ∧
      ((s.update thread change).thread other).numberMask = (s.thread other).numberMask ∧
      ((s.update thread change).thread other).initPriority = (s.thread other).initPriority := by
  simp only [Scheduler.update_thread]
  split
  · exact keeps _
  · exact ⟨rfl, rfl, rfl, rfl⟩

theorem Sound.keeps (sound : Sound s) {change : ThreadState → ThreadState} (keeps : Keeps change) (thread : τ) :
    Sound (s.update thread change) := by
  obtain ⟨⟨listed, nodup, summary, mask, base, waits, once, apart, dead, buried⟩, running, current⟩ := sound
  have same := keeps.same s thread
  refine ⟨⟨fun other priority => ?_, nodup, summary, fun other => ?_, fun other => ?_, fun object other member => ?_, once,
    apart, fun other member => ?_, buried⟩, fun other => ?_, fun other => ?_⟩
  all_goals obtain ⟨stat, priority, number, init⟩ := same other
  · rw [stat, priority]; exact listed other _
  · rw [stat, priority, number]; exact mask other
  · rw [init]; exact base other
  · rw [stat]; exact waits object other member
  · rw [stat]; exact dead other member
  · rw [stat]; exact running other
  · rw [stat]; exact current other

/-- A thread that moves may be changed in any way that leaves its priorities in order. -/
theorem Linked.update (linked : Linked (· = thread) s) (change : ThreadState → ThreadState)
    (mask : (change (s.thread thread)).stat ≠ .init → (change (s.thread thread)).currentPriority < 32 ∧
      (change (s.thread thread)).numberMask = 1#32 <<< (change (s.thread thread)).currentPriority)
    (base : (change (s.thread thread)).initPriority < 32) : Linked (· = thread) (s.update thread change) := by
  refine ⟨fun other priority => ?_, linked.nodup, linked.summary, fun other => ?_, fun other => ?_,
    fun object other member => ?_, linked.once, linked.apart, fun other member => ?_, linked.buried⟩
  · have listed := linked.listed other priority
    by_cases same : other = thread
    · simpa [same] using listed
    · simpa [same] using listed
  · by_cases same : other = thread
    · subst same; simpa using mask
    · simpa [same] using linked.mask other
  · by_cases same : other = thread
    · subst same; simpa using base
    · simpa [same] using linked.base other
  · have waits := linked.waits object other member
    simpa [waits.1] using waits
  · have dead := linked.dead other member
    simpa [dead.1] using dead

omit [DecidableEq τ] in
theorem Linked.congr {after : Scheduler τ ι} (linked : Linked moves s) (thread : after.thread = s.thread)
    (table : after.table = s.table) (group : after.group = s.group) (waiting : after.waiting = s.waiting)
    (defunct : after.defunct = s.defunct) : Linked moves after := by
  obtain ⟨listed, nodup, summary, mask, base, waits, once, apart, dead, buried⟩ := linked
  rw [← thread] at listed mask base waits dead
  rw [← table] at listed nodup summary
  rw [← group] at summary
  rw [← waiting] at waits once apart
  rw [← defunct] at dead buried
  exact ⟨listed, nodup, summary, mask, base, waits, once, apart, dead, buried⟩

omit [DecidableEq τ] in
/-- The thread has stopped moving outside all lists. -/
theorem Linked.settle (linked : Linked (· = thread) s) (out : (s.thread thread).stat ≠ .ready) :
    Linked settled s := by
  obtain ⟨listed, nodup, summary, mask, base, waits, once, apart, dead, buried⟩ := linked
  refine ⟨fun other priority => ?_, nodup, summary, mask, base, fun object other member => ⟨not_false, (waits object other member).2⟩,
    once, apart, fun other member => ⟨not_false, (dead other member).2⟩, buried⟩
  rw [listed other priority]
  constructor
  · exact fun ⟨_, is⟩ => ⟨not_false, is⟩
  · exact fun ⟨_, is⟩ => ⟨fun same => out (same ▸ is.1), is⟩

omit [DecidableEq τ] in
/-- A thread that is in no list may start to move. -/
theorem Linked.free (linked : Linked settled s) (out : ∀ priority, thread ∉ s.table priority)
    (free : ∀ object, thread ∉ s.waiting object) (alive : thread ∉ s.defunct) : Linked (· = thread) s := by
  obtain ⟨listed, nodup, summary, mask, base, waits, once, apart, dead, buried⟩ := linked
  refine ⟨fun other priority => ?_, nodup, summary, mask, base, fun object other member => ⟨?_, (waits object other member).2⟩,
    once, apart, fun other member => ⟨?_, (dead other member).2⟩, buried⟩
  · rw [listed other priority]
    constructor
    · exact fun ⟨_, is⟩ => ⟨fun same => out priority ((listed thread priority).mpr (same ▸ ⟨not_false, is⟩)), is⟩
    · exact fun ⟨_, is⟩ => ⟨not_false, is⟩
  · exact fun same => free object (same ▸ member)
  · exact fun same => alive (same ▸ member)

theorem Linked.unlink (linked : Linked settled s) (thread : τ) {group : BitVec 32}
    (summary : Summarises group fun priority => (s.table priority).erase thread) :
    Linked (· = thread) { s.unlink thread with group } := by
  obtain ⟨listed, nodup, _, mask, base, waits, once, apart, dead, buried⟩ := linked
  refine ⟨fun other priority => ?_, fun priority => (nodup priority).erase thread, summary, mask, base,
    fun object other member => ?_, fun object => (once object).erase thread, fun one two other first second => ?_,
    fun other member => ?_, buried.erase thread⟩
  · change other ∈ (s.table priority).erase thread ↔ _
    rw [(nodup priority).mem_erase_iff, listed other priority]
    exact and_congr_right fun _ => ⟨And.right, fun is => ⟨not_false, is⟩⟩
  · obtain ⟨different, inside⟩ := (once object).mem_erase_iff.mp member
    exact ⟨different, (waits object other inside).2⟩
  · exact apart one two other (List.mem_of_mem_erase first) (List.mem_of_mem_erase second)
  · obtain ⟨different, inside⟩ := buried.mem_erase_iff.mp member
    exact ⟨different, (dead other inside).2⟩

theorem Linked.table_erase (linked : Linked settled s) {priority : Nat}
    (other : ¬((s.thread thread).stat = .ready ∧ (s.thread thread).currentPriority = priority)) :
    (s.table priority).erase thread = s.table priority :=
  List.erase_of_not_mem fun member => other ((linked.listed thread priority).mp member).2

theorem Linked.remove (linked : Linked settled s) (started : (s.thread thread).stat ≠ .init) :
    Linked (· = thread) (s.rtScheduleRemoveThread thread) := by
  have summary :=
    linked.summary.drop (s.thread thread).currentPriority (fun priority => (s.table priority).erase thread)
    (fun other different => linked.table_erase fun is => different is.2.symm) fun full empty => full (by simp [empty])
  have moved := linked.unlink thread summary
  unfold Scheduler.rtScheduleRemoveThread
  dsimp only
  simp only [Scheduler.unlink_thread, (linked.mask thread started).2]
  split
  next empty =>
    rw [if_pos (show (s.table (s.thread thread).currentPriority).erase thread = [] from empty)] at moved
    exact moved
  next full =>
    rw [if_neg (show ¬(s.table (s.thread thread).currentPriority).erase thread = [] from full)] at moved
    exact moved

theorem Linked.unlink_waiting (linked : Linked settled s) (idle : (s.thread thread).stat ≠ .ready) :
    Linked (· = thread) (s.unlink thread) := by
  refine linked.unlink thread ?_
  rw [funext fun priority => linked.table_erase fun is => idle is.1]
  exact linked.summary

theorem Linked.insert (linked : Linked (· = thread) s) (away : s.current ≠ some thread)
    (small : (s.thread thread).currentPriority < 32)
    (mask : (s.thread thread).numberMask = 1#32 <<< (s.thread thread).currentPriority) :
    Linked settled (s.rtScheduleInsertThread thread) := by
  unfold Scheduler.rtScheduleInsertThread
  rw [if_neg away]
  have ready := linked.update (fun t => { t with stat := .ready }) (fun _ => ⟨small, mask⟩) (linked.base thread)
  have out : ∀ priority, thread ∉ s.table priority :=
    fun priority member => ((linked.listed thread priority).mp member).1 rfl
  refine ⟨fun other priority => ?_, fun priority => ?_, ?_, ready.mask, ready.base,
    fun object other member => ⟨not_false, (ready.waits object other member).2⟩, ready.once, ready.apart,
    fun other member => ⟨not_false, (ready.dead other member).2⟩, ready.buried⟩
  · have listed := linked.listed other priority
    by_cases same : other = thread
    · subst same
      by_cases own : priority = (s.thread other).currentPriority
      · simp [own, settled]
      · simp [own, settled, out, Ne.symm own]
    · by_cases own : priority = (s.thread thread).currentPriority
      · subst own
        simpa [settled, same] using listed
      · simpa [settled, same, own] using listed
  · dsimp only
    split
    · refine List.nodup_append.mpr ⟨linked.nodup priority, List.nodup_singleton _, fun other inside item single => ?_⟩
      rw [List.mem_singleton.mp single]
      exact fun same => out priority (same ▸ inside)
    · exact linked.nodup priority
  · simp only [Scheduler.update_thread, ite_true, Scheduler.update_table, Scheduler.update_group, mask]
    exact linked.summary.push _ thread

/-- The rest of `Sound`, for all threads but one. -/
structure Elsewhere (thread : τ) (s : Scheduler τ ι) : Prop where
  running : ∀ other, other ≠ thread → (s.thread other).stat = .running → s.current = some other
  current : ∀ other, other ≠ thread → s.current = some other → (s.thread other).stat ≠ .ready ∧ (s.thread other).stat ≠ .init

omit [DecidableEq τ] in
theorem Sound.elsewhere (sound : Sound s) (thread : τ) : Elsewhere thread s :=
  ⟨fun other _ => sound.running other, fun other _ => sound.current other⟩

omit [DecidableEq τ] in
theorem Elsewhere.same {after : Scheduler τ ι} (elsewhere : Elsewhere thread s) (current : after.current = s.current)
    (fields : ∀ other, other ≠ thread → after.thread other = s.thread other) : Elsewhere thread after := by
  refine ⟨fun other different is => ?_, fun other different is => ?_⟩
  · rw [fields other different] at is
    rw [current]
    exact elsewhere.running other different is
  · rw [current] at is
    rw [fields other different]
    exact elsewhere.current other different is

/-- A thread that has been taken out of its list is put away with another status. -/
theorem Linked.put (linked : Linked (· = thread) s) (elsewhere : Elsewhere thread s)
    (change : ThreadState → ThreadState) (mask : (change (s.thread thread)).currentPriority < 32 ∧
      (change (s.thread thread)).numberMask = 1#32 <<< (change (s.thread thread)).currentPriority)
    (base : (change (s.thread thread)).initPriority < 32)
    (stat : (change (s.thread thread)).stat = .suspend ∨ (change (s.thread thread)).stat = .close) :
    Sound (s.update thread change) := by
  refine ⟨(linked.update change (fun _ => mask) base).settle ?_, fun other is => ?_, fun other is => ?_⟩
  · rcases stat with is | is <;> simp [is]
  · by_cases same : other = thread
    · subst same
      rcases stat with suspended | closed <;> simp_all
    · exact elsewhere.running other same (by simpa [same] using is)
  · by_cases same : other = thread
    · subst same
      rcases stat with suspended | closed <;> simp_all
    · simpa [same] using elsewhere.current other same is

theorem Sound.insert (linked : Linked (· = thread) s) (elsewhere : Elsewhere thread s)
    (small : (s.thread thread).currentPriority < 32)
    (mask : (s.thread thread).numberMask = 1#32 <<< (s.thread thread).currentPriority) :
    Sound (s.rtScheduleInsertThread thread) := by
  by_cases now : s.current = some thread
  · have running := (linked.update (fun t => { t with stat := .running }) (fun _ => ⟨small, mask⟩)
      (linked.base thread)).settle (by simp)
    unfold Scheduler.rtScheduleInsertThread
    rw [if_pos now]
    refine ⟨running, fun other => ?_, fun other => ?_⟩
    · by_cases same : other = thread
      · exact fun _ => same ▸ now
      · simpa [same] using elsewhere.running other same
    · by_cases same : other = thread
      · simp [same]
      · simpa [same] using elsewhere.current other same
  · refine ⟨linked.insert now small mask, fun other => ?_, fun other => ?_⟩
    · unfold Scheduler.rtScheduleInsertThread
      rw [if_neg now]
      by_cases same : other = thread
      · simp [same]
      · simpa [same] using elsewhere.running other same
    · unfold Scheduler.rtScheduleInsertThread
      rw [if_neg now]
      by_cases same : other = thread
      · exact fun is => absurd (same ▸ is) now
      · simpa [same] using elsewhere.current other same

end Lists

section Schedule
variable {τ ι : Type} [DecidableEq τ] {s : Scheduler τ ι} {thread : τ}

/-- `rt_schedule` clears the flag of a thread that is running. -/
def clearYield (t : ThreadState) : ThreadState := if t.stat = .running then { t with yield := false } else t

theorem clearYield_keeps : Keeps clearYield := by
  intro t
  unfold clearYield
  split <;> exact ⟨rfl, rfl, rfl, rfl⟩

/-- The first of the ready threads with the best priority. -/
structure Best (s : Scheduler τ ι) (head : τ) (rest : List τ) (highest : Nat) : Prop where
  table : s.table highest = head :: rest
  chosen : s.getHighestPriorityThread = (some head, highest)
  least : ∀ thread, (s.thread thread).stat = .ready → highest ≤ (s.thread thread).currentPriority

omit [DecidableEq τ] in
theorem Linked.best (linked : Linked settled s) (some_ready : s.group ≠ 0) :
    ∃ head rest highest, Best s head rest highest := by
  obtain ⟨lowest, _⟩ := rtFfs_spec s.group some_ready
  have full := (linked.summary _ lowest.lt).mp lowest.set
  obtain ⟨head, rest, table⟩ := List.exists_cons_of_ne_nil full
  refine ⟨head, rest, rtFfs s.group - 1, table, by simp [Scheduler.getHighestPriorityThread, table], fun thread ready => ?_⟩
  refine Nat.le_of_not_lt fun less => ?_
  have inside : thread ∈ s.table (s.thread thread).currentPriority := (linked.listed _ _).mpr ⟨not_false, ready, rfl⟩
  have set := (linked.summary _ (linked.mask thread (by rw [ready]; exact nofun)).1).mpr (List.ne_nil_of_mem inside)
  rw [lowest.below _ less] at set
  cases set

omit [DecidableEq τ] in
theorem Best.ready {head : τ} {rest : List τ} {highest : Nat} (best : Best s head rest highest)
    (linked : Linked settled s) :
    (s.thread head).stat = .ready ∧ (s.thread head).currentPriority = highest :=
  ((linked.listed head highest).mp (best.table ▸ List.mem_cons_self)).2

/-- The running thread stays ahead of the ready ones. -/
def Stays (current : ThreadState) (highest : Nat) : Prop :=
  current.stat = .running ∧ (current.currentPriority < highest ∨ current.currentPriority = highest ∧ current.yield = false)

/-- The thread `fromThread` is no longer the current one, and ready if it can go on. -/
def putBack (s : Scheduler τ ι) (fromThread toThread : τ) : Scheduler τ ι :=
  let insert := decide ((s.thread fromThread).stat = .running)
  let s := { s.update fromThread clearYield with current := some toThread, switches := s.switches ++ [toThread] }
  if insert then s.rtScheduleInsertThread fromThread else s

/-- The thread `fromThread` gives the processor to the first ready one. -/
def switched (s : Scheduler τ ι) (fromThread toThread : τ) : Scheduler τ ι :=
  ((putBack s fromThread toThread).rtScheduleRemoveThread toThread).update toThread fun t => { t with stat := .running }

def kept (s : Scheduler τ ι) (fromThread : τ) : Scheduler τ ι :=
  ((s.update fromThread clearYield).rtScheduleRemoveThread fromThread).update fromThread fun t => { t with stat := .running }

theorem keepsRunning_stays {t : ThreadState} {highest : Nat} (stays : Stays t highest) :
    Scheduler.keepsRunning t highest = (true, false) := by
  obtain ⟨runs, ahead | even⟩ := stays
  · rw [Scheduler.keepsRunning, if_pos runs, if_pos ahead]
  · rw [Scheduler.keepsRunning, if_pos runs, if_neg (by omega), if_pos even]

theorem keepsRunning_gives {t : ThreadState} {highest : Nat} (gives : ¬Stays t highest) :
    Scheduler.keepsRunning t highest = (false, decide (t.stat = .running)) := by
  by_cases runs : t.stat = .running
  · rw [Scheduler.keepsRunning, if_pos runs, if_neg fun ahead => gives ⟨runs, .inl ahead⟩,
      if_neg fun even => gives ⟨runs, .inr even⟩, decide_eq_true runs]
  · rw [Scheduler.keepsRunning, if_neg runs, decide_eq_false runs]

/-- Everything `rt_schedule` can do. -/
theorem rtSchedule_cases (sound : Sound s) :
    (s.rtSchedule = s ∧ (s.lockNest ≠ 0 ∨ s.current = none ∨ ∀ thread, (s.thread thread).stat ≠ .ready)) ∨
    ∃ fromThread head rest highest, s.lockNest = 0 ∧ s.current = some fromThread ∧ Best s head rest highest ∧
      ((Stays (s.thread fromThread) highest ∧ s.rtSchedule = kept s fromThread) ∨
        (¬Stays (s.thread fromThread) highest ∧ s.rtSchedule = switched s fromThread head)) := by
  by_cases unlocked : s.lockNest = 0
  · by_cases empty : s.group = 0
    · refine .inl ⟨?_, .inr (.inr fun thread ready => ?_)⟩
      · unfold Scheduler.rtSchedule
        rw [if_neg fun is => is.2 empty]
      · have inside : thread ∈ s.table (s.thread thread).currentPriority :=
          (sound.linked.listed _ _).mpr ⟨not_false, ready, rfl⟩
        have small := (sound.linked.mask thread (by rw [ready]; exact nofun)).1
        exact sound.linked.summary.ne_zero small (List.ne_nil_of_mem inside) empty
    · obtain ⟨head, rest, highest, best⟩ := sound.linked.best empty
      cases current : s.current with
      | none =>
        refine .inl ⟨?_, .inr (.inl rfl)⟩
        unfold Scheduler.rtSchedule
        rw [if_pos ⟨unlocked, empty⟩, best.chosen, current]
      | some fromThread =>
        refine .inr ⟨fromThread, head, rest, highest, unlocked, rfl, best, ?_⟩
        have different : head ≠ fromThread := fun same =>
          (sound.current fromThread current).1 (same ▸ (best.ready sound.linked).1)
        unfold Scheduler.rtSchedule
        rw [if_pos ⟨unlocked, empty⟩, best.chosen, current]
        dsimp only
        by_cases stays : Stays (s.thread fromThread) highest
        · refine .inl ⟨stays, ?_⟩
          rw [keepsRunning_stays stays]
          exact if_neg (not_not_intro rfl)
        · refine .inr ⟨stays, ?_⟩
          rw [keepsRunning_gives stays]
          exact if_pos different
  · refine .inl ⟨?_, .inl unlocked⟩
    unfold Scheduler.rtSchedule
    rw [if_neg fun is => unlocked is.1]

theorem kept_spec (sound : Sound s) (current : s.current = some thread) (runs : (s.thread thread).stat = .running) :
    Sound (kept s thread) ∧ (kept s thread).current = some thread ∧ (kept s thread).lockNest = s.lockNest ∧
      ∀ other, ((kept s thread).thread other).stat = (s.thread other).stat ∧
        ((kept s thread).thread other).currentPriority = (s.thread other).currentPriority := by
  have quiet := sound.keeps clearYield_keeps thread
  have same := fun other => clearYield_keeps.same s thread other
  have started : ((s.update thread clearYield).thread thread).stat = .running := (same thread).1.trans runs
  have fields : ∀ other, ((kept s thread).thread other).stat = (s.thread other).stat ∧
      ((kept s thread).thread other).currentPriority = (s.thread other).currentPriority := by
    intro other
    unfold kept
    rw [Scheduler.update_thread, Scheduler.remove_thread]
    split
    next is => subst is; exact ⟨runs.symm, (same other).2.1⟩
    next => exact ⟨(same other).1, (same other).2.1⟩
  refine ⟨⟨?_, fun other is => ?_, fun other is => ?_⟩, ?_, ?_, fields⟩
  · have begun : ((s.update thread clearYield).thread thread).stat ≠ .init := by rw [started]; exact nofun
    have removed := quiet.linked.remove begun
    have mask := quiet.linked.mask thread (by rw [started]; exact nofun)
    refine (removed.update (fun t => { t with stat := .running }) (fun _ => ?_) ?_).settle ?_
    · rw [Scheduler.remove_thread]; exact mask
    · rw [Scheduler.remove_thread]; exact quiet.linked.base thread
    · simp
  · rw [(fields other).1] at is
    simpa [kept] using sound.running other is
  · rw [(fields other).1]
    exact sound.current other (by simpa [kept] using is)
  · simpa [kept] using current
  · simp [kept]

private theorem insert_fields (s : Scheduler τ ι) (thread other : τ) (away : s.current ≠ some thread) :
    (s.rtScheduleInsertThread thread).current = s.current ∧ (s.rtScheduleInsertThread thread).lockNest = s.lockNest ∧
      (s.rtScheduleInsertThread thread).waiting = s.waiting ∧ (s.rtScheduleInsertThread thread).defunct = s.defunct ∧
      (s.rtScheduleInsertThread thread).thread other =
        if other = thread then { s.thread other with stat := .ready } else s.thread other := by
  unfold Scheduler.rtScheduleInsertThread
  rw [if_neg away]
  exact ⟨rfl, rfl, rfl, rfl, rfl⟩

/-- A thread that leaves the processor while it runs is ready again. -/
def leaving (t : ThreadState) : ThreadState :=
  if t.stat = .running then { t with stat := .ready, yield := false } else t

theorem putBack_spec (sound : Sound s) {head : τ} (current : s.current = some thread) (different : head ≠ thread) :
    Linked settled (putBack s thread head) ∧ (putBack s thread head).current = some head ∧
      (putBack s thread head).lockNest = s.lockNest ∧
      (∀ other, (putBack s thread head).thread other =
        if other = thread then leaving (s.thread thread) else s.thread other) ∧
      ∀ priority, (putBack s thread head).table priority =
        if (s.thread thread).stat = .running ∧ priority = (s.thread thread).currentPriority then
          s.table priority ++ [thread]
        else s.table priority := by
  have quiet := (sound.keeps clearYield_keeps thread).linked
  have stat := (clearYield_keeps.same s thread thread).1
  have away : ({ s.update thread clearYield with current := some head, switches := s.switches ++ [head] } : Scheduler τ ι).current ≠ some thread :=
    fun equal => different (Option.some.inj equal)
  by_cases runs : (s.thread thread).stat = .running
  · have eq : putBack s thread head =
        Scheduler.rtScheduleInsertThread { s.update thread clearYield with current := some head, switches := s.switches ++ [head] } thread := by
      unfold putBack
      rw [decide_eq_true runs]
      rfl
    rw [eq]
    obtain ⟨small, number⟩ := quiet.mask thread (by rw [stat, runs]; exact nofun)
    have out : Linked (· = thread) { s.update thread clearYield with current := some head, switches := s.switches ++ [head] } := by
      have free : Linked (· = thread) (s.update thread clearYield) :=
        quiet.free (fun priority member => ?_) (fun object member => ?_) fun member => ?_
      · exact free.congr rfl rfl rfl rfl rfl
      · have := ((quiet.listed thread priority).mp member).2.1
        rw [stat, runs] at this
        cases this
      · have := (quiet.waits object thread member).2
        rw [stat, runs] at this
        cases this
      · have := (quiet.dead thread member).2
        rw [stat, runs] at this
        cases this
    have fields := fun other => insert_fields { s.update thread clearYield with current := some head, switches := s.switches ++ [head] } thread other away
    refine ⟨out.insert away small number, (fields thread).1, (fields thread).2.1, fun other => ?_, fun priority => ?_⟩
    · rw [(fields other).2.2.2.2]
      by_cases is : other = thread
      · subst is
        simp [leaving, clearYield, runs]
      · simp [is]
    · unfold Scheduler.rtScheduleInsertThread
      rw [if_neg away]
      simp [(clearYield_keeps (s.thread thread)).2.1, runs]
  · have eq : putBack s thread head = { s.update thread clearYield with current := some head, switches := s.switches ++ [head] } := by
      unfold putBack
      rw [decide_eq_false runs]
      rfl
    rw [eq]
    refine ⟨quiet.congr rfl rfl rfl rfl rfl, rfl, rfl, fun other => ?_, fun priority => ?_⟩
    · simp only [Scheduler.update_thread]
      split
      next is => subst is; simp [leaving, clearYield, runs]
      next => rfl
    · rw [if_neg fun is => runs is.1]
      rfl

/-- The first ready thread gets the processor; the one that had it goes to the end of
the queue of its priority, if it can go on. -/
theorem switched_spec (sound : Sound s) {head : τ} {rest : List τ} {highest : Nat} (current : s.current = some thread)
    (best : Best s head rest highest) :
    Sound (switched s thread head) ∧ (switched s thread head).current = some head ∧
      (switched s thread head).lockNest = s.lockNest ∧
      (∀ other, (switched s thread head).thread other =
        if other = head then { s.thread head with stat := .running }
        else if other = thread then leaving (s.thread thread) else s.thread other) ∧
      ∀ priority, (switched s thread head).table priority =
        (if (s.thread thread).stat = .running ∧ priority = (s.thread thread).currentPriority then
          s.table priority ++ [thread]
          else s.table priority).erase head := by
  obtain ⟨ready, priority⟩ := best.ready sound.linked
  have different : head ≠ thread := fun same => (sound.current thread current).1 (same ▸ ready)
  obtain ⟨linked, now, nest, fields, table⟩ := putBack_spec sound current different
  have own : (putBack s thread head).thread head = s.thread head := by rw [fields, if_neg different]
  have all : ∀ other, (switched s thread head).thread other =
      if other = head then { s.thread head with stat := .running }
      else if other = thread then leaving (s.thread thread) else s.thread other := by
    intro other
    unfold switched
    rw [Scheduler.update_thread, Scheduler.remove_thread]
    split
    next is => subst is; rw [own]
    next => exact fields other
  have started : ((putBack s thread head).thread head).stat ≠ .init := by rw [own, ready]; exact nofun
  refine ⟨⟨?_, fun other is => ?_, fun other is => ?_⟩, ?_, ?_, all, fun priority => ?_⟩
  · have removed := linked.remove started
    refine (removed.update (fun t => { t with stat := .running }) (fun _ => ?_) ?_).settle ?_
    · rw [Scheduler.remove_thread]; exact linked.mask head started
    · rw [Scheduler.remove_thread]; exact linked.base head
    · simp
  · rw [all other] at is
    split at is
    next same => rw [same]; simpa [switched] using now
    next =>
      split at is
      next => unfold leaving at is; split at is <;> simp_all
      next out => exact absurd (Option.some.inj (current.symm.trans (sound.running other is))).symm out
  · have same : other = head := by
      rw [show (switched s thread head).current = some head by simpa [switched] using now] at is
      exact (Option.some.inj is).symm
    rw [all other, if_pos same]
    exact ⟨nofun, nofun⟩
  · simpa [switched] using now
  · simpa [switched] using nest
  · unfold switched
    rw [Scheduler.update_table, Scheduler.remove_table, table priority]

theorem rtSchedule_sound (sound : Sound s) : Sound s.rtSchedule := by
  rcases rtSchedule_cases sound with ⟨same, _⟩ | ⟨fromThread, head, rest, highest, _, current, best, ⟨stays, is⟩ | ⟨_, is⟩⟩
  · rw [same]; exact sound
  · rw [is]; exact (kept_spec sound current stays.1).1
  · rw [is]; exact (switched_spec sound current best).1

/-- After `rt_schedule` the processor is with a thread that no ready thread outranks. -/
theorem rtSchedule_best (sound : Sound s) (unlocked : s.lockNest = 0) (current : s.current = some thread)
    (can : (s.thread thread).stat = .running ∨ ∃ other, (s.thread other).stat = .ready) :
    ∃ next, s.rtSchedule.current = some next ∧ (s.rtSchedule.thread next).stat = .running ∧
      ∀ other, (s.rtSchedule.thread other).stat = .ready →
        (s.rtSchedule.thread next).currentPriority ≤ (s.rtSchedule.thread other).currentPriority := by
  rcases rtSchedule_cases sound with ⟨same, why⟩ | ⟨fromThread, head, rest, highest, _, was, best, ⟨stays, is⟩ | ⟨gives, is⟩⟩
  · have none : ∀ other, (s.thread other).stat ≠ .ready := by
      rcases why with locked | unstarted | none
      · exact absurd unlocked locked
      · rw [current] at unstarted; cases unstarted
      · exact none
    rw [same]
    refine ⟨thread, current, can.resolve_right fun ⟨other, ready⟩ => none other ready, fun other ready => absurd ready (none other)⟩
  · obtain ⟨_, now, _, fields⟩ := kept_spec sound was stays.1
    rw [is]
    refine ⟨fromThread, now, (fields fromThread).1.trans stays.1, fun other ready => ?_⟩
    rw [(fields other).1] at ready
    rw [(fields fromThread).2, (fields other).2]
    have := best.least other ready
    rcases stays.2 with ahead | ⟨even, _⟩ <;> omega
  · obtain ⟨_, now, _, fields, _⟩ := switched_spec sound was best
    have priority := (best.ready sound.linked).2
    rw [is]
    refine ⟨head, now, by rw [fields, if_pos rfl], fun other ready => ?_⟩
    rw [fields other] at ready ⊢
    rw [fields head, if_pos rfl]
    by_cases same : other = head
    · subst same
      rw [if_pos rfl] at ready
      cases ready
    · rw [if_neg same] at ready ⊢
      by_cases own : other = fromThread
      · rw [if_pos own] at ready ⊢
        unfold leaving at ready ⊢
        split at ready
        next runs =>
          rw [if_pos runs]
          change (s.thread head).currentPriority ≤ (s.thread fromThread).currentPriority
          rw [priority]
          exact Nat.le_of_not_lt fun less => gives ⟨runs, .inl less⟩
        next => exact absurd ready (sound.current fromThread was).1
      · rw [if_neg own] at ready ⊢
        change (s.thread head).currentPriority ≤ _
        rw [priority]
        exact best.least other ready

end Schedule

end SmartWatch.Proofs.ReadyQueue
