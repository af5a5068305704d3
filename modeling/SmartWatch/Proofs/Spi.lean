import SmartWatch.Spi
import SmartWatch.Proofs.Panel

/-! Which sequences of drawing calls the panel receives as they were meant, in
every interleaving with the shift register. A byte is at risk when the pins move
behind it before the next tick. -/

namespace SmartWatch.Proofs.Spi
open SerialLine Raster SmartWatch.Proofs.Panel

/-- The call draws nothing, since its corner is off the screen. -/
def OffScreen : Call → Prop
  | .fillRectangle x y .. | .drawPixel x y _ => x.toNat ≥ screenWidth ∨ y.toNat ≥ screenHeight
  | _ => False

/-- The call raises CS right behind its last byte: a filled rectangle with a
pixel on the screen, or a string with a pixel to draw. -/
def LiftsEarly : Call → Prop
  | .fillRectangle x y w h _ => x.toNat < screenWidth ∧ y.toNat < screenHeight ∧ 0 < w.toNat ∧ 0 < h.toNat
  | .writeString x y str font _ _ =>
    Routine.writeString.cells font.width font.height x y str ≠ [] ∧ 0 < font.width.toNat ∧ 0 < font.height.toNat
  | _ => False

def LeavesBytes : Call → Prop
  | .writeChar _ _ _ font _ _ => 0 < font.width.toNat ∧ 0 < font.height.toNat
  | _ => False

def IsDataWrite : Call → Prop
  | .lcdDataWrite _ => True
  | _ => False

/-- The calls with which nothing goes wrong. `busy` says that bytes of a character
may still be on their way: they bear only calls that draw nothing and a data write,
which waits with the pins unchanged. -/
def Orderly (busy : Prop) : List Call → Prop
  | [] => True
  | call :: calls => (busy → OffScreen call ∨ IsDataWrite call) ∧ ¬ LiftsEarly call ∧
      Orderly (OffScreen call ∧ busy ∨ LeavesBytes call) calls

/-- No item on its way meets the wrong pins while the operations run. -/
def Fine (at_start : Pins × List Handed) (ops : List Op) : Prop :=
  Safe Received at_start.1 at_start.2 (ops.map Op.onLine)

def after (at_start : Pins × List Handed) (ops : List Op) : Pins × List Handed :=
  advance at_start (ops.map Op.onLine)

theorem fine_append (at_start : Pins × List Handed) (first rest : List Op) :
    Fine at_start (first ++ rest) ↔ Fine at_start first ∧ Fine (after at_start first) rest := by
  rw [Fine, List.map_append]
  exact safe_append ..

theorem after_append (at_start : Pins × List Handed) (first rest : List Op) :
    after at_start (first ++ rest) = after (after at_start first) rest := by
  simp only [after, advance, List.map_append, List.foldl_append]

structure Streaming (current : Pins × List Handed) : Prop where
  pins : current.1 = ⟨true, false⟩
  data : ∀ handed ∈ current.2, handed.command = false
  some : current.2 ≠ []

theorem received_data {handed : Handed} (data : handed.command = false) : Received handed ⟨true, false⟩ :=
  ⟨rfl, by simp [data]⟩

theorem Streaming.not_command {current : Pins × List Handed} (streaming : Streaming current) (ops : List Op) :
    ¬ Fine current (.dc false :: ops) := by
  obtain ⟨pins, before⟩ := current
  obtain ⟨rfl, data, some⟩ := streaming
  obtain ⟨handed, rest, rfl⟩ := List.exists_cons_of_ne_nil some
  intro fine
  have received := fine.1 handed List.mem_cons_self
  exact absurd (received.2.mp rfl) (by rw [data handed List.mem_cons_self]; decide)

theorem Streaming.not_lift {current : Pins × List Handed} (streaming : Streaming current) (ops : List Op) :
    ¬ Fine current (.cs true :: ops) := by
  obtain ⟨pins, before⟩ := current
  obtain ⟨rfl, data, some⟩ := streaming
  obtain ⟨handed, rest, rfl⟩ := List.exists_cons_of_ne_nil some
  intro fine
  exact Bool.noConfusion (fine.1 handed List.mem_cons_self).1

theorem Streaming.not_setWindows {current : Pins × List Handed} (streaming : Streaming current)
    (xStart yStart xEnd yEnd : UInt16) (ops : List Op) :
    ¬ Fine current (lcdSetWindows xStart yStart xEnd yEnd ++ ops) := by
  obtain ⟨rest, head⟩ : ∃ rest, lcdSetWindows xStart yStart xEnd yEnd = .dc false :: rest := ⟨_, rfl⟩
  rw [head, List.cons_append]
  exact streaming.not_command _

theorem Streaming.not_writeChar {current : Pins × List Handed} (streaming : Streaming current) (x y : UInt16)
    (ch : Char) (font : FontDef) (color bgcolor : UInt16) (ops : List Op) :
    ¬ Fine current (writeChar x y ch font color bgcolor ++ ops) := by
  rw [SmartWatch.writeChar, List.append_assoc, List.append_assoc]
  exact streaming.not_setWindows _ _ _ _ _

theorem Streaming.data_ops {current : Pins × List Handed} {ops : List Op} (streaming : Streaming current)
    (data : ∀ op ∈ ops, op = .dc true ∨ ∃ byte, op = .send false byte) :
    Fine current ops ∧ Streaming (after current ops) := by
  induction ops generalizing current with
  | nil => exact ⟨trivial, streaming⟩
  | cons op ops ih =>
    obtain ⟨pins, before⟩ := current
    obtain ⟨rfl, old, some⟩ := streaming
    have rest := fun other member => data other (List.mem_cons_of_mem _ member)
    rcases data op List.mem_cons_self with rfl | ⟨byte, rfl⟩
    · obtain ⟨fine, last⟩ := ih (show Streaming (⟨true, false⟩, before) from ⟨rfl, old, some⟩) rest
      exact ⟨⟨fun handed member => received_data (old handed member), fine⟩, last⟩
    · have known : ∀ handed ∈ before.getLast?.toList ++ [⟨false, byte⟩], handed.command = false := by
        intro handed member
        rcases List.mem_append.mp member with recent | sent
        · exact old handed (List.mem_of_getLast? (by simpa using recent))
        · rw [List.mem_singleton.mp sent]
      obtain ⟨fine, last⟩ := ih
        (show Streaming (⟨true, false⟩, before.getLast?.toList ++ [⟨false, byte⟩]) from ⟨rfl, known, by simp⟩) rest
      exact ⟨⟨fun handed member => received_data (known handed member), fine⟩, last⟩

def Idle (current : Pins × List Handed) : Prop := current.2 = []

theorem Idle.command_fine {current : Pins × List Handed} (idle : Idle current) (command : UInt8) :
    Fine current (lcdCommandWrite command) ∧ after current (lcdCommandWrite command) = (⟨false, true⟩, []) := by
  obtain ⟨pins, before⟩ := current
  cases idle
  refine ⟨?_, rfl⟩
  simp [Fine, lcdCommandWrite, lcdSendBytes, Op.onLine, Safe, flight, pinsAfter, Received]

theorem Idle.dataWrite_fine {current : Pins × List Handed} (idle : Idle current) (data : UInt8) :
    Fine current (lcdDataWrite data) ∧ after current (lcdDataWrite data) = (⟨true, true⟩, []) := by
  obtain ⟨pins, before⟩ := current
  cases idle
  refine ⟨?_, rfl⟩
  simp [Fine, lcdDataWrite, lcdSendBytes, Op.onLine, Safe, flight, pinsAfter, Received]

theorem Streaming.dataWrite_fine {current : Pins × List Handed} (streaming : Streaming current) (data : UInt8) :
    Fine current (lcdDataWrite data) ∧ after current (lcdDataWrite data) = (⟨true, true⟩, []) := by
  obtain ⟨pins, before⟩ := current
  obtain ⟨rfl, known, some⟩ := streaming
  refine ⟨?_, rfl⟩
  simp +contextual [Fine, lcdDataWrite, lcdSendBytes, Op.onLine, Safe, flight, pinsAfter, Received, known]

theorem Idle.setWindows_fine {current : Pins × List Handed} (idle : Idle current) (xStart yStart xEnd yEnd : UInt16) :
    Fine current (lcdSetWindows xStart yStart xEnd yEnd) ∧
      after current (lcdSetWindows xStart yStart xEnd yEnd) = (⟨false, true⟩, []) := by
  have command (pins : Pins) := (show Idle (pins, []) from rfl).command_fine
  have data (pins : Pins) := (show Idle (pins, []) from rfl).dataWrite_fine
  simp only [lcdSetWindows, fine_append, after_append, idle.command_fine, command, data, and_self]

theorem stream_start (byte : UInt8) (ops : List Op)
    (data : ∀ op ∈ ops, op = .dc true ∨ ∃ byte, op = .send false byte) :
    Fine (⟨true, false⟩, []) (.send false byte :: ops) ∧
      Streaming (after (⟨true, false⟩, []) (.send false byte :: ops)) := by
  have first : Streaming (⟨true, false⟩, [⟨false, byte⟩]) := ⟨rfl, by simp, by simp⟩
  obtain ⟨fine, last⟩ := first.data_ops data
  refine ⟨⟨fun handed member => ?_, fine⟩, last⟩
  rw [List.mem_singleton.mp member]
  exact received_data rfl

theorem writeData_ops (colours : List UInt16) :
    ∀ op ∈ colours.flatMap fun colour => writeData [highByte colour, lowByte colour],
      op = .dc true ∨ ∃ byte, op = .send false byte := by
  intro op member
  obtain ⟨colour, _, inside⟩ := List.mem_flatMap.mp member
  simp only [writeData, List.map_cons, List.map_nil, List.mem_cons, List.not_mem_nil, or_false] at inside
  rcases inside with dc | high | low
  · exact .inl dc
  · exact .inr ⟨_, high⟩
  · exact .inr ⟨_, low⟩

/-- A character is fine on an idle line, and leaves its last bytes on their way. -/
theorem Idle.writeChar_fine {current : Pins × List Handed} (idle : Idle current) (x y : UInt16) (ch : Char)
    (font : FontDef) (color bgcolor : UInt16) :
    Fine current (writeChar x y ch font color bgcolor) ∧
      (0 < font.width.toNat ∧ 0 < font.height.toNat →
        Streaming (after current (writeChar x y ch font color bgcolor))) ∧
      (¬ (0 < font.width.toNat ∧ 0 < font.height.toNat) →
        Idle (after current (writeChar x y ch font color bgcolor))) := by
  have size := rowOrder_length font.width.toNat font.height.toNat (glyph font color bgcolor ch)
  simp only [writeChar_eq, fine_append, after_append, idle.setWindows_fine, true_and]
  have opened : after (⟨false, true⟩, []) [.cs false] = (⟨false, false⟩, []) := rfl
  rw [opened]
  have lowered : Fine (⟨false, true⟩, []) [.cs false] := ⟨fun _ member => absurd member List.not_mem_nil, trivial⟩
  cases pixels : rowOrder font.width.toNat font.height.toNat (glyph font color bgcolor ch) with
  | nil =>
    rw [pixels, List.length_nil] at size
    have none : ¬ (0 < font.width.toNat ∧ 0 < font.height.toNat) := fun both =>
      absurd (Nat.mul_pos both.2 both.1) (by omega)
    exact ⟨⟨lowered, trivial⟩, fun both => absurd both none, fun _ => rfl⟩
  | cons colour colours =>
    rw [pixels, List.length_cons] at size
    have some : 0 < font.width.toNat ∧ 0 < font.height.toNat :=
      ⟨Nat.pos_of_ne_zero fun zero => by simp [zero] at size, Nat.pos_of_ne_zero fun zero => by simp [zero] at size⟩
    obtain ⟨fine, last⟩ := stream_start (highByte colour)
      (.send false (lowByte colour) :: colours.flatMap fun colour => writeData [highByte colour, lowByte colour])
      fun op member => by
        rcases List.mem_cons.mp member with rfl | later
        · exact .inr ⟨_, rfl⟩
        · exact writeData_ops colours op later
    exact ⟨⟨lowered, fun _ member => absurd member List.not_mem_nil, fine⟩, fun _ => last, fun none => absurd some none⟩

private theorem Idle.drawPixel_fine {current : Pins × List Handed} (idle : Idle current) (x y color : UInt16) :
    Fine current (drawPixel x y color) ∧ Idle (after current (drawPixel x y color)) := by
  unfold SmartWatch.drawPixel
  split
  · exact ⟨trivial, idle⟩
  · simp only [List.append_assoc, fine_append, after_append, idle.setWindows_fine, true_and]
    refine ⟨?_, rfl⟩
    simp [Fine, after, advance, writeData, Op.onLine, Safe, flight, pinsAfter, Received]

private theorem Idle.fillRectangle_fine {current : Pins × List Handed} (idle : Idle current)
    (x y w h color : UInt16) :
    (Fine current (fillRectangle x y w h color) ↔ ¬ LiftsEarly (.fillRectangle x y w h color)) ∧
      (Fine current (fillRectangle x y w h color) → Idle (after current (fillRectangle x y w h color))) := by
  unfold SmartWatch.fillRectangle
  simp only [LiftsEarly]
  split
  next off => exact ⟨⟨fun _ => by omega, fun _ => trivial⟩, fun _ => idle⟩
  next inside =>
    generalize clippedW : (if (x.toNat + w.toNat : Int) - 1 ≥ screenWidth then 240 - x else w) = width
    generalize clippedH : (if (y.toNat + h.toNat : Int) - 1 ≥ screenHeight then 280 - y else h) = height
    have wide : 0 < width.toNat ↔ 0 < w.toNat := by
      rw [← clippedW]
      split
      · simp only [screenWidth, UInt16.toNat_sub, UInt16.reduceToNat] at *
        omega
      · rfl
    have tall : 0 < height.toNat ↔ 0 < h.toNat := by
      rw [← clippedH]
      split
      · simp only [screenHeight, UInt16.toNat_sub, UInt16.reduceToNat] at *
        omega
      · rfl
    have opened : after (⟨false, true⟩, []) [.cs false, .dc true] = (⟨true, false⟩, []) := rfl
    have ready : Fine (⟨false, true⟩, []) [.cs false, .dc true] := by simp [Fine, Safe, Op.onLine, flight]
    simp only [fine_append, after_append, idle.setWindows_fine, opened, ready, true_and]
    cases pixels : (List.replicate height.toNat (List.replicate width.toNat
        [Op.send false (highByte color), .send false (lowByte color)]).flatten).flatten with
    | nil =>
      have none : ¬ (0 < width.toNat ∧ 0 < height.toNat) := by
        intro both
        obtain ⟨columns, one⟩ := Nat.exists_eq_succ_of_ne_zero (Nat.ne_of_gt both.1)
        obtain ⟨rows, other⟩ := Nat.exists_eq_succ_of_ne_zero (Nat.ne_of_gt both.2)
        simp [one, other, List.replicate_succ] at pixels
      refine ⟨⟨fun _ => by omega, fun _ => ⟨trivial, ?_⟩⟩, fun _ => rfl⟩
      simp [Fine, after, advance, Safe, Op.onLine, flight]
    | cons op ops =>
      have data : ∀ other ∈ op :: ops, ∃ byte, other = Op.send false byte := by
        rw [← pixels]
        intro other member
        simp only [List.mem_flatten, List.mem_replicate] at member
        obtain ⟨_, ⟨_, rfl⟩, row⟩ := member
        obtain ⟨_, inner, pixel⟩ := List.mem_flatten.mp row
        rw [(List.mem_replicate.mp inner).2] at pixel
        simp only [List.mem_cons, List.not_mem_nil, or_false] at pixel
        rcases pixel with rfl | rfl <;> exact ⟨_, rfl⟩
      have some : 0 < width.toNat ∧ 0 < height.toNat := by
        constructor <;> refine Nat.pos_of_ne_zero fun zero => ?_
        · simp [zero] at pixels
        · simp [zero] at pixels
      obtain ⟨byte, rfl⟩ := data op List.mem_cons_self
      obtain ⟨_, streaming⟩ :=
        stream_start byte _ fun other member => .inr (data other (List.mem_cons_of_mem _ member))
      have bad : ¬ Fine (after (⟨true, false⟩, []) (.send false byte :: ops)) [.cs true, .dc false] :=
        streaming.not_lift _
      exact ⟨⟨fun fine => absurd fine.2 bad, fun none => absurd ⟨by omega, by omega, wide.mp some.1, tall.mp some.2⟩ none⟩,
        fun fine => absurd fine.2 bad⟩

private theorem Idle.cs_fine {current : Pins × List Handed} (idle : Idle current) (high : Bool) :
    Fine current [.cs high] ∧ Idle (after current [.cs high]) := by
  obtain ⟨pins, before⟩ := current
  cases idle
  exact ⟨⟨fun _ member => absurd member List.not_mem_nil, trivial⟩, rfl⟩

private theorem fine_nil (current : Pins × List Handed) : Fine current [] := trivial

private theorem faithful_iff_fine (pins : Pins) (calls : List Call) :
    Faithful Received pins (program calls) ↔ Fine (pins, []) (calls.flatMap Call.ops) := faithful_iff_safe ..

-- from here on the operations of a whole call are never taken apart
attribute [irreducible] Fine

/-- Cells with pixels: either the next one starts or CS rises behind the first. -/
private theorem cells_lift {current : Pins × List Handed} (idle : Idle current) (font : FontDef)
    (color bgcolor : UInt16) (pixels : 0 < font.width.toNat ∧ 0 < font.height.toNat) {cells : List Cell}
    (some : cells ≠ []) :
    ¬ Fine current ((cells.flatMap fun cell => writeChar cell.x cell.y cell.ch font color bgcolor) ++
      [.cs true]) := by
  cases cells with
  | nil => exact absurd rfl some
  | cons cell cells =>
    have streaming := (idle.writeChar_fine cell.x cell.y cell.ch font color bgcolor).2.1 pixels
    rw [List.flatMap_cons, List.append_assoc, fine_append]
    rintro ⟨_, fine⟩
    cases cells with
    | nil => exact streaming.not_lift [] fine
    | cons next cells =>
      rw [List.flatMap_cons, List.append_assoc] at fine
      exact streaming.not_writeChar _ _ _ _ _ _ _ fine

private theorem cells_quiet {current : Pins × List Handed} (idle : Idle current) (font : FontDef)
    (color bgcolor : UInt16) (blank : ¬ (0 < font.width.toNat ∧ 0 < font.height.toNat)) (cells : List Cell) :
    Fine current (cells.flatMap fun cell => writeChar cell.x cell.y cell.ch font color bgcolor) ∧
      Idle (after current (cells.flatMap fun cell => writeChar cell.x cell.y cell.ch font color bgcolor)) := by
  induction cells generalizing current with
  | nil => exact ⟨fine_nil _, idle⟩
  | cons cell cells ih =>
    obtain ⟨fine, _, rests⟩ := idle.writeChar_fine cell.x cell.y cell.ch font color bgcolor
    obtain ⟨others, last⟩ := ih (rests blank)
    rw [List.flatMap_cons, fine_append, after_append]
    exact ⟨⟨fine, others⟩, last⟩

private theorem Idle.writeString_fine {current : Pins × List Handed} (idle : Idle current) (x y : UInt16)
    (str : List Char) (font : FontDef) (color bgcolor : UInt16) :
    (Fine current (writeString x y str font color bgcolor) ↔ ¬ LiftsEarly (.writeString x y str font color bgcolor)) ∧
      (Fine current (writeString x y str font color bgcolor) →
        Idle (after current (writeString x y str font color bgcolor))) := by
  simp only [writeString, Routine.draw, LiftsEarly, List.append_assoc]
  generalize Routine.writeString.cells font.width font.height x y str = cells
  obtain ⟨lowered, still⟩ := idle.cs_fine false
  rw [fine_append, after_append]
  by_cases draws : cells ≠ [] ∧ 0 < font.width.toNat ∧ 0 < font.height.toNat
  · have bad := cells_lift still font color bgcolor draws.2 draws.1
    exact ⟨⟨fun fine => absurd fine.2 bad, fun none => absurd draws none⟩, fun fine => absurd fine.2 bad⟩
  · have quiet : Fine (after current [.cs false])
          (cells.flatMap fun cell => writeChar cell.x cell.y cell.ch font color bgcolor) ∧
        Idle (after (after current [.cs false])
          (cells.flatMap fun cell => writeChar cell.x cell.y cell.ch font color bgcolor)) := by
      by_cases none : cells = []
      · rw [none]
        exact ⟨fine_nil _, still⟩
      · exact cells_quiet still font color bgcolor (fun pixels => draws ⟨none, pixels⟩) cells
    have raised := quiet.2.cs_fine true
    rw [fine_append, after_append]
    exact ⟨⟨fun _ => draws, fun _ => ⟨lowered, quiet.1, raised.1⟩⟩, fun _ => raised.2⟩

private theorem Streaming.not_writeString {current : Pins × List Handed} (streaming : Streaming current)
    (x y : UInt16) (str : List Char) (font : FontDef) (color bgcolor : UInt16) :
    ¬ Fine current (writeString x y str font color bgcolor) := by
  have still : after current [.cs false] = current := by
    obtain ⟨pins, before⟩ := current
    cases streaming.pins
    rfl
  simp only [writeString, Routine.draw, List.append_assoc]
  generalize Routine.writeString.cells font.width font.height x y str = cells
  rw [fine_append, still]
  rintro ⟨_, fine⟩
  cases cells with
  | nil => exact streaming.not_lift [] fine
  | cons cell cells =>
    rw [List.flatMap_cons, List.append_assoc] at fine
    exact streaming.not_writeChar _ _ _ _ _ _ _ fine

theorem OffScreen.quiet {call : Call} (off : OffScreen call) : call.ops = [] ∧ ¬ LiftsEarly call := by
  cases call with
  | fillRectangle x y w h color =>
    refine ⟨if_pos off, ?_⟩
    simp only [OffScreen, LiftsEarly] at off ⊢
    omega
  | drawPixel x y color => exact ⟨if_pos off, id⟩
  | _ => cases off

/-- While data bytes are on their way, a call that draws begins with a command or ends with CS. -/
theorem Streaming.stuck {current : Pins × List Handed} (streaming : Streaming current) {call : Call}
    (draws : ¬ OffScreen call) (other : ¬ IsDataWrite call) : ¬ Fine current call.ops := by
  cases call with
  | lcdDataWrite data => exact absurd trivial other
  | lcdCommandWrite command => exact streaming.not_command _
  | lcdSetWindows xStart yStart xEnd yEnd =>
    rw [Call.ops, ← List.append_nil (SmartWatch.lcdSetWindows ..)]
    exact streaming.not_setWindows _ _ _ _ _
  | writeChar x y ch font color bgcolor =>
    rw [Call.ops, ← List.append_nil (SmartWatch.writeChar ..)]
    exact streaming.not_writeChar _ _ _ _ _ _ _
  | writeString x y str font color bgcolor => exact streaming.not_writeString x y str font color bgcolor
  | fillRectangle x y w h color =>
    have shown : (Call.fillRectangle x y w h color).ops = _ := if_neg draws
    rw [shown]
    simp only [List.append_assoc]
    exact streaming.not_setWindows _ _ _ _ _
  | drawPixel x y color =>
    have shown : (Call.drawPixel x y color).ops = _ := if_neg draws
    rw [shown]
    simp only [List.append_assoc]
    exact streaming.not_setWindows _ _ _ _ _

private theorem Idle.call_fine {current : Pins × List Handed} (idle : Idle current) (call : Call) :
    (Fine current call.ops ↔ ¬ LiftsEarly call) ∧ (Fine current call.ops →
      LeavesBytes call ∧ Streaming (after current call.ops) ∨ ¬ LeavesBytes call ∧
      Idle (after current call.ops)) := by
  cases call with
  | lcdDataWrite data =>
    obtain ⟨fine, last⟩ := idle.dataWrite_fine data
    exact ⟨⟨fun _ => id, fun _ => fine⟩, fun _ => .inr ⟨id, by rw [Call.ops, last]; rfl⟩⟩
  | lcdCommandWrite command =>
    obtain ⟨fine, last⟩ := idle.command_fine command
    exact ⟨⟨fun _ => id, fun _ => fine⟩, fun _ => .inr ⟨id, by rw [Call.ops, last]; rfl⟩⟩
  | lcdSetWindows xStart yStart xEnd yEnd =>
    obtain ⟨fine, last⟩ := idle.setWindows_fine xStart yStart xEnd yEnd
    exact ⟨⟨fun _ => id, fun _ => fine⟩, fun _ => .inr ⟨id, by rw [Call.ops, last]; rfl⟩⟩
  | writeChar x y ch font color bgcolor =>
    obtain ⟨fine, leaves, rests⟩ := idle.writeChar_fine x y ch font color bgcolor
    refine ⟨⟨fun _ => id, fun _ => fine⟩, fun _ => ?_⟩
    by_cases pixels : 0 < font.width.toNat ∧ 0 < font.height.toNat
    · exact .inl ⟨pixels, leaves pixels⟩
    · exact .inr ⟨pixels, rests pixels⟩
  | writeString x y str font color bgcolor =>
    obtain ⟨exactly, rests⟩ := idle.writeString_fine x y str font color bgcolor
    exact ⟨exactly, fun fine => .inr ⟨id, rests fine⟩⟩
  | fillRectangle x y w h color =>
    obtain ⟨exactly, rests⟩ := idle.fillRectangle_fine x y w h color
    exact ⟨exactly, fun fine => .inr ⟨id, rests fine⟩⟩
  | drawPixel x y color =>
    obtain ⟨fine, rests⟩ := idle.drawPixel_fine x y color
    exact ⟨⟨fun _ => id, fun _ => fine⟩, fun _ => .inr ⟨id, rests⟩⟩

def Stands (busy : Prop) (current : Pins × List Handed) : Prop := busy ∧ Streaming current ∨ ¬ busy ∧ Idle current

/-- What one call needs, and how it leaves the line. -/
theorem call_fine {busy : Prop} {current : Pins × List Handed} (stands : Stands busy current) (call : Call) :
    (Fine current call.ops ↔ (busy → OffScreen call ∨ IsDataWrite call) ∧ ¬ LiftsEarly call) ∧
      (Fine current call.ops → Stands (OffScreen call ∧ busy ∨ LeavesBytes call) (after current call.ops)) := by
  rcases stands with ⟨held, streaming⟩ | ⟨free, idle⟩
  · by_cases off : OffScreen call
    · obtain ⟨nothing, early⟩ := off.quiet
      rw [nothing]
      exact ⟨⟨fun _ => ⟨fun _ => .inl off, early⟩, fun _ => fine_nil _⟩, fun _ => .inl ⟨.inl ⟨off, held⟩, streaming⟩⟩
    · by_cases data : IsDataWrite call
      · cases call with
        | lcdDataWrite byte =>
          obtain ⟨fine, last⟩ := streaming.dataWrite_fine byte
          exact ⟨⟨fun _ => ⟨fun _ => .inr trivial, id⟩, fun _ => fine⟩,
            fun _ => .inr ⟨by simp [OffScreen, LeavesBytes], by rw [Call.ops, last]; rfl⟩⟩
        | _ => cases data
      · have stuck := streaming.stuck off data
        exact ⟨⟨fun fine => absurd fine stuck, fun ready => absurd (ready.1 held) (not_or.mpr ⟨off, data⟩)⟩,
          fun fine => absurd fine stuck⟩
  · obtain ⟨exactly, leaves⟩ := idle.call_fine call
    refine ⟨⟨fun fine => ⟨fun held => absurd held free, exactly.mp fine⟩, fun ready => exactly.mpr ready.2⟩, fun fine => ?_⟩
    rcases leaves fine with ⟨left, streaming⟩ | ⟨none, rests⟩
    · exact .inl ⟨.inr left, streaming⟩
    · exact .inr ⟨fun busy => busy.elim (fun both => free both.2) none, rests⟩

private theorem calls_fine (calls : List Call) (busy : Prop) (current : Pins × List Handed)
    (stands : Stands busy current) :
    Fine current (calls.flatMap Call.ops) ↔ Orderly busy calls := by
  induction calls generalizing busy current with
  | nil => exact ⟨fun _ => trivial, fun _ => fine_nil _⟩
  | cons call calls ih =>
    obtain ⟨exactly, next⟩ := call_fine stands call
    rw [List.flatMap_cons, fine_append, Orderly]
    constructor
    · rintro ⟨fine, rest⟩
      exact ⟨(exactly.mp fine).1, (exactly.mp fine).2, (ih _ _ (next fine)).mp rest⟩
    · rintro ⟨ready, early, rest⟩
      have fine := exactly.mpr ⟨ready, early⟩
      exact ⟨fine, (ih _ _ (next fine)).mpr rest⟩

/-- A one-pixel rectangle whose second byte is still in the data register when
CS rises. -/
theorem fillRectangle_drops_byte :
    ¬ ∀ pins calls, Faithful Received pins (program calls) := by
  intro always
  have orderly := (calls_fine [.fillRectangle 0 0 1 1 0] False (⟨true, true⟩, [])
    (.inr ⟨id, rfl⟩)).mp ((faithful_iff_fine _ _).mp (always ⟨true, true⟩ [.fillRectangle 0 0 1 1 0]))
  exact orderly.2.1 (show 0 < 240 ∧ 0 < 280 ∧ 0 < 1 ∧ 0 < 1 by decide)

/-- The panel latches every byte once, in order and for what it is, in every
interleaving, exactly when no rectangle or string draws a pixel and no character
is followed by anything but calls that draw nothing and then a data write. -/
theorem faithful_iff_orderly (pins : Pins) (calls : List Call) :
    Faithful Received pins (program calls) ↔ Orderly False calls :=
  (faithful_iff_fine pins calls).trans (calls_fine calls False (pins, []) (.inr ⟨id, rfl⟩))

end SmartWatch.Proofs.Spi
