import Mathlib.Data.List.Basic
import SmartWatch.Battery
import SmartWatch.Proofs.Face
import SmartWatch.Proofs.Menus

/-! Where `WriteChar` reads in the tables of the fonts. It checks no character, so
what keeps it inside is which characters the strings of the watch are made of. -/

namespace SmartWatch.Proofs.Glyphs
open TwosComplement Stamp Ctime Menus SmartWatch.Proofs.Panel SmartWatch.Proofs.Face

/-- Each row `WriteChar` reads for the character is in the table. -/
def InTable (font : Font) (ch : Char) : Prop :=
  ∀ i < font.height.toNat, 0 ≤ (ch.toNat - 32 : Int) * font.height.toNat + i ∧
    (ch.toNat - 32 : Int) * font.height.toNat + i < font.tableLength

/-- Every `WriteChar` call of the draw stays in its table. -/
def Safe (draw : Draw) : Prop := ∀ cell ∈ draw.cells, InTable draw.font cell.ch

/-- Strings that `getValues` can leave. -/
structure Told (bits : Nat) (readings : Readings) : Prop where
  batt : ∃ batt, readings.battString = itoa batt
  string : ∃ now, Fits bits now ∧ Era now ∧ ctime bits now = some readings.string
  steps : ∃ steps, readings.stepString = itoa steps

/-- Strings an iteration can read while `getValues` writes them: each character is
one of a number, or stands there in the text of some time. -/
structure Torn (bits : Nat) (readings : Readings) : Prop where
  batt : ∀ ch ∈ readings.battString, ∃ batt, ch ∈ itoa batt
  string : ∀ index : Nat, ∃ (now : Int) (text : List Char), Fits bits now ∧ Era now ∧ ctime bits now = some text ∧
    readings.string[index]? = text[index]?
  steps : ∀ ch ∈ readings.stepString, ∃ steps, ch ∈ itoa steps

theorem Told.torn {bits : Nat} {readings : Readings} (told : Told bits readings) : Torn bits readings := by
  obtain ⟨⟨batt, battText⟩, ⟨now, fits, era, text⟩, steps, stepText⟩ := told
  exact ⟨fun ch member => ⟨batt, battText ▸ member⟩, fun _ => ⟨now, _, fits, era, text, rfl⟩,
    fun ch member => ⟨steps, stepText ▸ member⟩⟩

structure Iteration where
  themeChanged : Bool
  globals : Globals
  readings : Readings

def Iteration.run (strings : Strings) (iteration : Iteration) : Strings × List Draw :=
  showValues iteration.themeChanged iteration.globals strings iteration.readings

def Iteration.leave (strings : Strings) (iteration : Iteration) : Strings := (iteration.run strings).1

/-- The last character of each font. -/
def lastCode : Font → Nat
  | .font7x10 | .font11x18 => 126
  | .clockFont => 58

theorem inTable_of_code {font : Font} {ch : Char} (low : 32 ≤ ch.toNat) (high : ch.toNat ≤ lastCode font) :
    InTable font ch := by
  intro i row
  cases font <;> simp only [lastCode, Font.height, Font.tableLength, UInt8.reduceToNat] at * <;> omega

def SameTables (one other : Font → Int → UInt16) : Prop :=
  ∀ font (offset : Int), 0 ≤ offset → offset < Font.tableLength font → one font offset = other font offset

theorem writeChar_congr {one other : Font → Int → UInt16} (same : SameTables one other) {font : Font} {ch : Char}
    (inside : InTable font ch) (x y color bgcolor : UInt16) :
    writeChar x y ch (font.toFontDef one) color bgcolor = writeChar x y ch (font.toFontDef other) color bgcolor := by
  have rows : ∀ i ∈ List.range font.height.toNat,
      (font.toFontDef one).glyphRow ch i = (font.toFontDef other).glyphRow ch i := by
    intro i row
    obtain ⟨low, high⟩ := inside i (List.mem_range.mp row)
    simp only [FontDef.glyphRow, Font.toFontDef, same font _ low high]
  refine congrArg (_ ++ ·) (List.flatMap_congr fun i row => ?_)
  rw [rows i row]
  rfl

/-- What lies around the tables does not show. -/
theorem ops_congr {one other : Font → Int → UInt16} (same : SameTables one other) (theme : UInt16) {draw : Draw}
    (safe : Safe draw) : draw.ops one theme = draw.ops other theme := by
  have cells := List.flatMap_congr (l := draw.cells) fun cell drawn =>
    writeChar_congr same (safe cell drawn) cell.x cell.y (draw.ink.color theme) (draw.ink.bgcolor theme)
  exact congrArg (fun ops => [.cs false] ++ ops ++ [.cs true] ++ [.mdelay]) cells

private theorem safe_of_codes {draw : Draw} {low high : Nat} (codes : Codes low high draw.str) (first : 32 ≤ low)
    (last : high ≤ lastCode draw.font) : Safe draw := by
  intro cell drawn
  obtain ⟨member, -⟩ := cells_mem draw.routine _ _ draw.x draw.y draw.str cell drawn
  obtain ⟨above, below⟩ := codes cell.ch member
  exact inTable_of_code (Nat.le_trans first above) (Nat.le_trans below last)

private theorem numeric_last (font : Font) : 57 ≤ lastCode font := by cases font <;> decide

theorem safe_of_numeric {draw : Draw} (codes : Codes 45 57 draw.str) : Safe draw :=
  safe_of_codes codes (by decide) (numeric_last draw.font)

private theorem numberDraws_safe {counter : Int} {str : List Char} {left right y : UInt16} {font : Font} {ink : Ink}
    (codes : Codes 45 57 str) : ∀ draw ∈ numberDraws counter str left right y font ink, Safe draw := by
  have zero : Codes 45 57 ['0'] := by decide
  unfold numberDraws
  split <;> intro draw member
  · rcases List.mem_cons.mp member with rfl | member
    · exact safe_of_numeric zero
    · obtain rfl := List.mem_singleton.mp member
      exact safe_of_numeric codes
  · obtain rfl := List.mem_singleton.mp member
    exact safe_of_numeric codes

private theorem monthDraws_safe (g : Globals) : ∀ draw ∈ monthDraws g, Safe draw := by
  intro draw member
  obtain rfl := List.mem_singleton.mp member
  have codes : Codes 32 126 (monthText g.monthbutton) := by
    unfold monthText
    split <;> decide
  exact safe_of_codes codes (by decide) (Nat.le_refl 126)

private theorem icons_safe : ∀ draw ∈ icons, Safe draw := by
  intro draw member
  rcases List.mem_cons.mp member with rfl | member
  · exact safe_of_codes (show Codes 37 37 ['%'] by decide) (by decide) (by decide)
  · obtain rfl := List.mem_singleton.mp member
    exact safe_of_codes (show Codes 33 33 ['!'] by decide) (by decide) (by decide)

/-- The arrays are empty or hold numbers. -/
structure Numbers (strings : Strings) : Prop where
  hour : Codes 45 57 strings.hourStr
  minute : Codes 45 57 strings.minuteStr
  second : Codes 45 57 strings.secondStr
  day : Codes 45 57 strings.dayStr

theorem numbers_start : Numbers {} := ⟨by decide, by decide, by decide, by decide⟩

/-- What the draws of the base screen need of the strings. -/
structure Legible (readings : Readings) : Prop where
  batt : Codes 45 57 readings.battString
  stamped : Stamped readings.string
  time : Codes 38 58 (timeText readings.string)
  line : ∀ ch ∈ readings.string, ch ≠ '\n' → 32 ≤ ch.toNat ∧ ch.toNat ≤ 126
  steps : Codes 45 57 readings.stepString

private theorem numeric_of_itoa {str : List Char} (spelled : ∀ ch ∈ str, ∃ value, ch ∈ itoa value) :
    Codes 45 57 str := by
  intro ch member
  obtain ⟨value, digit⟩ := spelled ch member
  exact itoa_codes value ch digit

private theorem Torn.timeChar {bits : Nat} {readings : Readings} (torn : Torn bits readings) {index : Nat}
    (within : index < 8) : ∃ ch, (timeText readings.string)[index]? = some ch ∧ 38 ≤ ch.toNat ∧ ch.toNat ≤ 58 := by
  obtain ⟨now, text, -, -, told, same⟩ := torn.string (11 + index)
  have inside : index < (timeText text).length := by
    rw [(ctime_stamped told).time]
    exact within
  have there : (timeText readings.string)[index]? = (timeText text)[index]? := by
    rw [timeText, timeText, List.getElem?_take_of_lt within, List.getElem?_take_of_lt within, List.getElem?_drop,
      List.getElem?_drop, same]
  exact ⟨_, there.trans (List.getElem?_eq_getElem inside), ctime_codes told _ (List.getElem_mem inside)⟩

private theorem Torn.time {bits : Nat} {readings : Readings} (torn : Torn bits readings) :
    Codes 38 58 (timeText readings.string) ∧ (timeText readings.string).length = 8 := by
  have most : (timeText readings.string).length ≤ 8 := List.length_take_le 8 _
  constructor
  · intro ch member
    obtain ⟨index, inside, same⟩ := List.mem_iff_getElem.mp member
    obtain ⟨found, there, codes⟩ := torn.timeChar (Nat.lt_of_lt_of_le inside most)
    obtain rfl : found = ch := Option.some.inj (there.symm.trans (List.getElem?_eq_some_iff.mpr ⟨inside, same⟩))
    exact codes
  · obtain ⟨ch, last, -⟩ := torn.timeChar (show 7 < 8 by decide)
    obtain ⟨inside, -⟩ := List.getElem?_eq_some_iff.mp last
    omega

private theorem Torn.line {bits : Nat} {readings : Readings} (width : bits = 32 ∨ bits = 64)
    (torn : Torn bits readings) :
    ∀ ch ∈ readings.string, ch ≠ '\n' → 32 ≤ ch.toNat ∧ ch.toNat ≤ 126 := by
  intro ch member printed
  obtain ⟨index, there⟩ := List.mem_iff_getElem?.mp member
  obtain ⟨now, text, fits, era, told, same⟩ := torn.string index
  obtain ⟨line, whole, codes⟩ := ctime_line width fits era told
  have spelled : ch ∈ line ++ ['\n'] := whole ▸ List.mem_iff_getElem?.mpr ⟨index, same.symm.trans there⟩
  rcases List.mem_append.mp spelled with ahead | newline
  · exact codes ch ahead
  · exact absurd (List.mem_singleton.mp newline) printed

theorem Torn.legible {bits : Nat} {readings : Readings} (width : bits = 32 ∨ bits = 64) (torn : Torn bits readings) :
    Legible readings := by
  obtain ⟨codes, length⟩ := torn.time
  have year : readings.string[19]? = some ' ' := by
    obtain ⟨now, text, -, -, told, same⟩ := torn.string 19
    exact same.trans (ctime_stamped told).year
  exact ⟨numeric_of_itoa torn.batt, stamped_of_codes codes length year, codes, torn.line width, numeric_of_itoa torn.steps⟩

/-- The font ends at the colon, and the letters of the date are not drawn. -/
theorem time_safe {string : List Char} (stamped : Stamped string) (time : Codes 38 58 (timeText string)) :
    Safe ⟨.rtcSt7789Time, 40, 60, string, .clockFont, .plain⟩ := by
  intro cell drawn
  have cells : (⟨.rtcSt7789Time, 40, 60, string, .clockFont, .plain⟩ : Draw).cells = timeCells (timeText string) :=
    cells_eq stamped
  rw [cells, timeCells] at drawn
  obtain ⟨index, inside, rfl⟩ := List.mem_mapIdx.mp drawn
  obtain ⟨low, high⟩ := time _ (List.getElem_mem inside)
  exact inTable_of_code (Nat.le_trans (by decide) low) high

private theorem basicScreen_safe {readings : Readings} (legible : Legible readings) :
    ∀ draw ∈ basicScreen readings, Safe draw := by
  intro draw member
  simp only [basicScreen, List.mem_cons, List.not_mem_nil, or_false] at member
  rcases member with rfl | rfl | rfl | rfl
  · exact safe_of_numeric legible.batt
  · exact time_safe legible.stamped legible.time
  · intro cell drawn
    obtain ⟨spelled, printed⟩ := cells_mem .rtcSt7789Date _ _ _ _ readings.string cell drawn
    obtain ⟨low, high⟩ := legible.line cell.ch spelled printed
    exact inTable_of_code low high
  · exact safe_of_numeric legible.steps

/-- What the menus draw besides the base screen needs only the arrays. -/
private theorem showMenu_draws {strings : Strings} (numbers : Numbers strings) (g : Globals) (readings : Readings) :
    ∀ draw ∈ (showMenu g strings readings).2, draw ∈ basicScreen readings ∨ Safe draw := by
  unfold showMenu
  split <;> intro draw member
  · exact .inr (numberDraws_safe (itoa_codes g.hour) draw member)
  · refine .inr (List.forall_mem_append.mpr ⟨?_, ?_⟩ draw member)
    · exact numberDraws_safe numbers.hour
    · exact numberDraws_safe (itoa_codes g.minute)
  · refine .inr (List.forall_mem_append.mpr ⟨?_, ?_⟩ draw member)
    · exact numberDraws_safe numbers.minute
    · exact numberDraws_safe (itoa_codes g.second)
  · refine .inr (List.forall_mem_append.mpr ⟨?_, ?_⟩ draw member)
    · exact numberDraws_safe numbers.second
    · exact monthDraws_safe g
  · exact .inr (numberDraws_safe (itoa_codes g.day) draw member)
  · exact .inl member

theorem Numbers.leave {strings : Strings} (numbers : Numbers strings) (iteration : Iteration) :
    Numbers (iteration.leave strings) := by
  change Numbers (showMenu iteration.globals strings iteration.readings).1
  unfold showMenu
  split
  · exact ⟨itoa_codes _, numbers.minute, numbers.second, numbers.day⟩
  · exact ⟨numbers.hour, itoa_codes _, numbers.second, numbers.day⟩
  · exact ⟨numbers.hour, numbers.minute, itoa_codes _, numbers.day⟩
  · exact numbers
  · exact ⟨numbers.hour, numbers.minute, numbers.second, itoa_codes _⟩
  · exact numbers

theorem run_draws (iteration : Iteration) {strings : Strings} (numbers : Numbers strings) :
    ∀ draw ∈ (iteration.run strings).2, draw ∈ basicScreen iteration.readings ∨ Safe draw := by
  intro draw member
  rcases List.mem_append.mp member with icon | shown
  · split at icon
    · exact .inr (icons_safe draw icon)
    · cases icon
  · exact showMenu_draws numbers iteration.globals iteration.readings draw shown

private theorem run_safe {iteration : Iteration} (legible : Legible iteration.readings) {strings : Strings}
    (numbers : Numbers strings) : ∀ draw ∈ (iteration.run strings).2, Safe draw := by
  intro draw member
  rcases run_draws iteration numbers draw member with base | safe
  · exact basicScreen_safe legible draw base
  · exact safe

theorem numbers_after (earlier : List Iteration) : Numbers (earlier.foldl Iteration.leave {}) :=
  Runs.foldl_invariant Iteration.leave Numbers (fun _ iteration numbers => numbers.leave iteration) {} earlier numbers_start

/-- After any iterations, an iteration with any counters and any numbers for the
battery and the steps reads no row outside the tables of its fonts. -/
theorem rows_in_tables (bits : Nat) (width : bits = 32 ∨ bits = 64) (earlier : List Iteration) (iteration : Iteration)
    (told : Told bits iteration.readings) : ∀ draw ∈ (iteration.run (earlier.foldl Iteration.leave {})).2,
      ∀ cell ∈ draw.cells, InTable draw.font cell.ch :=
  run_safe (told.torn.legible width) (numbers_after earlier)

/-- Nor does it when `getValues` writes the strings while the iteration draws them,
and the memory around the tables does not show. -/
theorem torn_ops_congr {one other : Font → Int → UInt16} (same : SameTables one other) (theme : UInt16) {bits : Nat}
    (width : bits = 32 ∨ bits = 64) (earlier : List Iteration) (iteration : Iteration)
    (torn : Torn bits iteration.readings) :
    (iteration.run (earlier.foldl Iteration.leave {})).2.flatMap (Draw.ops one theme) =
      (iteration.run (earlier.foldl Iteration.leave {})).2.flatMap (Draw.ops other theme) :=
  List.flatMap_congr fun draw member =>
    ops_congr same theme (run_safe (torn.legible width) (numbers_after earlier) draw member)

/-- A pass of the time while `getValues` goes on. -/
structure Passing (bits : Nat) (face : Face) : Prop where
  told : ∀ string, face.string = some string → ∃ now, ctime bits now = some string
  pen : ∀ pen, face.pen = some pen → ∃ index, index ≤ 8 ∧ pen = penAt index
  drawn : ∀ cell ∈ face.drawn, InTable .clockFont cell.ch

theorem Passing.turn {bits : Nat} {face next : Face} (passing : Passing bits face)
    (taken : face.step bits .turn = some next) : Passing bits next := by
  obtain ⟨string, there, taken⟩ := Option.bind_eq_some_iff.mp taken
  obtain ⟨pen, drawing, taken⟩ := Option.bind_eq_some_iff.mp taken
  obtain ⟨now, told⟩ := passing.told string there
  obtain ⟨index, within, rfl⟩ := passing.pen pen drawing
  have stamped := ctime_stamped told
  by_cases ended : index = 8
  · subst ended
    rw [turn_ends stamped] at taken
    cases taken
    exact ⟨passing.told, fun pen gone => absurd gone.symm (Option.some_ne_none pen), passing.drawn⟩
  · have inside : index < (timeText string).length := by rw [stamped.time]; omega
    rw [turn_draws stamped (List.getElem?_eq_getElem inside)] at taken
    cases taken
    refine ⟨passing.told, fun _ same => ⟨index + 1, by omega, (Option.some.inj same).symm⟩, fun cell member => ?_⟩
    rcases List.mem_append.mp member with earlier | last
    · exact passing.drawn cell earlier
    · obtain rfl := List.mem_singleton.mp last
      obtain ⟨low, high⟩ := ctime_codes told _ (List.getElem_mem inside)
      exact inTable_of_code (Nat.le_trans (by decide) low) high

theorem Passing.step {bits : Nat} {face next : Face} {event : FaceEvent} (passing : Passing bits face)
    (taken : face.step bits event = some next) : Passing bits next := by
  cases event with
  | getValues now =>
    obtain ⟨string, told, taken⟩ := Option.bind_eq_some_iff.mp taken
    cases taken
    exact ⟨fun _ same => ⟨now, (Option.some.inj same) ▸ told⟩, passing.pen, passing.drawn⟩
  | call =>
    simp only [Face.step] at taken
    split at taken
    next => cases taken
    next =>
      cases taken
      refine ⟨passing.told, fun _ same => ⟨0, Nat.zero_le 8, (Option.some.inj same).symm⟩, fun cell member => ?_⟩
      cases member
  | turn => exact passing.turn taken

/-- No pass of the time leaves the font, whichever turns `getValues` comes between
and whatever times it tells. -/
theorem pass_in_table {bits : Nat} {events : List FaceEvent} {final : Face}
    (reached : Runs.run (Face.step bits) {} events = some final) :
    ∀ cell ∈ final.drawn, InTable .clockFont cell.ch := by
  have start : Passing bits {} := by
    refine ⟨fun string unset => absurd unset.symm (Option.some_ne_none string),
      fun pen unset => absurd unset.symm (Option.some_ne_none pen), fun cell member => ?_⟩
    cases member
  have passing := Runs.run_invariant (Passing bits) (fun _ _ _ passing taken => passing.step taken) start reached
  exact passing.drawn

end SmartWatch.Proofs.Glyphs
