import SmartWatch.Proofs.DateLine
import SmartWatch.Proofs.Glyphs

/-! The hours in which a 32-bit `time_t` wraps to weekday -1. `asctime_r` then copies
the four bytes in front of `days`, and the date on the base screen begins with them. -/

namespace SmartWatch.Proofs.LostWeekday
open TwosComplement Stamp Ctime Menus TextCut DateLine Glyphs SmartWatch.Proofs.Panel SmartWatch.Proofs.Face

/-- What `getValues` leaves at a time, with `around` for the memory around `days`. -/
structure LeftAt (around : Int → Char) (bits : Nat) (now : Int) (readings : Readings) : Prop where
  batt : ∃ batt, readings.battString = itoa batt
  string : ctimeBytes around bits now = some readings.string
  steps : ∃ steps, readings.stepString = itoa steps

/-- Every `WriteChar` call of every iteration that shows the time stays in its table. -/
def StaysInside (around : Int → Char) (bits : Nat) (now : Int) : Prop :=
  ∀ (earlier : List Iteration) (iteration : Iteration), LeftAt around bits now iteration.readings →
    ∀ draw ∈ (iteration.run (earlier.foldl Iteration.leave {})).2,
      ∀ cell ∈ draw.read.cells, InTable draw.font cell.ch

/-- The four bytes in front of `days`. -/
def front (around : Int → Char) : List Char := [around (-4), around (-3), around (-2), around (-1)]

/-- `RTC_ST7789_Date` can draw the bytes it sees: they are in its font, or newlines. -/
def Drawable (bytes : List Char) : Prop :=
  ∀ ch ∈ bytes.takeWhile (· ≠ '\x00'), ch = '\n' ∨ 32 ≤ ch.toNat ∧ ch.toNat ≤ 126

instance (bytes : List Char) : Decidable (Drawable bytes) := List.decidableBAll _ _

private theorem ctimeBytes_of_told {around : Int → Char} {bits : Nat} {now : Int} {text : List Char}
    (told : ctime bits now = some text) : ctimeBytes around bits now = some text := by
  obtain ⟨day, weekday, told⟩ := Option.bind_eq_some_iff.mp told
  obtain ⟨month, mon, told⟩ := Option.bind_eq_some_iff.mp told
  rw [ctimeBytes, mon, fourBytes, weekday]
  exact told

private theorem textCells_read {σ : Type} (cut : σ → Char → Option σ) (width height : UInt8) (bytes : List Char)
    (x y : UInt16) (state : σ) : textCells cut width height (bytes.takeWhile (· ≠ '\x00')) x y state ⊆
      textCells cut width height bytes x y state := by
  have subset : textCells cut width height (bytes.takeWhile (· ≠ '\x00')) x y state ⊆
      textCells cut width height (bytes.takeWhile (· ≠ '\x00') ++ bytes.dropWhile (· ≠ '\x00')) x y state :=
    textCells_subset ..
  rwa [List.takeWhile_append_dropWhile] at subset

/-- The bytes behind a NUL are not drawn, and take none of the others away. -/
private theorem read_cells (draw : Draw) : draw.read.cells ⊆ draw.cells := by
  obtain ⟨routine, x, y, str, font, ink⟩ := draw
  cases routine with
  | writeString | rtcSt7789Date => exact textCells_read ..
  | rtcSt7789Time =>
    have seen : (str.take 11 ++ (str.drop 11).takeWhile (· ≠ '\x00')).drop 11 =
        (str.drop 11).takeWhile (· ≠ '\x00') := by
      by_cases long : 11 ≤ str.length
      · exact List.drop_left' (List.length_take_of_le long)
      · have none : str.drop 11 = [] := List.drop_eq_nil_of_le (by omega)
        rw [none, List.takeWhile_nil, List.append_nil]
        exact List.drop_eq_nil_of_le (List.length_take_le 11 str)
    change textCells timeCut _ _ ((str.take 11 ++ (str.drop 11).takeWhile (· ≠ '\x00')).drop 11) x y () ⊆ _
    rw [seen]
    exact textCells_read ..

private theorem safe_read {draw : Draw} (safe : Safe draw) : ∀ cell ∈ draw.read.cells, InTable draw.font cell.ch :=
  fun cell drawn => safe cell (read_cells draw drawn)

/-- The string of such a time: the bytes in front of `days`, and characters of the font. -/
private theorem lost_string {around : Int → Char} {now : Int} {string : List Char} (fits : Fits 32 now)
    (late : 2 ^ 31 ≤ now + fixedTimezone * 3600)
    (before : now + fixedTimezone * 3600 ≤ 2 ^ 32 - 24855 * secondsPerDay)
    (left : ctimeBytes around 32 now = some string) : Stamped string ∧ Codes 38 58 (timeText string) ∧
      ∃ line, string = front around ++ line ++ ['\n'] ∧ Codes 32 126 line := by
  obtain ⟨weekday, mon, mday, year⟩ := lost_weekday fits late before
  obtain ⟨month, january, left⟩ := Option.bind_eq_some_iff.mp left
  have missing : fourChars days (-1) = none := by decide
  have bytes : fourBytes around days (localtimeR 32 now).tmWday = front around := by
    rw [weekday, fourBytes, missing]
    rfl
  rw [bytes] at left
  cases left
  obtain ⟨stamped, time⟩ :=
    asctimeText_stamped 32 now (show (front around).length = 4 from rfl) (fourChars_length january)
  refine ⟨stamped, time, ?_⟩
  obtain ⟨hour, minute, second⟩ := localtimeR_clock 32 now
  obtain ⟨line, whole, codes⟩ : ∃ line, asctimeText [] month (localtimeR 32 now) = line ++ ['\n'] ∧ Codes 32 126 line := by
    refine asctimeText_codes (fourChars_codes (show Codes 32 126 months by decide) january) ?_ (by omega) (by omega)
      (by omega) ?_
    · rw [mday]
      decide
    · rw [year]
      decide
  refine ⟨line, ?_, codes⟩
  rw [List.append_assoc, ← whole]
  simp only [asctimeText, List.append_assoc, List.nil_append]

private theorem inside_of_told (around : Int → Char) {bits : Nat} {now : Int} {text : List Char}
    (width : bits = 32 ∨ bits = 64) (fits : Fits bits now) (era : Era now) (told : ctime bits now = some text) :
    StaysInside around bits now := by
  intro earlier iteration left draw member
  have string : ctime bits now = some iteration.readings.string :=
    told.trans ((ctimeBytes_of_told told).symm.trans left.string)
  exact safe_read (rows_in_tables bits width earlier iteration ⟨left.batt, ⟨now, fits, era, string⟩, left.steps⟩ draw member)

private theorem inside_of_drawable {around : Int → Char} {now : Int} (fits : Fits 32 now)
    (late : 2 ^ 31 ≤ now + fixedTimezone * 3600)
    (before : now + fixedTimezone * 3600 ≤ 2 ^ 32 - 24855 * secondsPerDay) (drawable : Drawable (front around)) :
    StaysInside around 32 now := by
  intro earlier iteration left draw member
  rcases run_draws iteration (numbers_after earlier) draw member with base | safe
  · obtain ⟨batt, battText⟩ := left.batt
    obtain ⟨steps, stepText⟩ := left.steps
    obtain ⟨stamped, time, line, whole, codes⟩ := lost_string fits late before left.string
    simp only [basicScreen, List.mem_cons, List.not_mem_nil, or_false] at base
    rcases base with rfl | rfl | rfl | rfl
    · exact safe_read (safe_of_numeric (battText ▸ itoa_codes batt))
    · exact safe_read (time_safe stamped time)
    · intro cell drawn
      obtain ⟨spelled, printed⟩ := cells_mem .rtcSt7789Date _ _ _ _ _ cell drawn
      change cell.ch ∈ iteration.readings.string.takeWhile _ at spelled
      have codes : 32 ≤ cell.ch.toNat ∧ cell.ch.toNat ≤ 126 := by
        rw [whole, List.append_assoc, List.takeWhile_append] at spelled
        split at spelled
        next all =>
          rcases List.mem_append.mp spelled with name | later
          · refine (drawable cell.ch ?_).resolve_left printed
            exact ((List.takeWhile_prefix _).eq_of_length all).symm ▸ name
          · rcases List.mem_append.mp ((List.takeWhile_prefix _).subset later) with ahead | newline
            · exact codes cell.ch ahead
            · exact absurd (List.mem_singleton.mp newline) printed
        next => exact (drawable cell.ch spelled).resolve_left printed
      exact inTable_of_code codes.1 codes.2
    · exact safe_read (safe_of_numeric (stepText ▸ itoa_codes steps))
  · exact safe_read safe

/-- A character is drawn when fewer than four stand in front of it. -/
private theorem date_shows {ahead : List Char} {ch : Char} (rest : List Char) (shown : ch ≠ '\n') (solid : ch ≠ ' ')
    (x y : UInt16) (i : Nat) (room : x.toNat + 11 * (ahead.length + 1) < screenWidth) (few : i + ahead.length < 4) :
    ∃ cell ∈ textCells dateCut 11 18 (ahead ++ ch :: rest) x y i, cell.ch = ch := by
  induction ahead generalizing x i with
  | nil =>
    have stays : ¬ x.toNat + (11 : UInt8).toNat ≥ screenWidth := Nat.not_le.mpr room
    refine ⟨⟨x, y, ch⟩, ?_, rfl⟩
    simp only [List.nil_append, textCells, stays, false_and, ite_false, false_or, shown, dateCut, solid]
    exact List.mem_cons_self
  | cons first ahead ih =>
    rw [List.length_cons] at room few
    have stays : ¬ x.toNat + (11 : UInt8).toNat ≥ screenWidth := by
      change ¬ x.toNat + 11 ≥ screenWidth
      omega
    by_cases newline : first = '\n'
    · obtain ⟨cell, drawn, same⟩ := ih x i (by omega) (by omega)
      refine ⟨cell, ?_, same⟩
      simp only [List.cons_append, textCells, stays, false_and, ite_false, newline, or_true, ite_true]
      exact drawn
    · obtain ⟨next, passed, fewer⟩ : ∃ next, dateCut i first = some next ∧ next ≤ i + 1 := by
        unfold dateCut
        split
        · exact ⟨i + 1, if_neg (by omega), Nat.le_refl _⟩
        · exact ⟨i, rfl, Nat.le_succ i⟩
      have moved : (x + (11 : UInt8).toUInt16).toNat = x.toNat + 11 := by
        simp only [screenWidth, UInt16.toNat_add] at *
        change (x.toNat + 11) % 65536 = _
        omega
      obtain ⟨cell, drawn, same⟩ := ih (x + (11 : UInt8).toUInt16) next (by omega) (by omega)
      refine ⟨cell, ?_, same⟩
      simp only [List.cons_append, textCells, stays, false_and, ite_false, false_or, newline, passed]
      exact List.mem_cons_of_mem _ drawn

private theorem outside_of_undrawable {around : Int → Char} {now : Int} (fits : Fits 32 now)
    (late : 2 ^ 31 ≤ now + fixedTimezone * 3600)
    (before : now + fixedTimezone * 3600 ≤ 2 ^ 32 - 24855 * secondsPerDay) (undrawable : ¬ Drawable (front around)) :
    ¬ StaysInside around 32 now := by
  intro inside
  obtain ⟨ch, seen, hidden⟩ : ∃ ch ∈ (front around).takeWhile (· ≠ '\x00'),
      ¬ (ch = '\n' ∨ 32 ≤ ch.toNat ∧ ch.toNat ≤ 126) := by
    simpa only [Drawable, not_forall, exists_prop] using undrawable
  obtain ⟨printed, coded⟩ := not_or.mp hidden
  have solid : ch ≠ ' ' := by
    rintro rfl
    exact coded (by decide)
  obtain ⟨weekday, mon, -, -⟩ := lost_weekday fits late before
  obtain ⟨string, told⟩ : ∃ string, ctimeBytes around 32 now = some string := by
    rw [ctimeBytes, mon]
    exact ⟨_, rfl⟩
  obtain ⟨-, -, line, whole, -⟩ := lost_string fits late before told
  obtain ⟨ahead, behind, split⟩ := List.append_of_mem seen
  have short : ahead.length < 4 := by
    have most := (List.takeWhile_prefix (· ≠ '\x00') (l := front around)).length_le
    rw [split, List.length_append, List.length_cons] at most
    change _ ≤ 4 at most
    omega
  obtain ⟨rest, bytes⟩ : ∃ rest, string.takeWhile (· ≠ '\x00') = ahead ++ ch :: rest := by
    rw [whole, List.append_assoc, List.takeWhile_append]
    split
    next all =>
      have same := (List.takeWhile_prefix (· ≠ '\x00') (l := front around)).eq_of_length all
      rw [← same, split, List.append_assoc]
      exact ⟨_, rfl⟩
    next => exact ⟨behind, split⟩
  obtain ⟨cell, drawn, same⟩ := date_shows rest printed solid 65 120 0
    (show 65 + 11 * (ahead.length + 1) < 240 by omega) (by omega)
  rw [← bytes] at drawn
  let readings : Readings := ⟨itoa 0, string, itoa 0⟩
  have held :=
    inside [] ⟨false, {}, readings⟩ ⟨⟨0, rfl⟩, told, 0, rfl⟩ (dateCall string) (dateCall_drawn readings) cell drawn
  obtain ⟨low, high⟩ := held 0 (show 0 < 18 by decide)
  rw [same] at low high
  simp only [dateCall, Font.height, Font.tableLength, UInt8.reduceToNat] at low high
  exact coded ⟨by omega, by omega⟩

/-- The last entry of `__spm` and the padding behind it, which the compiler puts in front
of `days` when it keeps the order of the file. -/
def spmBytes (offset : Int) : Char := if offset = -4 then 'm' else if offset = -3 then '\x01' else '\x00'

/-- At 03:14:08 on January 19, 2038 the date begins with the 365 of `__spm`. -/
theorem reads_outside_in_2038 : ¬ ∀ (around : Int → Char) (bits : Nat) (now : Int), bits = 32 ∨ bits = 64 →
    Fits bits now → Era now → StaysInside around bits now := by
  intro always
  have inside := always spmBytes 32 2147454848 (by decide) (by decide) (by unfold Era; decide)
  exact outside_of_undrawable (by decide) (by decide) (by decide) (by decide) inside

/-- The rows read are in the tables at every time but those of weekday -1, and at those
when what happens to stand in front of `days` can be drawn. -/
theorem staysInside_iff (around : Int → Char) (bits : Nat) (now : Int) (width : bits = 32 ∨ bits = 64)
    (fits : Fits bits now) (era : Era now) : StaysInside around bits now ↔
      ¬ (bits = 32 ∧ 2 ^ 31 ≤ now + fixedTimezone * 3600 ∧
        now + fixedTimezone * 3600 ≤ 2 ^ 32 - 24855 * secondsPerDay) ∨ Drawable (front around) := by
  have silent := ctime_none_iff width fits era
  cases told : ctime bits now with
  | some text =>
    have outside := mt silent.mpr (told ▸ Option.some_ne_none text)
    exact iff_of_true (inside_of_told around width fits era told) (.inl outside)
  | none =>
    have lost := silent.mp told
    rw [or_iff_right (not_not_intro lost)]
    obtain ⟨rfl, late, before⟩ := lost
    exact ⟨not_imp_not.mp (outside_of_undrawable fits late before), inside_of_drawable fits late before⟩

theorem staysInside_iff_2038 : StaysInside spmBytes 32 1655188304 ∧ ¬ StaysInside spmBytes 32 2147454848 := by
  constructor
  · exact (staysInside_iff spmBytes 32 1655188304 (.inl rfl) (by decide) (by unfold Era; decide)).mpr (.inl (by decide))
  · exact mt (staysInside_iff spmBytes 32 2147454848 (.inl rfl) (by decide) (by unfold Era; decide)).mp (by decide)

end SmartWatch.Proofs.LostWeekday
