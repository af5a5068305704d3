import SmartWatch.Face
import SmartWatch.Lib.Copying
import SmartWatch.Lib.Runs
import SmartWatch.Proofs.Ctime

/-! The time a pass of the base screen leaves on the screen is the time of one
`ctime` unless the buffer changes under the loop at both of its ends. -/

namespace SmartWatch.Proofs.Face
open Copying Runs Stamp Ctime

/-- The `HH:MM:SS` of the text of `ctime`. -/
def timeText (text : List Char) : List Char := (text.drop 11).take 8

def cellAt (index : Nat) (ch : Char) : Cell := ⟨UInt16.ofNat (40 + 20 * index), 60, ch⟩

/-- Where `RTC_ST7789_Time` draws the time on the base screen. -/
def timeCells (chars : List Char) : List Cell := chars.mapIdx cellAt

def penAt (index : Nat) : Pen := ⟨UInt16.ofNat (40 + 20 * index), 60, 11 + index⟩

/-- What the loop asks of a character of the time. -/
def Visible (ch : Char) : Prop := ch ≠ ' ' ∧ ch ≠ '\n'

instance (ch : Char) : Decidable (Visible ch) := inferInstanceAs (Decidable (_ ∧ _))

structure Stamped (text : List Char) : Prop where
  time : (timeText text).length = 8
  visible : ∀ ch ∈ timeText text, Visible ch
  year : text[19]? = some ' '

theorem fourChars_length {table chars : List Char} {index : Int} (found : fourChars table index = some chars) :
    chars.length = 4 := by
  unfold fourChars at found
  split at found
  next within =>
    cases found
    rw [List.length_take, List.length_drop]
    omega
  next => cases found

private theorem asctimeText_time {day month : List Char} (t : Tm) (four : day.length = 4) (more : month.length = 4) :
    timeText (asctimeText day month t) = num2str t.tmHour ++ [':'] ++ num2str t.tmMin ++ [':'] ++ num2str t.tmSec ∧
      (asctimeText day month t)[19]? = some ' ' := by
  obtain ⟨mday, padded, two⟩ : ∃ mday, mday = (if (num2str t.tmMday).head? = some '0' then ' ' :: (num2str t.tmMday).tail
      else num2str t.tmMday) ∧ mday.length = 2 := ⟨_, rfl, by split <;> rfl⟩
  obtain ⟨front, whole⟩ : ∃ front, front = day ++ month ++ mday ++ [' '] := ⟨_, rfl⟩
  have ahead : front.length = 11 := by
    simp only [whole, List.length_append, four, more, two, List.length_singleton]
  have parts : asctimeText day month t = front ++ (num2str t.tmHour ++ ([':'] ++ (num2str t.tmMin ++ ([':'] ++ (num2str t.tmSec ++
      ([' '] ++ (num2str ((t.tmYear + 1900).tdiv 100) ++ (num2str ((t.tmYear + 1900).tmod 100) ++ ['\n'])))))))) := by
    rw [whole, padded]
    simp only [asctimeText, List.append_assoc]
  rw [timeText, parts, List.drop_left' ahead, List.getElem?_append_right (by omega), ahead]
  exact ⟨rfl, rfl⟩

theorem stamped_of_codes {text : List Char} (codes : Codes 38 58 (timeText text)) (time : (timeText text).length = 8)
    (year : text[19]? = some ' ') : Stamped text := by
  refine ⟨time, fun ch member => ⟨?_, ?_⟩, year⟩
  · rintro rfl
    exact absurd (codes ' ' member).1 (by decide)
  · rintro rfl
    exact absurd (codes '\n' member).1 (by decide)

/-- The time is made of the characters from `&` to `:`, whatever `now` is and whatever
bytes the names in front of it are. -/
theorem asctimeText_stamped {day month : List Char} (bits : Nat) (now : Int) (four : day.length = 4)
    (more : month.length = 4) : Stamped (asctimeText day month (localtimeR bits now)) ∧
      Codes 38 58 (timeText (asctimeText day month (localtimeR bits now))) := by
  obtain ⟨time, year⟩ := asctimeText_time (localtimeR bits now) four more
  obtain ⟨hour, minute, second⟩ := localtimeR_clock bits now
  have colon : Codes 38 58 [':'] := by decide
  have two {i : Int} (within : i.natAbs ≤ 99) : Codes 38 58 (num2str i) := num2str_codes (by omega)
  have codes := ((((two hour).append colon).append (two minute)).append colon).append (two second)
  rw [← time] at codes
  exact ⟨stamped_of_codes codes (by rw [time]; rfl) year, codes⟩

private theorem ctime_parts {bits : Nat} {now : Int} {text : List Char} (written : ctime bits now = some text) :
    ∃ day month, day.length = 4 ∧ month.length = 4 ∧ asctimeText day month (localtimeR bits now) = text := by
  obtain ⟨day, dayChars, written⟩ := Option.bind_eq_some_iff.mp written
  obtain ⟨month, monthChars, written⟩ := Option.bind_eq_some_iff.mp written
  exact ⟨day, month, fourChars_length dayChars, fourChars_length monthChars, Option.some.inj written⟩

theorem ctime_codes {bits : Nat} {now : Int} {text : List Char} (written : ctime bits now = some text) :
    Codes 38 58 (timeText text) := by
  obtain ⟨day, month, four, more, rfl⟩ := ctime_parts written
  exact (asctimeText_stamped bits now four more).2

theorem ctime_stamped {bits : Nat} {now : Int} {text : List Char} (written : ctime bits now = some text) :
    Stamped text := by
  obtain ⟨day, month, four, more, rfl⟩ := ctime_parts written
  exact (asctimeText_stamped bits now four more).1

private theorem penAt_x {index : Nat} (within : index ≤ 8) : (penAt index).x.toNat = 40 + 20 * index := by
  change (40 + 20 * index) % 2 ^ 16 = _
  omega

theorem turn_draws {text : List Char} {index : Nat} {ch : Char} (stamped : Stamped text)
    (found : (timeText text)[index]? = some ch) :
    (penAt index).turn Font.clockFont.width Font.clockFont.height text = .draws (cellAt index ch) (penAt (index + 1)) := by
  obtain ⟨inside, same⟩ := List.getElem?_eq_some_iff.mp found
  have within : index < 8 := stamped.time ▸ inside
  have here : text[(penAt index).str]? = some ch := by
    rwa [timeText, List.getElem?_take_of_lt within, List.getElem?_drop] at found
  have visible := stamped.visible ch (same ▸ List.getElem_mem inside)
  have fits : ¬ (penAt index).x.toNat + Font.clockFont.width.toNat ≥ screenWidth := by
    rw [penAt_x (by omega)]
    change ¬ 40 + 20 * index + 20 ≥ 240
    omega
  simp only [Pen.turn, here, fits, if_false, false_and, false_or, visible.1, visible.2]
  have next : (penAt index).x + Font.clockFont.width.toUInt16 = (penAt (index + 1)).x := by
    apply UInt16.toNat_inj.mp
    rw [UInt16.toNat_add, penAt_x (by omega), penAt_x (by omega)]
    change (40 + 20 * index + 20) % 2 ^ 16 = _
    omega
  rw [next]
  rfl

theorem turn_ends {text : List Char} (stamped : Stamped text) :
    (penAt 8).turn Font.clockFont.width Font.clockFont.height text = .ends := by
  have here : text[(penAt 8).str]? = some ' ' := stamped.year
  simp only [Pen.turn, here]
  rfl

/-- What the loop draws from here on when the buffer stays as it is. -/
def restCells (text : List Char) (pen : Pen) : List Cell :=
  textCells (fun state ch => if ch = ' ' then none else some state) Font.clockFont.width Font.clockFont.height
    (text.drop pen.str) pen.x pen.y ()

theorem turn_cells (text : List Char) (pen : Pen) :
    restCells text pen = match pen.turn Font.clockFont.width Font.clockFont.height text with
      | .ends => []
      | .skips pen => restCells text pen
      | .draws cell pen => cell :: restCells text pen := by
  unfold restCells Pen.turn
  cases here : text[pen.str]? with
  | none => rw [List.drop_eq_nil_of_le (List.getElem?_eq_none_iff.mp here), textCells]
  | some ch =>
    obtain ⟨inside, same⟩ := List.getElem?_eq_some_iff.mp here
    rw [List.drop_eq_getElem_cons inside, same, textCells]
    dsimp only
    generalize (if pen.x.toNat + Font.clockFont.width.toNat ≥ screenWidth then 0 else pen.x) = x
    generalize (if pen.x.toNat + Font.clockFont.width.toNat ≥ screenWidth then pen.y + Font.clockFont.height.toUInt16
      else pen.y) = y
    split
    next => rfl
    next =>
      split
      next => rfl
      next => by_cases space : ch = ' ' <;> simp only [space, if_true, if_false]

/-- The pass under way, or the latest one, copies the time of the buffer. -/
structure Follows (bits : Nat) (face : Face) (copy : Copy Char) : Prop where
  drawn : face.drawn = timeCells copy.copied
  length : copy.text.length = 8
  within : copy.copied.length ≤ 8
  drawing : ∀ pen, face.pen = some pen → pen = penAt copy.copied.length ∧
    ∃ string, face.string = some string ∧ timeText string = copy.text
  ended : face.pen = none → copy.copied.length = 8
  held : ∀ text ∈ copy.seen, ∃ now ∈ face.held, ∃ string, ctime bits now = some string ∧ timeText string = text

/-- A pass with nothing between its turns, which is the routine as it is called
elsewhere, draws the time. -/
theorem cells_eq {text : List Char} (stamped : Stamped text) :
    Routine.rtcSt7789Time.cells Font.clockFont.width Font.clockFont.height 40 60 text = timeCells (timeText text) := by
  have rest : ∀ left index, left + index = 8 → restCells text (penAt index) =
      ((timeText text).drop index).mapIdx fun offset => cellAt (index + offset) := by
    intro left
    induction left with
    | zero =>
      rintro index same
      obtain rfl : index = 8 := by omega
      rw [turn_cells, turn_ends stamped, List.drop_eq_nil_of_le (Nat.le_of_eq stamped.time)]
      rfl
    | succ left ih =>
      intro index same
      have inside : index < (timeText text).length := by rw [stamped.time]; omega
      rw [turn_cells, turn_draws stamped (List.getElem?_eq_getElem inside), List.drop_eq_getElem_cons inside,
        List.mapIdx_cons]
      dsimp only
      rw [ih (index + 1) (by omega)]
      simp only [Nat.add_assoc, Nat.add_comm 1, Nat.add_zero]
  exact (rest 8 0 rfl).trans (by simp only [List.drop_zero, Nat.zero_add]; rfl)

/-- The time told by `text` begins with the characters drawn, or what it has
behind them is in the buffer already. -/
def Seamless (face : Face) (string text : List Char) : Prop :=
  (timeText text).take face.drawn.length = face.drawn.map Cell.ch ∨
    (timeText text).drop face.drawn.length = (timeText string).drop face.drawn.length

instance (face : Face) (string text : List Char) : Decidable (Seamless face string text) :=
  inferInstanceAs (Decidable (_ ∨ _))

/-- No change of the buffer during a pass spoils the pass. -/
def Kept (bits : Nat) (face : Face) : FaceEvent → Prop
  | .getValues now => face.pen.isSome → ∀ string ∈ face.string, ∀ text ∈ ctime bits now, Seamless face string text
  | _ => True

instance (bits : Nat) (face : Face) : (event : FaceEvent) → Decidable (Kept bits face event)
  | .getValues now => inferInstanceAs
      (Decidable (_ → ∀ string ∈ face.string, ∀ text ∈ ctime bits now, Seamless face string text))
  | .call => inferInstanceAs (Decidable True)
  | .turn => inferInstanceAs (Decidable True)

structure Sound (bits : Nat) (face : Face) : Prop where
  told : ∀ string, face.string = some string → ctime bits face.now = some string
  pass : face.pen = none ∧ face.held = [] ∨ ∃ copy, Follows bits face copy ∧ copy.Whole

theorem sound_start (bits : Nat) : Sound bits {} := ⟨nofun, .inl ⟨rfl, rfl⟩⟩

private theorem timeCells_chars (chars : List Char) : (timeCells chars).map Cell.ch = chars := by
  apply List.ext_getElem?
  intro index
  rw [List.getElem?_map, timeCells, List.getElem?_mapIdx, Option.map_map]
  cases chars[index]? <;> rfl

theorem Sound.getValues {bits : Nat} {face : Face} {now : Int} {string : List Char} (sound : Sound bits face)
    (kept : Kept bits face (.getValues now)) (told : ctime bits now = some string) :
    Sound bits { face with
      now, string := some string, held := if face.pen.isSome then now :: face.held else face.held } := by
  refine ⟨fun _ same => Option.some.inj same ▸ told, ?_⟩
  obtain ⟨away, fresh⟩ | ⟨copy, follows, whole⟩ := sound.pass
  · exact .inl ⟨away, by rw [away]; exact fresh⟩
  · refine .inr ?_
    cases drawing : face.pen with
    | none =>
      exact ⟨copy, ⟨follows.drawn, follows.length, follows.within, nofun, fun _ => follows.ended drawing, follows.held⟩, whole⟩
    | some pen =>
      obtain ⟨place, old, there, text⟩ := follows.drawing pen drawing
      have seamless : copy.Seamless (timeText string) := by
        have kept := kept (by rw [drawing]; rfl) old there string told
        rwa [Seamless, follows.drawn, timeCells_chars, text, timeCells, List.length_mapIdx] at kept
      refine ⟨copy.write (timeText string), ⟨follows.drawn, (ctime_stamped told).time, follows.within, ?_, nofun, ?_⟩,
        whole.write seamless⟩
      · intro _ same
        cases same
        exact ⟨place, string, rfl, rfl⟩
      · intro text member
        rcases List.mem_cons.mp member with rfl | member
        · exact ⟨now, List.mem_cons_self, string, told, rfl⟩
        · obtain ⟨now, held, string, told⟩ := follows.held text member
          exact ⟨now, List.mem_cons_of_mem _ held, string, told⟩

theorem Sound.call {bits : Nat} {face : Face} {string : List Char} (sound : Sound bits face)
    (there : face.string = some string) :
    Sound bits { face with pen := some ⟨40, 60, 11⟩, drawn := [], held := [face.now] } := by
  have told := sound.told string there
  refine ⟨sound.told, .inr ⟨Copy.start (timeText string), ⟨rfl, (ctime_stamped told).time, Nat.zero_le _, ?_, nofun, ?_⟩,
    Copy.start_whole _⟩⟩
  · intro _ same
    cases same
    exact ⟨rfl, string, there, rfl⟩
  · intro text member
    rw [List.mem_singleton.mp member]
    exact ⟨face.now, List.mem_singleton.mpr rfl, string, told, rfl⟩

theorem Sound.turn {bits : Nat} {face next : Face} (sound : Sound bits face)
    (taken : face.step bits .turn = some next) : Sound bits next := by
  obtain ⟨string, there, taken⟩ := Option.bind_eq_some_iff.mp taken
  obtain ⟨pen, drawing, taken⟩ := Option.bind_eq_some_iff.mp taken
  obtain ⟨away, _⟩ | ⟨copy, follows, whole⟩ := sound.pass
  · cases away.symm.trans drawing
  have stamped := ctime_stamped (sound.told string there)
  obtain ⟨rfl, _, same, text⟩ := follows.drawing pen drawing
  cases there.symm.trans same
  by_cases ended : copy.copied.length = 8
  · rw [ended, turn_ends stamped] at taken
    cases taken
    exact ⟨sound.told, .inr ⟨copy, ⟨follows.drawn, follows.length, follows.within, nofun, fun _ => ended, follows.held⟩, whole⟩⟩
  · have more := follows.within
    obtain ⟨ch, found⟩ : ∃ ch, copy.text[copy.copied.length]? = some ch :=
      ⟨_, List.getElem?_eq_getElem (by rw [follows.length]; omega)⟩
    rw [turn_draws stamped (by rw [text]; exact found)] at taken
    cases taken
    have copied : copy.read.copied = copy.copied ++ [ch] := by
      rw [Copy.read, found]
      rfl
    refine ⟨sound.told, .inr ⟨copy.read, ⟨?_, follows.length, ?_, ?_, nofun, follows.held⟩, whole.read⟩⟩
    · rw [copied, timeCells, List.mapIdx_append, follows.drawn]
      simp only [timeCells, List.mapIdx_cons, List.mapIdx_nil, Nat.zero_add]
    · rw [copied, List.length_append, List.length_singleton]
      omega
    · intro _ same
      cases same
      rw [copied, List.length_append, List.length_singleton]
      exact ⟨rfl, string, there, text⟩

theorem Sound.step {bits : Nat} {face next : Face} {event : FaceEvent} (sound : Sound bits face)
    (kept : Kept bits face event) (taken : face.step bits event = some next) : Sound bits next := by
  cases event with
  | getValues now =>
    obtain ⟨string, told, taken⟩ := Option.bind_eq_some_iff.mp taken
    cases taken
    exact sound.getValues kept told
  | call =>
    simp only [Face.step] at taken
    split at taken
    next => cases taken
    next free =>
      cases taken
      cases there : face.string with
      | none => exact absurd (.inr (by rw [there]; rfl)) free
      | some string => exact there ▸ sound.call there
  | turn => exact sound.turn taken

/-- The cells of the pass that has just ended are the time of one `ctime` the
buffer has held during the pass. -/
def OneTime (bits : Nat) (face : Face) : Prop :=
  ∃ now ∈ face.held, ∃ text ∈ ctime bits now, face.drawn = timeCells (timeText text)

instance (bits : Nat) (face : Face) : Decidable (OneTime bits face) :=
  inferInstanceAs (Decidable (∃ now ∈ face.held, ∃ text ∈ ctime bits now, _))

/-- A pass that begins at 08:00:09 and has drawn all but the last character when
the buffer is set to 08:00:10 leaves 08:00:00. -/
theorem second_is_torn : ¬ ∀ events final, run (Face.step 32) {} events = some final →
    final.pen = none → final.held ≠ [] → OneTime 32 final := by
  intro always
  have whole := always ([.getValues 9, .call] ++ List.replicate 7 .turn ++ [.getValues 10, .turn, .turn])
    { now := 10, string := some "Thu Jan  1 08:00:10 1970\n".toList, drawn := timeCells "08:00:00".toList, held := [10, 9] }
    (by decide) rfl (by decide)
  exact absurd whole (by decide)

/-- In every run in which the buffer never changes under a pass both in what the
pass has drawn and in what it has still to draw, each pass leaves the time of one
`ctime` that the buffer has held since the pass began. -/
theorem whole_if_kept {bits : Nat} {events : List FaceEvent} {final : Face}
    (kept : Taken (Face.step bits) (Kept bits) {} events) (reached : run (Face.step bits) {} events = some final)
    (away : final.pen = none) (passed : final.held ≠ []) : OneTime bits final := by
  have sound := run_guarded (Kept bits) (Sound bits) (fun _ _ _ sound kept taken => sound.step kept taken)
    (sound_start bits) kept reached
  obtain ⟨_, fresh⟩ | ⟨copy, follows, whole⟩ := sound.pass
  · exact absurd fresh passed
  · have complete := whole.complete (Nat.le_of_eq (follows.length.trans (follows.ended away).symm))
    obtain ⟨now, held, string, told, text⟩ := follows.held copy.copied complete
    exact ⟨now, held, string, told, by rw [text]; exact follows.drawn⟩

/-- The second changes behind the first character, and not in the tens. -/
theorem whole_if_kept_8 : OneTime 32
    { now := 8, string := some "Thu Jan  1 08:00:08 1970\n".toList, drawn := timeCells "08:00:08".toList, held := [8, 7] } :=
  have reached : run (Face.step 32) {} ([.getValues 7, .call, .turn, .getValues 8] ++ List.replicate 8 .turn) = some _ := by
    decide
  whole_if_kept (by decide) reached rfl (by decide)

end SmartWatch.Proofs.Face
