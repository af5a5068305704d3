import SmartWatch.Buffers
import SmartWatch.Proofs.Menus

/-! Which conversions stay in their arrays. Two bytes hold one digit and the zero
byte behind it, and the values that presses reach have up to two digits. -/

namespace SmartWatch.Proofs.Buffers
open CString Runs Buttons Menus

/-- Every byte of a conversion lands in its array, and every array drawn behind it
has a zero byte for `WriteString` to stop at. -/
def Contained (image : Image) (stored : Stored) : StoredEvent → Prop
  | .press _ => True
  | .showValues .. =>
    (∀ call ∈ conversion stored.globals, ∀ write ∈ itoaWrites image call.1 call.2, image.Inside call.2 write.1) ∧
      ∀ buffer ∈ shown stored.globals, (text (stored.converted image) (image.address buffer) buffer.capacity).isSome

instance (image : Image) (stored : Stored) (event : StoredEvent) : Decidable (Contained image stored event) := by
  cases event <;> unfold Contained <;> infer_instance

/-- The variable of the open menu, where it is converted, has one digit. -/
def Short (stored : Stored) : StoredEvent → Prop
  | .press _ => True
  | .showValues .. => ∀ call ∈ conversion stored.globals, call.1 < 10

def chars (strings : Strings) : Buffer → List Char
  | .hourStr => strings.hourStr
  | .minuteStr => strings.minuteStr
  | .secondStr => strings.secondStr
  | .dayStr => strings.dayStr

/-- Every array and what the linker leaves free behind it have this much room. -/
def Spaced (image : Image) (room : Nat) : Prop := ∀ one other, one ≠ other →
  image.address one + room ≤ image.address other ∨ image.address other + room ≤ image.address one

def Holds (image : Image) (room : Nat) (memory : Memory) (strings : Strings) : Prop :=
  ∀ buffer, text memory (image.address buffer) room = some (bytes (chars strings buffer))

/-- The same run with the strings `showValues` passes on. -/
structure Setting where
  g : Globals := {}
  strings : Strings := {}

def Setting.step (setting : Setting) : StoredEvent → Setting
  | .press button => { setting with g := press setting.g button }
  | .showValues themeChanged readings =>
    { setting with strings := (showValues themeChanged setting.g setting.strings readings).1 }

structure Related (image : Image) (room : Nat) (stored : Stored) (setting : Setting) : Prop where
  globals : stored.globals = setting.g
  valid : Consistent stored.globals
  holds : Holds image room stored.memory setting.strings

theorem capacity_eq (buffer : Buffer) : buffer.capacity = 2 := by cases buffer <;> rfl

theorem conversion_range {g : Globals} (valid : Consistent g) {call : Int × Buffer} (made : call ∈ conversion g) :
    0 ≤ call.1 ∧ call.1 ≤ 59 := by
  have range (field : Field) : 0 ≤ g.value field ∧ g.value field ≤ 59 := by
    have tracks := valid.fields field
    exact ⟨tracks.value_nonneg, Int.le_trans tracks.value_le (by cases field <;> decide)⟩
  unfold conversion at made
  split at made <;> cases made
  · exact range .hour
  · exact range .minute
  · exact range .second
  · exact range .day

theorem showMenu_chars (g : Globals) (strings : Strings) (readings : Readings) (buffer : Buffer) :
    chars (showMenu g strings readings).1 buffer = match conversion g with
      | none => chars strings buffer
      | some (value, other) => if buffer = other then itoa value else chars strings buffer := by
  unfold showMenu
  split
  next menu => simp only [conversion, menu]; cases buffer <;> rfl
  next menu => simp only [conversion, menu]; cases buffer <;> rfl
  next menu => simp only [conversion, menu]; cases buffer <;> rfl
  next menu => simp only [conversion, menu]
  next menu => simp only [conversion, menu]; cases buffer <;> rfl
  next => simp only [conversion, *]

theorem showMenu_shown (g : Globals) (one other : Strings) (readings : Readings)
    (same : ∀ buffer ∈ shown g, chars one buffer = chars other buffer) :
    (showMenu g one readings).2 = (showMenu g other readings).2 := by
  unfold shown at same
  split at same
  next menu => simp only [showMenu, menu, hourDraws]
  next menu =>
    have hour : one.hourStr = other.hourStr := same .hourStr List.mem_cons_self
    simp only [showMenu, menu, hourDraws, minuteDraws, hour]
  next menu =>
    have minute : one.minuteStr = other.minuteStr := same .minuteStr List.mem_cons_self
    simp only [showMenu, menu, minuteDraws, secondDraws, minute]
  next menu =>
    have second : one.secondStr = other.secondStr := same .secondStr List.mem_cons_self
    simp only [showMenu, menu, secondDraws, second]
  next menu => simp only [showMenu, menu, dayDraws]
  next => simp only [showMenu, *]

private theorem bytes_length (str : List Char) : (bytes str).length = str.length := List.length_map _

theorem bytes_solid (value : Int) : 0 ∉ bytes (itoa value) := by
  intro zero
  obtain ⟨ch, member, same⟩ := List.mem_map.mp zero
  have range := itoa_codes value ch member
  have code := congrArg UInt8.toNat same
  rw [UInt8.toNat_ofNat', UInt8.toNat_zero] at code
  omega

private theorem conversion_length {g : Globals} (valid : Consistent g) {call : Int × Buffer}
    (made : call ∈ conversion g) :
    (bytes (itoa call.1)).length = if call.1 < 10 then 1 else 2 := by
  obtain ⟨low, high⟩ := conversion_range valid made
  rw [bytes_length]
  exact (itoa_digits low (Int.le_trans high (by decide))).2

theorem Holds.converted {image : Image} {room : Nat} {stored : Stored} {strings : Strings}
    (spaced : Spaced image room) (holds : Holds image room stored.memory strings)
    (fit : ∀ call ∈ conversion stored.globals, (bytes (itoa call.1)).length < room) (readings : Readings) :
    Holds image room (stored.converted image) (showMenu stored.globals strings readings).1 := by
  intro buffer
  rw [showMenu_chars, Stored.converted]
  cases made : conversion stored.globals with
  | none => exact holds buffer
  | some call =>
    obtain ⟨value, other⟩ := call
    have length : (bytes (itoa value)).length < room := fit _ made
    dsimp only
    by_cases same : buffer = other
    · subst same
      rw [if_pos rfl, itoaWrites, text_stored _ _ _ (bytes_solid value), if_pos length]
    · rw [if_neg same, ← holds buffer]
      apply text_congr
      intro place low high
      have apart := spaced buffer other same
      exact put_outside _ _ _ (by rw [List.length_append, List.length_singleton]; omega)

theorem Related.press {image : Image} {room : Nat} {stored : Stored} {setting : Setting}
    (related : Related image room stored setting) (button : Button) :
    Related image room (stored.step image (.press button)) (setting.step (.press button)) :=
  ⟨congrArg (SmartWatch.press · button) related.globals, related.valid.press button, related.holds⟩

theorem Related.showValues {image : Image} {room : Nat} {stored : Stored} {setting : Setting}
    (spaced : Spaced image room) (related : Related image room stored setting)
    (fit : ∀ call ∈ conversion stored.globals, (bytes (itoa call.1)).length < room) (themeChanged : Bool)
    (readings : Readings) :
    Related image room (stored.step image (.showValues themeChanged readings))
      (setting.step (.showValues themeChanged readings)) := by
  obtain ⟨same, valid, holds⟩ := related
  have kept := holds.converted spaced fit readings
  rw [same] at kept
  exact ⟨same, valid, kept⟩

private theorem related_start (image : Image) {room : Nat} (some : 0 < room) :
    Related image room (.start image) {} := by
  refine ⟨rfl, initial, fun buffer => ?_⟩
  obtain ⟨room, rfl⟩ : ∃ left, room = left + 1 := ⟨room - 1, by omega⟩
  have zero : image.memory (image.address buffer) = 0 := image.cleared buffer 0 (by rw [capacity_eq]; decide)
  rw [text, Stored.start, if_pos zero]
  cases buffer <;> rfl

private theorem spaced_capacity (image : Image) : Spaced image 2 := by
  intro one other different
  have apart := image.apart one other different
  rwa [capacity_eq, capacity_eq] at apart

private theorem short_fits {stored : Stored} (valid : Consistent stored.globals)
    (short : ∀ call ∈ conversion stored.globals, call.1 < 10) :
    ∀ call ∈ conversion stored.globals, (bytes (itoa call.1)).length < 2 := by
  intro call made
  rw [conversion_length valid made, if_pos (short call made)]
  decide

private theorem Related.short_step {image : Image} {stored : Stored} {setting : Setting} {event : StoredEvent}
    (related : Related image 2 stored setting) (short : Short stored event) :
    Related image 2 (stored.step image event) (setting.step event) := by
  cases event with
  | press button => exact related.press button
  | showValues themeChanged readings =>
    exact related.showValues (spaced_capacity image) (short_fits related.valid short) themeChanged readings

private theorem contained_iff_short {image : Image} {stored : Stored} {setting : Setting}
    (related : Related image 2 stored setting) (event : StoredEvent) :
    Contained image stored event ↔ Short stored event := by
  cases event with
  | press button => exact Iff.rfl
  | showValues themeChanged readings =>
    constructor
    · intro contained call made
      have last := contained.1 call made _ (last_mem_writes (image.address call.2) (bytes (itoa call.1)) 0)
      have length := conversion_length related.valid made
      obtain ⟨-, inside⟩ := last
      rw [capacity_eq] at inside
      apply Decidable.byContradiction
      intro long
      rw [if_neg long] at length
      omega
    · intro short
      refine ⟨fun call made write written => ?_, fun buffer _ => ?_⟩
      · have length := conversion_length related.valid made
        rw [if_pos (short call made)] at length
        obtain ⟨low, high⟩ := mem_writes written
        rw [List.length_append, length, List.length_singleton] at high
        exact ⟨low, by rw [capacity_eq]; exact high⟩
      · have kept := related.holds.converted (spaced_capacity image) (short_fits related.valid short) readings buffer
        rw [capacity_eq, kept]
        rfl

/-- A number of two digits makes the byte behind its array zero and no other, and
leaves `WriteString` no end in the array. -/
theorem overflow_spec {image : Image} {stored : Stored} (valid : Consistent stored.globals) {value : Int}
    {buffer : Buffer} (made : conversion stored.globals = some (value, buffer)) (long : 10 ≤ value) :
    text (stored.converted image) (image.address buffer) buffer.capacity = none ∧
      ∀ place, ¬ image.Inside buffer place → stored.converted image place =
        if place = image.address buffer + buffer.capacity then 0 else stored.memory place := by
  have length := conversion_length valid made
  rw [if_neg (show ¬ value < 10 by omega)] at length
  simp only [Stored.converted, made, itoaWrites]
  refine ⟨?_, fun place outside => ?_⟩
  · rw [text_stored _ _ _ (bytes_solid value), if_neg (by rw [capacity_eq, length]; decide)]
  · unfold Image.Inside at outside
    rw [capacity_eq] at outside ⊢
    split
    next behind =>
      rw [behind, ← length]
      exact put_last _ _ _ _
    next other =>
      exact put_outside _ _ _ (by rw [List.length_append, length, List.length_singleton]; omega)

/-- While every conversion is short, the arrays hold the strings `showValues` passes on. -/
theorem short_run (image : Image) (events : List StoredEvent)
    (short : Steps (Stored.step image) Short (.start image) events) :
    Related image 2 (events.foldl (Stored.step image) (.start image)) (events.foldl Setting.step {}) :=
  foldl_related (Stored.step image) Setting.step Short (Related image 2)
    (fun _ _ _ related short => related.short_step short) (.start image) {} events (related_start image (by decide)) short

/-- With a byte free behind each array, as the alignment of arrays to words leaves
it, they and the bytes behind them hold the strings in every run. -/
theorem padded_run (image : Image) (padded : Spaced image 3) (events : List StoredEvent) :
    Related image 3 (events.foldl (Stored.step image) (.start image)) (events.foldl Setting.step {}) := by
  refine foldl_related (Stored.step image) Setting.step (fun _ _ => True) (Related image 3) ?_ (.start image) {} events
    (related_start image (by decide)) (steps_of_all _ (fun _ _ => trivial) _ _)
  intro stored setting event related _
  cases event with
  | press button => exact related.press button
  | showValues themeChanged readings =>
    refine related.showValues padded (fun call made => ?_) themeChanged readings
    rw [conversion_length related.valid made]
    split <;> decide

def sideBySide : Image where
  address
    | .hourStr => 0
    | .minuteStr => 2
    | .secondStr => 4
    | .dayStr => 6
  memory _ := 0
  apart one other different := by cases one <;> cases other <;> first | exact absurd rfl different | decide
  cleared _ _ _ := rfl

def hourTen : List StoredEvent := .press .select :: List.replicate 10 (.press .up) ++ [.showValues false ⟨[], [], []⟩]

/-- The third byte of `10` is behind `Hour_str`. -/
theorem ten_overflows : ¬ ∀ image events, Steps (Stored.step image) (Contained image) (.start image) events := by
  intro always
  exact absurd (always sideBySide hourTen) (by decide)

-- In the next menu the digit of minute 0 stands where the hour had its zero byte.
example : text ((hourTen ++ [StoredEvent.press .select, .showValues false ⟨[], [], []⟩]).foldl (Stored.step sideBySide)
    (.start sideBySide)).memory 0 4 = some (bytes "100".toList) := by decide

/-- In every run, all conversions and the strings drawn behind them stay in their
arrays exactly when no menu converts a variable that has reached 10. -/
theorem contained_iff (image : Image) (events : List StoredEvent) :
    Steps (Stored.step image) (Contained image) (.start image) events ↔
      Steps (Stored.step image) Short (.start image) events := by
  refine steps_congr (Stored.step image) (Contained image) Short (fun stored => ∃ setting, Related image 2 stored setting)
    ?_ ?_ (.start image) events ⟨{}, related_start image (by decide)⟩
  · rintro stored event ⟨setting, related⟩ contained
    exact ⟨_, related.short_step ((contained_iff_short related event).mp contained)⟩
  · rintro stored event ⟨setting, related⟩
    exact contained_iff_short related event

end SmartWatch.Proofs.Buffers
