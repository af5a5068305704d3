/-! Dates of the Gregorian calendar and their numbers, counted in days from
1970-01-01. The number of a year's first day is a closed form; it steps by the
length of the year, so that a day number determines its year and day of year. -/

namespace Civil

def leap (year : Int) : Bool := year % 4 = 0 && (year % 100 ≠ 0 || year % 400 = 0)

def yearLength (year : Int) : Int := if leap year then 366 else 365

def monthLength (year : Int) (month : Nat) : Int :=
  if month = 2 then (if leap year then 29 else 28)
  else if month = 4 ∨ month = 6 ∨ month = 9 ∨ month = 11 then 30
  else 31

/-- Leap years among the years before `year`, up to a constant. -/
def leapsBefore (year : Int) : Int := (year - 1) / 4 - (year - 1) / 100 + (year - 1) / 400

/-- Number of January 1 of the year. -/
def yearStart (year : Int) : Int := 365 * (year - 1970) + leapsBefore year - leapsBefore 1970

/-- Days of the year before the month that follows its first `months` months. -/
def monthStart (year : Int) : Nat → Int
  | 0 => 0
  | months + 1 => monthStart year months + monthLength year (months + 1)

structure Date where
  year : Int
  month : Nat
  day : Int
deriving DecidableEq, Repr

structure Date.Valid (date : Date) : Prop where
  month : 1 ≤ date.month ∧ date.month ≤ 12
  day : 1 ≤ date.day ∧ date.day ≤ monthLength date.year date.month

instance (date : Date) : Decidable date.Valid :=
  decidable_of_iff ((1 ≤ date.month ∧ date.month ≤ 12) ∧ 1 ≤ date.day ∧ date.day ≤ monthLength date.year date.month)
    ⟨fun both => ⟨both.1, both.2⟩, fun valid => ⟨valid.month, valid.day⟩⟩

def Date.dayOfYear (date : Date) : Int := monthStart date.year (date.month - 1) + date.day - 1

def Date.number (date : Date) : Int := yearStart date.year + date.dayOfYear

/-- 1970-01-01 was a Thursday; Sunday is 0. -/
def weekday (number : Int) : Int := (number + 4) % 7

theorem yearStart_1970 : yearStart 1970 = 0 := by decide

theorem yearStart_succ (year : Int) : yearStart (year + 1) = yearStart year + yearLength year := by
  simp only [yearStart, leapsBefore, yearLength, leap, Bool.and_eq_true, Bool.or_eq_true, decide_eq_true_eq]
  split <;> omega

theorem yearLength_pos (year : Int) : 365 ≤ yearLength year := by
  unfold yearLength
  split <;> omega

theorem yearStart_add (year : Int) (years : Nat) : yearStart year + 365 * years ≤ yearStart (year + years) := by
  induction years with
  | zero => simp
  | succ years ih =>
    have step := yearStart_succ (year + years)
    have long := yearLength_pos (year + years)
    rw [show year + (years + 1 : Nat) = year + years + 1 by omega]
    omega

theorem yearStart_mono {first last : Int} (before : first ≤ last) : yearStart first ≤ yearStart last := by
  obtain ⟨years, rfl⟩ := Int.le.dest before
  have := yearStart_add first years
  omega

theorem year_lt_of_start {first last : Int} (before : yearStart first < yearStart last) : first < last := by
  have := @yearStart_mono last first
  omega

theorem year_unique {first last : Int} (number : Int)
    (inFirst : yearStart first ≤ number ∧ number < yearStart (first + 1))
    (inLast : yearStart last ≤ number ∧ number < yearStart (last + 1)) : first = last := by
  have low : first < last + 1 := year_lt_of_start (by omega)
  have high : last < first + 1 := year_lt_of_start (by omega)
  omega

theorem monthLength_pos (year : Int) (month : Nat) : 28 ≤ monthLength year month := by
  unfold monthLength
  split
  · split <;> omega
  · split <;> omega

theorem monthLength_le (year : Int) (month : Nat) : monthLength year month ≤ 31 := by
  unfold monthLength
  split
  · split <;> omega
  · split <;> omega

theorem monthStart_year (year : Int) : monthStart year 12 = yearLength year := by
  unfold yearLength
  cases leaps : leap year <;> simp [monthStart, monthLength, leaps]

theorem monthStart_mono (year : Int) {first last : Nat} (before : first ≤ last) :
    monthStart year first ≤ monthStart year last := by
  induction before with
  | refl => exact Int.le_refl _
  | @step last before ih =>
    have := monthLength_pos year (last + 1)
    simp only [monthStart]
    omega

theorem month_unique (year : Int) {first last : Nat} (day : Int)
    (inFirst : monthStart year first ≤ day ∧ day < monthStart year (first + 1))
    (inLast : monthStart year last ≤ day ∧ day < monthStart year (last + 1)) : first = last := by
  have low : ¬ last + 1 ≤ first := fun before => by
    have := monthStart_mono year before
    omega
  have high : ¬ first + 1 ≤ last := fun before => by
    have := monthStart_mono year before
    omega
  omega

theorem Date.Valid.dayOfYear_bounds {date : Date} (valid : date.Valid) :
    0 ≤ date.dayOfYear ∧ date.dayOfYear < yearLength date.year := by
  obtain ⟨⟨low, high⟩, first, last⟩ := valid
  obtain ⟨months, same⟩ : ∃ months, date.month = months + 1 := ⟨date.month - 1, by omega⟩
  have start := monthStart_mono date.year (Nat.zero_le months)
  have stop := monthStart_mono date.year (show months + 1 ≤ 12 by omega)
  rw [monthStart_year] at stop
  rw [same] at last
  simp only [monthStart] at start stop
  simp only [dayOfYear, same, Nat.add_sub_cancel]
  omega

theorem Date.Valid.unique {first last : Date} (fine : first.Valid) (good : last.Valid)
    (same : first.number = last.number) : first = last := by
  have inFirst := fine.dayOfYear_bounds
  have inLast := good.dayOfYear_bounds
  have years : first.year = last.year := by
    apply year_unique first.number
    · rw [yearStart_succ]
      unfold number
      omega
    · rw [same, yearStart_succ]
      unfold number
      omega
  obtain ⟨year, month, day⟩ := first
  obtain ⟨_, other, last⟩ := last
  cases years
  obtain ⟨⟨low, high⟩, begins, ends⟩ := fine
  obtain ⟨⟨otherLow, otherHigh⟩, otherBegins, otherEnds⟩ := good
  obtain ⟨months, rfl⟩ : ∃ months, month = months + 1 := ⟨month - 1, by simp only at low; omega⟩
  obtain ⟨others, rfl⟩ : ∃ others, other = others + 1 := ⟨other - 1, by simp only at otherLow; omega⟩
  simp only [number, dayOfYear, Nat.add_sub_cancel] at same
  simp only at begins ends otherBegins otherEnds
  have months_eq : months = others := by
    apply month_unique year (monthStart year months + day - 1)
    · simp only [monthStart]
      omega
    · simp only [monthStart]
      omega
  subst months_eq
  have days : day = last := by omega
  rw [days]

end Civil
