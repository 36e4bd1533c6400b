import Mathlib.Order.Basic

/-!
The proleptic Gregorian calendar. Years, and the months and days in them, are counted from
zero on; the number of a day is how many days are before it since the first of the year zero.
-/
namespace Besra.Calendar

def isLeap (year : Nat) : Bool := year % 4 = 0 && (year % 100 ≠ 0 || year % 400 = 0)

def yearDays (year : Nat) : Nat := if isLeap year then 366 else 365

def monthDays (year : Nat) : Nat → Nat
  | 1 => if isLeap year then 29 else 28
  | 3 | 5 | 8 | 10 => 30
  | _ => 31

def daysBeforeYear : Nat → Nat
  | 0 => 0
  | year + 1 => daysBeforeYear year + yearDays year

def daysBeforeMonth (year : Nat) : Nat → Nat
  | 0 => 0
  | month + 1 => daysBeforeMonth year month + monthDays year month

/-- A date of the calendar. -/
structure Date where
  year : Nat
  month : Nat
  day : Nat
deriving DecidableEq

def Date.Valid (d : Date) : Prop := d.month < 12 ∧ d.day < monthDays d.year d.month

instance (d : Date) : Decidable d.Valid := inferInstanceAs (Decidable (_ ∧ _))

def Date.number (d : Date) : Nat := daysBeforeYear d.year + daysBeforeMonth d.year d.month + d.day

theorem daysBeforeYear_succ (year : Nat) :
    daysBeforeYear (year + 1) + year / 100 = 365 * (year + 1) + year / 4 + year / 400 + 1 := by
  induction year with
  | zero => rfl
  | succ year ih =>
    have century : (year + 1) % 400 = 0 → (year + 1) % 100 = 0 := by omega
    have fourth : (year + 1) % 100 = 0 → (year + 1) % 4 = 0 := by omega
    rw [daysBeforeYear, yearDays]
    simp only [Nat.succ_div, Nat.dvd_iff_mod_eq_zero, isLeap, Bool.and_eq_true, Bool.or_eq_true, decide_eq_true_eq]
    split_ifs <;> simp_all <;> omega

theorem daysBeforeMonth_year (year : Nat) : daysBeforeMonth year 12 = yearDays year := by
  simp only [daysBeforeMonth, monthDays, yearDays]
  split <;> rfl

theorem monthDays_leap (year month : Nat) :
    monthDays year month = monthDays 1 month + (if isLeap year ∧ month = 1 then 1 else 0) := by
  by_cases february : month = 1
  · subst february
    by_cases leap : isLeap year = true
    · simp only [monthDays, leap]
      decide
    · simp only [monthDays, leap]
      decide
  · rw [if_neg (fun both => february both.2), Nat.add_zero]
    unfold monthDays
    split
    · exact absurd rfl february
    all_goals rfl

theorem daysBeforeMonth_leap (year month : Nat) :
    daysBeforeMonth year month = daysBeforeMonth 1 month + (if isLeap year ∧ 1 < month then 1 else 0) := by
  induction month with
  | zero => rw [if_neg (fun both => absurd both.2 (by decide))]; rfl
  | succ month ih =>
    rw [daysBeforeMonth, daysBeforeMonth, ih, monthDays_leap year month]
    by_cases leap : isLeap year = true
    · simp only [leap, true_and]
      split <;> split <;> split <;> omega
    · simp only [leap, false_and, if_false, Bool.false_eq_true, Nat.add_zero]

def splitYear : Nat → Nat → Nat → Nat × Nat
  | 0, year, days => (year, days)
  | fuel + 1, year, days => if days < yearDays year then (year, days) else splitYear fuel (year + 1) (days - yearDays year)

def splitMonth (year : Nat) : Nat → Nat → Nat → Nat × Nat
  | 0, month, days => (month, days)
  | fuel + 1, month, days =>
    if days < monthDays year month then (month, days) else splitMonth year fuel (month + 1) (days - monthDays year month)

def dateFrom (year days : Nat) : Date :=
  let (year, days) := splitYear days year days
  let (month, days) := splitMonth year 11 0 days
  { year, month, day := days }

theorem yearDays_pos (year : Nat) : 0 < yearDays year := by
  unfold yearDays
  split <;> decide

theorem splitYear_spec :
    ∀ (fuel year days : Nat), days ≤ fuel →
      daysBeforeYear (splitYear fuel year days).1 + (splitYear fuel year days).2 = daysBeforeYear year + days ∧
        (splitYear fuel year days).2 < yearDays (splitYear fuel year days).1 ∧ year ≤ (splitYear fuel year days).1
  | 0, year, days, enough => by
    obtain rfl := Nat.le_zero.mp enough
    exact ⟨rfl, yearDays_pos year, Nat.le_refl _⟩
  | fuel + 1, year, days, enough => by
    have pos := yearDays_pos year
    unfold splitYear
    split
    next inside => exact ⟨rfl, inside, Nat.le_refl _⟩
    next after =>
      obtain ⟨same, inside, later⟩ := splitYear_spec fuel (year + 1) (days - yearDays year) (by omega)
      refine ⟨same.trans ?_, inside, Nat.le_of_succ_le later⟩
      rw [daysBeforeYear]
      omega

theorem splitMonth_spec (year : Nat) :
    ∀ (fuel month days : Nat), month + fuel = 11 → days + daysBeforeMonth year month < yearDays year →
      daysBeforeMonth year (splitMonth year fuel month days).1 + (splitMonth year fuel month days).2 =
          daysBeforeMonth year month + days ∧
        (splitMonth year fuel month days).2 < monthDays year (splitMonth year fuel month days).1 ∧
        (splitMonth year fuel month days).1 < 12
  | 0, month, days, last, inside => by
    obtain rfl : month = 11 := last
    have whole := daysBeforeMonth_year year
    rw [daysBeforeMonth] at whole
    refine ⟨rfl, ?_, Nat.lt_succ_self 11⟩
    show days < monthDays year 11
    omega
  | fuel + 1, month, days, last, inside => by
    unfold splitMonth
    split
    next here => exact ⟨rfl, here, by dsimp only; omega⟩
    next after =>
      have step : daysBeforeMonth year (month + 1) = daysBeforeMonth year month + monthDays year month := rfl
      obtain ⟨same, here, low⟩ :=
        splitMonth_spec year fuel (month + 1) (days - monthDays year month) (by omega) (by omega)
      exact ⟨same.trans (by omega), here, low⟩

theorem dateFrom_spec (year days : Nat) :
    (dateFrom year days).Valid ∧ (dateFrom year days).number = daysBeforeYear year + days ∧
      year ≤ (dateFrom year days).year := by
  obtain ⟨years, inside, later⟩ := splitYear_spec days year days (Nat.le_refl _)
  obtain ⟨months, here, low⟩ := splitMonth_spec (splitYear days year days).1 11 0 (splitYear days year days).2 rfl inside
  refine ⟨⟨low, here⟩, ?_, later⟩
  simp only [dateFrom, Date.number]
  rw [Nat.add_assoc, months, daysBeforeMonth, Nat.zero_add]
  exact years

end Besra.Calendar
