import Besra.Time

/-!
Dates as they are written: components in any order, with separators between them. What a
date means comes from its components and the calendar, and not from how it is parsed.
-/
namespace Besra.DateLayout
open Lwc NsurlParse CText Calendar Time

/-- A component of a date. Weekdays, months and the listed zones come by their place in the lists of names. -/
inductive Item where
  | weekday (i : Nat) (long : Bool)
  | month (i : Nat)
  | day (d : Nat)
  /-- A year of one or two digits. -/
  | shortYear (y : Nat)
  | longYear (y : Nat)
  /-- Eight digits. -/
  | date (y m d : Nat)
  | time (h m : Nat) (s : Option Nat)
  | zone (i : Nat)
  /-- A sign and four digits for hours and minutes. -/
  | offset (east : Bool) (v : Nat)
deriving DecidableEq

def zoneName (i : Nat) : List UInt8 := (timezones.getD i ([], 0)).1

def zoneMins (i : Nat) : Int := (timezones.getD i ([], 0)).2

def weekdayName (i : Nat) (long : Bool) : List UInt8 := (if long then weekdaysLong else weekdaysShort).getD i []

def Item.InRange : Item → Prop
  | .weekday i _ => i < 7
  | .month i => i < 12
  | .day d => 1 ≤ d ∧ d ≤ 31
  | .shortYear y => y < 100
  | .longYear y => y < 10000
  | .date y m d => y < 10000 ∧ (1 ≤ m ∧ m ≤ 12) ∧ 1 ≤ d ∧ d ≤ 31
  | .time h m s => h ≤ 23 ∧ m ≤ 59 ∧ s.getD 0 ≤ 60
  | .zone i => i < timezones.length
  | .offset _ v => v ≤ 1400

def Digits (n length : Nat) (word : List UInt8) : Prop :=
  word.length = length ∧ (∀ c ∈ word, isDigit c = true) ∧ decimalValue word = n

def Item.Written (word : List UInt8) : Item → Prop
  | .weekday i long => insensitive word = insensitive (weekdayName i long)
  | .month i => insensitive word = insensitive (months.getD i [])
  | .day d => Digits d 1 word ∨ Digits d 2 word
  | .shortYear y => Digits y 1 word ∨ Digits y 2 word
  | .longYear y => Digits y 4 word
  | .date y m d => Digits (y * 10000 + m * 100 + d) 8 word
  | .time h m none => ∃ hh mm, Digits h 2 hh ∧ Digits m 2 mm ∧ word = hh ++ ch ':' :: mm
  | .time h m (some s) =>
    ∃ hh mm ss, Digits h 2 hh ∧ Digits m 2 mm ∧ Digits s 2 ss ∧ word = hh ++ ch ':' :: (mm ++ ch ':' :: ss)
  | .zone i => insensitive word = insensitive (zoneName i)
  | .offset east v => ∃ digits, Digits v 4 digits ∧ word = (if east then ch '+' else ch '-') :: digits

def Separator (c : UInt8) : Prop := isAlpha c = false ∧ isDigit c = false ∧ c ≠ ch ':'

instance (c : UInt8) : Decidable (Separator c) := inferInstanceAs (Decidable (_ ∧ _))

def Item.Follows (gap : List UInt8) : Item → Prop
  | .longYear y => (∃ c ∈ gap.getLast?, isSign c = true) → 1400 < y
  | _ => True

/-- A string with these components. -/
inductive Spelled : List Item → List UInt8 → Prop
  | done {gap : List UInt8} (separators : ∀ c ∈ gap, Separator c) : Spelled [] gap
  | item {it : Item} {items : List Item} {gap word rest : List UInt8} (separators : ∀ c ∈ gap, Separator c)
      (written : it.Written word) (follows : it.Follows gap) (next : ∀ c ∈ rest.head?, Separator c)
      (spelled : Spelled items rest) : Spelled (it :: items) (gap ++ (word ++ rest))

def Item.weekdayOf : Item → Option Nat
  | .weekday i _ => some i
  | _ => none

def Item.yearOf : Item → Option Nat
  | .shortYear y => some (if 70 < y then 1900 + y else 2000 + y)
  | .longYear y => some y
  | .date y _ _ => some y
  | _ => none

def Item.monthOf : Item → Option Nat
  | .month i => some i
  | .date _ m _ => some (m - 1)
  | _ => none

def Item.dayOf : Item → Option Nat
  | .day d => some (d - 1)
  | .date _ _ d => some (d - 1)
  | _ => none

def Item.timeOf : Item → Option (Nat × Nat × Nat)
  | .time h m s => some (h, m, s.getD 0)
  | _ => none

def Item.offsetOf : Item → Option Int
  | .zone i => some (zoneMins i)
  | .offset east v => some (if east then -((v / 100 * 60 + v % 100 : Nat) : Int) else ((v / 100 * 60 + v % 100 : Nat) : Int))
  | _ => none

/-- The layouts of a date: a year, a month, a day, and a weekday, a time and a zone that may be missing. A year of two
digits comes after the day, if it may be a day. -/
structure Accepted (items : List Item) : Prop where
  inRange : ∀ it ∈ items, it.InRange
  year : ∃ y, items.filterMap Item.yearOf = [y]
  month : ∃ m, items.filterMap Item.monthOf = [m]
  day : ∃ d, items.filterMap Item.dayOf = [d]
  weekday : (items.filterMap Item.weekdayOf).length ≤ 1
  time : (items.filterMap Item.timeOf).length ≤ 1
  offset : (items.filterMap Item.offsetOf).length ≤ 1
  ordered : ∀ before y after, items = before ++ .shortYear y :: after →
    before.filterMap Item.dayOf ≠ [] ∨ y = 0 ∨ 31 < y

def dateOf (items : List Item) : Date where
  year := (items.filterMap Item.yearOf).headD 0
  month := (items.filterMap Item.monthOf).headD 0
  day := (items.filterMap Item.dayOf).headD 0

def timeOf (items : List Item) : Nat × Nat × Nat := (items.filterMap Item.timeOf).headD (0, 0, 0)

def offsetOf (items : List Item) : Int := (items.filterMap Item.offsetOf).headD 0

def seconds (date : Date) (time : Nat × Nat × Nat) (offset : Int) : Int :=
  (((((date.number : Int) - daysBeforeYear 1970) * 24 + time.1) * 60 + time.2.1 + offset) * 60) + time.2.2

def meaning (items : List Item) : Int := seconds (dateOf items) (timeOf items) (offsetOf items)

end Besra.DateLayout
