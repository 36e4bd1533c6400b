import Mathlib

/-!
The fixed-point arithmetic of `fpmath.h`. A `css_fixed` is a 32-bit number of 1/1024ths; sums and differences wrap
around as on the machines that their overflow tests are written for.
-/
namespace Besra.FixedPoint

abbrev CssFixed := Int32

/-- What both overflow tests put in: the sign bit of `x`, moved down, and `INT_MAX`. -/
def overflowed (x : CssFixed) : CssFixed := (x >>> 31) + 2147483647

/-- `css_add_fixed` -/
def addFixed (x y : CssFixed) : CssFixed :=
  let res := x + y
  if 0 ≤ (overflowed x ^^^ y) ||| ~~~(y ^^^ res) then overflowed x else res

/-- `css_subtract_fixed` -/
def subtractFixed (x y : CssFixed) : CssFixed :=
  let res := x - y
  if (overflowed x ^^^ y) &&& (overflowed x ^^^ res) < 0 then overflowed x else res

/-- The two comparisons with `INT_MIN` and `INT_MAX` at the end of products and quotients. -/
def limit (xx : Int64) : CssFixed :=
  let xx := if xx < -2147483648 then -2147483648 else xx
  let xx := if 2147483647 < xx then 2147483647 else xx
  xx.toInt32

/-- `css_divide_fixed`, of a `y` that is not 0 -/
def divideFixed (x y : CssFixed) : CssFixed := limit (x.toInt64 * 1024 / y.toInt64)

/-- `css_multiply_fixed` -/
def multiplyFixed (x y : CssFixed) : CssFixed := limit ((x.toInt64 * y.toInt64) >>> 10)

def clamp (n : Int) : Int := max (-2 ^ 31) (min (2 ^ 31 - 1) n)

def Fits (n : Int) : Prop := -2 ^ 31 ≤ n ∧ n < 2 ^ 31

instance (n : Int) : Decidable (Fits n) := inferInstanceAs (Decidable (_ ∧ _))

theorem fits_toInt (x : Int32) : Fits x.toInt := ⟨x.le_toInt, x.toInt_lt⟩

theorem clamp_of_fits {n : Int} (fits : Fits n) : clamp n = n := by
  obtain ⟨lower, upper⟩ := fits
  unfold clamp
  omega

theorem bmod_cases {n : Int} (lower : -2 ^ 32 ≤ n) (upper : n < 2 ^ 32) :
    n < -2 ^ 31 ∧ n.bmod (2 ^ 32) = n + 2 ^ 32 ∨ Fits n ∧ n.bmod (2 ^ 32) = n ∨
      2 ^ 31 ≤ n ∧ n.bmod (2 ^ 32) = n - 2 ^ 32 := by
  unfold Fits
  rw [Int.bmod_def]
  omega

def negative (x : Int32) : Bool := x.toBitVec.msb

theorem negative_iff (x : Int32) : negative x = true ↔ x.toInt < 0 := by
  rw [← Int32.toInt_toBitVec, BitVec.toInt_neg_iff]
  exact BitVec.msb_eq_true_iff_two_mul_ge

theorem negative_eq_decide (x : Int32) : negative x = decide (x.toInt < 0) := by
  rw [Bool.eq_iff_iff, negative_iff, decide_eq_true_iff]

theorem lt_zero_iff (x : Int32) : x < 0 ↔ negative x = true := by
  rw [Int32.lt_iff_toInt_lt, negative_iff, Int32.toInt_zero]

theorem zero_le_iff (x : Int32) : 0 ≤ x ↔ negative x = false := by
  rw [← Int32.not_lt, lt_zero_iff, Bool.not_eq_true]

@[simp] theorem negative_xor (x y : Int32) : negative (x ^^^ y) = (negative x ^^ negative y) := by
  simp [negative]

@[simp] theorem negative_or (x y : Int32) : negative (x ||| y) = (negative x || negative y) := by
  simp [negative]

@[simp] theorem negative_and (x y : Int32) : negative (x &&& y) = (negative x && negative y) := by
  simp [negative]

@[simp] theorem negative_not (x : Int32) : negative (~~~x) = !negative x := by
  simp [negative]

theorem toInt_shiftRight_sign (x : Int32) : (x >>> 31).toInt = if x.toInt < 0 then -1 else 0 := by
  have shifted : (x >>> 31).toInt = x.toInt / 2 ^ 31 := by
    rw [← Int32.toInt_toBitVec, Int32.toBitVec_shiftRight]
    have places : ((31 : Int32).toBitVec.smod 32) = 31 := by decide
    rw [places, BitVec.sshiftRight_eq', BitVec.toInt_sshiftRight, Int.shiftRight_eq_div_pow]
    rfl
  have := fits_toInt x
  unfold Fits at this
  rw [shifted]
  split <;> omega

theorem toInt_overflowed (x : CssFixed) : (overflowed x).toInt = if x.toInt < 0 then 2 ^ 31 - 2 else 2 ^ 31 - 1 := by
  have sum : (overflowed x).toInt = ((x >>> 31).toInt + (2 ^ 31 - 1)).bmod (2 ^ 32) := by
    rw [overflowed, Int32.toInt_add]
    rfl
  rw [sum, toInt_shiftRight_sign]
  split <;> rfl

theorem negative_overflowed (x : CssFixed) : negative (overflowed x) = false := by
  rw [negative_eq_decide, toInt_overflowed]
  split <;> simp

theorem addFixed_eq (x y : CssFixed) :
    addFixed x y = if 0 ≤ y.toInt ∧ (x + y).toInt < 0 then overflowed x else x + y := by
  have test : 0 ≤ (overflowed x ^^^ y) ||| ~~~(y ^^^ (x + y)) ↔ 0 ≤ y.toInt ∧ (x + y).toInt < 0 := by
    rw [zero_le_iff, ← negative_iff (x + y), ← not_lt, ← negative_iff y]
    cases sign : negative y <;> simp [negative_overflowed, sign]
  simp only [addFixed, test]

theorem subtractFixed_eq (x y : CssFixed) :
    subtractFixed x y = if y.toInt < 0 ∧ (x - y).toInt < 0 then overflowed x else x - y := by
  have test : (overflowed x ^^^ y) &&& (overflowed x ^^^ (x - y)) < 0 ↔ y.toInt < 0 ∧ (x - y).toInt < 0 := by
    rw [lt_zero_iff, ← negative_iff (x - y), ← negative_iff y]
    simp [negative_overflowed]
  simp only [subtractFixed, test]

/-- When `css_add_fixed` gives the sum, limited to 32 bits. -/
def AddSaturates (x y : Int) : Prop := 0 ≤ x ∨ 0 ≤ y ∧ 0 ≤ x + y ∨ y < 0 ∧ -2 ^ 31 ≤ x + y

/-- When `css_subtract_fixed` gives the difference, limited to 32 bits. -/
def SubtractSaturates (x y : Int) : Prop := 0 ≤ x ∨ y < 0 ∧ y ≤ x ∨ 0 ≤ y ∧ -2 ^ 31 ≤ x - y

instance (x y : Int) : Decidable (AddSaturates x y) := inferInstanceAs (Decidable (_ ∨ _))

instance (x y : Int) : Decidable (SubtractSaturates x y) := inferInstanceAs (Decidable (_ ∨ _))

theorem addFixed_iff (x y : CssFixed) :
    (addFixed x y).toInt = clamp (x.toInt + y.toInt) ↔ AddSaturates x.toInt y.toInt := by
  have range := fits_toInt x
  have range' := fits_toInt y
  have wrapped := Int32.toInt_add x y
  unfold Fits at range range'
  rw [addFixed_eq, AddSaturates, clamp]
  obtain ⟨below, value⟩ | ⟨fits, value⟩ | ⟨above, value⟩ :=
    bmod_cases (n := x.toInt + y.toInt) (by omega) (by omega)
  · have : ¬ (0 ≤ y.toInt ∧ (x + y).toInt < 0) := by omega
    rw [if_neg this]
    omega
  · unfold Fits at fits
    split
    next seen => rw [toInt_overflowed]; split <;> omega
    next unseen => omega
  · have : 0 ≤ y.toInt ∧ (x + y).toInt < 0 := by omega
    rw [if_pos this, toInt_overflowed, if_neg (by omega)]
    omega

theorem subtractFixed_iff (x y : CssFixed) :
    (subtractFixed x y).toInt = clamp (x.toInt - y.toInt) ↔ SubtractSaturates x.toInt y.toInt := by
  have range := fits_toInt x
  have range' := fits_toInt y
  have wrapped := Int32.toInt_sub x y
  unfold Fits at range range'
  rw [subtractFixed_eq, SubtractSaturates, clamp]
  obtain ⟨below, value⟩ | ⟨fits, value⟩ | ⟨above, value⟩ :=
    bmod_cases (n := x.toInt - y.toInt) (by omega) (by omega)
  · have : ¬ (y.toInt < 0 ∧ (x - y).toInt < 0) := by omega
    rw [if_neg this]
    omega
  · unfold Fits at fits
    split
    next seen => rw [toInt_overflowed]; split <;> omega
    next unseen => omega
  · have : y.toInt < 0 ∧ (x - y).toInt < 0 := by omega
    rw [if_pos this, toInt_overflowed, if_neg (by omega)]
    omega

theorem toInt_limit (xx : Int64) : (limit xx).toInt = clamp xx.toInt := by
  have least : (-2147483648 : Int64).toInt = -2 ^ 31 := by decide
  have greatest : (2147483647 : Int64).toInt = 2 ^ 31 - 1 := by decide
  unfold limit clamp
  simp only [Int64.lt_iff_toInt_lt, least, greatest]
  by_cases low : xx.toInt < -2 ^ 31
  · rw [if_pos low, least, if_neg (by omega), Int64.toInt_toInt32, least, min_eq_right (by omega), max_eq_left low.le]
    rfl
  · rw [if_neg low]
    by_cases high : 2 ^ 31 - 1 < xx.toInt
    · rw [if_pos high, Int64.toInt_toInt32, greatest, min_eq_left high.le]
      rfl
    · rw [if_neg high, Int64.toInt_toInt32, Int.bmod_eq_of_le (by omega) (by omega), min_eq_right (by omega),
        max_eq_right (by omega)]

theorem toInt_mul_toInt64 (x y : CssFixed) : (x.toInt64 * y.toInt64).toInt = x.toInt * y.toInt := by
  obtain ⟨lower, upper⟩ := fits_toInt x
  obtain ⟨lower', upper'⟩ := fits_toInt y
  have small : |x.toInt * y.toInt| ≤ 2 ^ 31 * 2 ^ 31 := by
    rw [abs_mul]
    exact mul_le_mul (abs_le.mpr ⟨by omega, by omega⟩) (abs_le.mpr ⟨by omega, by omega⟩) (abs_nonneg _) (by omega)
  obtain ⟨least, greatest⟩ := abs_le.mp small
  rw [Int64.toInt_mul, Int32.toInt_toInt64, Int32.toInt_toInt64]
  exact Int.bmod_eq_of_le (by omega) (by omega)

theorem toInt_multiplyFixed (x y : CssFixed) : (multiplyFixed x y).toInt = clamp (x.toInt * y.toInt / 1024) := by
  rw [multiplyFixed, toInt_limit, ← Int64.toInt_toBitVec, Int64.toBitVec_shiftRight]
  have places : ((10 : Int64).toBitVec.smod 64) = 10 := by decide
  rw [places, BitVec.sshiftRight_eq', BitVec.toInt_sshiftRight, Int.shiftRight_eq_div_pow, Int64.toInt_toBitVec,
    toInt_mul_toInt64]
  rfl

theorem toInt_divideFixed (x y : CssFixed) : (divideFixed x y).toInt = clamp ((1024 * x.toInt).tdiv y.toInt) := by
  obtain ⟨lower, upper⟩ := fits_toInt x
  have numerator : (x.toInt64 * 1024).toInt = 1024 * x.toInt := by
    have factor : (1024 : Int64).toInt = 1024 := by decide
    rw [Int64.toInt_mul, Int32.toInt_toInt64, factor, Int.mul_comm]
    exact Int.bmod_eq_of_le (by omega) (by omega)
  have above : x.toInt64 * 1024 ≠ Int64.minValue := by
    intro same
    rw [same, Int64.toInt_minValue] at numerator
    omega
  rw [divideFixed, toInt_limit, Int64.toInt_div_of_ne_left _ _ above, numerator, Int32.toInt_toInt64]

/-- The four operations limit their exact results to 32 bits, sums do not depend on the order, and a sum that fits is
exact. -/
structure Saturates (x y : CssFixed) : Prop where
  add : (addFixed x y).toInt = clamp (x.toInt + y.toInt)
  subtract : (subtractFixed x y).toInt = clamp (x.toInt - y.toInt)
  multiply : (multiplyFixed x y).toInt = clamp (x.toInt * y.toInt / 1024)
  divide : y ≠ 0 → (divideFixed x y).toInt = clamp ((1024 * x.toInt).tdiv y.toInt)
  comm : addFixed x y = addFixed y x
  exact : Fits (x.toInt + y.toInt) → (addFixed x y).toInt = x.toInt + y.toInt

theorem addSaturates_both_iff {x y : Int} :
    AddSaturates x y ∧ AddSaturates y x ↔ 0 ≤ x + y ∨ x < 0 ∧ y < 0 ∧ -2 ^ 31 ≤ x + y := by
  unfold AddSaturates
  omega

/-- Fixed-point arithmetic saturates on just the operands with a sum that is not negative, or two negative ones
with a sum that fits, and with a difference that is not taken from a negative number, or comes out positive or zero
for a negative second operand, or fits for another. -/
theorem saturates_iff (x y : CssFixed) :
    Saturates x y ↔
      (0 ≤ x.toInt + y.toInt ∨ x.toInt < 0 ∧ y.toInt < 0 ∧ -2 ^ 31 ≤ x.toInt + y.toInt) ∧
        SubtractSaturates x.toInt y.toInt := by
  rw [← addSaturates_both_iff]
  constructor
  · intro saturates
    have reversed : (addFixed y x).toInt = clamp (y.toInt + x.toInt) := by
      rw [← saturates.comm, saturates.add, Int.add_comm]
    exact ⟨⟨(addFixed_iff x y).mp saturates.add, (addFixed_iff y x).mp reversed⟩,
      (subtractFixed_iff x y).mp saturates.subtract⟩
  · rintro ⟨⟨one, other⟩, difference⟩
    have sum := (addFixed_iff x y).mpr one
    refine ⟨sum, (subtractFixed_iff x y).mpr difference, toInt_multiplyFixed x y, fun _ => toInt_divideFixed x y, ?_,
      fun fits => by rw [sum, clamp_of_fits fits]⟩
    apply Int32.toInt.inj
    rw [sum, (addFixed_iff y x).mpr other, Int.add_comm]

/-- The sum of -2 and 1 comes out as the greatest number but one, in one of the two orders. -/
theorem negative_sum_overflows : ¬ ∀ x y : CssFixed, Saturates x y := by
  intro all
  have wrong := (all (-2) 1).add
  revert wrong
  decide

end Besra.FixedPoint
