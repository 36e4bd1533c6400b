import Besra.CText
import Besra.StrictTransportSecurity

/-!
The number of a max-age directive. `parse_max_age` means to stop at `UINT_MAX`, and takes a product that has become
smaller for the sign that it has wrapped around; most products that wrap around become larger all the same.
-/
namespace Besra.MaxAge
open Lwc NsurlParse CText StrictTransportSecurity List

/-- The text is `1*DIGIT`. -/
def IsNumber (value : LwcString) : Prop := value ≠ [] ∧ ∀ c ∈ value, ch '0' ≤ c ∧ c ≤ ch '9'

instance (value : LwcString) : Decidable (IsNumber value) := inferInstanceAs (Decidable (_ ∧ _))

def uintMax : Nat := 2 ^ 32 - 1

def Drops (digits : List UInt8) : Prop :=
  ∃ before c after, digits = before ++ c :: after ∧
    decimalValue (before ++ [c]) % 2 ^ 32 < decimalValue before % 2 ^ 32

/-- The number is not too large, or it is one that is seen to be, or its wrapped value is the largest age. -/
def Saturates (digits : List UInt8) : Prop :=
  decimalValue digits < 2 ^ 32 ∨ Drops digits ∨ decimalValue digits % 2 ^ 32 = uintMax

theorem decimalValue_snoc (digits : List UInt8) (c : UInt8) :
    decimalValue (digits ++ [c]) = 10 * decimalValue digits + (c - ch '0').toNat := by
  simp [decimalValue]

theorem decimalValue_le (digits more : List UInt8) : decimalValue digits ≤ decimalValue (digits ++ more) := by
  induction more using List.reverseRecOn with
  | nil => simp
  | append_singleton more c ih =>
    rw [← append_assoc, decimalValue_snoc]
    omega

variable {c : UInt8} {digits : List UInt8} {value : LwcString}

theorem digit_lt (digit : ch '0' ≤ c ∧ c ≤ ch '9') : (c - ch '0').toNat < 10 := by
  obtain ⟨low, high⟩ := digit
  have zero : (ch '0').toNat = 48 := rfl
  have nine : (ch '9').toNat = 57 := rfl
  rw [UInt8.le_iff_toNat_le] at low high
  rw [UInt8.toNat_sub_of_le _ _ (UInt8.le_iff_toNat_le.mpr low)]
  omega

theorem toNat_addDigit (val : UInt32) (digit : ch '0' ≤ c ∧ c ≤ ch '9') :
    (addDigit val c).toNat =
      if (10 * val.toNat + (c - ch '0').toNat) % 2 ^ 32 < val.toNat then uintMax
      else (10 * val.toNat + (c - ch '0').toNat) % 2 ^ 32 := by
  have next : (val * 10 + (c - ch '0').toUInt32).toNat = (10 * val.toNat + (c - ch '0').toNat) % 2 ^ 32 := by
    have small := digit_lt digit
    rw [UInt32.toNat_add, UInt32.toNat_mul, UInt8.toNat_toUInt32]
    have ten : (10 : UInt32).toNat = 10 := rfl
    rw [ten]
    omega
  rw [addDigit]
  simp only [UInt32.lt_iff_toNat_lt, next]
  split
  · rfl
  · exact next

theorem addDigit_uintMax {val : UInt32} (full : val.toNat = uintMax) (digit : ch '0' ≤ c ∧ c ≤ ch '9') :
    (addDigit val c).toNat = uintMax := by
  have small := digit_lt digit
  rw [toNat_addDigit val digit, full]
  rw [uintMax] at *
  split
  · rfl
  · omega

theorem Drops.append (drops : Drops digits) (more : List UInt8) : Drops (digits ++ more) := by
  obtain ⟨before, c, after, rfl, smaller⟩ := drops
  exact ⟨before, c, after ++ more, by simp, smaller⟩

theorem Drops.large (drops : Drops digits) : 2 ^ 32 ≤ decimalValue digits := by
  obtain ⟨before, c, after, rfl, smaller⟩ := drops
  have grown := decimalValue_le (before ++ [c]) after
  have wider := decimalValue_le before [c]
  rw [append_assoc, singleton_append] at grown
  by_contra small
  rw [Nat.mod_eq_of_lt, Nat.mod_eq_of_lt] at smaller <;> omega

theorem foldl_addDigit (number : ∀ c ∈ digits, ch '0' ≤ c ∧ c ≤ ch '9') :
    (Drops digits ∧ (digits.foldl addDigit 0).toNat = uintMax) ∨
      (¬Drops digits ∧ (digits.foldl addDigit 0).toNat = decimalValue digits % 2 ^ 32) := by
  induction digits using List.reverseRecOn with
  | nil =>
    refine .inr ⟨?_, rfl⟩
    rintro ⟨before, c, after, same, -⟩
    simp at same
  | append_singleton digits c ih =>
    have digit := number c (by simp)
    rw [foldl_append, foldl_cons, foldl_nil]
    rcases ih (fun d member => number d (mem_append_left _ member)) with ⟨drops, full⟩ | ⟨steady, wrapped⟩
    · exact .inl ⟨drops.append [c], addDigit_uintMax full digit⟩
    · have next : (10 * (decimalValue digits % 2 ^ 32) + (c - ch '0').toNat) % 2 ^ 32 =
          decimalValue (digits ++ [c]) % 2 ^ 32 := by
        rw [decimalValue_snoc]
        omega
      rw [toNat_addDigit _ digit, wrapped, next]
      by_cases smaller : decimalValue (digits ++ [c]) % 2 ^ 32 < decimalValue digits % 2 ^ 32
      · rw [if_pos smaller]
        exact .inl ⟨⟨digits, c, [], rfl, smaller⟩, rfl⟩
      · rw [if_neg smaller]
        refine .inr ⟨?_, rfl⟩
        rintro ⟨before, d, after, same, drops⟩
        rcases eq_nil_or_concat after with rfl | ⟨after, e, rfl⟩
        · obtain ⟨rfl, last⟩ := append_inj' same rfl
          cases last
          exact smaller drops
        · rw [concat_eq_append, ← cons_append, ← append_assoc] at same
          exact steady ⟨before, d, after, (append_inj' same rfl).1, drops⟩

theorem parseMaxAge_number (number : IsNumber value) : parseMaxAge value = some (value.foldl addDigit 0) := by
  obtain ⟨some', digits⟩ := number
  rw [parseMaxAge, if_pos]
  exact ⟨some', all_eq_true.mpr (fun c member => decide_eq_true (digits c member))⟩

theorem parseMaxAge_other (other : ¬IsNumber value) : parseMaxAge value = none := by
  rw [parseMaxAge, if_neg]
  rintro ⟨some', digits⟩
  exact other ⟨some', fun c member => of_decide_eq_true (all_eq_true.mp digits c member)⟩

/-- The value of a number is the decimal value, or the largest age where that is larger, exactly for the numbers
    that are small enough or are seen to be too large. -/
theorem parseMaxAge_saturates_iff (number : IsNumber value) :
    (value.foldl addDigit 0).toNat = min (decimalValue value) uintMax ↔ Saturates value := by
  rw [Saturates]
  rcases foldl_addDigit number.2 with ⟨drops, full⟩ | ⟨steady, wrapped⟩
  · have large := drops.large
    rw [full, uintMax]
    exact ⟨fun _ => .inr (.inl drops), fun _ => by omega⟩
  · rw [wrapped, uintMax]
    constructor
    · intro exact
      by_cases small : decimalValue value < 2 ^ 32
      · exact .inl small
      · exact .inr (.inr (by omega))
    · rintro (small | drops | last)
      · omega
      · exact absurd drops steady
      · omega

end Besra.MaxAge
