import Besra.CharacterReference

/-!
Numbers in character references.  The value is kept in 32 bits, and whether it has been too large beside it; but two of
the tests on the value come before that of its size.
-/

namespace Besra.CharacterReference

open TokeniserInput (peek)
open Utf8 (numContinuations)

variable {input s : List UInt8} {offset base v : ℕ} {c : UInt8} {n : UInt32 × Bool} {cp : UInt32}

theorem peek_drop (behind : input.drop offset = s) :
    peek input offset = s.head?.map fun c => (c, numContinuations c + 1) := by
  rw [peek, ← behind, List.head?_drop]

theorem drop_succ (behind : input.drop offset = c :: s) : input.drop (offset + 1) = s := by
  rw [← List.drop_drop, behind]
  rfl

theorem single_of_ascii (ascii : c ≤ 0x7F) : numContinuations c = 0 := by
  unfold numContinuations
  rw [if_pos]
  rw [UInt8.le_iff_toNat_le] at ascii
  rw [UInt8.lt_iff_toNat_lt]
  exact Nat.lt_of_le_of_lt ascii (by decide)

def IsBase (base : ℕ) : Prop := base = 10 ∨ base = 16

def nextNumber (base : ℕ) (n : UInt32 × Bool) (c : UInt8) : UInt32 × Bool :=
  let codepoint := n.1 * base.toUInt32 + digitValue c
  (codepoint, n.2 || decide (codepoint ≥ 0x10FFFF))

theorem isDigit_ascii (digit : isDigit base c = true) : c ≤ 0x7F := by
  have all := Lwc.forall_byte (p := fun c => isDigit 10 c = true ∨ isDigit 16 c = true → c ≤ 0x7F) (by decide +kernel)
  apply all c
  simp only [isDigit, decide_eq_true_eq] at digit ⊢
  grind

theorem numberLoop_digits (input : List UInt8) (digits rest : List UInt8) (fuel : ℕ) (m : MatchEntity)
    (behind : input.drop (m.offset + m.length) = digits ++ rest) (enough : digits.length < fuel)
    (all : ∀ c ∈ digits, isDigit m.base c = true) (ends : ∀ c, rest.head? = some c → isDigit m.base c = false) :
    numberLoop input fuel m =
      let n := digits.foldl (nextNumber m.base) (m.codepoint, m.overflow)
      { m with
        hadData := m.hadData || !digits.isEmpty, codepoint := n.1, overflow := n.2,
        length := m.length + digits.length } := by
  induction digits generalizing fuel m with
  | nil =>
    obtain ⟨fuel, rfl⟩ := Nat.exists_eq_succ_of_ne_zero (by omega : fuel ≠ 0)
    rw [numberLoop, peek_drop behind]
    cases rest with
    | nil => simp
    | cons c rest =>
      have other := ends c rfl
      simp [other]
  | cons c digits ih =>
    obtain ⟨fuel, rfl⟩ := Nat.exists_eq_succ_of_ne_zero (by omega : fuel ≠ 0)
    have digit := all c (by simp)
    have narrow := single_of_ascii (isDigit_ascii digit)
    rw [numberLoop, peek_drop behind]
    simp only [List.cons_append, List.head?_cons, Option.map_some, digit, if_true, narrow]
    refine (ih fuel _ ?_ (by simpa using enough) ?_ ?_).trans ?_
    · simpa [Nat.add_assoc] using drop_succ behind
    · exact fun d member => all d (by simp [member])
    · exact ends
    · simp [nextNumber, Nat.add_comm, Nat.add_left_comm]

def numberOf (base : ℕ) (digits : List UInt8) : ℕ := digits.foldl (fun v c => v * base + (digitValue c).toNat) 0

theorem digitValue_lt (isBase : IsBase base) (digit : isDigit base c = true) : (digitValue c).toNat < base := by
  have ten := Lwc.forall_byte (p := fun c => isDigit 10 c = true → (digitValue c).toNat < 10) (by decide +kernel)
  have sixteen := Lwc.forall_byte (p := fun c => isDigit 16 c = true → (digitValue c).toNat < 16) (by decide +kernel)
  rcases isBase with rfl | rfl
  · exact ten c digit
  · exact sixteen c digit

/-- The number `v` in 32 bits, and whether it is as large as the last code point. -/
def Shows (n : UInt32 × Bool) (v : ℕ) : Prop := n.1.toNat = v % 4294967296 ∧ n.2 = decide (0x10FFFF ≤ v)

theorem Shows.next {base : ℕ} (isBase : IsBase base) {n : UInt32 × Bool} {v : ℕ} (shows_ : Shows n v) {c : UInt8}
    (digit : isDigit base c = true) : Shows (nextNumber base n c) (v * base + (digitValue c).toNat) := by
  obtain ⟨low, large⟩ := shows_
  have small := digitValue_lt isBase digit
  have codepoint : (n.1 * base.toUInt32 + digitValue c).toNat = (v * base + (digitValue c).toNat) % 4294967296 := by
    have width : base.toUInt32.toNat = base := by
      rcases isBase with rfl | rfl <;> rfl
    rw [UInt32.toNat_add, UInt32.toNat_mul, low, width]
    simp [Nat.add_mod, Nat.mul_mod]
  have tooLarge : n.1 * base.toUInt32 + digitValue c ≥ 0x10FFFF ↔
      0x10FFFF ≤ (v * base + (digitValue c).toNat) % 4294967296 := by
    rw [ge_iff_le, UInt32.le_iff_toNat_le, codepoint]
    rfl
  refine ⟨codepoint, ?_⟩
  rw [nextNumber, large, ← Bool.decide_or, decide_eq_decide, tooLarge]
  rcases isBase with rfl | rfl <;> omega

theorem foldl_shows (isBase : IsBase base) (digits : List UInt8) (all : ∀ c ∈ digits, isDigit base c = true)
    (shows_ : Shows n v) :
    Shows (digits.foldl (nextNumber base) n) (digits.foldl (fun v c => v * base + (digitValue c).toNat) v) := by
  induction digits generalizing n v with
  | nil => exact shows_
  | cons c digits ih =>
    exact ih (fun d member => all d (by simp [member])) (shows_.next isBase (all c (by simp)))

theorem digits_shows (isBase : IsBase base) (digits : List UInt8) (all : ∀ c ∈ digits, isDigit base c = true) :
    Shows (digits.foldl (nextNumber base) (0, false)) (numberOf base digits) :=
  foldl_shows isBase digits all ⟨rfl, rfl⟩

/-- The code point that is documented for a number. -/
def documented (v : ℕ) : UInt32 :=
  if 0x80 ≤ v ∧ v ≤ 0x9F then cp1252Table.getD (v - 0x80) 0
  else if v = 0x0D then 0x0A
  else if v ≤ 0x08 ∨ v = 0x0B ∨ (0x0E ≤ v ∧ v ≤ 0x1F) ∨ v = 0x7F ∨ (0xD800 ≤ v ∧ v ≤ 0xDFFF) ∨
      (0xFDD0 ≤ v ∧ v ≤ 0xFDEF) ∨ 0xFFFE ≤ v % 0x10000 ∨ 0x10FFFF < v then 0xFFFD
  else v.toUInt32

/-- A number above the last code point whose low 32 bits are those of a return or of a character that Windows-1252 has
at 0x80 to 0x9F. -/
def Mistaken (v : ℕ) : Prop :=
  0x10FFFF < v ∧ (v % 4294967296 = 0x0D ∨
    0x80 ≤ v % 4294967296 ∧ v % 4294967296 ≤ 0x9F ∧ cp1252Table.getD (v % 4294967296 - 0x80) 0 ≠ 0xFFFD)

instance (v : ℕ) : Decidable (Mistaken v) := by
  unfold Mistaken
  infer_instance

theorem and_mask (n : ℕ) : n &&& 0xFFFE = 0xFFFE ↔ 0xFFFE ≤ n % 0x10000 := by
  have half : (n &&& 0xFFFE) / 2 = n / 2 % 32768 := by
    rw [Nat.and_div_two]
    exact Nat.and_two_pow_sub_one_eq_mod (n / 2) 15
  have even : (n &&& 0xFFFE) % 2 = 0 := by
    have := @Nat.and_mod_two_pow n 0xFFFE 1
    simpa using this
  omega

theorem noncharacter_iff (cp : UInt32) : cp &&& 0xFFFE = 0xFFFE ↔ 0xFFFE ≤ cp.toNat % 0x10000 := by
  rw [← UInt32.toNat_inj, UInt32.toNat_and]
  exact and_mask cp.toNat

theorem eq_iff_toNat (value : cp.toNat = v) (x : UInt32) : cp = x ↔ v = x.toNat := by
  rw [← UInt32.toNat_inj, value]

theorem le_iff_toNat (value : cp.toNat = v) (x : UInt32) : cp ≤ x ↔ v ≤ x.toNat := by
  rw [UInt32.le_iff_toNat_le, value]

theorem ge_iff_toNat (value : cp.toNat = v) (x : UInt32) : x ≤ cp ↔ x.toNat ≤ v := by
  rw [UInt32.le_iff_toNat_le, value]

theorem table_eq {cp : UInt32} {v : ℕ} (value : cp.toNat = v) (inTable : 0x80 ≤ v ∧ v ≤ 0x9F) :
    (cp - 0x80).toNat = v - 0x80 := by
  rw [UInt32.toNat_sub_of_le _ _ ((ge_iff_toNat value 0x80).mpr inTable.1), value]
  rfl

theorem finalCodepoint_of_le (shows_ : Shows n v) (small : v ≤ 0x10FFFF) : finalCodepoint n.1 n.2 = documented v := by
  obtain ⟨low, large⟩ := shows_
  have value : n.1.toNat = v := by
    rw [low, Nat.mod_eq_of_lt (by omega)]
  have same : n.1 = v.toUInt32 := by
    rw [← UInt32.toNat_inj, value, Nat.toUInt32, UInt32.toNat_ofNat']
    omega
  unfold finalCodepoint documented
  simp only [noncharacter_iff, eq_iff_toNat value, le_iff_toNat value, ge_iff_toNat value, value, large,
    decide_eq_true_eq, UInt32.reduceToNat]
  by_cases inTable : 0x80 ≤ v ∧ v ≤ 0x9F
  · rw [if_pos inTable, if_pos inTable, table_eq value inTable]
  rw [if_neg inTable, if_neg inTable]
  congr 1
  rw [same]
  congr 1
  rw [eq_iff_iff]
  omega

theorem finalCodepoint_of_gt (shows_ : Shows n v) (great : 0x10FFFF < v) :
    finalCodepoint n.1 n.2 =
      if 0x80 ≤ v % 4294967296 ∧ v % 4294967296 ≤ 0x9F then cp1252Table.getD (v % 4294967296 - 0x80) 0
      else if v % 4294967296 = 0x0D then 0x0A
      else 0xFFFD := by
  obtain ⟨low, large⟩ := shows_
  have tooLarge : n.2 = true := by
    rw [large]
    simpa using Nat.le_of_lt great
  unfold finalCodepoint
  simp only [eq_iff_toNat low, le_iff_toNat low, ge_iff_toNat low, tooLarge, true_or, if_true, UInt32.reduceToNat]
  by_cases inTable : 0x80 ≤ v % 4294967296 ∧ v % 4294967296 ≤ 0x9F
  · rw [if_pos inTable, if_pos inTable, table_eq low inTable]
  · rw [if_neg inTable, if_neg inTable]

theorem table_ne_zero (i : ℕ) (inTable : i < 32) : cp1252Table.getD i 0 ≠ 0 := by
  have all : ∀ i : Fin 32, cp1252Table.getD i 0 ≠ 0 := by decide
  exact all ⟨i, inTable⟩

theorem finalCodepoint_ne_zero (cp : UInt32) (overflow : Bool) : finalCodepoint cp overflow ≠ 0 := by
  unfold finalCodepoint
  split_ifs with inTable ret replaced
  · rw [UInt32.le_iff_toNat_le, UInt32.le_iff_toNat_le] at inTable
    apply table_ne_zero
    have := @table_eq cp _ rfl inTable
    have : (0x9F : UInt32).toNat = 0x9F := rfl
    omega
  · decide
  · decide
  · intro zero
    exact replaced (Or.inr (Or.inl (by rw [zero]; decide)))

theorem utf8Of_eq_iff {x : UInt32} (listed : x ∈ 0x0A :: cp1252Table) : utf8Of x = utf8Of 0xFFFD ↔ x = 0xFFFD := by
  have all : (0x0A :: cp1252Table).Forall fun x => utf8Of x = utf8Of 0xFFFD ↔ x = 0xFFFD := by decide +kernel
  exact List.forall_iff_forall_mem.mp all x listed

theorem finalCodepoint_eq_iff (shows_ : Shows n v) :
    utf8Of (finalCodepoint n.1 n.2) = utf8Of (documented v) ↔ ¬Mistaken v := by
  unfold Mistaken
  by_cases small : v ≤ 0x10FFFF
  · rw [finalCodepoint_of_le shows_ small]
    simp only [true_iff]
    omega
  have great : 0x10FFFF < v := by
    omega
  have replaced : documented v = 0xFFFD := by
    unfold documented
    rw [if_neg (by omega), if_neg (by omega), if_pos (by omega)]
  rw [finalCodepoint_of_gt shows_ great, replaced]
  by_cases inTable : 0x80 ≤ v % 4294967296 ∧ v % 4294967296 ≤ 0x9F
  · have listed : cp1252Table.getD (v % 4294967296 - 0x80) 0 ∈ 0x0A :: cp1252Table := by
      apply List.mem_cons_of_mem
      rw [List.getD_eq_getElem?_getD, List.getElem?_eq_getElem (by simp [cp1252Table]; omega)]
      exact List.getElem_mem _
    have other : v % 4294967296 ≠ 0x0D := by
      omega
    rw [if_pos inTable, utf8Of_eq_iff listed]
    simp [great, other, inTable]
  · rw [if_neg inTable]
    split_ifs with ret
    · simp only [great, ret, true_and, true_or, not_true_eq_false, iff_false]
      decide +kernel
    · simp only [true_iff]
      tauto

end Besra.CharacterReference
