import Mathlib.Data.Nat.Bitwise
import Mathlib.Tactic.Ring

/-!
Numbers as strings of bits, the lowest bit first: what parts of the string stand for, and
the strings of bytes.
-/
namespace Besra.LowBits
open List

/-- The number that a string of bits stands for. -/
def value : List Bool → Nat
  | [] => 0
  | b :: bs => b.toNat + 2 * value bs

def bits : Nat → Nat → List Bool
  | 0, _ => []
  | w + 1, n => (n % 2 == 1) :: bits w (n / 2)

@[simp] theorem length_bits (w n : Nat) : (bits w n).length = w := by
  induction w generalizing n with
  | zero => rfl
  | succ w ih => rw [bits, length_cons, ih]

theorem value_append (l r : List Bool) : value (l ++ r) = value l + 2 ^ l.length * value r := by
  induction l with
  | nil => simp [value]
  | cons b l ih =>
    rw [cons_append, value, value, ih, length_cons, Nat.pow_succ]
    ring

theorem value_lt (l : List Bool) : value l < 2 ^ l.length := by
  induction l with
  | nil => simp [value]
  | cons b l ih =>
    rw [value, length_cons, Nat.pow_succ]
    have := Bool.toNat_le b
    omega

theorem value_bits (w n : Nat) : value (bits w n) = n % 2 ^ w := by
  induction w generalizing n with
  | zero => simp [bits, value, Nat.mod_one]
  | succ w ih =>
    have bit : (n % 2 == 1).toNat = n % 2 := by
      rcases Nat.mod_two_eq_zero_or_one n with even | odd
      · simp [even]
      · simp [odd]
    rw [bits, value, ih, bit, Nat.pow_succ, Nat.mul_comm (2 ^ w) 2, Nat.mod_mul]

theorem value_split {l : List Bool} {n : Nat} (inside : n ≤ l.length) :
    value (l.take n) + 2 ^ n * value (l.drop n) = value l ∧ value (l.take n) < 2 ^ n := by
  have whole := value_append (l.take n) (l.drop n)
  have bound := value_lt (l.take n)
  rw [length_take_of_le inside] at whole bound
  rw [take_append_drop] at whole
  exact ⟨whole.symm, bound⟩

theorem value_take (l : List Bool) (n : Nat) : value (l.take n) = value l % 2 ^ n := by
  rcases Nat.le_total n l.length with inside | all
  · obtain ⟨whole, bound⟩ := value_split inside
    rw [← whole, Nat.add_mul_mod_self_left, Nat.mod_eq_of_lt bound]
  · rw [take_of_length_le all, Nat.mod_eq_of_lt]
    exact Nat.lt_of_lt_of_le (value_lt l) (Nat.pow_le_pow_right (by decide) all)

theorem value_drop (l : List Bool) (n : Nat) : value (l.drop n) = value l / 2 ^ n := by
  rcases Nat.le_total n l.length with inside | all
  · obtain ⟨whole, bound⟩ := value_split inside
    rw [← whole, Nat.add_mul_div_left _ _ (Nat.two_pow_pos n), Nat.div_eq_of_lt bound, Nat.zero_add]
  · rw [drop_of_length_le all, Nat.div_eq_of_lt]
    · rfl
    · exact Nat.lt_of_lt_of_le (value_lt l) (Nat.pow_le_pow_right (by decide) all)

theorem value_window (l : List Bool) (start size : Nat) :
    (value l >>> start) &&& ((1 <<< size) - 1) = value ((l.drop start).take size) := by
  rw [value_take, value_drop, Nat.shiftRight_eq_div_pow, Nat.one_shiftLeft, Nat.and_two_pow_sub_one_eq_mod]

/-- The bits of bytes one after the other. -/
def ofBytes (bytes : List UInt8) : List Bool := bytes.flatMap (fun b => bits 8 b.toNat)

@[simp] theorem ofBytes_append (l r : List UInt8) : ofBytes (l ++ r) = ofBytes l ++ ofBytes r := flatMap_append

theorem ofBytes_cons (b : UInt8) (bytes : List UInt8) : ofBytes (b :: bytes) = bits 8 b.toNat ++ ofBytes bytes := rfl

@[simp] theorem length_ofBytes (bytes : List UInt8) : (ofBytes bytes).length = 8 * bytes.length := by
  induction bytes with
  | nil => rfl
  | cons b bytes ih => rw [ofBytes_cons, length_append, length_bits, ih, length_cons, Nat.mul_succ, Nat.add_comm]

theorem ofBytes_drop (bytes : List UInt8) (n : Nat) : ofBytes (bytes.drop n) = (ofBytes bytes).drop (8 * n) := by
  induction n generalizing bytes with
  | zero => rfl
  | succ n ih =>
    rcases bytes with _ | ⟨b, bytes⟩
    · simp [ofBytes]
    · have length : (bits 8 b.toNat).length ≤ 8 * (n + 1) := by
        rw [length_bits]
        omega
      rw [drop_succ_cons, ih, ofBytes_cons, drop_append, drop_of_length_le length, length_bits,
        nil_append, Nat.mul_succ, Nat.add_sub_cancel]

theorem value_snoc (bytes : List UInt8) (b : UInt8) :
    value (ofBytes bytes) ||| (b.toNat <<< (8 * bytes.length)) = value (ofBytes (bytes ++ [b])) := by
  have bound := value_lt (ofBytes bytes)
  rw [length_ofBytes] at bound
  rw [Nat.or_comm, ← Nat.shiftLeft_add_eq_or_of_lt bound, ofBytes_append, value_append, length_ofBytes, ofBytes_cons,
    value_append, value_bits, Nat.shiftLeft_eq, Nat.mod_eq_of_lt b.toNat_lt]
  simp only [ofBytes, flatMap_nil, value]
  ring

end Besra.LowBits
