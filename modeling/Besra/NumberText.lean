import Besra.FixedPoint
import Besra.Number

/-!
`css__number_from_string` with the arithmetic of its `int`s checked and with the count of bytes that it stores. The
texts of numbers and what they stand for are the grammar in its comment (`Numeral`).
-/
namespace Besra.NumberText
open Lwc FixedPoint List Option
open Number (isDigit digit)

/-- An `int` that has been computed, and nothing where it overflows. -/
def checked (n : Int) : Option Int := if Fits n then some n else none

def intPart : List UInt8 → Int → Option (Int × List UInt8)
  | [], int => some (int, [])
  | c :: rest, int =>
    if isDigit c then
      if int < 2 ^ 22 then do
        let int ← checked (int * 10)
        let int ← checked (int + digit c)
        intPart rest int
      else intPart rest int
    else some (int, c :: rest)

def fracPart : List UInt8 → Int → Int → Option ((Int × Int) × List UInt8)
  | [], frac, pwr => some ((frac, pwr), [])
  | c :: rest, frac, pwr =>
    if isDigit c then
      if pwr < 1000000 then do
        let pwr ← checked (pwr * 10)
        let frac ← checked (frac * 10)
        let frac ← checked (frac + digit c)
        fracPart rest frac pwr
      else fracPart rest frac pwr
    else some ((frac, pwr), c :: rest)

def rounded (int frac pwr : Int) : Option (Int × Int) := do
  let scaled ← checked (1024 * frac)
  let scaled ← checked (scaled + pwr / 2)
  let frac := scaled / pwr
  if 1024 ≤ frac then
    let int ← checked (int + 1)
    pure (int, frac % 1024)
  else pure (int, frac)

def signed (negative : Bool) (int frac : Int) : Option (Int × Int) :=
  if !negative then
    if 2 ^ 21 ≤ int then some (2 ^ 21 - 1, 1023) else some (int, frac)
  else if 2 ^ 21 ≤ int then some (-2 ^ 21, 0)
  else do
    let int ← checked (-int)
    if frac ≠ 0 then
      let int ← checked (int - 1)
      pure (int, 1024 - frac)
    else pure (int, 0)

/-- `((uint32_t)intpart << 10) | fracpart` -/
def pack (int frac : Int) : CssFixed := .ofBitVec (BitVec.ofInt 32 int <<< 10 ||| BitVec.ofInt 32 frac)

def pointDigit : List UInt8 → Bool
  | c :: rest => c == ch '.' && rest.head?.any isDigit
  | [] => false

def starts (ptr : List UInt8) : Bool :=
  match ptr with
  | [] => false
  | c :: rest => if c == ch '.' then rest.head?.any isDigit else isDigit c

def splitSign (data : List UInt8) : Bool × List UInt8 :=
  if data.head? = some (ch '-') then (true, data.tail)
  else if data.head? = some (ch '+') then (false, data.tail)
  else (false, data)

/-- `css__number_from_string`, with what `*consumed` holds at first: the number and the count after it. There is
none when an `int` overflows. -/
def numberFromString (data : LwcString) (intOnly : Bool) (consumed : Nat) : Option (CssFixed × Nat) :=
  if data.isEmpty then some (0, consumed)
  else
    let (negative, ptr) := splitSign data
    if !starts ptr then some (0, 0)
    else do
      let (int, ptr) ← intPart ptr 0
      if !intOnly && pointDigit ptr then
        let ((frac, pwr), ptr) ← fracPart ptr.tail 0 1
        let (int, frac) ← rounded int frac pwr
        let (int, frac) ← signed negative int frac
        pure (pack int frac, data.length - ptr.length)
      else
        let (int, frac) ← signed negative int 0
        pure (pack int frac, data.length - ptr.length)

/-- The number that digits stand for, after those that stand for `n`. -/
def decimal (n : Int) (ds : List UInt8) : Int := ds.foldl (fun n c => 10 * n + digit c) n

def fraction (ds : List UInt8) : ℚ := decimal 0 ds / 10 ^ ds.length

def Digits (ds : List UInt8) : Prop := ∀ c ∈ ds, isDigit c = true

inductive Sign : List UInt8 → Int → Prop
  | none : Sign [] 1
  | plus : Sign [ch '+'] 1
  | minus : Sign [ch '-'] (-1)

/-- The texts of numbers with what they stand for: the fraction counts with six digits and is rounded half up to
1/1024ths, and the whole is limited to 32 bits. -/
inductive Numeral (intOnly : Bool) : List UInt8 → Int → Prop
  | integer {sign : List UInt8} {factor : Int} {ds : List UInt8} (head : Sign sign factor) (digits : Digits ds)
      (nonempty : ds ≠ []) : Numeral intOnly (sign ++ ds) (clamp (factor * (1024 * decimal 0 ds)))
  | point {sign : List UInt8} {factor : Int} {ds fs : List UInt8} (head : Sign sign factor) (digits : Digits ds)
      (digits' : Digits fs) (nonempty : fs ≠ []) (whole : intOnly = false) :
      Numeral intOnly (sign ++ (ds ++ ch '.' :: fs))
        (clamp (factor * (1024 * decimal 0 ds + round (1024 * fraction (fs.take 6)))))

/-- The string begins with the text of a number of that length and value, and with no longer one; or with none, and
both are 0. -/
def Longest (intOnly : Bool) (data : List UInt8) (length : Nat) (value : Int) : Prop :=
  (∃ text, text <+: data ∧ Numeral intOnly text value ∧ text.length = length ∧
      ∀ text' value', text' <+: data → Numeral intOnly text' value' → text'.length ≤ length) ∨
    (∀ text value', text <+: data → ¬ Numeral intOnly text value') ∧ length = 0 ∧ value = 0

variable {n m int frac value f pwr : Int} {c : UInt8} {ds ptr sign data : List UInt8} {intOnly : Bool}

theorem checked_of_fits (fits : Fits n) : checked n = some n := if_pos fits

theorem digit_bounds (isdigit : isDigit c = true) : 0 ≤ digit c ∧ digit c ≤ 9 := by
  simp only [isDigit, Bool.and_eq_true, decide_eq_true_iff] at isdigit
  have zero : (ch '0').toNat = 48 := rfl
  have nine : (ch '9').toNat = 57 := rfl
  rw [digit, UInt8.toNat_sub_of_le _ _ isdigit.1]
  simp only [UInt8.le_iff_toNat_le] at isdigit
  omega

theorem decimal_cons (n : Int) (c : UInt8) (ds : List UInt8) :
    decimal n (c :: ds) = decimal (10 * n + digit c) ds := rfl

theorem le_decimal (least : 0 ≤ n) (digits : Digits ds) : n ≤ decimal n ds := by
  induction ds generalizing n with
  | nil => exact le_refl n
  | cons c ds ih =>
    have bounds := digit_bounds (digits c mem_cons_self)
    have := ih (n := 10 * n + digit c) (by omega) fun d mem => digits d (mem_cons_of_mem c mem)
    rw [decimal_cons]
    omega

theorem decimal_lt (below : n < m) (digits : Digits ds) : decimal n ds < m * 10 ^ ds.length := by
  induction ds generalizing n m with
  | nil => simpa [decimal] using below
  | cons c ds ih =>
    have bounds := digit_bounds (digits c mem_cons_self)
    have := ih (n := 10 * n + digit c) (m := 10 * m) (by omega) fun d mem => digits d (mem_cons_of_mem c mem)
    rw [decimal_cons, length_cons, pow_succ']
    linarith

theorem digits_takeWhile (data : List UInt8) : Digits (data.takeWhile isDigit) :=
  fun _ mem => mem_takeWhile_imp mem

/-- The number of the digits before the point is exact, or both it and the exact one are beyond all limits. -/
def Capped (value int : Int) : Prop := 0 ≤ int ∧ int < 2 ^ 26 ∧ (int = value ∨ 2 ^ 22 ≤ int ∧ 2 ^ 22 ≤ value)

theorem intPart_eq (ptr : List UInt8) (least : 0 ≤ int) (bounded : int < 2 ^ 26) :
    ∃ after, intPart ptr int = some (after, ptr.dropWhile isDigit) ∧
      Capped (decimal int (ptr.takeWhile isDigit)) after := by
  induction ptr generalizing int with
  | nil => exact ⟨int, rfl, least, bounded, .inl rfl⟩
  | cons c rest ih =>
    by_cases isdigit : isDigit c = true
    · have bounds := digit_bounds isdigit
      have digits := digits_takeWhile rest
      rw [takeWhile_cons_of_pos isdigit, dropWhile_cons_of_pos isdigit, decimal_cons]
      by_cases small : int < 2 ^ 22
      · have steps : intPart (c :: rest) int = intPart rest (int * 10 + digit c) := by
          rw [intPart, if_pos isdigit, if_pos small, checked_of_fits (by unfold Fits; omega)]
          simp only [bind_eq_bind, bind_some]
          rw [checked_of_fits (by unfold Fits; omega), bind_some]
        rw [steps, Int.mul_comm int 10]
        exact ih (by omega) (by omega)
      · have steps : intPart (c :: rest) int = intPart rest int := by
          rw [intPart, if_pos isdigit, if_neg small]
        obtain ⟨after, run, least', bounded', value⟩ := ih least bounded
        rw [steps]
        have grows := le_decimal (n := 10 * int + digit c) (by omega) digits
        have grown := le_decimal least digits
        exact ⟨after, run, least', bounded', .inr ⟨by omega, by omega⟩⟩
    · rw [takeWhile_cons_of_neg isdigit, dropWhile_cons_of_neg isdigit]
      exact ⟨int, by rw [intPart, if_neg isdigit], least, bounded, .inl rfl⟩

theorem fracPart_eq {places : Nat} (few : places ≤ 6) (least : 0 ≤ frac) (below : frac < 10 ^ places) :
    fracPart ptr frac (10 ^ places) =
      some ((decimal frac ((ptr.takeWhile isDigit).take (6 - places)),
        10 ^ (places + ((ptr.takeWhile isDigit).take (6 - places)).length)), ptr.dropWhile isDigit) := by
  induction ptr generalizing frac places with
  | nil => simp [fracPart, decimal]
  | cons c rest ih =>
    by_cases isdigit : isDigit c = true
    · have bounds := digit_bounds isdigit
      rw [takeWhile_cons_of_pos isdigit, dropWhile_cons_of_pos isdigit, fracPart, if_pos isdigit]
      obtain rfl | fewer := few.eq_or_lt
      · rw [if_neg (by norm_num), ih le_rfl least below]
        simp
      · have power : (10 : Int) ^ places ≤ 10 ^ 5 := pow_le_pow_right₀ (by norm_num) (by omega)
        have next : fracPart rest (frac * 10 + digit c) (10 ^ (places + 1)) = _ :=
          ih (by omega) (by omega) (by rw [pow_succ]; omega)
        rw [if_pos (by omega), checked_of_fits (by unfold Fits; omega)]
        simp only [bind_eq_bind, bind_some]
        rw [checked_of_fits (by unfold Fits; omega), bind_some, checked_of_fits (by unfold Fits; omega),
          bind_some, ← pow_succ, next, show 6 - places = 6 - (places + 1) + 1 by omega, take_succ_cons,
          decimal_cons, length_cons, Int.mul_comm frac 10,
          Nat.add_right_comm places 1, Nat.add_assoc places]
    · rw [takeWhile_cons_of_neg isdigit, dropWhile_cons_of_neg isdigit, fracPart, if_neg isdigit]
      simp [decimal]

theorem toInt_pack (lower : -2 ^ 21 ≤ int) (upper : int < 2 ^ 21) (least : 0 ≤ frac) (below : frac < 1024) :
    (pack int frac).toInt = 1024 * int + frac := by
  have apart : BitVec.ofInt 32 int <<< 10 &&& BitVec.ofInt 32 frac = 0#32 := by
    obtain ⟨bits, rfl⟩ := Int.eq_ofNat_of_zero_le least
    apply BitVec.eq_of_getLsbD_eq
    intro i inside
    by_cases low : i < 10
    · simp [low]
    · have high : bits < 2 ^ i := lt_of_lt_of_le (by omega : bits < 2 ^ 10) (Nat.pow_le_pow_right (by omega) (by omega))
      have clear : (BitVec.ofNat 32 bits).getLsbD i = false := by
        rw [BitVec.getLsbD_ofNat, Nat.testBit_lt_two_pow high, Bool.and_false]
      simp [clear]
  have shifted : BitVec.ofInt 32 int <<< 10 = BitVec.ofInt 32 (1024 * int) := by
    rw [BitVec.shiftLeft_eq_mul_twoPow, Int.mul_comm, BitVec.ofInt_mul]
    rfl
  rw [pack, Int32.toInt_ofBitVec, ← BitVec.add_eq_or_of_and_eq_zero _ _ apart, shifted, ← BitVec.ofInt_add,
    BitVec.toInt_ofInt]
  exact Int.bmod_eq_of_le (by omega) (by omega)

def factor (negative : Bool) : Int := if negative then -1 else 1

theorem signed_eq (negative : Bool) (least : 0 ≤ int) (bounded : int ≤ 2 ^ 26) (least' : 0 ≤ frac)
    (below : frac < 1024) :
    ∃ i f, signed negative int frac = some (i, f) ∧
      (pack i f).toInt = clamp (factor negative * (1024 * int + frac)) := by
  unfold signed clamp factor
  cases negative with
  | false =>
    rw [if_pos (by rfl)]
    by_cases large : 2 ^ 21 ≤ int
    · refine ⟨2 ^ 21 - 1, 1023, if_pos large, ?_⟩
      rw [toInt_pack (by norm_num) (by norm_num) (by norm_num) (by norm_num), if_neg (by simp)]
      omega
    · refine ⟨int, frac, if_neg large, ?_⟩
      rw [toInt_pack (by omega) (by omega) least' below, if_neg (by simp)]
      omega
  | true =>
    rw [if_neg (by simp)]
    by_cases large : 2 ^ 21 ≤ int
    · refine ⟨-2 ^ 21, 0, if_pos large, ?_⟩
      rw [toInt_pack (by norm_num) (by norm_num) (by norm_num) (by norm_num), if_pos rfl]
      omega
    · rw [if_neg large, checked_of_fits (by unfold Fits; omega), bind_eq_bind, bind_some]
      by_cases none : frac = 0
      · refine ⟨-int, 0, if_neg (by simpa using none), ?_⟩
        rw [toInt_pack (by omega) (by omega) (by norm_num) (by norm_num), if_pos rfl]
        omega
      · rw [if_pos none, checked_of_fits (by unfold Fits; omega)]
        refine ⟨-int - 1, 1024 - frac, rfl, ?_⟩
        rw [toInt_pack (by omega) (by omega) (by omega) (by omega), if_pos rfl]
        omega

theorem div_eq_round (frac : Int) {places : Nat} (enough : 1 ≤ places) :
    (1024 * frac + 10 ^ places / 2) / 10 ^ places = round (1024 * ((frac : ℚ) / 10 ^ places)) := by
  obtain ⟨fewer, rfl⟩ := Nat.exists_eq_add_of_le' enough
  have half : (10 : Int) ^ (fewer + 1) / 2 = 5 * 10 ^ fewer := by
    rw [pow_succ]
    omega
  have quotient : (1024 * ((frac : ℚ) / 10 ^ (fewer + 1)) + 1 / 2) =
      ((1024 * frac + 5 * 10 ^ fewer : Int) : ℚ) / ((10 ^ (fewer + 1) : Nat) : ℚ) := by
    have nonzero : (10 : ℚ) ^ fewer ≠ 0 := by positivity
    push_cast
    field_simp
    ring
  rw [round_eq, quotient, Rat.floor_intCast_div_natCast, half]
  norm_cast

theorem rounded_eq {places : Nat} (enough : 1 ≤ places) (few : places ≤ 6) (least : 0 ≤ int) (bounded : int < 2 ^ 26)
    (least' : 0 ≤ frac) (below : frac < 10 ^ places) :
    ∃ int' frac', rounded int frac (10 ^ places) = some (int', frac') ∧ 0 ≤ frac' ∧ frac' < 1024 ∧ int ≤ int' ∧
      int' ≤ int + 1 ∧ 1024 * (int' - int) + frac' = round (1024 * ((frac : ℚ) / 10 ^ places)) := by
  rw [← div_eq_round frac enough]
  have power : (10 : Int) ^ places ≤ 10 ^ 6 := pow_le_pow_right₀ (by norm_num) few
  have positive : (0 : Int) < 10 ^ places := by positivity
  have lowest : 0 ≤ (1024 * frac + 10 ^ places / 2) / 10 ^ places := Int.ediv_nonneg (by omega) (by omega)
  have highest : (1024 * frac + 10 ^ places / 2) / 10 ^ places < 1025 :=
    Int.ediv_lt_of_lt_mul positive (by omega)
  unfold rounded
  rw [checked_of_fits (by unfold Fits; omega)]
  simp only [bind_eq_bind, bind_some]
  rw [checked_of_fits (by unfold Fits; omega)]
  simp only [bind_some]
  by_cases carries : 1024 ≤ (1024 * frac + 10 ^ places / 2) / 10 ^ places
  · rw [if_pos carries, checked_of_fits (by unfold Fits; omega)]
    refine ⟨_, _, rfl, ?_⟩
    omega
  · rw [if_neg carries]
    refine ⟨_, _, rfl, ?_⟩
    omega

theorem Capped.clamp (capped : Capped value int) (negative : Bool) (carry : Int) (carry_le : 0 ≤ carry)
    (least : 0 ≤ frac) :
    clamp (factor negative * (1024 * (int + carry) + frac)) =
      clamp (factor negative * (1024 * value + (1024 * carry + frac))) := by
  obtain ⟨-, -, same | ⟨large, large'⟩⟩ := capped
  · rw [same]
    congr 2
    ring
  · unfold FixedPoint.clamp factor
    cases negative <;> simp only [Bool.false_eq_true, if_false, if_true] <;> omega

theorem isDigit_ne (isdigit : isDigit c = true) : c ≠ ch '.' ∧ c ≠ ch '-' ∧ c ≠ ch '+' := by
  refine ⟨?_, ?_, ?_⟩ <;> rintro rfl <;> revert isdigit <;> decide

theorem splitSign_append (data : List UInt8) :
    ∃ sign, data = sign ++ (splitSign data).2 ∧ Sign sign (factor (splitSign data).1) := by
  unfold splitSign
  split
  next minus => exact ⟨[ch '-'], by rw [singleton_append, List.cons_head?_tail minus], .minus⟩
  next =>
    split
    next plus => exact ⟨[ch '+'], by rw [singleton_append, List.cons_head?_tail plus], .plus⟩
    next => exact ⟨[], rfl, .none⟩

theorem splitSign_of_sign (ptr : List UInt8) (head : Sign sign f) (first : ptr.head? = some c)
    (other : c ≠ ch '-' ∧ c ≠ ch '+') : (splitSign (sign ++ ptr)).2 = ptr := by
  have different : ch '+' ≠ ch '-' := by decide
  cases head <;> simp [splitSign, first, other, different]

theorem length_digits_le (digits : Digits ds) (rest : List UInt8) :
    ds.length ≤ ((ds ++ rest).takeWhile isDigit).length := by
  rw [takeWhile_append_of_pos digits, length_append]
  omega

theorem takeWhile_point (digits : Digits ds) (rest : List UInt8) :
    (ds ++ ch '.' :: rest).takeWhile isDigit = ds ∧ (ds ++ ch '.' :: rest).dropWhile isDigit = ch '.' :: rest := by
  have point : ¬ isDigit (ch '.') = true := by decide
  rw [takeWhile_append_of_pos digits, dropWhile_append_of_pos digits, takeWhile_cons_of_neg point,
    dropWhile_cons_of_neg point, append_nil]
  exact ⟨rfl, rfl⟩

theorem starts_of_digit {rest : List UInt8} (isdigit : isDigit c = true) : starts (c :: rest) = true := by
  simp [starts, (isDigit_ne isdigit).1, isdigit]

/-- The length of the digits that a string begins with. -/
def whole (ptr : List UInt8) : Nat := (ptr.takeWhile isDigit).length

def places (ptr : List UInt8) : List UInt8 := (ptr.dropWhile isDigit).tail.takeWhile isDigit

/-- A text of a number that a string begins with is not longer than the digits of the string after its sign, or than
its digits with a point and the digits after that. -/
theorem numeral_prefix {text : List UInt8} (begins : text <+: data) (numeral : Numeral intOnly text value) :
    ∃ sign ptr, data = sign ++ ptr ∧ (splitSign data).2 = ptr ∧ starts ptr = true ∧
      (0 < whole ptr ∧ text.length ≤ sign.length + whole ptr ∨
        intOnly = false ∧ pointDigit (ptr.dropWhile isDigit) = true ∧
          text.length ≤ sign.length + (whole ptr + 1 + (places ptr).length)) := by
  obtain ⟨rest, rfl⟩ := begins
  cases numeral with
  | @integer sign f ds head digits nonempty =>
    obtain ⟨c, ds, rfl⟩ := exists_cons_of_ne_nil nonempty
    have isdigit := digits c mem_cons_self
    have after := splitSign_of_sign (c :: ds ++ rest) head rfl (isDigit_ne isdigit).2
    have longest := length_digits_le digits rest
    rw [append_assoc]
    refine ⟨sign, c :: ds ++ rest, rfl, after, starts_of_digit isdigit, .inl ?_⟩
    rw [length_append, whole]
    exact ⟨lt_of_lt_of_le (Nat.succ_pos _) longest, by omega⟩
  | @point sign f ds fs head digits digits' nonempty intonly =>
    obtain ⟨d, fs, rfl⟩ := exists_cons_of_ne_nil nonempty
    have isdigit := digits' d mem_cons_self
    obtain ⟨taken, dropped⟩ := takeWhile_point digits (d :: fs ++ rest)
    have longest := length_digits_le digits' rest
    rw [append_assoc, append_assoc, cons_append]
    have found : starts (ds ++ ch '.' :: (d :: fs ++ rest)) = true ∧
        (splitSign (sign ++ (ds ++ ch '.' :: (d :: fs ++ rest)))).2 = ds ++ ch '.' :: (d :: fs ++ rest) := by
      cases ds with
      | nil => exact ⟨by simp [starts, isdigit], splitSign_of_sign _ head rfl (by decide)⟩
      | cons c ds =>
        have isdigit := digits c mem_cons_self
        exact ⟨starts_of_digit isdigit, splitSign_of_sign _ head rfl (isDigit_ne isdigit).2⟩
    refine ⟨sign, ds ++ ch '.' :: (d :: fs ++ rest), rfl, found.2, found.1,
      .inr ⟨intonly, ?_, ?_⟩⟩
    · rw [dropped]
      simp [pointDigit, isdigit]
    · rw [whole, places, taken, dropped, tail_cons, length_append, length_append, length_cons]
      omega

theorem checked_eq (fine : checked n = some m) : n = m := by
  unfold checked at fine
  split at fine
  next => exact Option.some.inj fine
  next => cases fine

theorem intPart_agrees {r : Int × List UInt8} (run : intPart ptr int = some r) : Number.intPart ptr int = r := by
  induction ptr generalizing int with
  | nil => exact Option.some.inj run
  | cons c rest ih =>
    unfold intPart at run
    unfold Number.intPart
    split at run
    next isdigit =>
      rw [if_pos isdigit]
      split at run
      next small =>
        obtain ⟨n, first, run⟩ := bind_eq_some_iff.mp run
        obtain ⟨m, second, run⟩ := bind_eq_some_iff.mp run
        rw [if_pos small, checked_eq first, checked_eq second]
        exact ih run
      next large =>
        rw [if_neg large]
        exact ih run
    next other =>
      rw [if_neg other]
      exact Option.some.inj run

theorem fracPart_agrees {r : (Int × Int) × List UInt8} (run : fracPart ptr frac pwr = some r) :
    Number.fracPart ptr frac pwr = r := by
  induction ptr generalizing frac pwr with
  | nil => exact Option.some.inj run
  | cons c rest ih =>
    unfold fracPart at run
    unfold Number.fracPart
    split at run
    next isdigit =>
      rw [if_pos isdigit]
      split at run
      next small =>
        obtain ⟨p, first, run⟩ := bind_eq_some_iff.mp run
        obtain ⟨n, second, run⟩ := bind_eq_some_iff.mp run
        obtain ⟨m, third, run⟩ := bind_eq_some_iff.mp run
        rw [if_pos small, checked_eq first, checked_eq second, checked_eq third]
        exact ih run
      next large =>
        rw [if_neg large]
        exact ih run
    next other =>
      rw [if_neg other]
      exact Option.some.inj run

theorem rounded_agrees {r : Int × Int} (run : rounded int frac pwr = some r) :
    r = if 1024 ≤ (1024 * frac + pwr / 2) / pwr then (int + 1, (1024 * frac + pwr / 2) / pwr % 1024)
      else (int, (1024 * frac + pwr / 2) / pwr) := by
  obtain ⟨n, first, run⟩ := bind_eq_some_iff.mp run
  obtain ⟨m, second, run⟩ := bind_eq_some_iff.mp run
  rw [← checked_eq second, ← checked_eq first] at run
  simp only at run
  split at run
  next carries =>
    obtain ⟨k, third, run⟩ := bind_eq_some_iff.mp run
    rw [if_pos carries, ← Option.some.inj run, checked_eq third]
  next stays => rw [if_neg stays, ← Option.some.inj run]

theorem clamp_eq {negative : Bool} (least : 0 ≤ int) (least' : 0 ≤ frac) (below : frac < 1024) :
    Number.clamp negative int frac = clamp (factor negative * (1024 * int + frac)) := by
  unfold Number.clamp clamp factor
  cases negative
  · simp only [Bool.false_eq_true, if_false]
    split <;> omega
  · simp only [if_true]
    split
    · omega
    · split <;> omega

def unchecked (negative intOnly : Bool) (ptr : List UInt8) : Int × List UInt8 :=
  let (int, rest) := Number.intPart ptr 0
  if !intOnly && pointDigit rest then
    let ((f, pwr), rest) := Number.fracPart rest.tail 0 1
    let frac := (1024 * f + pwr / 2) / pwr
    if 1024 ≤ frac then (Number.clamp negative (int + 1) (frac % 1024), rest) else (Number.clamp negative int frac, rest)
  else (Number.clamp negative int 0, rest)

theorem number_eq_unchecked (intOnly : Bool) {negative : Bool} (split : splitSign data = (negative, ptr)) :
    Number.numberFromString data intOnly = if starts ptr then unchecked negative intOnly ptr else (0, data) := by
  have point (rest : List UInt8) :
      pointDigit rest = (rest.head? == some (ch '.') && rest.tail.head?.any isDigit) := by cases rest <;> rfl
  have parts : splitSign data = (data.head? == some (ch '-'),
      if (data.head? == some (ch '-')) || (data.head? == some (ch '+')) then data.tail else data) := by
    unfold splitSign
    by_cases minus : data.head? = some (ch '-')
    · simp [minus]
    · have different : ch '+' ≠ ch '-' := by decide
      by_cases plus : data.head? = some (ch '+') <;> simp [minus, plus, different]
  rw [parts] at split
  obtain ⟨minus, after⟩ := Prod.mk.inj split
  rw [minus] at after
  unfold Number.numberFromString unchecked
  simp only [minus, after]
  change (if (!starts ptr) = true then (0, data) else _) = _
  simp only [point, Bool.and_assoc]
  cases starts ptr <;> rfl

theorem numberFromString_whole (intOnly : Bool) (consumed : Nat) {negative : Bool} (nonempty : data ≠ [])
    (split : splitSign data = (negative, ptr)) (started : starts ptr = true)
    (plain : (!intOnly && pointDigit (ptr.dropWhile isDigit)) = false) :
    ∃ value, numberFromString data intOnly consumed = some (value, data.length - (ptr.dropWhile isDigit).length) ∧
      value.toInt = clamp (factor negative * (1024 * decimal 0 (ptr.takeWhile isDigit))) ∧
      unchecked negative intOnly ptr = (value.toInt, ptr.dropWhile isDigit) := by
  obtain ⟨int, run, capped⟩ := intPart_eq ptr le_rfl (by norm_num)
  obtain ⟨i, f, stored, value⟩ := signed_eq negative capped.1 capped.2.1.le le_rfl (by norm_num)
  refine ⟨pack i f, ?_, ?_, ?_⟩
  · have some : data.isEmpty = false := by simpa using nonempty
    simp only [numberFromString, some, split, started, run, plain, stored, Bool.false_eq_true, if_false, Bool.not_true,
      bind_eq_bind, bind_some]
    rfl
  · have limited := capped.clamp negative 0 le_rfl le_rfl
    simpa using value.trans (by simpa using limited)
  · simp only [unchecked, intPart_agrees run, plain, Bool.false_eq_true, if_false]
    rw [value, clamp_eq capped.1 le_rfl (by norm_num)]

theorem places_take (pointed : pointDigit (ptr.dropWhile isDigit) = true) :
    1 ≤ ((places ptr).take 6).length ∧ ((places ptr).take 6).length ≤ 6 := by
  refine ⟨?_, length_take_le 6 _⟩
  match shape : ptr.dropWhile isDigit with
  | [] => simp [shape, pointDigit] at pointed
  | [_] => simp [shape, pointDigit] at pointed
  | _ :: d :: rest =>
    have isdigit : isDigit d = true := by simp_all [pointDigit]
    simp [places, shape, isdigit]

theorem numberFromString_fraction (consumed : Nat) {negative : Bool} (nonempty : data ≠ [])
    (split : splitSign data = (negative, ptr)) (started : starts ptr = true)
    (pointed : pointDigit (ptr.dropWhile isDigit) = true) :
    ∃ value, numberFromString data false consumed =
        some (value, data.length - ((ptr.dropWhile isDigit).tail.dropWhile isDigit).length) ∧
      value.toInt = clamp (factor negative * (1024 * decimal 0 (ptr.takeWhile isDigit) +
        round (1024 * fraction ((places ptr).take 6)))) ∧
      unchecked negative false ptr = (value.toInt, (ptr.dropWhile isDigit).tail.dropWhile isDigit) := by
  obtain ⟨int, run, capped⟩ := intPart_eq ptr le_rfl (by norm_num)
  have digits : Digits ((places ptr).take 6) := fun c mem => digits_takeWhile _ c (mem_of_mem_take mem)
  have run' : fracPart (ptr.dropWhile isDigit).tail 0 (10 ^ 0) = _ :=
    fracPart_eq (by norm_num) le_rfl (by norm_num)
  obtain ⟨enough, few⟩ := places_take pointed
  have below : decimal 0 ((places ptr).take 6) < 10 ^ ((places ptr).take 6).length := by
    simpa using decimal_lt (n := 0) (m := 1) (by norm_num) digits
  obtain ⟨int', frac', run'', least, less, grown, carried, amount⟩ :=
    rounded_eq enough few capped.1 capped.2.1 (le_decimal le_rfl digits) below
  obtain ⟨i, f, stored, value⟩ := signed_eq negative (capped.1.trans grown)
    (by have := capped.2.1; omega) least less
  refine ⟨pack i f, ?_, ?_, ?_⟩
  · have some : data.isEmpty = false := by simpa using nonempty
    rw [pow_zero, Nat.sub_zero, Nat.zero_add] at run'
    rw [places] at run''
    simp only [numberFromString, some, split, started, run, pointed, run', run'', stored, Bool.false_eq_true, if_false,
      Bool.not_true, Bool.not_false, Bool.and_true, if_true, bind_eq_bind, bind_some]
    rfl
  · have limited := capped.clamp negative (int' - int) (by omega) least
    rw [value, fraction, ← amount, ← limited, add_sub_cancel]
  · rw [pow_zero, Nat.sub_zero, Nat.zero_add] at run'
    rw [places] at run''
    have agreed := rounded_agrees run''
    simp only [unchecked, intPart_agrees run, pointed, fracPart_agrees run', Bool.not_false, Bool.and_true, if_true]
    rw [value, ← clamp_eq (capped.1.trans grown) least less]
    split at agreed
    all_goals
      next test =>
      obtain ⟨rfl, rfl⟩ := Prod.mk.inj agreed
      simp only [test, if_true, if_false]

theorem numberFromString_agrees {data : LwcString} (intOnly : Bool) (consumed : Nat) (nonempty : data ≠ []) :
    ∃ value length, numberFromString data intOnly consumed = some (value, length) ∧
      Number.numberFromString data intOnly = (value.toInt, data.drop length) := by
  obtain ⟨sign, parts, -⟩ := splitSign_append data
  rcases split : splitSign data with ⟨negative, ptr⟩
  rw [split] at parts
  rw [number_eq_unchecked intOnly split]
  have left {rest : List UInt8} (suffix : rest <:+ ptr) : data.drop (data.length - rest.length) = rest :=
    (suffix_iff_eq_drop.mp (suffix.trans ⟨sign, parts.symm⟩)).symm
  by_cases started : starts ptr = true
  · rw [if_pos started]
    by_cases plain : (!intOnly && pointDigit (ptr.dropWhile isDigit)) = false
    · obtain ⟨value, run, -, same⟩ := numberFromString_whole _ consumed nonempty split started plain
      exact ⟨value, _, run, by rw [same, left (dropWhile_suffix _)]⟩
    · obtain ⟨rfl, pointed⟩ : intOnly = false ∧ pointDigit (ptr.dropWhile isDigit) = true := by simpa using plain
      obtain ⟨value, run, -, same⟩ := numberFromString_fraction consumed nonempty split started pointed
      have suffix : (ptr.dropWhile isDigit).tail.dropWhile isDigit <:+ ptr :=
        ((dropWhile_suffix _).trans (tail_suffix _)).trans (dropWhile_suffix _)
      exact ⟨value, _, run, by rw [same, left suffix]⟩
  · have some : data.isEmpty = false := by simpa using nonempty
    exact ⟨0, 0, by simp [numberFromString, some, split, started], by simp [started]⟩

theorem numberFromString_agrees_point :
    ∃ value length, numberFromString (lit "1.5em") false 0 = some (value, length) ∧
      Number.numberFromString (lit "1.5em") false = (value.toInt, (lit "1.5em").drop length) :=
  numberFromString_agrees false 0 (by decide)

def SignPoint (data : List UInt8) : Prop :=
  ∃ sign f d rest, Sign sign f ∧ sign ≠ [] ∧ isDigit d = true ∧ data = sign ++ ch '.' :: d :: rest

/-- The function reads the longest number that the string begins with, without overflow. -/
def Reads (data : LwcString) (intOnly : Bool) (consumed : Nat) : Prop :=
  ∃ value length, numberFromString data intOnly consumed = some (value, length) ∧
    Longest intOnly data length value.toInt

theorem takeWhile_append_dropWhile_length (ptr : List UInt8) :
    ptr.length = whole ptr + (ptr.dropWhile isDigit).length := by
  rw [whole, ← length_append, takeWhile_append_dropWhile]

theorem longest_none (stops : starts (splitSign data).2 = false) : Longest intOnly data 0 0 := by
  refine .inr ⟨fun text value begins numeral => ?_, rfl, rfl⟩
  obtain ⟨-, -, -, rfl, started, -⟩ := numeral_prefix begins numeral
  rw [stops] at started
  cases started

theorem longest_whole (head : Sign sign f) (split : (splitSign (sign ++ ptr)).2 = ptr)
    (some : ptr.takeWhile isDigit ≠ []) (plain : (!intOnly && pointDigit (ptr.dropWhile isDigit)) = false) :
    Longest intOnly (sign ++ ptr) (sign.length + whole ptr) (clamp (f * (1024 * decimal 0 (ptr.takeWhile isDigit)))) := by
  refine .inl ⟨sign ++ ptr.takeWhile isDigit, ?_, .integer head (digits_takeWhile ptr) some,
    length_append, fun text value begins numeral => ?_⟩
  · exact (prefix_append_right_inj sign).mpr ( takeWhile_prefix _)
  · obtain ⟨sign', ptr', parts, rfl, -, ⟨-, shorter⟩ | ⟨intonly, pointed, -⟩⟩ := numeral_prefix begins numeral
    · rw [split] at parts shorter
      rwa [append_cancel_right parts]
    · rw [split] at pointed
      simp [intonly, pointed] at plain

theorem longest_fraction (head : Sign sign f) (split : (splitSign (sign ++ ptr)).2 = ptr)
    (pointed : pointDigit (ptr.dropWhile isDigit) = true) :
    Longest false (sign ++ ptr) (sign.length + (whole ptr + 1 + (places ptr).length))
      (clamp (f * (1024 * decimal 0 (ptr.takeWhile isDigit) + round (1024 * fraction ((places ptr).take 6))))) := by
  have some : places ptr ≠ [] := fun none => by simpa [none] using (places_take pointed).1
  obtain ⟨rest, shape⟩ : ∃ rest, ptr.dropWhile isDigit = ch '.' :: rest := by
    cases shape : ptr.dropWhile isDigit with
    | nil => simp [shape, pointDigit] at pointed
    | cons point rest =>
      have same : point = ch '.' := by simp_all [pointDigit]
      exact ⟨rest, by rw [same]⟩
  have after : (ptr.dropWhile isDigit).tail = rest := by rw [shape, tail_cons]
  refine .inl ⟨sign ++ (ptr.takeWhile isDigit ++ ch '.' :: places ptr), ?_,
    .point head (digits_takeWhile ptr) (digits_takeWhile _) some rfl, ?_, fun text value begins numeral => ?_⟩
  · have begins : ptr.takeWhile isDigit ++ ch '.' :: places ptr <+: ptr.takeWhile isDigit ++ ptr.dropWhile isDigit := by
      rw [shape, prefix_append_right_inj, places, after, cons_prefix_cons]
      exact ⟨rfl, takeWhile_prefix _⟩
    rw [takeWhile_append_dropWhile] at begins
    exact (prefix_append_right_inj sign).mpr begins
  · rw [length_append, length_append, length_cons, whole]
    omega
  · obtain ⟨sign', ptr', parts, rfl, -, ⟨-, shorter⟩ | ⟨-, -, shorter⟩⟩ := numeral_prefix begins numeral
    all_goals
      rw [split] at parts shorter
      rw [append_cancel_right parts]
      omega

theorem pointed_of_no_digits (started : starts ptr = true) (none : ptr.takeWhile isDigit = []) :
    ptr.dropWhile isDigit = ptr ∧ ∃ d rest, isDigit d = true ∧ ptr = ch '.' :: d :: rest := by
  have whole : ptr.dropWhile isDigit = ptr := by
    have := takeWhile_append_dropWhile (p := isDigit) (l := ptr)
    rwa [none, nil_append] at this
  refine ⟨whole, ?_⟩
  match ptr with
  | [] => simp [starts] at started
  | c :: rest =>
    by_cases point : c = ch '.'
    · subst point
      cases rest with
      | nil => simp [starts] at started
      | cons d rest => exact ⟨d, rest, by simpa [starts] using started, rfl⟩
    · have isdigit : isDigit c = true := by simpa [starts, point] using started
      simp [isdigit] at none

theorem SignPoint.no_digits (bad : SignPoint data) :
    (splitSign data).2.takeWhile isDigit = [] ∧ (splitSign data).2 ≠ data := by
  obtain ⟨sign, f, d, rest, head, some, -, rfl⟩ := bad
  rw [splitSign_of_sign _ head rfl (by decide)]
  exact ⟨takeWhile_cons_of_neg (by decide), by simpa using Ne.symm some⟩

/-- The longest number is read just when it is not an integer that is wanted of a sign, a point and a digit, and of
the empty string when the count is 0 before. -/
theorem reads_longest_iff (data : LwcString) (intOnly : Bool) (consumed : Nat) :
    Reads data intOnly consumed ↔ ¬ (intOnly = true ∧ SignPoint data) ∧ (data = [] → consumed = 0) := by
  by_cases empty : data = []
  · subst empty
    have none : ¬ SignPoint [] := fun bad => bad.no_digits.2 rfl
    have nothing : Longest intOnly [] 0 0 := longest_none rfl
    refine ⟨?_, fun right => ⟨0, 0, by rw [right.2 rfl]; rfl, nothing⟩⟩
    rintro ⟨value, length, run, longest⟩
    refine ⟨fun bad => none bad.2, fun _ => ?_⟩
    cases run
    obtain ⟨text, begins, numeral, -, -⟩ | ⟨-, zero, -⟩ := longest
    · obtain ⟨sign, ptr, -, rfl, started, -⟩ := numeral_prefix begins numeral
      cases started
    · exact zero
  obtain ⟨sign, parts, head⟩ := splitSign_append data
  rcases split : splitSign data with ⟨negative, ptr⟩
  rw [split] at parts head
  have rest_eq : (splitSign (sign ++ ptr)).2 = ptr := by rw [← parts, split]
  have digits_length := takeWhile_append_dropWhile_length ptr
  have good : Reads data intOnly consumed → ¬ (intOnly = true ∧ SignPoint data) → (Reads data intOnly consumed ↔
      ¬ (intOnly = true ∧ SignPoint data) ∧ (data = [] → consumed = 0)) := fun reads other =>
    ⟨fun _ => ⟨other, fun e => absurd e empty⟩, fun _ => reads⟩
  by_cases started : starts ptr = true
  · by_cases plain : (!intOnly && pointDigit (ptr.dropWhile isDigit)) = false
    · obtain ⟨value, run, amount, -⟩ := numberFromString_whole _ consumed empty split started plain
      by_cases none : ptr.takeWhile isDigit = []
      · -- a point and a digit, where an integer is wanted: only the sign is counted
        obtain ⟨same, d, rest, isdigit, shape⟩ := pointed_of_no_digits started none
        have intonly : intOnly = true := by
          rw [same, shape] at plain
          simpa [pointDigit, isdigit] using plain
        rw [same, parts, length_append, Nat.add_sub_cancel] at run
        rw [none, show clamp (factor negative * (1024 * decimal 0 [])) = 0 by simp [decimal, clamp]] at amount
        have nothing : ∀ text value, text <+: data → ¬ Numeral intOnly text value := by
          intro text value begins numeral
          obtain ⟨sign', ptr', parts', rfl, -, ⟨some, -⟩ | ⟨fraction, -⟩⟩ := numeral_prefix begins numeral
          · rw [split] at some
            simp [whole, none] at some
          · rw [intonly] at fraction
            cases fraction
        have counted : Reads data intOnly consumed ↔ sign = [] := by
          constructor
          · rintro ⟨value', length, run', ⟨text, begins, numeral, -⟩ | ⟨-, zero, -⟩⟩
            · exact absurd numeral (nothing text _ begins)
            · rw [parts, run] at run'
              cases run'
              exact length_eq_zero_iff.mp zero
          · rintro rfl
            exact ⟨value, 0, by rw [parts, run]; rfl, .inr ⟨nothing, rfl, amount⟩⟩
        rw [counted]
        constructor
        · rintro rfl
          exact ⟨fun bad => bad.2.no_digits.2 (by rw [split]; exact parts.symm), fun e => absurd e empty⟩
        · intro right
          by_contra some
          exact right.1 ⟨intonly, sign, _, d, rest, head, some, isdigit, by rw [parts, shape]⟩
      · refine good ⟨value, _, run, ?_⟩ fun bad => ?_
        · have longest := longest_whole head rest_eq none plain
          rw [amount, parts, length_append]
          rwa [show sign.length + ptr.length - (ptr.dropWhile isDigit).length = sign.length + whole ptr by omega]
        · have empty_digits := bad.2.no_digits.1
          rw [split] at empty_digits
          exact none empty_digits
    · obtain ⟨intonly, pointed⟩ : intOnly = false ∧ pointDigit (ptr.dropWhile isDigit) = true := by
        simpa using plain
      subst intonly
      obtain ⟨value, run, amount, -⟩ := numberFromString_fraction consumed empty split started pointed
      refine good ⟨value, _, run, ?_⟩ fun bad => by cases bad.1
      have longest := longest_fraction head rest_eq pointed
      have places_length := takeWhile_append_dropWhile_length (ptr.dropWhile isDigit).tail
      have point_length : (ptr.dropWhile isDigit).length = 1 + (ptr.dropWhile isDigit).tail.length := by
        cases shape : ptr.dropWhile isDigit with
        | nil => simp [shape, pointDigit] at pointed
        | cons point rest => rw [length_cons, tail_cons, Nat.add_comm]
      have same : (places ptr).length = whole (ptr.dropWhile isDigit).tail := rfl
      rw [amount, parts, length_append]
      rwa [show sign.length + ptr.length - ((ptr.dropWhile isDigit).tail.dropWhile isDigit).length =
        sign.length + (whole ptr + 1 + (places ptr).length) by omega]
  · refine good ⟨0, 0, ?_, ?_⟩ fun bad => ?_
    · have some : data.isEmpty = false := by simpa using empty
      simp [numberFromString, some, split, started]
    · exact longest_none (by rw [split]; exact Bool.eq_false_iff.mpr started)
    · obtain ⟨sign', f, d, rest, head', -, isdigit, shape⟩ := bad.2
      have after := splitSign_of_sign (ch '.' :: d :: rest) head' rfl (by decide)
      rw [← shape, split] at after
      simp only at after
      exact started (by rw [after]; simpa [starts] using isdigit)

/-- Only an integer is wanted of a plus sign, a point and a digit: the sign counts as read. -/
theorem sign_counted : ¬ ∀ (data : LwcString) (intOnly : Bool) (consumed : Nat), Reads data intOnly consumed := by
  intro all
  obtain ⟨value, length, run, longest⟩ := all (lit "+.5") true 0
  have counted : numberFromString (lit "+.5") true 0 = some (0, 1) := by decide
  rw [counted] at run
  cases run
  obtain ⟨text, begins, numeral, -⟩ | ⟨-, zero, -⟩ := longest
  · obtain ⟨sign, ptr, -, rfl, -, ⟨some, -⟩ | ⟨fraction, -⟩⟩ := numeral_prefix begins numeral
    · exact absurd some (by decide)
    · cases fraction
  · cases zero

end Besra.NumberText
