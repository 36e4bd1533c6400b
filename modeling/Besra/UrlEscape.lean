import Besra.Lwc

/-!
Percent escaping and unescaping (utils/url.c).

A C string is the bytes before its terminating NUL.  The pointers that are passed are not null and memory does not run
out.  Bytes are compared as the `char`s they are, which are signed.
-/

namespace Besra.UrlEscape

open Lwc List

/-- `ascii_is_hex` -/
def isHex (c : UInt8) : Bool :=
  (ch '0' ≤ c && c ≤ ch '9') || (ch 'a' ≤ c && c ≤ ch 'f') || (ch 'A' ≤ c && c ≤ ch 'F')

def xdigitToHex (c : UInt8) : UInt8 :=
  if ch '0' ≤ c ∧ c ≤ ch '9' then c - ch '0'
  else if ch 'A' ≤ c ∧ c ≤ ch 'F' then c - ch 'A' + 10
  else c - ch 'a' + 10

/-- The loop up to the last two bytes, which are copied as they are. -/
def unescape : List UInt8 → List UInt8
  | c :: c1 :: c2 :: rest =>
    if c = ch '%' ∧ isHex c1 ∧ isHex c2 then (xdigitToHex c1 <<< 4 ||| xdigitToHex c2) :: unescape rest
    else c :: unescape (c1 :: c2 :: rest)
  | rest => rest

/-- The string that the first two arguments of `url_unescape` name. -/
def given (str : List UInt8) (length : ℕ) : List UInt8 :=
  if length = 0 then str.takeWhile (· ≠ 0) else str.take length

/-- `url_unescape`: the bytes before the NUL of the result, and `length_out`. -/
def urlUnescape (str : List UInt8) (length : ℕ) : List UInt8 × ℕ :=
  let text := given str length
  let result := if text.length ≥ 3 then unescape text else text
  (result, result.length)

def delimiters : List UInt8 :=
  lit ":/?#[]@" ++ lit "!$&'()*+,;=" ++ lit "<>%\"\x7b\x7d|\\^`~"

/-- Whether `url_escape` escapes a byte; `escexceptions` may be null. -/
def shouldEscape (escexceptions : Option (List UInt8)) (c : UInt8) : Bool :=
  !(c < 0x80) ||
    (delimiters.contains c && escexceptions.all fun exceptions => !exceptions.contains c) ||
    c.toInt8 ≤ 0x20 || c == 0x7f

def hexDigit (n : UInt8) : UInt8 :=
  (lit "0123456789ABCDEF").getD n.toNat 0

/-- What `url_escape` writes for one byte. -/
def escapeByte (sptoplus : Bool) (escexceptions : Option (List UInt8)) (c : UInt8) : List UInt8 :=
  if shouldEscape escexceptions c then
    if c = 0x20 ∧ sptoplus then [ch '+'] else [ch '%', hexDigit (c >>> 4 &&& 0xf), hexDigit (c &&& 0xf)]
  else [c]

/-- `url_escape`, from the bytes before the NUL to the bytes before the NUL. -/
def urlEscape (unescaped : List UInt8) (sptoplus : Bool) (escexceptions : Option (List UInt8)) : List UInt8 :=
  unescaped.flatMap (escapeByte sptoplus escexceptions)

def Unreserved (c : UInt8) : Prop :=
  (ch 'a' ≤ c ∧ c ≤ ch 'z') ∨ (ch 'A' ≤ c ∧ c ≤ ch 'Z') ∨ (ch '0' ≤ c ∧ c ≤ ch '9') ∨
    c = ch '-' ∨ c = ch '.' ∨ c = ch '_'

instance (c : UInt8) : Decidable (Unreserved c) := by
  unfold Unreserved
  infer_instance

def Excepted (escexceptions : Option (List UInt8)) (c : UInt8) : Prop :=
  ∃ exceptions ∈ escexceptions, c ∈ exceptions

def UpperHex (c : UInt8) : Prop :=
  (ch '0' ≤ c ∧ c ≤ ch '9') ∨ (ch 'A' ≤ c ∧ c ≤ ch 'F')

instance (c : UInt8) : Decidable (UpperHex c) := by
  unfold UpperHex
  infer_instance

/-- Texts of unreserved and excepted characters and of triples. -/
inductive EscapedText (escexceptions : Option (List UInt8)) : List UInt8 → Prop where
  | nil : EscapedText escexceptions []
  | plain {c : UInt8} {rest : List UInt8} : Unreserved c ∨ Excepted escexceptions c →
      EscapedText escexceptions rest → EscapedText escexceptions (c :: rest)
  | triple {a b : UInt8} {rest : List UInt8} : UpperHex a → UpperHex b →
      EscapedText escexceptions rest → EscapedText escexceptions (ch '%' :: a :: b :: rest)

/-- The text goes on with two hex digits. -/
def HexPair : List UInt8 → Prop
  | a :: b :: _ => isHex a ∧ isHex b
  | _ => False

theorem unescape_length_le (t : List UInt8) : (unescape t).length ≤ t.length := by
  fun_induction unescape t with
  | case1 c c1 c2 rest pair ih =>
    simp only [length_cons]
    omega
  | case2 c c1 c2 rest other ih =>
    simp only [length_cons] at ih ⊢
    omega
  | case3 rest short => exact Nat.le_refl _

variable {c : UInt8} {after : List UInt8} {escexceptions : Option (List UInt8)}

theorem unescape_cons {rest : List UInt8} (copied : ¬(c = ch '%' ∧ HexPair rest)) :
    unescape (c :: rest) = c :: unescape rest := by
  rcases rest with _ | ⟨a, _ | ⟨b, rest⟩⟩
  · rfl
  · rfl
  · rw [unescape]
    exact if_neg copied

theorem HexPair.of_append {before : List UInt8} (pair : HexPair (before ++ ch '%' :: after)) : HexPair before := by
  have percent : ¬ isHex (ch '%') = true := by decide
  rcases before with _ | ⟨a, _ | ⟨b, rest⟩⟩
  · rcases after with _ | ⟨b, after⟩
    · exact pair
    · exact absurd pair.1 percent
  · exact absurd pair.2 percent
  · exact pair

theorem unescape_append_percent (before : List UInt8) (copied : ¬ HexPair after) :
    unescape (before ++ ch '%' :: after) = unescape before ++ ch '%' :: unescape after := by
  have alone : unescape (ch '%' :: after) = ch '%' :: unescape after := unescape_cons fun both => copied both.2
  have last : ∀ a, unescape (a :: ch '%' :: after) = a :: ch '%' :: unescape after := by
    intro a
    have lone : ¬ HexPair ([] ++ ch '%' :: after) := fun pair => pair.of_append
    rw [nil_append] at lone
    rw [unescape_cons fun both => lone both.2, alone]
  fun_induction unescape before with
  | case1 c c1 c2 rest pair ih =>
    simp only [cons_append]
    rw [unescape, if_pos pair, ih]
  | case2 c c1 c2 rest other ih =>
    simp only [cons_append] at ih ⊢
    rw [unescape, if_neg other, ih]
  | case3 rest short =>
    rcases rest with _ | ⟨a, _ | ⟨b, _ | ⟨c, rest⟩⟩⟩
    · exact alone
    · exact last a
    · have single : ¬ HexPair ([b] ++ ch '%' :: after) := fun pair => pair.of_append
      simp only [cons_append, nil_append] at single ⊢
      rw [unescape_cons fun both => single both.2, last]
    · exact absurd rfl (short a b c rest)

def digitsAgree (c : UInt8) : Bool :=
  let a := hexDigit (c >>> 4 &&& 0xf)
  let b := hexDigit (c &&& 0xf)
  decide (UpperHex a) && decide (UpperHex b) && isHex a && isHex b && xdigitToHex a <<< 4 ||| xdigitToHex b == c

set_option maxRecDepth 4000 in
theorem digitsAgree_all (c : UInt8) : digitsAgree c = true := by
  refine forall_byte (p := fun c => digitsAgree c = true) ?_ c
  decide

set_option maxRecDepth 4000 in
theorem unreserved_of_plain (c : UInt8) :
    c < 0x80 → delimiters.contains c = false → ¬ c.toInt8 ≤ 0x20 → c ≠ 0x7f → Unreserved c := by
  refine forall_byte (p := fun c => c < 0x80 → delimiters.contains c = false → ¬ c.toInt8 ≤ 0x20 → c ≠ 0x7f →
    Unreserved c) ?_ c
  decide

theorem escapeByte_length (sptoplus : Bool) (escexceptions : Option (List UInt8)) (c : UInt8) :
    1 ≤ (escapeByte sptoplus escexceptions c).length ∧ (escapeByte sptoplus escexceptions c).length ≤ 3 := by
  unfold escapeByte
  split_ifs <;> simp

theorem UpperHex.ne_zero (upper : UpperHex c) : c ≠ 0 := by
  rintro rfl
  revert upper
  decide

theorem escapeByte_ne_zero {sptoplus : Bool} {b : UInt8} (nonzero : c ≠ 0)
    (written : b ∈ escapeByte sptoplus escexceptions c) : b ≠ 0 := by
  have digits := digitsAgree_all c
  simp only [digitsAgree, Bool.and_eq_true, decide_eq_true_eq] at digits
  obtain ⟨⟨⟨⟨upper, upper'⟩, -⟩, -⟩, -⟩ := digits
  rw [escapeByte] at written
  split_ifs at written
  · rw [mem_singleton] at written
    rw [written]
    decide
  · simp only [mem_cons, not_mem_nil, or_false] at written
    rcases written with rfl | rfl | rfl
    · decide
    · exact upper.ne_zero
    · exact upper'.ne_zero
  · rw [mem_singleton] at written
    rwa [written]

theorem unreserved_of_kept (kept : shouldEscape escexceptions c = false) : Unreserved c ∨ Excepted escexceptions c := by
  simp only [shouldEscape, Bool.or_eq_false_iff, Bool.not_eq_false', decide_eq_true_eq, decide_eq_false_iff_not,
    beq_eq_false_iff_ne, ne_eq, Bool.and_eq_false_iff] at kept
  obtain ⟨⟨⟨ascii, delimiter | excepted⟩, space⟩, delete⟩ := kept
  · exact .inl (unreserved_of_plain c ascii delimiter space delete)
  · rcases escexceptions with _ | exceptions
    · cases excepted
    · refine .inr ⟨exceptions, rfl, ?_⟩
      simpa using excepted

theorem kept_ne_percent (percent : ¬ Excepted escexceptions (ch '%')) (kept : shouldEscape escexceptions c = false) :
    c ≠ ch '%' := by
  rintro rfl
  rcases unreserved_of_kept kept with unreserved | excepted
  · revert unreserved
    decide
  · exact percent excepted

theorem escapedText_urlEscape (escexceptions : Option (List UInt8)) (s : List UInt8) :
    EscapedText escexceptions (urlEscape s false escexceptions) := by
  induction s with
  | nil => exact .nil
  | cons c s ih =>
    have digits := digitsAgree_all c
    simp only [digitsAgree, Bool.and_eq_true, decide_eq_true_eq] at digits
    rw [urlEscape, flatMap_cons, escapeByte]
    split_ifs with escaped plus
    · cases plus.2
    · exact .triple digits.1.1.1.1 digits.1.1.1.2 ih
    · exact .plain (unreserved_of_kept (eq_false_of_ne_true escaped)) ih

theorem urlEscape_length_le (sptoplus : Bool) (escexceptions : Option (List UInt8)) (s : List UInt8) :
    s.length ≤ (urlEscape s sptoplus escexceptions).length ∧
      (urlEscape s sptoplus escexceptions).length ≤ 3 * s.length := by
  induction s with
  | nil => exact ⟨Nat.le_refl 0, Nat.le_refl 0⟩
  | cons c s ih =>
    have bounds := escapeByte_length sptoplus escexceptions c
    rw [urlEscape] at ih ⊢
    rw [flatMap_cons, length_append, length_cons]
    omega

theorem unescape_escapeByte (percent : ¬ Excepted escexceptions (ch '%')) (c : UInt8) (rest : List UInt8) :
    unescape (escapeByte false escexceptions c ++ rest) = c :: unescape rest := by
  have digits := digitsAgree_all c
  simp only [digitsAgree, Bool.and_eq_true, beq_iff_eq] at digits
  obtain ⟨⟨⟨-, first⟩, second⟩, same⟩ := digits
  rw [escapeByte]
  split_ifs with escaped plus
  · cases plus.2
  · simp only [cons_append, nil_append]
    rw [unescape, if_pos ⟨rfl, first, second⟩, same]
  · have other := kept_ne_percent percent (eq_false_of_ne_true escaped)
    exact unescape_cons fun both => other both.1

theorem unescape_urlEscape (percent : ¬ Excepted escexceptions (ch '%')) (s : List UInt8) :
    unescape (urlEscape s false escexceptions) = s := by
  induction s with
  | nil => rfl
  | cons c s ih =>
    rw [urlEscape] at ih ⊢
    rw [flatMap_cons, unescape_escapeByte percent, ih]

theorem urlUnescape_eq (str : List UInt8) (length : ℕ) :
    urlUnescape str length = (unescape (given str length), (unescape (given str length)).length) := by
  have same : (if (given str length).length ≥ 3 then unescape (given str length) else given str length) =
      unescape (given str length) := by
    rcases given str length with _ | ⟨a, _ | ⟨b, _ | ⟨c, rest⟩⟩⟩
    · rfl
    · rfl
    · rfl
    · exact if_pos (by simp)
  rw [urlUnescape]
  simp only [same]

theorem given_urlEscape (escexceptions : Option (List UInt8)) {s : List UInt8} (nulFree : 0 ∉ s) (behind : List UInt8)
    {length : ℕ} (named : length = 0 ∨ length = (urlEscape s false escexceptions).length) :
    given (urlEscape s false escexceptions ++ 0 :: behind) length = urlEscape s false escexceptions := by
  have counted : (urlEscape s false escexceptions ++ 0 :: behind).takeWhile (· ≠ 0) =
      urlEscape s false escexceptions := by
    rw [takeWhile_append_of_pos, takeWhile_cons_of_neg (by decide), append_nil]
    intro b member
    obtain ⟨c, within, written⟩ := mem_flatMap.mp member
    exact decide_eq_true (escapeByte_ne_zero (fun zero => nulFree (zero ▸ within)) written)
  unfold given
  rcases named with rfl | rfl
  · exact counted
  · split_ifs with empty
    · exact counted
    · exact take_left

/-- A string without NUL, escaped with any exceptions but `%`, consists of unreserved and excepted characters and
triples, is no longer than three times the string, and is unescaped to the string, whether its length is given or
left to be counted; unescaping never makes a string longer and parts it at each `%` without two hex digits after it. -/
theorem escape_round_trip (s : List UInt8) (nulFree : 0 ∉ s) (escexceptions : Option (List UInt8))
    (percent : ¬ Excepted escexceptions (ch '%')) :
    (∀ behind length, length = 0 ∨ length = (urlEscape s false escexceptions).length →
      urlUnescape (urlEscape s false escexceptions ++ 0 :: behind) length = (s, s.length)) ∧
      EscapedText escexceptions (urlEscape s false escexceptions) ∧
      (urlEscape s false escexceptions).length ≤ 3 * s.length ∧
      ∀ str length, (urlUnescape str length).2 = (urlUnescape str length).1.length ∧
        (urlUnescape str length).1.length ≤ (given str length).length ∧
        ∀ before after, given str length = before ++ ch '%' :: after → ¬ HexPair after →
          (urlUnescape str length).1 = unescape before ++ ch '%' :: unescape after := by
  refine ⟨?_, escapedText_urlEscape escexceptions s, (urlEscape_length_le false escexceptions s).2, ?_⟩
  · intro behind length named
    rw [urlUnescape_eq, given_urlEscape escexceptions nulFree behind named, unescape_urlEscape percent]
  · intro str length
    rw [urlUnescape_eq]
    refine ⟨rfl, unescape_length_le _, ?_⟩
    intro before after split copied
    simp only
    rw [split, unescape_append_percent before copied]

/-- A percent sign, a space and a byte from above 0x7f, with a colon excepted. -/
theorem escape_round_trip_of_mixed :
    urlEscape [ch '%', ch 'A', ch ':', 0x20, 0xe9] false (some (lit ":")) = lit "%25A:%20%E9" ∧
      urlUnescape (lit "%25A:%20%E9" ++ [0]) 11 = ([ch '%', ch 'A', ch ':', 0x20, 0xe9], 5) := by
  have trip := escape_round_trip [ch '%', ch 'A', ch ':', 0x20, 0xe9] (by decide) (some (lit ":")) (by
    rintro ⟨exceptions, same, member⟩
    cases same
    revert member
    decide)
  have written : urlEscape [ch '%', ch 'A', ch ':', 0x20, 0xe9] false (some (lit ":")) = lit "%25A:%20%E9" := by decide
  refine ⟨written, ?_⟩
  have read := trip.1 [] 11 (.inr (by rw [written]; rfl))
  rwa [written] at read

end Besra.UrlEscape
