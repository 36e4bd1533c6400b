import Besra.CharsetCodec

/-!
The UTF-8 codec, encoding (codec_utf8.c, utf8impl.h), against the decoding.

`UTF8_FROM_UCS4` writes its bytes from the last one back and shifts its argument out on the way, so what it leaves
there is part of its result.  A character for which a buffer has no room waits in `writeBuf`.  The source is a list of
UCS-4 characters, four bytes of the caller's buffer each.
-/

namespace Besra.Utf8

open Lwc CharsetCodec List

/-- The length that `UTF8_FROM_UCS4` chooses, or nothing above 0x7FFFFFFF. -/
def encodedLength (ucs4 : UInt32) : Option ℕ :=
  if ucs4 < 0x80 then some 1
  else if ucs4 < 0x800 then some 2
  else if ucs4 < 0x10000 then some 3
  else if ucs4 < 0x200000 then some 4
  else if ucs4 < 0x4000000 then some 5
  else if ucs4 ≤ 0x7FFFFFFF then some 6
  else none

/-- The loop over `n` continuation bytes, the last one first, in front of `later`; and what is left of the
character. -/
def continuations : ℕ → UInt32 → List UInt8 → UInt32 × List UInt8
  | 0, ucs4, later => (ucs4, later)
  | n + 1, ucs4, later => continuations n (ucs4 >>> 6) ((0x80 ||| (ucs4 &&& 0x3F)).toUInt8 :: later)

/-- The start byte of a sequence of `l` bytes, two at least, over the bits that are left for it. -/
def startByte (l : ℕ) (ucs4 : UInt32) : UInt8 :=
  (~~~((1 <<< (8 - l.toUInt32)) - 1) ||| ucs4).toUInt8

/-- The bytes of a sequence of length `l`, and what is left of the character. -/
def sequence (l : ℕ) (ucs4 : UInt32) : List UInt8 × UInt32 :=
  if l = 1 then ([ucs4.toUInt8], ucs4)
  else
    let (ucs4, later) := continuations (l - 1) ucs4 []
    (startByte l ucs4 :: later, ucs4)

/-- `UTF8_FROM_UCS4` into a buffer with `len` bytes of room: the bytes written and what it leaves in its argument. -/
def fromUcs4 (ucs4 : UInt32) (len : ℕ) : Except Error (List UInt8 × UInt32) :=
  match encodedLength ucs4 with
  | none => .error .invalid
  | some l => if l > len then .error .nomem else .ok (sequence l ucs4)

/-- The bytes that `UTF8_FROM_UCS4` puts into the buffer. -/
def put (x : UInt32) (len : ℕ) : Except Error (List UInt8) := (fromUcs4 x len).map Prod.fst

/-- `charset_utf8_codec_encode` -/
def encode (writeBuf : List UInt32) (a : Output) : Option (Error × List UInt32 × Output) :=
  CharsetCodec.encode put writeBuf a

def encodeAll (sizes : ℕ → ℕ) : ℕ → List UInt32 → List UInt32 → ℕ → Option (List UInt8) :=
  CharsetCodec.encodeAll put sizes

theorem low_toNat (x : UInt32) : (x &&& 0x3F).toNat = x.toNat % 64 := by
  rw [UInt32.toNat_and]
  exact Nat.and_two_pow_sub_one_eq_mod x.toNat 6

theorem upper_toNat (x : UInt32) : (x >>> 6).toNat = x.toNat / 64 := by
  rw [UInt32.toNat_shiftRight]
  exact Nat.shiftRight_eq_div_pow x.toNat 6

theorem join_toNat {y t : UInt32} (upper : y.toNat < 2 ^ 26) (low : t.toNat < 64) :
    (y <<< 6 ||| t).toNat = y.toNat * 64 + t.toNat := by
  have shifted : (y <<< 6).toNat = y.toNat <<< 6 := by
    rw [UInt32.toNat_shiftLeft]
    refine Nat.mod_eq_of_lt ?_
    change y.toNat <<< 6 < 2 ^ 32
    rw [Nat.shiftLeft_eq]
    omega
  rw [UInt32.toNat_or, shifted, ← Nat.shiftLeft_add_eq_or_of_lt (i := 6) low, Nat.shiftLeft_eq]

theorem upper_or_low (x : UInt32) : (x >>> 6) <<< 6 ||| (x &&& 0x3F) = x := by
  have bound := x.toNat_lt
  apply UInt32.toNat_inj.mp
  rw [join_toNat, upper_toNat, low_toNat]
  · omega
  · rw [upper_toNat]
    omega
  · rw [low_toNat]
    omega

theorem continuation_low (x : UInt32) :
    isContinuation (0x80 ||| (x &&& 0x3F)).toUInt8 = true ∧
      (0x80 ||| (x &&& 0x3F)).toUInt8.toUInt32 &&& 0x3F = x &&& 0x3F := by
  have all : ∀ k : Fin 64, isContinuation (0x80 ||| UInt32.ofNat k).toUInt8 = true ∧
      (0x80 ||| UInt32.ofNat k).toUInt8.toUInt32 &&& 0x3F = UInt32.ofNat k := by decide
  have low : (x &&& 0x3F).toNat < 64 := by
    rw [low_toNat]
    omega
  have made := all ⟨(x &&& 0x3F).toNat, low⟩
  rwa [UInt32.ofNat_toNat] at made

set_option maxRecDepth 2000 in
theorem continuation_eq (b : UInt8) (continuation : isContinuation b = true) :
    (0x80 ||| (b.toUInt32 &&& 0x3F)).toUInt8 = b := by
  revert continuation
  refine forall_byte (p := fun b => isContinuation b = true → (0x80 ||| (b.toUInt32 &&& 0x3F)).toUInt8 = b) ?_ b
  decide

theorem follow_append (c : UInt32) (s t : List UInt8) : follow c (s ++ t) = (follow c s).bind (follow · t) := by
  induction s generalizing c with
  | nil => rfl
  | cons b s ih =>
    rw [cons_append, follow, follow]
    split
    · exact ih _
    · rfl

theorem continuations_follow (n : ℕ) (x : UInt32) (later : List UInt8) :
    ∃ bytes, continuations n x later = ((continuations n x later).1, bytes ++ later) ∧ bytes.length = n ∧
      follow (continuations n x later).1 bytes = some x ∧
      (continuations n x later).1.toNat = x.toNat / 64 ^ n := by
  induction n generalizing x later with
  | zero => exact ⟨[], rfl, rfl, rfl, by simp [continuations]⟩
  | succ n ih =>
    obtain ⟨bytes, written, length, followed, left⟩ := ih (x >>> 6) ((0x80 ||| (x &&& 0x3F)).toUInt8 :: later)
    obtain ⟨continuation, low⟩ := continuation_low x
    rw [continuations]
    refine ⟨bytes ++ [(0x80 ||| (x &&& 0x3F)).toUInt8], ?_, ?_, ?_, ?_⟩
    · rw [written, append_assoc, singleton_append]
    · rw [length_append, length, length_singleton]
    · rw [follow_append, followed, Option.bind_some, follow, if_pos continuation, follow, low, upper_or_low]
    · rw [left, upper_toNat, Nat.div_div_eq_div_mul, Nat.pow_succ, Nat.mul_comm 64]

variable {x least : UInt32} {l limit n : ℕ}

theorem continuations_of_follow {c : UInt32} (bytes later : List UInt8)
    (room : (c.toNat + 1) * 64 ^ bytes.length ≤ 2 ^ 32) (followed : follow c bytes = some x) :
    continuations bytes.length x later = (c, bytes ++ later) ∧
      c.toNat * 64 ^ bytes.length ≤ x.toNat ∧ x.toNat < (c.toNat + 1) * 64 ^ bytes.length := by
  induction bytes using List.reverseRecOn generalizing x later with
  | nil =>
    cases followed
    simp [continuations]
  | append_singleton bytes b ih =>
    rw [length_append, length_singleton, Nat.pow_succ] at room ⊢
    have fewer : (c.toNat + 1) * 64 ^ bytes.length ≤ 2 ^ 26 := by
      have product : (c.toNat + 1) * (64 ^ bytes.length * 64) = (c.toNat + 1) * 64 ^ bytes.length * 64 :=
        (Nat.mul_assoc _ _ _).symm
      omega
    rw [follow_append] at followed
    rcases upper : follow c bytes with _ | y
    · rw [upper] at followed
      cases followed
    · rw [upper, Option.bind_some, follow] at followed
      split at followed
      next continuation =>
        rw [follow] at followed
        obtain ⟨written, lower, bound⟩ := ih ((0x80 ||| (b.toUInt32 &&& 0x3F)).toUInt8 :: later) (by omega) upper
        have low : (b.toUInt32 &&& 0x3F).toNat < 64 := by
          rw [low_toNat]
          omega
        have joined := join_toNat (y := y) (by omega) low
        rw [Option.some.injEq] at followed
        rw [followed] at joined
        have upperBits : x >>> 6 = y := by
          apply UInt32.toNat_inj.mp
          rw [upper_toNat]
          omega
        have lowBits : x &&& 0x3F = b.toUInt32 &&& 0x3F := by
          apply UInt32.toNat_inj.mp
          rw [low_toNat]
          omega
        refine ⟨?_, ?_, ?_⟩
        · rw [continuations, upperBits, lowBits, written, continuation_eq b continuation, append_assoc,
            singleton_append]
        · rw [← Nat.mul_assoc]
          omega
        · rw [← Nat.mul_assoc]
          omega
      next => cases followed

/-- The sequences of two bytes and more: the length, the least character and the bound of the bits in the start
byte. -/
def forms : List (ℕ × UInt32 × ℕ) :=
  [(2, 0x80, 0x20), (3, 0x800, 0x10), (4, 0x10000, 0x08), (5, 0x200000, 0x04), (6, 0x4000000, 0x02)]

theorem start_startByte (form : (l, least, limit) ∈ forms) (fits : x.toNat < limit) :
    start (startByte l x) = some (x, l, least) := by
  have all : ∀ form ∈ forms, ∀ k < form.2.2,
      start (startByte form.1 (UInt32.ofNat k)) = some (UInt32.ofNat k, form.1, form.2.1) := by decide
  have found := all _ form x.toNat fits
  rwa [UInt32.ofNat_toNat] at found

/-- What `UTF8_TO_UCS4` takes from a start byte is what `UTF8_FROM_UCS4` puts there. -/
def startAgrees (b : UInt8) : Bool :=
  match start b with
  | none => true
  | some (x, l, least) =>
    (l == 1 && least == 0 && x < 0x80 && x.toUInt8 == b) ||
      forms.any fun form => l == form.1 && least == form.2.1 && x.toNat < form.2.2 && startByte l x == b

set_option maxRecDepth 4000 in
theorem startAgrees_all (b : UInt8) : startAgrees b = true := by
  refine forall_byte (p := fun b => startAgrees b = true) ?_ b
  decide

theorem start_cases {b : UInt8} (found : start b = some (x, l, least)) :
    (l = 1 ∧ x < 0x80 ∧ x.toUInt8 = b) ∨
      ∃ limit, (l, least, limit) ∈ forms ∧ x.toNat < limit ∧ startByte l x = b := by
  have agrees := startAgrees_all b
  simp only [startAgrees, found, Bool.or_eq_true, Bool.and_eq_true, beq_iff_eq, decide_eq_true_eq,
    any_eq_true] at agrees
  rcases agrees with ⟨⟨⟨one, -⟩, small⟩, same⟩ | ⟨⟨l', least', limit⟩, member, ⟨⟨length, least⟩, small⟩, same⟩
  · exact .inl ⟨one, small, same⟩
  · simp only at length least
    subst length least
    exact .inr ⟨limit, member, small, same⟩

theorem encodedLength_cases (chosen : encodedLength x = some l) :
    (l = 1 ∧ x < 0x80) ∨ ∃ least limit, (l, least, limit) ∈ forms ∧ least ≤ x ∧ x.toNat < limit * 64 ^ (l - 1) := by
  simp only [encodedLength, UInt32.lt_iff_toNat_lt, UInt32.le_iff_toNat_le] at chosen ⊢
  split_ifs at chosen <;> cases chosen
  · exact .inl ⟨rfl, by assumption⟩
  · exact .inr ⟨0x80, 0x20, by decide, by simp at *; omega, by simp at *; omega⟩
  · exact .inr ⟨0x800, 0x10, by decide, by simp at *; omega, by simp at *; omega⟩
  · exact .inr ⟨0x10000, 0x08, by decide, by simp at *; omega, by simp at *; omega⟩
  · exact .inr ⟨0x200000, 0x04, by decide, by simp at *; omega, by simp at *; omega⟩
  · exact .inr ⟨0x4000000, 0x02, by decide, by simp at *; omega, by simp at *; omega⟩

theorem encodedLength_of_form (form : (l, least, limit) ∈ forms) (lower : least ≤ x)
    (upper : x.toNat < limit * 64 ^ (l - 1)) : encodedLength x = some l := by
  simp only [forms, mem_cons, Prod.mk.injEq, not_mem_nil, or_false] at form
  simp only [encodedLength, UInt32.lt_iff_toNat_lt, UInt32.le_iff_toNat_le] at lower ⊢
  rcases form with ⟨rfl, rfl, rfl⟩ | ⟨rfl, rfl, rfl⟩ | ⟨rfl, rfl, rfl⟩ | ⟨rfl, rfl, rfl⟩ | ⟨rfl, rfl, rfl⟩ <;>
    simp only [UInt32.reduceToNat, Nat.reduceSub, Nat.reducePow, Nat.reduceMul] at lower upper ⊢ <;>
    split_ifs <;> first | rfl | omega

/-- The characters that `UTF8_TO_UCS4` can give. -/
def Character (x : UInt32) : Prop :=
  x ≤ 0x7FFFFFFF ∧ ¬(0xD800 ≤ x ∧ x ≤ 0xDFFF) ∧ x ≠ 0xFFFE ∧ x ≠ 0xFFFF

instance (x : UInt32) : Decidable (Character x) := by
  unfold Character
  infer_instance

theorem Character.length (character : Character x) : ∃ l, encodedLength x = some l ∧ 1 ≤ l ∧ l ≤ 6 := by
  have top := character.1
  unfold encodedLength
  split_ifs
  all_goals exact ⟨_, rfl, by decide, by decide⟩

theorem encodedLength_le (chosen : encodedLength x = some l) : x ≤ 0x7FFFFFFF := by
  simp only [encodedLength, UInt32.lt_iff_toNat_lt, UInt32.le_iff_toNat_le, UInt32.reduceToNat] at chosen ⊢
  split_ifs at chosen <;> omega

theorem forms_length (form : (l, least, limit) ∈ forms) : 2 ≤ l ∧ l ≤ 6 := by
  have all : ∀ form ∈ forms, 2 ≤ form.1 ∧ form.1 ≤ 6 := by decide
  exact all _ form

theorem forms_room (form : (l, least, limit) ∈ forms) : limit * 64 ^ (l - 1) ≤ 2 ^ 32 := by
  have all : ∀ form ∈ forms, form.2.2 * 64 ^ (form.1 - 1) ≤ 2 ^ 32 := by decide
  exact all _ form

theorem toUcs4_sequence (character : Character x) (chosen : encodedLength x = some l) :
    (sequence l x).1.length = l ∧ ∀ more, toUcs4 ((sequence l x).1 ++ more) = .ok (x, l) := by
  have plain : ¬((0xD800 ≤ x ∧ x ≤ 0xDFFF) ∨ x = 0xFFFE ∨ x = 0xFFFF) := by
    rintro (surrogate | fffe | ffff)
    · exact character.2.1 surrogate
    · exact character.2.2.1 fffe
    · exact character.2.2.2 ffff
  rcases encodedLength_cases chosen with ⟨rfl, small⟩ | ⟨least, limit, form, lower, upper⟩
  · refine ⟨rfl, fun more => ?_⟩
    have same : x.toUInt8.toUInt32 = x := by
      apply UInt32.toNat_inj.mp
      rw [UInt32.lt_iff_toNat_lt] at small
      simp only [UInt32.reduceToNat] at small
      simp only [UInt8.toNat_toUInt32, UInt32.toNat_toUInt8]
      omega
    have first : start x.toUInt8 = some (x, 1, 0) := by
      rw [start, same]
      exact if_pos small
    rw [sequence, if_pos rfl, singleton_append, toUcs4, first]
    simp only
    rw [if_neg (by omega), take_zero, follow]
    exact if_neg (not_or.mpr ⟨UInt32.not_lt.mpr (UInt32.zero_le), plain⟩)
  · obtain ⟨two, -⟩ := forms_length form
    obtain ⟨bytes, written, length, followed, left⟩ := continuations_follow (l - 1) x []
    have fits : (continuations (l - 1) x []).1.toNat < limit := by
      rw [left]
      exact Nat.div_lt_of_lt_mul (by rwa [Nat.mul_comm])
    have made : (sequence l x).1 = startByte l (continuations (l - 1) x []).1 :: bytes := by
      rw [sequence, if_neg (by omega), written, append_nil]
    refine ⟨?_, fun more => ?_⟩
    · rw [made, length_cons, length]
      omega
    · rw [made, cons_append, toUcs4, start_startByte form fits]
      simp only
      rw [if_neg (by rw [length_append, length]; omega), take_append_of_le_length (by omega),
        take_of_length_le (by omega), followed]
      exact if_neg (not_or.mpr ⟨UInt32.not_lt.mpr lower, plain⟩)

theorem sequence_toUcs4 {s : List UInt8} (read : toUcs4 s = .ok (x, n)) :
    Character x ∧ encodedLength x = some n ∧ (sequence n x).1 = s.take n := by
  rcases s with _ | ⟨b, later⟩
  · cases read
  · rw [toUcs4] at read
    split at read
    · cases read
    next y l least found =>
      split at read
      · cases read
      next long =>
        split at read
        · cases read
        next z followed =>
          split at read
          · cases read
          next accepted =>
            cases read
            simp only [not_or] at accepted
            obtain ⟨lower, surrogate, fffe, ffff⟩ := accepted
            have lower := UInt32.not_lt.mp lower
            have within : x ≤ 0x7FFFFFFF → Character x := fun top => ⟨top, surrogate, fffe, ffff⟩
            rcases start_cases found with ⟨rfl, small, same⟩ | ⟨limit, form, fits, same⟩
            · cases followed
              have chosen : encodedLength x = some 1 := if_pos small
              refine ⟨within (encodedLength_le chosen), chosen, ?_⟩
              rw [sequence, if_pos rfl, same, take_succ_cons, take_zero]
            · obtain ⟨two, -⟩ := forms_length form
              have length : (later.take (n - 1)).length = n - 1 := length_take_of_le (by omega)
              have bound := Nat.mul_le_mul_right (64 ^ (n - 1)) (Nat.succ_le_of_lt fits)
              obtain ⟨written, -, upper⟩ := continuations_of_follow (later.take (n - 1)) []
                (by rw [length]; exact Nat.le_trans bound (forms_room form)) followed
              rw [length] at written upper
              have chosen := encodedLength_of_form form lower (Nat.lt_of_lt_of_le upper bound)
              refine ⟨within (encodedLength_le chosen), chosen, ?_⟩
              rw [sequence, if_neg (by omega), written, append_nil]
              simp only [same]
              rw [← take_succ_cons, Nat.sub_add_cancel (by omega)]

def encoded (x : UInt32) : List UInt8 :=
  match encodedLength x with
  | some l => (sequence l x).1
  | none => []

def encodedText (xs : List UInt32) : List UInt8 :=
  xs.flatMap encoded

theorem toUcs4_encoded (character : Character x) :
    1 ≤ (encoded x).length ∧ (encoded x).length ≤ 6 ∧
      ∀ more, toUcs4 (encoded x ++ more) = .ok (x, (encoded x).length) := by
  obtain ⟨l, chosen, positive, bounded⟩ := character.length
  obtain ⟨length, read⟩ := toUcs4_sequence character chosen
  simp only [encoded, chosen, length]
  exact ⟨positive, bounded, read⟩

theorem fromUcs4_cases (character : Character x) (len : ℕ) :
    ((encoded x).length ≤ len ∧ ∃ left, fromUcs4 x len = .ok (encoded x, left)) ∨
      len < (encoded x).length ∧ fromUcs4 x len = .error .nomem := by
  obtain ⟨l, chosen, -⟩ := character.length
  obtain ⟨length, -⟩ := toUcs4_sequence character chosen
  simp only [encoded, fromUcs4, chosen, length]
  by_cases short : l > len
  · exact .inr ⟨short, if_pos short⟩
  · exact .inl ⟨Nat.le_of_not_lt short, (sequence l x).2, if_neg short⟩

theorem writes_utf8 : CharsetCodec.Writer put Character encoded 6 where
  bounded := fun character => (toUcs4_encoded character).2.1
  cases := by
    intro x character len
    rcases fromUcs4_cases character len with ⟨room, left, written⟩ | ⟨short, refused⟩
    · exact .inl ⟨room, by rw [put, written]; rfl⟩
    · exact .inr ⟨short, by rw [put, refused]; rfl⟩

theorem readChar_ok {c : Codec} {a : Args} (read : toUcs4 a.source = .ok (x, n)) :
    readChar c a = some (deliver c x n a) := by
  rw [readChar, read]

theorem reads_utf8 : Reads toUcs4 readChar :=
  ⟨rfl, length_of_waiting, readChar_wait, readChar_ok⟩

theorem code_utf8 : Code toUcs4 Character encoded where
  positive := fun character => (toUcs4_encoded character).1
  whole := fun character => (toUcs4_encoded character).2.2
  part := by
    rintro x character p ⟨rest, whole⟩ short
    by_contra decided
    obtain ⟨-, -, read⟩ := toUcs4_encoded character
    have same := toUcs4_append rest decided
    have read := read []
    rw [append_nil, ← whole, same] at read
    rcases p with _ | ⟨b, p⟩
    · cases read
    · have within := (toUcs4_ok read).2.1
      rw [length_cons] at short
      rw [whole] at within
      omega

/-- What the encoder writes for any characters, into buffers of six bytes at least and called again after NOMEM, the
decoder reads back, in any error mode, from any chunks and into any buffers; and what is read as a character anywhere
is what would be written for it, so that no character is read from two sequences. -/
theorem encode_decode_inverse (xs : List UInt32) (characters : ∀ x ∈ xs, Character x) {sizes : ℕ → ℕ}
    (room : ∀ i, 6 ≤ sizes i) :
    (∃ bytes, encodeAll sizes (xs.length + 1) [] xs 0 = some bytes ∧
      ∀ mode chunks sizes', (∀ i, 4 ≤ sizes' i) → chunks.flatten = bytes →
        decodeChunks sizes' (create mode) chunks 0 = some xs) ∧
      (∀ s x n, toUcs4 s = .ok (x, n) → ∀ len, n ≤ len → ∃ left, fromUcs4 x len = .ok (s.take n, left)) ∧
      ∀ s t x n m, toUcs4 s = .ok (x, n) → toUcs4 t = .ok (x, m) → s.take n = t.take m := by
  refine ⟨⟨encodedText xs, ?_, ?_⟩, ?_, ?_⟩
  · exact encodeAll_written writes_utf8 room (xs.length + 1) [] xs 0 characters (Nat.zero_le 1) (Nat.lt_succ_self _)
  · rintro mode chunks sizes' room' whole
    refine decodeChunks_encoded reads_utf8 code_utf8 room' chunks 0 rfl ⟨rfl, Nat.zero_le 1, characters, xs, rfl, ?_⟩
    rw [whole]
    rfl
  · intro s x n read len enough
    obtain ⟨-, chosen, written⟩ := sequence_toUcs4 read
    rw [fromUcs4, chosen, ← written]
    exact ⟨(sequence n x).2, if_neg (Nat.not_lt.mpr enough)⟩
  · intro s t x n m read read'
    obtain ⟨-, chosen, written⟩ := sequence_toUcs4 read
    obtain ⟨-, chosen', written'⟩ := sequence_toUcs4 read'
    rw [chosen, Option.some.injEq] at chosen'
    subst chosen'
    rw [← written, written']

theorem character_mixed : ∀ x ∈ [0x24, 0x20AC, 0x10FFFF, 0x7FFFFFFF], Character x := by
  simp only [forall_mem_cons, not_mem_nil, false_imp_iff, implies_true, and_true]
  decide

/-- Characters of one, three, four and six bytes. -/
theorem encode_decode_inverse_of_mixed :
    (∃ bytes, encodeAll (fun _ => 6) 5 [] [0x24, 0x20AC, 0x10FFFF, 0x7FFFFFFF] 0 = some bytes ∧
      ∀ mode chunks sizes', (∀ i, 4 ≤ sizes' i) → chunks.flatten = bytes →
        decodeChunks sizes' (create mode) chunks 0 = some [0x24, 0x20AC, 0x10FFFF, 0x7FFFFFFF]) ∧
      (∀ s x n, toUcs4 s = .ok (x, n) → ∀ len, n ≤ len → ∃ left, fromUcs4 x len = .ok (s.take n, left)) ∧
      ∀ s t x n m, toUcs4 s = .ok (x, n) → toUcs4 t = .ok (x, m) → s.take n = t.take m :=
  encode_decode_inverse [0x24, 0x20AC, 0x10FFFF, 0x7FFFFFFF] character_mixed fun _ => Nat.le_refl 6

end Besra.Utf8
