import Mathlib.Algebra.BigOperators.Group.List.Basic
import Besra.Utf16

/-!
The UTF-16 codec, encoding (encodings/utf16.c, codec_utf16.c), against the decoding.

The plane of a supplementary character is or-ed into the high surrogate together with the character's upper bits, whose
lowest plane bit is not taken off: the decoder reads another character there, or none.
-/

namespace Besra.Utf16

open Lwc Utf8 CharsetCodec List

def unitBytes (u : UInt16) : List UInt8 := [u.toUInt8, (u >>> 8).toUInt8]

def highBits (ucs4 : UInt32) : UInt32 :=
  let plane : UInt32 := ucs4 >>> 16
  let upper : UInt32 := ucs4 >>> 10
  ((plane &&& 0x1F) - 1) ||| upper

/-- `parserutils_charset_utf16_from_ucs4` -/
def fromUcs4 (ucs4 : UInt32) : Except Error (List UInt8) :=
  if ucs4 < 0x10000 then .ok (unitBytes ucs4.toUInt16)
  else if ucs4 < 0x110000 then
    .ok (unitBytes (0xD800 ||| highBits ucs4).toUInt16 ++ unitBytes (0xDC00 ||| (ucs4 &&& 0x3FF)).toUInt16)
  else .error .invalid

/-- A character into a buffer with `len` bytes of room. -/
def put (ucs4 : UInt32) (len : ℕ) : Except Error (List UInt8) :=
  match fromUcs4 ucs4 with
  | .ok bytes => if len < bytes.length then .error .nomem else .ok bytes
  | .error e => .error e

/-- `charset_utf16_codec_encode` -/
def encode (writeBuf : List UInt32) (a : Output) : Option (Error × List UInt32 × Output) :=
  CharsetCodec.encode put writeBuf a

/-- Code points up to 0x10FFFF without surrogates. -/
def CodePoint (x : UInt32) : Prop := x ≤ 0x10FFFF ∧ ¬(0xD800 ≤ x ∧ x ≤ 0xDFFF)

instance (x : UInt32) : Decidable (CodePoint x) := inferInstanceAs (Decidable (_ ∧ _))

def written (x : UInt32) : List UInt8 :=
  match fromUcs4 x with
  | .ok bytes => bytes
  | .error _ => []

theorem unitAt_unitBytes (u : UInt16) (more : List UInt8) : unitAt (unitBytes u ++ more) 0 = u := by
  have bound : u.toNat < 65536 := u.toNat_lt
  have low : u.toUInt8.toUInt16.toNat = u.toNat % 256 := rfl
  have upper : (u >>> 8).toUInt8.toUInt16.toNat = u.toNat / 256 := by
    rw [UInt8.toNat_toUInt16, UInt16.toNat_toUInt8, UInt16.toNat_shiftRight]
    change u.toNat >>> 8 % 256 = _
    rw [Nat.shiftRight_eq_div_pow]
    omega
  have high : ((u >>> 8).toUInt8.toUInt16 <<< 8).toNat = (u.toNat / 256) <<< 8 := by
    rw [UInt16.toNat_shiftLeft, upper]
    refine Nat.mod_eq_of_lt ?_
    change (u.toNat / 256) <<< 8 < 65536
    rw [Nat.shiftLeft_eq]
    omega
  apply UInt16.toNat_inj.mp
  change (u.toUInt8.toUInt16 ||| (u >>> 8).toUInt8.toUInt16 <<< 8).toNat = u.toNat
  rw [UInt16.toNat_or, low, high, Nat.or_comm, ← Nat.shiftLeft_add_eq_or_of_lt (i := 8) (by omega), Nat.shiftLeft_eq]
  omega

theorem unitAt_pair (u v : UInt16) (more : List UInt8) :
    unitAt (unitBytes u ++ unitBytes v ++ more) 0 = u ∧ unitAt (unitBytes u ++ unitBytes v ++ more) 1 = v := by
  refine ⟨?_, ?_⟩
  · rw [append_assoc]
    exact unitAt_unitBytes u _
  · rw [← unitAt_drop, append_assoc]
    exact unitAt_unitBytes v more

theorem mask_toNat (x : UInt32) {mask : UInt32} {k : ℕ} (ones : mask.toNat = 2 ^ k - 1) :
    (x &&& mask).toNat = x.toNat % 2 ^ k := by
  rw [UInt32.toNat_and, ones, Nat.and_two_pow_sub_one_eq_mod]

variable {x : UInt32} {a a' : Args} {c c' : Codec} {e : Error}

theorem highBits_toNat (least : 0x10000 ≤ x) (most : x < 0x110000) :
    x.toNat / 1024 ≤ (highBits x).toNat ∧ (highBits x).toNat < 2048 := by
  have least : 65536 ≤ x.toNat := UInt32.le_iff_toNat_le.mp least
  have most : x.toNat < 1114112 := UInt32.lt_iff_toNat_lt.mp most
  have upper : (x >>> 10).toNat = x.toNat / 1024 := by
    rw [UInt32.toNat_shiftRight]
    exact Nat.shiftRight_eq_div_pow x.toNat 10
  have plane : (x >>> 16).toNat = x.toNat / 65536 := by
    rw [UInt32.toNat_shiftRight]
    exact Nat.shiftRight_eq_div_pow x.toNat 16
  obtain ⟨p, planeIs⟩ : ∃ p : UInt32, p = x >>> 16 := ⟨_, rfl⟩
  rw [← planeIs] at plane
  have five : (p &&& 0x1F).toNat = x.toNat / 65536 % 32 := by
    rw [mask_toNat p (k := 5) rfl, plane]
    rfl
  have positive : 1 ≤ p &&& 0x1F := by
    rw [UInt32.le_iff_toNat_le, five]
    change 1 ≤ _
    omega
  have minus : ((p &&& 0x1F) - 1).toNat < 2 ^ 11 := by
    rw [UInt32.toNat_sub_of_le _ _ positive, five]
    change x.toNat / 65536 % 32 - 1 < _
    omega
  have joined : (highBits x).toNat = ((p &&& 0x1F) - 1).toNat ||| x.toNat / 1024 := by
    rw [← upper, ← UInt32.toNat_or, planeIs]
    rfl
  rw [joined]
  exact ⟨Nat.right_le_or, Nat.or_lt_two_pow minus (by omega)⟩

theorem highUnit_toNat {bits : UInt32} (eleven : bits.toNat < 2048) :
    (0xD800 ||| bits).toUInt16.toNat = 0xD800 + bits.toNat := by
  have joined : (0xD800 ||| bits).toNat = 27 * 2 ^ 11 + bits.toNat := by
    rw [UInt32.toNat_or, ← Nat.shiftLeft_eq, Nat.shiftLeft_add_eq_or_of_lt eleven]
    rfl
  rw [UInt32.toNat_toUInt16, joined]
  omega

theorem lowUnit_toNat (x : UInt32) : (0xDC00 ||| (x &&& 0x3FF)).toUInt16.toNat = 0xDC00 + x.toNat % 1024 := by
  have ten : (x &&& 0x3FF).toNat = x.toNat % 1024 := mask_toNat x (k := 10) rfl
  have joined : (0xDC00 ||| (x &&& 0x3FF)).toNat = 55 * 2 ^ 10 + x.toNat % 1024 := by
    rw [UInt32.toNat_or, ten, ← Nat.shiftLeft_eq, Nat.shiftLeft_add_eq_or_of_lt (Nat.mod_lt _ (by decide))]
    rfl
  rw [UInt32.toNat_toUInt16, joined]
  omega

theorem joinSurrogates_toNat {high low : UInt16} {u v : ℕ} (first : high.toNat = 0xD800 + u) (ten : u < 1024)
    (second : low.toNat = 0xDC00 + v) (ten' : v < 1024) : (joinSurrogates high low).toNat = u * 1024 + v + 65536 := by
  have upper : (high.toUInt32 &&& 0x3FF).toNat = u := by
    rw [mask_toNat _ (k := 10) rfl, UInt16.toNat_toUInt32, first]
    omega
  have lower : (low.toUInt32 &&& 0x3FF).toNat = v := by
    rw [mask_toNat _ (k := 10) rfl, UInt16.toNat_toUInt32, second]
    omega
  rw [joinSurrogates]
  generalize (high.toUInt32 &&& 0x3FF) = a at upper ⊢
  generalize (low.toUInt32 &&& 0x3FF) = b at lower ⊢
  have shifted : (a <<< 10).toNat = u <<< 10 := by
    rw [UInt32.toNat_shiftLeft, upper]
    refine Nat.mod_eq_of_lt ?_
    change u <<< 10 < 2 ^ 32
    rw [Nat.shiftLeft_eq]
    omega
  have joined : (a <<< 10 ||| b).toNat = u * 1024 + v := by
    rw [UInt32.toNat_or, shifted, lower, ← Nat.shiftLeft_add_eq_or_of_lt (by omega), Nat.shiftLeft_eq]
  simp only [UInt32.toNat_add, joined]
  change (u * 1024 + v + 65536) % 2 ^ 32 = _
  omega

theorem toUcs4_unit (point : CodePoint x) (small : x < 0x10000) :
    fromUcs4 x = .ok (unitBytes x.toUInt16) ∧ ∀ more, toUcs4 (unitBytes x.toUInt16 ++ more) = .ok (x, 2) := by
  have bound : x.toNat < 65536 := UInt32.lt_iff_toNat_lt.mp small
  have same : x.toUInt16.toNat = x.toNat := by
    rw [UInt32.toNat_toUInt16]
    omega
  have plain : ¬IsSurrogate x.toUInt16 := by
    rintro ⟨lower, upper⟩
    rw [UInt16.le_iff_toNat_le, same] at lower upper
    exact point.2 ⟨UInt32.le_iff_toNat_le.mpr lower, UInt32.le_iff_toNat_le.mpr upper⟩
  refine ⟨if_pos small, fun more => ?_⟩
  have back : x.toUInt16.toUInt32 = x := by
    apply UInt32.toNat_inj.mp
    rw [UInt16.toNat_toUInt32, same]
  rw [toUcs4, if_neg (by simp [unitBytes]), unitAt_unitBytes]
  rw [if_pos (not_not.mp fun other => plain ((surrogate_iff _).mp other)), back]

theorem toUcs4_pair (point : CodePoint x) (supplementary : 0x10000 ≤ x) :
    ∃ bytes, fromUcs4 x = .ok bytes ∧ bytes.length = 4 ∧
      ∀ more, toUcs4 (bytes ++ more) = .error .invalid ∨ ∃ y, y ≠ x ∧ toUcs4 (bytes ++ more) = .ok (y, 4) := by
  have most : x < 0x110000 := by
    have top := UInt32.le_iff_toNat_le.mp point.1
    rw [UInt32.lt_iff_toNat_lt]
    exact Nat.lt_succ_of_le top
  have not_small : ¬x < 0x10000 := UInt32.not_lt.mpr supplementary
  obtain ⟨kept, eleven⟩ := highBits_toNat supplementary most
  have first := highUnit_toNat eleven
  have second := lowUnit_toNat x
  generalize highIs : (0xD800 ||| highBits x).toUInt16 = high at first
  generalize lowIs : (0xDC00 ||| (x &&& 0x3FF)).toUInt16 = low at second
  have written : fromUcs4 x = .ok (unitBytes high ++ unitBytes low) := by
    rw [fromUcs4, if_neg not_small, if_pos most, highIs, lowIs]
  refine ⟨_, written, rfl, fun more => ?_⟩
  obtain ⟨unit0, unit1⟩ := unitAt_pair high low more
  have long : 4 ≤ (unitBytes high ++ unitBytes low ++ more).length := by
    simp [unitBytes]
  have isLow : IsLow low := by
    rw [IsLow, UInt16.le_iff_toNat_le, UInt16.le_iff_toNat_le, second]
    refine ⟨Nat.le_add_right _ _, ?_⟩
    change 0xDC00 + x.toNat % 1024 ≤ 0xDFFF
    omega
  generalize unitBytes high ++ unitBytes low ++ more = text at unit0 unit1 long ⊢
  subst unit0 unit1
  by_cases plane16 : 1024 ≤ (highBits x).toNat
  · left
    have low' : IsLow (unitAt text 0) := by
      rw [IsLow, UInt16.le_iff_toNat_le, UInt16.le_iff_toNat_le, first]
      change 0xDC00 ≤ 0xD800 + (highBits x).toNat ∧ 0xD800 + (highBits x).toNat ≤ 0xDFFF
      omega
    rcases toUcs4_cases text with ⟨short, -⟩ | ⟨-, other, -⟩ | ⟨-, isHigh, -⟩ | ⟨-, isHigh, -⟩ | ⟨-, -, read⟩
    · omega
    · exact absurd (surrogate_of_low low') other
    · exact absurd isHigh (not_high_of_low low')
    · exact absurd isHigh (not_high_of_low low')
    · exact read
  · right
    have isHigh : IsHigh (unitAt text 0) := by
      rw [IsHigh, UInt16.le_iff_toNat_le, UInt16.le_iff_toNat_le, first]
      change 0xD800 ≤ 0xD800 + (highBits x).toNat ∧ 0xD800 + (highBits x).toNat ≤ 0xDBFF
      omega
    refine ⟨joinSurrogates (unitAt text 0) (unitAt text 1), ?_, ?_⟩
    · intro same
      have value := joinSurrogates_toNat first (by omega) second (Nat.mod_lt _ (by decide))
      rw [same] at value
      omega
    · rcases toUcs4_cases text with ⟨short, -⟩ | ⟨-, other, -⟩ | ⟨-, -, -, read⟩ | ⟨-, -, other, -⟩ | ⟨-, low', -⟩
      · omega
      · exact absurd (surrogate_of_high isHigh) other
      · exact read
      · exact absurd isLow other
      · exact absurd isHigh (not_high_of_low low')

def OneUnit (x : UInt32) : Prop := CodePoint x ∧ x < 0x10000

theorem written_cases (point : CodePoint x) : fromUcs4 x = .ok (written x) ∧
    ((x < 0x10000 ∧ written x = unitBytes x.toUInt16) ∨
      (0x10000 ≤ x ∧ (written x).length = 4 ∧
        ∀ more, toUcs4 (written x ++ more) = .error .invalid ∨ ∃ y, y ≠ x ∧ toUcs4 (written x ++ more) = .ok (y, 4))) := by
  by_cases small : x < 0x10000
  · have unit := (toUcs4_unit point small).1
    have same : written x = unitBytes x.toUInt16 := by rw [written, unit]
    exact ⟨by rw [same, unit], .inl ⟨small, same⟩⟩
  · obtain ⟨bytes, pair, length, other⟩ := toUcs4_pair point (UInt32.not_lt.mp small)
    have same : written x = bytes := by rw [written, pair]
    exact ⟨by rw [same, pair], .inr ⟨UInt32.not_lt.mp small, by rw [same, length], by rw [same]; exact other⟩⟩

theorem writes_utf16 : CharsetCodec.Writer put CodePoint written 4 where
  bounded := by
    intro x point
    rcases (written_cases point).2 with ⟨-, same⟩ | ⟨-, length, -⟩
    · rw [same]
      exact Nat.le_of_ble_eq_true rfl
    · exact length.le
  cases := by
    intro x point len
    rw [put, (written_cases point).1]
    simp only
    by_cases short : len < (written x).length
    · exact .inr ⟨short, if_pos short⟩
    · exact .inl ⟨Nat.le_of_not_lt short, if_neg short⟩

theorem readChar_ok {n : ℕ} (read : toUcs4 a.source = .ok (x, n)) : readChar c a = some (deliver c x n a) := by
  rw [readChar, read]

theorem waiting_length {s : List UInt8} (waiting : toUcs4 s = .error .needdata) : s.length < 4 := by
  rcases toUcs4_cases s with ⟨short, -⟩ | ⟨-, -, read⟩ | ⟨-, -, -, read⟩ | ⟨-, -, -, read⟩ | ⟨-, -, read⟩
  · exact short
  all_goals
    rw [read] at waiting
    cases waiting

theorem reads_utf16 : Reads toUcs4 readChar where
  blank := rfl
  brief := fun waiting => by
    have short := waiting_length waiting
    omega
  wait := by
    intro c a waiting
    have short := waiting_length waiting
    rw [readChar, waiting]
    exact if_pos (by rw [invalBufsize]; omega)
  take := readChar_ok

theorem code_utf16 : Code toUcs4 OneUnit written where
  positive := by
    rintro x ⟨point, small⟩
    rw [written, (toUcs4_unit point small).1]
    exact Nat.le_of_ble_eq_true rfl
  whole := by
    rintro x ⟨point, small⟩ more
    obtain ⟨unit, read⟩ := toUcs4_unit point small
    rw [written, unit]
    exact read more
  part := by
    rintro x ⟨point, small⟩ p - short
    rw [written, (toUcs4_unit point small).1] at short
    exact if_pos short

theorem output_grows (c : Codec) (x : UInt32) (a : Args) : a.dest <+: (outputDecodedChar c x a).2.2.dest := by
  rcases outputDecodedChar_cases c x a with ⟨-, shown⟩ | ⟨-, shown⟩ <;> rw [shown]
  exact prefix_append _ _

theorem deliver_grows (c : Codec) (x : UInt32) (n : ℕ) (a : Args) : a.dest <+: (deliver c x n a).2.2.dest :=
  output_grows _ _ { a with source := a.source.drop n }

theorem readChar_grows (read : readChar c a = some (e, c', a')) : a.dest <+: a'.dest := by
  have output : ∀ {result : Error × Codec × Args}, some result = some (e, c', a') → a.dest <+: result.2.2.dest →
      a.dest <+: a'.dest := by
    rintro result same grows
    cases same
    exact grows
  unfold readChar at read
  split at read
  · exact output read (deliver_grows _ _ _ _)
  · split_ifs at read
    cases read
    exact prefix_refl _
  · split_ifs at read
    · cases read
      exact prefix_refl _
    all_goals
      split at read
      · cases read
      · exact output read (deliver_grows _ _ _ _)
      · first
          | cases read
          | exact output read (output_grows _ _ { a with source := [] })
      · cases read
        exact prefix_refl _
  · cases read
    exact prefix_refl _

theorem readLoop_grows {fuel : ℕ} (looped : CharsetCodec.readLoop readChar fuel c a = some (e, c', a')) :
    a.dest <+: a'.dest := by
  induction fuel generalizing c a with
  | zero =>
    rw [CharsetCodec.readLoop] at looped
    split_ifs at looped
    cases looped
    exact prefix_refl _
  | succ fuel ih =>
    rw [CharsetCodec.readLoop] at looped
    split_ifs at looped
    · cases looped
      exact prefix_refl _
    · rcases read : readChar c a with _ | ⟨e₁, c₁, a₁⟩
      · rw [read] at looped
        cases looped
      · rw [read] at looped
        simp only at looped
        split_ifs at looped
        · exact (readChar_grows read).trans (ih looped)
        · cases looped
          exact readChar_grows read

theorem readLoop_front (front : List UInt32) (units : ∀ x ∈ front, OneUnit x) (mode : ErrorMode) (fuel : ℕ)
    (more : List UInt8) (dest : List UInt32) (destlen : ℕ) (room : front.length * 4 ≤ destlen) :
    CharsetCodec.readLoop readChar (front.length + fuel) (create mode) ⟨front.flatMap written ++ more, dest, destlen⟩ =
      CharsetCodec.readLoop readChar fuel (create mode) ⟨more, dest ++ front, destlen - front.length * 4⟩ := by
  induction front generalizing dest destlen with
  | nil => simp
  | cons x later ih =>
    obtain ⟨unit, units⟩ := forall_mem_cons.mp units
    rw [length_cons] at room ⊢
    have read := code_utf16.whole unit (later.flatMap written ++ more)
    have positive := code_utf16.positive unit
    have some : written x ++ (later.flatMap written ++ more) ≠ [] := by
      intro none
      rw [(append_eq_nil_iff.mp none).1] at positive
      exact absurd positive (by decide)
    have delivered : deliver (create mode) x (written x).length
        ⟨written x ++ (later.flatMap written ++ more), dest, destlen⟩ =
          (.ok, create mode, ⟨later.flatMap written ++ more, dest ++ [x], destlen - 4⟩) := by
      rw [deliver, outputDecodedChar, if_neg (by simp only; omega)]
      simp only [drop_left]
      rfl
    rw [Nat.succ_add_eq_add_succ, Nat.add_succ, CharsetCodec.readLoop, flatMap_cons, append_assoc,
      if_neg some, readChar_ok read, delivered]
    simp only [if_true]
    rw [ih units (dest ++ [x]) (destlen - 4) (by omega), append_assoc, singleton_append]
    congr 2
    omega

theorem decodeChunks_grows {sizes : ℕ → ℕ} {source : List UInt8} {out : List UInt32}
    (decoded : CharsetCodec.decode readChar c ⟨source, [], sizes 0⟩ = some (e, c', a'))
    (all : CharsetCodec.decodeChunks readChar sizes c [source] 0 = some out) :
    (e = .ok ∨ e = .nomem) ∧ a'.dest <+: out := by
  rw [CharsetCodec.decodeChunks, CharsetCodec.decodeChunk, decoded] at all
  cases e with
  | ok =>
    simp only [CharsetCodec.decodeChunks, append_nil, Option.some.injEq] at all
    exact ⟨.inl rfl, by rw [all]⟩
  | nomem =>
    simp only at all
    split at all
    · cases all
    next shown =>
      split at shown
      · cases shown
        simp only [CharsetCodec.decodeChunks, append_nil, Option.some.injEq] at all
        exact ⟨.inr rfl, by rw [← all]; exact prefix_append _ _⟩
      · cases shown
  | _ => cases all

theorem decode_create (mode : ErrorMode) (source : List UInt8) (size : ℕ) :
    CharsetCodec.decode readChar (create mode) ⟨source, [], size⟩ =
      CharsetCodec.readLoop readChar source.length (create mode) ⟨source, [], size⟩ := by
  rw [CharsetCodec.decode]
  simp only [create, flush, length_nil, Nat.zero_mul, Nat.not_lt_zero, if_false, CharsetCodec.resolve, if_true,
    ne_eq, not_true_eq_false]

theorem decodeChunks_supplementary {front later : List UInt32} (units : ∀ y ∈ front, OneUnit y) (point : CodePoint x)
    (supplementary : 0x10000 ≤ x) :
    CharsetCodec.decodeChunks readChar (fun _ => front.length * 4 + 4) (create .strict)
      [(front ++ x :: later).flatMap written] 0 ≠ some (front ++ x :: later) := by
  intro all
  obtain ⟨length, other⟩ : (written x).length = 4 ∧ ∀ more, toUcs4 (written x ++ more) = .error .invalid ∨
      ∃ y, y ≠ x ∧ toUcs4 (written x ++ more) = .ok (y, 4) := by
    rcases (written_cases point).2 with ⟨small, -⟩ | ⟨-, length, other⟩
    · exact absurd small (UInt32.not_lt.mpr supplementary)
    · exact ⟨length, other⟩
  have text : (front ++ x :: later).flatMap written = front.flatMap written ++ (written x ++ later.flatMap written) := by
    rw [flatMap_append, flatMap_cons]
  have fuel : ∃ k, ((front ++ x :: later).flatMap written).length = front.length + (k + 1) := by
    have front_le : front.length ≤ (front.flatMap written).length := by
      have sum := length_le_sum_of_one_le (front.map fun y => (written y).length) fun n member => by
        obtain ⟨y, within, rfl⟩ := mem_map.mp member
        exact code_utf16.positive (units y within)
      rwa [length_map, ← length_flatMap] at sum
    refine ⟨(front.flatMap written).length - front.length + 3 + (later.flatMap written).length, ?_⟩
    rw [text, length_append, length_append, length]
    omega
  obtain ⟨k, fuel⟩ := fuel
  rcases decoded : CharsetCodec.decode readChar (create .strict)
      ⟨(front ++ x :: later).flatMap written, [], front.length * 4 + 4⟩ with _ | ⟨e, c', a'⟩
  · rw [CharsetCodec.decodeChunks, CharsetCodec.decodeChunk, decoded] at all
    cases all
  · obtain ⟨usual, grown⟩ := decodeChunks_grows decoded all
    rw [decode_create, fuel, text, readLoop_front front units .strict (k + 1) _ _ _ (Nat.le_add_right _ _),
      nil_append, Nat.add_sub_cancel_left, CharsetCodec.readLoop,
      if_neg (append_ne_nil_of_left_ne_nil (length_pos_iff.mp (by omega)) _)] at decoded
    rcases other (later.flatMap written) with refused | ⟨y, differs, read⟩
    · rw [readChar, refused] at decoded
      cases decoded
      rcases usual with usual | usual <;> cases usual
    · have delivered : deliver (create .strict) y 4 ⟨written x ++ later.flatMap written, front, 4⟩ =
          (.ok, create .strict, ⟨later.flatMap written, front ++ [y], 0⟩) := by
        have behind : (written x ++ later.flatMap written).drop 4 = later.flatMap written := by
          rw [← length, drop_left]
        rw [deliver, outputDecodedChar, if_neg (Nat.lt_irrefl 4), behind]
        rfl
      rw [readChar_ok read, delivered] at decoded
      have together : front ++ [y] <+: front ++ x :: later := (readLoop_grows decoded).trans grown
      rw [prefix_append_right_inj, cons_prefix_cons] at together
      exact differs together.1

/-- What is written for a character is read back as this character, and as long. -/
def RoundTrip (x : UInt32) : Prop :=
  ∃ bytes, fromUcs4 x = .ok bytes ∧ toUcs4 bytes = .ok (x, bytes.length)

/-- `charset_utf16_codec_encode` called until all is written, with the buffers `sizes`. -/
def encodeAll (sizes : ℕ → ℕ) (xs : List UInt32) : Option (List UInt8) :=
  CharsetCodec.encodeAll put sizes (xs.length + 1) [] xs 0

/-- What is encoded into any buffers of four bytes at least is decoded again in any mode, from any chunks and into any
buffers of four bytes at least. -/
def Inverse (xs : List UInt32) : Prop :=
  ∀ sizes, (∀ i, 4 ≤ sizes i) → ∃ bytes, encodeAll sizes xs = some bytes ∧
    ∀ mode chunks sizes', (∀ i, 4 ≤ sizes' i) → chunks.flatten = bytes →
      CharsetCodec.decodeChunks readChar sizes' (create mode) chunks 0 = some xs

theorem roundTrip_iff (point : CodePoint x) : RoundTrip x ↔ x < 0x10000 := by
  constructor
  · rintro ⟨bytes, made, read⟩
    by_contra supplementary
    obtain ⟨bytes', made', -, other⟩ := toUcs4_pair point (UInt32.not_lt.mp supplementary)
    rw [made'] at made
    cases made
    rcases other [] with refused | ⟨y, differs, read'⟩
    · rw [append_nil, read] at refused
      cases refused
    · rw [append_nil, read, Except.ok.injEq, Prod.mk.injEq] at read'
      exact differs read'.1.symm
  · intro small
    obtain ⟨made, read⟩ := toUcs4_unit point small
    refine ⟨_, made, ?_⟩
    rw [← append_nil (unitBytes _), read []]
    rfl

theorem inverse_iff {xs : List UInt32} (points : ∀ x ∈ xs, CodePoint x) : Inverse xs ↔ ∀ x ∈ xs, x < 0x10000 := by
  have encoded : ∀ sizes, (∀ i, 4 ≤ sizes i) → encodeAll sizes xs = some (xs.flatMap written) := fun sizes room =>
    encodeAll_written writes_utf16 room (xs.length + 1) [] xs 0 points (Nat.zero_le 1) (Nat.lt_succ_self _)
  constructor
  · intro inverse
    by_contra some
    rcases found : xs.find? (fun x => decide (0x10000 ≤ x)) with _ | x
    · refine some fun x within => UInt32.not_le.mp fun supplementary => ?_
      have none := List.find?_eq_none.mp found x within
      exact none (decide_eq_true supplementary)
    · obtain ⟨supplementary, front, later, rfl, small⟩ := List.find?_eq_some_iff_append.mp found
      have units : ∀ y ∈ front, OneUnit y := by
        intro y within
        refine ⟨points y (mem_append_left _ within), UInt32.not_le.mp fun more => ?_⟩
        have less := small y within
        rw [decide_eq_true more] at less
        cases less
      have room : ∀ i : ℕ, 4 ≤ (fun _ => front.length * 4 + 4) i := fun _ => Nat.le_add_left _ _
      obtain ⟨bytes, whole, read⟩ := inverse _ room
      rw [encoded _ room, Option.some.injEq] at whole
      refine decodeChunks_supplementary units (points x (by simp)) (of_decide_eq_true supplementary)
        (read .strict _ _ room ?_)
      rw [whole, flatten_cons, flatten_nil, append_nil]
  · intro small sizes room
    refine ⟨_, encoded sizes room, fun mode chunks sizes' room' whole => ?_⟩
    refine decodeChunks_encoded reads_utf16 code_utf16 room' chunks 0 rfl
      ⟨rfl, Nat.zero_le 1, fun x within => ⟨points x within, small x within⟩, xs, rfl, ?_⟩
    rw [whole]
    rfl

/-- Encoding and decoding are inverse for the code points below 0x10000 and for no others: each by itself, and in any
text. -/
theorem roundTrips_iff (x : UInt32) (xs : List UInt32) :
    (CodePoint x → (RoundTrip x ↔ x < 0x10000)) ∧
      ((∀ x ∈ xs, CodePoint x) → (Inverse xs ↔ ∀ x ∈ xs, x < 0x10000)) :=
  ⟨roundTrip_iff, inverse_iff⟩

/-- U+10000 is written as U+20000. -/
theorem plane_one_garbled :
    CodePoint 0x10000 ∧ fromUcs4 0x10000 = .ok [0x40, 0xD8, 0x00, 0xDC] ∧
      toUcs4 [0x40, 0xD8, 0x00, 0xDC] = .ok (0x20000, 4) ∧ ¬RoundTrip 0x10000 ∧ ¬Inverse [0x10000] := by
  have point : CodePoint 0x10000 := by decide
  refine ⟨point, by decide, by decide, fun back => ?_, fun inverse => ?_⟩
  · exact absurd ((roundTrip_iff point).mp back) (by decide)
  · have points : ∀ x ∈ [0x10000], CodePoint x := by simpa using point
    have small := (inverse_iff points).mp inverse 0x10000 (mem_singleton_self _)
    exact absurd small (by decide)

end Besra.Utf16
