import Besra.CharsetCodec

/-!
The UTF-16 codec, decoding (encodings/utf16.c, codec_utf16.c).  Code units have the byte order of the host, which is
little endian here.  What a sequence is cut into, and how characters go out, is as in `Utf8`.

`parserutils_charset_utf16_next_paranoid` has no branch for a low surrogate, so its loop goes round there without end:
`none` stands for that, as it does for an assertion that fails.
-/

namespace Besra.Utf16

open Lwc Utf8

/-- `ss[i]` -/
def unitAt (s : List UInt8) (i : ℕ) : UInt16 :=
  (s.getD (2 * i) 0).toUInt16 ||| (s.getD (2 * i + 1) 0).toUInt16 <<< 8

def IsHigh (u : UInt16) : Prop := 0xD800 ≤ u ∧ u ≤ 0xDBFF

def IsLow (u : UInt16) : Prop := 0xDC00 ≤ u ∧ u ≤ 0xDFFF

def IsSurrogate (u : UInt16) : Prop := 0xD800 ≤ u ∧ u ≤ 0xDFFF

instance (u : UInt16) : Decidable (IsHigh u) := inferInstanceAs (Decidable (_ ∧ _))

instance (u : UInt16) : Decidable (IsLow u) := inferInstanceAs (Decidable (_ ∧ _))

instance (u : UInt16) : Decidable (IsSurrogate u) := inferInstanceAs (Decidable (_ ∧ _))

def joinSurrogates (high low : UInt16) : UInt32 :=
  let upper : UInt32 := high.toUInt32 &&& 0x3FF
  let lower : UInt32 := low.toUInt32 &&& 0x3FF
  (upper <<< 10 ||| lower) + 0x10000

/-- `parserutils_charset_utf16_to_ucs4`: the character and the length of its sequence. -/
def toUcs4 (s : List UInt8) : Except Error (UInt32 × ℕ) :=
  if s.length < 2 then .error .needdata
  else if unitAt s 0 < 0xD800 ∨ 0xDFFF < unitAt s 0 then .ok ((unitAt s 0).toUInt32, 2)
  else if IsHigh (unitAt s 0) then
    if s.length < 4 then .error .needdata
    else if IsLow (unitAt s 1) then
      .ok (joinSurrogates (unitAt s 0) (unitAt s 1), 4)
    else .error .invalid
  else .error .invalid

/-- A round of the loop of `parserutils_charset_utf16_next_paranoid`: it returns, or goes on with these variables. -/
inductive Round where
  | returns (result : Except Error ℕ)
  | again (ss : List UInt8) (off : ℕ)

def paranoidRound (len : ℕ) (ss : List UInt8) (off : ℕ) : Round :=
  if len - off < 4 then .returns (.error .needdata)
  else if unitAt ss 1 < 0xD800 ∨ 0xDFFF < unitAt ss 1 then .returns (.ok (off + 2))
  else if IsHigh (unitAt ss 1) then
    if len - off < 6 then .returns (.error .needdata)
    else if IsLow (unitAt ss 2) then .returns (.ok (off + 4))
    else .again (ss.drop 2) (off + 2)
  else .again ss off

def paranoidLoop (len : ℕ) : ℕ → List UInt8 → ℕ → Option (Except Error ℕ)
  | 0, _, _ => none
  | rounds + 1, ss, off =>
    match paranoidRound len ss off with
    | .returns result => some result
    | .again ss off => paranoidLoop len rounds ss off

/-- `parserutils_charset_utf16_next_paranoid`: where the next sequence starts.  The pointer is to the start of the
string, whatever the offset is. -/
def nextParanoid (s : List UInt8) (off : ℕ) : Option (Except Error ℕ) :=
  if s.length ≤ off then some (.error .badparm) else paranoidLoop s.length s.length s off

/-- `charset_utf16_codec_read_char`, without the zero that it writes to `inval_buf[0]`. Where the source is this buffer, a
search after it passes over the unit whose low byte that is, and which is no character whatever its low byte. -/
def readChar (c : Codec) (a : Args) : Option (Error × Codec × Args) :=
  match toUcs4 a.source with
  | .ok (ucs4, n) => some (deliver c ucs4 n a)
  | .error .needdata =>
    if a.source.length < invalBufsize then some (.ok, { c with inval := a.source }, { a with source := [] })
    else none
  | .error .invalid =>
    if c.errormode = .strict then some (.invalid, { c with inval := [] }, a)
    else
      match nextParanoid a.source 0 with
      | none => none
      | some (.ok n) => some (deliver c 0xFFFD n a)
      | some (.error .needdata) =>
        -- the sequence stays in `inval`, and U+FFFD comes out for it now and when it is read again
        if a.source.length < invalBufsize then
          some (outputDecodedChar { c with inval := a.source } 0xFFFD { a with source := [] })
        else none
      | some (.error e) => some (e, { c with inval := [] }, a)
  | .error _ => some (.ok, c, a)

/-- `charset_utf16_codec_decode` -/
def decode (c : Codec) (a : Args) : Option (Error × Codec × Args) :=
  CharsetCodec.decode readChar c a

theorem surrogate_iff (u : UInt16) : ¬(u < 0xD800 ∨ 0xDFFF < u) ↔ IsSurrogate u := by
  rw [IsSurrogate, not_or, UInt16.not_lt, UInt16.not_lt]

variable {u : UInt16} {off len rounds fuel : ℕ} {ss : List UInt8} {c c' : Codec} {a a' : Args} {e : Error}

theorem high_or_low (surrogate : IsSurrogate u) : IsHigh u ∨ IsLow u := by
  simp only [IsSurrogate, IsHigh, IsLow, UInt16.le_iff_toNat_le, UInt16.reduceToNat] at surrogate ⊢
  omega

theorem not_high_of_low (low : IsLow u) : ¬IsHigh u := by
  simp only [IsHigh, IsLow, UInt16.le_iff_toNat_le, UInt16.reduceToNat] at low ⊢
  omega

theorem surrogate_of_low (low : IsLow u) : IsSurrogate u := by
  simp only [IsSurrogate, IsLow, UInt16.le_iff_toNat_le, UInt16.reduceToNat] at low ⊢
  omega

theorem surrogate_of_high (high : IsHigh u) : IsSurrogate u := by
  simp only [IsSurrogate, IsHigh, UInt16.le_iff_toNat_le, UInt16.reduceToNat] at high ⊢
  omega

theorem unitAt_drop (s : List UInt8) (i : ℕ) : unitAt (s.drop 2) i = unitAt s (i + 1) := by
  have first : 2 + 2 * i = 2 * (i + 1) := by omega
  have second : 2 + (2 * i + 1) = 2 * (i + 1) + 1 := by omega
  simp only [unitAt, List.getD_eq_getElem?_getD, List.getElem?_drop, first, second]

theorem paranoidRound_cases (len : ℕ) (ss : List UInt8) (off : ℕ) :
    (len - off < 4 ∧ paranoidRound len ss off = .returns (.error .needdata)) ∨
    (4 ≤ len - off ∧ ¬IsSurrogate (unitAt ss 1) ∧ paranoidRound len ss off = .returns (.ok (off + 2))) ∨
    (4 ≤ len - off ∧ IsHigh (unitAt ss 1) ∧ len - off < 6 ∧
      paranoidRound len ss off = .returns (.error .needdata)) ∨
    (6 ≤ len - off ∧ IsHigh (unitAt ss 1) ∧ IsLow (unitAt ss 2) ∧
      paranoidRound len ss off = .returns (.ok (off + 4))) ∨
    (6 ≤ len - off ∧ IsHigh (unitAt ss 1) ∧ ¬IsLow (unitAt ss 2) ∧
      paranoidRound len ss off = .again (ss.drop 2) (off + 2)) ∨
    (4 ≤ len - off ∧ IsLow (unitAt ss 1) ∧ paranoidRound len ss off = .again ss off) := by
  unfold paranoidRound
  split_ifs with short other high brief low
  · exact .inl ⟨short, rfl⟩
  · exact .inr (.inl ⟨by omega, fun surrogate => (surrogate_iff _).mpr surrogate other, rfl⟩)
  · exact .inr (.inr (.inl ⟨by omega, high, brief, rfl⟩))
  · exact .inr (.inr (.inr (.inl ⟨by omega, high, low, rfl⟩)))
  · exact .inr (.inr (.inr (.inr (.inl ⟨by omega, high, low, rfl⟩))))
  · refine .inr (.inr (.inr (.inr (.inr ⟨by omega, ?_, rfl⟩))))
    exact (high_or_low ((surrogate_iff _).mp other)).resolve_left high

theorem paranoidLoop_low (room : 4 ≤ len - off) (low : IsLow (unitAt ss 1)) (rounds : ℕ) :
    paranoidLoop len rounds ss off = none := by
  induction rounds with
  | zero => rfl
  | succ rounds ih =>
    have same : paranoidRound len ss off = .again ss off := by
      rcases paranoidRound_cases len ss off with ⟨short, -⟩ | ⟨-, other, -⟩ | ⟨-, high, -⟩ | ⟨-, high, -⟩ | ⟨-, high, -⟩ |
        ⟨-, -, same⟩
      · omega
      · exact absurd (surrogate_of_low low) other
      · exact absurd high (not_high_of_low low)
      · exact absurd high (not_high_of_low low)
      · exact absurd high (not_high_of_low low)
      · exact same
    rw [paranoidLoop, same]
    exact ih

theorem paranoidLoop_some (clear : ¬(4 ≤ len - off ∧ IsLow (unitAt ss 1))) (enough : len - off < 2 * rounds) :
    paranoidLoop len rounds ss off = some (.error .needdata) ∨
      ∃ n, paranoidLoop len rounds ss off = some (.ok n) ∧ off < n ∧ n ≤ len := by
  induction rounds generalizing ss off with
  | zero => omega
  | succ rounds ih =>
    rcases paranoidRound_cases len ss off with ⟨-, round⟩ | ⟨room, -, round⟩ | ⟨-, -, -, round⟩ | ⟨room, -, -, round⟩ |
      ⟨room, -, low, round⟩ | ⟨room, low, -⟩
    · exact .inl (by rw [paranoidLoop, round])
    · exact .inr ⟨off + 2, by rw [paranoidLoop, round], by omega, by omega⟩
    · exact .inl (by rw [paranoidLoop, round])
    · exact .inr ⟨off + 4, by rw [paranoidLoop, round], by omega, by omega⟩
    · rw [paranoidLoop, round]
      simp only
      have clear' : ¬(4 ≤ len - (off + 2) ∧ IsLow (unitAt (ss.drop 2) 1)) := fun both => low (unitAt_drop ss 1 ▸ both.2)
      rcases ih clear' (by omega) with needs | ⟨n, found, after, within⟩
      · exact .inl needs
      · exact .inr ⟨n, found, by omega, within⟩
    · exact absurd ⟨room, low⟩ clear

/-- After some number of rounds the loop asks for more data, or has found an offset behind the one it started from and
within the string. -/
def Advances (s : List UInt8) (off : ℕ) : Prop :=
  ∃ rounds result, paranoidLoop s.length rounds s off = some result ∧
    (result = .error .needdata ∨ ∃ n, result = .ok n ∧ off < n ∧ n ≤ s.length)

/-- The second unit of the string is a low surrogate. -/
def SecondLow (s : List UInt8) (off : ℕ) : Prop := 4 ≤ s.length - off ∧ IsLow (unitAt s 1)

instance (s : List UInt8) (off : ℕ) : Decidable (SecondLow s off) := inferInstanceAs (Decidable (_ ∧ _))

theorem advances_iff {s : List UInt8} (within : off < s.length) : Advances s off ↔ ¬SecondLow s off := by
  constructor
  · rintro ⟨rounds, result, found, -⟩ ⟨room, low⟩
    rw [paranoidLoop_low room low] at found
    cases found
  · intro clear
    rcases paranoidLoop_some clear (by omega : s.length - off < 2 * s.length) with needs | ⟨n, found, after, limit⟩
    · exact ⟨s.length, _, needs, .inl rfl⟩
    · exact ⟨s.length, _, found, .inr ⟨n, rfl, after, limit⟩⟩

theorem paranoidLoop_needdata (position : ss.length + off = len) (clear : ¬(4 ≤ len - off ∧ IsLow (unitAt ss 1)))
    (enough : len - off < 2 * rounds) :
    paranoidLoop len rounds ss off = some (.error .needdata) ↔
      ∀ i, 1 ≤ i → 2 * i + 2 ≤ ss.length → IsHigh (unitAt ss i) := by
  induction rounds generalizing ss off with
  | zero => omega
  | succ rounds ih =>
    rcases paranoidRound_cases len ss off with ⟨short, round⟩ | ⟨room, other, round⟩ | ⟨room, high, short, round⟩ |
      ⟨room, high, low, round⟩ | ⟨room, high, low, round⟩ | ⟨room, low, -⟩
    · rw [paranoidLoop, round]
      exact iff_of_true rfl fun i positive inside => by omega
    · rw [paranoidLoop, round]
      refine iff_of_false (fun same => by cases same) fun all => other ?_
      exact surrogate_of_high (all 1 le_rfl (by omega))
    · rw [paranoidLoop, round]
      refine iff_of_true rfl fun i positive inside => ?_
      obtain rfl : i = 1 := by omega
      exact high
    · rw [paranoidLoop, round]
      refine iff_of_false (fun same => by cases same) fun all => ?_
      exact not_high_of_low low (all 2 (by omega) (by omega))
    · have length : (ss.drop 2).length = ss.length - 2 := List.length_drop
      rw [paranoidLoop, round]
      simp only
      rw [ih (by omega) (fun both => low (unitAt_drop ss 1 ▸ both.2)) (by omega)]
      constructor
      · intro later i positive inside
        obtain rfl | more : i = 1 ∨ 2 ≤ i := by omega
        · exact high
        · have next := later (i - 1) (by omega) (by omega)
          rwa [unitAt_drop, Nat.sub_add_cancel positive] at next
      · intro all i positive inside
        rw [unitAt_drop]
        exact all (i + 1) (by omega) (by omega)
    · exact absurd ⟨room, low⟩ clear

/-- Two low surrogates, or 32 bytes at least of an unpaired surrogate and nothing but high surrogates. -/
def Obstructed (view : List UInt8) : Prop :=
  (4 ≤ view.length ∧ IsLow (unitAt view 0) ∧ IsLow (unitAt view 1)) ∨
    (invalBufsize ≤ view.length ∧ IsSurrogate (unitAt view 0) ∧
      ∀ i, 1 ≤ i → 2 * i + 2 ≤ view.length → IsHigh (unitAt view i))

theorem toUcs4_cases (s : List UInt8) :
    (s.length < 4 ∧ toUcs4 s = .error .needdata) ∨
    (2 ≤ s.length ∧ ¬IsSurrogate (unitAt s 0) ∧ toUcs4 s = .ok ((unitAt s 0).toUInt32, 2)) ∨
    (4 ≤ s.length ∧ IsHigh (unitAt s 0) ∧ IsLow (unitAt s 1) ∧
      toUcs4 s = .ok (joinSurrogates (unitAt s 0) (unitAt s 1), 4)) ∨
    (4 ≤ s.length ∧ IsHigh (unitAt s 0) ∧ ¬IsLow (unitAt s 1) ∧ toUcs4 s = .error .invalid) ∨
    (2 ≤ s.length ∧ IsLow (unitAt s 0) ∧ toUcs4 s = .error .invalid) := by
  unfold toUcs4
  split_ifs with short other high brief low
  · exact .inl ⟨by omega, rfl⟩
  · exact .inr (.inl ⟨by omega, fun surrogate => (surrogate_iff _).mpr surrogate other, rfl⟩)
  · exact .inl ⟨brief, rfl⟩
  · exact .inr (.inr (.inl ⟨by omega, high, low, rfl⟩))
  · exact .inr (.inr (.inr (.inl ⟨by omega, high, low, rfl⟩)))
  · refine .inr (.inr (.inr (.inr ⟨by omega, ?_, rfl⟩)))
    exact (high_or_low ((surrogate_iff _).mp other)).resolve_left high

def Going (c : Codec) (a : Args) (result : Option (Error × Codec × Args)) : Prop :=
  ∃ e c' a', result = some (e, c', a') ∧ (e = .ok ∨ e = .nomem) ∧ c'.errormode = c.errormode ∧
    c'.inval.length < invalBufsize ∧ a'.source.length < a.source.length

theorem deliver_going {x : UInt32} {n : ℕ} (positive : 0 < n) (more : a.source ≠ []) :
    Going c a (some (deliver c x n a)) := by
  have length := List.length_pos_iff.mpr more
  have shorter : (a.source.drop n).length < a.source.length := by
    rw [List.length_drop]
    omega
  rw [deliver]
  rcases outputDecodedChar_cases { c with inval := [] } x { a with source := a.source.drop n } with
    ⟨-, output⟩ | ⟨-, output⟩
  · exact ⟨_, _, _, congrArg some output, .inr rfl, rfl, Nat.zero_lt_succ _, shorter⟩
  · exact ⟨_, _, _, congrArg some output, .inl rfl, rfl, Nat.zero_lt_succ _, shorter⟩

/-- In loose mode the reading of a character either does not return or moves on. -/
theorem readChar_cases (loose : c.errormode ≠ .strict) (more : a.source ≠ []) :
    (Obstructed a.source ∧ readChar c a = none) ∨ (¬Obstructed a.source ∧ Going c a (readChar c a)) := by
  have length := List.length_pos_iff.mpr more
  have plain : ∀ {n x}, toUcs4 a.source = .ok (x, n) → 0 < n → ¬Obstructed a.source →
      ¬Obstructed a.source ∧ Going c a (readChar c a) := by
    intro n x read positive free
    have same : readChar c a = some (deliver c x n a) := by rw [readChar, read]
    rw [same]
    exact ⟨free, deliver_going positive more⟩
  -- an invalid unit is obstructed by what follows it
  have invalid : toUcs4 a.source = .error .invalid → IsSurrogate (unitAt a.source 0) →
      (4 ≤ a.source.length → IsLow (unitAt a.source 1) → IsLow (unitAt a.source 0)) →
      (Obstructed a.source ∧ readChar c a = none) ∨ (¬Obstructed a.source ∧ Going c a (readChar c a)) := by
    intro read surrogate unpaired
    have inside : nextParanoid a.source 0 = paranoidLoop a.source.length a.source.length a.source 0 :=
      if_neg (by omega)
    by_cases stuck : 4 ≤ a.source.length - 0 ∧ IsLow (unitAt a.source 1)
    · refine .inl ⟨.inl ⟨stuck.1, unpaired stuck.1 stuck.2, stuck.2⟩, ?_⟩
      rw [readChar, read]
      simp only
      rw [if_neg loose, inside, paranoidLoop_low stuck.1 stuck.2]
    · have free : ¬(4 ≤ a.source.length ∧ IsLow (unitAt a.source 0) ∧ IsLow (unitAt a.source 1)) :=
        fun both => stuck ⟨both.1, both.2.2⟩
      have needs : paranoidLoop a.source.length a.source.length a.source 0 = some (.error .needdata) ↔ _ :=
        paranoidLoop_needdata rfl stuck (by omega)
      rcases paranoidLoop_some stuck (by omega : a.source.length - 0 < 2 * a.source.length) with same | ⟨n, same, after, -⟩
      · have highs := needs.mp same
        have result : readChar c a = if a.source.length < invalBufsize then
            some (outputDecodedChar { c with inval := a.source } 0xFFFD { a with source := [] }) else none := by
          rw [readChar, read]
          simp only
          rw [if_neg loose, inside, same]
        rw [result]
        by_cases fits : a.source.length < invalBufsize
        · rw [if_pos fits]
          refine .inr ⟨fun obstructed => ?_, ?_⟩
          · rcases obstructed with two | ⟨long, -⟩
            · exact free two
            · omega
          · rcases outputDecodedChar_cases { c with inval := a.source } 0xFFFD { a with source := [] } with
              ⟨-, output⟩ | ⟨-, output⟩
            · exact ⟨_, _, _, congrArg some output, .inr rfl, rfl, fits, length⟩
            · exact ⟨_, _, _, congrArg some output, .inl rfl, rfl, fits, length⟩
        · rw [if_neg fits]
          exact .inl ⟨.inr ⟨by omega, surrogate, highs⟩, rfl⟩
      · have result : readChar c a = some (deliver c 0xFFFD n a) := by
          rw [readChar, read]
          simp only
          rw [if_neg loose, inside, same]
        rw [result]
        refine .inr ⟨fun obstructed => ?_, deliver_going (by omega) more⟩
        rcases obstructed with two | ⟨-, -, highs⟩
        · exact free two
        · have both := needs.mpr highs
          rw [same] at both
          cases both
  rcases toUcs4_cases a.source with ⟨short, read⟩ | ⟨-, other, read⟩ | ⟨-, high, low, read⟩ | ⟨-, high, other, read⟩ |
    ⟨-, low, read⟩
  · have fits : a.source.length < invalBufsize := by
      rw [invalBufsize]
      omega
    have same : readChar c a = some (.ok, { c with inval := a.source }, { a with source := [] }) := by
      rw [readChar, read]
      exact if_pos fits
    rw [same]
    refine .inr ⟨fun obstructed => ?_, ⟨_, _, _, rfl, .inl rfl, rfl, fits, length⟩⟩
    rcases obstructed with ⟨long, -⟩ | ⟨long, -⟩ <;> omega
  · refine .inr (plain read (by omega) fun obstructed => ?_)
    rcases obstructed with ⟨-, low, -⟩ | ⟨-, surrogate, -⟩
    · exact other (surrogate_of_low low)
    · exact other surrogate
  · refine .inr (plain read (by omega) fun obstructed => ?_)
    rcases obstructed with ⟨-, low', -⟩ | ⟨long, -, highs⟩
    · exact not_high_of_low low' high
    · rw [invalBufsize] at long
      exact not_high_of_low low (highs 1 le_rfl (by omega))
  · exact invalid read (surrogate_of_high high) fun _ low => absurd low other
  · exact invalid read (surrogate_of_low low) fun _ _ => low

/-- The views of the text from which "the normal case" comes to read a character. -/
inductive LoopReads : Codec → Args → List UInt8 → Prop
  | here {c : Codec} {a : Args} : a.source ≠ [] → LoopReads c a a.source
  | later {c c' : Codec} {a a' : Args} {view : List UInt8} :
    a.source ≠ [] → readChar c a = some (.ok, c', a') → LoopReads c' a' view → LoopReads c a view

def filled (c : Codec) (source : List UInt8) : List UInt8 :=
  c.inval ++ source.take (min (invalBufsize - c.inval.length - 1) source.length)

/-- The views of the text from which a call comes to read a character. -/
def CallReads (c : Codec) (a : Args) (view : List UInt8) : Prop :=
  let (readBuf, a) := flush c.readBuf a
  let c := { c with readBuf }
  readBuf.length * 4 ≤ a.destlen ∧
    ((c.inval ≠ [] ∧ view = filled c a.source) ∨
      ∃ c' a', CharsetCodec.resolve readChar c a = some (.ok, c', a') ∧ LoopReads c' a' view)

/-- What stays of the codec: its error mode, and that `inval` has room for a byte. -/
def Kept (c c' : Codec) : Prop := c'.errormode = c.errormode ∧ c'.inval.length < invalBufsize

theorem resolve_cases (loose : c.errormode ≠ .strict) (held : c.inval.length < invalBufsize) :
    (c.inval = [] ∧ CharsetCodec.resolve readChar c a = some (.ok, c, a)) ∨
    (c.inval ≠ [] ∧ Obstructed (filled c a.source) ∧ CharsetCodec.resolve readChar c a = none) ∨
    (c.inval ≠ [] ∧ ¬Obstructed (filled c a.source) ∧ ∃ e c' a',
      CharsetCodec.resolve readChar c a = some (e, c', a') ∧ Kept c c') := by
  unfold CharsetCodec.resolve
  by_cases settled : c.inval = []
  · exact .inl ⟨settled, if_pos settled⟩
  · rw [if_neg settled]
    have pending := List.length_pos_iff.mpr settled
    simp only
    have more : filled c a.source ≠ [] := by
      rw [filled]
      simp [settled]
    rcases readChar_cases (a := { a with source := filled c a.source }) loose more with
      ⟨obstructed, read⟩ | ⟨free, e, c', a', read, usual, mode, short, shorter⟩
    · rw [filled] at read
      rw [read]
      exact .inr (.inl ⟨settled, obstructed, rfl⟩)
    · rw [filled] at read
      rw [read]
      have length : (filled c a.source).length =
          min (invalBufsize - c.inval.length - 1) a.source.length + c.inval.length := by
        rw [filled, List.length_append, List.length_take]
        omega
      have moved : min (invalBufsize - c.inval.length - 1) a.source.length + c.inval.length - a'.source.length ≠ 0 := by
        rw [← length]
        exact Nat.sub_ne_zero_of_lt shorter
      have expected : ¬(e ≠ .ok ∧ e ≠ .nomem) := fun both => usual.elim both.1 both.2
      obtain ⟨rest, restIs⟩ : ∃ rest, rest = a.source.drop
        (min (invalBufsize - c.inval.length - 1) a.source.length - a'.source.length) := ⟨_, rfl⟩
      refine .inr (.inr ⟨settled, free, e, c', { a' with source := rest }, ?_, mode, short⟩)
      simp only
      rw [if_neg expected, if_neg moved, restIs]

theorem readLoop_some_iff (loose : c.errormode ≠ .strict) (enough : a.source.length ≤ fuel) :
    (∃ result, CharsetCodec.readLoop readChar fuel c a = some result) ↔ ∀ view, LoopReads c a view → ¬Obstructed view := by
  induction fuel generalizing c a with
  | zero =>
    have done : a.source = [] := List.length_eq_zero_iff.mp (Nat.le_zero.mp enough)
    rw [CharsetCodec.readLoop, if_pos done]
    refine iff_of_true ⟨_, rfl⟩ fun view reads => ?_
    cases reads with
    | here more => exact absurd done more
    | later more => exact absurd done more
  | succ fuel ih =>
    by_cases done : a.source = []
    · rw [CharsetCodec.readLoop, if_pos done]
      refine iff_of_true ⟨_, rfl⟩ fun view reads => ?_
      cases reads with
      | here more => exact absurd done more
      | later more => exact absurd done more
    · rw [CharsetCodec.readLoop, if_neg done]
      rcases readChar_cases loose done with ⟨obstructed, read⟩ | ⟨free, e, c', a', read, usual, mode, -, shorter⟩
      · rw [read]
        exact iff_of_false (fun some => by cases some.choose_spec) fun all => all _ (.here done) obstructed
      · rw [read]
        simp only
        by_cases ok : e = .ok
        · subst ok
          rw [if_pos rfl, ih (mode ▸ loose) (by omega)]
          constructor
          · intro rest view reads
            cases reads with
            | here => exact free
            | later _ read' reads =>
              rw [read] at read'
              cases read'
              exact rest view reads
          · exact fun all view reads => all view (.later done read reads)
        · rw [if_neg ok]
          refine iff_of_true ⟨_, rfl⟩ fun view reads => ?_
          cases reads with
          | here => exact free
          | later _ read' =>
            rw [read] at read'
            cases read'
            exact absurd rfl ok

theorem readLoop_kept (loose : c.errormode ≠ .strict) (held : c.inval.length < invalBufsize)
    (looped : CharsetCodec.readLoop readChar fuel c a = some (e, c', a')) : Kept c c' := by
  induction fuel generalizing c a with
  | zero =>
    rw [CharsetCodec.readLoop] at looped
    split_ifs at looped
    cases looped
    exact ⟨rfl, held⟩
  | succ fuel ih =>
    rw [CharsetCodec.readLoop] at looped
    split_ifs at looped with done
    · cases looped
      exact ⟨rfl, held⟩
    · rcases readChar_cases loose done with ⟨-, read⟩ | ⟨-, e, c₁, a₁, read, -, mode, short, -⟩
      · rw [read] at looped
        cases looped
      · rw [read] at looped
        simp only at looped
        split_ifs at looped
        · obtain ⟨mode', short'⟩ := ih (mode ▸ loose) short looped
          exact ⟨mode'.trans mode, short'⟩
        · cases looped
          exact ⟨mode, short⟩

theorem decode_some_iff (loose : c.errormode ≠ .strict) (held : c.inval.length < invalBufsize) (a : Args) :
    (∃ result, decode c a = some result) ↔ ∀ view, CallReads c a view → ¬Obstructed view := by
  simp only [decode, CharsetCodec.decode, CallReads]
  rcases flush c.readBuf a with ⟨readBuf, a⟩
  simp only
  by_cases full : a.destlen < readBuf.length * 4
  · rw [if_pos full]
    exact iff_of_true ⟨_, rfl⟩ fun view reads => absurd reads.1 (Nat.not_le_of_lt full)
  · rw [if_neg full]
    have room := Nat.le_of_not_lt full
    rcases resolve_cases (c := { c with readBuf }) (a := a) loose held with ⟨settled, resolved⟩ |
      ⟨settled, obstructed, resolved⟩ | ⟨settled, free, e, c', a', resolved, mode, -⟩
    · rw [resolved]
      simp only
      rw [if_neg (by decide), readLoop_some_iff (c := { c with readBuf }) loose le_rfl]
      constructor
      · rintro all view ⟨-, ⟨more, -⟩ | ⟨c', a', same, reads⟩⟩
        · exact absurd settled more
        · cases same
          exact all view reads
      · exact fun all view reads => all view ⟨room, .inr ⟨_, _, rfl, reads⟩⟩
    · rw [resolved]
      refine iff_of_false (fun some => by cases some.choose_spec) fun all => ?_
      exact all _ ⟨room, .inl ⟨settled, rfl⟩⟩ obstructed
    · rw [resolved]
      simp only
      by_cases ok : e = .ok
      · subst ok
        rw [if_neg (by decide), readLoop_some_iff (mode ▸ loose : c'.errormode ≠ .strict) le_rfl]
        constructor
        · rintro all view ⟨-, ⟨-, rfl⟩ | ⟨c₂, a₂, same, reads⟩⟩
          · exact free
          · cases same
            exact all view reads
        · exact fun all view reads => all view ⟨room, .inr ⟨_, _, rfl, reads⟩⟩
      · rw [if_pos ok]
        refine iff_of_true ⟨_, rfl⟩ ?_
        rintro view ⟨-, ⟨-, rfl⟩ | ⟨c₂, a₂, same, reads⟩⟩
        · exact free
        · cases same
          exact absurd rfl ok

theorem decode_kept (loose : c.errormode ≠ .strict) (held : c.inval.length < invalBufsize)
    (decoded : decode c a = some (e, c', a')) : Kept c c' := by
  simp only [decode, CharsetCodec.decode] at decoded
  rcases flushed : flush c.readBuf a with ⟨readBuf, a⟩
  simp only [flushed] at decoded
  split_ifs at decoded
  · cases decoded
    exact ⟨rfl, held⟩
  · rcases resolve_cases (c := { c with readBuf }) (a := a) loose held with ⟨-, resolved⟩ | ⟨-, -, resolved⟩ |
      ⟨-, -, e, c₁, a₁, resolved, mode, short⟩
    · rw [resolved] at decoded
      exact readLoop_kept (c := { c with readBuf }) loose held decoded
    · rw [resolved] at decoded
      cases decoded
    · rw [resolved] at decoded
      simp only at decoded
      split_ifs at decoded
      · cases decoded
        exact ⟨mode, short⟩
      · obtain ⟨mode', short'⟩ := readLoop_kept (mode ▸ loose : c₁.errormode ≠ .strict) short decoded
        exact ⟨mode'.trans mode, short'⟩

/-- The codecs in loose mode that calls lead to, on any chunks and any buffers. -/
inductive Reached : Codec → Prop
  | create {mode : ErrorMode} : mode ≠ .strict → Reached (create mode)
  | call {c c' : Codec} {a a' : Args} {e : Error} : Reached c → decode c a = some (e, c', a') → Reached c'

theorem Reached.kept (reached : Reached c) : c.errormode ≠ .strict ∧ c.inval.length < invalBufsize := by
  induction reached with
  | create loose => exact ⟨loose, Nat.zero_lt_succ _⟩
  | call _ decoded ih =>
    obtain ⟨mode, short⟩ := decode_kept ih.1 ih.2 decoded
    exact ⟨mode ▸ ih.1, short⟩

/-- The search for the next sequence moves on exactly where the second unit is no low surrogate, and a call of the
decoder returns exactly where no view from which it reads a character is obstructed. -/
theorem decode_returns_iff (s : List UInt8) (off : ℕ) (c : Codec) (a : Args) :
    (off < s.length → (Advances s off ↔ ¬SecondLow s off)) ∧
      (Reached c → ((∃ result, decode c a = some result) ↔ ∀ view, CallReads c a view → ¬Obstructed view)) :=
  ⟨advances_iff, fun reached => decode_some_iff reached.kept.1 reached.kept.2 a⟩

/-- Two low surrogates in one chunk. -/
theorem low_surrogates_endless :
    ¬Advances [0x00, 0xDC, 0x00, 0xDC] 0 ∧ Reached (create .loose) ∧
      decode (create .loose) ⟨[0x00, 0xDC, 0x00, 0xDC], [], 64⟩ = none :=
  ⟨fun advances => (advances_iff (by decide)).mp advances (by decide), .create (by decide), by decide +kernel⟩

end Besra.Utf16
