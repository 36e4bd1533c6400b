import Besra.NsurlParse

/-!
Base64 from `libnsutils/src/base64.c`, with the reads of the input and the writes to the buffer checked.
-/
namespace Besra.Base64
open Lwc NsurlParse List

/-- An encoding table with the decoding table that belongs to it: 64 is the padding, and larger values are those of
    characters outside the alphabet. -/
structure Table where
  encoding : List UInt8
  decoding : UInt8 → UInt8
  decodes : ∀ i < 64, (decoding (encoding.getD i 0)).toNat = i
  pad : ∀ c, decoding c = 64 ↔ c = ch '='

def decodingTable (plus slash c : UInt8) : UInt8 :=
  if c = plus then 62
  else if c = slash then 63
  else if ch '0' ≤ c ∧ c ≤ ch '9' then c - ch '0' + 52
  else if c = ch '=' then 64
  else if ch 'A' ≤ c ∧ c ≤ ch 'Z' then c - ch 'A'
  else if ch 'a' ≤ c ∧ c ≤ ch 'z' then c - ch 'a' + 26
  else 0xff

/-- `b64_encoding_table` and `b64_decoding_table` -/
def b64 : Table where
  encoding := lit "ABCDEFGHIJKLMNOPQRSTUVWXYZabcdefghijklmnopqrstuvwxyz0123456789+/"
  decoding := decodingTable (ch '+') (ch '/')
  decodes := by decide +kernel
  pad := forall_byte (by decide +kernel)

/-- `b64url_encoding_table` and `b64url_decoding_table` -/
def b64url : Table where
  encoding := lit "ABCDEFGHIJKLMNOPQRSTUVWXYZabcdefghijklmnopqrstuvwxyz0123456789-_"
  decoding := decodingTable (ch '-') (ch '_')
  decodes := by decide +kernel
  pad := forall_byte (by decide +kernel)

variable (t : Table)

def quartet (a b c : UInt8) : List UInt8 :=
  let triple := a.toNat * 2 ^ 16 + b.toNat * 2 ^ 8 + c.toNat
  [t.encoding.getD (triple / 2 ^ 18 % 64) 0, t.encoding.getD (triple / 2 ^ 12 % 64) 0,
    t.encoding.getD (triple / 2 ^ 6 % 64) 0, t.encoding.getD (triple % 64) 0]

/-- The loop of `table_encode`, where bytes that are missing are 0. -/
def encodeLoop : List UInt8 → List UInt8
  | a :: b :: c :: rest => quartet t a b c ++ encodeLoop rest
  | [a, b] => quartet t a b 0
  | [a] => quartet t a 0 0
  | [] => []

def modTable (n : Nat) : Nat := [0, 2, 1].getD n 0

/-- `table_encode`: the last characters are overwritten by the padding. -/
def tableEncode (input : List UInt8) : List UInt8 :=
  let encoded := encodeLoop t input
  let padding := modTable (input.length % 3)
  encoded.take (encoded.length - padding) ++ List.replicate padding (ch '=')

/-- The first of the three bytes of four sextets, the second, and the third. -/
def first (a b : UInt8) : UInt8 := a <<< 2 ||| b >>> 4
def second (b c : UInt8) : UInt8 := b <<< 4 ||| c >>> 2
def third (c d : UInt8) : UInt8 := c <<< 6 ||| d

structure Decode where
  sextets : List UInt8 := []
  decoded : List UInt8 := []

def decodedLen (input : List UInt8) : Option Nat :=
  let n := input.length
  if n < 2 then none
  else
    let len := (n + 3) / 4 * 3
    let len := if byteAt input (n - 1) = ch '=' then len - 1 else len
    some (if byteAt input (n - 2) = ch '=' then len - 1 else len)

/-- `decoded_len - 3`, which is a `size_t`. -/
def lessThree (len : Nat) : Nat := if len < 3 then len + 2 ^ 64 - 3 else len - 3

/-- The loop of `base64_decode_alloc`; none where three bytes are written past the end of the buffer. -/
def decodeLoop (len : Nat) (s : Decode) : List UInt8 → Option Decode
  | [] => some s
  | c :: rest =>
    let sextet := t.decoding c
    if 64 ≤ sextet then
      if sextet = 64 then some s else decodeLoop len s rest
    else
      match s.sextets ++ [sextet] with
      | [a, b, c, d] =>
        if lessThree len ≤ s.decoded.length then some { s with sextets := [a, b, c, d] }
        else if s.decoded.length + 3 ≤ len then
          decodeLoop len { decoded := s.decoded ++ [first a b, second b c, third c d] } rest
        else none
      | sextets => decodeLoop len { s with sextets } rest

/-- The bytes for the sextets that are left. -/
def remaining : List UInt8 → List UInt8
  | [a] => [a <<< 2]
  | [a, b] => [first a b, b <<< 4]
  | [a, b, c] => [first a b, second b c, c <<< 6]
  | [a, b, c, d] => [first a b, second b c, third c d]
  | _ => []

/-- `base64_decode_alloc`; none where it reads or writes out of bounds. -/
def base64DecodeAlloc (input : List UInt8) : Option (List UInt8) := do
  let len ← decodedLen input
  let s ← decodeLoop t len {} input
  return s.decoded ++ (remaining s.sextets).take (len - s.decoded.length)

example : base64DecodeAlloc b64 (lit "QmVzcmE=") = some (lit "Besra") := by decide

def sextets : List UInt8 → List UInt8
  | [] => []
  | c :: rest =>
    if t.decoding c = 64 then []
    else if 64 < t.decoding c then sextets rest
    else t.decoding c :: sextets rest

def unpack : List UInt8 → List UInt8
  | a :: b :: c :: d :: rest => first a b :: second b c :: third c d :: unpack rest
  | xs => remaining xs

variable {t}

variable {c d b a : UInt8} {len i : Nat} {s : Decode}

theorem decodeLoop_pad (rest : List UInt8) (pad : t.decoding c = 64) : decodeLoop t len s (c :: rest) = some s := by
  rw [decodeLoop, pad]
  rfl

theorem decodeLoop_ignored (rest : List UInt8) (ignored : 64 < t.decoding c) :
    decodeLoop t len s (c :: rest) = decodeLoop t len s rest := by
  have large : 64 ≤ t.decoding c := UInt8.le_of_lt ignored
  have other : t.decoding c ≠ 64 := fun same => absurd (same ▸ ignored) (UInt8.lt_irrefl _)
  rw [decodeLoop, if_pos large, if_neg other]

theorem decodeLoop_part (rest : List UInt8) (sextet : ¬64 ≤ t.decoding c) (part : s.sextets.length < 3) :
    decodeLoop t len s (c :: rest) = decodeLoop t len { s with sextets := s.sextets ++ [t.decoding c] } rest := by
  rw [decodeLoop, if_neg sextet]
  split
  next a b c d whole =>
    have length := congrArg List.length whole
    rw [length_append] at length
    simp at length
    omega
  · rfl

theorem decodeLoop_group {decoded : List UInt8} (rest : List UInt8) (sextet : ¬64 ≤ t.decoding d) :
    decodeLoop t len ⟨[a, b, c], decoded⟩ (d :: rest) =
      if lessThree len ≤ decoded.length then some ⟨[a, b, c, t.decoding d], decoded⟩
      else if decoded.length + 3 ≤ len then
        decodeLoop t len ⟨[], decoded ++ [first a b, second b c, third c (t.decoding d)]⟩ rest
      else none := by
  rw [decodeLoop, if_neg sextet]
  rfl

theorem unpack_few {xs : List UInt8} (few : xs.length < 4) : unpack xs = remaining xs := by
  rcases xs with _ | ⟨a, _ | ⟨b, _ | ⟨c, _ | ⟨d, rest⟩⟩⟩⟩
  · rfl
  · rfl
  · rfl
  · rfl
  · simp only [length_cons] at few
    omega

theorem decodeLoop_spec {len : Nat} (room : 3 ≤ len) (text : List UInt8) {s : Decode} (part : s.sextets.length < 4) :
    ∃ s', decodeLoop t len s text = some s' ∧
      s'.decoded ++ (remaining s'.sextets).take (len - s'.decoded.length) =
        s.decoded ++ (unpack (s.sextets ++ sextets t text)).take (len - s.decoded.length) := by
  induction text generalizing s with
  | nil =>
    refine ⟨s, rfl, ?_⟩
    rw [sextets, append_nil, unpack_few part]
  | cons c rest ih =>
    rw [sextets]
    by_cases pad : t.decoding c = 64
    · rw [if_pos pad, decodeLoop_pad rest pad, append_nil]
      exact ⟨s, rfl, by rw [unpack_few part]⟩
    · rw [if_neg pad]
      by_cases ignored : 64 < t.decoding c
      · rw [if_pos ignored, decodeLoop_ignored rest ignored]
        exact ih part
      · rw [if_neg ignored]
        have sextet : ¬64 ≤ t.decoding c := fun large => pad (UInt8.le_antisymm (UInt8.not_lt.mp ignored) large)
        by_cases short : s.sextets.length < 3
        · rw [decodeLoop_part rest sextet short]
          have longer : (s.sextets ++ [t.decoding c]).length < 4 := by
            rw [length_append, length_singleton]
            omega
          obtain ⟨s', result, same⟩ := @ih { s with sextets := s.sextets ++ [t.decoding c] } longer
          refine ⟨s', result, same.trans ?_⟩
          rw [append_assoc]
          rfl
        · obtain ⟨xs, decoded⟩ := s
          obtain ⟨a, b, d, rfl⟩ : ∃ a b d, xs = [a, b, d] :=
            length_eq_three.mp (by change xs.length < 4 at part; change ¬xs.length < 3 at short; omega)
          have limit : lessThree len = len - 3 := if_neg (Nat.not_lt.mpr room)
          have group : unpack ([a, b, d] ++ t.decoding c :: sextets t rest) =
              first a b :: second b d :: third d (t.decoding c) :: unpack (sextets t rest) := rfl
          rw [decodeLoop_group rest sextet, limit, group]
          by_cases last : len - 3 ≤ decoded.length
          · rw [if_pos last]
            refine ⟨_, rfl, ?_⟩
            change decoded ++ List.take (len - decoded.length) [first a b, second b d, third d (t.decoding c)] =
              decoded ++ List.take (len - decoded.length) ([first a b, second b d, third d (t.decoding c)] ++ _)
            rw [take_append_of_le_length]
            rw [length_cons, length_cons, length_cons, length_nil]
            omega
          · rw [if_neg last, if_pos (by omega)]
            obtain ⟨s', result, same⟩ :=
              @ih ⟨[], decoded ++ [first a b, second b d, third d (t.decoding c)]⟩ (Nat.succ_pos 3)
            refine ⟨s', result, same.trans ?_⟩
            obtain ⟨more, enough⟩ : ∃ more, len - decoded.length = more + 3 := ⟨len - decoded.length - 3, by omega⟩
            have left : len - (decoded ++ [first a b, second b d, third d (t.decoding c)]).length = more := by
              rw [length_append, length_cons, length_cons, length_cons, length_nil]
              omega
            simp only
            rw [left, enough, append_assoc, take_succ_cons, take_succ_cons, take_succ_cons]
            rfl

theorem decodeLoop_few (len : Nat) (text : List UInt8) {s : Decode}
    (few : s.sextets.length + (sextets t text).length < 4) :
    decodeLoop t len s text = some { s with sextets := s.sextets ++ sextets t text } := by
  induction text generalizing s with
  | nil => rw [sextets, append_nil, decodeLoop]
  | cons c rest ih =>
    rw [sextets] at few ⊢
    by_cases pad : t.decoding c = 64
    · rw [if_pos pad, decodeLoop_pad rest pad, append_nil]
    · rw [if_neg pad] at few ⊢
      by_cases ignored : 64 < t.decoding c
      · rw [if_pos ignored] at few ⊢
        rw [decodeLoop_ignored rest ignored, ih few]
      · rw [if_neg ignored] at few ⊢
        have sextet : ¬64 ≤ t.decoding c := fun large => pad (UInt8.le_antisymm (UInt8.not_lt.mp ignored) large)
        rw [length_cons] at few
        rw [decodeLoop_part rest sextet (by omega), ih (by rw [length_append, length_singleton]; omega)]
        rw [append_assoc, singleton_append]

def body (text : List UInt8) : List UInt8 := text.takeWhile (· ≠ ch '=')

def alphabetic (t : Table) (text : List UInt8) : List UInt8 := (body text).filter (t.decoding · < 64)

theorem sextets_eq (text : List UInt8) : sextets t text = (alphabetic t text).map t.decoding := by
  induction text with
  | nil => rfl
  | cons c rest ih =>
    rw [sextets, alphabetic, body]
    by_cases pad : t.decoding c = 64
    · rw [if_pos pad, takeWhile_cons_of_neg (by simp [(t.pad c).mp pad])]
      rfl
    · have other : c ≠ ch '=' := fun same => pad ((t.pad c).mpr same)
      rw [if_neg pad, takeWhile_cons_of_pos (by simp [other])]
      by_cases ignored : 64 < t.decoding c
      · have out : ¬t.decoding c < 64 := UInt8.lt_asymm ignored
        rw [if_pos ignored, filter_cons_of_neg (by simpa using out), ih]
        rfl
      · have sextet : t.decoding c < 64 := UInt8.lt_of_le_of_ne (UInt8.not_lt.mp ignored) pad
        rw [if_neg ignored, filter_cons_of_pos (by simpa using sextet), map_cons, ih]
        rfl

theorem alphabetic_le (text : List UInt8) : (alphabetic t text).length ≤ (body text).length := length_filter_le _ _

theorem body_le {text : List UInt8} (inside : i < text.length) (pad : byteAt text i = ch '=') :
    (body text).length ≤ i := by
  induction text generalizing i with
  | nil => exact absurd inside (Nat.not_lt_zero i)
  | cons c rest ih =>
    rw [body]
    by_cases same : c = ch '='
    · rw [takeWhile_cons_of_neg (by simp [same])]
      exact Nat.zero_le i
    · rw [takeWhile_cons_of_pos (by simp [same])]
      rcases i with _ | i
      · exact absurd pad same
      · exact Nat.succ_le_succ (ih (Nat.lt_of_succ_lt_succ inside) pad)

def endPads (text : List UInt8) : Nat :=
  (if byteAt text (text.length - 1) = ch '=' then 1 else 0) + if byteAt text (text.length - 2) = ch '=' then 1 else 0

theorem decodedLen_eq {text : List UInt8} (two : 2 ≤ text.length) :
    decodedLen text = some ((text.length + 3) / 4 * 3 - endPads text) := by
  rw [decodedLen, if_neg (Nat.not_lt.mpr two), endPads]
  split <;> split <;> simp [Nat.sub_sub]

theorem endPads_le (text : List UInt8) : endPads text ≤ 2 := by
  rw [endPads]
  split <;> split <;> decide

theorem body_endPads {text : List UInt8} (two : 2 ≤ text.length) : (body text).length + endPads text ≤ text.length := by
  have all : (body text).length ≤ text.length := (takeWhile_sublist _).length_le
  rw [endPads]
  by_cases before : byteAt text (text.length - 2) = ch '='
  · have short := body_le (by omega) before
    rw [if_pos before]
    split <;> omega
  · rw [if_neg before]
    split
    next last =>
      have short := body_le (by omega) last
      omega
    next => omega

theorem decodeAlloc_eq {text : List UInt8} (two : 2 ≤ text.length) :
    base64DecodeAlloc t text =
      some ((unpack (sextets t text)).take ((text.length + 3) / 4 * 3 - endPads text)) := by
  have pads := endPads_le text
  have behind := body_endPads two
  have few := @alphabetic_le t text
  rw [base64DecodeAlloc, decodedLen_eq two]
  simp only [Option.bind_eq_bind, Option.bind_some]
  by_cases room : 3 ≤ (text.length + 3) / 4 * 3 - endPads text
  · obtain ⟨s', result, same⟩ := @decodeLoop_spec t _ room text {} (Nat.succ_pos 3)
    rw [result, Option.bind_some, same]
    rfl
  · have short : (sextets t text).length < 4 := by
      rw [sextets_eq, length_map]
      omega
    have result := @decodeLoop_few t ((text.length + 3) / 4 * 3 - endPads text) text {} (by simpa using short)
    rw [result, Option.bind_some, nil_append]
    rw [unpack_few short]
    rfl

theorem decodeAlloc_short {text : List UInt8} (short : text.length < 2) : base64DecodeAlloc t text = none := by
  rw [base64DecodeAlloc, decodedLen, if_pos short]
  rfl

def symbols (t : Table) : List UInt8 → List UInt8
  | a :: b :: c :: rest => quartet t a b c ++ symbols t rest
  | [a, b] => (quartet t a b 0).take 3
  | [a] => (quartet t a 0 0).take 2
  | [] => []

theorem symbols_length (t : Table) (s : List UInt8) : (symbols t s).length = (4 * s.length + 2) / 3 := by
  induction s using symbols.induct with
  | case1 a b c rest ih =>
    have four : (quartet t a b c).length = 4 := rfl
    rw [symbols, length_append, ih, four]
    simp only [length_cons]
    omega
  | case2 a b => simp [symbols, quartet]
  | case3 a => simp [symbols, quartet]
  | case4 => simp [symbols]

theorem encodeLoop_length (t : Table) (s : List UInt8) : (encodeLoop t s).length = 4 * ((s.length + 2) / 3) := by
  induction s using encodeLoop.induct with
  | case1 a b c rest ih =>
    have four : (quartet t a b c).length = 4 := rfl
    rw [encodeLoop, length_append, ih, four]
    simp only [length_cons]
    omega
  | case2 a b => simp [encodeLoop, quartet]
  | case3 a => simp [encodeLoop, quartet]
  | case4 => simp [encodeLoop]

theorem symbols_start (t : Table) (s : List UInt8) : symbols t s <+: encodeLoop t s := by
  induction s using symbols.induct with
  | case1 a b c rest ih =>
    rw [symbols, encodeLoop]
    exact (prefix_append_right_inj _).mpr ih
  | case2 a b =>
    rw [symbols, encodeLoop]
    exact take_prefix _ _
  | case3 a =>
    rw [symbols, encodeLoop]
    exact take_prefix _ _
  | case4 => exact nil_prefix

theorem modTable_eq (n : Nat) : 4 * ((n + 2) / 3) - modTable (n % 3) = (4 * n + 2) / 3 ∧
    modTable (n % 3) = 4 * ((n + 2) / 3) - (4 * n + 2) / 3 := by
  have remainders : n % 3 = 0 ∨ n % 3 = 1 ∨ n % 3 = 2 := by omega
  rcases remainders with zero | one | two
  · have none' : modTable (n % 3) = 0 := by rw [zero]; rfl
    omega
  · have both : modTable (n % 3) = 2 := by rw [one]; rfl
    omega
  · have single : modTable (n % 3) = 1 := by rw [two]; rfl
    omega

theorem tableEncode_eq (t : Table) (s : List UInt8) :
    tableEncode t s = symbols t s ++ List.replicate (modTable (s.length % 3)) (ch '=') := by
  have front := prefix_iff_eq_take.mp (symbols_start t s)
  rw [tableEncode, encodeLoop_length, (modTable_eq s.length).1, ← symbols_length t s, ← front]

theorem toNat_join (x y : UInt8) {k : Nat} (small : k < 8) (low : y.toNat < 2 ^ k) :
    (x <<< UInt8.ofNat k ||| y).toNat = x.toNat * 2 ^ k % 256 + y.toNat := by
  have shift : (x <<< UInt8.ofNat k).toNat = x.toNat * 2 ^ k % 256 := by
    rw [UInt8.toNat_shiftLeft, UInt8.toNat_ofNat', Nat.shiftLeft_eq]
    have same : k % 2 ^ 8 % 8 = k := by omega
    rw [same]
  have multiple : x.toNat * 2 ^ k % 256 = (x.toNat % 2 ^ (8 - k)) <<< k := by
    have split : 256 = 2 ^ (8 - k) * 2 ^ k := by
      rw [← Nat.pow_add]
      have eight : 8 - k + k = 8 := by omega
      rw [eight]
    rw [split, Nat.mul_mod_mul_right, Nat.shiftLeft_eq]
  rw [UInt8.toNat_or, shift, multiple, ← Nat.shiftLeft_add_eq_or_of_lt low]

theorem toNat_shiftRight (x : UInt8) {k : Nat} (small : k < 8) : (x >>> UInt8.ofNat k).toNat = x.toNat / 2 ^ k := by
  rw [UInt8.toNat_shiftRight, UInt8.toNat_ofNat', Nat.shiftRight_eq_div_pow]
  have same : k % 2 ^ 8 % 8 = k := by omega
  rw [same]

theorem toNat_first (small : b.toNat < 64) : (first a b).toNat = a.toNat * 4 % 256 + b.toNat / 16 := by
  have high : (b >>> 4).toNat = b.toNat / 16 := @toNat_shiftRight b 4 (by decide)
  have joined : (a <<< 2 ||| b >>> 4).toNat = a.toNat * 2 ^ 2 % 256 + (b >>> 4).toNat :=
    @toNat_join a (b >>> 4) 2 (by decide) (by rw [high]; omega)
  rw [first, joined, high]
  rfl

theorem toNat_second (small : c.toNat < 64) : (second b c).toNat = b.toNat * 16 % 256 + c.toNat / 4 := by
  have high : (c >>> 2).toNat = c.toNat / 4 := @toNat_shiftRight c 2 (by decide)
  have joined : (b <<< 4 ||| c >>> 2).toNat = b.toNat * 2 ^ 4 % 256 + (c >>> 2).toNat :=
    @toNat_join b (c >>> 2) 4 (by decide) (by rw [high]; omega)
  rw [second, joined, high]
  rfl

theorem toNat_third (small : d.toNat < 64) : (third c d).toNat = c.toNat * 64 % 256 + d.toNat :=
  @toNat_join c d 6 (by decide) small

theorem unpack_quartet (t : Table) (a b c : UInt8) : ∃ w x y z, (quartet t a b c).map t.decoding = [w, x, y, z] ∧
    first w x = a ∧ second x y = b ∧ third y z = c ∧ x.toNat = a.toNat % 4 * 16 + b.toNat / 16 ∧
      y.toNat = b.toNat % 16 * 4 + c.toNat / 64 := by
  have byteA := a.toNat_lt
  have byteB := b.toNat_lt
  have byteC := c.toNat_lt
  let triple := a.toNat * 2 ^ 16 + b.toNat * 2 ^ 8 + c.toNat
  have w := t.decodes (triple / 2 ^ 18 % 64) (Nat.mod_lt _ (by decide))
  have x := t.decodes (triple / 2 ^ 12 % 64) (Nat.mod_lt _ (by decide))
  have y := t.decodes (triple / 2 ^ 6 % 64) (Nat.mod_lt _ (by decide))
  have z := t.decodes (triple % 64) (Nat.mod_lt _ (by decide))
  refine ⟨_, _, _, _, rfl, ?_, ?_, ?_, ?_, ?_⟩
  · apply UInt8.toNat_inj.mp
    rw [toNat_first (by rw [x]; omega), w, x]
    omega
  · apply UInt8.toNat_inj.mp
    rw [toNat_second (by rw [y]; omega), x, y]
    omega
  · apply UInt8.toNat_inj.mp
    rw [toNat_third (by rw [z]; omega), y, z]
    omega
  · rw [x]
    omega
  · rw [y]
    omega

theorem unpack_symbols (t : Table) (s : List UInt8) :
    unpack ((symbols t s).map t.decoding) = s ++ if s.length % 3 = 0 then [] else [0] := by
  induction s using symbols.induct with
  | case1 a b c rest ih =>
    obtain ⟨w, x, y, z, values, rfl, rfl, rfl, -⟩ := unpack_quartet t a b c
    have modulus : (first w x :: second x y :: third y z :: rest).length % 3 = rest.length % 3 := by
      simp only [length_cons]
      omega
    rw [symbols, map_append, values, modulus]
    change first w x :: second x y :: third y z :: unpack ((symbols t rest).map t.decoding) = _
    rw [ih]
    rfl
  | case2 a b =>
    obtain ⟨w, x, y, z, values, one, two, -, -, low⟩ := unpack_quartet t a b 0
    have zero : y <<< 6 = 0 := by
      have joined := @toNat_join y 0 6 (by decide) (by decide)
      have bits : (y <<< 6 ||| 0).toNat = 0 := by
        refine joined.trans ?_
        rw [low, UInt8.toNat_zero]
        omega
      rw [UInt8.or_zero] at bits
      exact UInt8.toNat_inj.mp bits
    rw [symbols, map_take, values]
    change [first w x, second x y, y <<< 6] = _
    rw [one, two, zero]
    rfl
  | case3 a =>
    obtain ⟨w, x, y, z, values, one, -, -, low, -⟩ := unpack_quartet t a 0 0
    have zero : x <<< 4 = 0 := by
      have joined := @toNat_join x 0 4 (by decide) (by decide)
      have bits : (x <<< 4 ||| 0).toNat = 0 := by
        refine joined.trans ?_
        rw [low, UInt8.toNat_zero]
        omega
      rw [UInt8.or_zero] at bits
      exact UInt8.toNat_inj.mp bits
    rw [symbols, map_take, values]
    change [first w x, x <<< 4] = _
    rw [one, zero]
    rfl
  | case4 => rfl

/-- A text with the characters of an encoding in front of the padding; there may be others between them, and anything
    behind the first equals sign. -/
def Spells (t : Table) (text s : List UInt8) : Prop := alphabetic t text = symbols t s

theorem in_alphabet (t : Table) (small : i < 64) :
    t.decoding (t.encoding.getD i 0) < 64 ∧ t.encoding.getD i 0 ≠ ch '=' := by
  have value := t.decodes i small
  refine ⟨?_, fun pad => ?_⟩
  · rw [UInt8.lt_iff_toNat_lt, value]
    exact small
  · rw [(t.pad _).mpr pad] at value
    change 64 = i at value
    omega

theorem symbols_alphabet (t : Table) (s : List UInt8) : ∀ c ∈ symbols t s, t.decoding c < 64 ∧ c ≠ ch '=' := by
  have four : ∀ a b c, ∀ x ∈ quartet t a b c, t.decoding x < 64 ∧ x ≠ ch '=' := by
    intro a b c x member
    simp only [quartet, mem_cons, not_mem_nil, or_false] at member
    rcases member with rfl | rfl | rfl | rfl
    all_goals exact in_alphabet t (Nat.mod_lt _ (by decide))
  induction s using symbols.induct with
  | case1 a b c rest ih =>
    intro x member
    rw [symbols, mem_append] at member
    exact member.elim (four a b c x) (ih x)
  | case2 a b => exact fun x member => four a b 0 x (mem_of_mem_take member)
  | case3 a => exact fun x member => four a 0 0 x (mem_of_mem_take member)
  | case4 => exact fun x member => absurd member not_mem_nil

theorem body_symbols (t : Table) (s more : List UInt8) (pad : more = [] ∨ more.head? = some (ch '=')) :
    body (symbols t s ++ more) = symbols t s := by
  have front : ∀ c ∈ symbols t s, decide (c ≠ ch '=') = true := fun c member =>
    decide_eq_true (symbols_alphabet t s c member).2
  rw [body, takeWhile_append_of_pos front]
  rcases more with _ | ⟨c, more⟩
  · rw [takeWhile_nil, append_nil]
  · rcases pad with none' | equals
    · cases none'
    · cases equals
      rw [takeWhile_cons_of_neg (by simp), append_nil]

theorem spells_front (t : Table) (s : List UInt8) {more : List UInt8}
    (pad : more = [] ∨ more.head? = some (ch '=')) : Spells t (symbols t s ++ more) s := by
  rw [Spells, alphabetic, body_symbols t s more pad, filter_eq_self]
  exact fun c member => decide_eq_true (symbols_alphabet t s c member).1

theorem spells_encode (t : Table) (s : List UInt8) : Spells t (tableEncode t s) s := by
  rw [tableEncode_eq]
  apply spells_front
  rcases modTable (s.length % 3) with _ | n
  · exact .inl rfl
  · exact .inr rfl

theorem eq_encode {t : Table} {text s : List UInt8} (spells : Spells t text s) (two : 2 ≤ text.length)
    (all : text.length = (symbols t s).length + endPads text) (padding : endPads text = modTable (s.length % 3)) :
    text = tableEncode t s := by
  have front : body text = symbols t s := by
    have short := body_endPads two
    have within := @alphabetic_le t text
    rw [← spells] at all ⊢
    exact ((filter_sublist).eq_of_length (by rw [alphabetic] at *; omega)).symm
  have whole : text = symbols t s ++ text.drop (symbols t s).length := by
    have start : symbols t s <+: text := by
      rw [← front]
      exact takeWhile_prefix _
    rw [← prefix_iff_eq_append.mp start]
    simp
  rw [tableEncode_eq, whole, ← padding]
  congr 1
  rw [eq_replicate_iff]
  refine ⟨by rw [length_drop]; omega, fun c member => ?_⟩
  obtain ⟨j, within, rfl⟩ := mem_iff_getElem.mp member
  rw [length_drop] at within
  have here : ∀ i (inside : i < text.length), byteAt text i = ch '=' → text[i] = ch '=' := by
    intro i inside pad
    rwa [byteAt, getD_eq_getElem _ _ inside] at pad
  rw [getElem_drop]
  have length : (body text).length = (symbols t s).length := congrArg List.length front
  rw [endPads] at all
  apply here
  by_cases before : byteAt text (text.length - 2) = ch '='
  · have short := body_le (by omega) before
    rw [if_pos before] at all
    by_cases last : byteAt text (text.length - 1) = ch '='
    · rw [if_pos last] at all
      have place : (symbols t s).length + j = text.length - 2 ∨ (symbols t s).length + j = text.length - 1 := by omega
      rcases place with front' | end'
      · rwa [front']
      · rwa [end']
    · rw [if_neg last] at all
      omega
  · rw [if_neg before] at all
    by_cases last : byteAt text (text.length - 1) = ch '='
    · rw [if_pos last] at all
      have place : (symbols t s).length + j = text.length - 1 := by omega
      rwa [place]
    · rw [if_neg last] at all
      omega

theorem endPads_encode (t : Table) {s : List UInt8} (some' : s ≠ []) :
    endPads (tableEncode t s) = modTable (s.length % 3) := by
  have positive : 0 < s.length := length_pos_iff.mpr some'
  have count := symbols_length t s
  have size : (tableEncode t s).length = (symbols t s).length + modTable (s.length % 3) := by
    rw [tableEncode_eq, length_append, length_replicate]
  have symbol : ∀ i < (symbols t s).length, byteAt (tableEncode t s) i ≠ ch '=' := by
    intro i inside
    rw [tableEncode_eq, byteAt, getD_append _ _ _ _ inside, getD_eq_getElem _ _ inside]
    exact (symbols_alphabet t s _ (getElem_mem inside)).2
  have pad : ∀ i, (symbols t s).length ≤ i → i < (tableEncode t s).length → byteAt (tableEncode t s) i = ch '=' := by
    intro i behind inside
    rw [size] at inside
    rw [tableEncode_eq, byteAt, getD_append_right _ _ _ _ behind,
      getD_eq_getElem _ _ (by rw [length_replicate]; omega), getElem_replicate]
  have remainders : s.length % 3 = 0 ∨ s.length % 3 = 1 ∨ s.length % 3 = 2 := by omega
  rw [endPads]
  rcases remainders with zero | one | two
  · have none' : modTable (s.length % 3) = 0 := by rw [zero]; rfl
    rw [if_neg (symbol _ (by omega)), if_neg (symbol _ (by omega)), none']
  · have both : modTable (s.length % 3) = 2 := by rw [one]; rfl
    rw [if_pos (pad _ (by omega) (by omega)), if_pos (pad _ (by omega) (by omega)), both]
  · have single : modTable (s.length % 3) = 1 := by rw [two]; rfl
    rw [if_pos (pad _ (by omega) (by omega)), if_neg (symbol _ (by omega)), single]

theorem exact_fit {n length pads : Nat} (few : pads ≤ 2) (full : n % 3 ≠ 0) (room : (length + 3) / 4 * 3 - pads = n)
    (spelled : (4 * n + 2) / 3 + pads ≤ length) :
    length = (4 * n + 2) / 3 + pads ∧ pads = 4 * ((n + 2) / 3) - (4 * n + 2) / 3 := by
  obtain ⟨k, r, rfl, remainder⟩ : ∃ k r, n = 3 * k + r ∧ (r = 1 ∨ r = 2) := ⟨n / 3, n % 3, by omega, by omega⟩
  have groups : (length + 3) / 4 = k + 1 := by omega
  rcases remainder with rfl | rfl
  · omega
  · omega

/-- A text is decoded to the bytes that it spells exactly where there are two bytes of it at least, and it is their
    encoding or they fill its last group. -/
theorem decodeAlloc_iff {t : Table} {text s : List UInt8} (spells : Spells t text s) :
    base64DecodeAlloc t text = some s ↔ 2 ≤ text.length ∧ (s.length % 3 = 0 ∨ text = tableEncode t s) := by
  by_cases two : 2 ≤ text.length
  · have values : unpack (sextets t text) = s ++ if s.length % 3 = 0 then [] else [0] := by
      rw [sextets_eq, spells, unpack_symbols]
    have within := @alphabetic_le t text
    have behind := body_endPads two
    have pads := endPads_le text
    have count := symbols_length t s
    rw [spells] at within
    rw [decodeAlloc_eq two, values]
    by_cases full : s.length % 3 = 0
    · rw [if_pos full, append_nil, take_of_length_le (by omega)]
      exact ⟨fun _ => ⟨two, .inl full⟩, fun _ => rfl⟩
    · rw [if_neg full, Option.some_inj]
      have padding := modTable_eq s.length
      constructor
      · intro same
        have length := congrArg List.length same
        rw [length_take, length_append, length_singleton] at length
        have spelled : (symbols t s).length + endPads text ≤ text.length := by omega
        have room : (text.length + 3) / 4 * 3 - endPads text = s.length := by omega
        obtain ⟨fit, exact⟩ := exact_fit pads full room (count ▸ spelled)
        exact ⟨two, .inr (eq_encode spells two (by omega) (by omega))⟩
      · rintro ⟨-, none' | rfl⟩
        · exact absurd none' full
        · have some' : s ≠ [] := by
            rintro rfl
            exact full rfl
          have size : (tableEncode t s).length = (symbols t s).length + modTable (s.length % 3) := by
            rw [tableEncode_eq, length_append, length_replicate]
          have room : (tableEncode t s).length = 4 * ((s.length + 2) / 3) := by
            rw [size, padding.2, count]
            omega
          rw [endPads_encode t some', take_append_of_le_length (by omega), take_of_length_le (by omega)]
  · rw [decodeAlloc_short (by omega)]
    exact ⟨fun none' => (nomatch none'), fun holds => absurd holds.1 two⟩

/-- Encoded bytes are decoded, unless there are none. What is inserted in an encoding or dropped from it changes nothing
    where the bytes fill the last group, and is a zero byte too many otherwise; a text of fewer than two bytes is read in
    front of its start. -/
theorem base64_exact_iff (t : Table) :
    (∀ text, (base64DecodeAlloc t text).isSome = true ↔ 2 ≤ text.length) ∧
    (∀ s, base64DecodeAlloc t (tableEncode t s) = some s ↔ s ≠ []) ∧
    ∀ text s, Spells t text s →
      (base64DecodeAlloc t text = some s ↔ 2 ≤ text.length ∧ (s.length % 3 = 0 ∨ text = tableEncode t s)) := by
  refine ⟨fun text => ?_, fun s => ?_, fun text s spells => decodeAlloc_iff spells⟩
  · by_cases two : 2 ≤ text.length
    · rw [decodeAlloc_eq two]
      exact ⟨fun _ => two, fun _ => rfl⟩
    · rw [decodeAlloc_short (by omega)]
      exact ⟨fun none' => (nomatch none'), fun holds => absurd holds two⟩
  · rw [decodeAlloc_iff (spells_encode t s)]
    have size : (tableEncode t s).length = (symbols t s).length + modTable (s.length % 3) := by
      rw [tableEncode_eq, length_append, length_replicate]
    rw [size, symbols_length, (modTable_eq s.length).2]
    constructor
    · rintro ⟨two, -⟩ rfl
      exact absurd two (by decide)
    · intro some'
      have positive : 0 < s.length := length_pos_iff.mpr some'
      exact ⟨by omega, .inr rfl⟩

theorem base64_exact_of_lines : base64DecodeAlloc b64 (lit "QU\nJD") = some (lit "ABC") := by
  have spells : Spells b64 (lit "QU\nJD") (lit "ABC") :=
    (by decide : alphabetic b64 (lit "QU\nJD") = symbols b64 (lit "ABC"))
  exact ((base64_exact_iff b64).2.2 _ _ spells).mpr ⟨by decide, .inl rfl⟩

/-- An encoding without its padding, or with a line feed behind it, has a byte too many; the encoding of no bytes is
    not decoded at all. -/
theorem zero_added : tableEncode b64 [ch 'A'] = lit "QQ==" ∧ Spells b64 (lit "QQ") [ch 'A'] ∧
    base64DecodeAlloc b64 (lit "QQ") = some [ch 'A', 0] ∧
    Spells b64 (lit "QQ==\n") [ch 'A'] ∧ base64DecodeAlloc b64 (lit "QQ==\n") = some [ch 'A', 0] ∧
    tableEncode b64 [] = [] ∧ base64DecodeAlloc b64 [] = none := by
  refine ⟨by decide, ?_, by decide, ?_, by decide, by decide, by decide⟩
  · exact (by decide : alphabetic b64 (lit "QQ") = symbols b64 [ch 'A'])
  · exact (by decide : alphabetic b64 (lit "QQ==\n") = symbols b64 [ch 'A'])

end Besra.Base64
