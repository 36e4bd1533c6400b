import Besra.Utf8Encode

/-!
The operations of `libdom/src/core/string.c` that count in characters, with the UTF-8 functions they use. A string is
its bytes, interned or not; NULL is the empty string where the code takes it so. `none` stands for what is undefined:
a length that wraps below zero, or bytes that are copied past the end of the buffer made for them.
-/
namespace Besra.DomString
open Utf8

/-- `dom_exception`, but `DOM_NO_ERR`; `minusOne` is the `(uint32_t) -1` that some of the functions answer. -/
inductive Exception where
  | noMem
  | indexSize
  | domStringSize
  | minusOne
deriving DecidableEq

/-- The loop of `UTF8_LENGTH`; `none` where a byte starts no sequence. -/
def utf8Length : ℕ → List UInt8 → UInt32 → Option UInt32
  | _, [], l => some l
  | 0, _ :: _, _ => none
  | fuel + 1, b :: later, l =>
    match start b with
    | none => none
    | some (_, n, _) => utf8Length fuel ((b :: later).drop n) (l + 1)

def utf8Prev (s : List UInt8) : ℕ → ℕ
  | 0 => 0
  | off + 1 => if isContinuation (s.getD off 0) then utf8Prev s off else off

def utf8Next (s : List UInt8) (len off : ℕ) : Option ℕ :=
  if len ≤ off then none
  else
    let off := if isContinuation (s.getD off 0) then off else off + 1
    some (off + (((s.take len).drop off).takeWhile isContinuation).length)

/-- `dom_string_length` -/
def stringLength (s : List UInt8) : UInt32 := (utf8Length s.length s 0).getD 0

/-- The loop of `dom_string_at`: the characters counted, and what is left. -/
def atLoop (index : UInt32) : ℕ → List UInt8 → UInt32 → Option (UInt32 × List UInt8)
  | _, [], i => some (i, [])
  | 0, _ :: _, _ => none
  | fuel + 1, b :: later, i =>
    if i + 1 = index + 1 then some (i + 1, b :: later)
    else if later.length < numContinuations b then none
    else atLoop index fuel ((b :: later).drop (numContinuations b + 1)) (i + 1)

/-- `dom_string_at` -/
def stringAt (s : List UInt8) (index : UInt32) : Option (Except Exception UInt32) :=
  (atLoop index s.length s 0).map fun (i, s) =>
    if i = index + 1 then
      match toUcs4 s with
      | .ok (c, _) => .ok c
      | .error _ => .error .minusOne
    else .error .domStringSize

/-- The loop of `dom_string_index` -/
def indexLoop (chr : UInt32) : ℕ → List UInt8 → UInt32 → Option UInt32
  | _, [], _ => some (-1)
  | 0, _ :: _, _ => none
  | fuel + 1, b :: later, index =>
    match toUcs4 (b :: later) with
    | .error _ => some (-1)
    | .ok (c, clen) => if c = chr then some index else indexLoop chr fuel ((b :: later).drop clen) (index + 1)

/-- `dom_string_index` -/
def stringIndex (s : List UInt8) (chr : UInt32) : Option UInt32 := indexLoop chr s.length s 0

def low (n : ℕ) : ℕ := n % 2 ^ 32

/-- A difference of two `size_t`. -/
def sizeSub (a b : ℕ) : ℕ := if b ≤ a then a - b else a + 2 ^ 64 - b

/-- The loop of `dom_string_rindex`. The length of the character before is taken from what there is to be read of the
next one. -/
def rindexLoop (s : List UInt8) (chr : UInt32) : ℕ → ℕ → ℕ → UInt32 → Option UInt32
  | 0, slen, _, _ => if slen = 0 then some (-1) else none
  | fuel + 1, slen, clen, index =>
    if slen = 0 then some (-1)
    else
      let coff := utf8Prev s (low slen)
      match toUcs4 ((s.drop coff).take (sizeSub slen clen)) with
      | .error _ => some (-1)
      | .ok (c, clen) =>
        if c = chr then some index
        else if slen < clen then none
        else rindexLoop s chr fuel (slen - clen) clen (index - 1)

/-- `dom_string_rindex` -/
def stringRindex (s : List UInt8) (chr : UInt32) : Option UInt32 :=
  rindexLoop s chr s.length s.length 0 (stringLength s)

/-- A loop that goes over a number of characters. -/
def advance (s : List UInt8) (len : ℕ) : ℕ → ℕ → Option ℕ
  | 0, off => some off
  | n + 1, off => (utf8Next s len off).bind (advance s len n)

/-- The two loops for the byte offsets of `i1` and `i2`. -/
def byteRange (s : List UInt8) (i1 i2 : UInt32) : Option (ℕ × ℕ) :=
  let len := low s.length
  (advance s len i1.toNat 0).bind fun b1 => (advance s len (i2 - i1).toNat b1).map fun b2 => (b1, b2)

/-- `dom_string_substr` -/
def stringSubstr (s : List UInt8) (i1 i2 : UInt32) : Except Exception (List UInt8) :=
  match byteRange s i1 i2 with
  | none => .error .noMem
  | some (b1, b2) => .ok ((s.drop b1).take (b2 - b1))

/-- The buffer for the result of an insertion or a replacement, whose size is a number of 32 bits, with the parts
copied into it. -/
def assemble (size : ℕ) (parts : List UInt8) : Option (Except Exception (List UInt8)) :=
  if parts.length + 1 ≤ (size + 1) % 2 ^ 32 then some (.ok parts) else none

/-- `dom_string_insert` -/
def stringInsert (t s : List UInt8) (offset : UInt32) : Option (Except Exception (List UInt8)) :=
  let tlen := low t.length
  let slen := low s.length
  if stringLength t < offset then some (.error .indexSize)
  else
    match if offset = stringLength t then some tlen else advance t tlen offset.toNat 0 with
    | none => some (.error .noMem)
    | some ins => assemble (tlen + slen) (t.take ins ++ s.take slen ++ (t.drop ins).take (tlen - ins))

/-- `dom_string_replace` -/
def stringReplace (t s : List UInt8) (i1 i2 : UInt32) : Option (Except Exception (List UInt8)) :=
  let tlen := low t.length
  let slen := low s.length
  match byteRange t i1 i2 with
  | none => some (.error .noMem)
  | some (b1, b2) => assemble (tlen + slen - (b2 - b1)) (t.take b1 ++ s.take slen ++ (t.drop b2).take (tlen - b2))

end Besra.DomString
