import Mathlib
import Besra.Lwc
import Besra.Reading

/-!
The UTF-8 codec, decoding (codec_utf8.c, utf8impl.h).  Bytes come in chunks of any size and characters go out to
buffers of any size; a sequence that a chunk breaks off waits in `inval`, a character for which there was no room
waits in `readBuf`.  The output is a list of UCS-4 characters, four bytes of the caller's buffer each.
-/

namespace Besra.Utf8

open Lwc Reading List

inductive Error where
  | ok
  | nomem
  | badparm
  | invalid
  | needdata
  | badencoding
  | eof
  deriving DecidableEq

inductive ErrorMode where
  | strict
  | loose
  | translit
  deriving DecidableEq

/-! ### Single characters -/

def numContinuations (b : UInt8) : ℕ :=
  if b < 0xC0 then 0
  else if b < 0xE0 then 1
  else if b < 0xF0 then 2
  else if b < 0xF8 then 3
  else if b < 0xFC then 4
  else 5

def isContinuation (b : UInt8) : Bool :=
  b &&& 0xC0 == 0x80

/-- What a start byte says: the bits it carries, the length of its sequence and the least character so written. -/
def start (b : UInt8) : Option (UInt32 × ℕ × UInt32) :=
  let c := b.toUInt32
  if c < 0x80 then some (c, 1, 0)
  else if c &&& 0xE0 = 0xC0 then some (c &&& 0x1F, 2, 0x80)
  else if c &&& 0xF0 = 0xE0 then some (c &&& 0x0F, 3, 0x800)
  else if c &&& 0xF8 = 0xF0 then some (c &&& 0x07, 4, 0x10000)
  else if c &&& 0xFC = 0xF8 then some (c &&& 0x03, 5, 0x200000)
  else if c &&& 0xFE = 0xFC then some (c &&& 0x01, 6, 0x4000000)
  else none

def follow : UInt32 → List UInt8 → Option UInt32
  | c, [] => some c
  | c, t :: later => if isContinuation t then follow (c <<< 6 ||| (t.toUInt32 &&& 0x3F)) later else none

/-- `UTF8_TO_UCS4`: the character and the length of its sequence. -/
def toUcs4 : List UInt8 → Except Error (UInt32 × ℕ)
  | [] => .error .needdata
  | b :: later =>
    match start b with
    | none => .error .invalid
    | some (c, n, least) =>
      if later.length + 1 < n then .error .needdata
      else
        match follow c (later.take (n - 1)) with
        | none => .error .invalid
        | some c =>
          -- overlong sequences, surrogates and fffe/ffff
          if c < least ∨ (0xD800 ≤ c ∧ c ≤ 0xDFFF) ∨ c = 0xFFFE ∨ c = 0xFFFF then .error .invalid
          else .ok (c, n)

/-- `UTF8_NEXT_PARANOID` at offset 0: where the next sequence starts. -/
def nextParanoid : List UInt8 → Except Error ℕ
  | [] => .error .badparm
  | b :: later =>
    if ¬(b < 0x80 ∨ b &&& 0xC0 = 0xC0) then .ok 1
    else if later.length + 1 ≤ numContinuations b + 1 then .error .needdata
    else .ok (1 + ((later.take (numContinuations b)).takeWhile isContinuation).length)

/-! ### The codec -/

structure Codec where
  errormode : ErrorMode
  inval : List UInt8
  readBuf : List UInt32
  deriving DecidableEq

/-- The caller's pointers: what is left of the source, what was written and the bytes of output that are left. -/
structure Args where
  source : List UInt8
  dest : List UInt32
  destlen : ℕ
  deriving DecidableEq

def create (mode : ErrorMode) : Codec :=
  ⟨mode, [], []⟩

def invalBufsize : ℕ := 32

def outputDecodedChar (c : Codec) (ucs4 : UInt32) (a : Args) : Error × Codec × Args :=
  if a.destlen < 4 then (.nomem, { c with readBuf := [ucs4] }, a)
  else (.ok, c, { a with dest := a.dest ++ [ucs4], destlen := a.destlen - 4 })

/-- Output a character, clear `inval` and step over the bytes it came from. -/
def deliver (c : Codec) (ucs4 : UInt32) (n : ℕ) (a : Args) : Error × Codec × Args :=
  outputDecodedChar { c with inval := [] } ucs4 { a with source := a.source.drop n }

def flush : List UInt32 → Args → List UInt32 × Args
  | [], a => ([], a)
  | x :: later, a =>
    if (later.length + 1) * 4 ≤ a.destlen then
      flush later { a with dest := a.dest ++ [x], destlen := a.destlen - 4 }
    else (x :: later, a)

/-- What waits inside the codec and before it, in half bytes: a call that is not the last one lowers it. -/
def weight (c : Codec) (source : List UInt8) : ℕ :=
  2 * (c.inval.length + source.length) + c.readBuf.length

end Besra.Utf8

namespace Besra.CharsetCodec

open Utf8

section Decoder

variable (readChar : Codec → Args → Option (Error × Codec × Args))

def resolve (c : Codec) (a : Args) : Option (Error × Codec × Args) :=
  if c.inval = [] then some (.ok, c, a)
  else
    let ol := c.inval.length
    let origL := min (invalBufsize - ol - 1) a.source.length
    match readChar c { a with source := c.inval ++ a.source.take origL } with
    | none => none
    | some (error, c', a') =>
      let l := a'.source.length
      if error ≠ .ok ∧ error ≠ .nomem then some (error, c', { a' with source := a.source })
      else if origL + ol - l = 0 then none
      else some (error, c', { a' with source := a.source.drop (origL - l) })

def readLoop : ℕ → Codec → Args → Option (Error × Codec × Args)
  | fuel, c, a =>
    if a.source = [] then some (.ok, c, a)
    else
      match fuel with
      | 0 => none
      | fuel + 1 =>
        match readChar c a with
        | none => none
        | some (error, c', a') => if error = .ok then readLoop fuel c' a' else some (error, c', a')

/-- `charset_*_codec_decode` -/
def decode (c : Codec) (a : Args) : Option (Error × Codec × Args) :=
  let (readBuf, a) := flush c.readBuf a
  let c := { c with readBuf }
  if a.destlen < readBuf.length * 4 then some (.nomem, c, a)
  else
    match resolve readChar c a with
    | none => none
    | some (error, c, a) => if error ≠ .ok then some (error, c, a) else readLoop readChar a.source.length c a

def decodeChunk (sizes : ℕ → ℕ) : ℕ → Codec → List UInt8 → ℕ → Option (Codec × List UInt32 × ℕ)
  | 0, _, _, _ => none
  | fuel + 1, c, source, call =>
    match decode readChar c ⟨source, [], sizes call⟩ with
    | some (.ok, c', a) => some (c', a.dest, call + 1)
    | some (.nomem, c', a) =>
      match decodeChunk sizes fuel c' a.source (call + 1) with
      | some (c'', out, call') => some (c'', a.dest ++ out, call')
      | none => none
    | _ => none

/-- Give a list of chunks to the codec, with the output buffers `sizes call`, `sizes (call + 1)`, …. -/
def decodeChunks (sizes : ℕ → ℕ) : Codec → List (List UInt8) → ℕ → Option (List UInt32)
  | _, [], _ => some []
  | c, chunk :: later, call =>
    match decodeChunk readChar sizes (weight c chunk + 1) c chunk call with
    | none => none
    | some (c', out, call') =>
      match decodeChunks sizes c' later call' with
      | none => none
      | some out' => some (out ++ out')

end Decoder

end Besra.CharsetCodec

namespace Besra.Utf8

open Lwc Reading List

def readChar (c : Codec) (a : Args) : Option (Error × Codec × Args) :=
  match toUcs4 a.source with
  | .ok (ucs4, n) => some (deliver c ucs4 n a)
  | .error .needdata =>
    if a.source.length < invalBufsize then some (.ok, { c with inval := a.source }, { a with source := [] })
    else none
  | .error .invalid =>
    if c.errormode = .strict then some (.invalid, { c with inval := [] }, a)
    else
      match nextParanoid a.source with
      | .ok n => some (deliver c 0xFFFD n a)
      | .error .needdata =>
        -- the sequence is stored in `inval`, which is cleared at once
        if a.source.length < invalBufsize then some (deliver c 0xFFFD a.source.length a) else none
      | .error e => some (e, c, a)
  | .error _ => some (.ok, c, a)

/-- `charset_utf8_codec_decode` -/
def decode (c : Codec) (a : Args) : Option (Error × Codec × Args) := CharsetCodec.decode readChar c a

def decodeChunks (sizes : ℕ → ℕ) : Codec → List (List UInt8) → ℕ → Option (List UInt32) :=
  CharsetCodec.decodeChunks readChar sizes

/-- Decode a whole string in one call with `destlen` bytes of output. -/
def decodeWhole (bytes : List UInt8) (destlen : ℕ) : Option (List UInt32) :=
  match decode (create .loose) ⟨bytes, [], destlen⟩ with
  | some (.ok, _, a) => some a.dest
  | _ => none

/-! ### Bytes -/

/-- The checks of `UTF8_TO_UCS4` on a start byte and the table of continuation bytes agree, below 0xFE. -/
def startChecked (b : UInt8) : Bool :=
  match start b with
  | none => isContinuation b || 0xFE ≤ b
  | some (_, n, _) => n == numContinuations b + 1 && !isContinuation b && b < 0xFE

theorem startChecked_all (b : UInt8) : startChecked b = true := by
  refine forall_byte (p := fun b => startChecked b = true) ?_ b
  decide +kernel

variable {b : UInt8} {n cut l : ℕ} {s later chunk : List UInt8} {e : Error} {c c' c'' : Codec} {a a' a'' : Args}
  {x : UInt32} {sizes : ℕ → ℕ}

theorem start_none (none : start b = none) : isContinuation b = true ∨ 0xFE ≤ b := by
  have checked := startChecked_all b
  simpa [startChecked, none] using checked

theorem start_some {c least : UInt32} (found : start b = some (c, n, least)) :
    n = numContinuations b + 1 ∧ isContinuation b = false ∧ b < 0xFE := by
  have checked := startChecked_all b
  simpa [startChecked, found, and_assoc] using checked

theorem numContinuations_le (b : UInt8) : numContinuations b ≤ 5 := by
  unfold numContinuations
  split_ifs <;> omega

theorem numContinuations_continuation (b : UInt8) : isContinuation b = true → numContinuations b = 0 := by
  refine forall_byte (p := fun b => isContinuation b = true → numContinuations b = 0) ?_ b
  decide +kernel

theorem midSequence_iff (b : UInt8) : ¬(b < 0x80 ∨ b &&& 0xC0 = 0xC0) ↔ isContinuation b = true := by
  refine forall_byte (p := fun b => ¬(b < 0x80 ∨ b &&& 0xC0 = 0xC0) ↔ isContinuation b = true) ?_ b
  decide +kernel

/-! ### One sequence -/

/-- The bytes of a malformed sequence: its start byte and the continuation bytes after it, no more than announced. -/
def extent : List UInt8 → ℕ
  | [] => 0
  | b :: later => 1 + ((later.take (numContinuations b)).takeWhile isContinuation).length

theorem extent_le_length (s : List UInt8) : extent s ≤ s.length := by
  rcases s with _ | ⟨b, later⟩
  · exact Nat.le_refl 0
  · have inner := (takeWhile_sublist isContinuation (l := later.take (numContinuations b))).length_le
    rw [length_take] at inner
    rw [extent, length_cons]
    omega

theorem extent_le (b : UInt8) (later : List UInt8) : extent (b :: later) ≤ numContinuations b + 1 := by
  have inner := (takeWhile_sublist isContinuation (l := later.take (numContinuations b))).length_le
  rw [length_take] at inner
  rw [extent]
  omega

theorem extent_pos (b : UInt8) (later : List UInt8) : 0 < extent (b :: later) := by
  rw [extent]
  omega

theorem extent_append (b : UInt8) (later more : List UInt8) (shown : numContinuations b ≤ later.length) :
    extent (b :: (later ++ more)) = extent (b :: later) := by
  rw [extent, extent, take_append_of_le_length shown]

theorem follow_continuation {c d : UInt32} (found : follow c s = some d) : ∀ t ∈ s, isContinuation t = true := by
  induction s generalizing c with
  | nil => simp
  | cons t s ih =>
    rw [follow] at found
    split at found
    next continuation =>
      intro u member
      rcases mem_cons.mp member with same | member
      · rw [same, continuation]
      · exact ih found u member
    next => cases found

theorem toUcs4_ok {c : UInt32} (read : toUcs4 (b :: later) = .ok (c, n)) :
    n = numContinuations b + 1 ∧ n ≤ later.length + 1 ∧ ∀ t ∈ later.take (n - 1), isContinuation t = true := by
  rw [toUcs4] at read
  split at read
  · cases read
  next d m least found =>
    split at read
    · cases read
    next long =>
      split at read
      · cases read
      next e followed =>
        split at read
        · cases read
        · cases read
          exact ⟨(start_some found).1, by omega, follow_continuation followed⟩

theorem toUcs4_error (read : toUcs4 s = .error e) : e = .needdata ∨ e = .invalid := by
  rcases s with _ | ⟨b, later⟩
  · cases read
    exact .inl rfl
  · rw [toUcs4] at read
    repeat' split at read
    all_goals cases read
    all_goals simp

theorem toUcs4_needdata_iff (b : UInt8) (later : List UInt8) :
    toUcs4 (b :: later) = .error .needdata ↔ later.length < numContinuations b ∧ b < 0xFE := by
  rw [toUcs4]
  rcases found : start b with _ | ⟨c, n, least⟩
  · have which := start_none found
    constructor
    · intro same
      cases same
    · rintro ⟨short, low⟩
      rcases which with continuation | high
      · rw [numContinuations_continuation b continuation] at short
        omega
      · exact absurd low (UInt8.not_lt.mpr high)
  · obtain ⟨rfl, -, low⟩ := start_some found
    simp only
    split
    · exact ⟨fun _ => ⟨by omega, low⟩, fun _ => rfl⟩
    next long =>
      constructor
      · intro same
        split at same
        · cases same
        · split at same
          · cases same
          · cases same
      · intro short
        omega

theorem toUcs4_append (more : List UInt8) (decided : toUcs4 s ≠ .error .needdata) : toUcs4 (s ++ more) = toUcs4 s := by
  rcases s with _ | ⟨b, later⟩
  · exact absurd rfl decided
  · rw [cons_append, toUcs4, toUcs4]
    rw [toUcs4] at decided
    rcases found : start b with _ | ⟨c, n, least⟩
    · rfl
    · rw [found] at decided
      simp only at decided ⊢
      by_cases short : later.length + 1 < n
      · rw [if_pos short] at decided
        exact absurd rfl decided
      · rw [if_neg short, if_neg (by rw [length_append]; omega), take_append_of_le_length (by omega)]

/-! ### The text as a whole -/

/-- What stands at the front of a text that is all there: a character, or U+FFFD for the extent of a malformed
sequence; nothing for a sequence that is cut off. -/
def next (s : List UInt8) : Option (ℕ × UInt32) :=
  match toUcs4 s with
  | .ok (c, n) => some (n, c)
  | .error .invalid => some (extent s, 0xFFFD)
  | .error _ => none

theorem next_advances {c : UInt32} (found : next s = some (n, c)) : 0 < n ∧ n ≤ s.length := by
  rcases s with _ | ⟨b, later⟩
  · cases found
  · unfold next at found
    split at found
    next d m read =>
      obtain ⟨rfl, long, -⟩ := toUcs4_ok read
      cases found
      rw [length_cons]
      omega
    next read =>
      cases found
      exact ⟨extent_pos b later, extent_le_length _⟩
    next => cases found

def text : Reader UInt8 UInt32 := ⟨next, next_advances⟩

/-- The characters of every well-formed sequence in the text, wherever it stands. -/
def wellFormed (s : List UInt8) : List UInt32 :=
  s.tails.filterMap fun t =>
    match toUcs4 t with
    | .ok (c, _) => some c
    | .error _ => none

/-- A cut of the text, so many bytes after the start of a sequence that is malformed or cut off, which the codec
does not survive: past the bytes of the sequence, but not past the length that its start byte announces; or, after
0xFE and 0xFF, inside the sequence. -/
def Disturbed : List UInt8 → ℕ → Prop
  | [], _ => False
  | b :: later, cut =>
    (∀ c ∈ (toUcs4 (b :: later)).toOption, False) ∧
      (extent (b :: later) < cut ∧ cut ≤ numContinuations b + 1 ∨ 0xFE ≤ b ∧ 0 < cut ∧ cut < extent (b :: later))

instance (s : List UInt8) (cut : ℕ) : Decidable (Disturbed s cut) := by
  cases s <;> unfold Disturbed <;> infer_instance

def Quiet (s : List UInt8) (cut : ℕ) : Prop :=
  ∀ i < cut, ¬ Disturbed (s.drop i) (cut - i)

instance (s : List UInt8) (cut : ℕ) : Decidable (Quiet s cut) := by
  unfold Quiet
  infer_instance

/-- No end of a chunk, the last one included, disturbs the text that the chunks make up after `pending`. -/
def Undisturbed (pending : List UInt8) (chunks : List (List UInt8)) : Prop :=
  ∀ k ≤ chunks.length, Quiet (pending ++ chunks.flatten) (pending.length + (chunks.take k).flatten.length)

instance (pending : List UInt8) (chunks : List (List UInt8)) : Decidable (Undisturbed pending chunks) := by
  unfold Undisturbed
  infer_instance

theorem Quiet.drop (quiet : Quiet s cut) (n : ℕ) : Quiet (s.drop n) (cut - n) := by
  intro i below
  rw [drop_drop, Nat.sub_sub]
  exact quiet (n + i) (by omega)

theorem quiet_zero (s : List UInt8) : Quiet s 0 := by
  intro i below
  omega

theorem not_disturbed_of_long (s : List UInt8) (long : 6 < cut) : ¬ Disturbed s cut := by
  rcases s with _ | ⟨b, later⟩
  · exact id
  · rintro ⟨-, ⟨-, short⟩ | ⟨-, -, short⟩⟩
    · have bound := numContinuations_le b
      omega
    · have bound := numContinuations_le b
      have bound' := extent_le b later
      omega

/-! ### One character -/

def bite (view : List UInt8) : Option (ℕ × UInt32) :=
  match toUcs4 view with
  | .ok (c, n) => some (n, c)
  | .error .invalid =>
    match nextParanoid view with
    | .ok n => some (n, 0xFFFD)
    | .error _ => some (view.length, 0xFFFD)
  | .error _ => none

theorem nextParanoid_cons (b : UInt8) (later : List UInt8) :
    nextParanoid (b :: later) = .ok (extent (b :: later)) ∧ numContinuations b ≤ later.length ∨
      nextParanoid (b :: later) = .error .needdata ∧ later.length ≤ numContinuations b := by
  rw [nextParanoid]
  by_cases mid : isContinuation b = true
  · left
    rw [if_pos ((midSequence_iff b).mpr mid), extent, numContinuations_continuation b mid, take_zero]
    exact ⟨rfl, Nat.zero_le _⟩
  · rw [if_neg (mt (midSequence_iff b).mp mid)]
    by_cases short : later.length + 1 ≤ numContinuations b + 1
    · right
      rw [if_pos short]
      exact ⟨rfl, by omega⟩
    · left
      rw [if_neg short]
      exact ⟨rfl, by omega⟩

theorem bite_none_iff (view : List UInt8) : bite view = none ↔ toUcs4 view = .error .needdata := by
  unfold bite
  constructor
  · intro none
    split at none
    · cases none
    · split at none <;> cases none
    next e not read =>
      rcases toUcs4_error read with rfl | rfl
      · exact read
      · exact absurd rfl not
  · intro read
    rw [read]

theorem bite_bounds {view : List UInt8} {c : UInt32} (found : bite view = some (n, c)) : 0 < n ∧ n ≤ view.length := by
  rcases view with _ | ⟨b, later⟩
  · cases found
  · unfold bite at found
    split at found
    next d m read =>
      obtain ⟨rfl, long, -⟩ := toUcs4_ok read
      cases found
      rw [length_cons]
      omega
    next read =>
      rcases nextParanoid_cons b later with ⟨skip, -⟩ | ⟨skip, -⟩
      · rw [skip] at found
        cases found
        exact ⟨extent_pos b later, extent_le_length (b :: later)⟩
      · rw [skip] at found
        cases found
        exact ⟨Nat.succ_pos _, Nat.le_refl _⟩
    next => cases found

theorem bite_next {more : List UInt8} {c : UInt32} (found : bite (b :: later) = some (n, c))
    (calm : ¬ Disturbed (b :: (later ++ more)) (later.length + 1)) : next (b :: (later ++ more)) = some (n, c) := by
  have decided : toUcs4 (b :: later) ≠ .error .needdata := by
    intro needs
    rw [(bite_none_iff _).mpr needs] at found
    cases found
  have same := toUcs4_append more decided
  rw [cons_append] at same
  unfold bite at found
  unfold next
  rw [same]
  rcases read : toUcs4 (b :: later) with e | ⟨d, m⟩
  · rcases toUcs4_error read with rfl | rfl
    · exact absurd read decided
    · rw [read] at found
      simp only at found ⊢
      rw [read] at same
      have malformed : ∀ c ∈ (toUcs4 (b :: (later ++ more))).toOption, False := by
        rw [same]
        intro c member
        cases member
      rcases nextParanoid_cons b later with ⟨skip, shown⟩ | ⟨skip, short⟩
      · rw [skip] at found
        cases found
        rw [extent_append b later more shown]
      · rw [skip] at found
        cases found
        have announced := extent_le b (later ++ more)
        have reaches : ¬ extent (b :: (later ++ more)) < later.length + 1 := fun less =>
          calm ⟨malformed, .inl ⟨less, by omega⟩⟩
        have whole : extent (b :: (later ++ more)) = later.length + 1 := by
          by_cases low : b < 0xFE
          · have long : ¬ later.length < numContinuations b := fun less =>
              decided ((toUcs4_needdata_iff b later).mpr ⟨less, low⟩)
            omega
          · have inside : ¬ later.length + 1 < extent (b :: (later ++ more)) := fun less =>
              calm ⟨malformed, .inr ⟨UInt8.not_lt.mp low, by omega, less⟩⟩
            omega
        rw [whole, length_cons]
  · rw [read] at found
    exact found

theorem outputDecodedChar_cases (c : Codec) (x : UInt32) (a : Args) :
    a.destlen < 4 ∧ outputDecodedChar c x a = (.nomem, { c with readBuf := [x] }, a) ∨
      4 ≤ a.destlen ∧ outputDecodedChar c x a = (.ok, c, { a with dest := a.dest ++ [x], destlen := a.destlen - 4 }) := by
  unfold outputDecodedChar
  by_cases short : a.destlen < 4
  · exact .inl ⟨short, if_pos short⟩
  · exact .inr ⟨by omega, if_neg short⟩

theorem outputDecodedChar_source (c : Codec) (x : UInt32) (a : Args) (source : List UInt8) :
    outputDecodedChar c x a =
      let (e, c', a') := outputDecodedChar c x { a with source }
      (e, c', { a' with source := a.source }) := by
  unfold outputDecodedChar
  by_cases short : a.destlen < 4
  · simp only [if_pos short]
  · simp only [if_neg short]

theorem length_of_waiting (waiting : toUcs4 s = .error .needdata) : s.length ≤ 5 := by
  rcases s with _ | ⟨b, later⟩
  · exact Nat.zero_le 5
  · have short := ((toUcs4_needdata_iff b later).mp waiting).1
    have bound := numContinuations_le b
    rw [length_cons]
    omega

theorem readChar_wait (waiting : toUcs4 a.source = .error .needdata) :
    readChar c a = some (.ok, { c with inval := a.source }, { a with source := [] }) := by
  have short := length_of_waiting waiting
  rw [readChar, waiting]
  exact if_pos (by rw [invalBufsize]; omega)

theorem readChar_bite (loose : c.errormode ≠ .strict) (found : bite a.source = some (n, x)) :
    readChar c a = some (deliver c x n a) := by
  rcases source : a.source with _ | ⟨b, later⟩
  · rw [source] at found
    cases found
  · rw [source] at found
    unfold bite at found
    rw [readChar, source]
    split at found
    next d m read =>
      cases found
      rw [read]
    next read =>
      rw [read]
      simp only
      rw [if_neg loose]
      rcases nextParanoid_cons b later with ⟨skip, -⟩ | ⟨skip, short⟩
      · rw [skip] at found ⊢
        cases found
        rfl
      · have bound := numContinuations_le b
        rw [skip] at found ⊢
        cases found
        exact if_pos (by rw [length_cons, invalBufsize]; omega)
    next => cases found

/-! ### What a call carries on -/

/-- What the codec is between calls. -/
structure Fit (c : Codec) : Prop where
  loose : c.errormode ≠ .strict
  waiting : c.inval = [] ∨ toUcs4 c.inval = .error .needdata
  single : c.readBuf.length ≤ 1

theorem Fit.stuck (fit : Fit c) : text.next c.inval = none := by
  rcases fit.waiting with settled | waiting
  · rw [settled]
    rfl
  · change next c.inval = none
    rw [next, waiting]

/-- The end of the last chunk and the end of this one disturb nothing. -/
def Calm (c : Codec) (source rest : List UInt8) : Prop :=
  Quiet (c.inval ++ (source ++ rest)) c.inval.length ∧
    Quiet (c.inval ++ (source ++ rest)) (c.inval.length + source.length)

def owed (c : Codec) (source rest : List UInt8) : List UInt32 :=
  c.readBuf ++ text.reading (c.inval ++ (source ++ rest))

/-- From one state of the codec and the caller's pointers to a later one nothing is lost or made up, as far as the
ends of the chunks disturb nothing; and no more room is used than there is, if there is enough. -/
structure Carries (c : Codec) (a : Args) (c' : Codec) (a' : Args) : Prop where
  fit : Fit c'
  shrinks : weight c' a'.source ≤ weight c a.source
  ample : c.readBuf = [] → 4 * (c.inval.length + a.source.length) ≤ a.destlen →
    c'.readBuf = [] ∧ 4 * (c'.inval.length + a'.source.length) ≤ a'.destlen
  calm : ∀ rest, Calm c a.source rest → Calm c' a'.source rest ∧
    (∃ n, c'.inval ++ (a'.source ++ rest) = (c.inval ++ (a.source ++ rest)).drop n ∧
      c'.inval.length + a'.source.length + n = c.inval.length + a.source.length) ∧
    a'.dest ++ owed c' a'.source rest = a.dest ++ owed c a.source rest

/-- How a part of a call ends: well, or with a character waiting for room and less than before to do. -/
def Ends (c : Codec) (a : Args) : Error → Codec → Args → Prop
  | .ok, c', _ => c'.readBuf = []
  | .nomem, c', a' => c'.readBuf ≠ [] ∧ weight c' a'.source < weight c a.source
  | _, _, _ => False

theorem Ends.error (ends : Ends c a e c' a') : e = .ok ∨ e = .nomem := by
  cases e <;> simp [Ends] at ends ⊢

theorem Carries.refl (fit : Fit c) (a : Args) : Carries c a c a where
  fit := fit
  shrinks := Nat.le_refl _
  ample := fun empty enough => ⟨empty, enough⟩
  calm := fun _ calm => ⟨calm, ⟨0, drop_zero.symm, rfl⟩, rfl⟩

theorem Carries.trans (first : Carries c a c' a') (second : Carries c' a' c'' a'') : Carries c a c'' a'' where
  fit := second.fit
  shrinks := Nat.le_trans second.shrinks first.shrinks
  ample := fun empty enough =>
    let ⟨empty', enough'⟩ := first.ample empty enough
    second.ample empty' enough'
  calm := by
    intro rest calm
    obtain ⟨calm', ⟨n, dropped, length⟩, kept⟩ := first.calm rest calm
    obtain ⟨calm'', ⟨m, dropped', length'⟩, kept'⟩ := second.calm rest calm'
    refine ⟨calm'', ⟨n + m, ?_, by omega⟩, kept'.trans kept⟩
    rw [dropped', dropped, drop_drop]

theorem carries_wait (fit : Fit c) (waiting : toUcs4 (c.inval ++ a.source) = .error .needdata) :
    Carries c a { c with inval := c.inval ++ a.source } { a with source := [] } where
  fit := ⟨fit.loose, .inr waiting, fit.single⟩
  shrinks := by simp [weight]
  ample := by
    intro empty enough
    refine ⟨empty, ?_⟩
    simpa using enough
  calm := by
    intro rest calm
    have same : c.inval ++ a.source ++ ([] ++ rest) = c.inval ++ (a.source ++ rest) := by simp
    refine ⟨?_, ⟨0, by simp, by simp⟩, ?_⟩
    · have quiet := calm.2
      rw [Calm, same]
      rw [← length_append] at quiet
      exact ⟨quiet, quiet⟩
    · simp only [owed, same]

theorem bite_calm {source rest : List UInt8} (fit : Fit c) (bounded : l ≤ source.length)
    (whole : l = source.length ∨ 6 < c.inval.length + l) (found : bite (c.inval ++ source.take l) = some (n, x))
    (calm : Calm c source rest) : next (c.inval ++ (source ++ rest)) = some (n, x) ∧ c.inval.length ≤ n := by
  have split : c.inval ++ (source ++ rest) = c.inval ++ source.take l ++ (source.drop l ++ rest) := by
    rw [append_assoc, ← append_assoc (source.take l), take_append_drop]
  have viewLength : (c.inval ++ source.take l).length = c.inval.length + l := by
    rw [length_append, length_take, Nat.min_eq_left bounded]
  rcases view : c.inval ++ source.take l with _ | ⟨b, later⟩
  · rw [view] at found
    cases found
  · rw [view] at found split viewLength
    rw [cons_append] at split
    rw [length_cons] at viewLength
    have quiet : ¬ Disturbed (b :: (later ++ (source.drop l ++ rest))) (later.length + 1) := by
      rcases whole with rfl | long
      · have quiet := calm.2 0 (by omega)
        rwa [drop_zero, Nat.sub_zero, split, ← viewLength] at quiet
      · exact not_disturbed_of_long _ (by omega)
    have stands := bite_next found quiet
    rw [split]
    refine ⟨stands, ?_⟩
    -- what was waiting is short of what its start byte announces
    by_contra less
    rcases pending : c.inval with _ | ⟨b', later'⟩
    · rw [pending] at less
      exact less (Nat.zero_le n)
    · have heads : b' = b := by
        rw [pending, cons_append] at view
        exact (List.cons.inj view).1
      subst heads
      have waiting := fit.waiting.resolve_left (by rw [pending]; exact cons_ne_nil _ _)
      rw [pending] at waiting less
      have short := ((toUcs4_needdata_iff b' later').mp waiting).1
      rw [length_cons] at less
      have quiet := calm.1 0 (by rw [pending, length_cons]; omega)
      rw [drop_zero, Nat.sub_zero, split, pending, length_cons] at quiet
      unfold next at stands
      rcases read : toUcs4 (b' :: (later ++ (source.drop l ++ rest))) with e | ⟨d, m⟩
      · rw [read] at stands
        rcases toUcs4_error read with rfl | rfl
        · cases stands
        · cases stands
          refine quiet ⟨?_, .inl ⟨by omega, by omega⟩⟩
          rw [read]
          intro c member
          cases member
      · rw [read] at stands
        cases stands
        have announced := (toUcs4_ok read).1
        omega

theorem carries_bite (fit : Fit c) (empty : c.readBuf = []) (bounded : l ≤ a.source.length)
    (whole : l = a.source.length ∨ 6 < c.inval.length + l) (found : bite (c.inval ++ a.source.take l) = some (n, x)) :
    ∃ e c' a', outputDecodedChar { c with inval := [] } x { a with source := a.source.drop (n - c.inval.length) } =
        (e, c', a') ∧ Carries c a c' a' ∧ a'.source = a.source.drop (n - c.inval.length) ∧ c'.inval = [] ∧
      Ends c a e c' a' := by
  have taken := bite_bounds found
  rw [length_append, length_take, Nat.min_eq_left bounded] at taken
  have left : (a.source.drop (n - c.inval.length)).length + 1 ≤ c.inval.length + a.source.length := by
    rw [length_drop]
    omega
  have carried (readBuf : List UInt32) (dest : List UInt32) (destlen : ℕ) (written : dest ++ readBuf = a.dest ++ [x])
      (one : readBuf.length ≤ 1)
      (room : 4 * (c.inval.length + a.source.length) ≤ a.destlen → readBuf = [] ∧ a.destlen ≤ destlen + 4) :
      Carries c a { c with inval := [], readBuf } ⟨a.source.drop (n - c.inval.length), dest, destlen⟩ := by
    refine ⟨⟨fit.loose, .inl rfl, one⟩, ?_, ?_, ?_⟩
    · simp only [weight, length_nil]
      omega
    · intro _ enough
      obtain ⟨none, more⟩ := room enough
      refine ⟨none, ?_⟩
      simp only [length_nil]
      omega
    · intro rest calm
      obtain ⟨stands, covered⟩ := bite_calm fit bounded whole found calm
      have dropped : (c.inval ++ (a.source ++ rest)).drop n = a.source.drop (n - c.inval.length) ++ rest := by
        rw [drop_append, drop_eq_nil_of_le covered, nil_append, drop_append_of_le_length (by omega)]
      have length : (a.source.drop (n - c.inval.length)).length = c.inval.length + a.source.length - n := by
        rw [length_drop]
        omega
      refine ⟨⟨quiet_zero _, ?_⟩, ⟨n, ?_, ?_⟩, ?_⟩
      · have quiet := calm.2.drop n
        rw [dropped, ← length] at quiet
        simpa using quiet
      · rw [dropped, nil_append]
      · simp only [length_nil]
        omega
      · have reading := text.reading_some stands
        rw [dropped] at reading
        simp only [owed, empty, nil_append, reading]
        rw [← append_assoc, written, append_assoc, singleton_append]
  rcases outputDecodedChar_cases { c with inval := [] } x { a with source := a.source.drop (n - c.inval.length) } with
    ⟨short, output⟩ | ⟨room, output⟩
  · refine ⟨_, _, _, output, carried [x] a.dest a.destlen rfl (Nat.le_refl 1) ?_, rfl, rfl,
      ⟨cons_ne_nil _ _, ?_⟩⟩
    · intro enough
      simp only at short
      omega
    · simp only [weight, length_nil, length_singleton, empty]
      omega
  · refine ⟨_, _, _, output, ?_, rfl, rfl, empty⟩
    exact carried c.readBuf (a.dest ++ [x]) (a.destlen - 4) (by rw [empty, append_nil]) fit.single
      fun _ => ⟨empty, by omega⟩

/-! ### A call -/

theorem readChar_carries (fit : Fit c) (empty : c.readBuf = []) (settled : c.inval = []) (more : a.source ≠ []) :
    ∃ e c' a', readChar c a = some (e, c', a') ∧ Carries c a c' a' ∧ a'.source.length < a.source.length ∧
      (a'.source = [] ∨ c'.inval = []) ∧ Ends c a e c' a' := by
  have length := length_pos_iff.mpr more
  rcases found : bite a.source with _ | ⟨n, x⟩
  · have waiting := (bite_none_iff _).mp found
    have carries := carries_wait (c := c) (a := a) fit (by rw [settled]; exact waiting)
    rw [settled, nil_append] at carries
    exact ⟨_, _, _, readChar_wait waiting, carries, length, .inl rfl, empty⟩
  · have taken := bite_bounds found
    obtain ⟨e, c', a', output, carries, left, cleared, ends⟩ :=
      carries_bite (l := a.source.length) fit empty (Nat.le_refl _) (.inl rfl)
        (by rw [settled, nil_append, take_length]; exact found)
    rw [settled, length_nil, Nat.sub_zero] at output left
    refine ⟨e, c', a', (readChar_bite fit.loose found).trans (congrArg some output), carries, ?_, .inr cleared, ends⟩
    rw [left, length_drop]
    omega

theorem resolve_carries (a : Args) (fit : Fit c) (empty : c.readBuf = []) :
    ∃ e c' a', CharsetCodec.resolve readChar c a = some (e, c', a') ∧ Carries c a c' a' ∧ (a'.source = [] ∨ c'.inval = []) ∧
      Ends c a e c' a' := by
  unfold CharsetCodec.resolve
  by_cases settled : c.inval = []
  · exact ⟨_, _, _, if_pos settled, .refl fit a, .inr settled, empty⟩
  · rw [if_neg settled]
    have waiting := fit.waiting.resolve_left settled
    have short := length_of_waiting waiting
    have pending := length_pos_iff.mpr settled
    simp only
    generalize shown : min (invalBufsize - c.inval.length - 1) a.source.length = l
    rw [invalBufsize] at shown
    have bounded : l ≤ a.source.length := by omega
    have whole : l = a.source.length ∨ 6 < c.inval.length + l := by omega
    have viewLength : (c.inval ++ a.source.take l).length = c.inval.length + l := by
      rw [length_append, length_take, Nat.min_eq_left bounded]
    rcases found : bite (c.inval ++ a.source.take l) with _ | ⟨n, x⟩
    · have waits := (bite_none_iff _).mp found
      have all : l = a.source.length := by
        have brief := length_of_waiting waits
        omega
      rw [all, take_length] at waits
      rw [all, take_length, readChar_wait (a := { a with source := c.inval ++ a.source }) waits]
      refine ⟨.ok, { c with inval := c.inval ++ a.source }, { a with source := [] }, ?_, carries_wait fit waits,
        .inl rfl, empty⟩
      simp only [ne_eq, not_true_eq_false, false_and, if_false, length_nil, Nat.sub_zero, drop_length]
      exact if_neg (by omega)
    · obtain ⟨e, c', a', output, carries, left, cleared, ends⟩ := carries_bite fit empty bounded whole found
      have taken := bite_bounds found
      rw [viewLength] at taken
      have read := readChar_bite (a := { a with source := c.inval ++ a.source.take l }) fit.loose found
      rw [read, deliver, outputDecodedChar_source _ _ _ (a.source.drop (n - c.inval.length)), output]
      have fixed : l - ((c.inval ++ a.source.take l).drop n).length = n - c.inval.length := by
        rw [length_drop, viewLength]
        omega
      have moved : l + c.inval.length - ((c.inval ++ a.source.take l).drop n).length ≠ 0 := by
        rw [length_drop, viewLength]
        omega
      have usual : ¬(e ≠ .ok ∧ e ≠ .nomem) := by
        rcases ends.error with rfl | rfl <;> simp
      refine ⟨e, c', a', ?_, carries, .inr cleared, ends⟩
      simp only
      rw [if_neg usual, if_neg moved, fixed, ← left]

theorem Ends.after (shrinks : weight c' a'.source ≤ weight c a.source) (ends : Ends c' a' e c'' a'') :
    Ends c a e c'' a'' := by
  rcases ends.error with rfl | rfl
  · exact ends
  · exact ⟨ends.1, Nat.lt_of_lt_of_le ends.2 shrinks⟩

theorem readLoop_carries (fuel : ℕ) (fit : Fit c) (empty : c.readBuf = []) (settled : a.source = [] ∨ c.inval = [])
    (enough : a.source.length ≤ fuel) :
    ∃ e c' a', CharsetCodec.readLoop readChar fuel c a = some (e, c', a') ∧ Carries c a c' a' ∧ (e = .ok → a'.source = []) ∧
      Ends c a e c' a' := by
  induction fuel generalizing c a with
  | zero =>
    have done : a.source = [] := length_eq_zero_iff.mp (Nat.le_zero.mp enough)
    exact ⟨.ok, c, a, by rw [CharsetCodec.readLoop, if_pos done], .refl fit a, fun _ => done, empty⟩
  | succ fuel ih =>
    by_cases done : a.source = []
    · exact ⟨.ok, c, a, by rw [CharsetCodec.readLoop, if_pos done], .refl fit a, fun _ => done, empty⟩
    · obtain ⟨e, c', a', read, carries, shorter, settled', ends⟩ :=
        readChar_carries fit empty (settled.resolve_left done) done
      rw [CharsetCodec.readLoop, if_neg done, read]
      simp only
      rcases ends.error with rfl | rfl
      · obtain ⟨e, c'', a'', rest, carries', finished, ends'⟩ := ih carries.fit ends settled' (by omega)
        exact ⟨e, c'', a'', rest, carries.trans carries', finished, ends'.after carries.shrinks⟩
      · exact ⟨_, _, _, rfl, carries, fun same => (by cases same), ends⟩

theorem flush_carries (fit : Fit c) :
    ∃ readBuf a', flush c.readBuf a = (readBuf, a') ∧ Carries c a { c with readBuf } a' ∧ a'.source = a.source ∧
      (readBuf = [] ∨ readBuf = c.readBuf ∧ c.readBuf ≠ [] ∧ a' = a ∧ a.destlen < 4) := by
  rcases waits : c.readBuf with _ | ⟨x, others⟩
  · refine ⟨[], a, rfl, ?_, rfl, .inl rfl⟩
    have same := Carries.refl fit a
    rw [← waits]
    exact same
  · have none : others = [] := by
      have single := fit.single
      rw [waits, length_cons] at single
      exact length_eq_zero_iff.mp (by omega)
    subst none
    by_cases room : 4 ≤ a.destlen
    · refine ⟨[], { a with dest := a.dest ++ [x], destlen := a.destlen - 4 }, ?_, ?_, rfl, .inl rfl⟩
      · simp [flush, room]
      · refine ⟨⟨fit.loose, fit.waiting, Nat.zero_le 1⟩, ?_, ?_, ?_⟩
        · simp [weight]
        · intro empty
          rw [waits] at empty
          cases empty
        · intro rest calm
          refine ⟨calm, ⟨0, rfl, rfl⟩, ?_⟩
          simp [owed, waits]
    · refine ⟨[x], a, ?_, ?_, rfl, .inr ⟨rfl, cons_ne_nil _ _, rfl, by omega⟩⟩
      · simp [flush, room]
      · rw [← waits]
        exact .refl fit a

theorem decode_carries (fit : Fit c) (room : 4 ≤ a.destlen ∨ c.readBuf = []) :
    ∃ e c' a', decode c a = some (e, c', a') ∧ Carries c a c' a' ∧ (e = .ok → a'.source = []) ∧ Ends c a e c' a' := by
  obtain ⟨readBuf, a₁, flushed, carries, -, outcome⟩ := flush_carries (a := a) fit
  have empty : readBuf = [] := by
    rcases outcome with empty | ⟨-, waits, -, none⟩
    · exact empty
    · rcases room with room | empty
      · omega
      · exact absurd empty waits
  subst empty
  obtain ⟨e, c₂, a₂, resolved, carries', settled, ends⟩ := resolve_carries a₁ carries.fit rfl
  unfold decode CharsetCodec.decode
  rw [flushed]
  simp only [length_nil, Nat.zero_mul, Nat.not_lt_zero, if_false]
  rw [resolved]
  simp only
  rcases ends.error with rfl | rfl
  · obtain ⟨e, c₃, a₃, looped, carries'', finished, ends'⟩ :=
      readLoop_carries a₂.source.length carries'.fit ends settled (Nat.le_refl _)
    refine ⟨e, c₃, a₃, ?_, (carries.trans carries').trans carries'', finished,
      ends'.after (Nat.le_trans carries'.shrinks carries.shrinks)⟩
    rw [if_neg (fun not => not rfl), looped]
  · refine ⟨_, _, _, if_pos (by simp), carries.trans carries', fun same => (by cases same), ?_⟩
    exact ends.after carries.shrinks

/-! ### Chunks -/

/-- A chunk has gone into the codec: what is left of the text starts at a place further on and, with what came out,
stands for the same characters as before. -/
structure Consumes (c : Codec) (source : List UInt8) (c' : Codec) (out : List UInt32) : Prop where
  fit : Fit c'
  empty : c'.readBuf = []
  calm : ∀ rest, Calm c source rest →
    (∃ n, c'.inval ++ rest = (c.inval ++ (source ++ rest)).drop n ∧
      c'.inval.length + n = c.inval.length + source.length) ∧
    out ++ text.reading (c'.inval ++ rest) = owed c source rest

theorem decodeChunk_consumes (room : ∀ i, 4 ≤ sizes i) (fuel : ℕ) (source : List UInt8) (call : ℕ) (fit : Fit c)
    (enough : weight c source < fuel) :
    ∃ c' out call', CharsetCodec.decodeChunk readChar sizes fuel c source call = some (c', out, call') ∧ Consumes c source c' out := by
  induction fuel generalizing c source call with
  | zero => omega
  | succ fuel ih =>
    obtain ⟨e, c', a', decoded, carries, finished, ends⟩ :=
      decode_carries (a := ⟨source, [], sizes call⟩) fit (.inl (room call))
    rw [CharsetCodec.decodeChunk, ← decode, decoded]
    rcases ends.error with rfl | rfl
    · refine ⟨c', a'.dest, call + 1, rfl, carries.fit, ends, ?_⟩
      intro rest calm
      obtain ⟨-, ⟨n, dropped, length⟩, kept⟩ := carries.calm rest calm
      rw [finished rfl, nil_append] at dropped
      rw [finished rfl, length_nil, Nat.add_zero] at length
      refine ⟨⟨n, dropped, length⟩, ?_⟩
      rw [finished rfl, owed, ends, nil_append, nil_append, nil_append] at kept
      exact kept
    · obtain ⟨c'', out, call', repeated, consumes⟩ := ih a'.source (call + 1) carries.fit
        (Nat.lt_of_lt_of_le ends.2 (Nat.le_of_lt_succ enough))
      simp only [repeated]
      refine ⟨c'', a'.dest ++ out, call', rfl, consumes.fit, consumes.empty, ?_⟩
      intro rest calm
      obtain ⟨calm', ⟨n, dropped, length⟩, kept⟩ := carries.calm rest calm
      obtain ⟨⟨m, dropped', length'⟩, kept'⟩ := consumes.calm rest calm'
      simp only at length dropped kept
      refine ⟨⟨n + m, by rw [dropped', dropped, drop_drop], by omega⟩, ?_⟩
      rw [append_assoc, kept', kept, nil_append]

theorem undisturbed_tail {pending pending' : List UInt8} {later : List (List UInt8)}
    (undisturbed : Undisturbed pending (chunk :: later))
    (dropped : pending' ++ later.flatten = (pending ++ (chunk ++ later.flatten)).drop n)
    (length : pending'.length + n = pending.length + chunk.length) : Undisturbed pending' later := by
  intro k within
  have quiet := undisturbed (k + 1) (Nat.succ_le_succ within)
  rw [flatten_cons, take_succ_cons, flatten_cons, length_append] at quiet
  have shifted := quiet.drop n
  rw [← dropped] at shifted
  have cut : pending.length + (chunk.length + (later.take k).flatten.length) - n =
      pending'.length + (later.take k).flatten.length := by
    omega
  rwa [cut] at shifted

theorem calm_head {later : List (List UInt8)} (undisturbed : Undisturbed c.inval (chunk :: later)) :
    Calm c chunk later.flatten := by
  have before := undisturbed 0 (Nat.zero_le _)
  have after := undisturbed 1 (Nat.succ_le_succ (Nat.zero_le _))
  refine ⟨?_, ?_⟩
  · simpa using before
  · simpa using after

theorem decodeChunks_reading (room : ∀ i, 4 ≤ sizes i) (chunks : List (List UInt8)) (call : ℕ) (fit : Fit c)
    (empty : c.readBuf = []) :
    ∃ out, CharsetCodec.decodeChunks readChar sizes c chunks call = some out ∧
      (Undisturbed c.inval chunks → out = text.reading (c.inval ++ chunks.flatten)) := by
  induction chunks generalizing c call with
  | nil =>
    refine ⟨[], rfl, fun _ => ?_⟩
    rw [flatten_nil, append_nil, text.reading_none fit.stuck]
  | cons chunk later ih =>
    obtain ⟨c', out, call', decoded, consumes⟩ :=
      decodeChunk_consumes room (weight c chunk + 1) chunk call fit (Nat.lt_succ_self _)
    obtain ⟨out', decoded', rest⟩ := ih call' consumes.fit consumes.empty
    refine ⟨out ++ out', ?_, ?_⟩
    · rw [CharsetCodec.decodeChunks, decoded]
      simp only [decoded']
    · intro undisturbed
      obtain ⟨⟨n, dropped, length⟩, kept⟩ := consumes.calm later.flatten (calm_head undisturbed)
      rw [rest (undisturbed_tail undisturbed dropped length), kept, owed, empty, nil_append, flatten_cons]

theorem fit_create : Fit (create .loose) where
  loose := by decide
  waiting := .inl rfl
  single := Nat.zero_le 1

theorem decodeWhole_reading (bytes : List UInt8) {destlen : ℕ} (ample : 4 * bytes.length ≤ destlen) :
    ∃ out, decodeWhole bytes destlen = some out ∧ (Quiet bytes bytes.length → out = text.reading bytes) := by
  obtain ⟨e, c', a', decoded, carries, finished, ends⟩ :=
    decode_carries (c := create .loose) (a := ⟨bytes, [], destlen⟩) fit_create (.inr rfl)
  have roomy := carries.ample rfl (by simpa [create] using ample)
  rcases ends.error with rfl | rfl
  · refine ⟨a'.dest, by rw [decodeWhole, decoded], fun quiet => ?_⟩
    obtain ⟨-, -, kept⟩ := carries.calm [] ⟨quiet_zero _, by simpa [create] using quiet⟩
    rw [finished rfl, owed, owed, ends, append_nil, append_nil, nil_append,
      text.reading_none carries.fit.stuck, append_nil] at kept
    simpa [create] using kept
  · exact absurd roomy.1 ends.1

/-! ### Well-formed characters -/

theorem toUcs4_continuation (continuation : isContinuation b = true) (later : List UInt8) :
    toUcs4 (b :: later) = .error .invalid := by
  rw [toUcs4]
  rcases found : start b with _ | ⟨c, n, least⟩
  · rfl
  · rw [(start_some found).2.1] at continuation
    cases continuation

theorem wellFormed_cons_ok {c : UInt32} (read : toUcs4 (b :: later) = .ok (c, n)) :
    wellFormed (b :: later) = c :: wellFormed later := by
  rw [wellFormed, tails_cons, filterMap_cons, read]
  rfl

theorem wellFormed_cons_error (read : toUcs4 (b :: later) = .error e) : wellFormed (b :: later) = wellFormed later := by
  rw [wellFormed, tails_cons, filterMap_cons, read]
  rfl

theorem wellFormed_drop (n : ℕ) (s : List UInt8) (continuation : ∀ t ∈ s.take n, isContinuation t = true) :
    wellFormed (s.drop n) = wellFormed s := by
  induction n generalizing s with
  | zero => rw [drop_zero]
  | succ n ih =>
    rcases s with _ | ⟨b, later⟩
    · rfl
    · rw [take_succ_cons] at continuation
      rw [drop_succ_cons, ih later fun t member => continuation t (mem_cons_of_mem b member),
        wellFormed_cons_error (toUcs4_continuation (continuation b mem_cons_self) later)]

theorem extent_continuation (b : UInt8) (later : List UInt8) :
    ∀ t ∈ later.take (extent (b :: later) - 1), isContinuation t = true := by
  intro t member
  rw [extent, Nat.add_sub_cancel_left] at member
  have inner := takeWhile_prefix isContinuation (l := later.take (numContinuations b))
  have front := inner.trans ( take_prefix _ _)
  rw [← prefix_iff_eq_take.mp front] at member
  exact mem_takeWhile_imp member

theorem wellFormed_sublist (s : List UInt8) (quiet : Quiet s s.length) : (wellFormed s).Sublist (text.reading s) := by
  induction s using text.piecewise with
  | stuck s stuck =>
    rw [text.reading_none stuck]
    rcases s with _ | ⟨b, later⟩
    · exact List.Sublist.refl []
    · change next (b :: later) = none at stuck
      unfold next at stuck
      split at stuck
      · cases stuck
      · cases stuck
      next e not read =>
        rcases toUcs4_error read with rfl | rfl
        · have short := ((toUcs4_needdata_iff b later).mp read).1
          have reaches : later.length + 1 ≤ extent (b :: later) := by
            by_contra less
            refine quiet 0 (Nat.succ_pos _) ⟨?_, .inl ⟨?_, ?_⟩⟩
            · rw [read]
              intro c member
              cases member
            · rw [Nat.sub_zero, length_cons]
              exact Nat.lt_of_not_le less
            · rw [Nat.sub_zero, length_cons]
              omega
          have all := wellFormed_drop (extent (b :: later) - 1) later (extent_continuation b later)
          rw [drop_eq_nil_of_le (by omega)] at all
          rw [wellFormed_cons_error read, ← all]
          exact List.Sublist.refl []
        · exact absurd rfl not
  | step s n x found ih =>
    have bounds := text.advances found
    have ih := ih (by rw [length_drop]; exact quiet.drop n)
    rw [text.reading_some found]
    rcases s with _ | ⟨b, later⟩
    · rw [text.next_nil] at found
      cases found
    · change next (b :: later) = some (n, x) at found
      obtain ⟨m, rfl⟩ : ∃ m, n = m + 1 := ⟨n - 1, by omega⟩
      rw [drop_succ_cons] at ih ⊢
      unfold next at found
      split at found
      next c k read =>
        cases found
        rw [wellFormed_cons_ok read, ← wellFormed_drop m later (toUcs4_ok read).2.2]
        exact ih.cons_cons x
      next read =>
        injection found with found
        injection found with length char
        have continuation := extent_continuation b later
        rw [length, Nat.add_sub_cancel] at continuation
        rw [wellFormed_cons_error read, ← wellFormed_drop m later continuation]
        exact ih.cons x
      next => cases found

/-! ### Chunk independence -/

/-- Decoding in chunks, with output buffers of at least four bytes and the call repeated after NOMEM, and decoding the
whole string in one call with ample output both end, and no assertion fails.  Where no chunk ends (nor the string)
past the bytes of a malformed sequence but within the length its start byte announces, nor inside one that 0xFE or
0xFF starts, both deliver the same characters, every well-formed character of the string among them. -/
theorem decode_chunk_independent (chunks : List (List UInt8)) (sizes : ℕ → ℕ) (room : ∀ i, 4 ≤ sizes i) (destlen : ℕ)
    (ample : 4 * chunks.flatten.length ≤ destlen) :
    ∃ out whole, decodeChunks sizes (create .loose) chunks 0 = some out ∧
      decodeWhole chunks.flatten destlen = some whole ∧
      (Undisturbed [] chunks → out = whole ∧ (wellFormed chunks.flatten).Sublist out) := by
  obtain ⟨out, decoded, read⟩ := decodeChunks_reading room chunks 0 fit_create rfl
  obtain ⟨whole, decoded', read'⟩ := decodeWhole_reading chunks.flatten ample
  refine ⟨out, whole, decoded, decoded', ?_⟩
  intro undisturbed
  have quiet : Quiet chunks.flatten chunks.flatten.length := by
    have last := undisturbed chunks.length (Nat.le_refl _)
    simpa using last
  have reads : out = text.reading chunks.flatten := read undisturbed
  refine ⟨reads.trans (read' quiet).symm, ?_⟩
  rw [reads]
  exact wellFormed_sublist chunks.flatten quiet

/-- A start byte that no continuation follows, cut off from the letters after it. -/
theorem decode_independent_of_lone_start :
    Undisturbed [] [[0xC3], [0x41, 0x42]] ∧
      ∃ out whole, decodeChunks (fun _ => 4) (create .loose) [[0xC3], [0x41, 0x42]] 0 = some out ∧
        decodeWhole [0xC3, 0x41, 0x42] 12 = some whole ∧ out = whole ∧ (wellFormed [0xC3, 0x41, 0x42]).Sublist out := by
  have undisturbed : Undisturbed [] [[0xC3], [0x41, 0x42]] := by decide +kernel
  obtain ⟨out, whole, decoded, decoded', same⟩ :=
    decode_chunk_independent [[0xC3], [0x41, 0x42]] (fun _ => 4) (fun _ => Nat.le_refl 4) 12 (Nat.le_refl 12)
  obtain ⟨rfl, present⟩ := same undisturbed
  exact ⟨undisturbed, out, out, decoded, decoded', rfl, present⟩

/-- The letter after a start byte is lost when its chunk ends there, and not when the string comes in one piece. -/
theorem letter_swallowed :
    decodeChunks (fun _ => 4) (create .loose) [[0xC3, 0x41], [0x42]] 0 = some [0xFFFD, 0x42] ∧
      decodeWhole [0xC3, 0x41, 0x42] 12 = some [0xFFFD, 0x41, 0x42] ∧
      wellFormed [0xC3, 0x41, 0x42] = [0x41, 0x42] ∧ ¬ [0x41, 0x42].Sublist [(0xFFFD : UInt32), 0x42] := by
  decide +kernel

end Besra.Utf8
