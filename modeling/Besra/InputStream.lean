import Mathlib.Data.List.Infix
import Mathlib.Tactic.Common
import Besra.Reading
import Besra.Utf8

/-!
The input stream (inputstream.c, inputstream.h, filter.c, buffer.c).  Raw bytes are appended in chunks; a peek that
finds nothing converts some of them to UTF-8, after the first of them were searched for a byte-order mark.  iconv is
not part of the sources: it is given by what it finds at the front of its input, with the behaviour that is
documented of it.
-/

namespace Besra.InputStream

open Reading List
open Utf8 (Error numContinuations)

/-! ### iconv -/

def Whole (s : List UInt8) : Prop :=
  ∀ i b, s[i]? = some b → i + numContinuations b < s.length

/-- What stands at the front of the input: a character that takes `n` bytes and is written `out`, an illegal byte, or
a sequence that is not complete yet. -/
inductive Found where
  | char (n : ℕ) (out : List UInt8)
  | illegal
  | incomplete
  deriving DecidableEq

/-- A conversion descriptor from UTF-8 to UTF-8.  What is found does not change with what comes after it, a character
is written as a sequence of its own, and the byte-order mark is a character. -/
structure Iconv where
  look : List UInt8 → Found
  look_nil : look [] = .incomplete
  settled : ∀ s t, look s ≠ .incomplete → look (s ++ t) = look s
  char_bounds : ∀ {s n out}, look s = .char n out → 0 < n ∧ n ≤ s.length
  char_out : ∀ {s n out}, look s = .char n out → 0 < out.length ∧ out.length ≤ 6 ∧ Whole out
  mark : look [0xEF, 0xBB, 0xBF] = .char 3 [0xEF, 0xBB, 0xBF]

inductive Errno where
  | success
  | e2big
  | eilseq
  | einval
  deriving DecidableEq

def iconv (cd : Iconv) : ℕ → List UInt8 → ℕ → Errno × List UInt8 × List UInt8
  | _, [], _ => (.success, [], [])
  | 0, data, _ => (.success, data, [])
  | fuel + 1, data, outlen =>
    match cd.look data with
    | .char n out =>
      if outlen < out.length then (.e2big, data, [])
      else
        let later := iconv cd fuel (data.drop n) (outlen - out.length)
        (later.1, later.2.1, out ++ later.2.2)
    | .illegal => (.eilseq, data, [])
    | .incomplete => (.einval, data, [])

/-! ### The conversion filter -/

def replacement : List UInt8 := [0xEF, 0xBF, 0xBD]

/-- `parserutils__filter_process_chunk`: the error, what is left of the data and what was written.  One unfolding is
one call of iconv and what follows it, the first one and those of the loop after an illegal byte alike. -/
def processChunk (cd : Iconv) : ℕ → List UInt8 → ℕ → Error × List UInt8 × List UInt8
  | fuel, data, outlen =>
    match iconv cd data.length data outlen with
    | (.e2big, data, out) => (.nomem, data, out)
    | (.eilseq, data, out) =>
      if outlen - out.length < 3 then (.nomem, data, out)
      else
        match fuel with
        | 0 => (.ok, data, out)
        | fuel + 1 =>
          let later := processChunk cd fuel (data.drop 1) (outlen - out.length - 3)
          (later.1, later.2.1, out ++ replacement ++ later.2.2)
    | (_, data, out) => (.ok, data, out)

inductive Charset where
  | unknown
  | utf8
  | utf16
  | utf16be
  | utf16le
  | utf32
  | utf32be
  | utf32le
  | other (mibenum : ℕ)
  deriving DecidableEq

/-- What a stream is given from outside: the detection of the charset, if any, and the descriptors of iconv. -/
structure Env where
  csdetect : Option (List UInt8 → Charset → ℕ → Error × Charset × ℕ)
  iconvOpen : Charset → Option Iconv

structure Filter where
  cd : Option Iconv
  encoding : Charset

def Filter.setEncoding (env : Env) (f : Filter) (mibenum : Charset) : Error × Filter :=
  if mibenum = .unknown then (.badencoding, f)
  else if f.encoding = mibenum then (.ok, f)
  else
    match env.iconvOpen mibenum with
    | none => (.badencoding, { f with cd := none })
    | some cd => (.ok, ⟨some cd, mibenum⟩)

def Filter.process (f : Filter) (data : List UInt8) (outlen : ℕ) : Error × List UInt8 × List UInt8 :=
  match f.cd with
  | none => (.ok, data, [])
  | some cd => processChunk cd data.length data outlen

/-! ### The stream -/

/-- `parserutils_buffer_discard`; nothing is discarded of an empty buffer, not even nothing. -/
def discard (buffer : List UInt8) (offset len : ℕ) : Option (List UInt8) :=
  if buffer.length ≤ offset ∨ buffer.length < offset + len then none
  else some (buffer.take offset ++ buffer.drop (offset + len))

def utf8Bom : List UInt8 := [0xEF, 0xBB, 0xBF]

def stripBom (mibenum : Charset) (buffer : List UInt8) : Charset × Option (List UInt8) :=
  match mibenum with
  | .utf8 => (.utf8, if utf8Bom <+: buffer then discard buffer 0 3 else some buffer)
  | .utf16be => (.utf16be, if [0xFE, 0xFF] <+: buffer then discard buffer 0 2 else some buffer)
  | .utf16le => (.utf16le, if [0xFF, 0xFE] <+: buffer then discard buffer 0 2 else some buffer)
  | .utf16 =>
    if [0xFE, 0xFF] <+: buffer then (.utf16be, discard buffer 0 2)
    else if [0xFF, 0xFE] <+: buffer then (.utf16le, discard buffer 0 2)
    else (.utf16be, some buffer)
  | .utf32be => (.utf32be, if [0x00, 0x00, 0xFE, 0xFF] <+: buffer then discard buffer 0 4 else some buffer)
  | .utf32le => (.utf32le, if [0xFF, 0xFE, 0x00, 0x00] <+: buffer then discard buffer 0 4 else some buffer)
  | .utf32 =>
    if [0x00, 0x00, 0xFE, 0xFF] <+: buffer then (.utf32be, discard buffer 0 4)
    else if [0xFF, 0xFE, 0x00, 0x00] <+: buffer then (.utf32le, discard buffer 0 4)
    else (.utf32be, some buffer)
  | other => (other, some buffer)

structure Stream where
  utf8 : List UInt8
  allocated : ℕ
  cursor : ℕ
  hadEof : Bool
  raw : List UInt8
  doneFirstChunk : Bool
  mibenum : Charset
  encsrc : ℕ
  input : Filter

def defaultSize : ℕ := 4096

def create (env : Env) (enc : Option Charset) (encsrc : ℕ) : Except Error Stream :=
  match Filter.setEncoding env ⟨none, .unknown⟩ .utf8 with
  | (.ok, input) =>
    match enc with
    | none => .ok ⟨[], defaultSize, 0, false, [], false, .unknown, 0, input⟩
    | some mibenum =>
      match input.setEncoding env mibenum with
      | (.ok, input) => .ok ⟨[], defaultSize, 0, false, [], false, mibenum, encsrc, input⟩
      | (e, _) => .error e
  | (e, _) => .error e

def append (s : Stream) (data : List UInt8) : Stream :=
  { s with raw := s.raw ++ data }

def appendEof (s : Stream) : Stream :=
  { s with hadEof := true }

def startStream (env : Env) (s : Stream) : Error × Stream :=
  let (detected, s) : Error × Stream :=
    match env.csdetect with
    | none => (.ok, s)
    | some csdetect =>
      let (e, mibenum, encsrc) := csdetect s.raw s.mibenum s.encsrc
      (e, { s with mibenum, encsrc })
  if detected ≠ .ok ∧ (detected ≠ .needdata ∨ s.hadEof = false) then (detected, s)
  else
    let s := if s.mibenum = .unknown then { s with mibenum := .utf8, encsrc := 0 } else s
    match stripBom s.mibenum s.raw with
    | (mibenum, none) => (.badparm, { s with mibenum })
    | (mibenum, some raw) =>
      let s := { s with mibenum, raw }
      match s.input.setEncoding env mibenum with
      | (.ok, input) => (.ok, { s with input, doneFirstChunk := true })
      | (e, input) => (e, { s with input })

def fillBuffer (s : Stream) : Error × Stream :=
  let (kept, s) : List UInt8 × Stream :=
    if s.cursor = s.utf8.length then ([], s)
    else
      let kept := s.utf8.drop s.cursor
      (kept, { s with
        utf8 := kept, allocated := if s.allocated / 2 < kept.length then s.allocated * 2 else s.allocated })
  let (error, raw, out) := s.input.process s.raw (s.allocated - kept.length)
  if error ≠ .ok ∧ error ≠ .nomem then (error, s)
  else
    match discard s.raw 0 (s.raw.length - raw.length) with
    | none => (.badparm, s)
    | some raw => (.ok, { s with raw, utf8 := kept ++ out, cursor := 0 })

def refillBuffer (env : Env) (s : Stream) : Error × Stream :=
  if s.doneFirstChunk then fillBuffer s
  else
    match startStream env s with
    | (.ok, s) => fillBuffer s
    | (e, s) => (e, s)

/-- The character at an offset of the buffer, by the length its first byte announces; nothing where that is beyond
the buffer. -/
def charAt (s : Stream) (offset : ℕ) : Option (List UInt8) :=
  match s.utf8[s.cursor + offset]? with
  | none => none
  | some b =>
    let found := (s.utf8.drop (s.cursor + offset)).take (numContinuations b + 1)
    if found.length = numContinuations b + 1 then some found else none

def peekSlow (env : Env) (s : Stream) (offset : ℕ) : Option (Except Error (List UInt8) × Stream) :=
  if s.raw = [] then some (.error (if s.hadEof then .eof else .needdata), s)
  else
    match refillBuffer env s with
    | (.ok, s) =>
      if s.cursor + offset = s.utf8.length then some (.error .needdata, s)
      else (charAt s offset).map fun c => (.ok c, s)
    | (e, s) => some (.error e, s)

def peek (env : Env) (s : Stream) (offset : ℕ) : Option (Except Error (List UInt8) × Stream) :=
  if s.cursor + offset < s.utf8.length then (charAt s offset).map fun c => (.ok c, s)
  else peekSlow env s offset

def advance (s : Stream) (bytes : ℕ) : Stream :=
  if s.cursor = s.utf8.length then s
  else { s with cursor := s.cursor + min bytes (s.utf8.length - s.cursor) }

/-! ### Clients -/

inductive Op where
  | append (data : List UInt8)
  | eof
  | peek (offset : ℕ)
  | advance (bytes : ℕ)

/-- What a peek came to: a character and where it stands, counted from the start of all that was delivered, or an
error. -/
inductive Answer where
  | char (position : ℕ) (bytes : List UInt8)
  | failed (e : Error)
  deriving DecidableEq

structure Session where
  stream : Stream
  passed : List UInt8

def step (env : Env) (s : Session) : Op → Option (List Answer × Session)
  | .append data => some ([], { s with stream := append s.stream data })
  | .eof => some ([], { s with stream := appendEof s.stream })
  | .peek offset =>
    match peek env s.stream offset with
    | none => none
    | some (.ok c, stream) => some ([.char (s.passed.length + offset) c], { s with stream })
    | some (.error e, stream) => some ([.failed e], { s with stream })
  | .advance bytes =>
    some ([], ⟨advance s.stream bytes, s.passed ++ (s.stream.utf8.drop s.stream.cursor).take bytes⟩)

def run (env : Env) : Session → List Op → Option (List Answer × Session)
  | s, [] => some ([], s)
  | s, op :: ops =>
    match step env s op with
    | none => none
    | some (answers, s) =>
      match run env s ops with
      | none => none
      | some (later, s) => some (answers ++ later, s)

/-- Chunks are not empty and offsets are not beyond what is buffered. -/
def Permitted (s : Session) : Op → Prop
  | .append data => data ≠ []
  | .peek offset => s.stream.cursor + offset ≤ s.stream.utf8.length
  | _ => True

instance (s : Session) (op : Op) : Decidable (Permitted s op) := by
  cases op <;> unfold Permitted <;> infer_instance

def Legal (env : Env) : Session → List Op → Prop
  | _, [] => True
  | s, op :: ops => Permitted s op ∧ ∀ answers s', step env s op = some (answers, s') → Legal env s' ops

/-- Read character by character until a peek gives none; what was read and the error of that peek. -/
def drain (env : Env) : ℕ → Stream → Option (List UInt8 × Error)
  | 0, _ => none
  | fuel + 1, s =>
    match peek env s 0 with
    | none => none
    | some (.error e, _) => some ([], e)
    | some (.ok c, s) =>
      match drain env fuel (advance s c.length) with
      | none => none
      | some (later, e) => some (c ++ later, e)

/-- More than the characters that are left. -/
def left (s : Stream) : ℕ :=
  (s.utf8.length - s.cursor) + 6 * s.raw.length + 1

/-! ### What a text stands for -/

theorem whole_nil : Whole [] := by
  intro i b found
  simp at found

theorem Whole.append {s t : List UInt8} (first : Whole s) (second : Whole t) : Whole (s ++ t) := by
  intro i b found
  rw [length_append]
  by_cases before : i < s.length
  · rw [List.getElem?_append_left before] at found
    have inside := first i b found
    omega
  · rw [List.getElem?_append_right (by omega)] at found
    have inside := second (i - s.length) b found
    omega

theorem Whole.drop {s : List UInt8} (whole : Whole s) (n : ℕ) : Whole (s.drop n) := by
  intro i b found
  rw [List.getElem?_drop] at found
  have inside := whole (n + i) b found
  rw [length_drop]
  omega

theorem whole_replacement : Whole replacement := by
  intro i b found
  rcases i with _ | _ | _ | i
  · cases found
    decide
  · cases found
    decide
  · cases found
    decide
  · simp [replacement] at found

namespace Iconv

variable (cd : Iconv)

/-- What stands at the front of a text, with U+FFFD for an illegal byte. -/
def next (s : List UInt8) : Option (ℕ × List UInt8) :=
  match cd.look s with
  | .char n out => some (n, out)
  | .illegal => some (1, replacement)
  | .incomplete => none

variable {n : ℕ} {s out data : List UInt8}

theorem next_advances (found : cd.next s = some (n, out)) : 0 < n ∧ n ≤ s.length := by
  unfold next at found
  split at found
  next m out' looked =>
    cases found
    exact cd.char_bounds looked
  next looked =>
    cases found
    rcases s with _ | ⟨b, s⟩
    · rw [cd.look_nil] at looked
      cases looked
    · exact ⟨Nat.zero_lt_one, Nat.succ_le_succ (Nat.zero_le _)⟩
  next => cases found

def text : Reader UInt8 (List UInt8) := ⟨cd.next, cd.next_advances⟩

theorem text_settled : cd.text.Settled := by
  intro s t n out found
  change cd.next s = some (n, out) at found
  change cd.next (s ++ t) = some (n, out)
  unfold next at found ⊢
  rw [cd.settled s t]
  · exact found
  · intro incomplete
    rw [incomplete] at found
    cases found

theorem next_out (found : cd.next s = some (n, out)) : 0 < out.length ∧ out.length ≤ 6 ∧ Whole out := by
  unfold next at found
  split at found
  next looked =>
    cases found
    exact cd.char_out looked
  · cases found
    exact ⟨by decide, by decide, whole_replacement⟩
  · cases found

def converted (s : List UInt8) : List UInt8 := (cd.text.reading s).flatten

/-- What is left of it: a sequence that is not complete. -/
def residue (s : List UInt8) : List UInt8 := cd.text.residue s

theorem converted_some (found : cd.next s = some (n, out)) : cd.converted s = out ++ cd.converted (s.drop n) := by
  rw [converted, cd.text.reading_some found, flatten_cons]
  rfl

theorem converted_none (stuck : cd.next s = none) : cd.converted s = [] := by
  rw [converted, cd.text.reading_none stuck]
  rfl

/-- Some of the data was converted and written, no more than six bytes for one. -/
structure Takes (data data' out : List UInt8) : Prop where
  converted : out ++ cd.converted data' = cd.converted data
  residue : cd.residue data' = cd.residue data
  shorter : out.length + 6 * data'.length ≤ 6 * data.length
  suffix : data' <:+ data
  whole : Whole out

theorem Takes.refl (data : List UInt8) : cd.Takes data data [] :=
  ⟨rfl, rfl, by simp, suffix_refl data, whole_nil⟩

variable {cd} in
theorem Takes.trans {data' data'' out' : List UInt8} (first : cd.Takes data data' out)
    (second : cd.Takes data' data'' out') : cd.Takes data data'' (out ++ out') where
  converted := by rw [append_assoc, second.converted, first.converted]
  residue := second.residue.trans first.residue
  shorter := by
    have before := first.shorter
    have after := second.shorter
    rw [length_append]
    omega
  suffix := second.suffix.trans first.suffix
  whole := first.whole.append second.whole

theorem takes_next (found : cd.next data = some (n, out)) :
    cd.Takes data (data.drop n) out where
  converted := (cd.converted_some found).symm
  residue := (cd.text.residue_some found).symm
  shorter := by
    have bounds := cd.next_advances found
    have short := (cd.next_out found).2.1
    rw [length_drop]
    omega
  suffix := drop_suffix n data
  whole := (cd.next_out found).2.2

end Iconv

def Stops (cd : Iconv) (data : List UInt8) (room : ℕ) : Errno → Prop
  | .success => data = []
  | .einval => cd.look data = .incomplete
  | .eilseq => cd.look data = .illegal
  | .e2big => room < 6

theorem iconv_takes (cd : Iconv) (fuel : ℕ) (data : List UInt8) (outlen : ℕ) (enough : data.length ≤ fuel) :
    ∃ errno data' out, iconv cd fuel data outlen = (errno, data', out) ∧ cd.Takes data data' out ∧
      out.length ≤ outlen ∧ Stops cd data' (outlen - out.length) errno := by
  induction fuel generalizing data outlen with
  | zero =>
    have none : data = [] := length_eq_zero_iff.mp (Nat.le_zero.mp enough)
    subst none
    exact ⟨.success, [], [], by simp [iconv], .refl cd [], Nat.zero_le _, rfl⟩
  | succ fuel ih =>
    rcases data with _ | ⟨b, data⟩
    · exact ⟨.success, [], [], by simp [iconv], .refl cd [], Nat.zero_le _, rfl⟩
    · rw [iconv]
      swap
      · exact cons_ne_nil b data
      rcases looked : cd.look (b :: data) with ⟨n, out⟩ | _ | _
      · have found : cd.next (b :: data) = some (n, out) := by rw [Iconv.next, looked]
        have bounds := cd.next_advances found
        simp only
        by_cases full : outlen < out.length
        · have short := (cd.next_out found).2.1
          rw [if_pos full]
          refine ⟨.e2big, _, _, rfl, .refl cd _, Nat.zero_le _, ?_⟩
          simp only [Stops, length_nil]
          omega
        · obtain ⟨errno, data', later, converted, takes, fits, stops⟩ :=
            ih ((b :: data).drop n) (outlen - out.length) (by rw [length_drop]; omega)
          rw [if_neg full, converted]
          refine ⟨errno, data', out ++ later, rfl, (cd.takes_next found).trans takes, ?_, ?_⟩
          · rw [length_append]
            omega
          · rw [length_append, ← Nat.sub_sub]
            exact stops
      · exact ⟨.eilseq, _, _, rfl, .refl cd _, Nat.zero_le _, looked⟩
      · exact ⟨.einval, _, _, rfl, .refl cd _, Nat.zero_le _, looked⟩

theorem processChunk_takes (cd : Iconv) (fuel : ℕ) (data : List UInt8) (outlen : ℕ) (enough : data.length ≤ fuel) :
    ∃ e data' out, processChunk cd fuel data outlen = (e, data', out) ∧ cd.Takes data data' out ∧
      out.length ≤ outlen ∧ (e = .ok ∧ cd.next data' = none ∨ e = .nomem ∧ outlen - out.length < 6) := by
  induction fuel using Nat.strongRecOn generalizing data outlen with
  | ind fuel ih =>
    obtain ⟨errno, data', out, converted, takes, fits, stops⟩ :=
      iconv_takes cd data.length data outlen (Nat.le_refl _)
    rw [processChunk.eq_def]
    simp only
    rw [converted]
    rcases errno with _ | _ | _ | _
    · refine ⟨.ok, data', out, rfl, takes, fits, .inl ⟨rfl, ?_⟩⟩
      rw [Stops] at stops
      rw [Iconv.next, stops, cd.look_nil]
    · exact ⟨.nomem, data', out, rfl, takes, fits, .inr ⟨rfl, stops⟩⟩
    · have found : cd.next data' = some (1, replacement) := by
        rw [Stops] at stops
        rw [Iconv.next, stops]
      have bounds := cd.next_advances found
      have shorter := takes.suffix.length_le
      simp only
      by_cases full : outlen - out.length < 3
      · rw [if_pos full]
        exact ⟨.nomem, data', out, rfl, takes, fits, .inr ⟨rfl, by omega⟩⟩
      · rw [if_neg full]
        obtain ⟨fuel, rfl⟩ : ∃ k, fuel = k + 1 := ⟨fuel - 1, by omega⟩
        obtain ⟨e, data'', later, processed, takes', fits', ends⟩ :=
          ih fuel (Nat.lt_succ_self _) (data'.drop 1) (outlen - out.length - 3) (by rw [length_drop]; omega)
        simp only [processed]
        have length : (out ++ replacement ++ later).length = out.length + 3 + later.length := by
          rw [length_append, length_append]
          rfl
        refine ⟨e, data'', _, rfl, (takes.trans (cd.takes_next found)).trans takes', by omega, ?_⟩
        rcases ends with ⟨rfl, stuck⟩ | ⟨rfl, room⟩
        · exact .inl ⟨rfl, stuck⟩
        · exact .inr ⟨rfl, by omega⟩
    · refine ⟨.ok, data', out, rfl, takes, fits, .inl ⟨rfl, ?_⟩⟩
      rw [Stops] at stops
      rw [Iconv.next, stops]

/-! ### A stream that has begun -/

structure Running (cd : Iconv) (s : Stream) : Prop where
  started : s.doneFirstChunk = true
  filter : s.input.cd = some cd
  within : s.cursor ≤ s.utf8.length
  fits : s.utf8.length ≤ s.allocated
  roomy : defaultSize ≤ s.allocated
  whole : Whole s.utf8

theorem discard_suffix {s s' : List UInt8} (some : s ≠ []) (suffix : s' <:+ s) :
    discard s 0 (s.length - s'.length) = .some s' := by
  have positive := length_pos_iff.mpr some
  have shorter := suffix.length_le
  rw [discard, if_neg (by omega), take_zero, nil_append, Nat.zero_add, ← suffix_iff_eq_drop.mp suffix]

theorem fillBuffer_running {cd : Iconv} {s : Stream} (running : Running cd s) (more : s.raw ≠ []) :
    ∃ s' out, fillBuffer s = (.ok, s') ∧ Running cd s' ∧ s'.cursor = 0 ∧ s'.utf8 = s.utf8.drop s.cursor ++ out ∧
      cd.Takes s.raw s'.raw out ∧ s'.hadEof = s.hadEof ∧ (out = [] → cd.next s'.raw = none) := by
  have roomy := running.roomy
  have fits := running.fits
  have within := running.within
  rw [defaultSize] at roomy
  -- the two ways to make room leave the same bytes and at least half of the buffer
  obtain ⟨kept, s₁, shifted, keeps, raw, input, eof, started, room⟩ : ∃ kept s₁,
      (if s.cursor = s.utf8.length then ([], s)
        else
          let kept := s.utf8.drop s.cursor
          (kept, { s with
            utf8 := kept
            allocated := if s.allocated / 2 < kept.length then s.allocated * 2 else s.allocated })) = (kept, s₁) ∧
        kept = s.utf8.drop s.cursor ∧ s₁.raw = s.raw ∧ s₁.input = s.input ∧ s₁.hadEof = s.hadEof ∧
        s₁.doneFirstChunk = true ∧ defaultSize ≤ s₁.allocated ∧ kept.length + 6 ≤ s₁.allocated := by
    by_cases done : s.cursor = s.utf8.length
    · refine ⟨[], s, if_pos done, ?_, rfl, rfl, rfl, running.started, running.roomy, ?_⟩
      · rw [done, drop_length]
      · simp only [length_nil]
        omega
    · refine ⟨s.utf8.drop s.cursor, _, if_neg done, rfl, rfl, rfl, rfl, running.started, ?_, ?_⟩
      · simp only [defaultSize]
        split <;> omega
      · simp only [length_drop]
        split <;> omega
  obtain ⟨e, raw', out, processed, takes, bounded, ends⟩ :=
    processChunk_takes cd s.raw.length s.raw (s₁.allocated - kept.length) (Nat.le_refl _)
  have usual : ¬(e ≠ .ok ∧ e ≠ .nomem) := by
    rcases ends with ⟨rfl, -⟩ | ⟨rfl, -⟩ <;> simp
  unfold fillBuffer
  rw [shifted]
  simp only [Filter.process, input, running.filter, raw, processed]
  rw [if_neg usual, discard_suffix more takes.suffix]
  refine ⟨_, out, rfl, ⟨started, running.filter, Nat.zero_le _, ?_, room.1, ?_⟩, rfl,
    by rw [keeps], takes, eof, ?_⟩
  · simp only [length_append]
    omega
  · rw [keeps]
    exact (running.whole.drop _).append takes.whole
  · intro empty
    rcases ends with ⟨-, stuck⟩ | ⟨-, full⟩
    · exact stuck
    · rw [empty, length_nil] at full
      omega

variable {offset : ℕ} {s : Session} {body view : List UInt8} {stream : Stream} {later answers : List Answer} {op : Op}

theorem charAt_running {cd : Iconv} {s : Stream} (running : Running cd s) (inside : s.cursor + offset < s.utf8.length) :
    ∃ c, charAt s offset = some c ∧ c = (s.utf8.drop (s.cursor + offset)).take c.length ∧ 0 < c.length ∧
      s.cursor + offset + c.length ≤ s.utf8.length := by
  have found := List.getElem?_eq_getElem inside
  have fits := running.whole _ _ found
  have length : ((s.utf8.drop (s.cursor + offset)).take (numContinuations s.utf8[s.cursor + offset] + 1)).length =
      numContinuations s.utf8[s.cursor + offset] + 1 := by
    rw [length_take, length_drop]
    omega
  unfold charAt
  rw [found]
  simp only
  rw [if_pos length]
  exact ⟨_, rfl, by rw [length], by omega, by omega⟩

/-- What the client has passed, what is buffered and what the raw bytes stand for make up the text `body`. -/
structure Begun (cd : Iconv) (s : Session) (body : List UInt8) : Prop where
  running : Running cd s.stream
  converted : s.passed ++ (s.stream.utf8.drop s.stream.cursor ++ cd.converted s.stream.raw) = cd.converted body
  residue : cd.residue s.stream.raw = cd.residue body

theorem Begun.append {cd : Iconv} (begun : Begun cd s body) (data : List UInt8) :
    Begun cd { s with stream := append s.stream data } (body ++ data) where
  running := ⟨begun.running.started, begun.running.filter, begun.running.within, begun.running.fits,
    begun.running.roomy, begun.running.whole⟩
  converted := by
    have whole := Reader.reading_append cd.text_settled body data
    have raw := Reader.reading_append cd.text_settled s.stream.raw data
    have residue : cd.text.residue s.stream.raw = cd.text.residue body := begun.residue
    rw [← residue] at whole
    simp only [InputStream.append, Iconv.converted, whole, raw, flatten_append]
    rw [← append_assoc, ← append_assoc, append_assoc s.passed]
    congr 1
    exact begun.converted
  residue := by
    have whole := Reader.residue_append cd.text_settled body data
    have raw := Reader.residue_append cd.text_settled s.stream.raw data
    have residue : cd.text.residue s.stream.raw = cd.text.residue body := begun.residue
    simp only [InputStream.append, Iconv.residue, whole, raw, residue]

theorem Begun.advance {cd : Iconv} (begun : Begun cd s body) (bytes : ℕ) :
    Begun cd ⟨advance s.stream bytes, s.passed ++ (s.stream.utf8.drop s.stream.cursor).take bytes⟩ body := by
  have within := begun.running.within
  have converted := begun.converted
  unfold InputStream.advance
  by_cases done : s.stream.cursor = s.stream.utf8.length
  · rw [if_pos done]
    refine ⟨begun.running, ?_, begun.residue⟩
    rw [done, drop_length] at converted
    simp only [done, drop_length, take_nil, append_nil]
    exact converted
  · rw [if_neg done]
    refine ⟨⟨begun.running.started, begun.running.filter, ?_, begun.running.fits, begun.running.roomy,
      begun.running.whole⟩, ?_, begun.residue⟩
    · simp only
      omega
    · simp only
      have split : s.stream.utf8.drop s.stream.cursor = (s.stream.utf8.drop s.stream.cursor).take bytes ++
          s.stream.utf8.drop (s.stream.cursor + min bytes (s.stream.utf8.length - s.stream.cursor)) := by
        by_cases short : bytes ≤ s.stream.utf8.length - s.stream.cursor
        · rw [Nat.min_eq_left short, ← drop_drop, take_append_drop]
        · have none : s.stream.utf8.drop (s.stream.cursor + min bytes (s.stream.utf8.length - s.stream.cursor)) = [] :=
            drop_eq_nil_of_le (by omega)
          rw [take_of_length_le (by rw [length_drop]; omega), none, append_nil]
      rw [split] at converted
      rw [append_assoc, ← append_assoc (List.take _ _)]
      exact converted

theorem Begun.exhausted {cd : Iconv} (begun : Begun cd s body) (read : s.stream.cursor = s.stream.utf8.length)
    (stuck : cd.next s.stream.raw = none) : s.passed = cd.converted body ∧ s.stream.raw = cd.residue body := by
  have converted := begun.converted
  have residue := begun.residue
  rw [read, drop_length, cd.converted_none stuck, append_nil, append_nil] at converted
  rw [Iconv.residue, cd.text.residue_none stuck] at residue
  exact ⟨converted, residue⟩

structure Peeks (cd : Iconv) (s : Session) (body : List UInt8) (offset : ℕ) (r : Except Error (List UInt8))
    (stream : Stream) : Prop where
  begun : Begun cd ⟨stream, s.passed⟩ body
  eof : stream.hadEof = s.stream.hadEof
  left : left stream ≤ left s.stream
  found : ∀ c, r = .ok c → c = (stream.utf8.drop (stream.cursor + offset)).take c.length ∧ 0 < c.length ∧
    stream.cursor + offset + c.length ≤ stream.utf8.length
  failed : ∀ e, r = .error e → stream.cursor + offset = stream.utf8.length ∧ cd.next stream.raw = none ∧
    e = if stream.raw = [] ∧ stream.hadEof then .eof else .needdata

theorem Peeks.position {cd : Iconv} {c : List UInt8} (peeks : Peeks cd s body offset (.ok c) stream) :
    c <+: (cd.converted body).drop (s.passed.length + offset) := by
  obtain ⟨same, -, bound⟩ := peeks.found c rfl
  rw [← peeks.begun.converted, drop_append, drop_eq_nil_of_le (by simp), nil_append]
  simp only
  rw [Nat.add_sub_cancel_left, drop_append_of_le_length (by rw [length_drop]; omega), drop_drop]
  have front : c <+: stream.utf8.drop (stream.cursor + offset) := by
    rw [same]
    exact take_prefix _ _
  exact front.trans (prefix_append _ _)

theorem refill_nothing {cd : Iconv} {raw raw' : List UInt8} (takes : cd.Takes raw raw' []) (more : raw ≠ []) :
    raw' ≠ [] := by
  rintro rfl
  have converted := takes.converted
  have residue := takes.residue
  rw [cd.converted_none (by rw [Iconv.next, cd.look_nil])] at converted
  rcases found : cd.next raw with _ | ⟨n, out⟩
  · rw [Iconv.residue, Iconv.residue, cd.text.residue_none found, cd.text.residue_none cd.text.next_nil] at residue
    exact more residue.symm
  · have positive := (cd.next_out found).1
    rw [cd.converted_some found] at converted
    have length := congrArg List.length converted
    simp only [append_nil, length_nil, length_append] at length
    omega

theorem peek_begun (env : Env) {cd : Iconv} {s : Session} {body : List UInt8} (begun : Begun cd s body) {offset : ℕ}
    (permitted : s.stream.cursor + offset ≤ s.stream.utf8.length) :
    ∃ r stream, peek env s.stream offset = some (r, stream) ∧ Peeks cd s body offset r stream := by
  unfold peek
  by_cases inside : s.stream.cursor + offset < s.stream.utf8.length
  · obtain ⟨c, found, same, positive, bound⟩ := charAt_running begun.running inside
    rw [if_pos inside, found]
    refine ⟨.ok c, s.stream, rfl, begun, rfl, Nat.le_refl _, ?_, ?_⟩
    · intro c' ok
      cases ok
      exact ⟨same, positive, bound⟩
    · intro e fails
      cases fails
  · rw [if_neg inside]
    unfold peekSlow
    by_cases more : s.stream.raw = []
    · rw [if_pos more]
      refine ⟨_, s.stream, rfl, begun, rfl, Nat.le_refl _, ?_, ?_⟩
      · intro c ok
        cases ok
      · intro e fails
        cases fails
        refine ⟨by omega, by rw [more, Iconv.next, cd.look_nil], ?_⟩
        simp only [more, true_and]
    · obtain ⟨stream, out, filled, running, cursor, utf8, takes, eof, stuck⟩ := fillBuffer_running begun.running more
      rw [if_neg more, refillBuffer, if_pos begun.running.started, filled]
      simp only
      have begun' : Begun cd ⟨stream, s.passed⟩ body := by
        refine ⟨running, ?_, takes.residue.trans begun.residue⟩
        simp only [cursor, drop_zero, utf8]
        rw [append_assoc, takes.converted]
        exact begun.converted
      have smaller : left stream ≤ left s.stream := by
        have shorter := takes.shorter
        simp only [left, cursor, utf8, length_append, length_drop]
        omega
      by_cases nothing : stream.cursor + offset = stream.utf8.length
      · rw [if_pos nothing]
        have empty : out = [] := by
          rw [cursor, utf8, length_append, length_drop] at nothing
          exact length_eq_zero_iff.mp (by omega)
        refine ⟨_, stream, rfl, begun', eof, smaller, ?_, ?_⟩
        · intro c ok
          cases ok
        · intro e fails
          cases fails
          refine ⟨nothing, stuck empty, ?_⟩
          subst empty
          rw [if_neg (fun both => refill_nothing takes more both.1)]
      · rw [if_neg nothing]
        have inside' : stream.cursor + offset < stream.utf8.length := by
          rw [cursor, utf8, length_append, length_drop] at nothing ⊢
          omega
        obtain ⟨c, found, same, positive, bound⟩ := charAt_running running inside'
        rw [found]
        refine ⟨.ok c, stream, rfl, begun', eof, smaller, ?_, ?_⟩
        · intro c' ok
          cases ok
          exact ⟨same, positive, bound⟩
        · intro e fails
          cases fails

/-! ### A stream that has not begun -/

/-- A text without its byte-order mark. -/
def stripped (text : List UInt8) : List UInt8 :=
  if utf8Bom <+: text then text.drop 3 else text

/-- A stream taken as UTF-8 of which nothing was read, with `text` appended. -/
structure Fresh (cd : Iconv) (s : Stream) (text : List UInt8) : Prop where
  untouched : s.doneFirstChunk = false
  utf8 : s.utf8 = []
  cursor : s.cursor = 0
  allocated : s.allocated = defaultSize
  raw : s.raw = text
  mibenum : s.mibenum = .unknown ∨ s.mibenum = .utf8
  filter : s.input = ⟨some cd, .utf8⟩

theorem Fresh.append {cd : Iconv} {s : Stream} {text : List UInt8} (fresh : Fresh cd s text) (data : List UInt8) :
    Fresh cd (append s data) (text ++ data) :=
  ⟨fresh.untouched, fresh.utf8, fresh.cursor, fresh.allocated, by rw [InputStream.append, fresh.raw], fresh.mibenum,
    fresh.filter⟩

theorem stripped_eq_nil {text : List UInt8} (none : stripped text = []) : text = [] ∨ text = utf8Bom := by
  unfold stripped at none
  split at none
  next mark =>
    right
    obtain ⟨later, rfl⟩ := mark
    have length := drop_eq_nil_iff.mp none
    rw [length_append] at length
    have short : later.length = 0 := by
      rw [show utf8Bom.length = 3 from rfl] at length
      omega
    rw [length_eq_zero_iff.mp short, append_nil]
  next => exact .inl none

theorem stripBom_utf8 (text : List UInt8) : stripBom .utf8 text = (.utf8, some (stripped text)) := by
  unfold stripBom stripped
  by_cases mark : utf8Bom <+: text
  · have long := mark.length_le
    simp only [utf8Bom, length_cons, length_nil] at long
    simp only [if_pos mark]
    rw [discard, if_neg (by omega)]
    rfl
  · simp only [if_neg mark]

theorem peek_fresh_nil (env : Env) {cd : Iconv} {s : Stream} (fresh : Fresh cd s []) :
    peek env s 0 = some (.error (if s.hadEof then .eof else .needdata), s) := by
  rw [peek, if_neg (by rw [fresh.utf8, fresh.cursor]; exact Nat.lt_irrefl 0), peekSlow, if_pos fresh.raw]

section Plain

variable {env : Env} {cd : Iconv} (plain : env.csdetect = none)
include plain

theorem startStream_fresh {s : Stream} {text : List UInt8} (fresh : Fresh cd s text) :
    ∃ s', startStream env s = (.ok, s') ∧ Running cd s' ∧ s'.utf8 = [] ∧ s'.cursor = 0 ∧ s'.raw = stripped text ∧
      s'.hadEof = s.hadEof := by
  obtain ⟨s₁, chosen, mibenum, fresh₁, eof⟩ : ∃ s₁ : Stream,
      (if s.mibenum = .unknown then { s with mibenum := .utf8, encsrc := 0 } else s) = s₁ ∧ s₁.mibenum = .utf8 ∧
        Fresh cd s₁ text ∧ s₁.hadEof = s.hadEof := by
    rcases fresh.mibenum with unknown | utf8
    · exact ⟨_, if_pos unknown, rfl, ⟨fresh.untouched, fresh.utf8, fresh.cursor, fresh.allocated, fresh.raw,
        .inr rfl, fresh.filter⟩, rfl⟩
    · exact ⟨s, if_neg (by rw [utf8]; decide), utf8, fresh, rfl⟩
  unfold startStream
  rw [plain]
  simp only [ne_eq, not_true_eq_false, false_and, if_false]
  rw [chosen, mibenum, fresh₁.raw, stripBom_utf8]
  simp only [fresh₁.filter, Filter.setEncoding, reduceCtorEq, if_false, if_true]
  refine ⟨_, rfl, ⟨rfl, rfl, ?_, ?_, ?_, ?_⟩, fresh₁.utf8, fresh₁.cursor, rfl, eof⟩
  · simp [fresh₁.cursor]
  · simp [fresh₁.utf8]
  · simp [fresh₁.allocated]
  · simp only [fresh₁.utf8]
    exact whole_nil

theorem peek_fresh {s : Stream} {text : List UInt8} (fresh : Fresh cd s text) (more : text ≠ []) :
    ∃ s', Begun cd ⟨s', []⟩ (stripped text) ∧ s'.hadEof = s.hadEof ∧ left s' ≤ left s ∧ s'.cursor = s'.utf8.length ∧
      (text = utf8Bom → peek env s 0 = some (.error .badparm, s')) ∧
      (text ≠ utf8Bom → peek env s 0 = peek env s' 0) := by
  obtain ⟨s', started, running, utf8, cursor, raw, eof⟩ := startStream_fresh plain fresh
  have slow : peek env s 0 = peekSlow env s 0 := by
    rw [peek, if_neg (by rw [fresh.utf8, fresh.cursor]; exact Nat.lt_irrefl 0)]
  have slow' : peek env s' 0 = peekSlow env s' 0 := by
    rw [peek, if_neg (by rw [utf8, cursor]; exact Nat.lt_irrefl 0)]
  have refill : refillBuffer env s = fillBuffer s' := by
    rw [refillBuffer, fresh.untouched, started]
    rfl
  refine ⟨s', ⟨running, ?_, by rw [raw]⟩, eof, ?_, by rw [utf8, cursor]; rfl, ?_, ?_⟩
  · simp only [utf8, raw, drop_nil, nil_append]
  · have shorter : (stripped text).length ≤ text.length := by
      unfold stripped
      split
      · rw [length_drop]
        exact Nat.sub_le _ _
      · exact Nat.le_refl _
    simp only [left, utf8, cursor, raw, fresh.utf8, fresh.cursor, fresh.raw]
    omega
  · rintro rfl
    have none : s'.raw = [] := raw
    rw [slow, peekSlow, if_neg (by rw [fresh.raw]; exact more), refill, fillBuffer, if_pos (by rw [utf8, cursor]; rfl)]
    simp only [Filter.process, running.filter, none]
    rfl
  · intro longer
    have some : s'.raw ≠ [] := by
      rw [raw]
      intro none
      rcases stripped_eq_nil none with empty | mark
      · exact more empty
      · exact longer mark
    rw [slow, slow', peekSlow, peekSlow, if_neg (by rw [fresh.raw]; exact more), if_neg some, refill, refillBuffer,
      running.started]
    rfl

end Plain

/-! ### Whole sessions -/

def appended : List Op → List UInt8
  | [] => []
  | .append data :: ops => data ++ appended ops
  | _ :: ops => appended ops

def ended : List Op → Bool
  | [] => false
  | .eof :: _ => true
  | _ :: ops => ended ops

/-- What has come when the first peek finds raw bytes, after `text`; all of it if none does. -/
def firstView (text : List UInt8) : List Op → List UInt8
  | [] => text
  | .append data :: ops => firstView (text ++ data) ops
  | .peek _ :: ops => if text = [] then firstView text ops else text
  | _ :: ops => firstView text ops

/-- An answer as it should be: a character of the whole text at its place, or the news that there is none. -/
def Fine (whole : List UInt8) : Answer → Prop
  | .char position bytes => bytes <+: whole.drop position
  | .failed e => e = .needdata ∨ e = .eof

theorem Fine.mono {whole whole' : List UInt8} (more : whole <+: whole') {answer : Answer} (fine : Fine whole answer) :
    Fine whole' answer := by
  rcases answer with ⟨position, bytes⟩ | e
  · exact List.IsPrefix.trans fine (more.drop position)
  · exact fine

theorem converted_extends (cd : Iconv) (body data : List UInt8) : cd.converted body <+: cd.converted (body ++ data) := by
  rw [Iconv.converted, Iconv.converted, Reader.reading_append cd.text_settled, flatten_append]
  exact prefix_append _ _

theorem Peeks.fine {cd : Iconv} {e : Error} (peeks : Peeks cd s body offset (.error e) stream) :
    e = .needdata ∨ e = .eof := by
  obtain ⟨-, -, rfl⟩ := peeks.failed e rfl
  split
  · exact .inr rfl
  · exact .inl rfl

theorem appended_cons (op : Op) (ops : List Op) : appended (op :: ops) = appended [op] ++ appended ops := by
  cases op <;> simp [appended]

theorem ended_cons (op : Op) (ops : List Op) : ended (op :: ops) = (ended [op] || ended ops) := by
  cases op <;> simp [ended]

theorem run_cons {env : Env} {s' s'' : Session} {ops : List Op} (first : step env s op = some (answers, s'))
    (rest : run env s' ops = some (later, s'')) : run env s (op :: ops) = some (answers ++ later, s'') := by
  simp only [run, first, rest]

theorem step_begun (env : Env) {cd : Iconv} (begun : Begun cd s body) (permitted : Permitted s op) :
    ∃ answers s', step env s op = some (answers, s') ∧ Begun cd s' (body ++ appended [op]) ∧
      s'.stream.hadEof = (s.stream.hadEof || ended [op]) ∧ ∀ answer ∈ answers, Fine (cd.converted body) answer := by
  rcases op with data | _ | offset | bytes
  · refine ⟨[], _, rfl, ?_, by simp [ended, InputStream.append], by simp⟩
    rw [appended, appended, append_nil]
    exact begun.append data
  · refine ⟨[], _, rfl, ?_, by simp [ended, appendEof], by simp⟩
    rw [appended, appended, append_nil]
    · exact ⟨⟨begun.running.started, begun.running.filter, begun.running.within, begun.running.fits,
        begun.running.roomy, begun.running.whole⟩, begun.converted, begun.residue⟩
    · intro data same
      cases same
  · obtain ⟨r, stream, peeked, peeks⟩ := peek_begun env begun permitted
    have same : body ++ appended [.peek offset] = body := by simp [appended]
    have eof : stream.hadEof = (s.stream.hadEof || ended [.peek offset]) := by simp [ended, peeks.eof]
    rw [same]
    rcases r with e | c
    · exact ⟨[.failed e], ⟨stream, s.passed⟩, by simp only [step, peeked], peeks.begun, eof,
        forall_mem_singleton.mpr peeks.fine⟩
    · exact ⟨[.char (s.passed.length + offset) c], ⟨stream, s.passed⟩, by simp only [step, peeked], peeks.begun, eof,
        forall_mem_singleton.mpr peeks.position⟩
  · refine ⟨[], _, rfl, ?_, ?_, by simp⟩
    · have same : body ++ appended [.advance bytes] = body := by simp [appended]
      rw [same]
      exact begun.advance bytes
    · simp only [InputStream.advance, ended, Bool.or_false]
      split <;> rfl

theorem run_begun (env : Env) {cd : Iconv} (ops : List Op) (begun : Begun cd s body) (legal : Legal env s ops) :
    ∃ answers s', run env s ops = some (answers, s') ∧ Begun cd s' (body ++ appended ops) ∧
      s'.stream.hadEof = (s.stream.hadEof || ended ops) ∧
      ∀ answer ∈ answers, Fine (cd.converted (body ++ appended ops)) answer := by
  induction ops generalizing s body with
  | nil =>
    refine ⟨[], s, rfl, ?_, by simp [ended], by simp⟩
    rw [appended, append_nil]
    exact begun
  | cons op ops ih =>
    obtain ⟨permitted, legal⟩ := legal
    obtain ⟨answers, s', stepped, begun', eof, fine⟩ := step_begun env begun permitted
    obtain ⟨later, s'', ran, begun'', eof', fine'⟩ := ih begun' (legal _ _ stepped)
    rw [append_assoc, ← appended_cons] at begun'' fine'
    refine ⟨answers ++ later, s'', run_cons stepped ran, begun'', ?_, ?_⟩
    · rw [eof', eof, ended_cons op ops, Bool.or_assoc]
    · intro answer member
      rcases mem_append.mp member with member | member
      · exact (fine answer member).mono (converted_extends cd body _)
      · exact fine' answer member

/-- How a session on a fresh stream comes out when all of `text` has come: either no peek found raw bytes, or the
first that did took `view` for the start of the text, and failed if that was a byte-order mark and nothing else. -/
def Outcome (cd : Iconv) (text view : List UInt8) (answers : List Answer) (s : Session) : Prop :=
  Fresh cd s.stream text ∧ s.passed = [] ∧ view = text ∧ (∀ answer ∈ answers, Fine [] answer) ∨
    ∃ later, view ≠ [] ∧ text = view ++ later ∧ Begun cd s (stripped view ++ later) ∧
      (view = utf8Bom → .failed .badparm ∈ answers) ∧
      (view ≠ utf8Bom → ∀ answer ∈ answers, Fine (cd.converted (stripped view ++ later)) answer)

theorem Outcome.after {cd : Iconv} {text : List UInt8} (fine : ∀ answer ∈ answers, Fine [] answer)
    (outcome : Outcome cd text view later s) : Outcome cd text view (answers ++ later) s := by
  rcases outcome with ⟨fresh, passed, first, fine'⟩ | ⟨rest, more, split, begun, bad, good⟩
  · refine .inl ⟨fresh, passed, first, ?_⟩
    intro answer member
    rcases mem_append.mp member with member | member
    · exact fine answer member
    · exact fine' answer member
  · refine .inr ⟨rest, more, split, begun, fun mark => mem_append_right _ (bad mark), ?_⟩
    intro other answer member
    rcases mem_append.mp member with member | member
    · exact (fine answer member).mono nil_prefix
    · exact good other answer member

theorem run_fresh {env : Env} {cd : Iconv} (plain : env.csdetect = none) (ops : List Op) {s : Stream}
    {text : List UInt8} (fresh : Fresh cd s text) (legal : Legal env ⟨s, []⟩ ops) :
    ∃ answers s', run env ⟨s, []⟩ ops = some (answers, s') ∧ s'.stream.hadEof = (s.hadEof || ended ops) ∧
      Outcome cd (text ++ appended ops) (firstView text ops) answers s' := by
  induction ops generalizing s text with
  | nil =>
    refine ⟨[], ⟨s, []⟩, rfl, by simp [ended], .inl ⟨?_, rfl, ?_, by simp⟩⟩
    · rw [appended, append_nil]
      exact fresh
    · rw [firstView, appended, append_nil]
  | cons op ops ih =>
    obtain ⟨permitted, legal⟩ := legal
    rw [ended_cons, ← Bool.or_assoc]
    rcases op with data | _ | offset | bytes
    · obtain ⟨later, s', ran, eof, outcome⟩ := ih (fresh.append data) (legal [] _ rfl)
      refine ⟨[] ++ later, s', run_cons rfl ran, ?_, ?_⟩
      · rw [eof]
        simp [InputStream.append, ended]
      · rw [append_assoc] at outcome
        exact outcome
    · have flagged : Fresh cd (appendEof s) text :=
        ⟨fresh.untouched, fresh.utf8, fresh.cursor, fresh.allocated, fresh.raw, fresh.mibenum, fresh.filter⟩
      obtain ⟨later, s', ran, eof, outcome⟩ := ih flagged (legal [] _ rfl)
      refine ⟨[] ++ later, s', run_cons rfl ran, ?_, outcome⟩
      rw [eof]
      simp [appendEof, ended]
    · have start : offset = 0 := by
        simp only [Permitted, fresh.utf8, fresh.cursor, length_nil] at permitted
        omega
      subst start
      rw [firstView]
      by_cases none : text = []
      · subst none
        have stepped : step env ⟨s, []⟩ (.peek 0) =
            some ([.failed (if s.hadEof then .eof else .needdata)], ⟨s, []⟩) := by
          simp only [step, peek_fresh_nil env fresh]
        obtain ⟨later, s', ran, eof, outcome⟩ := ih fresh (legal _ _ stepped)
        refine ⟨_, s', run_cons stepped ran, ?_, ?_⟩
        · rw [eof]
          simp [ended]
        · rw [if_pos rfl]
          refine outcome.after (forall_mem_singleton.mpr ?_)
          simp only [Fine]
          split <;> simp
      · obtain ⟨s₁, begun, flag, -, buffered, mark, other⟩ := peek_fresh plain fresh none
        rw [if_neg none]
        by_cases bare : text = utf8Bom
        · have stepped : step env ⟨s, []⟩ (.peek 0) = some ([.failed .badparm], ⟨s₁, []⟩) := by
            simp only [step, mark bare]
          obtain ⟨later, s', ran, begun', eof, -⟩ := run_begun env ops begun (legal _ _ stepped)
          refine ⟨_, s', run_cons stepped ran, ?_, .inr ⟨appended ops, none, rfl, begun', ?_, ?_⟩⟩
          · rw [eof, ← flag]
            simp [ended]
          · intro _
            exact mem_append_left _ mem_cons_self
          · intro different
            exact absurd bare different
        · have same : step env ⟨s, []⟩ (.peek 0) = step env ⟨s₁, []⟩ (.peek 0) := by
            simp only [step, other bare]
          have permitted : Permitted ⟨s₁, []⟩ (.peek 0) := by
            simp only [Permitted]
            omega
          obtain ⟨answers, s₂, stepped, begun₂, eof₂, fine₂⟩ := step_begun env begun permitted
          rw [← same] at stepped
          have body : stripped text ++ appended [.peek 0] = stripped text := by simp [appended]
          rw [body] at begun₂
          obtain ⟨later, s', ran, begun', eof, fine⟩ := run_begun env ops begun₂ (legal _ _ stepped)
          refine ⟨_, s', run_cons stepped ran, ?_, .inr ⟨appended ops, none, rfl, begun', ?_, ?_⟩⟩
          · rw [eof, eof₂, flag]
          · intro mark
            exact absurd mark bare
          · intro _ answer member
            rcases mem_append.mp member with member | member
            · exact (fine₂ answer member).mono (converted_extends cd _ _)
            · exact fine answer member
    · have idle : step env ⟨s, []⟩ (.advance bytes) = some ([], ⟨s, []⟩) := by
        simp [step, InputStream.advance, fresh.utf8, fresh.cursor]
      obtain ⟨later, s', ran, eof, outcome⟩ := ih fresh (legal _ _ idle)
      refine ⟨later, s', run_cons idle ran, ?_, outcome⟩
      rw [eof]
      simp [ended]

/-! ### Reading to the end -/

theorem drain_begun (env : Env) {cd : Iconv} (fuel : ℕ) (begun : Begun cd s body) (enough : left s.stream ≤ fuel) :
    ∃ rest e, drain env fuel s.stream = some (rest, e) ∧ s.passed ++ rest = cd.converted body ∧
      e = if cd.residue body = [] ∧ s.stream.hadEof then .eof else .needdata := by
  induction fuel generalizing s with
  | zero =>
    simp only [left] at enough
    omega
  | succ fuel ih =>
    obtain ⟨r, stream, peeked, peeks⟩ := @peek_begun env _ _ _ begun 0 begun.running.within
    rw [drain, peeked]
    rcases r with e | c
    · obtain ⟨read, stuck, same⟩ := peeks.failed e rfl
      obtain ⟨passed, raw⟩ := peeks.begun.exhausted read stuck
      refine ⟨[], e, rfl, ?_, ?_⟩
      · rw [append_nil]
        exact passed
      · rw [same, ← peeks.eof]
        simp only at raw
        rw [raw]
    · obtain ⟨same, positive, bound⟩ := peeks.found c rfl
      have advanced := peeks.begun.advance c.length
      have smaller : left (advance stream c.length) < left s.stream := by
        have before := peeks.left
        simp only [left, InputStream.advance] at before ⊢
        rw [if_neg (by omega)]
        simp only
        omega
      obtain ⟨rest, e, drained, passed, ends⟩ := ih advanced (Nat.le_of_lt_succ (Nat.lt_of_lt_of_le smaller enough))
      simp only at drained passed ends
      rw [Nat.add_zero] at same
      rw [← same, append_assoc] at passed
      have flag : (advance stream c.length).hadEof = s.stream.hadEof := by
        rw [← peeks.eof, InputStream.advance]
        split <;> rfl
      rw [flag] at ends
      simp only [drained]
      exact ⟨c ++ rest, e, rfl, passed, ends⟩

theorem drain_fresh {env : Env} {cd : Iconv} (plain : env.csdetect = none) {s : Stream} {text : List UInt8}
    (fresh : Fresh cd s text) :
    ∃ e, drain env (left s) s = some (cd.converted (stripped text), e) ∧ (text = utf8Bom → e = .badparm) ∧
      (text ≠ utf8Bom → e = if cd.residue (stripped text) = [] ∧ s.hadEof then .eof else .needdata) := by
  by_cases none : text = []
  · subst none
    have stuck : cd.text.next [] = none := cd.text.next_nil
    have plainly : stripped [] = [] := by decide
    refine ⟨if s.hadEof then .eof else .needdata, ?_, fun mark => (by cases mark), fun _ => ?_⟩
    · rw [left, drain, peek_fresh_nil env fresh, plainly, cd.converted_none stuck]
    · rw [plainly, Iconv.residue, cd.text.residue_none stuck]
      simp only [true_and]
  · obtain ⟨s', begun, flag, smaller, -, mark, other⟩ := peek_fresh plain fresh none
    by_cases bare : text = utf8Bom
    · have plainly : stripped utf8Bom = [] := by decide
      refine ⟨.badparm, ?_, fun _ => rfl, fun different => absurd bare different⟩
      rw [left, drain, mark bare, bare, plainly, cd.converted_none cd.text.next_nil]
    · obtain ⟨rest, e, drained, passed, ends⟩ := drain_begun env (left s) begun smaller
      refine ⟨e, ?_, fun same => absurd same bare, fun _ => ?_⟩
      · rw [nil_append] at passed
        rw [← passed, ← drained, left, drain, drain, other bare]
      · rw [ends, flag]

theorem create_fresh {env : Env} {cd : Iconv} (opens : env.iconvOpen .utf8 = some cd) {enc : Option Charset}
    {encsrc : ℕ} {s : Stream} (taken : enc = none ∨ enc = some .utf8) (created : create env enc encsrc = .ok s) :
    Fresh cd s [] ∧ s.hadEof = false := by
  have first : Filter.setEncoding env ⟨none, .unknown⟩ .utf8 = (.ok, ⟨some cd, .utf8⟩) := by
    rw [Filter.setEncoding, if_neg (by decide), if_neg (by decide), opens]
  have second : Filter.setEncoding env ⟨some cd, .utf8⟩ .utf8 = (.ok, ⟨some cd, .utf8⟩) := by
    rw [Filter.setEncoding, if_neg (by decide), if_pos rfl]
  unfold create at created
  rw [first] at created
  rcases taken with rfl | rfl
  · cases created
    exact ⟨⟨rfl, rfl, rfl, rfl, rfl, .inl rfl, rfl⟩, rfl⟩
  · simp only [second] at created
    cases created
    exact ⟨⟨rfl, rfl, rfl, rfl, rfl, .inr rfl, rfl⟩, rfl⟩

/-! ### Independence of chunks -/

/-- A session delivers what it would if all was appended in one piece: each peek gives what stands at its place or
that there is nothing yet, what was passed and what is still read off make up the whole, and the last peek says that
this is the end if the end was flagged, and else that more is needed. -/
def AsInOnePiece (env : Env) (s : Stream) (ops : List Op) : Prop :=
  ∃ answers s' rest e whole e', run env ⟨s, []⟩ ops = some (answers, s') ∧
    drain env (left s'.stream) s'.stream = some (rest, e) ∧
    drain env (left (append s (appended ops))) (append s (appended ops)) = some (whole, e') ∧
    s'.passed ++ rest = whole ∧ (∀ answer ∈ answers, Fine whole answer) ∧
    e = if ended ops then .eof else .needdata

/-- A peek comes upon a part of the byte-order mark, or upon the mark and nothing after it. -/
def MarkExposed (ops : List Op) : Prop :=
  firstView [] ops ≠ [] ∧ firstView [] ops <+: utf8Bom ∧ utf8Bom <+: appended ops

instance (ops : List Op) : Decidable (MarkExposed ops) := by
  unfold MarkExposed
  infer_instance

theorem stripped_append {later : List UInt8} (hidden : ¬(view <+: utf8Bom ∧ utf8Bom <+: view ++ later)) :
    stripped (view ++ later) = stripped view ++ later := by
  unfold stripped
  by_cases mark : utf8Bom <+: view
  · rw [if_pos mark, if_pos (mark.trans (prefix_append _ _)),
      drop_append_of_le_length (show 3 ≤ view.length from mark.length_le)]
  · have clear : ¬ utf8Bom <+: view ++ later := by
      intro above
      rcases prefix_or_prefix_of_prefix (prefix_append view later) above with below | below
      · exact hidden ⟨below, above⟩
      · exact mark below
    rw [if_neg mark, if_neg clear]

theorem converted_mark (cd : Iconv) {text : List UInt8} (mark : utf8Bom <+: text) :
    cd.converted text ≠ cd.converted (stripped text) := by
  obtain ⟨later, rfl⟩ := mark
  have found : cd.next (utf8Bom ++ later) = some (3, utf8Bom) := by
    have looked : cd.look utf8Bom = .char 3 utf8Bom := cd.mark
    rw [Iconv.next, cd.settled utf8Bom later (by rw [looked]; exact Found.noConfusion), looked]
  rw [cd.converted_some found, stripped, if_pos (prefix_append _ _)]
  intro same
  have length := congrArg List.length same
  rw [length_append] at length
  simp only [utf8Bom, length_cons, length_nil] at length
  omega

theorem ending_iff (residue : List UInt8) (flag : Bool) :
    ((if residue = [] ∧ flag = true then Error.eof else .needdata) = if flag = true then .eof else .needdata) ↔
      (flag = true → residue = []) := by
  by_cases empty : residue = []
  · simp [empty]
  · cases flag <;> simp [empty]

/-- For every interleaving of appends, peeks and advances, the stream delivers what it delivers when all is appended in
one piece, fails no call and ends, exactly when no peek comes upon a part of the byte-order mark or upon the bare
mark, and, if the end was flagged, the text does not end in an incomplete sequence. -/
theorem stream_independent_iff {env : Env} {cd : Iconv} (plain : env.csdetect = none)
    (opens : env.iconvOpen .utf8 = some cd) {enc : Option Charset} {encsrc : ℕ} {s : Stream}
    (taken : enc = none ∨ enc = some .utf8) (created : create env enc encsrc = .ok s) (ops : List Op)
    (legal : Legal env ⟨s, []⟩ ops) :
    AsInOnePiece env s ops ↔
      ¬ MarkExposed ops ∧ (ended ops = true → cd.residue (stripped (appended ops)) = []) := by
  obtain ⟨fresh, flag⟩ := create_fresh opens taken created
  obtain ⟨answers, s', ran, eof, outcome⟩ := run_fresh plain ops fresh legal
  rw [flag, Bool.false_or] at eof
  rw [nil_append] at outcome
  have piece := fresh.append (appended ops)
  rw [nil_append] at piece
  obtain ⟨e', whole, -, -⟩ := drain_fresh plain piece
  -- the property, with everything in it evaluated
  have reduces (rest : List UInt8) (e : Error) (drained : drain env (left s'.stream) s'.stream = some (rest, e)) :
      AsInOnePiece env s ops ↔ s'.passed ++ rest = cd.converted (stripped (appended ops)) ∧
        (∀ answer ∈ answers, Fine (cd.converted (stripped (appended ops))) answer) ∧
        e = if ended ops then .eof else .needdata := by
    constructor
    · rintro ⟨answers', s'', rest', f, whole', f', ran', drained', whole'', total, fine, ends⟩
      rw [ran] at ran'
      cases ran'
      rw [drained] at drained'
      cases drained'
      rw [whole] at whole''
      cases whole''
      exact ⟨total, fine, ends⟩
    · rintro ⟨total, fine, ends⟩
      exact ⟨answers, s', rest, e, _, e', ran, drained, whole, total, fine, ends⟩
  rcases outcome with ⟨fresh', passed, view, fine⟩ | ⟨later, more, split, begun, bad, good⟩
  · obtain ⟨e, drained, bare, other⟩ := drain_fresh plain fresh'
    rw [reduces _ _ drained, passed, nil_append, MarkExposed, view]
    by_cases mark : appended ops = utf8Bom
    · rw [bare mark]
      constructor
      · rintro ⟨-, -, ends⟩
        split at ends <;> cases ends
      · rintro ⟨hidden, -⟩
        refine absurd ⟨?_, ?_, ?_⟩ hidden
        · rw [mark]
          exact cons_ne_nil _ _
        · rw [mark]
        · rw [mark]
    · have hidden : ¬(appended ops ≠ [] ∧ appended ops <+: utf8Bom ∧ utf8Bom <+: appended ops) :=
        fun exposed => mark (exposed.2.1.eq_of_length_le exposed.2.2.length_le)
      rw [other mark, eof, ending_iff]
      constructor
      · rintro ⟨-, -, ends⟩
        exact ⟨hidden, ends⟩
      · rintro ⟨-, ends⟩
        exact ⟨rfl, fun answer member => (fine answer member).mono nil_prefix, ends⟩
  · obtain ⟨rest, e, drained, total, ends⟩ := drain_begun env (left s'.stream) begun (Nat.le_refl _)
    rw [reduces _ _ drained]
    by_cases exposed : MarkExposed ops
    · refine ⟨?_, fun both => absurd exposed both.1⟩
      rintro ⟨same, fine, -⟩
      obtain ⟨-, below, above⟩ := exposed
      by_cases bare : firstView [] ops = utf8Bom
      · rcases fine _ (bad bare) with wrong | wrong <;> cases wrong
      · have short : ¬ utf8Bom <+: firstView [] ops := fun mark =>
          bare (below.eq_of_length_le mark.length_le)
        rw [stripped, if_neg short, ← split] at total
        exact absurd (total.symm.trans same) (converted_mark cd above)
    · have hidden : ¬(firstView [] ops <+: utf8Bom ∧ utf8Bom <+: firstView [] ops ++ later) := by
        rw [← split]
        exact fun both => exposed ⟨more, both⟩
      have body := stripped_append hidden
      rw [← split] at body
      have other : firstView [] ops ≠ utf8Bom := by
        intro bare
        apply hidden
        rw [bare]
        exact ⟨prefix_refl _, prefix_append _ _⟩
      rw [body, total, ends, eof, ending_iff]
      constructor
      · rintro ⟨-, -, complete⟩
        exact ⟨exposed, complete⟩
      · rintro ⟨-, complete⟩
        exact ⟨rfl, good other, complete⟩

/-! ### A converter -/

open Utf8 (toUcs4 toUcs4_ok toUcs4_append isContinuation numContinuations_continuation)

def lookUcs4 (s : List UInt8) : Found :=
  match toUcs4 s with
  | .ok (_, n) => .char n (s.take n)
  | .error .needdata => .incomplete
  | .error _ => .illegal

theorem lookUcs4_char {s : List UInt8} {n : ℕ} {out : List UInt8} (looked : lookUcs4 s = .char n out) :
    ∃ b later, s = b :: later ∧ n = numContinuations b + 1 ∧ n ≤ later.length + 1 ∧ out = b :: later.take (n - 1) ∧
      ∀ t ∈ later.take (n - 1), isContinuation t = true := by
  unfold lookUcs4 at looked
  split at looked
  next c m read =>
    cases looked
    rcases s with _ | ⟨b, later⟩
    · cases read
    · obtain ⟨length, long, continuation⟩ := toUcs4_ok read
      refine ⟨b, later, rfl, length, long, ?_, continuation⟩
      rw [length, take_succ_cons, Nat.add_sub_cancel]
  · cases looked
  · cases looked

def utf8Iconv : Iconv where
  look := lookUcs4
  look_nil := rfl
  settled := by
    intro s t decided
    have known : toUcs4 s ≠ .error .needdata := by
      intro needs
      rw [lookUcs4, needs] at decided
      exact decided rfl
    have same := toUcs4_append t known
    unfold lookUcs4
    rw [same]
    split
    next c n read =>
      rcases s with _ | ⟨b, later⟩
      · cases read
      · obtain ⟨-, long, -⟩ := toUcs4_ok read
        rw [take_append_of_le_length (by rw [length_cons]; exact long)]
    · rfl
    · rfl
  char_bounds := by
    intro s n out looked
    obtain ⟨b, later, rfl, length, long, -, -⟩ := lookUcs4_char looked
    rw [length_cons]
    omega
  char_out := by
    intro s n out looked
    obtain ⟨b, later, rfl, length, long, rfl, continuation⟩ := lookUcs4_char looked
    have bound := Besra.Utf8.numContinuations_le b
    have size : (b :: later.take (n - 1)).length = n := by
      rw [length_cons, length_take]
      omega
    refine ⟨by omega, by omega, ?_⟩
    intro i t found
    rw [size]
    rcases i with _ | i
    · cases found
      omega
    · rw [List.getElem?_cons_succ] at found
      have inside := (List.getElem?_eq_some_iff.mp found).1
      rw [length_take] at inside
      rw [numContinuations_continuation t (continuation t (mem_of_getElem? found))]
      omega
  mark := by decide +kernel

def utf8Env : Env := ⟨none, fun _ => some utf8Iconv⟩

def utf8Stream : Stream :=
  ⟨[], defaultSize, 0, false, [], false, .unknown, 0, ⟨some utf8Iconv, .utf8⟩⟩

theorem Legal.cons {env : Env} {s s' : Session} {op : Op} {ops : List Op} {answers : List Answer}
    (permitted : Permitted s op) (stepped : step env s op = some (answers, s')) (later : Legal env s' ops) :
    Legal env s (op :: ops) := by
  refine ⟨permitted, ?_⟩
  intro answers' s'' same
  rw [stepped] at same
  cases same
  exact later

/-- A letter, and a character of two bytes that comes in two chunks with a peek between them. -/
theorem stream_independent_of_split_character :
    AsInOnePiece utf8Env utf8Stream
      [.append [0x41, 0xC3], .peek 0, .advance 1, .peek 0, .append [0xA9], .peek 0, .eof] := by
  refine (@stream_independent_iff utf8Env utf8Iconv rfl rfl none 0 utf8Stream (.inl rfl) rfl _ ?_).mpr ⟨by decide, fun _ => by decide +kernel⟩
  refine .cons (cons_ne_nil _ _) rfl (.cons ?_ rfl (.cons trivial rfl (.cons ?_ rfl
    (.cons (cons_ne_nil _ _) rfl (.cons ?_ rfl (.cons trivial rfl trivial))))))
  all_goals decide +kernel

/-- A byte-order mark that comes alone fails the peek; one that comes in two parts with a peek between them is
delivered; and a stream that ends in an incomplete sequence never says that it has ended. -/
theorem stream_depends_on_chunks :
    (run utf8Env ⟨utf8Stream, []⟩ [.append [0xEF, 0xBB, 0xBF], .peek 0]).map (·.1) = some [.failed .badparm] ∧
      (run utf8Env ⟨utf8Stream, []⟩ [.append [0xEF], .peek 0, .append [0xBB, 0xBF, 0x41], .peek 0]).map (·.1) =
        some [.failed .needdata, .char 0 [0xEF, 0xBB, 0xBF]] ∧
      (run utf8Env ⟨utf8Stream, []⟩ [.append [0xEF, 0xBB, 0xBF, 0x41], .peek 0]).map (·.1) = some [.char 0 [0x41]] ∧
      (run utf8Env ⟨utf8Stream, []⟩ [.append [0xC3], .eof, .peek 0]).map (·.1) = some [.failed .needdata] := by
  decide +kernel

end Besra.InputStream
