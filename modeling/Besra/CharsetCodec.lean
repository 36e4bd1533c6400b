import Besra.Utf8

/-!
What the codecs for UTF-8 and UTF-16 have in common (codec_utf8.c, codec_utf16.c).  They differ in the reading of one
character, `charset_*_codec_read_char`, and in the writing of one, which are parameters here; the decoder around the
former (`CharsetCodec.decode`) is defined in `Utf8`.
-/

namespace Besra.Utf8

/-- The caller's pointers: what is left of the source, what was written and the bytes of output that are left. -/
structure Output where
  source : List UInt32
  dest : List UInt8
  destlen : ℕ
  deriving DecidableEq

def Output.written (a : Output) (bytes : List UInt8) : Output :=
  { a with dest := a.dest ++ bytes, destlen := a.destlen - bytes.length }

end Besra.Utf8

namespace Besra.CharsetCodec

open Lwc Utf8
open List (append_nil forall_mem_cons append_assoc flatMap_cons length_append length_cons nil_append length_nil prefix_append
  length_drop)

section Encoder

variable (put : UInt32 → ℕ → Except Error (List UInt8))

/-- "Process any outstanding characters from the previous call"; nothing when an assertion fails. -/
def writeOutstanding : List UInt32 → Output → Option (Error × List UInt32 × Output)
  | [], a => some (.ok, [], a)
  | x :: later, a =>
    match put x a.destlen with
    | .ok bytes => writeOutstanding later (a.written bytes)
    | .error .nomem => some (.nomem, x :: later, a)
    | .error _ => none

/-- "Now process the characters for this call"; a character without room is claimed and waits in `writeBuf`. -/
def writeLoop : List UInt32 → Output → Option (Error × List UInt32 × Output)
  | [], a => some (.ok, [], { a with source := [] })
  | x :: later, a =>
    match put x a.destlen with
    | .ok bytes => writeLoop later (a.written bytes)
    | .error .nomem => some (.nomem, [x], { a with source := later })
    | .error _ => none

/-- `charset_*_codec_encode` -/
def encode (writeBuf : List UInt32) (a : Output) : Option (Error × List UInt32 × Output) :=
  match writeOutstanding put writeBuf a with
  | some (.ok, _, a) => writeLoop put a.source a
  | other => other

/-- Give the characters to the codec, again with a new buffer as long as the answer is NOMEM: with the buffers
`sizes call`, `sizes (call + 1)`, …. -/
def encodeAll (sizes : ℕ → ℕ) : ℕ → List UInt32 → List UInt32 → ℕ → Option (List UInt8)
  | 0, _, _, _ => none
  | fuel + 1, writeBuf, source, call =>
    match encode put writeBuf ⟨source, [], sizes call⟩ with
    | some (.ok, _, a) => some a.dest
    | some (.nomem, writeBuf', a) =>
      match encodeAll sizes fuel writeBuf' a.source (call + 1) with
      | some later => some (a.dest ++ later)
      | none => none
    | _ => none

end Encoder

/-- A character is written whole, in at most so many bytes, and these are the only thing that is checked for room. -/
structure Writer (put : UInt32 → ℕ → Except Error (List UInt8)) (Character : UInt32 → Prop)
    (written : UInt32 → List UInt8) (most : ℕ) : Prop where
  bounded : ∀ {x}, Character x → (written x).length ≤ most
  cases : ∀ {x}, Character x → ∀ len, ((written x).length ≤ len ∧ put x len = .ok (written x)) ∨
    (len < (written x).length ∧ put x len = .error .nomem)

section Encoding

variable {put : UInt32 → ℕ → Except Error (List UInt8)} {Character : UInt32 → Prop}
variable {written : UInt32 → List UInt8} {most : ℕ}

variable (written) in
/-- What part of a call writes: the characters `done` out of those there were, and if others are left, then for want
of room for the next one. -/
def Writes (a : Output) (characters : List UInt32) (result : Option (Error × List UInt32 × Output)) : Prop :=
  ∃ done waiting, characters = done ++ waiting ∧
    ∃ e writeBuf a', result = some (e, writeBuf, a') ∧ a'.dest = a.dest ++ done.flatMap written ∧
      (e = .ok ∧ waiting = [] ∨
        e = .nomem ∧ ∃ x, waiting = x :: a'.source ∧ writeBuf = [x] ∧
          a.destlen < (done.flatMap written).length + (written x).length)

theorem writeLoop_writes (writer : Writer put Character written most) (source : List UInt32)
    (characters : ∀ x ∈ source, Character x) (a : Output) : Writes written a source (writeLoop put source a) := by
  induction source generalizing a with
  | nil => exact ⟨[], [], rfl, _, _, _, rfl, (append_nil _).symm, .inl ⟨rfl, rfl⟩⟩
  | cons x later ih =>
    obtain ⟨character, others⟩ := forall_mem_cons.mp characters
    rw [writeLoop]
    rcases writer.cases character a.destlen with ⟨room, fits⟩ | ⟨short, refused⟩
    · obtain ⟨done, waiting, split, e, writeBuf, a', result, dest, ends⟩ := ih others (a.written (written x))
      rw [fits]
      refine ⟨x :: done, waiting, by rw [split, List.cons_append], e, writeBuf, a', result, ?_, ?_⟩
      · rw [dest, Output.written, append_assoc]
        rfl
      · rcases ends with finished | ⟨full, y, rest, buffered, tight⟩
        · exact .inl finished
        · refine .inr ⟨full, y, rest, buffered, ?_⟩
          rw [Output.written] at tight
          simp only [flatMap_cons, length_append] at tight ⊢
          omega
    · rw [refused]
      refine ⟨[], x :: later, rfl, _, _, _, rfl, (append_nil _).symm, .inr ⟨rfl, x, rfl, rfl, ?_⟩⟩
      simpa using short

theorem encode_writes (writer : Writer put Character written most) {writeBuf source : List UInt32}
    (characters : ∀ x ∈ writeBuf ++ source, Character x) (single : writeBuf.length ≤ 1) {size : ℕ} (room : most ≤ size) :
    Writes written ⟨source, [], size⟩ (writeBuf ++ source) (encode put writeBuf ⟨source, [], size⟩) := by
  rcases writeBuf with _ | ⟨w, others⟩
  · rw [encode, writeOutstanding]
    exact writeLoop_writes writer source characters _
  · have none : others = [] := by
      rw [length_cons] at single
      exact List.length_eq_zero_iff.mp (by omega)
    subst none
    have character := characters w (by simp)
    have bounded := writer.bounded character
    rcases writer.cases character size with ⟨-, fits⟩ | ⟨short, -⟩
    · have wrote : writeOutstanding put [w] ⟨source, [], size⟩ =
          some (.ok, [], Output.written ⟨source, [], size⟩ (written w)) := by
        rw [writeOutstanding]
        simp only [fits, writeOutstanding]
      have same : encode put [w] ⟨source, [], size⟩ = writeLoop put (w :: source) ⟨source, [], size⟩ := by
        rw [encode, wrote, writeLoop]
        simp only [fits, Output.written]
      rw [same]
      exact writeLoop_writes writer (w :: source) characters _
    · omega

theorem encodeAll_written (writer : Writer put Character written most) {sizes : ℕ → ℕ} (room : ∀ i, most ≤ sizes i)
    (fuel : ℕ) (writeBuf source : List UInt32) (call : ℕ) (characters : ∀ x ∈ writeBuf ++ source, Character x)
    (single : writeBuf.length ≤ 1) (enough : (writeBuf ++ source).length < fuel) :
    encodeAll put sizes fuel writeBuf source call = some ((writeBuf ++ source).flatMap written) := by
  induction fuel generalizing writeBuf source call with
  | zero => omega
  | succ fuel ih =>
    obtain ⟨done, waiting, split, e, writeBuf', a', result, dest, ends⟩ :=
      encode_writes writer characters single (room call)
    rw [encodeAll, result]
    rcases ends with ⟨rfl, rfl⟩ | ⟨rfl, x, rfl, rfl, tight⟩
    · simp only [dest, split, append_nil, nil_append]
    · have member : x ∈ writeBuf ++ source := by
        rw [split]
        simp
      have progress : done ≠ [] := by
        rintro rfl
        have bounded := writer.bounded (characters x member)
        have roomy := room call
        simp only [List.flatMap_nil, length_nil] at tight
        omega
      have some := List.length_pos_iff.mpr progress
      rw [split, length_append, length_cons] at enough
      have rest := ih [x] a'.source (call + 1)
        (fun y within => characters y (by rw [split]; exact List.mem_append_right _ within))
        (Nat.le_refl 1) (by rw [List.singleton_append, length_cons]; omega)
      simp only [rest, dest, split, List.flatMap_append, List.singleton_append, nil_append]

end Encoding

/-- What a codec reads as a character, and what it does about it. -/
structure Reads (toUcs4 : List UInt8 → Except Error (UInt32 × ℕ))
    (readChar : Codec → Args → Option (Error × Codec × Args)) : Prop where
  blank : toUcs4 [] = .error .needdata
  brief : ∀ {s}, toUcs4 s = .error .needdata → s.length ≤ 5
  wait : ∀ {c a}, toUcs4 a.source = .error .needdata →
    readChar c a = some (.ok, { c with inval := a.source }, { a with source := [] })
  take : ∀ {c a x n}, toUcs4 a.source = .ok (x, n) → readChar c a = some (deliver c x n a)

/-- The bytes of characters: they are read as the character whatever comes behind them, and no part of them is. -/
structure Code (toUcs4 : List UInt8 → Except Error (UInt32 × ℕ)) (Character : UInt32 → Prop)
    (encoded : UInt32 → List UInt8) : Prop where
  positive : ∀ {x}, Character x → 1 ≤ (encoded x).length
  whole : ∀ {x}, Character x → ∀ more, toUcs4 (encoded x ++ more) = .ok (x, (encoded x).length)
  part : ∀ {x}, Character x → ∀ {p}, p <+: encoded x → p.length < (encoded x).length →
    toUcs4 p = .error .needdata

section Decoding

variable {toUcs4 : List UInt8 → Except Error (UInt32 × ℕ)} {readChar : Codec → Args → Option (Error × Codec × Args)}
variable {Character : UInt32 → Prop} {encoded : UInt32 → List UInt8}

variable {rest source : List UInt8} {xs : List UInt32} {c : Codec} {a : Args}

theorem Code.view (code : Code toUcs4 Character encoded) (blank : toUcs4 [] = .error .needdata) {view : List UInt8}
    (characters : ∀ x ∈ xs, Character x) (text : view ++ rest = xs.flatMap encoded) :
    toUcs4 view = .error .needdata ∨
      ∃ x later, xs = x :: later ∧ toUcs4 view = .ok (x, (encoded x).length) ∧
        (encoded x).length ≤ view.length ∧ view.drop (encoded x).length ++ rest = later.flatMap encoded := by
  rcases xs with _ | ⟨x, later⟩
  · obtain ⟨rfl, -⟩ := List.append_eq_nil_iff.mp text
    exact .inl blank
  · have character := (forall_mem_cons.mp characters).1
    rw [flatMap_cons] at text
    by_cases short : view.length < (encoded x).length
    · left
      refine code.part character ?_ short
      exact List.prefix_of_prefix_length_le ⟨rest, text⟩ (prefix_append _ _) short.le
    · obtain ⟨more, rfl⟩ := List.prefix_of_prefix_length_le (prefix_append _ _) ⟨rest, text⟩ (Nat.le_of_not_lt short)
      rw [append_assoc, List.append_cancel_left_eq] at text
      refine .inr ⟨x, later, rfl, code.whole character more, Nat.le_of_not_lt short, ?_⟩
      rw [List.drop_left, text]

variable (toUcs4 Character encoded) in
/-- In the middle of a text whose characters `xs` have not come out yet: the next ones may wait in `readBuf`, the bytes
of the others are the start of a sequence in `inval`, the source and what comes after it. -/
structure Midway (c : Codec) (source rest : List UInt8) (xs : List UInt32) : Prop where
  waiting : toUcs4 c.inval = .error .needdata
  single : c.readBuf.length ≤ 1
  characters : ∀ x ∈ xs, Character x
  text : ∃ ys, xs = c.readBuf ++ ys ∧ c.inval ++ (source ++ rest) = ys.flatMap encoded

variable (toUcs4 Character encoded) in
/-- How a part of a call ends that began with the characters `xs` still to come. -/
def Delivers (c : Codec) (a : Args) (rest : List UInt8) (xs : List UInt32) (e : Error) (c' : Codec) (a' : Args) :
    Prop :=
  ∃ out ys, xs = out ++ ys ∧ a'.dest = a.dest ++ out ∧ Midway toUcs4 Character encoded c' a'.source rest ys ∧
    (e = .ok ∧ c'.readBuf = [] ∧ weight c' a'.source ≤ weight c a.source ∨
      e = .nomem ∧ weight c' a'.source < weight c a.source)

theorem Midway.bytes (midway : Midway toUcs4 Character encoded c source rest xs) (empty : c.readBuf = []) :
    c.inval ++ (source ++ rest) = xs.flatMap encoded := by
  obtain ⟨ys, rfl, text⟩ := midway.text
  rw [empty, nil_append]
  exact text

theorem Midway.wait (midway : Midway toUcs4 Character encoded c source rest xs)
    (waiting : toUcs4 (c.inval ++ source) = .error .needdata) :
    Midway toUcs4 Character encoded { c with inval := c.inval ++ source } [] rest xs where
  waiting := waiting
  single := midway.single
  characters := midway.characters
  text := by
    obtain ⟨ys, split, text⟩ := midway.text
    refine ⟨ys, split, ?_⟩
    rw [nil_append, append_assoc]
    exact text

theorem output_delivers (blank : toUcs4 [] = .error .needdata) {source' : List UInt8} {x : UInt32}
    {later : List UInt32} (characters : ∀ y ∈ x :: later, Character y)
    (text : source' ++ rest = later.flatMap encoded) (shorter : source'.length < c.inval.length + a.source.length) :
    ∃ e c' a', outputDecodedChar { c with inval := [], readBuf := [] } x { a with source := source' } = (e, c', a') ∧
      Delivers toUcs4 Character encoded c a rest (x :: later) e c' a' ∧ a'.source = source' ∧ c'.inval = [] := by
  rcases outputDecodedChar_cases { c with inval := [], readBuf := [] } x { a with source := source' } with
    ⟨-, output⟩ | ⟨-, output⟩
  · refine ⟨_, _, _, output, ⟨[], x :: later, rfl, (append_nil _).symm, ?_, ?_⟩, rfl, rfl⟩
    · exact ⟨blank, Nat.le_refl 1, characters, later, rfl, text⟩
    · refine .inr ⟨rfl, ?_⟩
      simp only [weight, length_nil, List.length_singleton]
      omega
  · refine ⟨_, _, _, output, ⟨[x], later, rfl, rfl, ?_, .inl ⟨rfl, rfl, ?_⟩⟩, rfl, rfl⟩
    · exact ⟨blank, Nat.zero_le 1, (forall_mem_cons.mp characters).2, later, rfl, text⟩
    · simp only [weight, length_nil]
      omega

section Codec

variable (reads : Reads toUcs4 readChar) (code : Code toUcs4 Character encoded)
include reads code

variable {rest : List UInt8} {c : Codec} {a : Args} {xs : List UInt32}

theorem readChar_delivers (midway : Midway toUcs4 Character encoded c a.source rest xs) (empty : c.readBuf = [])
    (settled : c.inval = []) (more : a.source ≠ []) :
    ∃ e c' a', readChar c a = some (e, c', a') ∧ Delivers toUcs4 Character encoded c a rest xs e c' a' ∧
      a'.source.length < a.source.length ∧ (a'.source = [] ∨ c'.inval = []) := by
  have length := List.length_pos_iff.mpr more
  have text := midway.bytes empty
  rw [settled, nil_append] at text
  rcases code.view reads.blank midway.characters text with waits | ⟨x, later, rfl, read, within, left⟩
  · have next := midway.wait (by rw [settled]; exact waits)
    rw [settled] at next
    refine ⟨_, _, _, reads.wait waits, ⟨[], xs, rfl, (append_nil _).symm, next, .inl ⟨rfl, empty, ?_⟩⟩,
      length, .inl rfl⟩
    simp [weight, settled]
  · have positive := code.positive (forall_mem_cons.mp midway.characters).1
    have shorter : (a.source.drop (encoded x).length).length < a.source.length := by
      rw [length_drop]
      omega
    obtain ⟨e, c', a', output, delivers, source, cleared⟩ :=
      output_delivers (c := c) (a := a) reads.blank midway.characters left (by omega)
    refine ⟨e, c', a', ?_, delivers, by rw [source]; exact shorter, .inr cleared⟩
    rw [reads.take read, deliver, ← output, ← empty]

theorem resolve_delivers (midway : Midway toUcs4 Character encoded c a.source rest xs) (empty : c.readBuf = []) :
    ∃ e c' a', resolve readChar c a = some (e, c', a') ∧ Delivers toUcs4 Character encoded c a rest xs e c' a' ∧
      (a'.source = [] ∨ c'.inval = []) := by
  unfold resolve
  by_cases settled : c.inval = []
  · exact ⟨_, _, _, if_pos settled,
      ⟨[], xs, rfl, (append_nil _).symm, midway, .inl ⟨rfl, empty, Nat.le_refl _⟩⟩, .inr settled⟩
  · rw [if_neg settled]
    have short := reads.brief midway.waiting
    have pending := List.length_pos_iff.mpr settled
    simp only
    generalize shown : min (invalBufsize - c.inval.length - 1) a.source.length = l
    rw [invalBufsize] at shown
    have bounded : l ≤ a.source.length := by omega
    have viewLength : (c.inval ++ a.source.take l).length = c.inval.length + l := by
      rw [length_append, List.length_take, Nat.min_eq_left bounded]
    have text : (c.inval ++ a.source.take l) ++ (a.source.drop l ++ rest) = xs.flatMap encoded := by
      rw [← midway.bytes empty, append_assoc, ← append_assoc (a.source.take l), List.take_append_drop]
    rcases code.view reads.blank midway.characters text with waits | ⟨x, later, rfl, read, within, left⟩
    · have all : l = a.source.length := by
        have brief := reads.brief waits
        omega
      rw [all, List.take_length] at waits ⊢
      rw [reads.wait (a := { a with source := c.inval ++ a.source }) waits]
      refine ⟨.ok, { c with inval := c.inval ++ a.source }, { a with source := [] }, ?_,
        ⟨[], xs, rfl, (append_nil _).symm, midway.wait waits, .inl ⟨rfl, empty, ?_⟩⟩, .inl rfl⟩
      · simp only [ne_eq, not_true_eq_false, false_and, if_false, length_nil, Nat.sub_zero, List.drop_length]
        exact if_neg (by omega)
      · simp [weight]
    · rw [viewLength] at within
      have character := (forall_mem_cons.mp midway.characters).1
      -- what waits is no character yet
      have beyond : c.inval.length < (encoded x).length := by
        by_contra inside
        have all := text
        rw [flatMap_cons, append_assoc] at all
        obtain ⟨more, start⟩ :=
          List.prefix_of_prefix_length_le ⟨_, all.symm⟩ (prefix_append _ _) (Nat.le_of_not_lt inside)
        have waits := midway.waiting
        rw [← start, code.whole character more] at waits
        cases waits
      have tail : a.source.drop ((encoded x).length - c.inval.length) ++ rest = later.flatMap encoded := by
        rw [List.drop_append, List.drop_of_length_le (by omega), nil_append, ← append_assoc,
          ← List.drop_append_of_le_length (by rw [List.length_take]; omega), List.take_append_drop] at left
        exact left
      obtain ⟨e, c', a', output, delivers, source, cleared⟩ :=
        output_delivers (c := c) (a := a) reads.blank midway.characters tail (by rw [length_drop]; omega)
      have read' := reads.take (c := c) (a := { a with source := c.inval ++ a.source.take l }) read
      have output' : outputDecodedChar { c with inval := [] } x
          { a with source := a.source.drop ((encoded x).length - c.inval.length) } = (e, c', a') := by
        rw [← output, ← empty]
      rw [read', deliver, outputDecodedChar_source _ _ _ (a.source.drop ((encoded x).length - c.inval.length)), output']
      have fixed : l - ((c.inval ++ a.source.take l).drop (encoded x).length).length =
          (encoded x).length - c.inval.length := by
        rw [length_drop, viewLength]
        omega
      have moved : l + c.inval.length - ((c.inval ++ a.source.take l).drop (encoded x).length).length ≠ 0 := by
        rw [length_drop, viewLength]
        omega
      have usual : ¬(e ≠ .ok ∧ e ≠ .nomem) := by
        obtain ⟨-, -, -, -, -, ⟨rfl, -⟩ | ⟨rfl, -⟩⟩ := delivers <;> decide
      refine ⟨e, c', a', ?_, delivers, .inr cleared⟩
      simp only
      rw [if_neg usual, if_neg moved, fixed, ← source]

end Codec

theorem Delivers.after {c' c'' : Codec} {a' a'' : Args} {out ys : List UInt32} {e : Error} (split : xs = out ++ ys)
    (dest : a'.dest = a.dest ++ out) (shrinks : weight c' a'.source ≤ weight c a.source)
    (delivers : Delivers toUcs4 Character encoded c' a' rest ys e c'' a'') :
    Delivers toUcs4 Character encoded c a rest xs e c'' a'' := by
  obtain ⟨out', zs, split', dest', midway, ends⟩ := delivers
  refine ⟨out ++ out', zs, by rw [split, split', append_assoc], by rw [dest', dest, append_assoc], midway,
    ?_⟩
  rcases ends with ⟨finished, empty, fewer⟩ | ⟨full, less⟩
  · exact .inl ⟨finished, empty, Nat.le_trans fewer shrinks⟩
  · exact .inr ⟨full, Nat.lt_of_lt_of_le less shrinks⟩

section Calls

variable (reads : Reads toUcs4 readChar) (code : Code toUcs4 Character encoded)
include reads code

variable {rest : List UInt8} {c : Codec} {a : Args} {xs : List UInt32} {sizes : ℕ → ℕ}

theorem readLoop_delivers (fuel : ℕ) (midway : Midway toUcs4 Character encoded c a.source rest xs)
    (empty : c.readBuf = []) (settled : a.source = [] ∨ c.inval = []) (enough : a.source.length ≤ fuel) :
    ∃ e c' a', readLoop readChar fuel c a = some (e, c', a') ∧
      Delivers toUcs4 Character encoded c a rest xs e c' a' ∧ (e = .ok → a'.source = []) := by
  induction fuel generalizing c a xs with
  | zero =>
    have done : a.source = [] := List.length_eq_zero_iff.mp (Nat.le_zero.mp enough)
    exact ⟨.ok, c, a, by rw [readLoop, if_pos done],
      ⟨[], xs, rfl, (append_nil _).symm, midway, .inl ⟨rfl, empty, Nat.le_refl _⟩⟩, fun _ => done⟩
  | succ fuel ih =>
    by_cases done : a.source = []
    · exact ⟨.ok, c, a, by rw [readLoop, if_pos done],
        ⟨[], xs, rfl, (append_nil _).symm, midway, .inl ⟨rfl, empty, Nat.le_refl _⟩⟩, fun _ => done⟩
    · obtain ⟨e, c', a', read, delivers, shorter, settled'⟩ :=
        readChar_delivers reads code midway empty (settled.resolve_left done) done
      rw [readLoop, if_neg done, read]
      simp only
      obtain ⟨out, ys, split, dest, midway', ⟨rfl, empty', fewer⟩ | ⟨rfl, less⟩⟩ := delivers
      · obtain ⟨e, c'', a'', looped, delivers', finished⟩ := ih midway' empty' settled' (by omega)
        exact ⟨e, c'', a'', looped, delivers'.after split dest fewer, finished⟩
      · exact ⟨_, _, _, rfl, ⟨out, ys, split, dest, midway', .inr ⟨rfl, less⟩⟩, fun same => by cases same⟩

theorem decode_delivers (midway : Midway toUcs4 Character encoded c a.source rest xs) (room : 4 ≤ a.destlen) :
    ∃ e c' a', decode readChar c a = some (e, c', a') ∧ Delivers toUcs4 Character encoded c a rest xs e c' a' ∧
      (e = .ok → a'.source = []) := by
  have flushed : ∃ a₁ out ys, flush c.readBuf a = ([], a₁) ∧ xs = out ++ ys ∧ a₁.dest = a.dest ++ out ∧
      a₁.source = a.source ∧ Midway toUcs4 Character encoded { c with readBuf := [] } a.source rest ys := by
    obtain ⟨ys, split, text⟩ := midway.text
    have characters := midway.characters
    have waiting := midway.waiting
    rcases waits : c.readBuf with _ | ⟨x, others⟩
    · refine ⟨a, [], xs, rfl, rfl, (append_nil _).symm, rfl, waiting, Nat.zero_le 1, characters, ys, ?_, text⟩
      rw [split, waits]
    · have none : others = [] := by
        have single := midway.single
        rw [waits, length_cons] at single
        exact List.length_eq_zero_iff.mp (by omega)
      subst none
      rw [waits] at split
      refine ⟨{ a with dest := a.dest ++ [x], destlen := a.destlen - 4 }, [x], ys, ?_, split, rfl, rfl,
        waiting, Nat.zero_le 1, ?_, ys, rfl, text⟩
      · simp [flush, room]
      · intro y member
        exact characters y (by rw [split]; exact List.mem_append_right _ member)
  obtain ⟨a₁, out, ys, flushed, split, dest, source, midway₁⟩ := flushed
  have lighter : weight { c with readBuf := [] } a₁.source ≤ weight c a.source := by
    rw [source]
    simp only [weight, length_nil]
    omega
  rw [← source] at midway₁
  obtain ⟨e, c₂, a₂, resolved, delivers, settled⟩ := resolve_delivers reads code midway₁ rfl
  unfold decode
  rw [flushed]
  simp only [length_nil, Nat.zero_mul, Nat.not_lt_zero, if_false]
  rw [resolved]
  simp only
  have delivers := delivers.after split dest lighter
  obtain ⟨out', zs, split', dest', midway₂, ⟨rfl, empty, fewer⟩ | ⟨rfl, less⟩⟩ := delivers
  · obtain ⟨e, c₃, a₃, looped, delivers', finished⟩ :=
      readLoop_delivers reads code a₂.source.length midway₂ empty settled (Nat.le_refl _)
    refine ⟨e, c₃, a₃, ?_, delivers'.after split' dest' fewer, finished⟩
    rw [if_neg (fun not => not rfl), looped]
  · exact ⟨_, _, _, if_pos (by decide), ⟨out', zs, split', dest', midway₂, .inr ⟨rfl, less⟩⟩,
      fun same => by cases same⟩

theorem decodeChunk_delivers (room : ∀ i, 4 ≤ sizes i) (fuel : ℕ) {source : List UInt8} (call : ℕ)
    (midway : Midway toUcs4 Character encoded c source rest xs) (enough : weight c source < fuel) :
    ∃ c' out call' ys, decodeChunk readChar sizes fuel c source call = some (c', out, call') ∧ xs = out ++ ys ∧
      c'.readBuf = [] ∧ Midway toUcs4 Character encoded c' [] rest ys := by
  induction fuel generalizing c source xs call with
  | zero => omega
  | succ fuel ih =>
    obtain ⟨e, c', a', decoded, delivers, finished⟩ :=
      decode_delivers reads code (a := ⟨source, [], sizes call⟩) midway (room call)
    rw [decodeChunk, decoded]
    obtain ⟨out, ys, split, dest, midway', ⟨rfl, empty, -⟩ | ⟨rfl, less⟩⟩ := delivers
    · rw [finished rfl] at midway'
      exact ⟨c', a'.dest, call + 1, ys, rfl, by rw [split, dest, nil_append], empty, midway'⟩
    · obtain ⟨c'', out', call', zs, repeated, split', empty, midway''⟩ :=
        ih (call + 1) midway' (Nat.lt_of_lt_of_le less (Nat.le_of_lt_succ enough))
      simp only [repeated]
      refine ⟨c'', a'.dest ++ out', call', zs, rfl, ?_, empty, midway''⟩
      rw [split, split', dest, nil_append, append_assoc]

theorem decodeChunks_encoded (room : ∀ i, 4 ≤ sizes i) (chunks : List (List UInt8)) (call : ℕ)
    (empty : c.readBuf = []) (midway : Midway toUcs4 Character encoded c [] chunks.flatten xs) :
    decodeChunks readChar sizes c chunks call = some xs := by
  induction chunks generalizing c xs call with
  | nil =>
    have text := midway.bytes empty
    rw [List.flatten_nil, nil_append, append_nil] at text
    rcases xs with _ | ⟨x, later⟩
    · rfl
    · have read := code.whole (forall_mem_cons.mp midway.characters).1 (later.flatMap encoded)
      have waiting := midway.waiting
      rw [text, flatMap_cons, read] at waiting
      cases waiting
  | cons chunk later ih =>
    have open' : Midway toUcs4 Character encoded c chunk later.flatten xs := by
      obtain ⟨waiting, single, characters, text⟩ := midway
      exact ⟨waiting, single, characters, text⟩
    obtain ⟨c', out, call', ys, decoded, split, empty', midway'⟩ :=
      decodeChunk_delivers reads code room (weight c chunk + 1) call open' (Nat.lt_succ_self _)
    rw [decodeChunks, decoded]
    simp only [ih call' empty' midway', split]

end Calls

end Decoding

end Besra.CharsetCodec
