import Besra.Utf8

/-!
What the HTML tokeniser (libhubbub, tokeniser.c) sees of its input stream.  The stream holds the document in UTF-8, and
a state looks at the character that stands some bytes behind the cursor.
-/

namespace Besra.TokeniserInput

open Utf8 (numContinuations)

/-- A character of the stream: its first byte and as many as that announces. -/
structure Character where
  lead : UInt8
  later : List UInt8
  whole : later.length = numContinuations lead
  deriving DecidableEq

def Character.bytes (c : Character) : List UInt8 := c.lead :: c.later

def bytes (s : List Character) : List UInt8 := s.flatMap Character.bytes

def nul : Character := ⟨0x00, [], rfl⟩
def lf : Character := ⟨0x0A, [], rfl⟩
def cr : Character := ⟨0x0D, [], rfl⟩
def greater : Character := ⟨0x3E, [], rfl⟩
def bracket : Character := ⟨0x5D, [], rfl⟩

/-- U+FFFD, `u_fffd_str`. -/
def replacement : Character := ⟨0xEF, [0xBF, 0xBD], rfl⟩

/-- `parserutils_inputstream_peek`: the first byte of the character and its length, nothing at the end of the input. -/
def peek (input : List UInt8) (offset : ℕ) : Option (UInt8 × ℕ) :=
  input[offset]?.map fun c => (c, numContinuations c + 1)

@[simp] theorem bytes_nil : bytes [] = [] := rfl

@[simp] theorem bytes_append (s t : List Character) : bytes (s ++ t) = bytes s ++ bytes t := List.flatMap_append

theorem bytes_cons (c : Character) (s : List Character) : bytes (c :: s) = c.lead :: (c.later ++ bytes s) := rfl

theorem bytes_eq_nil {s : List Character} : bytes s = [] ↔ s = [] := by
  cases s with
  | nil => simp
  | cons c s => simp [bytes_cons]

theorem length_le_bytes (s : List Character) : s.length ≤ (bytes s).length := by
  induction s with
  | nil => simp
  | cons c s ih =>
    rw [bytes_cons, List.length_cons, List.length_cons, List.length_append]
    omega

theorem lead_eq_iff {c d : Character} (single : d.later = []) : c.lead = d.lead ↔ c = d := by
  constructor
  · intro same
    have short : c.later = [] := by
      rw [← List.length_eq_zero_iff, c.whole, same, ← d.whole, single, List.length_nil]
    cases c
    cases d
    simp_all
  · intro same
    rw [same]

theorem later_length (c : Character) : c.bytes.length = numContinuations c.lead + 1 := by
  rw [Character.bytes, List.length_cons, c.whole]

theorem bytes_singleton (c : Character) : bytes [c] = c.bytes := by simp [bytes]

theorem peek_append (a : List UInt8) (c : Character) (s : List Character) :
    peek (a ++ bytes (c :: s)) a.length = some (c.lead, c.bytes.length) := by
  simp [peek, bytes_cons, later_length]

theorem drop_character (c : Character) (s : List Character) : (bytes (c :: s)).drop c.bytes.length = bytes s := by
  rw [bytes_cons, Character.bytes, List.length_cons, List.drop_succ_cons, List.drop_left]

end Besra.TokeniserInput
