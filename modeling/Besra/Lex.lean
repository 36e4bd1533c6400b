import Besra.Cursor
import Besra.Lwc
import Mathlib.Data.List.DropRight

/-!
Tokens of the CSS lexer as the property and media query parsers read them, with
the two helpers of `parse/language.h`.
-/
namespace Besra.Lex
open Lwc Cursor

/-- `css_token_type`, without the marker CSS_TOKEN_LAST_INTERN. -/
inductive TokenType where
  | ident
  | atkeyword
  | hash
  | function
  | string
  | invalidString
  | uri
  | unicodeRange
  | char
  | number
  | percentage
  | dimension
  | cdo
  | cdc
  | s
  | comment
  | includes
  | dashmatch
  | prefixmatch
  | suffixmatch
  | substringmatch
  | eof
deriving DecidableEq

/-- The types above CSS_TOKEN_LAST_INTERN: their tokens carry an interned string, the others
a NULL pointer. -/
def TokenType.interned : TokenType → Bool
  | .cdo | .cdc | .s | .comment | .includes | .dashmatch | .prefixmatch | .suffixmatch
  | .substringmatch | .eof => false
  | _ => true

/-- `css_token`, with `idata` only where the type is an interned one. -/
structure Token where
  type : TokenType
  idata : LwcString := []
deriving DecidableEq

/-- `tokenIsChar` of a token that is there. -/
def isChar (t : Token) (c : UInt8) : Bool :=
  t.type == .char &&
    match t.idata with
    | [d] => dolower d == c
    | _ => false

/-- `tokenIsChar`, false of a NULL token. -/
def tokenIsChar (t : Option Token) (c : UInt8) : Bool := t.any (isChar · c)

def isSpace (t : Token) : Bool := t.type == .s

def isKeyword (t : Token) (word : LwcString) : Bool := t.type == .ident && caselessIsEqual t.idata word

def consumeWhitespace {ε : Type} : Parser Token ε Unit := Parser.skip isSpace

def Blank (w : List Token) : Prop := ∀ t ∈ w, isSpace t = true

/-- The tokens after the white space in front. -/
def trim (ts : List Token) : List Token := ts.dropWhile isSpace

@[simp] theorem bind_consumeWhitespace {ε β : Type} (f : Unit → Parser Token ε β) (ts : List Token) :
    (consumeWhitespace >>= f).run ts = (f ()).run (trim ts) := rfl

theorem blank_nil : Blank [] := by
  intro t member
  cases member

@[simp] theorem trim_nil : trim [] = [] := rfl

theorem trim_suffix (ts : List Token) : trim ts <:+ ts := List.dropWhile_suffix isSpace

variable {w ts : List Token} {t : Token} {c d : UInt8}

theorem trim_append (blank : Blank w) (ts : List Token) : trim (w ++ ts) = trim ts := by
  induction w with
  | nil => rfl
  | cons t w ih =>
    have space : isSpace t = true := blank t (by simp)
    have rest : Blank w := fun u member => blank u (by simp [member])
    simpa [trim, space] using ih rest

theorem trim_blank (blank : Blank w) : trim w = [] := by
  simpa using trim_append blank []

@[simp] theorem trim_cons_of_not_space (solid : isSpace t = false) (ts : List Token) : trim (t :: ts) = t :: ts := by
  simp [trim, solid]

theorem blank_of_trim (none : trim ts = []) : Blank ts := by
  intro t member
  exact List.dropWhile_eq_nil_iff.mp none t member

theorem trim_append_of_cons {tail : List Token} (trimmed : trim ts = t :: tail) (more : List Token) :
    trim (ts ++ more) = t :: (tail ++ more) := by
  unfold trim at trimmed ⊢
  rw [List.dropWhile_append, trimmed]
  simp

theorem blank_split (ts : List Token) : ∃ w, Blank w ∧ ts = w ++ trim ts := by
  refine ⟨ts.takeWhile isSpace, ?_, (List.takeWhile_append_dropWhile ..).symm⟩
  intro t member
  exact List.mem_takeWhile_imp member

@[simp] theorem trim_trim (ts : List Token) : trim (trim ts) = trim ts := by
  simp [trim, List.dropWhile_idempotent]

theorem isSpace_of_isChar (char : isChar t c = true) : isSpace t = false := by
  simp only [isChar, Bool.and_eq_true, beq_iff_eq] at char
  simp [isSpace, char.1]

theorem isChar_type (type : t.type ≠ .char) : isChar t c = false := by
  simp [isChar, type]

theorem isChar_unique (is : isChar t c = true) (is' : isChar t d = true) : c = d := by
  simp only [isChar, Bool.and_eq_true] at is is'
  rcases text : t.idata with _ | ⟨b, _ | ⟨b', rest⟩⟩
  · simp [text] at is
  · simp only [text, beq_iff_eq] at is is'
    rw [← is.2, is'.2]
  · simp [text] at is

theorem isChar_other (is : isChar t c = true) (different : c ≠ d) : isChar t d = false :=
  Bool.eq_false_iff.mpr fun is' => different (isChar_unique is is')

theorem isSpace_of_isKeyword {word : LwcString} (keyword : isKeyword t word = true) : isSpace t = false := by
  simp only [isKeyword, Bool.and_eq_true, beq_iff_eq] at keyword
  simp [isSpace, keyword.1]

theorem trim_head {rest : List Token} (trimmed : trim ts = t :: rest) : isSpace t = false := by
  have := List.head?_dropWhile_not isSpace ts
  rw [show ts.dropWhile isSpace = t :: rest from trimmed] at this
  simpa using this

/-- The tokens that are not white space. -/
def solid (ts : List Token) : List Token := ts.filter fun t => !isSpace t

theorem solid_cons (rest : List Token) (ink : isSpace t = false) : solid (t :: rest) = t :: solid rest := by
  simp [solid, ink]

theorem solid_trim (ts : List Token) : solid (trim ts) = solid ts := by
  obtain ⟨w, blank, parts⟩ := blank_split ts
  have none : solid w = [] := by
    rw [solid, List.filter_eq_nil_iff]
    intro t member
    simp [blank t member]
  conv_rhs => rw [parts]
  rw [solid, solid, List.filter_append]
  change _ = solid w ++ _
  rw [none, List.nil_append]

theorem solid_eq_nil : solid ts = [] ↔ trim ts = [] := by
  rw [← solid_trim]
  rcases trimmed : trim ts with _ | ⟨t, rest⟩
  · exact iff_of_true rfl rfl
  · rw [solid_cons rest (trim_head trimmed)]
    simp

theorem trim_of_solid {us : List Token} (parts : solid ts = t :: us) :
    ∃ rest, trim ts = t :: rest ∧ solid rest = us := by
  rw [← solid_trim] at parts
  rcases trimmed : trim ts with _ | ⟨d, rest⟩
  · rw [trimmed] at parts
    cases parts
  · rw [trimmed, solid_cons rest (trim_head trimmed)] at parts
    obtain ⟨rfl, rfl⟩ := List.cons.inj parts
    exact ⟨rest, rfl, rfl⟩

end Besra.Lex
