import Besra.Lex
import Besra.NumberText
import Besra.Selector

/-!
The arguments of `:nth-child()` and its kin: `parseNth` of `libcss/src/parse/language.c` over the tokens that are
left, and `match_nth`. The expressions an+b are given on tokens too, since the lexer cuts them up in many ways.
-/
namespace Besra.Nth
open Lwc Cursor Besra.Lex FixedPoint NumberText List
open Number (isDigit)
open Selector (matchNth)

/-! ### The parser -/

/-- `value->nth` -/
structure NthValue where
  a : Int
  b : Int
deriving DecidableEq

/-- How the parsers of selectors fail: with CSS_INVALID, or with a bound on their rounds that was too small. -/
inductive Err where
  | invalid
  | fuel
deriving DecidableEq

abbrev SelParser (α : Type) := Parser Token Err α

def invalid {α : Type} : SelParser α := Parser.fail .invalid

def fixToInt (n : Int) : Int := n / 1024

def intToFix (n : Int) : Int := n * 1024

/-- `css__number_from_string` for integers: the number, and the count of bytes read, which stays what it was for an
empty string. -/
def readInteger (data : LwcString) (consumed : Nat) : Int × Nat :=
  if data = [] then (0, consumed)
  else
    let (n, rest) := Number.numberFromString data true
    (n, data.length - rest.length)

/-- `n` in either letter case. -/
def isN (c : UInt8) : Bool := c == ch 'n' || c == ch 'N'

def isSign (c : UInt8) : Bool := c == ch '-' || c == ch '+'

/-- What the token with the `n` has given: `b` where it has been read, and the count of bytes left by the last
reading of a number. -/
structure Lead where
  a : Int
  sign : Int := 1
  hadSign : Bool := false
  b : Option Int := none
  consumed : Nat
deriving DecidableEq

/-- The bytes after the `n` of a token: none, a `-`, or a `-` and digits. -/
def afterN (a : Int) (data : List UInt8) (consumed : Nat) : Option Lead :=
  match data with
  | [] => some { a := a, consumed := consumed }
  | c :: data =>
    if c ≠ ch '-' then none
    else
      match data with
      | [] => some { a := a, sign := -1, hadSign := true, consumed := consumed }
      | d :: rest =>
        if isSign d then none
        else
          let (b, consumed) := readInteger (d :: rest) consumed
          if consumed ≠ (d :: rest).length then none
          else some { a := a, sign := -1, hadSign := true, b := some b, consumed := consumed }

/-- The token with the `n` when it is an IDENT. A longer one than `n` itself must begin with `-n`. -/
def identLead : LwcString → Option Lead
  | [] => none
  | [c] => if isN c then afterN (intToFix 1) [] 0 else none
  | c :: d :: data => if c ≠ ch '-' || !isN d then none else afterN (intToFix (-1)) data 0

/-- The token with the `n` when it is a DIMENSION. Unless `b` is read, the count ends at the token's end. -/
def dimensionLead (data : LwcString) : Option Lead :=
  let (a, consumed) := readInteger data 0
  match data.drop consumed with
  | [] => none
  | c :: rest => if consumed = 0 || !isN c then none else afterN a rest data.length

def stored (a b sign : Int) : NthValue := ⟨fixToInt a, fixToInt b * sign⟩

/-- The NUMBER after the `n`, if there is one. -/
def parseNumber (lead : Lead) (hadSign : Bool) (sign : Int) : SelParser NthValue := do
  match ← Parser.peek with
  | none => pure (stored lead.a 0 sign)
  | some token =>
    if token.type = .number then do
      let _ ← Parser.iterate
      if hadSign && token.idata.head?.any isSign then invalid
      else
        let (b, consumed) := readInteger token.idata lead.consumed
        if consumed ≠ token.idata.length then invalid else pure (stored lead.a b sign)
    else pure (stored lead.a 0 sign)

/-- What follows the token with the `n`: `[ [ CHAR ws ]? NUMBER ws ]?`, but for the last white space. -/
def parseB (lead : Lead) : SelParser NthValue :=
  match lead.b with
  | some b => pure (stored lead.a b lead.sign)
  | none => do
    consumeWhitespace
    let token ← Parser.peek
    if !lead.hadSign && (tokenIsChar token (ch '-') || tokenIsChar token (ch '+')) then do
      let _ ← Parser.iterate
      consumeWhitespace
      parseNumber lead true (if tokenIsChar token (ch '-') then -1 else lead.sign)
    else parseNumber lead lead.hadSign lead.sign

/-- The token with the `n`, and all that follows. -/
def parseLead (lead : Option Lead) : SelParser NthValue :=
  match lead with
  | none => invalid
  | some lead => parseB lead

/-- `parseNth`, up to the last white space. -/
def parseExpression (token : Token) : SelParser NthValue :=
  if token.type = .ident then
    if caselessIsEqual token.idata (lit "odd") then pure ⟨2, 1⟩
    else if caselessIsEqual token.idata (lit "even") then pure ⟨2, 0⟩
    else parseLead (identLead token.idata)
  else if token.type = .number then
    let (val, consumed) := readInteger token.idata 0
    if consumed ≠ token.idata.length then invalid else pure ⟨0, fixToInt val⟩
  else if token.type = .dimension then parseLead (dimensionLead token.idata)
  else invalid

def parseNth : SelParser NthValue := do
  match ← Parser.iterate with
  | none => invalid
  | some token =>
    let value ← parseExpression token
    consumeWhitespace
    pure value

/-! ### Numbers in the text -/

def Integer (text : LwcString) (n : Int) : Prop :=
  ∃ sign f ds, Sign sign f ∧ Digits ds ∧ ds ≠ [] ∧ text = sign ++ ds ∧ n = f * decimal 0 ds

def Signless (text : LwcString) (n : Int) : Prop := Digits text ∧ text ≠ [] ∧ n = decimal 0 text

def Signed (text : LwcString) (n : Int) : Prop :=
  ∃ sign f ds, Sign sign f ∧ sign ≠ [] ∧ Digits ds ∧ ds ≠ [] ∧ text = sign ++ ds ∧ n = f * decimal 0 ds

theorem Signless.integer {text : LwcString} {n : Int} (signless : Signless text n) : Integer text n := by
  obtain ⟨digits, nonempty, rfl⟩ := signless
  exact ⟨[], 1, text, .none, digits, nonempty, rfl, (one_mul _).symm⟩

theorem Signed.integer {text : LwcString} {n : Int} (signed : Signed text n) : Integer text n := by
  obtain ⟨sign, f, ds, head, -, rest⟩ := signed
  exact ⟨sign, f, ds, head, rest⟩

variable {text data tail : LwcString} {n a b : Int} {c : UInt8} {consumed k : Nat} {lead : Lead} {ts us : List Token}
  {v : NthValue} {t : Token}

theorem Integer.signed_or_signless (integer : Integer text n) : Signed text n ∨ Signless text n := by
  obtain ⟨sign, f, ds, head, digits, nonempty, rfl, rfl⟩ := integer
  cases head with
  | none => exact .inr ⟨digits, nonempty, one_mul _⟩
  | plus => exact .inl ⟨_, _, ds, .plus, by simp, digits, nonempty, rfl, rfl⟩
  | minus => exact .inl ⟨_, _, ds, .minus, by simp, digits, nonempty, rfl, rfl⟩

theorem Integer.ne_nil (integer : Integer text n) : text ≠ [] := by
  obtain ⟨sign, f, ds, -, -, nonempty, rfl, -⟩ := integer
  simp [nonempty]

theorem readInteger_eq (consumed : Nat) (nonempty : data ≠ []) {negative : Bool} {ptr : List UInt8}
    (split : splitSign data = (negative, ptr)) :
    readInteger data consumed =
      if starts ptr then
        (clamp (factor negative * (1024 * decimal 0 (ptr.takeWhile isDigit))),
          data.length - (ptr.dropWhile isDigit).length)
      else (0, 0) := by
  rw [readInteger, if_neg nonempty, number_eq_unchecked true split]
  by_cases started : starts ptr = true
  · obtain ⟨value, -, stored, same⟩ := numberFromString_whole true consumed nonempty split started rfl
    simp [started, same, stored]
  · simp [started]

def Stops (rest : List UInt8) : Prop := ∀ c, rest.head? = some c → isDigit c = false

theorem takeWhile_digits {ds rest : List UInt8} (digits : Digits ds) (stops : Stops rest) :
    (ds ++ rest).takeWhile isDigit = ds ∧ (ds ++ rest).dropWhile isDigit = rest := by
  rw [takeWhile_append_of_pos digits, dropWhile_append_of_pos digits]
  cases rest with
  | nil => simp
  | cons c rest => simp [stops c rfl]

theorem readInteger_integer {rest : LwcString} (integer : Integer text n) (stops : Stops rest) (consumed : Nat) :
    readInteger (text ++ rest) consumed = (clamp (1024 * n), text.length) := by
  obtain ⟨sign, f, ds, head, digits, nonempty, rfl, rfl⟩ := integer
  obtain ⟨taken, dropped⟩ := takeWhile_digits digits stops
  obtain ⟨c, ds, rfl⟩ := exists_cons_of_ne_nil nonempty
  have isdigit := digits c mem_cons_self
  obtain ⟨negative, split, same⟩ : ∃ negative, splitSign (sign ++ (c :: ds ++ rest)) = (negative, c :: ds ++ rest) ∧
      factor negative = f := by
    obtain ⟨-, other, other'⟩ := isDigit_ne isdigit
    cases head with
    | none => exact ⟨false, by simp [splitSign, other, other'], rfl⟩
    | plus => exact ⟨false, by simp [splitSign, show ch '+' ≠ ch '-' by decide], rfl⟩
    | minus => exact ⟨true, by simp [splitSign], rfl⟩
  rw [append_assoc, readInteger_eq consumed (by simp) split, cons_append,
    if_pos (starts_of_digit isdigit), ← cons_append, taken, dropped, same]
  simp only [length_append, length_cons]
  rw [Int.mul_left_comm]
  congr 1
  omega

theorem integer_of_readInteger (consumed : Nat) (nonempty : data ≠ []) (reads : (readInteger data consumed).2 ≠ 0)
    (pointless : (data.drop (readInteger data consumed).2).head? ≠ some (ch '.')) :
    ∃ text rest n, data = text ++ rest ∧ Integer text n ∧ Stops rest := by
  rcases split : splitSign data with ⟨negative, ptr⟩
  obtain ⟨sign, parts, head⟩ := splitSign_append data
  rw [split] at parts head
  rw [readInteger_eq consumed nonempty split] at reads pointless
  by_cases started : starts ptr = true
  · simp only [started, if_true] at pointless
    by_cases none : ptr.takeWhile isDigit = []
    · obtain ⟨whole, d, rest, -, shape⟩ := pointed_of_no_digits started none
      rw [whole, parts, length_append, Nat.add_sub_cancel, drop_left, shape] at pointless
      exact absurd rfl pointless
    · refine ⟨sign ++ ptr.takeWhile isDigit, ptr.dropWhile isDigit, _, ?_,
        ⟨sign, _, _, head, digits_takeWhile ptr, none, rfl, rfl⟩, ?_⟩
      · rw [append_assoc, takeWhile_append_dropWhile, ← parts]
      · intro c first
        have := List.head?_dropWhile_not isDigit ptr
        rw [first] at this
        simpa using this
  · simp [started] at reads

theorem readInteger_whole (consumed : Nat) (nonempty : data ≠ []) (all : (readInteger data consumed).2 = data.length) :
    ∃ n, Integer data n ∧ (readInteger data consumed).1 = clamp (1024 * n) := by
  obtain ⟨text, rest, n, rfl, integer, stops⟩ := integer_of_readInteger consumed nonempty
    (by rw [all]; exact fun none => nonempty (length_eq_zero_iff.mp none)) (by simp [all])
  have read := readInteger_integer integer stops consumed
  rw [read, length_append] at all
  obtain rfl : rest = [] := length_eq_zero_iff.mp (by simpa using all)
  rw [append_nil] at read ⊢
  exact ⟨n, integer, by rw [read]⟩

theorem stops_nil : Stops [] := by
  intro c first
  cases first

theorem readInteger_all (integer : Integer text n) (consumed : Nat) :
    readInteger text consumed = (clamp (1024 * n), text.length) := by
  simpa using readInteger_integer integer stops_nil consumed

theorem isN_not_digit (isn : isN c = true) : isDigit c = false ∧ c ≠ ch '.' ∧ c ≠ ch '-' := by
  simp only [isN, Bool.or_eq_true, beq_iff_eq] at isn
  rcases isn with rfl | rfl <;> decide

theorem isSign_not_digit (sign : isSign c = true) : isDigit c = false := by
  simp only [isSign, Bool.or_eq_true, beq_iff_eq] at sign
  rcases sign with rfl | rfl <;> decide

theorem Signless.not_sign (signless : Signless text n) : text.head?.any isSign = false := by
  obtain ⟨digits, nonempty, -⟩ := signless
  obtain ⟨c, text, rfl⟩ := exists_cons_of_ne_nil nonempty
  have isdigit := digits c mem_cons_self
  by_contra sign
  have := isSign_not_digit (by simpa using sign)
  rw [isdigit] at this
  cases this

theorem Signed.sign (signed : Signed text n) : text.head?.any isSign = true := by
  obtain ⟨sign, f, ds, head, some, -, -, rfl, -⟩ := signed
  cases head with
  | none => exact absurd rfl some
  | plus => rfl
  | minus => rfl

/-! ### Expressions -/

/-- An expression an+b, with the sign of b where that stands apart from its digits. -/
structure Spelled where
  a : Int
  negative : Bool
  b : Int
deriving DecidableEq

def Spelled.value (s : Spelled) : Int := if s.negative then -s.b else s.b

/-- The numbers are within the range of a `css_fixed`. -/
def Spelled.InRange (s : Spelled) : Prop := -2 ^ 21 ≤ s.a ∧ s.a < 2 ^ 21 ∧ -2 ^ 21 ≤ s.b ∧ s.b < 2 ^ 21

def SignToken (c : Token) (negative : Bool) : Prop :=
  isChar c (ch '-') = true ∧ negative = true ∨ isChar c (ch '+') = true ∧ negative = false

/-- The tokens up to `n` with a, and the text that the last of them has after `n`. -/
inductive NForm : List Token → Int → LwcString → Prop
  | ident {c : UInt8} {tail : LwcString} (isn : isN c = true) : NForm [⟨.ident, c :: tail⟩] 1 tail
  | plus {p : Token} {c : UInt8} {tail : LwcString} (plus : isChar p (ch '+') = true) (isn : isN c = true) :
      NForm [p, ⟨.ident, c :: tail⟩] 1 tail
  | minus {c : UInt8} {tail : LwcString} (isn : isN c = true) : NForm [⟨.ident, ch '-' :: c :: tail⟩] (-1) tail
  | dimension {int tail : LwcString} {c : UInt8} {n : Int} (integer : Integer int n) (isn : isN c = true) :
      NForm [⟨.dimension, int ++ c :: tail⟩] n tail

inductive AnB : List Token → Spelled → Prop
  | odd {word : LwcString} (odd : caselessIsEqual word (lit "odd") = true) : AnB [⟨.ident, word⟩] ⟨2, false, 1⟩
  | even {word : LwcString} (even : caselessIsEqual word (lit "even") = true) : AnB [⟨.ident, word⟩] ⟨2, false, 0⟩
  | integer {text : LwcString} {n : Int} (integer : Integer text n) : AnB [⟨.number, text⟩] ⟨0, false, n⟩
  | alone {us : List Token} {a : Int} (form : NForm us a []) : AnB us ⟨a, false, 0⟩
  | whole {us : List Token} {a n : Int} {digits : LwcString} (form : NForm us a (ch '-' :: digits))
      (signless : Signless digits n) : AnB us ⟨a, true, n⟩
  | signed {us : List Token} {a n : Int} {text : LwcString} (form : NForm us a []) (signed : Signed text n) :
      AnB (us ++ [⟨.number, text⟩]) ⟨a, false, n⟩
  | apart {us : List Token} {a n : Int} {c : Token} {negative : Bool} {text : LwcString} (form : NForm us a [])
      (sign : SignToken c negative) (signless : Signless text n) : AnB (us ++ [c, ⟨.number, text⟩]) ⟨a, negative, n⟩
  | dash {us : List Token} {a n : Int} {text : LwcString} (form : NForm us a [ch '-']) (signless : Signless text n) :
      AnB (us ++ [⟨.number, text⟩]) ⟨a, true, n⟩

def Flush (ts : List Token) : Prop := ts.head?.any isSpace = false

/-- The tokens are an expression, with white space anywhere but in front and after a leading `+`. -/
def Expression (ts : List Token) (s : Spelled) : Prop :=
  AnB (solid ts) s ∧ Flush ts ∧ (tokenIsChar ts.head? (ch '+') = true → Flush ts.tail)

/-! ### What the parser takes -/

/-- The tokens that the parser goes on from after an `n`, with a, the text behind `n` and the count of bytes. -/
inductive Opens : Token → Int → LwcString → Nat → Prop
  | n {c : UInt8} (isn : isN c = true) : Opens ⟨.ident, [c]⟩ 1 [] 0
  | minus {c : UInt8} {tail : LwcString} (isn : isN c = true) : Opens ⟨.ident, ch '-' :: c :: tail⟩ (-1) tail 0
  | dimension {int tail : LwcString} {c : UInt8} {n : Int} (integer : Integer int n) (isn : isN c = true) :
      Opens ⟨.dimension, int ++ c :: tail⟩ n tail (int ++ c :: tail).length

def Whole (text : LwcString) (consumed : Nat) (n : Int) : Prop :=
  Integer text n ∨ text = [] ∧ consumed = 0 ∧ n = 0

/-- What the parser takes, without white space. -/
inductive Reads : List Token → Spelled → Prop
  | odd {word : LwcString} (odd : caselessIsEqual word (lit "odd") = true) : Reads [⟨.ident, word⟩] ⟨2, false, 1⟩
  | even {word : LwcString} (even : caselessIsEqual word (lit "even") = true) : Reads [⟨.ident, word⟩] ⟨2, false, 0⟩
  | integer {text : LwcString} {n : Int} (whole : Whole text 0 n) : Reads [⟨.number, text⟩] ⟨0, false, n⟩
  | alone {t : Token} {a : Int} {k : Nat} (opens : Opens t a [] k) : Reads [t] ⟨a, false, 0⟩
  | whole {t : Token} {a n : Int} {k : Nat} {digits : LwcString} (opens : Opens t a (ch '-' :: digits) k)
      (signless : Signless digits n) : Reads [t] ⟨a, true, n⟩
  | number {t : Token} {a n : Int} {k : Nat} {text : LwcString} (opens : Opens t a [] k) (whole : Whole text k n) :
      Reads [t, ⟨.number, text⟩] ⟨a, false, n⟩
  | sign {t c : Token} {a : Int} {k : Nat} {negative : Bool} (opens : Opens t a [] k) (sign : SignToken c negative) :
      Reads [t, c] ⟨a, negative, 0⟩
  | apart {t c : Token} {a n : Int} {k : Nat} {negative : Bool} {text : LwcString} (opens : Opens t a [] k)
      (sign : SignToken c negative) (whole : Whole text k n) (bare : text.head?.any isSign = false) :
      Reads [t, c, ⟨.number, text⟩] ⟨a, negative, n⟩
  | dash {t : Token} {a : Int} {k : Nat} (opens : Opens t a [ch '-'] k) : Reads [t] ⟨a, true, 0⟩
  | dashed {t : Token} {a n : Int} {k : Nat} {text : LwcString} (opens : Opens t a [ch '-'] k)
      (whole : Whole text k n) (bare : text.head?.any isSign = false) : Reads [t, ⟨.number, text⟩] ⟨a, true, n⟩

def Spelled.kept (s : Spelled) : NthValue :=
  stored (clamp (1024 * s.a)) (clamp (1024 * s.b)) (if s.negative then -1 else 1)

theorem readInteger_all_iff (text : LwcString) (consumed : Nat) :
    (readInteger text consumed).2 = text.length ↔
      ∃ n, Whole text consumed n ∧ (readInteger text consumed).1 = clamp (1024 * n) := by
  constructor
  · intro all
    by_cases none : text = []
    · subst none
      exact ⟨0, .inr ⟨rfl, by simpa [readInteger] using all, rfl⟩, rfl⟩
    · obtain ⟨n, integer, value⟩ := readInteger_whole consumed none all
      exact ⟨n, .inl integer, value⟩
  · rintro ⟨n, integer | ⟨rfl, rfl, rfl⟩, -⟩
    · rw [readInteger_all integer]
    · rfl

variable {s : Spelled}

theorem Whole.read (whole : Whole text consumed n) : readInteger text consumed = (clamp (1024 * n), text.length) := by
  obtain integer | ⟨rfl, rfl, rfl⟩ := whole
  · exact readInteger_all integer consumed
  · rfl

theorem Integer.signless (integer : Integer text n) (bare : text.head?.any isSign = false) : Signless text n := by
  obtain signed | signless := integer.signed_or_signless
  · rw [signed.sign] at bare
    cases bare
  · exact signless

theorem afterN_eq_some {data : List UInt8} :
    afterN a data consumed = some lead ↔
      data = [] ∧ lead = { a := a, consumed := consumed } ∨
        data = [ch '-'] ∧ lead = { a := a, sign := -1, hadSign := true, consumed := consumed } ∨
        ∃ digits n, data = ch '-' :: digits ∧ Signless digits n ∧
          lead = { a := a, sign := -1, hadSign := true, b := some (clamp (1024 * n)), consumed := digits.length } := by
  constructor
  · intro after
    match data with
    | [] => exact .inl ⟨rfl, by simpa [afterN, eq_comm] using after⟩
    | [c] =>
      by_cases minus : c = ch '-'
      · exact .inr (.inl ⟨by rw [minus], by simpa [afterN, minus, eq_comm] using after⟩)
      · simp [afterN, minus] at after
    | c :: d :: rest =>
      by_cases minus : c = ch '-'
      · subst minus
        by_cases sign : isSign d = true
        · simp [afterN, sign] at after
        · by_cases all : (readInteger (d :: rest) consumed).2 = (d :: rest).length
          · obtain ⟨n, integer, value⟩ := readInteger_whole consumed (cons_ne_nil d rest) all
            refine .inr (.inr ⟨d :: rest, n, rfl, integer.signless (by simpa using sign), ?_⟩)
            simp only [afterN, sign, all, value, ne_eq, not_true_eq_false, if_false, Bool.false_eq_true] at after
            exact (Option.some.inj after).symm
          · simp only [afterN, sign, all, ne_eq, not_true_eq_false, not_false_eq_true, if_true, if_false,
              Bool.false_eq_true] at after
            cases after
      · simp [afterN, minus] at after
  · rintro (⟨rfl, rfl⟩ | ⟨rfl, rfl⟩ | ⟨digits, n, rfl, signless, rfl⟩)
    · rfl
    · rfl
    · have bare := signless.not_sign
      have read := readInteger_all signless.integer consumed
      obtain ⟨d, rest, rfl⟩ := exists_cons_of_ne_nil signless.2.1
      rw [List.head?_cons, Option.any_some] at bare
      simp [afterN, bare, read]

/-- What a token with an `n` gives. -/
def leadOf (token : Token) : Option Lead :=
  if token.type = .ident then identLead token.idata
  else if token.type = .dimension then dimensionLead token.idata
  else none

theorem clamp_one : clamp (1024 * 1) = intToFix 1 := by decide

theorem clamp_minus_one : clamp (1024 * -1) = intToFix (-1) := by decide

theorem identLead_eq_some :
    identLead text = some lead ↔
      ∃ a tail k, Opens ⟨.ident, text⟩ a tail k ∧ afterN (clamp (1024 * a)) tail k = some lead := by
  constructor
  · intro found
    match text with
    | [] => simp [identLead] at found
    | [c] =>
      by_cases isn : isN c = true
      · simp only [identLead, isn, if_true] at found
        exact ⟨1, [], 0, .n isn, by rwa [clamp_one]⟩
      · simp [identLead, isn] at found
    | c :: d :: data =>
      by_cases minus : c = ch '-'
      · by_cases isn : isN d = true
        · simp [identLead, minus, isn] at found
          exact ⟨-1, data, 0, by rw [minus]; exact .minus isn, by rwa [clamp_minus_one]⟩
        · simp [identLead, isn] at found
      · simp [identLead, minus] at found
  · rintro ⟨a, tail, k, opens, after⟩
    cases opens with
    | n isn =>
      rw [clamp_one] at after
      simpa [identLead, isn] using after
    | minus isn =>
      rw [clamp_minus_one] at after
      simpa [identLead, isn] using after

theorem stops_n (isn : isN c = true) : Stops (c :: tail) := by
  intro d first
  obtain rfl : c = d := by simpa using first
  exact (isN_not_digit isn).1

theorem dimensionLead_eq_some :
    dimensionLead text = some lead ↔
      ∃ a tail k, Opens ⟨.dimension, text⟩ a tail k ∧ afterN (clamp (1024 * a)) tail k = some lead := by
  constructor
  · intro found
    unfold dimensionLead at found
    rcases shape : text.drop (readInteger text 0).2 with _ | ⟨c, rest⟩
    · simp [shape] at found
    · by_cases isn : (readInteger text 0).2 ≠ 0 ∧ isN c = true
      · obtain ⟨some, isn⟩ := isn
        have nonempty : text ≠ [] := by rintro rfl; simp at shape
        obtain ⟨int, tail, n, rfl, integer, stops⟩ := integer_of_readInteger 0 nonempty some
          (by simpa [shape] using (isN_not_digit isn).2.1)
        rw [readInteger_integer integer stops, drop_left] at shape
        subst shape
        simp only [readInteger_integer integer stops, drop_left, isn] at found
        refine ⟨n, rest, _, .dimension integer isn, ?_⟩
        simpa [integer.ne_nil] using found
      · simp only [shape] at found
        split at found
        next => cases found
        next test => simp_all
  · rintro ⟨a, tail, k, opens, after⟩
    cases opens with
    | dimension integer isn =>
      simp only [dimensionLead, readInteger_integer integer (stops_n isn), drop_left, isn]
      simpa [integer.ne_nil] using after

theorem leadOf_eq_some {token : Token} :
    leadOf token = some lead ↔
      ∃ a tail k, Opens token a tail k ∧ afterN (clamp (1024 * a)) tail k = some lead := by
  obtain ⟨type, text⟩ := token
  by_cases ident : type = .ident
  · subst ident
    exact identLead_eq_some
  · by_cases dimension : type = .dimension
    · subst dimension
      exact dimensionLead_eq_some
    · have none : leadOf ⟨type, text⟩ = none := by simp [leadOf, ident, dimension]
      rw [none]
      constructor
      · intro found
        cases found
      · rintro ⟨a, tail, k, opens, -⟩
        cases opens <;> contradiction

/-! ### Runs to the end -/

/-- A parser succeeds, and only white space is left. -/
def Ends {α : Type} (p : SelParser α) (ts : List Token) (v : α) : Prop := ∃ rest, p.run ts = (.ok v, rest) ∧ solid rest = []

theorem ends_pure {α : Type} {v w : α} : Ends (pure v) ts w ↔ solid ts = [] ∧ w = v := by
  constructor
  · rintro ⟨rest, run, all⟩
    cases run
    exact ⟨all, rfl⟩
  · rintro ⟨all, rfl⟩
    exact ⟨ts, rfl, all⟩

theorem not_ends_invalid {α : Type} {v : α} : ¬ Ends invalid ts v := by
  rintro ⟨rest, run, -⟩
  cases run

theorem ends_congr {α : Type} {p : SelParser α} (q : SelParser α) (us : List Token) {v : α}
    (same : p.run ts = q.run us) : Ends p ts v ↔ Ends q us v := by
  rw [Ends, Ends, same]

theorem ends_parseNumber {hadSign : Bool} {sign : Int} (trimmed : trim ts = ts) :
    Ends (parseNumber lead hadSign sign) ts v ↔
      solid ts = [] ∧ v = stored lead.a 0 sign ∨
        ∃ text n, solid ts = [⟨.number, text⟩] ∧ Whole text lead.consumed n ∧
          (hadSign = true → text.head?.any isSign = false) ∧ v = stored lead.a (clamp (1024 * n)) sign := by
  cases ts with
  | nil =>
    have read : (parseNumber lead hadSign sign).run [] = (pure (stored lead.a 0 sign) : SelParser NthValue).run [] := rfl
    rw [ends_congr _ _ read, ends_pure]
    simp [solid]
  | cons t rest =>
    rw [solid_cons rest (trim_head trimmed)]
    by_cases number : t.type = .number
    · have read : (parseNumber lead hadSign sign).run (t :: rest) =
          (if hadSign && t.idata.head?.any isSign then invalid
          else if (readInteger t.idata lead.consumed).2 ≠ t.idata.length then invalid
          else pure (stored lead.a (readInteger t.idata lead.consumed).1 sign) : SelParser NthValue).run rest := by
        simp [parseNumber, number]
      rw [ends_congr _ _ read]
      constructor
      · intro ends
        split at ends
        next => exact absurd ends not_ends_invalid
        next bare =>
          split at ends
          next => exact absurd ends not_ends_invalid
          next all =>
            obtain ⟨none, rfl⟩ := ends_pure.mp ends
            obtain ⟨n, whole, value⟩ := (readInteger_all_iff _ _).mp (not_not.mp all)
            refine .inr ⟨t.idata, n, ?_, whole, fun had => by simpa [had] using bare, by rw [value]⟩
            rw [none, ← number]
      · rintro (⟨none, -⟩ | ⟨text, n, same, whole, bare, rfl⟩)
        · cases none
        · obtain ⟨rfl, none⟩ := List.cons.inj same
          have bare' : ¬ (hadSign && text.head?.any isSign) = true := by
            cases hadSign <;> simp_all
          rw [if_neg bare', if_neg (by simp [whole.read]), ends_pure, whole.read]
          exact ⟨none, rfl⟩
    · rw [ends_congr (pure (stored lead.a 0 sign)) (t :: rest) (by simp [parseNumber, number]), ends_pure,
        solid_cons rest (trim_head trimmed)]
      constructor
      · rintro ⟨none, -⟩
        cases none
      · rintro (⟨none, -⟩ | ⟨text, n, same, -⟩)
        · cases none
        · obtain ⟨rfl, -⟩ := List.cons.inj same
          exact absurd rfl number

theorem signToken_iff {c : Token} {negative : Bool} :
    SignToken c negative ↔
      (isChar c (ch '-') || isChar c (ch '+')) = true ∧ negative = isChar c (ch '-') := by
  have different : ch '-' ≠ ch '+' := by decide
  constructor
  · rintro (⟨minus, rfl⟩ | ⟨plus, rfl⟩)
    · simp [minus]
    · simp [plus, isChar_other plus different.symm]
  · rintro ⟨either, rfl⟩
    by_cases minus : isChar c (ch '-') = true
    · exact .inl ⟨minus, minus⟩
    · simp only [minus, Bool.false_or] at either
      exact .inr ⟨either, by simpa using minus⟩

theorem ends_parseB_sign {c : Token} {rest : List Token} (awaits : lead.b = none) (trimmed : trim ts = c :: rest)
    {negative : Bool} (sign : SignToken c negative) (first : lead.hadSign = false) :
    Ends (parseB lead) ts v ↔ Ends (parseNumber lead true (if negative then -1 else lead.sign)) (trim rest) v := by
  obtain ⟨either, rfl⟩ := signToken_iff.mp sign
  apply ends_congr
  simp only [parseB, awaits, bind_consumeWhitespace, Parser.bind_peek, trimmed, List.head?_cons, first, tokenIsChar,
    Option.any_some, Bool.not_false, Bool.true_and, either, if_true, Parser.bind_iterate, tail_cons]
  rfl

theorem ends_parseB_number (awaits : lead.b = none)
    (no : ∀ c rest negative, trim ts = c :: rest → SignToken c negative → lead.hadSign = true) :
    Ends (parseB lead) ts v ↔ Ends (parseNumber lead lead.hadSign lead.sign) (trim ts) v := by
  apply ends_congr
  have test : (!lead.hadSign && (tokenIsChar (trim ts).head? (ch '-') || tokenIsChar (trim ts).head? (ch '+'))) = false := by
    rcases trimmed : trim ts with _ | ⟨c, rest⟩
    · simp [tokenIsChar]
    · by_cases either : (isChar c (ch '-') || isChar c (ch '+')) = true
      · rw [no c rest _ trimmed (signToken_iff.mpr ⟨either, rfl⟩)]
        rfl
      · simp only [List.head?_cons, tokenIsChar, Option.any_some, either, Bool.and_false]
  simp only [parseB, awaits, bind_consumeWhitespace, Parser.bind_peek, test, Bool.false_eq_true, if_false]

/-! ### What is taken, exactly -/

theorem clamp_zero : clamp (1024 * 0) = 0 := by decide

theorem parseB_known (known : lead.b = some b) (ts : List Token) :
    (parseB lead).run ts = (pure (stored lead.a b lead.sign) : SelParser NthValue).run ts := by
  rw [parseB, known]

theorem reads_number (awaits : lead.b = none)
    (no : ∀ c rest negative, trim ts = c :: rest → SignToken c negative → lead.hadSign = true)
    (ends : Ends (parseB lead) ts v) :
    solid ts = [] ∧ v = stored lead.a (clamp (1024 * 0)) lead.sign ∨
      ∃ text n, solid ts = [⟨.number, text⟩] ∧ Whole text lead.consumed n ∧
        (lead.hadSign = true → text.head?.any isSign = false) ∧ v = stored lead.a (clamp (1024 * n)) lead.sign := by
  rw [ends_parseB_number awaits no, ends_parseNumber (trim_trim ts), solid_trim] at ends
  rwa [clamp_zero]

theorem reads_of_lead (found : leadOf t = some lead) (ends : Ends (parseB lead) ts v) :
    ∃ s, Reads (t :: solid ts) s ∧ v = s.kept := by
  obtain ⟨a, tail, k, opens, after⟩ := leadOf_eq_some.mp found
  obtain ⟨rfl, rfl⟩ | ⟨rfl, rfl⟩ | ⟨digits, n, rfl, signless, rfl⟩ := afterN_eq_some.mp after
  · by_cases signed : ∃ c rest negative, trim ts = c :: rest ∧ SignToken c negative
    · obtain ⟨c, rest, negative, trimmed, sign⟩ := signed
      rw [ends_parseB_sign rfl trimmed sign rfl, ends_parseNumber (trim_trim rest), solid_trim] at ends
      have first : solid ts = c :: solid rest := by rw [← solid_trim, trimmed, solid_cons rest (trim_head trimmed)]
      obtain ⟨none, rfl⟩ | ⟨text, n, number, whole, bare, rfl⟩ := ends
      · exact ⟨⟨a, negative, 0⟩, by rw [first, none]; exact .sign opens sign, by rw [Spelled.kept, clamp_zero]⟩
      · exact ⟨⟨a, negative, n⟩, by rw [first, number]; exact .apart opens sign whole (bare rfl), rfl⟩
    · push Not at signed
      obtain ⟨none, rfl⟩ | ⟨text, n, number, whole, -, rfl⟩ :=
        reads_number rfl (fun c rest negative trimmed sign => absurd sign (signed c rest negative trimmed)) ends
      · exact ⟨⟨a, false, 0⟩, by rw [none]; exact .alone opens, rfl⟩
      · exact ⟨⟨a, false, n⟩, by rw [number]; exact .number opens whole, rfl⟩
  · obtain ⟨none, rfl⟩ | ⟨text, n, number, whole, bare, rfl⟩ := reads_number rfl (fun _ _ _ _ _ => rfl) ends
    · exact ⟨⟨a, true, 0⟩, by rw [none]; exact .dash opens, rfl⟩
    · exact ⟨⟨a, true, n⟩, by rw [number]; exact .dashed opens whole (bare rfl), rfl⟩
  · obtain ⟨none, rfl⟩ := ends_pure.mp ((ends_congr _ _ (parseB_known rfl ts)).mp ends)
    exact ⟨⟨a, true, n⟩, by rw [none]; exact .whole opens signless, rfl⟩

theorem not_word_of_isN {d : UInt8} {word : LwcString} (isn : isN c = true) (other : dolower d ≠ ch 'n') :
    caselessIsEqual (c :: tail) (d :: word) = false := by
  have lower : dolower c = ch 'n' := by
    simp only [isN, Bool.or_eq_true, beq_iff_eq] at isn
    rcases isn with rfl | rfl <;> rfl
  simp [caselessIsEqual, insensitive, lower, other.symm]

theorem not_word_of_opens (opens : Opens ⟨.ident, text⟩ a tail k) :
    caselessIsEqual text (lit "odd") = false ∧ caselessIsEqual text (lit "even") = false := by
  cases opens with
  | n isn => exact ⟨not_word_of_isN isn (by decide), not_word_of_isN isn (by decide)⟩
  | minus isn => exact ⟨rfl, rfl⟩

theorem parseExpression_opens (opens : Opens t a tail k) (after : afterN (clamp (1024 * a)) tail k = some lead) :
    parseExpression t = parseB lead := by
  have found : leadOf t = some lead := leadOf_eq_some.mpr ⟨a, tail, k, opens, after⟩
  obtain ⟨type, text⟩ := t
  by_cases ident : type = .ident
  · subst ident
    obtain ⟨odd, even⟩ := not_word_of_opens opens
    have found : identLead text = some lead := by simpa [leadOf] using found
    simp [parseExpression, odd, even, found, parseLead]
  · have dimension : type = .dimension := by cases opens <;> first | rfl | exact absurd rfl ident
    subst dimension
    have found : dimensionLead text = some lead := by simpa [leadOf] using found
    simp [parseExpression, found, parseLead]

theorem not_sign_number {negative : Bool} : ¬ SignToken ⟨.number, text⟩ negative := by
  rintro (⟨minus, -⟩ | ⟨plus, -⟩)
  · simp [isChar] at minus
  · simp [isChar] at plus

theorem ends_number (awaits : lead.b = none)
    (reads : solid ts = [] ∧ v = stored lead.a (clamp (1024 * 0)) lead.sign ∨ ∃ text n, solid ts = [⟨.number, text⟩] ∧ Whole text lead.consumed n ∧ (lead.hadSign = true → text.head?.any isSign = false) ∧ v = stored lead.a (clamp (1024 * n)) lead.sign) :
    Ends (parseB lead) ts v := by
  rw [ends_parseB_number awaits, ends_parseNumber (trim_trim ts), solid_trim]
  · rwa [clamp_zero] at reads
  · intro c rest negative trimmed sign
    have first : solid ts = c :: solid rest := by rw [← solid_trim, trimmed, solid_cons rest (trim_head trimmed)]
    obtain ⟨none, -⟩ | ⟨text, n, number, -⟩ := reads
    · rw [first] at none
      cases none
    · rw [first] at number
      obtain ⟨rfl, -⟩ := List.cons.inj number
      exact absurd sign not_sign_number

theorem ends_sign {c : Token} {negative : Bool} (awaits : lead.b = none) (first : lead.hadSign = false)
    (sign : SignToken c negative) (parts : solid ts = c :: us)
    (reads : us = [] ∧ v = stored lead.a (clamp (1024 * 0)) (if negative then -1 else lead.sign) ∨ ∃ text n, us = [⟨.number, text⟩] ∧ Whole text lead.consumed n ∧ text.head?.any isSign = false ∧ v = stored lead.a (clamp (1024 * n)) (if negative then -1 else lead.sign)) :
    Ends (parseB lead) ts v := by
  obtain ⟨rest, trimmed, same⟩ := trim_of_solid parts
  rw [ends_parseB_sign awaits trimmed sign first, ends_parseNumber (trim_trim rest), solid_trim, same]
  obtain ⟨none, rfl⟩ | ⟨text, n, number, whole, bare, rfl⟩ := reads
  · exact .inl ⟨none, by rw [clamp_zero]⟩
  · exact .inr ⟨text, n, number, whole, fun _ => bare, rfl⟩

theorem ends_of_reads (reads : Reads us s) (parts : us = t :: solid ts) : Ends (parseExpression t) ts s.kept := by
  cases reads with
  | odd odd =>
    obtain ⟨rfl, none⟩ := List.cons.inj parts
    rw [parseExpression, if_pos rfl, if_pos odd]
    exact ends_pure.mpr ⟨none.symm, by decide⟩
  | @even word even =>
    obtain ⟨rfl, none⟩ := List.cons.inj parts
    have odd : caselessIsEqual word (lit "odd") = false := by
      simp only [caselessIsEqual, beq_iff_eq] at even
      rw [caselessIsEqual, even]
      decide
    rw [parseExpression, if_pos rfl, if_neg (by simp [odd]), if_pos even]
    exact ends_pure.mpr ⟨none.symm, by decide⟩
  | integer whole =>
    obtain ⟨rfl, none⟩ := List.cons.inj parts
    simp only [parseExpression, whole.read, ne_eq, not_true_eq_false, if_false, if_true, reduceCtorEq]
    refine ends_pure.mpr ⟨none.symm, ?_⟩
    simp only [Spelled.kept, stored, clamp_zero, fixToInt]
    simp
  | alone opens =>
    obtain ⟨rfl, none⟩ := List.cons.inj parts
    rw [parseExpression_opens opens rfl]
    exact ends_number rfl (.inl ⟨none.symm, rfl⟩)
  | whole opens signless =>
    obtain ⟨rfl, none⟩ := List.cons.inj parts
    rw [parseExpression_opens opens (afterN_eq_some.mpr (.inr (.inr ⟨_, _, rfl, signless, rfl⟩)))]
    exact (ends_congr _ _ (parseB_known rfl ts)).mpr (ends_pure.mpr ⟨none.symm, rfl⟩)
  | @number _ _ n _ text opens whole =>
    obtain ⟨rfl, number⟩ := List.cons.inj parts
    rw [parseExpression_opens opens rfl]
    exact ends_number rfl (.inr ⟨text, n, number.symm, whole, by simp, rfl⟩)
  | sign opens sign =>
    obtain ⟨rfl, alone⟩ := List.cons.inj parts
    rw [parseExpression_opens opens rfl]
    exact ends_sign rfl rfl sign alone.symm (.inl ⟨rfl, rfl⟩)
  | @apart _ _ _ n _ _ text opens sign whole bare =>
    obtain ⟨rfl, both⟩ := List.cons.inj parts
    rw [parseExpression_opens opens rfl]
    exact ends_sign rfl rfl sign both.symm (.inr ⟨text, n, rfl, whole, bare, rfl⟩)
  | dash opens =>
    obtain ⟨rfl, none⟩ := List.cons.inj parts
    rw [parseExpression_opens opens (afterN_eq_some.mpr (.inr (.inl ⟨rfl, rfl⟩)))]
    exact ends_number rfl (.inl ⟨none.symm, rfl⟩)
  | @dashed _ _ n _ text opens whole bare =>
    obtain ⟨rfl, number⟩ := List.cons.inj parts
    rw [parseExpression_opens opens (afterN_eq_some.mpr (.inr (.inl ⟨rfl, rfl⟩)))]
    exact ends_number rfl (.inr ⟨text, n, number.symm, whole, fun _ => bare, rfl⟩)

theorem reads_of_ends (ends : Ends (parseExpression t) ts v) : ∃ s, Reads (t :: solid ts) s ∧ v = s.kept := by
  obtain ⟨type, text⟩ := t
  unfold parseExpression at ends
  split at ends
  next ident =>
    obtain rfl : type = .ident := ident
    split at ends
    next odd =>
      obtain ⟨none, rfl⟩ := ends_pure.mp ends
      exact ⟨⟨2, false, 1⟩, by rw [none]; exact .odd odd, by decide⟩
    next =>
      split at ends
      next even =>
        obtain ⟨none, rfl⟩ := ends_pure.mp ends
        exact ⟨⟨2, false, 0⟩, by rw [none]; exact .even even, by decide⟩
      next =>
        rcases found : identLead text with _ | lead
        · rw [found] at ends
          exact absurd ends not_ends_invalid
        · rw [found] at ends
          exact reads_of_lead (by simp [leadOf, found]) ends
  next =>
    split at ends
    next number =>
      obtain rfl : type = .number := number
      simp only at ends
      split at ends
      next => exact absurd ends not_ends_invalid
      next all =>
        obtain ⟨none, rfl⟩ := ends_pure.mp ends
        obtain ⟨n, whole, value⟩ := (readInteger_all_iff _ _).mp (not_not.mp all)
        refine ⟨⟨0, false, n⟩, by rw [none]; exact .integer whole, ?_⟩
        simp only [Spelled.kept, stored, value, clamp_zero, fixToInt]
        simp
    next =>
      split at ends
      next dimension =>
        obtain rfl : type = .dimension := dimension
        rcases found : dimensionLead text with _ | lead
        · rw [found] at ends
          exact absurd ends not_ends_invalid
        · rw [found] at ends
          exact reads_of_lead (by simp [leadOf, found]) ends
      next => exact absurd ends not_ends_invalid

/-- `parseNth` takes all of the tokens. -/
def Accepts (ts : List Token) (v : NthValue) : Prop := parseNth.run ts = (.ok v, [])

theorem accepts_iff : Accepts (t :: ts) v ↔ Ends (parseExpression t) ts v := by
  have run : parseNth.run (t :: ts) = (parseExpression t >>= fun value => do consumeWhitespace; pure value).run ts := rfl
  rw [Accepts, run]
  constructor
  · intro all
    rcases first : (parseExpression t).run ts with ⟨_ | value, rest⟩
    · rw [Parser.bind_error first] at all
      cases all
    · rw [Parser.bind_ok first, bind_consumeWhitespace] at all
      obtain ⟨same, none⟩ := Prod.mk.inj all
      obtain rfl := Except.ok.inj same
      exact ⟨rest, first, solid_eq_nil.mpr none⟩
  · rintro ⟨rest, first, none⟩
    rw [Parser.bind_ok first, bind_consumeWhitespace, solid_eq_nil.mp none]
    rfl

theorem accepts_iff_reads : Accepts ts v ↔ ∃ s, Reads (solid ts) s ∧ Flush ts ∧ v = s.kept := by
  cases ts with
  | nil =>
    refine iff_of_false (fun all => by cases all) ?_
    rintro ⟨s, reads, -⟩
    cases reads
  | cons t ts =>
    rw [accepts_iff]
    constructor
    · intro ends
      obtain ⟨s, reads, value⟩ := reads_of_ends ends
      have ink : isSpace t = false := by
        by_contra space
        have type : t.type = .s := by simpa [isSpace] using space
        have refused : parseExpression t = invalid := by simp [parseExpression, type]
        rw [refused] at ends
        exact not_ends_invalid ends
      exact ⟨s, by rwa [solid_cons ts ink], by simpa [Flush] using ink, value⟩
    · rintro ⟨s, reads, flush, rfl⟩
      exact ends_of_reads reads (solid_cons ts (by simpa [Flush] using flush))

/-! ### Expressions that are not taken, and others that are -/

/-- The first tokens of expressions that the parser refuses: a `+`, and an IDENT of `n` with a minus behind. -/
def Refused (ts : List Token) : Prop :=
  ∃ t rest, ts = t :: rest ∧
    (isChar t (ch '+') = true ∨ ∃ c tail, isN c = true ∧ t = ⟨.ident, c :: ch '-' :: tail⟩)

/-- What the parser takes though it is no expression, without white space: a sign that no number follows, a number
without a sign, and a NUMBER without digits, which the lexer does not make. -/
inductive Loose : List Token → Prop
  | sign {t c : Token} {a : Int} {k : Nat} {negative : Bool} (opens : Opens t a [] k) (sign : SignToken c negative) :
      Loose [t, c]
  | dash {t : Token} {a : Int} {k : Nat} (opens : Opens t a [ch '-'] k) : Loose [t]
  | bare {t : Token} {a n : Int} {k : Nat} {text : LwcString} (opens : Opens t a [] k) (signless : Signless text n) :
      Loose [t, ⟨.number, text⟩]
  | empty : Loose [⟨.number, []⟩]
  | emptyB {t : Token} {a : Int} {tail : LwcString} (opens : Opens t a tail 0) (short : tail = [] ∨ tail = [ch '-']) :
      Loose [t, ⟨.number, []⟩]
  | emptySigned {t c : Token} {a : Int} {negative : Bool} (opens : Opens t a [] 0) (sign : SignToken c negative) :
      Loose [t, c, ⟨.number, []⟩]

theorem Opens.nform (opens : Opens t a tail k) : NForm [t] a tail := by
  cases opens with
  | n isn => exact .ident isn
  | minus isn => exact .minus isn
  | dimension integer isn => exact .dimension integer isn

theorem NForm.opens (form : NForm us a tail) (fits : tail = [] ∨ ∃ rest, tail = ch '-' :: rest) :
    (∃ t k, us = [t] ∧ Opens t a tail k) ∨ Refused us := by
  cases form with
  | @ident c _ isn =>
    obtain rfl | ⟨rest, rfl⟩ := fits
    · exact .inl ⟨_, _, rfl, .n isn⟩
    · exact .inr ⟨_, _, rfl, .inr ⟨c, rest, isn, rfl⟩⟩
  | plus plus isn => exact .inr ⟨_, _, rfl, .inl plus⟩
  | minus isn => exact .inl ⟨_, _, rfl, .minus isn⟩
  | dimension integer isn => exact .inl ⟨_, _, rfl, .dimension integer isn⟩

theorem Refused.append (refused : Refused us) (more : List Token) : Refused (us ++ more) := by
  obtain ⟨t, rest, rfl, first⟩ := refused
  exact ⟨t, rest ++ more, rfl, first⟩

theorem Opens.unique {a' : Int} {tail' : LwcString} {k' : Nat} (opens : Opens t a tail k)
    (opens' : Opens t a' tail' k') : tail = tail' := by
  cases opens with
  | n isn =>
    cases opens' with
    | n _ => rfl
  | minus isn =>
    cases opens' with
    | minus _ => rfl
  | @dimension int tail c n integer isn =>
    generalize text : int ++ c :: tail = data at opens'
    cases opens' with
    | @dimension int' tail' c' n' integer' isn' =>
      have stops : Stops (c :: tail) := stops_n isn
      have read := readInteger_integer integer stops 0
      rw [text, readInteger_integer integer' (stops_n isn')] at read
      have same := append_inj_right text (Prod.mk.inj read).2.symm
      exact (List.cons.inj same).2

theorem Signed.not_signless {m : Int} (signed : Signed text n) (signless : Signless text m) : False := by
  have := signed.sign
  rw [signless.not_sign] at this
  cases this

theorem AnB.reads (anb : AnB us s) : Reads us s ∧ ¬ Loose us ∨ Refused us := by
  cases anb with
  | odd odd =>
    refine .inl ⟨.odd odd, fun loose => ?_⟩
    cases loose with
    | dash opens => simp [(not_word_of_opens opens).1] at odd
  | even even =>
    refine .inl ⟨.even even, fun loose => ?_⟩
    cases loose with
    | dash opens => simp [(not_word_of_opens opens).2] at even
  | integer integer =>
    refine .inl ⟨.integer (.inl integer), fun loose => ?_⟩
    cases loose with
    | dash opens => cases opens
    | empty => exact integer.ne_nil rfl
  | alone form =>
    obtain ⟨t, k, rfl, opens⟩ | refused := form.opens (.inl rfl)
    · refine .inl ⟨.alone opens, fun loose => ?_⟩
      cases loose with
      | dash opens' => cases opens.unique opens'
      | empty => cases opens
    · exact .inr refused
  | whole form signless =>
    obtain ⟨t, k, rfl, opens⟩ | refused := form.opens (.inr ⟨_, rfl⟩)
    · refine .inl ⟨.whole opens signless, fun loose => ?_⟩
      cases loose with
      | dash opens' => exact signless.2.1 (List.cons.inj (opens.unique opens')).2
      | empty => cases opens
    · exact .inr refused
  | signed form signed =>
    obtain ⟨t, k, rfl, opens⟩ | refused := form.opens (.inl rfl)
    · refine .inl ⟨.number opens (.inl signed.integer), fun loose => ?_⟩
      cases loose with
      | sign _ sign => exact not_sign_number sign
      | bare _ signless => exact signed.not_signless signless
      | emptyB _ _ => exact signed.integer.ne_nil rfl
    · exact .inr (refused.append _)
  | apart form sign signless =>
    obtain ⟨t, k, rfl, opens⟩ | refused := form.opens (.inl rfl)
    · refine .inl ⟨.apart opens sign (.inl signless.integer) signless.not_sign, fun loose => ?_⟩
      cases loose with
      | emptySigned _ _ => exact signless.2.1 rfl
    · exact .inr (refused.append _)
  | dash form signless =>
    obtain ⟨t, k, rfl, opens⟩ | refused := form.opens (.inr ⟨_, rfl⟩)
    · refine .inl ⟨.dashed opens (.inl signless.integer) signless.not_sign, fun loose => ?_⟩
      cases loose with
      | sign _ sign => exact not_sign_number sign
      | bare opens' _ => cases opens.unique opens'
      | emptyB _ _ => exact signless.2.1 rfl
    · exact .inr (refused.append _)

theorem Reads.anb (reads : Reads us s) : AnB us s ∨ Loose us := by
  cases reads with
  | odd odd => exact .inl (.odd odd)
  | even even => exact .inl (.even even)
  | integer whole =>
    obtain integer | ⟨rfl, -, -⟩ := whole
    · exact .inl (.integer integer)
    · exact .inr .empty
  | alone opens => exact .inl (.alone opens.nform)
  | whole opens signless => exact .inl (.whole opens.nform signless)
  | number opens whole =>
    obtain integer | ⟨rfl, rfl, -⟩ := whole
    · obtain signed | signless := integer.signed_or_signless
      · exact .inl (.signed opens.nform signed)
      · exact .inr (.bare opens signless)
    · exact .inr (.emptyB opens (.inl rfl))
  | sign opens sign => exact .inr (.sign opens sign)
  | apart opens sign whole bare =>
    obtain integer | ⟨rfl, rfl, -⟩ := whole
    · exact .inl (.apart opens.nform sign (integer.signless bare))
    · exact .inr (.emptySigned opens sign)
  | dash opens => exact .inr (.dash opens)
  | dashed opens whole bare =>
    obtain integer | ⟨rfl, rfl, -⟩ := whole
    · exact .inl (.dash opens.nform (integer.signless bare))
    · exact .inr (.emptyB opens (.inr rfl))

theorem Loose.reads (loose : Loose us) : ∃ s, Reads us s := by
  cases loose with
  | sign opens sign => exact ⟨_, .sign opens sign⟩
  | dash opens => exact ⟨_, .dash opens⟩
  | bare opens signless => exact ⟨_, .number opens (.inl signless.integer)⟩
  | empty => exact ⟨_, .integer (.inr ⟨rfl, rfl, rfl⟩)⟩
  | emptyB opens short =>
    obtain rfl | rfl := short
    · exact ⟨_, .number opens (.inr ⟨rfl, rfl, rfl⟩)⟩
    · exact ⟨_, .dashed opens (.inr ⟨rfl, rfl, rfl⟩) rfl⟩
  | emptySigned opens sign => exact ⟨_, .apart opens sign (.inr ⟨rfl, rfl, rfl⟩) rfl⟩

/-! ### What is stored -/

theorem fixToInt_clamp (lower : -2 ^ 21 ≤ n) (upper : n < 2 ^ 21) : fixToInt (clamp (1024 * n)) = n := by
  rw [clamp_of_fits (by unfold Fits; omega), fixToInt]
  omega

theorem Spelled.kept_eq (inRange : s.InRange) : s.kept = ⟨s.a, s.value⟩ := by
  obtain ⟨lower, upper, lower', upper'⟩ := inRange
  rw [Spelled.kept, stored, fixToInt_clamp lower upper, fixToInt_clamp lower' upper', Spelled.value]
  cases s.negative <;> simp

/-- A position that is no closer to the largest `int32_t` than a number that is stored can be large. -/
def Position (k : Int) : Prop := 1 ≤ k ∧ k < 2 ^ 31 - 2 ^ 21

theorem Spelled.difference_fits (s : Spelled) {k : Int} (position : Position k) :
    (k - s.kept.b).bmod 4294967296 = k - s.kept.b := by
  obtain ⟨least, most⟩ := position
  have part : -2 ^ 21 ≤ s.kept.b ∧ s.kept.b ≤ 2 ^ 21 := by
    have bounds : -2 ^ 31 ≤ clamp (1024 * s.b) ∧ clamp (1024 * s.b) < 2 ^ 31 := by
      unfold clamp
      omega
    simp only [kept, stored, fixToInt]
    split <;> omega
  exact Int.bmod_eq_of_le (by omega) (by omega)

theorem matchNth_iff {k : Int} (fits : (k - b).bmod 4294967296 = k - b) :
    matchNth a b k = true ↔ ∃ m : Nat, k = a * m + b := by
  rw [matchNth, fits]
  by_cases zero : a = 0
  · subst zero
    simp
  · simp only [zero, if_false, decide_eq_decide]
    constructor
    · intro found
      split at found
      next direction =>
        obtain ⟨m, product⟩ := Int.dvd_of_tmod_eq_zero (of_decide_eq_true found)
        have least : 0 ≤ m := by
          by_contra negative
          obtain same | none := direction
          · rcases lt_or_gt_of_ne zero with below | above
            · have : 0 < a * m := mul_pos_of_neg_of_neg below (by omega)
              omega
            · have : a * m < 0 := mul_neg_of_pos_of_neg above (by omega)
              omega
          · rw [none] at product
            obtain zero' | zero' := mul_eq_zero.mp product.symm
            · exact zero zero'
            · omega
        exact ⟨m.toNat, by rw [Int.toNat_of_nonneg least]; omega⟩
      next => cases found
    · rintro ⟨m, rfl⟩
      have delta : a * m + b - b = a * m := by ring
      rw [delta, if_pos]
      · simp
      · rcases Nat.eq_zero_or_pos m with rfl | positive
        · right
          simp
        · left
          have cast : (0 : Int) < m := by exact_mod_cast positive
          exact mul_pos_iff_of_pos_right cast

/-- `parseNth` takes just the expressions, and what it stores finds their positions. -/
def Faithful (ts : List Token) : Prop :=
  ((∃ v, Accepts ts v) ↔ ∃ s, Expression ts s) ∧
    (∀ v, Accepts ts v → ∀ k, Position k → (matchNth v.a v.b k = true ↔ ∃ m : Nat, k = v.a * m + v.b)) ∧
    ∀ s v, Expression ts s → s.InRange → Accepts ts v →
      ∀ k, Position k → (matchNth v.a v.b k = true ↔ ∃ m : Nat, k = s.a * m + s.value)

/-- The expressions that begin with `+n` or, as an IDENT, with `n-`. -/
def LeftOut (ts : List Token) : Prop := Refused ts ∧ ∃ s, Expression ts s

theorem Flush.solid_head (flush : Flush ts) : (solid ts).head? = ts.head? := by
  cases ts with
  | nil => rfl
  | cons t rest => rw [solid_cons rest (by simpa [Flush] using flush), List.head?_cons, List.head?_cons]

theorem Flush.refused (flush : Flush ts) (refused : Refused (solid ts)) : Refused ts := by
  obtain ⟨t, us, parts, first⟩ := refused
  have head := flush.solid_head
  rw [parts] at head
  cases ts with
  | nil => cases head
  | cons d rest =>
    obtain rfl := Option.some.inj head
    exact ⟨t, rest, rfl, first⟩

theorem Refused.not_accepts (refused : Refused ts) (v : NthValue) : ¬ Accepts ts v := by
  obtain ⟨t, rest, rfl, plus | ⟨c, tail, isn, rfl⟩⟩ := refused
  · rw [accepts_iff]
    have type : t.type = .char := by
      by_contra other
      rw [isChar_type other] at plus
      cases plus
    have none : parseExpression t = invalid := by simp [parseExpression, type]
    rw [none]
    exact not_ends_invalid
  · rw [accepts_iff]
    have odd : caselessIsEqual (c :: ch '-' :: tail) (lit "odd") = false := not_word_of_isN isn (by decide)
    have even : caselessIsEqual (c :: ch '-' :: tail) (lit "even") = false := not_word_of_isN isn (by decide)
    have none : parseExpression ⟨.ident, c :: ch '-' :: tail⟩ = invalid := by
      simp [parseExpression, odd, even, identLead, (isN_not_digit isn).2.2, parseLead]
    rw [none]
    exact not_ends_invalid

theorem Expression.accepts (expression : Expression ts s) (taken : ¬ Refused ts) :
    Accepts ts s.kept ∧ ¬ Loose (solid ts) := by
  obtain ⟨anb, flush, -⟩ := expression
  obtain ⟨reads, tight⟩ | refused := anb.reads
  · exact ⟨accepts_iff_reads.mpr ⟨s, reads, flush, rfl⟩, tight⟩
  · exact absurd (flush.refused refused) taken

/-- `parseNth` takes just the expressions, and matches their positions, unless the expression begins with a token that it
refuses, or a sign lacks a number or a number a sign. -/
theorem nth_faithful_iff (ts : List Token) : Faithful ts ↔ ¬ LeftOut ts ∧ ¬ (Flush ts ∧ Loose (solid ts)) := by
  constructor
  · rintro ⟨same, -⟩
    constructor
    · rintro ⟨refused, s, expression⟩
      obtain ⟨v, accepts⟩ := same.mpr ⟨s, expression⟩
      exact refused.not_accepts v accepts
    · rintro ⟨flush, loose⟩
      obtain ⟨s, reads⟩ := loose.reads
      have accepts : Accepts ts s.kept := accepts_iff_reads.mpr ⟨s, reads, flush, rfl⟩
      obtain ⟨s', expression⟩ := same.mp ⟨_, accepts⟩
      exact (expression.accepts fun refused => refused.not_accepts _ accepts).2 loose
  · rintro ⟨kept, tight⟩
    refine ⟨⟨?_, ?_⟩, fun v accepts k position => ?_, ?_⟩
    · rintro ⟨v, accepts⟩
      obtain ⟨s, reads, flush, -⟩ := accepts_iff_reads.mp accepts
      obtain anb | loose := reads.anb
      · refine ⟨s, anb, flush, fun plus => ?_⟩
        cases ts with
        | nil => cases plus
        | cons t rest => exact absurd accepts (Refused.not_accepts ⟨t, rest, rfl, .inl plus⟩ v)
      · exact absurd ⟨flush, loose⟩ tight
    · rintro ⟨s, expression⟩
      exact ⟨_, (expression.accepts fun refused => kept ⟨refused, s, expression⟩).1⟩
    · obtain ⟨s, -, -, rfl⟩ := accepts_iff_reads.mp accepts
      exact matchNth_iff (s.difference_fits position)
    · intro s v expression inRange accepts k position
      have accepts' := (expression.accepts fun refused => refused.not_accepts _ accepts).1
      obtain rfl : v = s.kept := by
        have both : (.ok v, []) = ((.ok s.kept, []) : Except Err NthValue × List Token) := accepts.symm.trans accepts'
        exact Except.ok.inj (Prod.mk.inj both).1
      rw [matchNth_iff (s.difference_fits position), Spelled.kept_eq inRange]

theorem digits_one : Signless (lit "1") 1 :=
  ⟨by simpa [Digits, lit] using (by decide : isDigit (ch '1') = true), by decide, rfl⟩

theorem digits_two : Integer (lit "2") 2 :=
  ⟨[], 1, lit "2", .none, by simpa [Digits, lit] using (by decide : isDigit (ch '2') = true), by decide, rfl, rfl⟩

/-- `n-1` is refused, and `2n +` is taken. -/
theorem expression_refused :
    ¬ Faithful [⟨.ident, lit "n-1"⟩] ∧ ¬ Faithful [⟨.dimension, lit "2n"⟩, ⟨.s, []⟩, ⟨.char, lit "+"⟩] := by
  constructor
  · rintro ⟨same, -⟩
    have form : NForm [⟨.ident, lit "n-1"⟩] 1 (ch '-' :: lit "1") := .ident rfl
    have anb : AnB [⟨.ident, lit "n-1"⟩] ⟨1, true, 1⟩ := .whole form digits_one
    obtain ⟨v, accepts⟩ := same.mpr ⟨_, anb, rfl, fun plus => by cases plus⟩
    cases accepts
  · rintro ⟨same, -⟩
    obtain ⟨s, anb, -⟩ := same.mp ⟨⟨2, 0⟩, by rfl⟩
    have opens : Opens ⟨.dimension, lit "2n"⟩ 2 [] 2 := .dimension digits_two rfl
    obtain ⟨-, tight⟩ | ⟨t, rest, parts, first⟩ := anb.reads
    · exact tight (.sign opens (.inr ⟨rfl, rfl⟩))
    · obtain ⟨rfl, -⟩ := List.cons.inj parts
      obtain plus | ⟨c, tail, -, same⟩ := first
      · cases plus
      · cases same

end Besra.Nth
