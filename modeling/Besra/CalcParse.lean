import Besra.CalcCode
import Besra.Intern
import Besra.Lex

/-!
The `calc()` parser of `parse/properties/utils.c`: a recursive descent that appends postfix code to a buffer. A NULL
token that is dereferenced is an outcome of its own. Loops and nested sums are bounded by the number of tokens left,
which every round and every parenthesis lowers. Allocation failures are not modelled.
-/
namespace Besra.CalcParse
open Lwc Cursor Besra.Lex FixedPoint CalcCode
open Number (numberFromString parseUnitKeyword)
open Postfix (Term Instr)

/-- How a parser ends other than with CSS_OK: CSS_INVALID, a read through NULL, or a bound on its rounds that was
too small. -/
inductive Err where
  | invalid
  | nullRead
  | fuel
deriving DecidableEq

abbrev CalcParser (α : Type) := Parser Token Err α

abbrev Code := List (Instr Operand Op)

/-- The number of a NUMBER token, where it is the whole text. The lexer gives such a token at least a digit. -/
def number? (token : Token) : Option CssFixed :=
  if token.type = .number then
    let (num, rest) := numberFromString token.idata false
    if rest = [] then some (.ofInt num) else none
  else none

def unit? (token : Token) : Option (CssFixed × CalcUnit) :=
  let (num, rest) := numberFromString token.idata false
  if token.type = .dimension then (parseUnitKeyword rest).map fun u => (.ofInt num, .of u)
  else if token.type = .percentage then
    if rest = [] then some (.ofInt num, .pct) else none
  else none

/-- `css__parse_calc_number` -/
def parseCalcNumber : CalcParser Code := do
  match ← Parser.iterate with
  | none => Parser.fail .invalid
  | some token =>
    match number? token with
    | none => Parser.fail .invalid
    | some num => pure [.push (.number num)]

/-- `css__parse_unit_specifier` of a DIMENSION or a PERCENTAGE, which are all that it is called with here. -/
def parseUnitSpecifier : CalcParser (CssFixed × CalcUnit) := do
  consumeWhitespace
  match ← Parser.iterate with
  | none => Parser.fail .invalid
  | some token =>
    match unit? token with
    | none => Parser.fail .invalid
    | some lengthAndUnit => pure lengthAndUnit

/-- `css__parse_calc_value` for a property with the given `property_unit_mask`, with the parser of the sums inside. -/
def parseCalcValue (mask : UInt32) (sum : CalcParser Code) : CalcParser Code := do
  let token ← Parser.peek
  if tokenIsChar token (ch '(') then
    let _ ← Parser.iterate
    consumeWhitespace
    let code ← sum
    let token ← Parser.peek
    if !tokenIsChar token (ch ')') then Parser.fail .invalid
    else
      let _ ← Parser.iterate
      consumeWhitespace
      pure code
  else
    match token with
    | none => Parser.fail .nullRead
    | some token =>
      if token.type = .number then
        let code ← parseCalcNumber
        consumeWhitespace
        pure code
      else if token.type = .dimension ∨ token.type = .percentage then
        let (length, unit) ← parseUnitSpecifier
        if unit.code &&& mask = 0 then Parser.fail .invalid
        else
          consumeWhitespace
          pure [.push (.value length unit)]
      else
        consumeWhitespace
        Parser.fail .invalid

/-- The loops of `css__parse_calc_product` and `css__parse_calc_sum`, between their operands: the tokens that end
them, and the operators with the parsers of their right operands. -/
def chainLoop (ends : Token → Bool) (operator : Token → Option (Op × CalcParser Code)) :
    Nat → Code → CalcParser Code
  | 0, _ => Parser.fail .fuel
  | n + 1, code => do
    match ← Parser.peek with
    | none => Parser.fail .invalid
    | some token =>
      if ends token then pure code
      else
        match operator token with
        | none => Parser.fail .invalid
        | some (o, operand) => do
          let _ ← Parser.iterate
          consumeWhitespace
          let right ← operand
          chainLoop ends operator n (code ++ right ++ [.apply o])

/-- An operand, and the loop after it with a round for each token that is left. -/
def chain (ends : Token → Bool) (operator : Token → Option (Op × CalcParser Code)) (operand : CalcParser Code) :
    CalcParser Code := do
  let code ← operand
  Parser.looking fun ts => chainLoop ends operator (ts.length + 1) code

def endsProduct (token : Token) : Bool :=
  isChar token (ch ')') || isChar token (ch '+') || isChar token (ch '-')

/-- The operators of a product: after a slash there is a number only, without the white space behind it. -/
def productOperator (value : CalcParser Code) (token : Token) : Option (Op × CalcParser Code) :=
  if isChar token (ch '*') then some (.multiply, value)
  else if isChar token (ch '/') then some (.divide, parseCalcNumber)
  else none

/-- `css__parse_calc_product` -/
def parseCalcProduct (value : CalcParser Code) : CalcParser Code :=
  chain endsProduct (productOperator value) value

def endsSum (token : Token) : Bool := isChar token (ch ')')

def sumOperator (product : CalcParser Code) (token : Token) : Option (Op × CalcParser Code) :=
  if isChar token (ch '+') then some (.add, product)
  else if isChar token (ch '-') then some (.subtract, product)
  else none

/-- `css__parse_calc_sum`, with so many sums inside each other -/
def parseCalcSum (mask : UInt32) : Nat → CalcParser Code
  | 0 => Parser.fail .fuel
  | n + 1 =>
    let product := parseCalcProduct (parseCalcValue mask (parseCalcSum mask n))
    chain endsSum (sumOperator product) product

/-- What `css__parse_calc` reads and writes: the tokens from `*ctx` on, the result style, the strings of the sheet
and the contents of the interned strings that are alive, the newest first. -/
structure State where
  tokens : List Token
  style : List UInt32
  strings : List LwcString
  live : List LwcString
deriving DecidableEq

/-- `css__stylesheet_string_add`: the strings and the number of the one asked for. No two strings that are alive have
the same contents, so these stand for the pointers compared. -/
def stringAdd (strings : List LwcString) (string : LwcString) : List LwcString × Nat :=
  if string ∈ strings then (strings, strings.idxOf string + 1) else (strings ++ [string], strings.length + 1)

def parseCalcBody (mask : UInt32) : CalcParser Code := do
  let code ← Parser.looking fun ts => parseCalcSum mask (ts.length + 1)
  consumeWhitespace
  let token ← Parser.peek
  if !tokenIsChar token (ch ')') then Parser.fail .invalid
  else
    let _ ← Parser.iterate
    pure code

/-- `css__parse_calc`, for the unit mask of the property that `OPV` is of -/
def parseCalc (mask opv unit : UInt32) (s : State) : Except Err Unit × State :=
  match trim s.tokens with
  | [] => (.error .invalid, s)
  | token :: rest =>
    match (parseCalcBody mask).run (token :: rest) with
    | (.error e, _) => (.error e, s)
    | (.ok code, left) =>
      let (live, calcExpr) := Intern.internBytes s.live (codeBytes code)
      let (strings, index) := stringAdd s.strings calcExpr
      (.ok (), { tokens := left, style := s.style ++ [opv, unit, UInt32.ofNat index], strings := strings, live := live })

inductive Level where
  | value
  | product
  | sum
deriving DecidableEq

/-- The texts of `calc()` with their expressions, for a unit mask. The last index says whether the text ends with the
number after a slash: the strict form of the grammar has no white space behind that, the other has it between any two
tokens. -/
inductive Derives (strict : Bool) (mask : UInt32) : Level → List Token → Bool → Expr → Prop
  | number {t : Token} {v : CssFixed} (is : number? t = some v) :
      Derives strict mask .value [t] false (.leaf (.number v))
  | measure {t : Token} {v : CssFixed} {u : CalcUnit} (is : unit? t = some (v, u)) (valid : u.code &&& mask ≠ 0) :
      Derives strict mask .value [t] false (.leaf (.value v u))
  | parens {opening closing : Token} {w w' text : List Token} {tight : Bool} {e : Expr}
      (opens : isChar opening (ch '(') = true) (before : Blank w) (inner : Derives strict mask .sum text tight e)
      (after : Blank w') (glued : strict = true → tight = true → w' = [])
      (closes : isChar closing (ch ')') = true) :
      Derives strict mask .value (opening :: (w ++ (text ++ (w' ++ [closing])))) false e
  | single {text : List Token} {e : Expr} (value : Derives strict mask .value text false e) :
      Derives strict mask .product text false e
  | times {star : Token} {text text' w w' : List Token} {tight : Bool} {l r : Expr}
      (left : Derives strict mask .product text tight l) (before : Blank w)
      (glued : strict = true → tight = true → w = []) (sign : isChar star (ch '*') = true) (after : Blank w')
      (right : Derives strict mask .value text' false r) :
      Derives strict mask .product (text ++ (w ++ star :: (w' ++ text'))) false (.node .multiply l r)
  | divided {slash t : Token} {text w w' : List Token} {tight : Bool} {l : Expr} {v : CssFixed}
      (left : Derives strict mask .product text tight l) (before : Blank w)
      (glued : strict = true → tight = true → w = []) (sign : isChar slash (ch '/') = true) (after : Blank w')
      (is : number? t = some v) :
      Derives strict mask .product (text ++ (w ++ slash :: (w' ++ [t]))) true
        (.node .divide l (.leaf (.number v)))
  | whole {text : List Token} {tight : Bool} {e : Expr} (product : Derives strict mask .product text tight e) :
      Derives strict mask .sum text tight e
  | plus {sign : Token} {text text' w w' : List Token} {tight tight' : Bool} {l r : Expr} {o : Op}
      (left : Derives strict mask .sum text tight l) (before : Blank w)
      (glued : strict = true → tight = true → w = [])
      (is : isChar sign (ch '+') = true ∧ o = .add ∨ isChar sign (ch '-') = true ∧ o = .subtract) (after : Blank w')
      (right : Derives strict mask .product text' tight' r) :
      Derives strict mask .sum (text ++ (w ++ sign :: (w' ++ text'))) tight' (.node o l r)

end Besra.CalcParse
