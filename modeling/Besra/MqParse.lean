import Besra.Lex
import Besra.Number

/-!
The media query parser of `libcss/src/parse/mq.c` over the tokens that are left
in the vector. `CSS_INVALID` is an outcome of its own, since its position is what
the list parser goes on from; the reads through a NULL pointer are another.
Loops and nested calls are bounded by the number of tokens left, which every
round and every nesting lowers. Allocation failures are not modelled.
-/
namespace Besra.MqParse
open Lwc Cursor Besra.Lex Number Parser

/-- `css_mq_value`; `memset` makes an unset value the number 0. -/
inductive Value where
  | num (n : Int)
  | dim (len : Int) (unit : CssUnit)
  | ident (word : LwcString)
  | ratio (r : Int)
deriving DecidableEq

/-- `css_mq_feature_op`; the first is BOOL in `op` and UNUSED in `op2`. -/
inductive FeatureOp where
  | bool
  | lt
  | lte
  | eq
  | gte
  | gt
deriving DecidableEq

/-- `css_mq_feature` -/
structure Feature where
  name : LwcString
  op : FeatureOp := .bool
  op2 : FeatureOp := .bool
  value : Value := .num 0
  value2 : Value := .num 0
deriving DecidableEq

/-- `css_mq_cond_or_feature`, with the condition in place of the pointer to it; `null` is the
NULL pointer that stands for a general enclosed text. -/
inductive Part where
  | feature (f : Feature)
  | cond (negate op : Bool) (parts : List Part)
  | null

/-- `css_mq_query`, without the pointer to the next. A condition is kept as the part it would be. -/
structure Query where
  negateType : Bool
  type : UInt64
  cond : Option Part

/-- How a parser ends other than with CSS_OK: CSS_INVALID, a read through NULL, or a bound on
its rounds that was too small. -/
inductive Err where
  | invalid
  | nullRead
  | fuel
deriving DecidableEq

abbrev MqParser (α : Type) := Parser Token Err α

def isNameOrValue (t : Token) : Bool := t.type == .number || t.type == .dimension || t.type == .ident

/-- `mq_parse_ratio`, after the numerator and its white space. -/
def mqParseRatio (numerator : Token) : MqParser Int := do
  let token ← Parser.iterate
  if !tokenIsChar token (ch '/') then Parser.fail .invalid
  else
    consumeWhitespace
    match ← Parser.iterate with
    | none => Parser.fail .invalid
    | some token =>
      if token.type ≠ .number then Parser.fail .invalid
      else
        let num := (numberFromString numerator.idata true).1
        let den := (numberFromString token.idata true).1
        if num = 0 ∨ den = 0 then Parser.fail .invalid else pure (divideFixed num den)

def mqCreateFeature (name : LwcString) : Feature := { name := insensitive name }

/-- `mq_populate_value` into a value that is still unset. -/
def mqPopulateValue (token : Token) : MqParser Value :=
  if token.type = .number then pure (.num (numberFromString token.idata false).1)
  else if token.type = .dimension then
    let (len, rest) := numberFromString token.idata false
    match parseUnitKeyword rest with
    | some unit => pure (.dim len unit)
    | none => Parser.fail .invalid
  else if token.type = .ident then pure (.ident token.idata)
  else pure (.num 0)

def mqParseOp (token : Option Token) : MqParser FeatureOp :=
  match token with
  | none => Parser.fail .invalid
  | some token =>
    if token.type ≠ .char then Parser.fail .invalid
    else if token.idata = lit "<=" then pure .lte
    else if token.idata = lit ">=" then pure .gte
    else if token.idata = lit "<" then pure .lt
    else if token.idata = lit "=" then pure .eq
    else if token.idata = lit ">" then pure .gt
    else Parser.fail .invalid

/-- `mq_parse_range__convert_to_level_4` -/
def convertToLevel4 (f : Feature) : Feature :=
  if f.op ≠ .eq ∨ f.name.length ≤ 4 then f
  else if f.name.take 4 = lit "min-" then { f with name := f.name.drop 4, op := .lte }
  else if f.name.take 4 = lit "max-" then { f with name := f.name.drop 4, op := .gte }
  else f

def optionalRatio (value numerator : Token) : MqParser (Option Int) := do
  let token ← Parser.peek
  if value.type = .number ∧ tokenIsChar token (ch '/') = true then
    let ratio ← mqParseRatio numerator
    consumeWhitespace
    pure (some ratio)
  else pure none

/-- How `mq_parse_range` turns the operator around where the name comes first. -/
def invertOp : FeatureOp → FeatureOp
  | .lt => .gte
  | .lte => .gt
  | .gt => .lte
  | .gte => .lt
  | op => op

def sameDirection (op op2 : FeatureOp) : Bool :=
  match op with
  | .lt | .lte => op2 == .lt || op2 == .lte
  | .gt | .gte => op2 == .gt || op2 == .gte
  | _ => false

/-- The second operator and value of a range, with the ratio where it is one. The numerator is
the operator's token, as in the source. -/
def mqParseRange2 (op : FeatureOp) (valueOrName : Token) : MqParser (FeatureOp × Token × Option Int) := do
  let token ← Parser.iterate
  let op2 ← mqParseOp token
  consumeWhitespace
  if !sameDirection op op2 then Parser.fail .invalid
  else
    match ← Parser.iterate with
    | none => Parser.fail .invalid
    | some value2 =>
      if !isNameOrValue value2 then Parser.fail .invalid
      else
        consumeWhitespace
        let ratio2 ← optionalRatio valueOrName (token.getD ⟨.eof, []⟩)
        pure (op2, value2, ratio2)

def valueOf (ratio : Option Int) (token : Token) : MqParser Value :=
  match ratio with
  | some r => pure (.ratio r)
  | none => mqPopulateValue token

/-- `mq_parse_range`. The value is always taken from `name_or_value`, and a second ratio is stored
as the first one. -/
def mqParseRange (nameOrValue : Token) : MqParser Feature :=
  if !isNameOrValue nameOrValue then Parser.fail .invalid
  else do
    consumeWhitespace
    let ratio ← optionalRatio nameOrValue nameOrValue
    let nameFirst := nameOrValue.type == .ident && !caselessIsEqual nameOrValue.idata (lit "infinite")
    let token ← Parser.iterate
    let op ← mqParseOp token
    consumeWhitespace
    match ← Parser.iterate with
    | none => Parser.fail .invalid
    | some valueOrName =>
      if !isNameOrValue valueOrName then Parser.fail .invalid
      else if !nameFirst && valueOrName.type ≠ .ident then Parser.fail .invalid
      else
        let name := if nameFirst then nameOrValue else valueOrName
        consumeWhitespace
        let ratio' ← optionalRatio valueOrName (token.getD ⟨.eof, []⟩)
        let ratio := ratio'.or ratio
        let next ← Parser.peek
        let second ←
          if !nameFirst && next.isSome && !tokenIsChar next (ch ')') then
            some <$> mqParseRange2 op valueOrName
          else pure none
        let value ← valueOf ratio nameOrValue
        let op := if nameFirst then invertOp op else op
        match second with
        | none => pure { mqCreateFeature name.idata with op := op, value := value }
        | some (op2, value2, ratio2) =>
          let value2 ← valueOf (ratio2.map fun _ => ratio.getD 0) value2
          pure { mqCreateFeature name.idata with op := op, op2 := op2, value := value, value2 := value2 }

/-- `mq_parse_media_feature`, after the opening parenthesis and up to the closing one. -/
def mqParseMediaFeature : MqParser Feature := do
  consumeWhitespace
  match ← Parser.iterate with
  | none => Parser.fail .invalid
  | some nameOrValue =>
    let result ←
      if nameOrValue.type = .ident then do
        consumeWhitespace
        let token ← Parser.peek
        if tokenIsChar token (ch ')') then pure (mqCreateFeature nameOrValue.idata)
        else if tokenIsChar token (ch ':') then do
          let _ ← Parser.iterate
          consumeWhitespace
          match ← Parser.iterate with
          | none => Parser.fail .invalid
          | some token =>
            if !isNameOrValue token then Parser.fail .invalid
            else
              consumeWhitespace
              let ratio ← optionalRatio token token
              let value ← valueOf ratio token
              consumeWhitespace
              pure (convertToLevel4 { mqCreateFeature nameOrValue.idata with op := .eq, value := value })
        else do
          let result ← mqParseRange nameOrValue
          consumeWhitespace
          pure result
      else do
        let result ← mqParseRange nameOrValue
        consumeWhitespace
        pure result
    let token ← Parser.iterate
    if !tokenIsChar token (ch ')') then Parser.fail .invalid else pure result

/-- The closing bracket of an opening one. -/
def closing (t : Token) : Option UInt8 :=
  if isChar t (ch '(') then some (ch ')')
  else if isChar t (ch '[') then some (ch ']')
  else if isChar t 0x7b then some 0x7d
  else none

def isClose (t : Token) : Bool := isChar t (ch ')') || isChar t (ch ']') || isChar t 0x7d

/-- `mq_parse_consume_any_value`: the loop goes on until the bracket it was given, so without one
it ends only with an error. -/
def consumeAnyValue : Nat → Option UInt8 → MqParser Unit
  | 0, _ => Parser.fail .fuel
  | n + 1, until? => do
    consumeWhitespace
    match ← Parser.iterate with
    | none => Parser.fail .invalid
    | some token =>
      if token.type = .invalidString then Parser.fail .invalid
      else if token.type = .char then
        if until?.any (isChar token) then pure ()
        else if isClose token then Parser.fail .invalid
        else
          match closing token with
          | some close => do
            consumeAnyValue n (some close)
            consumeAnyValue n until?
          | none => consumeAnyValue n until?
      else consumeAnyValue n until?

def mqParseGeneralEnclosed : MqParser Unit := do
  match ← Parser.iterate with
  | none => Parser.fail .invalid
  | some token =>
    match token.type with
    | .function => do
      Parser.looking fun ts => consumeAnyValue (ts.length + 1) (some (ch ')'))
      let token ← Parser.peek
      if !tokenIsChar token (ch ')') then Parser.fail .invalid else pure ()
    | .ident => Parser.looking fun ts => consumeAnyValue (ts.length + 1) none
    | _ => Parser.fail .invalid

/-- The end of `mq_parse_media_in_parens`: the general enclosed text from the saved position. -/
def orGeneralEnclosed (first : MqParser Part) : MqParser Part where
  run ts :=
    match first.run ts with
    | (.error .invalid, _) => (mqParseGeneralEnclosed >>= fun _ => pure .null).run ts
    | outcome => outcome

/-- The condition between two parentheses. Where the closing one does not follow, that is an error
at once; where there is no condition, the text may be a general enclosed one. -/
def mqParseNested (condition : MqParser Part) : MqParser Part where
  run ts :=
    match condition.run ts with
    | (.ok cond, rest) =>
      if tokenIsChar rest.head? (ch ')') then (.ok cond, rest.tail) else (.error .invalid, rest.tail)
    | (.error .invalid, _) => (orGeneralEnclosed (Parser.fail .invalid)).run ts
    | outcome => outcome

/-- `mq_parse_media_in_parens`, with the parser of the conditions inside. -/
def mqParseMediaInParens (condition : MqParser Part) : MqParser Part := do
  let token ← Parser.iterate
  if !tokenIsChar token (ch '(') then Parser.fail .invalid
  else
    consumeWhitespace
    match ← Parser.peek with
    | none => Parser.fail .invalid
    | some token =>
      if isChar token (ch '(') || isKeyword token (lit "not") then mqParseNested condition
      else if isNameOrValue token then orGeneralEnclosed (Part.feature <$> mqParseMediaFeature)
      else orGeneralEnclosed (Parser.fail .invalid)

def endsCondition (token : Token) : Bool := isChar token (ch ')') || isChar token (ch ',')

/-- Which of `and` and `or` joins the parts: the last one read, if any. -/
abbrev Joiner := Option Bool

/-- The token between two parts: `and` or `or`, the same one each time. -/
def mqParseJoiner (permitOr : Bool) (op : Joiner) (token : Token) : MqParser Joiner :=
  if token.type ≠ .ident then Parser.fail .invalid
  else if caselessIsEqual token.idata (lit "and") then
    if op = some true then Parser.fail .invalid else pure (some false)
  else if caselessIsEqual token.idata (lit "or") then
    if permitOr = false ∨ op = some false then Parser.fail .invalid else pure (some true)
  else Parser.fail .invalid

/-- The loop of `mq_parse_condition` over the parts and what joins them. After `and` or `or` the
loop's test is made on that word, so another round follows whatever comes next. -/
def mqConditionLoop (inParens : MqParser Part) (permitOr : Bool) :
    Nat → Joiner → List Part → MqParser (Joiner × List Part)
  | 0, _, _ => Parser.fail .fuel
  | n + 1, op, parts => do
    let part ← inParens
    consumeWhitespace
    let parts := parts ++ [part]
    match ← Parser.peek with
    | none => pure (op, parts)
    | some token =>
      if endsCondition token then pure (op, parts)
      else
        let op ← mqParseJoiner permitOr op token
        let _ ← Parser.iterate
        consumeWhitespace
        mqConditionLoop inParens permitOr n op parts

/-- `mq_parse_condition`. The check of its first token lets everything pass that has an interned
string, so that any token but a parenthesis is taken for `not`. -/
def mqParseCondition : Nat → Bool → MqParser Part
  | 0, _ => Parser.fail .fuel
  | n + 1, permitOr => do
    let inParens := mqParseMediaInParens (mqParseCondition n true)
    match ← Parser.peek with
    | none => Parser.fail .invalid
    | some token =>
      if !isChar token (ch '(') then
        if !token.type.interned then Parser.fail .nullRead
        else
          let _ ← Parser.iterate
          consumeWhitespace
          let part ← inParens
          pure (.cond true false [part])
      else
        let (op, parts) ← Parser.looking fun ts => mqConditionLoop inParens permitOr (ts.length + 1) none []
        pure (.cond false (op == some true) parts)

/-- The media types of `mq_parse_type` with their bits of `css_media_type`. -/
def mediaTypes : List (LwcString × UInt64) :=
  [(lit "aural", 0x1), (lit "braille", 0x2), (lit "embossed", 0x4), (lit "handheld", 0x8), (lit "print", 0x10),
    (lit "projection", 0x20), (lit "screen", 0x40), (lit "speech", 0x80), (lit "tty", 0x100), (lit "tv", 0x200),
    (lit "all", 0x3ff)]

def mediaAll : UInt64 := 0x3ff

/-- `mq_parse_type`: no bits for an unknown type, nothing for the words of the grammar. -/
def mqParseType (type : LwcString) : Option UInt64 :=
  match mediaTypes.lookup (insensitive type) with
  | some bits => some bits
  | none =>
    if insensitive type ∈ [lit "not", lit "and", lit "or", lit "only"] then none else some 0

/-- Whether the tokens begin with `not` and an opening parenthesis. -/
def notParen (ts : List Token) : Bool :=
  ts.head?.any (isKeyword · (lit "not")) && tokenIsChar (trim ts.tail).head? (ch '(')

def mqParseConditionAll (permitOr : Bool) : MqParser Part :=
  Parser.looking fun ts => mqParseCondition (ts.length + 1) permitOr

def mqParseTyped (negateType : Bool) (token : Option Token) : MqParser Query :=
  match token with
  | none => Parser.fail .invalid
  | some token =>
    if token.type ≠ .ident then Parser.fail .invalid
    else
      match mqParseType token.idata with
      | none => Parser.fail .invalid
      | some type => do
        consumeWhitespace
        match ← Parser.iterate with
        | none => pure { negateType := negateType, type := type, cond := none }
        | some token =>
          if !isKeyword token (lit "and") then Parser.fail .invalid
          else
            consumeWhitespace
            let cond ← mqParseConditionAll false
            pure { negateType := negateType, type := type, cond := some cond }

def mqParseMediaQuery : MqParser Query := do
  consumeWhitespace
  match ← Parser.peek with
  | none => Parser.fail .nullRead
  | some first =>
    let isCondition ← Parser.looking fun ts => pure (isChar first (ch '(') || notParen ts)
    if isCondition then
      let cond ← mqParseConditionAll true
      pure { negateType := false, type := mediaAll, cond := some cond }
    else
      let _ ← Parser.iterate
      if first.type ≠ .ident then Parser.fail .invalid
      else if isKeyword first (lit "not") then
        consumeWhitespace
        let token ← Parser.iterate
        mqParseTyped true token
      else if isKeyword first (lit "only") then
        consumeWhitespace
        let token ← Parser.iterate
        mqParseTyped false token
      else mqParseTyped false (some first)

/-- `css__mq_parse__create_not_all` -/
def notAll : Query := { negateType := true, type := mediaAll, cond := none }

/-- What `css__mq_parse_media_list` does with an item: an invalid one becomes `not all`. -/
def queryOrNotAll : Except Err Query → Except Err Query
  | .error .invalid => .ok notAll
  | outcome => outcome

/-- The loop of `css__mq_parse_media_list`, from the start of an item on. -/
def mediaListLoop : Nat → List Token → Except Err (List Query)
  | 0, _ => .error .fuel
  | n + 1, ts => do
    let query ← queryOrNotAll (mqParseMediaQuery.run ts).1
    match trim (mqParseMediaQuery.run ts).2 with
    | [] => .ok [query]
    | token :: rest =>
      if isChar token (ch ',') then (query :: ·) <$> mediaListLoop n rest
      else .ok [query]

/-- `css__mq_parse_media_list` -/
def mqParseMediaList (ts : List Token) : Except Err (List Query) :=
  if ts = [] then .ok [] else mediaListLoop (ts.length + 1) ts

theorem forward_consumeWhitespace : (consumeWhitespace : MqParser Unit).Forward := forward_skip _

section Features
variable {e : Err} (serious : e ≠ .invalid)
include serious

theorem steady_invalid {α : Type} (ts : List Token) : (Parser.fail .invalid : MqParser α).Steady e ts :=
  steady_fail serious.symm ts

theorem steady_mqParseRatio (numerator : Token) (ts : List Token) : (mqParseRatio numerator).Steady e ts := by
  unfold mqParseRatio
  repeat' first
    | simp only [steady_invalid serious, steady_pure, steady_iterate]
    | exact steady_skip _ _ | split | dsimp only | refine Steady.bind ?_ fun _ _ _ => ?_

theorem steady_mqPopulateValue (token : Token) (ts : List Token) : (mqPopulateValue token).Steady e ts := by
  unfold mqPopulateValue
  repeat' first | simp only [steady_invalid serious, steady_pure] | split

theorem steady_mqParseOp (token : Option Token) (ts : List Token) : (mqParseOp token).Steady e ts := by
  unfold mqParseOp
  repeat' first | simp only [steady_invalid serious, steady_pure] | split

theorem steady_optionalRatio (value numerator : Token) (ts : List Token) :
    (optionalRatio value numerator).Steady e ts := by
  unfold optionalRatio
  repeat' first
    | simp only [steady_pure, steady_peek, steady_mqParseRatio serious]
    | exact steady_skip _ _ | split | dsimp only | refine Steady.bind ?_ fun _ _ _ => ?_

theorem steady_valueOf (ratio : Option Int) (token : Token) (ts : List Token) : (valueOf ratio token).Steady e ts := by
  unfold valueOf
  split
  · exact steady_pure _ _
  · exact steady_mqPopulateValue serious _ _

theorem steady_mqParseRange2 (op : FeatureOp) (valueOrName : Token) (ts : List Token) :
    (mqParseRange2 op valueOrName).Steady e ts := by
  unfold mqParseRange2
  repeat' first
    | simp only [steady_invalid serious, steady_pure, steady_iterate, steady_mqParseOp serious,
        steady_optionalRatio serious]
    | exact steady_skip _ _ | split | dsimp only | refine Steady.bind ?_ fun _ _ _ => ?_

theorem steady_mqParseRange (nameOrValue : Token) (ts : List Token) : (mqParseRange nameOrValue).Steady e ts := by
  unfold mqParseRange
  repeat' first
    | simp only [steady_invalid serious, steady_pure, steady_iterate, steady_peek,
        steady_mqParseOp serious, steady_optionalRatio serious, steady_valueOf serious]
    | with_reducible exact (steady_mqParseRange2 serious _ _ _).map _
    | exact steady_skip _ _ | split | dsimp only | refine Steady.bind ?_ fun _ _ _ => ?_

theorem steady_mqParseMediaFeature (ts : List Token) : mqParseMediaFeature.Steady e ts := by
  unfold mqParseMediaFeature
  repeat' first
    | simp only [steady_invalid serious, steady_pure, steady_iterate, steady_peek,
        steady_mqParseRange serious, steady_optionalRatio serious, steady_valueOf serious]
    | exact steady_skip _ _ | split | dsimp only | refine Steady.bind ?_ fun _ _ _ => ?_

end Features

theorem forward_mqParseMediaFeature : mqParseMediaFeature.Forward :=
  fun ts => (steady_mqParseMediaFeature (e := .fuel) (by decide) ts).1

theorem forward_consumeAnyValue (n : Nat) : ∀ until?, (consumeAnyValue n until?).Forward := by
  induction n with
  | zero => exact fun _ => forward_fail _
  | succ n ih =>
    intro until?
    unfold consumeAnyValue
    repeat' first
      | simp only [forward_fail, forward_pure, forward_iterate, forward_consumeWhitespace, ih]
      | split | dsimp only | refine Forward.bind ?_ fun _ => ?_

theorem forward_mqParseGeneralEnclosed : mqParseGeneralEnclosed.Forward := by
  unfold mqParseGeneralEnclosed
  repeat' first
    | simp only [forward_fail, forward_pure, forward_iterate, forward_peek]
    | with_reducible exact forward_looking fun _ => forward_consumeAnyValue _ _
    | split | dsimp only | refine Forward.bind ?_ fun _ => ?_

theorem forward_orGeneralEnclosed {first : MqParser Part} (forward : first.Forward) :
    (orGeneralEnclosed first).Forward := by
  intro ts
  have step := forward ts
  simp only [orGeneralEnclosed]
  split
  · exact (forward_mqParseGeneralEnclosed.bind fun _ => forward_pure _) ts
  · exact step

theorem forward_mqParseNested {condition : MqParser Part} (forward : condition.Forward) :
    (mqParseNested condition).Forward := by
  intro ts
  have step := forward ts
  simp only [mqParseNested]
  split
  · rename_i rest outcome
    rw [outcome] at step
    split
    · exact (List.tail_suffix rest).trans step
    · exact (List.tail_suffix rest).trans step
  · exact forward_orGeneralEnclosed (forward_fail _) ts
  · exact step

theorem forward_mqParseMediaInParens {condition : MqParser Part} (forward : condition.Forward) :
    (mqParseMediaInParens condition).Forward := by
  unfold mqParseMediaInParens
  repeat' first
    | simp only [forward_fail, forward_iterate, forward_peek, forward_consumeWhitespace, forward_mqParseNested forward]
    | with_reducible exact forward_orGeneralEnclosed (forward_mqParseMediaFeature.map _)
    | with_reducible exact forward_orGeneralEnclosed (forward_fail _)
    | split | dsimp only | refine Forward.bind ?_ fun _ => ?_

theorem forward_mqParseJoiner (permitOr : Bool) (op : Joiner) (token : Token) :
    (mqParseJoiner permitOr op token).Forward := by
  unfold mqParseJoiner
  repeat' first | simp only [forward_fail, forward_pure] | split

theorem forward_mqConditionLoop {inParens : MqParser Part} (forward : inParens.Forward) (permitOr : Bool) (n : Nat) :
    ∀ op parts, (mqConditionLoop inParens permitOr n op parts).Forward := by
  induction n with
  | zero => exact fun _ _ => forward_fail _
  | succ n ih =>
    intro op parts
    unfold mqConditionLoop
    repeat' first
      | simp only [forward_pure, forward_iterate, forward_peek, forward, forward_consumeWhitespace,
          forward_mqParseJoiner, ih]
      | split | dsimp only | refine Forward.bind ?_ fun _ => ?_

theorem forward_mqParseCondition (n : Nat) : ∀ permitOr, (mqParseCondition n permitOr).Forward := by
  induction n with
  | zero => exact fun _ => forward_fail _
  | succ n ih =>
    intro permitOr
    have inParens := forward_mqParseMediaInParens (ih true)
    unfold mqParseCondition
    repeat' first
      | simp only [forward_fail, forward_pure, forward_iterate, forward_peek, forward_consumeWhitespace, inParens]
      | with_reducible exact forward_looking fun _ => forward_mqConditionLoop inParens _ _ _ _
      | split | dsimp only | refine Forward.bind ?_ fun _ => ?_

theorem forward_mqParseTyped (negateType : Bool) (token : Option Token) : (mqParseTyped negateType token).Forward := by
  unfold mqParseTyped mqParseConditionAll
  repeat' first
    | simp only [forward_fail, forward_pure, forward_iterate, forward_consumeWhitespace]
    | with_reducible exact forward_looking fun _ => forward_mqParseCondition _ _
    | split | dsimp only | refine Forward.bind ?_ fun _ => ?_

theorem forward_mqParseMediaQuery : mqParseMediaQuery.Forward := by
  unfold mqParseMediaQuery mqParseConditionAll
  repeat' first
    | simp only [forward_fail, forward_pure, forward_iterate, forward_peek,
        forward_consumeWhitespace, forward_mqParseTyped]
    | with_reducible exact forward_looking fun _ => forward_mqParseCondition _ _
    | with_reducible exact forward_looking fun _ => forward_pure _
    | split | dsimp only | refine Forward.bind ?_ fun _ => ?_

end Besra.MqParse
