import Besra.MqParse

/-!
What a media query list says: the matching of `select/mq.h` on parsed queries, and the grammar quoted in the
comments of `parse/mq.c`, as a relation between tokens and queries, with the truth of a query under Media Queries. The
strict form of the grammar is the part that the parser reads; the lax form adds what the parser refuses.
-/
namespace Besra.MqGrammar
open Lwc Cursor Besra.Lex Number MqParse

/-- `css_media` as far as `mq.h` reads it, with the length conversion of the unit context. Every
value of `css_media_type` has a bit of CSS_MEDIA_ALL. -/
structure Media where
  type : UInt64
  width : Int
  height : Int
  prefersColorScheme : Option LwcString
  len2px : Int → CssUnit → Int
  typed : mediaAll &&& type ≠ 0

def screen : Media where
  type := 0x40
  width := 0
  height := 0
  prefersColorScheme := none
  len2px len _ := len
  typed := by decide

def Media.pixels (media : Media) (len : Int) (unit : CssUnit) : Int :=
  if unit = .px then len else media.len2px len unit

/-- `mq_match_feature_range_length_op1` -/
def matchLengthOp1 (media : Media) (op : FeatureOp) (value : Value) (client : Int) : Bool :=
  match value with
  | .dim len unit =>
    let v := media.pixels len unit
    match op with
    | .bool => false
    | .lt => v < client
    | .lte => v ≤ client
    | .eq => v = client
    | .gte => client ≤ v
    | .gt => client < v
  | _ => false

/-- `mq_match_feature_range_length_op2` -/
def matchLengthOp2 (media : Media) (op : FeatureOp) (value : Value) (client : Int) : Bool :=
  if op = .bool then true
  else
    match value with
    | .dim len unit =>
      let v := media.pixels len unit
      match op with
      | .bool => false
      | .lt => client < v
      | .lte => client ≤ v
      | .eq => client = v
      | .gte => v ≤ client
      | .gt => v < client
    | _ => false

/-- `mq_match_feature_eq_ident_op1` -/
def matchIdentOp1 (op : FeatureOp) (value : Value) (client : Option LwcString) : Bool :=
  match value, client, op with
  | .ident word, some client, .eq => isEqual word client
  | _, _, _ => false

def mqMatchFeature (media : Media) (f : Feature) : Bool :=
  if isEqual f.name (lit "width") then
    matchLengthOp1 media f.op f.value media.width && matchLengthOp2 media f.op2 f.value2 media.width
  else if isEqual f.name (lit "height") then
    matchLengthOp1 media f.op f.value media.height && matchLengthOp2 media f.op2 f.value2 media.height
  else if isEqual f.name (lit "prefers-color-scheme") then
    matchIdentOp1 f.op f.value media.prefersColorScheme || f.op == .bool
  else false

mutual

/-- The match of one part by `mq_match_condition`; without a value where a NULL part is read. -/
def mqMatchPart (media : Media) : Part → Option Bool
  | .feature f => some (mqMatchFeature media f)
  | .cond negate op parts => (mqMatchParts media op parts).map (· != negate)
  | .null => none

/-- The loop of `mq_match_condition` over the parts, which ends at the first that decides. -/
def mqMatchParts (media : Media) (op : Bool) : List Part → Option Bool
  | [] => some (!op)
  | part :: parts => do
    let matched ← mqMatchPart media part
    if matched = op then some op else mqMatchParts media op parts

end

def typeMatches (media : Media) (q : Query) : Bool := q.type &&& media.type != 0

def mqListMatch (media : Media) : List Query → Option Bool
  | [] => some false
  | q :: rest =>
    if typeMatches media q != q.negateType then do
      let matched ← (q.cond.map (mqMatchPart media)).getD (some true)
      if matched then some true else mqListMatch media rest
    else mqListMatch media rest

def kleeneAnd : Option Bool → Option Bool → Option Bool
  | some false, _ => some false
  | _, some false => some false
  | some true, b => b
  | none, _ => none

def kleeneNot (a : Option Bool) : Option Bool := a.map (!·)

def kleeneOr (a b : Option Bool) : Option Bool := kleeneNot (kleeneAnd (kleeneNot a) (kleeneNot b))

mutual

def truth (media : Media) : Part → Option Bool
  | .feature f => some (mqMatchFeature media f)
  | .cond negate op parts =>
    let joined := if op then truthAny media parts else truthAll media parts
    if negate then kleeneNot joined else joined
  | .null => none

def truthAll (media : Media) : List Part → Option Bool
  | [] => some true
  | part :: parts => kleeneAnd (truth media part) (truthAll media parts)

def truthAny (media : Media) : List Part → Option Bool
  | [] => some false
  | part :: parts => kleeneOr (truth media part) (truthAny media parts)

end

/-- The truth of a query: `not` negates the type and the condition together. -/
def queryTruth (media : Media) (q : Query) : Option Bool :=
  let joined := kleeneAnd (some (typeMatches media q)) ((q.cond.map (truth media)).getD (some true))
  if q.negateType then kleeneNot joined else joined

/-- Tokens with their brackets in pairs: what `<any-value>` may hold. -/
inductive AnyValue : List Token → Prop
  | nil : AnyValue []
  | token {t : Token} {rest : List Token} (plain : t.type ≠ .function) (string : t.type ≠ .invalidString)
      (opens : closing t = none) (closes : isClose t = false) (after : AnyValue rest) : AnyValue (t :: rest)
  | function {t r : Token} {inside rest : List Token} (call : t.type = .function) (within : AnyValue inside)
      (closes : isChar r (ch ')') = true) (after : AnyValue rest) : AnyValue (t :: inside ++ r :: rest)
  | bracket {t r : Token} {close : UInt8} {inside rest : List Token} (opens : closing t = some close)
      (within : AnyValue inside) (closes : isChar r close = true) (after : AnyValue rest) :
      AnyValue (t :: inside ++ r :: rest)

/-- The tokens between two parentheses make the feature `f`. What a feature is, is left to its own
parser; a text that begins with `not` is a condition. -/
def IsFeature (ts : List Token) (f : Feature) : Prop :=
  (trim ts).head?.all (fun t => !isKeyword t (lit "not")) = true ∧
    ∀ r rest, isChar r (ch ')') = true → mqParseMediaFeature.run (ts ++ r :: rest) = (.ok f, rest)

/-- `<general-enclosed>`: a function, or a parenthesised identifier with a text that is no feature. -/
inductive GeneralEnclosed : List Token → Prop
  | function {t r : Token} {inside : List Token} (call : t.type = .function) (within : AnyValue inside)
      (some_text : inside ≠ []) (closes : isChar r (ch ')') = true) : GeneralEnclosed (t :: inside ++ [r])
  | parens {l t r : Token} {w inside : List Token} (opens : isChar l (ch '(') = true) (before : Blank w)
      (ident : t.type = .ident) (within : AnyValue inside) (some_text : inside ≠ [])
      (closes : isChar r (ch ')') = true) (other : ∀ f, ¬ IsFeature (w ++ t :: inside) f) :
      GeneralEnclosed (l :: w ++ t :: inside ++ [r])

def joinWord (isOr : Bool) : LwcString := if isOr then lit "or" else lit "and"

inductive Category where
  | inParens
  | chain (isOr : Bool)
  | condition (permitOr : Bool)

/-- `ts` derives from a category with the parts given. The lax grammar has the last two rules'
extensions: white space after a nested negation and general enclosed texts. -/
inductive Derives (lax : Bool) : Category → List Token → List Part → Prop
  | nested {l r : Token} {w ts w' : List Token} {negate op : Bool} {parts : List Part}
      (opens : isChar l (ch '(') = true) (before : Blank w)
      (inside : Derives lax (.condition true) ts [.cond negate op parts]) (after : Blank w')
      (tight : lax = false → negate = true → w' = []) (closes : isChar r (ch ')') = true) :
      Derives lax .inParens (l :: (w ++ ts ++ w' ++ [r])) [.cond negate op parts]
  | feature {l r : Token} {ts : List Token} {f : Feature} (opens : isChar l (ch '(') = true)
      (inside : IsFeature ts f) (closes : isChar r (ch ')') = true) :
      Derives lax .inParens (l :: (ts ++ [r])) [.feature f]
  | enclosed {ts : List Token} (allowed : lax = true) (general : GeneralEnclosed ts) :
      Derives lax .inParens ts [.null]
  | last {isOr : Bool} {ts : List Token} {part : Part} (only : Derives lax .inParens ts [part]) :
      Derives lax (.chain isOr) ts [part]
  | more {isOr : Bool} {t : Token} {ts w w' rest : List Token} {part : Part} {parts : List Part}
      (first : Derives lax .inParens ts [part]) (before : Blank w) (joins : isKeyword t (joinWord isOr) = true)
      (after : Blank w') (others : Derives lax (.chain isOr) rest parts) :
      Derives lax (.chain isOr) (ts ++ (w ++ t :: (w' ++ rest))) (part :: parts)
  | negation {permitOr : Bool} {t : Token} {w ts : List Token} {part : Part}
      (negates : isKeyword t (lit "not") = true) (after : Blank w) (operand : Derives lax .inParens ts [part]) :
      Derives lax (.condition permitOr) (t :: (w ++ ts)) [.cond true false [part]]
  | one {permitOr : Bool} {ts : List Token} {part : Part} (only : Derives lax .inParens ts [part]) :
      Derives lax (.condition permitOr) ts [.cond false false [part]]
  | joined {permitOr isOr : Bool} {ts : List Token} {first second : Part} {parts : List Part}
      (allowed : isOr = true → permitOr = true) (all : Derives lax (.chain isOr) ts (first :: second :: parts)) :
      Derives lax (.condition permitOr) ts [.cond false isOr (first :: second :: parts)]

/-- `[ not | only ]?`, and whether it negates. -/
inductive Modifier : List Token → Bool → Prop
  | absent : Modifier [] false
  | negated {t : Token} {w : List Token} (word : isKeyword t (lit "not") = true) (after : Blank w) :
      Modifier (t :: w) true
  | only {t : Token} {w : List Token} (word : isKeyword t (lit "only") = true) (after : Blank w) :
      Modifier (t :: w) false

/-- `<media-query>` with the query it stands for. -/
inductive WellFormed (lax : Bool) : List Token → Query → Prop
  | condition {w ts w' : List Token} {c : Part} (before : Blank w)
      (inside : Derives lax (.condition true) ts [c]) (after : Blank w') :
      WellFormed lax (w ++ (ts ++ w')) { negateType := false, type := mediaAll, cond := some c }
  | bare {t : Token} {w modifier w' : List Token} {negate : Bool} {bits : UInt64} (before : Blank w)
      (modified : Modifier modifier negate) (ident : t.type = .ident) (known : mqParseType t.idata = some bits)
      (after : Blank w') :
      WellFormed lax (w ++ (modifier ++ t :: w')) { negateType := negate, type := bits, cond := none }
  | typed {t a : Token} {w modifier w' w'' ts w''' : List Token} {negate : Bool} {bits : UInt64} {c : Part}
      (before : Blank w) (modified : Modifier modifier negate) (ident : t.type = .ident)
      (known : mqParseType t.idata = some bits) (between : Blank w') (joins : isKeyword a (lit "and") = true)
      (next : Blank w'') (inside : Derives lax (.condition false) ts [c]) (after : Blank w''') :
      WellFormed lax (w ++ (modifier ++ t :: (w' ++ a :: (w'' ++ (ts ++ w''')))))
        { negateType := negate, type := bits, cond := some c }

def Meaning (item : List Token) (q : Query) : Prop :=
  WellFormed false item q ∨ (∀ r, ¬ WellFormed false item r) ∧ WellFormed true item q

def Malformed (item : List Token) : Prop := ∀ q, ¬ WellFormed true item q

/-- The query that has to stand for an item: `not all` for a malformed one. -/
def Expected (item : List Token) (q : Query) : Prop := Meaning item q ∨ Malformed item ∧ q = notAll

def comma : Token := { type := .char, idata := [ch ','] }

/-- The stack of closing brackets after a token, as the comment in `css__mq_parse_media_list` has it. -/
def track (stack : List UInt8) (t : Token) : List UInt8 :=
  if t.type = .function then ch ')' :: stack
  else
    match closing t, stack with
    | some close, _ => close :: stack
    | none, close :: rest => if isChar t close then rest else stack
    | none, [] => []

def consFirst (t : Token) : List (List Token) → List (List Token)
  | [] => [[t]]
  | item :: rest => (t :: item) :: rest

def splitItems : List UInt8 → List Token → List (List Token)
  | _, [] => [[]]
  | stack, t :: ts =>
    if stack = [] ∧ t = comma then [] :: splitItems [] ts else consFirst t (splitItems (track stack t) ts)

/-- The items of a media query list; an empty list has none. -/
def items (ts : List Token) : List (List Token) := if ts = [] then [] else splitItems [] ts

def join : List (List Token) → List Token
  | [] => []
  | [item] => item
  | item :: rest => item ++ comma :: join rest

def TrueOf (media : Media) (item : List Token) : Prop := ∃ q, Meaning item q ∧ queryTruth media q = some true

/-- A list is parsed and matched item by item: one query for each item, in order, and a match
exactly where some well-formed item is true. -/
def Compositional (media : Media) (ts : List Token) : Prop :=
  ∃ qs, mqParseMediaList ts = .ok qs ∧ List.Forall₂ Expected (items ts) qs ∧
    ∃ matched, mqListMatch media qs = some matched ∧ (matched = true ↔ ∃ item ∈ items ts, TrueOf media item)

end Besra.MqGrammar
