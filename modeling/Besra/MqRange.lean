import Besra.MqGrammar

/-!
Ranges of the width and the height in media queries: what `mq_parse_media_feature` makes of the four ways to write
one, with white space anywhere between the tokens, and what `mq_match_feature` says of it.
-/
namespace Besra.MqRange
open Lwc Cursor Besra.Lex Number MqParse MqGrammar

inductive Side where
  | width
  | height
deriving DecidableEq

def Side.word : Side → LwcString
  | .width => lit "width"
  | .height => lit "height"

def Side.client (media : Media) : Side → Int
  | .width => media.width
  | .height => media.height

inductive Length where
  | dim (len : Int) (unit : CssUnit)
  | zero
deriving DecidableEq

def Length.pixels (media : Media) : Length → Int
  | .dim len unit => media.pixels len unit
  | .zero => 0

def Compares : FeatureOp → Int → Int → Prop
  | .bool, _, _ => False
  | .lt, x, y => x < y
  | .lte, x, y => x ≤ y
  | .eq, x, y => x = y
  | .gte, x, y => y ≤ x
  | .gt, x, y => y < x

def mirror : FeatureOp → FeatureOp
  | .lt => .gt
  | .lte => .gte
  | .gte => .lte
  | .gt => .lt
  | op => op

theorem compares_mirror (op : FeatureOp) (x y : Int) : Compares (mirror op) y x ↔ Compares op x y := by
  cases op <;> simp only [mirror, Compares]
  exact eq_comm

/-- The ranges: `name op v`, `v op name`, `v op name op v`, `min-name: v` and `max-name: v`. -/
inductive Range where
  | nameFirst (side : Side) (op : FeatureOp) (v : Length)
  | valueFirst (v : Length) (op : FeatureOp) (side : Side)
  | double (v : Length) (op : FeatureOp) (side : Side) (op2 : FeatureOp) (v2 : Length)
  | least (side : Side) (v : Length)
  | most (side : Side) (v : Length)

def Range.Holds (media : Media) : Range → Prop
  | .nameFirst side op v => Compares op (side.client media) (v.pixels media)
  | .valueFirst v op side => Compares op (v.pixels media) (side.client media)
  | .double v op side op2 v2 =>
    Compares op (v.pixels media) (side.client media) ∧ Compares op2 (side.client media) (v2.pixels media)
  | .least side v => v.pixels media ≤ side.client media
  | .most side v => side.client media ≤ v.pixels media

def opText : FeatureOp → LwcString
  | .bool => []
  | .lt => lit "<"
  | .lte => lit "<="
  | .eq => lit "="
  | .gte => lit ">="
  | .gt => lit ">"

def IsOp (t : Token) (op : FeatureOp) : Prop := t.type = .char ∧ op ≠ .bool ∧ t.idata = opText op

def IsName (before : LwcString) (t : Token) (side : Side) : Prop :=
  t.type = .ident ∧ caselessIsEqual t.idata (before ++ side.word) = true

def IsLength (t : Token) : Length → Prop
  | .dim len unit =>
    t.type = .dimension ∧ (numberFromString t.idata false).1 = len ∧
      parseUnitKeyword (numberFromString t.idata false).2 = some unit
  | .zero => t.type = .number ∧ ∀ c ∈ t.idata, isDigit c = true → c = ch '0'

/-- How a range is written, without white space. -/
inductive Spells : List Token → Range → Prop
  | nameFirst {name o l : Token} {side : Side} {op : FeatureOp} {v : Length} (isName : IsName [] name side)
      (isOp : IsOp o op) (isLength : IsLength l v) : Spells [name, o, l] (.nameFirst side op v)
  | valueFirst {name o l : Token} {side : Side} {op : FeatureOp} {v : Length} (isLength : IsLength l v)
      (isOp : IsOp o op) (isName : IsName [] name side) : Spells [l, o, name] (.valueFirst v op side)
  | double {name o o2 l l2 : Token} {side : Side} {op op2 : FeatureOp} {v v2 : Length} (isLength : IsLength l v)
      (isOp : IsOp o op) (isName : IsName [] name side) (isOp2 : IsOp o2 op2) (isLength2 : IsLength l2 v2)
      (same : sameDirection op op2 = true) : Spells [l, o, name, o2, l2] (.double v op side op2 v2)
  | least {name colon l : Token} {side : Side} {v : Length} (isName : IsName (lit "min-") name side)
      (isColon : isChar colon (ch ':') = true) (isLength : IsLength l v) : Spells [name, colon, l] (.least side v)
  | most {name colon l : Token} {side : Side} {v : Length} (isName : IsName (lit "max-") name side)
      (isColon : isChar colon (ch ':') = true) (isLength : IsLength l v) : Spells [name, colon, l] (.most side v)

variable {t : Token} {before : LwcString} {f : Feature} {range : Range}

theorem mqParseOp_of_isOp {op : FeatureOp} (isOp : IsOp t op) : mqParseOp (some t) = pure op := by
  obtain ⟨type, some, text⟩ := isOp
  cases op with
  | bool => exact absurd rfl some
  | _ =>
    simp only [mqParseOp, type, text]
    rfl

def StoredAs (value : Value) : Length → Prop
  | .dim len unit => value = .dim len unit
  | .zero => ∃ n, value = .num n

theorem mqPopulateValue_of_isLength {v : Length} (isLength : IsLength t v) :
    ∃ value, mqPopulateValue t = pure value ∧ StoredAs value v := by
  cases v with
  | dim len unit =>
    obtain ⟨type, same, found⟩ := isLength
    exact ⟨.dim len unit, by simp only [mqPopulateValue, type, reduceCtorEq, if_false, if_true, found, same], rfl⟩
  | zero =>
    exact ⟨.num (numberFromString t.idata false).1, by simp only [mqPopulateValue, isLength.1, if_true], _, rfl⟩

theorem IsName.valued {side : Side} (isName : IsName before t side) : isNameOrValue t = true ∧ t.type ≠ .number := by
  simp [isNameOrValue, isName.1]

theorem IsLength.valued {v : Length} (isLength : IsLength t v) : isNameOrValue t = true ∧ t.type ≠ .ident := by
  cases v <;> simp [isNameOrValue, isLength.1]

theorem mqPopulateValue_of_isName {side : Side} (isName : IsName before t side) :
    mqPopulateValue t = pure (.ident t.idata) := by
  simp only [mqPopulateValue, isName.1, reduceCtorEq, if_false, if_true]

theorem bind_optionalRatio {β : Type} {value : Token} (numerator : Token) {ts : List Token}
    (other : value.type ≠ .number ∨ tokenIsChar ts.head? (ch '/') = false) (f : Option Int → MqParser β) :
    (optionalRatio value numerator >>= f).run ts = (f none).run ts := by
  have none : (optionalRatio value numerator).run ts = (.ok none, ts) := by
    rcases other with other | other <;> simp [optionalRatio, other]
  exact Parser.bind_ok none

theorem IsOp.not_char {op : FeatureOp} (isOp : IsOp t op) :
    isChar t (ch ')') = false ∧ isChar t (ch ':') = false ∧ isChar t (ch '/') = false := by
  obtain ⟨type, -, text⟩ := isOp
  simp only [isChar, type, text]
  cases op <;> decide

section
variable {l name o close : Token} {v : Length} {side : Side} {op : FeatureOp} {value : Value} (isLength : IsLength l v)
  (populates : mqPopulateValue l = pure value) (isOp : IsOp o op) (closes : isChar close (ch ')') = true)
include isLength isOp

include populates closes in
theorem range_valueFirst (isName : IsName [] name side) {ts ts' ts'' rest : List Token} (first : trim ts = o :: ts')
    (second : trim ts' = name :: ts'') (last : trim ts'' = close :: rest) :
    (mqParseRange l).run ts =
      (.ok { mqCreateFeature name.idata with op := op, value := value }, close :: rest) := by
  obtain ⟨valued, other⟩ := isLength.valued
  obtain ⟨named, number⟩ := isName.valued
  unfold mqParseRange
  simp [valued, other, named, isName.1, bind_optionalRatio, bind_optionalRatio o (.inl number), isOp.not_char, first,
    second, last, mqParseOp_of_isOp isOp, tokenIsChar, closes, valueOf, populates]

include populates in
theorem range_double (isName : IsName [] name side) {o2 l2 : Token} {op2 : FeatureOp} {v2 : Length} {value2 : Value}
    (isOp2 : IsOp o2 op2) (isLength2 : IsLength l2 v2) (populates2 : mqPopulateValue l2 = pure value2)
    (same : sameDirection op op2 = true) {ts ts' ts'' ts3 ts4 rest : List Token} (first : trim ts = o :: ts')
    (second : trim ts' = name :: ts'') (third : trim ts'' = o2 :: ts3) (fourth : trim ts3 = l2 :: ts4)
    (last : trim ts4 = close :: rest) :
    (mqParseRange l).run ts =
      (.ok { mqCreateFeature name.idata with op := op, op2 := op2, value := value, value2 := value2 },
        close :: rest) := by
  obtain ⟨valued, other⟩ := isLength.valued
  obtain ⟨valued2, -⟩ := isLength2.valued
  obtain ⟨named, number⟩ := isName.valued
  have range2 : (mqParseRange2 op name).run (o2 :: ts3) = (.ok (op2, l2, none), close :: rest) := by
    unfold mqParseRange2
    simp [mqParseOp_of_isOp isOp2, same, fourth, last, valued2, bind_optionalRatio o2 (.inl number)]
  have map2 : (some <$> mqParseRange2 op name).run (o2 :: ts3) = (.ok (some (op2, l2, none)), close :: rest) :=
    Parser.map_ok range2
  unfold mqParseRange
  simp [valued, other, named, isName.1, bind_optionalRatio, bind_optionalRatio o (.inl number), isOp.not_char, first,
    second, third, mqParseOp_of_isOp isOp, tokenIsChar, isOp2.not_char, Parser.bind_ok map2, valueOf, populates, populates2]

include closes in
theorem range_nameFirst (isName : IsName [] name side) {ts ts' ts'' rest : List Token}
    (first : trim ts = o :: ts') (second : trim ts' = l :: ts'') (last : trim ts'' = close :: rest) :
    (mqParseRange name).run ts =
      (.ok { mqCreateFeature name.idata with op := invertOp op, value := .ident name.idata }, close :: rest) := by
  obtain ⟨valued, -⟩ := isLength.valued
  obtain ⟨named, number⟩ := isName.valued
  have slash : isChar close (ch '/') = false := isChar_other closes (by decide)
  have finite : caselessIsEqual name.idata (lit "infinite") = false := by
    have same : insensitive name.idata = insensitive ([] ++ side.word) := by simpa [caselessIsEqual] using isName.2
    rw [caselessIsEqual, same]
    cases side <;> decide
  unfold mqParseRange
  simp [named, valued, isName.1, finite, bind_optionalRatio, bind_optionalRatio name (.inl number), slash, tokenIsChar,
    first, second, last, mqParseOp_of_isOp isOp, valueOf, mqPopulateValue_of_isName isName]

end

theorem IsName.insensitive {side : Side} (isName : IsName before t side) :
    insensitive t.idata = insensitive before ++ side.word := by
  have same : Lwc.insensitive t.idata = Lwc.insensitive (before ++ side.word) := by
    simpa [caselessIsEqual] using isName.2
  rw [same, Lwc.insensitive, List.map_append]
  congr 1
  cases side <;> rfl

/-- What is stored for a range. Where the name comes first, its text is the value. -/
def Kept : Range → Feature → Prop
  | .nameFirst side op _, f => ∃ word, f = { name := side.word, op := invertOp op, value := .ident word }
  | .valueFirst v op side, f => ∃ value, StoredAs value v ∧ f = { name := side.word, op := op, value := value }
  | .double v op side op2 v2, f => op2 ≠ .bool ∧ ∃ value value2, StoredAs value v ∧ StoredAs value2 v2 ∧
    f = { name := side.word, op := op, op2 := op2, value := value, value2 := value2 }
  | .least side v, f => ∃ value, StoredAs value v ∧ f = { name := side.word, op := .lte, value := value }
  | .most side v, f => ∃ value, StoredAs value v ∧ f = { name := side.word, op := .gte, value := value }

theorem feature_of_length {l : Token} {v : Length} (isLength : IsLength l v) {ts ts' rest : List Token} {close : Token}
    {f : Feature} (first : trim ts = l :: ts') (range : (mqParseRange l).run ts' = (.ok f, close :: rest))
    (closes : isChar close (ch ')') = true) : mqParseMediaFeature.run ts = (.ok f, rest) := by
  unfold mqParseMediaFeature
  simp [first, isLength.valued, Parser.bind_ok range, isSpace_of_isChar closes, tokenIsChar, closes]

theorem feature_of_name {name o : Token} {side : Side} {op : FeatureOp} (isName : IsName [] name side) (isOp : IsOp o op)
    {ts ts' ts'' rest : List Token} {close : Token} {f : Feature} (first : trim ts = name :: ts')
    (second : trim ts' = o :: ts'') (range : (mqParseRange name).run (o :: ts'') = (.ok f, close :: rest))
    (closes : isChar close (ch ')') = true) : mqParseMediaFeature.run ts = (.ok f, rest) := by
  unfold mqParseMediaFeature
  simp [first, second, isName.1, isOp.not_char, Parser.bind_ok range, isSpace_of_isChar closes, tokenIsChar, closes]

theorem feature_of_colon {name colon l : Token} {side : Side} {before : LwcString} {v : Length} {value : Value}
    (isName : IsName before name side) (isColon : isChar colon (ch ':') = true) (isLength : IsLength l v)
    (populates : mqPopulateValue l = pure value) {ts ts' ts'' ts3 rest : List Token} {close : Token}
    (first : trim ts = name :: ts') (second : trim ts' = colon :: ts'') (third : trim ts'' = l :: ts3)
    (last : trim ts3 = close :: rest) (closes : isChar close (ch ')') = true) :
    mqParseMediaFeature.run ts =
      (.ok (convertToLevel4 { mqCreateFeature name.idata with op := .eq, value := value }), rest) := by
  have other : isChar colon (ch ')') = false := isChar_other isColon (by decide)
  have slash : isChar close (ch '/') = false := isChar_other closes (by decide)
  unfold mqParseMediaFeature
  simp [first, second, third, last, isName.1, isColon, other, tokenIsChar, isLength.valued, bind_optionalRatio, slash,
    valueOf, populates, isSpace_of_isChar closes, closes]

theorem next_token {body us : List Token} (parts : solid body = t :: us) (more : List Token) :
    ∃ body', trim (body ++ more) = t :: (body' ++ more) ∧ solid body' = us := by
  obtain ⟨body', trimmed, rest⟩ := trim_of_solid parts
  exact ⟨body', trim_append_of_cons trimmed more, rest⟩

theorem three_tokens {body us : List Token} {t₁ t₂ t₃ : Token} (parts : solid body = t₁ :: t₂ :: t₃ :: us)
    (more : List Token) :
    ∃ body1 body2 body3, trim (body ++ more) = t₁ :: (body1 ++ more) ∧ trim (body1 ++ more) = t₂ :: (body2 ++ more) ∧
      trim (body2 ++ more) = t₃ :: (body3 ++ more) ∧ solid body3 = us := by
  obtain ⟨body1, first, parts⟩ := next_token parts more
  obtain ⟨body2, second, parts⟩ := next_token parts more
  obtain ⟨body3, third, parts⟩ := next_token parts more
  exact ⟨body1, body2, body3, first, second, third, parts⟩

theorem last_token {body : List Token} {close : Token} (parts : solid body = []) (closes : isChar close (ch ')') = true)
    (more : List Token) : trim (body ++ close :: more) = close :: more := by
  rw [trim_append (blank_of_trim (solid_eq_nil.mp parts)), trim_cons_of_not_space (isSpace_of_isChar closes)]

theorem create_of_isName {name : Token} {side : Side} (isName : IsName [] name side) :
    mqCreateFeature name.idata = { name := side.word } := by
  rw [mqCreateFeature, isName.insensitive]
  rfl

theorem convert_min {name : Token} {side : Side} (isName : IsName (lit "min-") name side) (value : Value) :
    convertToLevel4 { mqCreateFeature name.idata with op := .eq, value := value } =
      { name := side.word, op := .lte, value := value } := by
  simp only [mqCreateFeature, isName.insensitive]
  cases side <;> rfl

theorem convert_max {name : Token} {side : Side} (isName : IsName (lit "max-") name side) (value : Value) :
    convertToLevel4 { mqCreateFeature name.idata with op := .eq, value := value } =
      { name := side.word, op := .gte, value := value } := by
  simp only [mqCreateFeature, isName.insensitive]
  cases side <;> rfl

theorem reads_range {body : List Token} {range : Range} {close : Token} (spells : Spells (solid body) range)
    (closes : isChar close (ch ')') = true) (more : List Token) :
    ∃ f, mqParseMediaFeature.run (body ++ close :: more) = (.ok f, more) ∧ Kept range f := by
  generalize parts : solid body = us at spells
  cases spells with
  | nameFirst isName isOp isLength =>
    obtain ⟨body1, body2, body3, first, second, third, parts⟩ := three_tokens parts (close :: more)
    have second' := trim_cons_of_not_space (trim_head second) (body2 ++ close :: more)
    have read := range_nameFirst isLength isOp closes isName second' third (last_token parts closes more)
    rw [create_of_isName isName] at read
    exact ⟨_, feature_of_name isName isOp first second read closes, _, rfl⟩
  | valueFirst isLength isOp isName =>
    obtain ⟨value, populates, stored⟩ := mqPopulateValue_of_isLength isLength
    obtain ⟨body1, body2, body3, first, second, third, parts⟩ := three_tokens parts (close :: more)
    have read := range_valueFirst isLength populates isOp closes isName second third (last_token parts closes more)
    rw [create_of_isName isName] at read
    exact ⟨_, feature_of_length isLength first read closes, value, stored, rfl⟩
  | double isLength isOp isName isOp2 isLength2 same =>
    obtain ⟨value, populates, stored⟩ := mqPopulateValue_of_isLength isLength
    obtain ⟨value2, populates2, stored2⟩ := mqPopulateValue_of_isLength isLength2
    obtain ⟨body1, body2, body3, first, second, third, parts⟩ := three_tokens parts (close :: more)
    obtain ⟨body4, fourth, parts⟩ := next_token parts (close :: more)
    obtain ⟨body5, fifth, parts⟩ := next_token parts (close :: more)
    have read := range_double isLength populates isOp isName isOp2 isLength2 populates2 same second third fourth fifth
      (last_token parts closes more)
    rw [create_of_isName isName] at read
    exact ⟨_, feature_of_length isLength first read closes, isOp2.2.1, value, value2, stored, stored2, rfl⟩
  | least isName isColon isLength =>
    obtain ⟨value, populates, stored⟩ := mqPopulateValue_of_isLength isLength
    obtain ⟨body1, body2, body3, first, second, third, parts⟩ := three_tokens parts (close :: more)
    have read := feature_of_colon isName isColon isLength populates first second third (last_token parts closes more) closes
    exact ⟨_, read, value, stored, convert_min isName _⟩
  | most isName isColon isLength =>
    obtain ⟨value, populates, stored⟩ := mqPopulateValue_of_isLength isLength
    obtain ⟨body1, body2, body3, first, second, third, parts⟩ := three_tokens parts (close :: more)
    have read := feature_of_colon isName isColon isLength populates first second third (last_token parts closes more) closes
    exact ⟨_, read, value, stored, convert_max isName _⟩

def Range.IsNameFirst : Range → Prop
  | .nameFirst _ _ _ => True
  | _ => False

/-- A zero without a unit is among the lengths. -/
def Range.HasZero : Range → Prop
  | .nameFirst _ _ v | .valueFirst v _ _ | .least _ v | .most _ v => v = .zero
  | .double v _ _ _ v2 => v = .zero ∨ v2 = .zero

theorem match_side (media : Media) {side : Side} (name : f.name = side.word) :
    mqMatchFeature media f =
      (matchLengthOp1 media f.op f.value (side.client media) &&
        matchLengthOp2 media f.op2 f.value2 (side.client media)) := by
  cases side with
  | width => simp [mqMatchFeature, name, Side.word, isEqual, Side.client]
  | height =>
    have other : lit "height" ≠ lit "width" := by decide
    simp [mqMatchFeature, name, Side.word, isEqual, Side.client, other]

theorem matchLengthOp1_iff {value : Value} {v : Length} (stored : StoredAs value v) (media : Media) (op : FeatureOp)
    (client : Int) : matchLengthOp1 media op value client = true ↔ v ≠ .zero ∧ Compares op (v.pixels media) client := by
  cases v with
  | dim len unit =>
    obtain rfl := stored
    cases op <;> simp [matchLengthOp1, Compares, Length.pixels]
  | zero =>
    obtain ⟨n, rfl⟩ := stored
    simp [matchLengthOp1]

theorem matchLengthOp2_iff {value : Value} {v : Length} (stored : StoredAs value v) (media : Media) {op : FeatureOp}
    (some : op ≠ .bool) (client : Int) :
    matchLengthOp2 media op value client = true ↔ v ≠ .zero ∧ Compares op client (v.pixels media) := by
  cases v with
  | dim len unit =>
    obtain rfl := stored
    cases op <;> simp [matchLengthOp2, Compares, Length.pixels] at some ⊢
  | zero =>
    obtain ⟨n, rfl⟩ := stored
    simp [matchLengthOp2, some]

theorem kept_matches (kept : Kept range f) (media : Media) :
    mqMatchFeature media f = true ↔ ¬ (range.IsNameFirst ∨ range.HasZero) ∧ range.Holds media := by
  cases range with
  | nameFirst side op v =>
    obtain ⟨word, rfl⟩ := kept
    rw [match_side media rfl]
    simp [matchLengthOp1, Range.IsNameFirst]
  | valueFirst v op side =>
    obtain ⟨value, stored, rfl⟩ := kept
    rw [match_side media rfl]
    simp [matchLengthOp1_iff stored, matchLengthOp2, Range.IsNameFirst, Range.HasZero, Range.Holds]
  | double v op side op2 v2 =>
    obtain ⟨some, value, value2, stored, stored2, rfl⟩ := kept
    rw [match_side media rfl]
    simp only [matchLengthOp1_iff stored, matchLengthOp2_iff stored2 media some, Range.IsNameFirst, Range.HasZero,
      Range.Holds, Bool.and_eq_true, ne_eq, false_or]
    tauto
  | least side v =>
    obtain ⟨value, stored, rfl⟩ := kept
    rw [match_side media rfl]
    simp [matchLengthOp1_iff stored, matchLengthOp2, Range.IsNameFirst, Range.HasZero, Range.Holds, Compares]
  | most side v =>
    obtain ⟨value, stored, rfl⟩ := kept
    rw [match_side media rfl]
    simp [matchLengthOp1_iff stored, matchLengthOp2, Range.IsNameFirst, Range.HasZero, Range.Holds, Compares]

def Range.mirrored : Range → Option Range
  | .nameFirst side op v => some (.valueFirst v (mirror op) side)
  | _ => none

theorem holds_mirrored {range' : Range} (mirrored : range.mirrored = some range') (media : Media) :
    range.IsNameFirst ∧ (range'.Holds media ↔ range.Holds media) := by
  cases range with
  | nameFirst side op v =>
    obtain rfl := Option.some.inj mirrored
    exact ⟨trivial, compares_mirror op _ _⟩
  | _ => cases mirrored

/-- A feature matches when its range holds, and as the one does with the value first that says the same. -/
def Faithful (media : Media) (range : Range) (f : Feature) : Prop :=
  (mqMatchFeature media f = true ↔ range.Holds media) ∧
    ∀ range' body close more g, range.mirrored = some range' → Spells (solid body) range' →
      isChar close (ch ')') = true → mqParseMediaFeature.run (body ++ close :: more) = (.ok g, more) →
      mqMatchFeature media f = mqMatchFeature media g

/-- A range is read, and the feature is faithful to it unless the range holds and the name comes first or a zero has no
unit. -/
theorem feature_means_iff {body : List Token} {range : Range} {close : Token} (spells : Spells (solid body) range)
    (closes : isChar close (ch ')') = true) (more : List Token) (media : Media) :
    ∃ f, mqParseMediaFeature.run (body ++ close :: more) = (.ok f, more) ∧
      (Faithful media range f ↔ ¬ ((range.IsNameFirst ∨ range.HasZero) ∧ range.Holds media)) := by
  obtain ⟨f, read, kept⟩ := reads_range spells closes more
  have found := kept_matches kept media
  refine ⟨f, read, ?_⟩
  constructor
  · rintro ⟨same, -⟩ ⟨blind, holds⟩
    exact (found.mp (same.mpr holds)).1 blind
  · intro seen
    refine ⟨by rw [found]; tauto, fun range' body' close' more' g mirrored spells' closes' read' => ?_⟩
    obtain ⟨g', read'', kept'⟩ := reads_range spells' closes' more'
    obtain rfl : g = g' := by
      rw [read'] at read''
      exact Except.ok.inj (Prod.mk.inj read'').1
    obtain ⟨named, same⟩ := holds_mirrored mirrored media
    rw [Bool.eq_iff_iff, found, kept_matches kept' media, same]
    tauto

/-- The tokens of `width >= 600px`. -/
def widthFirst : List Token := [⟨.ident, lit "width"⟩, ⟨.char, lit ">="⟩, ⟨.dimension, lit "600px"⟩]

def leastWidth : Range := .nameFirst .width .gte (.dim 614400 .px)

theorem widthFirst_spells : Spells (solid widthFirst) leastWidth :=
  .nameFirst ⟨rfl, by decide⟩ ⟨rfl, by decide, rfl⟩ ⟨rfl, by decide, by decide⟩

/-- A width of 100 pixels is not at least 600 pixels. -/
theorem narrow_means :
    ∃ f, mqParseMediaFeature.run (widthFirst ++ [⟨.char, lit ")"⟩]) = (.ok f, []) ∧
      (Faithful { screen with width := 102400 } leastWidth f ↔
        ¬ ((leastWidth.IsNameFirst ∨ leastWidth.HasZero) ∧ leastWidth.Holds { screen with width := 102400 })) :=
  feature_means_iff widthFirst_spells (by decide) [] _

/-- A width of 600 pixels is at least 600 pixels, but `(width >= 600px)` does not match. -/
theorem wide_unmatched :
    ∃ f, mqParseMediaFeature.run (widthFirst ++ [⟨.char, lit ")"⟩]) = (.ok f, []) ∧
      ¬ Faithful { screen with width := 614400 } leastWidth f := by
  refine ⟨_, rfl, ?_⟩
  rintro ⟨same, -⟩
  have holds : leastWidth.Holds { screen with width := 614400 } := le_refl (614400 : Int)
  cases same.mpr holds

end Besra.MqRange
