import Besra.MqGrammar
import Mathlib.Data.List.Forall2

/-!
Media query lists item by item. What the strict grammar derives, the parser reads,
whatever follows; so a list keeps its items apart as long as the parser stops at
each comma. A bare media type takes the comma after it for the `and` it looks for.
-/
namespace Besra.Mq
open Lwc Cursor Besra.Lex MqParse MqGrammar Parser List

/-! ### What the parser reads -/

def Follows (rest : List Token) : Prop := (trim rest).head?.all endsCondition = true

variable {parts before : List Part} {ts rest w tail more item left : List Token} {isOr permitOr negate : Bool}
  {t : Token} {word : LwcString} {f : Feature} {k n : Nat} {inParens : MqParser Part} {part c : Part} {op : Joiner}
  {category : Category} {bits : UInt64} {q r : Query} {media : Media} {qs : List Query}

theorem inParens_head (derived : Derives false .inParens ts parts) :
    ∃ l tail, ts = l :: tail ∧ isChar l (ch '(') = true := by
  cases derived with
  | nested opens => exact ⟨_, _, rfl, opens⟩
  | feature opens => exact ⟨_, _, rfl, opens⟩
  | enclosed allowed => cases allowed

theorem chain_head (derived : Derives false (.chain isOr) ts parts) :
    ∃ l tail, ts = l :: tail ∧ isChar l (ch '(') = true := by
  cases derived with
  | last only => exact inParens_head only
  | more first =>
    obtain ⟨l, tail, rfl, opens⟩ := inParens_head first
    exact ⟨l, _, rfl, opens⟩

theorem condition_head (derived : Derives false (.condition permitOr) ts parts) :
    ∃ t tail, ts = t :: tail ∧ (isChar t (ch '(') = true ∨ isKeyword t (lit "not") = true) := by
  cases derived with
  | negation negates => exact ⟨_, _, rfl, .inr negates⟩
  | one only =>
    obtain ⟨l, tail, rfl, opens⟩ := inParens_head only
    exact ⟨l, tail, rfl, .inl opens⟩
  | joined _ all =>
    obtain ⟨l, tail, rfl, opens⟩ := chain_head all
    exact ⟨l, tail, rfl, .inl opens⟩

theorem isSpace_head {t : Token} (head : isChar t (ch '(') = true ∨ isKeyword t (lit "not") = true) :
    isSpace t = false := by
  rcases head with opens | word
  · exact isSpace_of_isChar opens
  · exact isSpace_of_isKeyword word

theorem not_keyword_of_isChar {c : UInt8} (char : isChar t c = true) (word : LwcString) : isKeyword t word = false := by
  simp only [isChar, Bool.and_eq_true, beq_iff_eq] at char
  simp [isKeyword, char.1]

theorem not_isChar_of_keyword (keyword : isKeyword t word = true) (c : UInt8) : isChar t c = false := by
  simp only [isKeyword, Bool.and_eq_true, beq_iff_eq] at keyword
  simp [isChar, keyword.1]

theorem mediaFeature_head (read : mqParseMediaFeature.run ts = (.ok f, rest)) :
    ∃ t tail, trim ts = t :: tail ∧ isNameOrValue t = true := by
  unfold mqParseMediaFeature at read
  simp only [bind_consumeWhitespace, bind_iterate] at read
  rcases trimmed : trim ts with _ | ⟨t, tail⟩
  · rw [trimmed] at read
    simp at read
  · refine ⟨t, tail, rfl, ?_⟩
    rw [trimmed] at read
    simp only [List.head?_cons, tail_cons] at read
    by_contra other
    have ident : t.type ≠ .ident := by
      intro same
      simp [isNameOrValue, same] at other
    rw [if_neg ident] at read
    simp [mqParseRange, other] at read

theorem mediaFeature_trim (ts : List Token) : mqParseMediaFeature.run (trim ts) = mqParseMediaFeature.run ts := by
  unfold mqParseMediaFeature
  simp only [bind_consumeWhitespace, trim_trim]

/-- What the parsers do with the tokens of a category, for every bound that is large enough and
whatever follows. -/
def Reads : Category → List Token → List Part → Prop
  | .inParens, ts, parts => ∀ n rest, ts.length ≤ n → ∃ part, parts = [part] ∧
      (mqParseMediaInParens (mqParseCondition n true)).run (ts ++ rest) = (.ok part, rest)
  | .chain isOr, ts, parts => ∀ n k permitOr op before rest, ts.length ≤ n → ts.length ≤ k →
      (isOr = true → permitOr = true) → op ≠ some (!isOr) → Follows rest →
      (mqConditionLoop (mqParseMediaInParens (mqParseCondition n true)) permitOr k op before).run (ts ++ rest) =
        (.ok (if parts.length = 1 then op else some isOr, before ++ parts), trim rest)
  | .condition permitOr, ts, parts => ∀ n rest, ts.length < n → Follows rest →
      ∃ negate op inner, parts = [.cond negate op inner] ∧
        (mqParseCondition n permitOr).run (ts ++ rest) =
          (.ok (.cond negate op inner), if negate then rest else trim rest)

theorem follows_append (blank : Blank w) (rest : List Token) : Follows (w ++ rest) ↔ Follows rest := by
  simp [Follows, trim_append blank]

theorem follows_close {r : Token} (closes : isChar r (ch ')') = true) (rest : List Token) : Follows (r :: rest) := by
  simp [Follows, isSpace_of_isChar closes, endsCondition, closes]

theorem inParens_of_open {l t : Token} {ts tail : List Token} {condition : MqParser Part}
    (opens : isChar l (ch '(') = true) (trimmed : trim ts = t :: tail) :
    (mqParseMediaInParens condition).run (l :: ts) =
      if (isChar t (ch '(') || isKeyword t (lit "not")) = true then (mqParseNested condition).run (t :: tail)
      else if isNameOrValue t then (orGeneralEnclosed (Part.feature <$> mqParseMediaFeature)).run (t :: tail)
      else (orGeneralEnclosed (Parser.fail .invalid)).run (t :: tail) := by
  simp [mqParseMediaInParens, tokenIsChar, opens, trimmed]

theorem reads_nested {l r : Token} {w ts w' : List Token} {negate op : Bool} {parts : List Part}
    (opens : isChar l (ch '(') = true) (before : Blank w)
    (head : ∃ t tail, ts = t :: tail ∧ (isChar t (ch '(') = true ∨ isKeyword t (lit "not") = true))
    (after : Blank w') (tight : negate = true → w' = []) (closes : isChar r (ch ')') = true)
    (inside : Reads (.condition true) ts [.cond negate op parts]) :
    Reads .inParens (l :: (w ++ ts ++ w' ++ [r])) [.cond negate op parts] := by
  intro n rest enough
  refine ⟨_, rfl, ?_⟩
  obtain ⟨t, tail, rfl, begins⟩ := head
  obtain ⟨negate', op', parts', same, read⟩ :=
    inside n (w' ++ (r :: rest)) (by simp at enough ⊢; omega) ((follows_append after _).mpr (follows_close closes _))
  simp only [List.cons.injEq, Part.cond.injEq, and_true] at same
  obtain ⟨rfl, rfl, rfl⟩ := same
  -- the condition leaves the closing parenthesis: white space before it is passed over by the
  -- loop of a condition with parts, and is not there after a negation
  have left : (if negate then w' ++ (r :: rest) else trim (w' ++ (r :: rest))) = r :: rest := by
    cases negate with
    | true => simp [tight rfl]
    | false => simp [trim_append after, isSpace_of_isChar closes]
  rw [left] at read
  have shape : l :: (w ++ t :: tail ++ w' ++ [r]) ++ rest = l :: (w ++ (t :: tail ++ (w' ++ r :: rest))) := by simp
  have trimmed : trim (w ++ (t :: tail ++ (w' ++ r :: rest))) = t :: (tail ++ (w' ++ r :: rest)) := by
    rw [trim_append before]
    simp [isSpace_head begins]
  have condition : (isChar t (ch '(') || isKeyword t (lit "not")) = true := by simpa using begins
  rw [cons_append] at read
  rw [shape, inParens_of_open opens trimmed]
  simp [condition, mqParseNested, read, closes, tokenIsChar]

theorem reads_feature {l r : Token}
    (opens : isChar l (ch '(') = true) (inside : IsFeature ts f) (closes : isChar r (ch ')') = true) :
    Reads .inParens (l :: (ts ++ [r])) [.feature f] := by
  intro n rest _
  refine ⟨_, rfl, ?_⟩
  have read := inside.2 r rest closes
  obtain ⟨t, tail, trimmed, named⟩ := mediaFeature_head read
  have condition : (isChar t (ch '(') || isKeyword t (lit "not")) = false := by
    have no_not : isKeyword t (lit "not") = false := by
      have first := inside.1
      rcases own : trim ts with _ | ⟨u, us⟩
      · -- only white space before the closing parenthesis, which is then the first token
        rw [trim_append (blank_of_trim own), trim_cons_of_not_space (isSpace_of_isChar closes)] at trimmed
        obtain ⟨rfl, rfl⟩ := List.cons.inj trimmed
        exact not_keyword_of_isChar closes _
      · rw [trim_append_of_cons own] at trimmed
        obtain ⟨rfl, -⟩ := List.cons.inj trimmed
        simpa [own] using first
    have no_paren : isChar t (ch '(') = false := by
      simp only [isNameOrValue, Bool.or_eq_true, beq_iff_eq] at named
      rcases named with (type | type) | type <;> simp [isChar, type]
    simp [no_not, no_paren]
  have shape : l :: (ts ++ [r]) ++ rest = l :: (ts ++ r :: rest) := by simp
  rw [shape, inParens_of_open opens trimmed, if_neg (by simp [condition]), if_pos named, ← trimmed]
  have mapped := map_ok (f := Part.feature) ((mediaFeature_trim _).trans read)
  simp [orGeneralEnclosed, mapped]

theorem loop_last (read : inParens.run ts = (.ok part, rest)) (follows : Follows rest) :
    (mqConditionLoop inParens permitOr (k + 1) op before).run ts = (.ok (op, before ++ [part]), trim rest) := by
  rw [mqConditionLoop, bind_ok read]
  rcases trimmed : trim rest with _ | ⟨t, tail⟩
  · simp [trimmed]
  · have ends : endsCondition t = true := by simpa [Follows, trimmed] using follows
    simp [trimmed, ends]

theorem endsCondition_of_keyword (keyword : isKeyword t word = true) : endsCondition t = false := by
  simp [endsCondition, not_isChar_of_keyword keyword]

theorem insensitive_of_keyword (keyword : isKeyword t word = true) :
    t.type = .ident ∧ insensitive t.idata = insensitive word := by
  simpa [isKeyword, caselessIsEqual] using keyword

theorem joiner_run (joins : isKeyword t (joinWord isOr) = true) (allowed : isOr = true → permitOr = true)
    (same : op ≠ some (!isOr)) (ts : List Token) : (mqParseJoiner permitOr op t).run ts = (.ok (some isOr), ts) := by
  obtain ⟨ident, text⟩ := insensitive_of_keyword joins
  cases isOr with
  | false =>
    have word : caselessIsEqual t.idata (lit "and") = true := by simpa [caselessIsEqual, joinWord] using text
    simp [mqParseJoiner, ident, word, show op ≠ some true from same]
  | true =>
    have word : caselessIsEqual t.idata (lit "or") = true := by simpa [caselessIsEqual, joinWord] using text
    have other : caselessIsEqual t.idata (lit "and") = false := by
      rw [caselessIsEqual, text]
      decide
    simp [mqParseJoiner, ident, word, other, allowed rfl, show op ≠ some false from same]

theorem loop_more (read : inParens.run ts = (.ok part, rest)) (trimmed : trim rest = t :: tail)
    (joins : isKeyword t (joinWord isOr) = true) (allowed : isOr = true → permitOr = true) (same : op ≠ some (!isOr)) :
    (mqConditionLoop inParens permitOr (k + 1) op before).run ts =
      (mqConditionLoop inParens permitOr k (some isOr) (before ++ [part])).run (trim tail) := by
  rw [mqConditionLoop, bind_ok read]
  simp [trimmed, endsCondition_of_keyword joins, bind_ok (joiner_run joins allowed same _)]

theorem reads_more {isOr : Bool} {t : Token} {ts w w' rest : List Token} {part : Part} {parts : List Part}
    (first : Reads .inParens ts [part]) (before : Blank w) (joins : isKeyword t (joinWord isOr) = true)
    (after : Blank w') (opening : ∃ l tail, rest = l :: tail ∧ isChar l (ch '(') = true)
    (some_part : parts ≠ []) (others : Reads (.chain isOr) rest parts) :
    Reads (.chain isOr) (ts ++ (w ++ t :: (w' ++ rest))) (part :: parts) := by
  intro n k permitOr op earlier following enough rounds allowed same follows
  simp only [length_append, length_cons] at enough rounds
  obtain ⟨part', one, read⟩ := first n (w ++ t :: (w' ++ rest) ++ following) (by omega)
  obtain rfl : part = part' := by simpa using one
  obtain ⟨k, rfl⟩ : ∃ j, k = j + 1 := ⟨k - 1, by omega⟩
  have trimmed : trim (w ++ t :: (w' ++ rest) ++ following) = t :: (w' ++ (rest ++ following)) := by
    rw [append_assoc, trim_append before, cons_append, trim_cons_of_not_space (isSpace_of_isKeyword joins),
      append_assoc]
  have next : trim (w' ++ (rest ++ following)) = rest ++ following := by
    obtain ⟨l, tail, rfl, opens⟩ := opening
    rw [trim_append after, cons_append, trim_cons_of_not_space (isSpace_of_isChar opens)]
  rw [append_assoc, loop_more read trimmed joins allowed same, next,
    others n k permitOr (some isOr) (earlier ++ [part]) following (by omega) (by omega) allowed (by simp) follows]
  simp [some_part]

theorem condition_of_loop {n : Nat} {permitOr : Bool} {l : Token} {tail rest : List Token} {op : Joiner}
    {parts : List Part} (opens : isChar l (ch '(') = true)
    (loop : (mqConditionLoop (mqParseMediaInParens (mqParseCondition n true)) permitOr ((l :: tail).length + 1) none
      []).run (l :: tail) = (.ok (op, parts), rest)) :
    (mqParseCondition (n + 1) permitOr).run (l :: tail) = (.ok (.cond false (op == some true) parts), rest) := by
  rw [mqParseCondition, bind_peek, List.head?_cons]
  simp only [opens, Bool.not_true, Bool.false_eq_true, if_false]
  rw [bind_ok ((looking_run _ _).trans loop)]
  rfl

theorem reads_negation {permitOr : Bool} {t : Token} {w ts : List Token} {part : Part}
    (negates : isKeyword t (lit "not") = true) (after : Blank w)
    (opening : ∃ l tail, ts = l :: tail ∧ isChar l (ch '(') = true) (operand : Reads .inParens ts [part]) :
    Reads (.condition permitOr) (t :: (w ++ ts)) [.cond true false [part]] := by
  intro n rest enough _
  refine ⟨true, false, [part], rfl, ?_⟩
  obtain ⟨n, rfl⟩ : ∃ m, n = m + 1 := ⟨n - 1, by omega⟩
  simp only [length_append, length_cons] at enough
  obtain ⟨part', one, read⟩ := operand n rest (by omega)
  obtain rfl : part = part' := by simpa using one
  have trimmed : trim (w ++ (ts ++ rest)) = ts ++ rest := by
    obtain ⟨l, tail, rfl, opens⟩ := opening
    rw [trim_append after, cons_append, trim_cons_of_not_space (isSpace_of_isChar opens)]
  have ident : t.type = .ident := (insensitive_of_keyword negates).1
  rw [mqParseCondition]
  simp [not_isChar_of_keyword negates, ident, TokenType.interned, trimmed, bind_ok read]

theorem reads_of_derives (derived : Derives false category ts parts) : Reads category ts parts ∧ parts ≠ [] := by
  induction derived with
  | nested opens before inside after tight closes ih =>
    exact ⟨reads_nested opens before (condition_head inside) after (tight rfl) closes ih.1, by simp⟩
  | feature opens inside closes => exact ⟨reads_feature opens inside closes, by simp⟩
  | enclosed allowed => cases allowed
  | last only ih =>
    refine ⟨?_, by simp⟩
    intro n k permitOr op before rest enough rounds _ _ follows
    obtain ⟨l, tail, rfl, -⟩ := inParens_head only
    obtain ⟨k, rfl⟩ : ∃ j, k = j + 1 := ⟨k - 1, by simp at rounds; omega⟩
    obtain ⟨part, one, read⟩ := ih.1 n rest enough
    rw [loop_last read follows, ← one]
    rfl
  | more first before joins after others ihFirst ihOthers =>
    exact ⟨reads_more ihFirst.1 before joins after (chain_head others) ihOthers.2 ihOthers.1, by simp⟩
  | negation negates after operand ih => exact ⟨reads_negation negates after (inParens_head operand) ih.1, by simp⟩
  | one only ih =>
    refine ⟨?_, by simp⟩
    intro n rest enough follows
    obtain ⟨l, tail, rfl, opens⟩ := inParens_head only
    obtain ⟨n, rfl⟩ : ∃ m, n = m + 1 := ⟨n - 1, by omega⟩
    obtain ⟨part, one, read⟩ := ih.1 n rest (by omega)
    obtain ⟨rfl, -⟩ := List.cons.inj one
    exact ⟨false, false, _, rfl, condition_of_loop opens (loop_last read follows)⟩
  | @joined permitOr isOr ts first second parts allowed all ih =>
    refine ⟨?_, by simp⟩
    intro n rest enough follows
    obtain ⟨l, tail, rfl, opens⟩ := chain_head all
    obtain ⟨n, rfl⟩ : ∃ m, n = m + 1 := ⟨n - 1, by omega⟩
    have loop := ih.1 n ((l :: tail ++ rest).length + 1) permitOr none [] rest (by omega) (by simp; omega) allowed
      (by simp) follows
    refine ⟨false, isOr, _, rfl, ?_⟩
    simp only [cons_append] at loop ⊢
    rw [condition_of_loop opens loop]
    cases isOr <;> rfl

/-! ### Queries -/

theorem conditionAll_run (derived : Derives false (.condition permitOr) ts [c]) (follows : Follows rest) :
    ∃ left, (mqParseConditionAll permitOr).run (ts ++ rest) = (.ok c, left) ∧ trim left = trim rest := by
  obtain ⟨negate, op, inner, one, read⟩ :=
    (reads_of_derives derived).1 ((ts ++ rest).length + 1) rest (by rw [length_append]; omega) follows
  obtain ⟨rfl, -⟩ := List.cons.inj one
  refine ⟨_, read, ?_⟩
  cases negate <;> simp

theorem isCondition_of_derives (derived : Derives false (.condition permitOr) ts parts) (rest : List Token) :
    ∃ t tail, ts ++ rest = t :: tail ∧ isSpace t = false ∧
      (isChar t (ch '(') || notParen (ts ++ rest)) = true := by
  obtain ⟨t, tail, rfl, head⟩ := condition_head derived
  refine ⟨t, tail ++ rest, rfl, isSpace_head head, ?_⟩
  rcases head with opens | word
  · simp [opens]
  · cases derived with
    | @negation _ _ w _ _ _ after operand =>
      obtain ⟨l, more, rfl, opens⟩ := inParens_head operand
      have paren : trim (w ++ l :: (more ++ rest)) = l :: (more ++ rest) := by
        rw [trim_append after, trim_cons_of_not_space (isSpace_of_isChar opens)]
      simp [notParen, word, paren, tokenIsChar, opens]
    | one only =>
      obtain ⟨l, more, same, opens⟩ := inParens_head only
      obtain ⟨rfl, -⟩ := List.cons.inj same
      simp [opens]
    | joined _ all =>
      obtain ⟨l, more, same, opens⟩ := chain_head all
      obtain ⟨rfl, -⟩ := List.cons.inj same
      simp [opens]

theorem query_of_condition (before : Blank w) (derived : Derives false (.condition true) ts [c])
    (follows : Follows rest) :
    ∃ left, mqParseMediaQuery.run (w ++ (ts ++ rest)) =
      (.ok { negateType := false, type := mediaAll, cond := some c }, left) ∧ trim left = trim rest := by
  obtain ⟨left, read, trimmed⟩ := conditionAll_run derived follows
  obtain ⟨t, tail, shape, solid, condition⟩ := isCondition_of_derives derived rest
  refine ⟨left, ?_, trimmed⟩
  rw [shape] at read condition ⊢
  simp only [mqParseMediaQuery, bind_consumeWhitespace, trim_append before, trim_cons_of_not_space solid,
    bind_peek, List.head?_cons, bind_looking_pure, condition, if_true]
  rw [bind_ok read, pure_run]

theorem not_keyword_of_type (known : mqParseType t.idata = some bits) (word : LwcString)
    (reserved : word = lit "not" ∨ word = lit "only") : isKeyword t word = false := by
  by_contra keyword
  have text := (insensitive_of_keyword (by simpa using keyword)).2
  have unknown : mqParseType t.idata = none := by
    unfold mqParseType
    rcases reserved with rfl | rfl
    · rw [text]
      decide
    · rw [text]
      decide
  simp [unknown] at known

theorem isChar_of_ident (ident : t.type = .ident) (c : UInt8) : isChar t c = false := by
  simp [isChar, ident]

theorem isSpace_of_ident (ident : t.type = .ident) : isSpace t = false := by simp [isSpace, ident]

theorem query_of_type {modifier : List Token} (before : Blank w) (modified : Modifier modifier negate)
    (ident : t.type = .ident) (known : mqParseType t.idata = some bits) (tail : List Token) :
    mqParseMediaQuery.run (w ++ (modifier ++ t :: tail)) = (mqParseTyped negate (some t)).run tail := by
  have no_not := not_keyword_of_type known (lit "not") (.inl rfl)
  have no_only := not_keyword_of_type known (lit "only") (.inr rfl)
  have no_paren := isChar_of_ident ident (ch '(')
  have solid := isSpace_of_ident ident
  cases modified with
  | absent =>
    simp [mqParseMediaQuery, trim_append before, solid, notParen, no_paren, ident, no_not, no_only]
  | @negated u v word after =>
    have trimmed : trim (v ++ t :: tail) = t :: tail := by
      rw [trim_append after, trim_cons_of_not_space solid]
    simp [mqParseMediaQuery, trim_append before, isSpace_of_isKeyword word, notParen, not_isChar_of_keyword word,
      trimmed, tokenIsChar, no_paren, (insensitive_of_keyword word).1, word]
  | @only u v word after =>
    have trimmed : trim (v ++ t :: tail) = t :: tail := by
      rw [trim_append after, trim_cons_of_not_space solid]
    have other : isKeyword u (lit "not") = false := by
      have text := (insensitive_of_keyword word).2
      simp only [isKeyword, caselessIsEqual, text, Bool.and_eq_false_iff]
      exact .inr (by decide)
    simp [mqParseMediaQuery, trim_append before, isSpace_of_isKeyword word, notParen, not_isChar_of_keyword word,
      trimmed, (insensitive_of_keyword word).1, word, other]

theorem typed_end (ident : t.type = .ident) (known : mqParseType t.idata = some bits) (blank : trim tail = []) :
    (mqParseTyped negate (some t)).run tail = (.ok { negateType := negate, type := bits, cond := none }, []) := by
  simp [mqParseTyped, ident, known, blank]

theorem typed_comma (ident : t.type = .ident) (known : mqParseType t.idata = some bits)
    (next : trim tail = comma :: more) : (mqParseTyped negate (some t)).run tail = (.error .invalid, more) := by
  have other : isKeyword comma (lit "and") = false := by decide
  simp [mqParseTyped, ident, known, next, other]

theorem typed_and {a : Token} {w' : List Token} (negate : Bool) (ident : t.type = .ident)
    (known : mqParseType t.idata = some bits) (between : Blank w) (joins : isKeyword a (lit "and") = true)
    (next : Blank w') (derived : Derives false (.condition false) ts [c]) (follows : Follows rest) :
    ∃ left, (mqParseTyped negate (some t)).run (w ++ a :: (w' ++ (ts ++ rest))) =
      (.ok { negateType := negate, type := bits, cond := some c }, left) ∧ trim left = trim rest := by
  obtain ⟨left, read, trimmed⟩ := conditionAll_run derived follows
  obtain ⟨u, tail, shape, solid, -⟩ := isCondition_of_derives derived rest
  refine ⟨left, ?_, trimmed⟩
  have inner : trim (w' ++ (ts ++ rest)) = ts ++ rest := by
    rw [trim_append next, shape, trim_cons_of_not_space solid]
  simp [mqParseTyped, ident, known, trim_append between, isSpace_of_isKeyword joins, joins, inner, bind_ok read]

theorem isSpace_comma : isSpace comma = false := rfl

theorem follows_nil : Follows [] := rfl

theorem follows_comma (rest : List Token) : Follows (comma :: rest) := by
  rw [Follows, trim_cons_of_not_space isSpace_comma]
  rfl

theorem item_last (formed : WellFormed false item q) :
    ∃ left, mqParseMediaQuery.run item = (.ok q, left) ∧ trim left = [] := by
  cases formed with
  | condition before inside after =>
    obtain ⟨left, read, trimmed⟩ := query_of_condition before inside ((follows_append after []).mpr follows_nil)
    refine ⟨left, by simpa using read, ?_⟩
    rw [trimmed, trim_append after, trim_nil]
  | bare before modified ident known after =>
    rw [query_of_type before modified ident known, typed_end ident known (trim_blank after)]
    exact ⟨[], rfl, rfl⟩
  | typed before modified ident known between joins next inside after =>
    obtain ⟨left, read, trimmed⟩ :=
      typed_and _ ident known between joins next inside ((follows_append after []).mpr follows_nil)
    rw [query_of_type before modified ident known]
    refine ⟨left, by simpa using read, ?_⟩
    rw [trimmed, trim_append after, trim_nil]

theorem item_comma (formed : WellFormed false item q) (conditional : q.cond ≠ none) (rest : List Token) :
    ∃ left, mqParseMediaQuery.run (item ++ comma :: rest) = (.ok q, left) ∧ trim left = comma :: rest := by
  cases formed with
  | condition before inside after =>
    obtain ⟨left, read, trimmed⟩ :=
      query_of_condition before inside ((follows_append after (comma :: rest)).mpr (follows_comma rest))
    refine ⟨left, by simpa using read, ?_⟩
    rw [trimmed, trim_append after, trim_cons_of_not_space isSpace_comma]
  | bare => exact absurd rfl conditional
  | typed before modified ident known between joins next inside after =>
    obtain ⟨left, read, trimmed⟩ := typed_and _ ident known between joins next inside
      ((follows_append after (comma :: rest)).mpr (follows_comma rest))
    refine ⟨left, ?_, ?_⟩
    · simp only [append_assoc, cons_append]
      rw [query_of_type before modified ident known]
      exact read
    · rw [trimmed, trim_append after, trim_cons_of_not_space isSpace_comma]

theorem bare_comma (formed : WellFormed false item q) (bare : q.cond = none) (rest : List Token) :
    mqParseMediaQuery.run (item ++ comma :: rest) = (.error .invalid, rest) := by
  cases formed with
  | condition => cases bare
  | bare before modified ident known after =>
    simp only [append_assoc, cons_append]
    rw [query_of_type before modified ident known, typed_comma ident known (by rw [trim_append after, trim_cons_of_not_space isSpace_comma])]
  | typed => cases bare

theorem wellFormed_unique (first : WellFormed false item q) (second : WellFormed false item r) : q = r := by
  obtain ⟨_, read, -⟩ := item_last first
  obtain ⟨_, read', -⟩ := item_last second
  rw [read] at read'
  simpa using congrArg Prod.fst read'

theorem derives_lax (derived : Derives false category ts parts) : Derives true category ts parts := by
  induction derived with
  | nested opens before _ after _ closes ih => exact .nested opens before ih after (by simp) closes
  | feature opens inside closes => exact .feature opens inside closes
  | enclosed allowed => cases allowed
  | last _ ih => exact .last ih
  | more _ before joins after _ ihFirst ihOthers => exact .more ihFirst before joins after ihOthers
  | negation negates after _ ih => exact .negation negates after ih
  | one _ ih => exact .one ih
  | joined allowed _ ih => exact .joined allowed ih

theorem wellFormed_lax (formed : WellFormed false item q) : WellFormed true item q := by
  cases formed with
  | condition before inside after => exact .condition before (derives_lax inside) after
  | bare before modified ident known after => exact .bare before modified ident known after
  | typed before modified ident known between joins next inside after =>
    exact .typed before modified ident known between joins next (derives_lax inside) after

/-! ### Matching of what was read -/

def Settled (media : Media) (part : Part) : Prop :=
  ∃ b, mqMatchPart media part = some b ∧ truth media part = some b

theorem settled_parts (op : Bool) (settled : ∀ part ∈ parts, Settled media part) :
    ∃ b, mqMatchParts media op parts = some b ∧
      (if op then truthAny media parts else truthAll media parts) = some b := by
  induction parts with
  | nil =>
    refine ⟨!op, rfl, ?_⟩
    cases op <;> rfl
  | cons part parts ih =>
    obtain ⟨b, matched, known⟩ := settled part (by simp)
    obtain ⟨b', matched', known'⟩ := ih fun p member => settled p (by simp [member])
    simp only [mqMatchParts, matched, Option.bind_eq_bind, Option.bind_some]
    cases op with
    | false =>
      simp only [Bool.false_eq_true, if_false] at known' ⊢
      cases b with
      | false => exact ⟨false, rfl, by simp [truthAll, known, kleeneAnd]⟩
      | true => exact ⟨b', by simpa using matched', by cases b' <;> simp [truthAll, known, known', kleeneAnd]⟩
    | true =>
      simp only [if_true] at known' ⊢
      cases b with
      | false =>
        exact ⟨b', by simpa using matched', by cases b' <;> simp [truthAny, known, known', kleeneOr, kleeneAnd, kleeneNot]⟩
      | true => exact ⟨true, rfl, by simp [truthAny, known, kleeneOr, kleeneAnd, kleeneNot]⟩

theorem settled_cond (negate op : Bool) (settled : ∀ part ∈ parts, Settled media part) :
    Settled media (.cond negate op parts) := by
  obtain ⟨b, matched, known⟩ := settled_parts op settled
  refine ⟨b != negate, by simp [mqMatchPart, matched], ?_⟩
  rw [truth, known]
  cases negate <;> simp [kleeneNot]

theorem settled_of_derives (derived : Derives false category ts parts) : ∀ part ∈ parts, Settled media part := by
  induction derived with
  | nested _ _ _ _ _ _ ih => exact ih
  | feature =>
    intro part member
    obtain rfl := mem_singleton.mp member
    exact ⟨_, rfl, rfl⟩
  | enclosed allowed => cases allowed
  | last _ ih => exact ih
  | more _ _ _ _ _ ihFirst ihOthers =>
    intro part member
    rcases mem_cons.mp member with rfl | later
    · exact ihFirst _ (by simp)
    · exact ihOthers _ later
  | negation _ _ _ ih | one _ ih | joined _ _ ih =>
    intro part member
    obtain rfl := mem_singleton.mp member
    exact settled_cond _ _ ih

def QuerySettled (media : Media) (q : Query) : Prop := ∀ c, q.cond = some c → Settled media c

theorem querySettled_of_wellFormed (formed : WellFormed false item q) : QuerySettled media q := by
  intro c has
  cases formed with
  | condition _ inside =>
    obtain rfl := Option.some.inj has
    exact settled_of_derives inside _ (by simp)
  | bare => cases has
  | typed _ _ _ _ _ _ _ inside =>
    obtain rfl := Option.some.inj has
    exact settled_of_derives inside _ (by simp)

/-- The query matches by `mq__list_match`: the type, negated or not, and then the condition. -/
def Matches (media : Media) (q : Query) : Prop :=
  typeMatches media q ≠ q.negateType ∧ ∀ c, q.cond = some c → truth media c = some true

/-- A negated type whose condition is false: true under Media Queries, where `not` covers the
condition as well. -/
def Swayed (media : Media) (q : Query) : Prop :=
  q.negateType = true ∧ ∃ c, q.cond = some c ∧ truth media c = some false

theorem listMatch_eq (settled : ∀ q ∈ qs, QuerySettled media q) :
    ∃ b, mqListMatch media qs = some b ∧ (b = true ↔ ∃ q ∈ qs, Matches media q) := by
  induction qs with
  | nil => exact ⟨false, rfl, by simp⟩
  | cons q qs ih =>
    obtain ⟨b, matched, known⟩ := ih fun r member => settled r (by simp [member])
    by_cases type : typeMatches media q = q.negateType
    · refine ⟨b, by simp [mqListMatch, type, matched], ?_⟩
      simp [known, Matches, type]
    · rcases has : q.cond with _ | c
      · refine ⟨true, by simp [mqListMatch, type, has], ?_⟩
        simp [Matches, type, has]
      · obtain ⟨d, first, true_of⟩ := settled q (by simp) c has
        cases d with
        | true =>
          refine ⟨true, by simp [mqListMatch, type, has, first], ?_⟩
          simp [Matches, type, has, true_of]
        | false =>
          refine ⟨b, by simp [mqListMatch, type, has, first, matched], ?_⟩
          simp [known, Matches, has, true_of]

theorem queryTruth_iff (settled : QuerySettled media q) :
    queryTruth media q = some true ↔ Matches media q ∨ Swayed media q := by
  rcases has : q.cond with _ | c
  · cases typed : typeMatches media q <;> cases negated : q.negateType <;>
      simp [queryTruth, Matches, Swayed, has, typed, negated, kleeneAnd, kleeneNot]
  · obtain ⟨b, -, known⟩ := settled c has
    cases typed : typeMatches media q <;> cases negated : q.negateType <;> cases b <;>
      simp [queryTruth, Matches, Swayed, has, typed, negated, known, kleeneAnd, kleeneNot]

theorem not_matches_notAll (media : Media) : ¬ Matches media notAll := by
  intro ⟨type, _⟩
  apply type
  simpa [typeMatches, notAll] using media.typed

/-! ### Items and commas -/

theorem isChar_comma : isChar t (ch ',') = true ↔ t = comma := by
  constructor
  · intro char
    unfold isChar at char
    rcases t with ⟨type, _ | ⟨b, _ | ⟨b', rest⟩⟩⟩
    · simp at char
    · simp only [Bool.and_eq_true, beq_iff_eq] at char
      obtain ⟨rfl, lower⟩ := char
      have same : b = ch ',' := by
        unfold dolower at lower
        split at lower
        · rename_i upper
          have code := congrArg UInt8.toNat lower
          simp only [UInt8.le_iff_toNat_le, UInt8.toNat_add, UInt8.toNat_sub, UInt8.reduceToNat,
            show (ch ',').toNat = 44 from rfl] at upper code
          omega
        · exact lower
      rw [same]
      rfl
    · simp at char
  · rintro rfl
    rfl

theorem splitItems_ne_nil (stack : List UInt8) (ts : List Token) : splitItems stack ts ≠ [] := by
  cases ts with
  | nil => simp [splitItems]
  | cons t ts =>
    simp only [splitItems]
    split
    · simp
    · cases splitItems (track stack t) ts <;> simp [consFirst]

theorem join_cons {rest : List (List Token)} (more : rest ≠ []) : join (item :: rest) = item ++ comma :: join rest := by
  cases rest with
  | nil => exact absurd rfl more
  | cons => rfl

theorem join_splitItems (stack : List UInt8) (ts : List Token) : join (splitItems stack ts) = ts := by
  induction ts generalizing stack with
  | nil => rfl
  | cons t ts ih =>
    simp only [splitItems]
    split
    · rename_i cut
      rw [join_cons (splitItems_ne_nil _ _), ih, cut.2]
      rfl
    · have inner := ih (track stack t)
      rcases split : splitItems (track stack t) ts with _ | ⟨item, _ | ⟨next, rest⟩⟩
      · exact absurd split (splitItems_ne_nil _ _)
      · rw [split] at inner
        simpa [consFirst, join] using inner
      · rw [split] at inner
        simpa [consFirst, join] using inner

theorem join_items (ts : List Token) : join (items ts) = ts := by
  unfold items
  split
  · rename_i none
    rw [none]
    rfl
  · exact join_splitItems [] ts

theorem listLoop_end (read : queryOrNotAll (mqParseMediaQuery.run ts).1 = .ok q)
    (ends : (trim (mqParseMediaQuery.run ts).2).head? ≠ some comma) : mediaListLoop (n + 1) ts = .ok [q] := by
  rw [mediaListLoop, read]
  rcases left : trim (mqParseMediaQuery.run ts).2 with _ | ⟨t, rest⟩
  · rfl
  · have other : isChar t (ch ',') = false := by
      rw [Bool.eq_false_iff, ne_eq, isChar_comma]
      simpa [left] using ends
    change (if isChar t (ch ',') = true then _ else _) = _
    rw [if_neg (by simp [other])]

theorem listLoop_comma (read : queryOrNotAll (mqParseMediaQuery.run ts).1 = .ok q)
    (next : trim (mqParseMediaQuery.run ts).2 = comma :: rest) :
    mediaListLoop (n + 1) ts = (q :: ·) <$> mediaListLoop n rest := by
  rw [mediaListLoop, read, next]
  rfl

/-! ### Truth of a list -/

/-- Where a negated type has a false condition, some other item is true anyway. -/
def NegationAgrees (media : Media) (ts : List Token) : Prop :=
  (∃ item ∈ items ts, ∃ q, WellFormed false item q ∧ Swayed media q) →
    ∃ item ∈ items ts, ∃ q, WellFormed false item q ∧ queryTruth media q = some true ∧ ¬ Swayed media q

/-- Every item is in the strict grammar or malformed. -/
def Readable (ts : List Token) : Prop :=
  ∀ item ∈ items ts, (∃ q, WellFormed false item q) ∨ Malformed item

theorem meaning_iff (readable : (∃ r, WellFormed false item r) ∨ Malformed item) :
    Meaning item q ↔ WellFormed false item q := by
  constructor
  · rintro (formed | ⟨none, lax⟩)
    · exact formed
    · rcases readable with ⟨r, formed⟩ | malformed
      · exact absurd formed (none r)
      · exact absurd lax (malformed q)
  · exact .inl

theorem expected_unique (formed : WellFormed false item q) (expected : Expected item r) : r = q := by
  rcases expected with (same | ⟨none, _⟩) | ⟨malformed, _⟩
  · exact wellFormed_unique same formed
  · exact absurd formed (none q)
  · exact absurd (wellFormed_lax formed) (malformed q)

theorem forall₂_mem_left {α β : Type} {R : α → β → Prop} {as : List α} {bs : List β} (all : List.Forall₂ R as bs)
    {a : α} (member : a ∈ as) : ∃ b ∈ bs, R a b := by
  induction all with
  | nil => cases member
  | cons related _ ih =>
    rcases mem_cons.mp member with rfl | later
    · exact ⟨_, by simp, related⟩
    · obtain ⟨b, inside, found⟩ := ih later
      exact ⟨b, by simp [inside], found⟩

theorem forall₂_mem_right {α β : Type} {R : α → β → Prop} {as : List α} {bs : List β} (all : List.Forall₂ R as bs)
    {b : β} (member : b ∈ bs) : ∃ a ∈ as, R a b :=
  forall₂_mem_left (R := flip R) (List.Forall₂.flip all) member

theorem matches_iff (readable : Readable ts) (all : List.Forall₂ Expected (items ts) qs) :
    (∃ q ∈ qs, Matches media q) ↔
      ∃ item ∈ items ts, ∃ q, WellFormed false item q ∧ queryTruth media q = some true ∧ ¬ Swayed media q := by
  constructor
  · rintro ⟨q, member, matched⟩
    obtain ⟨item, inside, expected⟩ := forall₂_mem_right all member
    rcases expected with meaning | ⟨_, rfl⟩
    · have formed := (meaning_iff (readable item inside)).mp meaning
      refine ⟨item, inside, q, formed, (queryTruth_iff (querySettled_of_wellFormed formed)).mpr (.inl matched), ?_⟩
      rintro ⟨_, c, has, false_of⟩
      simp [matched.2 c has] at false_of
    · exact absurd matched (not_matches_notAll media)
  · rintro ⟨item, inside, q, formed, true_of, steady⟩
    obtain ⟨r, member, expected⟩ := forall₂_mem_left all inside
    obtain rfl := expected_unique formed expected
    rcases (queryTruth_iff (querySettled_of_wellFormed formed)).mp true_of with matched | swayed
    · exact ⟨r, member, matched⟩
    · exact absurd swayed steady

theorem querySettled_of_expected (readable : (∃ r, WellFormed false item r) ∨ Malformed item)
    (expected : Expected item q) : QuerySettled media q := by
  rcases expected with meaning | ⟨_, rfl⟩
  · exact querySettled_of_wellFormed ((meaning_iff readable).mp meaning)
  · intro c has
    cases has

theorem match_iff (readable : Readable ts) (all : List.Forall₂ Expected (items ts) qs) :
    (∃ matched, mqListMatch media qs = some matched ∧ (matched = true ↔ ∃ item ∈ items ts, TrueOf media item)) ↔
      NegationAgrees media ts := by
  have settled : ∀ q ∈ qs, QuerySettled media q := by
    intro q member
    obtain ⟨item, inside, expected⟩ := forall₂_mem_right all member
    exact querySettled_of_expected (readable item inside) expected
  obtain ⟨b, computed, found⟩ := listMatch_eq settled
  rw [matches_iff readable all] at found
  constructor
  · rintro ⟨matched, same, iff⟩ ⟨item, inside, q, formed, swayed⟩
    obtain rfl : b = matched := by simpa [computed] using same
    have true_of : queryTruth media q = some true :=
      (queryTruth_iff (querySettled_of_wellFormed formed)).mpr (.inr swayed)
    exact found.mp (iff.mpr ⟨item, inside, q, .inl formed, true_of⟩)
  · intro agrees
    refine ⟨b, computed, ?_⟩
    rw [found]
    constructor
    · rintro ⟨item, inside, q, formed, true_of, -⟩
      exact ⟨item, inside, q, .inl formed, true_of⟩
    · rintro ⟨item, inside, q, meaning, true_of⟩
      have formed := (meaning_iff (readable item inside)).mp meaning
      by_cases swayed : Swayed media q
      · exact agrees ⟨item, inside, q, formed, swayed⟩
      · exact ⟨item, inside, q, formed, true_of, swayed⟩

/-! ### Lists that are not kept apart -/

theorem typed_inv {token : Option Token} (read : (mqParseTyped negate token).run tail = (.ok q, left))
    (bare : q.cond = none) :
    ∃ t bits, token = some t ∧ t.type = .ident ∧ mqParseType t.idata = some bits ∧ trim tail = [] ∧ left = [] ∧
      q = { negateType := negate, type := bits, cond := none } := by
  unfold mqParseTyped at read
  rcases token with _ | t
  · simp at read
  by_cases ident : t.type = .ident
  case neg => simp [ident] at read
  rcases known : mqParseType t.idata with _ | bits
  · simp [ident, known] at read
  rcases next : trim tail with _ | ⟨a, more⟩
  · simp only [ident, known, ne_eq, not_true_eq_false, if_false, bind_consumeWhitespace, next, bind_iterate,
      List.head?_nil, tail_nil, pure_run, Prod.mk.injEq, Except.ok.injEq] at read
    exact ⟨t, bits, rfl, ident, known, rfl, read.2.symm, read.1.symm⟩
  · -- after the type comes a condition, which the query then has
    simp only [ident, known, ne_eq, not_true_eq_false, if_false, bind_consumeWhitespace, next, bind_iterate,
      List.head?_cons, tail_cons, ite_run, fail_run] at read
    split at read
    · simp at read
    · rcases outcome : (mqParseConditionAll false).run (trim more) with ⟨e | c, rest⟩
      · rw [bind_error outcome] at read
        simp at read
      · rw [bind_ok outcome] at read
        simp only [pure_run, Prod.mk.injEq, Except.ok.injEq] at read
        rw [← read.1] at bare
        cases bare

theorem query_bare_inv (read : mqParseMediaQuery.run ts = (.ok q, left)) (bare : q.cond = none) :
    left = [] ∧ WellFormed false ts q := by
  obtain ⟨w, before, shape⟩ := blank_split ts
  unfold mqParseMediaQuery at read
  rw [bind_consumeWhitespace] at read
  rcases trimmed : trim ts with _ | ⟨t, tail⟩
  · rw [trimmed] at read
    simp at read
  rw [trimmed] at read shape
  simp only [bind_peek, List.head?_cons, bind_looking_pure, ite_run, bind_iterate,
    tail_cons, fail_run, bind_consumeWhitespace] at read
  split at read
  · rcases outcome : (mqParseConditionAll true).run (t :: tail) with ⟨e | c, rest⟩
    · rw [bind_error outcome] at read
      simp at read
    · rw [bind_ok outcome] at read
      simp only [pure_run, Prod.mk.injEq, Except.ok.injEq] at read
      rw [← read.1] at bare
      cases bare
  split at read
  · simp at read
  have after_word : ∀ {negate : Bool}, (∀ v, Blank v → Modifier (t :: v) negate) →
      (mqParseTyped negate (trim tail).head?).run (trim tail).tail = (.ok q, left) →
      left = [] ∧ WellFormed false ts q := by
    intro negate modifier typed
    obtain ⟨u, bits, head, ident, known, blank, ended, rfl⟩ := typed_inv typed bare
    obtain ⟨v, between, split⟩ := blank_split tail
    have cons : trim tail = u :: (trim tail).tail := List.eq_cons_of_mem_head? (by simp [head])
    refine ⟨ended, ?_⟩
    have formed : WellFormed false (w ++ (t :: v ++ u :: (trim tail).tail)) _ :=
      .bare before (modifier v between) ident known (blank_of_trim blank)
    rwa [cons_append, ← cons, ← split, ← shape] at formed
  split at read
  · rename_i word
    exact after_word (fun v blank => .negated word blank) read
  split at read
  · rename_i word
    exact after_word (fun v blank => .only word blank) read
  · obtain ⟨u, bits, head, ident, known, blank, ended, rfl⟩ := typed_inv read bare
    obtain rfl : t = u := Option.some.inj head
    refine ⟨ended, ?_⟩
    rw [shape]
    exact .bare before .absent ident known (blank_of_trim blank)

theorem refused_of_notAll {item rest : List Token} (malformed : Malformed item)
    (read : queryOrNotAll (mqParseMediaQuery.run (item ++ rest)).1 = .ok notAll)
    (more : rest = [] ∨ (mqParseMediaQuery.run (item ++ rest)).2 ≠ []) :
    (mqParseMediaQuery.run (item ++ rest)).1 = .error .invalid := by
  rcases outcome : mqParseMediaQuery.run (item ++ rest) with ⟨e | q, left⟩
  · rw [outcome] at read
    cases e with
    | invalid => rfl
    | nullRead => cases read
    | fuel => cases read
  · rw [outcome] at read more
    obtain rfl : q = notAll := by simpa [queryOrNotAll] using read
    obtain ⟨ended, formed⟩ := query_bare_inv outcome rfl
    rcases more with rfl | left_over
    · rw [append_nil] at formed
      exact absurd (wellFormed_lax formed) (malformed _)
    · exact absurd ended left_over

theorem listLoop_count (loop : mediaListLoop n ts = .ok qs) : qs ≠ [] ∧ qs.length ≤ ts.count comma + 1 := by
  induction n generalizing ts qs with
  | zero => cases loop
  | succ n ih =>
    rcases read : queryOrNotAll (mqParseMediaQuery.run ts).1 with e | q
    · rw [mediaListLoop, read] at loop
      cases loop
    · by_cases next : (trim (mqParseMediaQuery.run ts).2).head? = some comma
      · obtain ⟨rest, cons⟩ := List.head?_eq_some_iff.mp next
        rw [listLoop_comma read cons] at loop
        rcases inner : mediaListLoop n rest with e | rs
        · rw [inner] at loop
          cases loop
        · rw [inner] at loop
          obtain rfl : q :: rs = qs := Except.ok.inj loop
          have fewer := (ih inner).2
          have suffix : comma :: rest <:+ ts := by
            rw [← cons]
            exact (dropWhile_suffix _).trans (forward_mqParseMediaQuery ts)
          have count := suffix.sublist.count_le comma
          rw [count_cons_self] at count
          exact ⟨by simp, by simp only [length_cons]; omega⟩
      · rw [listLoop_end read next] at loop
        obtain rfl := Except.ok.inj loop
        simp

theorem count_join {list : List (List Token)} (some_item : list ≠ []) (inner : ∀ item ∈ list, comma ∉ item) :
    (join list).count comma + 1 = list.length := by
  induction list with
  | nil => exact absurd rfl some_item
  | cons item rest ih =>
    have own : item.count comma = 0 := count_eq_zero.mpr (inner item (by simp))
    by_cases last : rest = []
    · simp [last, join, own]
    · have others := ih last fun other member => inner other (by simp [member])
      rw [join_cons last]
      simp only [count_append, count_cons_self, own, length_cons]
      omega

theorem suffix_at_comma (own : comma ∉ item) (suffix : comma :: rest <:+ item ++ comma :: more)
    (all : more.count comma ≤ rest.count comma) : rest = more := by
  obtain ⟨front, split⟩ := suffix
  rcases append_eq_append_iff.mp split with ⟨mid, rfl, tail⟩ | ⟨mid, rfl, tail⟩
  · -- the suffix begins inside the item
    cases mid with
    | nil => exact (List.cons.inj tail).2
    | cons t mid =>
      obtain ⟨rfl, -⟩ := List.cons.inj tail
      exact absurd (by simp) own
  · -- the suffix begins after the item
    cases mid with
    | nil => exact (List.cons.inj tail.symm).2
    | cons t mid =>
      rw [cons_append] at tail
      obtain ⟨rfl, rfl⟩ := List.cons.inj tail
      simp only [count_append, count_cons_self] at all
      omega

end Besra.Mq
