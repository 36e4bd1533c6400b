import Besra.Mq

/-!
Which media query lists are parsed without a read through NULL and without a part
that is NULL. The tokens that each parser takes are given as a relation (`Takes`),
which the parsers satisfy in both directions (`takes_of_condition`,
`run_of_takes`). The parser of conditions ends on every input, and reads nothing
through NULL where it begins at a token with an interned string.
-/
namespace Besra.MqTotal
open Lwc Cursor Besra.Lex Number MqParse MqGrammar Mq Parser List

/-! ### Statement -/

mutual

/-- Whether none of the parts, at any depth, is the NULL pointer. -/
def whole : Part → Bool
  | .feature _ => true
  | .cond _ _ parts => wholeAll parts
  | .null => false

/-- Whether all of the parts are `whole`. -/
def wholeAll : List Part → Bool
  | [] => true
  | part :: parts => whole part && wholeAll parts

end

/-- A list is parsed to its end without a read through NULL, into conditions without a NULL part,
so that its match with any media reads none. -/
def Total (ts : List Token) : Prop :=
  ∃ qs, mqParseMediaList ts = .ok qs ∧ (∀ q ∈ qs, ∀ c, q.cond = some c → whole c = true) ∧
    ∀ media, ∃ matched, mqListMatch media qs = some matched

/-- Tokens with their brackets in pairs, as `mq_parse_consume_any_value` counts them: the parenthesis
of a function token is none of them. -/
inductive Balanced : List Token → Prop
  | nil : Balanced []
  | token {t : Token} {rest : List Token} (string : t.type ≠ .invalidString) (opens : closing t = none)
      (closes : isClose t = false) (after : Balanced rest) : Balanced (t :: rest)
  | bracket {t r : Token} {close : UInt8} {inside rest : List Token} (opens : closing t = some close)
      (within : Balanced inside) (closes : isChar r close = true) (after : Balanced rest) :
      Balanced (t :: inside ++ r :: rest)

/-- The tokens `ts` begin with one of the category, as the source reads it, and `rest` is behind it. A
function, which has to be followed by two closing parentheses, leaves a hole where its part should be. -/
inductive Takes : Category → Bool → List Token → List Token → Prop
  | nested {hole : Bool} {l t r : Token} {ts tail rest : List Token} (opens : isChar l (ch '(') = true)
      (trimmed : trim ts = t :: tail) (begins : (isChar t (ch '(') || isKeyword t (lit "not")) = true)
      (inside : Takes (.condition true) hole (t :: tail) (r :: rest)) (closes : isChar r (ch ')') = true) :
      Takes .inParens hole (l :: ts) rest
  | feature {l t : Token} {ts tail rest : List Token} {f : Feature} (opens : isChar l (ch '(') = true)
      (trimmed : trim ts = t :: tail) (begins : isKeyword t (lit "not") = false)
      (inside : mqParseMediaFeature.run (t :: tail) = (.ok f, rest)) : Takes .inParens false (l :: ts) rest
  | function {l t c r : Token} {ts text rest : List Token} (opens : isChar l (ch '(') = true)
      (trimmed : trim ts = t :: (text ++ c :: r :: rest)) (call : t.type = .function) (within : Balanced text)
      (closes : isChar c (ch ')') = true) (closes' : isChar r (ch ')') = true) :
      Takes .inParens true (l :: ts) (r :: rest)
  | last {isOr hole : Bool} {ts rest : List Token} (only : Takes .inParens hole ts rest) (follows : Follows rest) :
      Takes (.chain isOr) hole ts (trim rest)
  | more {isOr hole hole' : Bool} {t : Token} {ts middle tail rest : List Token} (first : Takes .inParens hole ts middle)
      (trimmed : trim middle = t :: tail) (joins : isKeyword t (joinWord isOr) = true)
      (others : Takes (.chain isOr) hole' (trim tail) rest) : Takes (.chain isOr) (hole || hole') ts rest
  | negation {permitOr hole : Bool} {t : Token} {tail rest : List Token} (other : isChar t (ch '(') = false)
      (interned : t.type.interned = true) (operand : Takes .inParens hole (trim tail) rest) :
      Takes (.condition permitOr) hole (t :: tail) rest
  | joined {permitOr isOr hole : Bool} {ts rest : List Token} (allowed : isOr = true → permitOr = true)
      (all : Takes (.chain isOr) hole ts rest) : Takes (.condition permitOr) hole ts rest

/-- An item of a media type with `and`, and the tokens behind that. -/
inductive Typed : List Token → List Token → Prop
  | and {t a : Token} {w modifier w' rest : List Token} {negate : Bool} {bits : UInt64} (before : Blank w)
      (modified : Modifier modifier negate) (ident : t.type = .ident) (known : mqParseType t.idata = some bits)
      (between : Blank w') (joins : isKeyword a (lit "and") = true) :
      Typed (w ++ (modifier ++ t :: (w' ++ a :: rest))) (trim rest)

def BeginsCondition (ts : List Token) : Prop :=
  ∃ t tail, trim ts = t :: tail ∧ (isChar t (ch '(') || notParen (t :: tail)) = true

/-- An item is a query one of whose parts is a function in parentheses. -/
inductive HasHole (ts : List Token) : Prop
  | condition {rest : List Token} (begins : BeginsCondition ts) (takes : Takes (.condition true) true (trim ts) rest)
  | typed {after rest : List Token} (typed : Typed ts after) (takes : Takes (.condition false) true after rest)

/-- An item that does no harm where it begins: there is a token to look at, what follows `and` has an
interned string, and no part of the query is a function. -/
structure Harmless (ts : List Token) : Prop where
  some_token : trim ts ≠ []
  interned : ∀ t tail, Typed ts (t :: tail) → t.type.interned = true
  no_hole : ¬ HasHole ts

/-- From one round of the loop in `css__mq_parse_media_list` to the next: an item is read, and a comma
taken. -/
def NextItem (ts rest : List Token) : Prop :=
  ∃ t, isChar t (ch ',') = true ∧ trim (mqParseMediaQuery.run ts).2 = t :: rest

/-! ### Any value -/

def Closer (c : UInt8) : Prop := c = ch ')' ∨ c = ch ']' ∨ c = 0x7d

theorem closer_paren : Closer (ch ')') := .inl rfl

variable {t : Token} {c close : UInt8} {text rest ts after : List Token} {n : Nat} {part : Part}
  {permitOr hole negate : Bool} {category : Category} {bits : UInt64} {qs : List Query}

theorem closer_closing (opens : closing t = some c) : Closer c := by
  unfold closing at opens
  split_ifs at opens <;> cases opens
  · exact .inl rfl
  · exact .inr (.inl rfl)
  · exact .inr (.inr rfl)

theorem isClose_of_isChar (closer : Closer c) (is : isChar t c = true) : isClose t = true := by
  rcases closer with rfl | rfl | rfl <;> simp [isClose, is]

theorem opening (opens : closing t = some c) : t.type = .char ∧ isClose t = false := by
  have apart : ∀ d, isChar t d = true → d = ch '(' ∨ d = ch '[' ∨ d = 0x7b → t.type = .char ∧ isClose t = false := by
    intro d is which
    refine ⟨by simpa using (Bool.and_eq_true_iff.mp is).1, ?_⟩
    simp only [isClose, Bool.or_eq_false_iff]
    refine ⟨⟨isChar_other is ?_, isChar_other is ?_⟩, isChar_other is ?_⟩ <;>
      rcases which with rfl | rfl | rfl <;> decide
  unfold closing at opens
  split_ifs at opens with paren square curly
  · exact apart _ paren (.inl rfl)
  · exact apart _ square (.inr (.inl rfl))
  · exact apart _ curly (.inr (.inr rfl))

theorem balanced_blank {w : List Token} (blank : Blank w) (balanced : Balanced text) : Balanced (w ++ text) := by
  induction w with
  | nil => exact balanced
  | cons t w ih =>
    have type : t.type = .s := by simpa [isSpace] using blank t (by simp)
    have other : ∀ c, isChar t c = false := fun c => isChar_type (by simp [type])
    refine .token (by simp [type]) (by simp [closing, other]) (by simp [isClose, other]) ?_
    exact ih fun u member => blank u (by simp [member])

theorem anyValue_none (n : Nat) : ∀ ts rest, (consumeAnyValue n none).run ts ≠ (.ok (), rest) := by
  induction n with
  | zero => simp [consumeAnyValue]
  | succ n ih =>
    intro ts rest run
    rw [consumeAnyValue, bind_consumeWhitespace, bind_iterate] at run
    rcases trimmed : trim ts with _ | ⟨t, us⟩
    · rw [trimmed] at run
      simp at run
    rw [trimmed] at run
    simp only [List.head?_cons, tail_cons, Option.any_none, Bool.false_eq_true, if_false] at run
    split at run
    · simp at run
    split at run
    · split at run
      · simp at run
      split at run
      · obtain ⟨-, middle, -, run⟩ := bind_eq_ok.mp run
        exact ih _ _ run
      · exact ih _ _ run
    · exact ih _ _ run

theorem balanced_of_anyValue (n : Nat) : ∀ close ts rest, (consumeAnyValue n (some close)).run ts = (.ok (), rest) →
    ∃ text c, ts = text ++ c :: rest ∧ Balanced text ∧ isChar c close = true := by
  induction n with
  | zero => simp [consumeAnyValue]
  | succ n ih =>
    intro close ts rest run
    obtain ⟨w, blank, parts⟩ := blank_split ts
    rw [consumeAnyValue, bind_consumeWhitespace, bind_iterate] at run
    rcases trimmed : trim ts with _ | ⟨t, us⟩
    · rw [trimmed] at run
      simp at run
    rw [trimmed] at run parts
    simp only [List.head?_cons, tail_cons, Option.any_some] at run
    -- a token that is passed over stands in front of the rest of the value
    have passed : t.type ≠ .invalidString → closing t = none → isClose t = false →
        (consumeAnyValue n (some close)).run us = (.ok (), rest) →
        ∃ text c, ts = text ++ c :: rest ∧ Balanced text ∧ isChar c close = true := by
      intro string opens closes run
      obtain ⟨text, c, rfl, balanced, closed⟩ := ih close us rest run
      exact ⟨w ++ t :: text, c, by simp [parts], balanced_blank blank (.token string opens closes balanced), closed⟩
    split at run
    · simp at run
    rename_i string
    split at run
    · split at run
      · rename_i closed
        cases run
        exact ⟨w, t, parts, by simpa using balanced_blank blank .nil, closed⟩
      split at run
      · simp at run
      rename_i other
      split at run
      · rename_i inner opens
        obtain ⟨_, middle, within, behind⟩ := bind_eq_ok.mp run
        obtain ⟨inside, r, rfl, balanced, closes⟩ := ih inner us middle within
        obtain ⟨text, c, rfl, balanced', closed⟩ := ih close middle rest behind
        exact ⟨w ++ (t :: inside ++ r :: text), c, by simp [parts],
          balanced_blank blank (.bracket opens balanced closes balanced'), closed⟩
      · rename_i opens
        exact passed string opens (by simpa using other) run
    · rename_i char
      have other : ∀ c, isChar t c = false := fun c => isChar_type char
      exact passed string (by simp [closing, other]) (by simp [isClose, other]) run

theorem anyValue_space (space : isSpace t = true) (n : Nat) (until? : Option UInt8) (ts : List Token) :
    (consumeAnyValue (n + 1) until?).run (t :: ts) = (consumeAnyValue (n + 1) until?).run ts := by
  have trimmed : trim (t :: ts) = trim ts := by simp [trim, space]
  simp only [consumeAnyValue, bind_consumeWhitespace, trimmed]

theorem anyValue_close {r : Token} (closes : isChar r close = true) (enough : (r :: rest).length < n) :
    (consumeAnyValue n (some close)).run (r :: rest) = (.ok (), rest) := by
  obtain ⟨n, rfl⟩ : ∃ m, n = m + 1 := ⟨n - 1, by omega⟩
  have char : r.type = .char := by simpa using (Bool.and_eq_true_iff.mp closes).1
  simp [consumeAnyValue, isSpace_of_isChar closes, char, closes]

/-- Balanced tokens are passed over, whatever comes of what follows them. -/
theorem anyValue_prefix (balanced : Balanced text) : ∀ {until? : Option UInt8} {ts : List Token}
    {outcome : Except Err Unit × List Token}, (∀ close, until? = some close → Closer close) →
    (∀ n, ts.length < n → (consumeAnyValue n until?).run ts = outcome) →
    ∀ n, (text ++ ts).length < n → (consumeAnyValue n until?).run (text ++ ts) = outcome := by
  induction balanced with
  | nil => exact fun _ behind => behind
  | @token t text string opens other after ih =>
    intro until? ts outcome closer behind n enough
    obtain ⟨n, rfl⟩ : ∃ m, n = m + 1 := ⟨n - 1, by omega⟩
    simp only [cons_append, length_cons] at enough
    by_cases space : isSpace t = true
    · rw [cons_append, anyValue_space space]
      exact ih closer behind _ (by omega)
    · have different : until?.any (isChar t) = false := by
        rw [Option.any_eq_false]
        intro close is
        rw [Bool.eq_false_iff]
        exact fun same => by simp [isClose_of_isChar (closer close is) same] at other
      have passed := ih closer behind n (by omega)
      rw [cons_append, consumeAnyValue, bind_consumeWhitespace, trim_cons_of_not_space (by simpa using space)]
      simp [string, different, other, opens, passed]
  | @bracket t r inner inside text opens within closes' after ihInside ih =>
    intro until? ts outcome closer behind n enough
    obtain ⟨n, rfl⟩ : ∃ m, n = m + 1 := ⟨n - 1, by omega⟩
    obtain ⟨char, other⟩ := opening opens
    have different : until?.any (isChar t) = false := by
      rw [Option.any_eq_false]
      intro close is
      rw [Bool.eq_false_iff]
      exact fun same => by simp [isClose_of_isChar (closer close is) same] at other
    have solid : isSpace t = false := by simp [isSpace, char]
    have shape : t :: inside ++ r :: text ++ ts = t :: (inside ++ r :: (text ++ ts)) := by simp
    rw [shape] at enough ⊢
    simp only [length_cons, length_append] at enough
    have first := @ihInside (some inner) (r :: (text ++ ts)) _ (by rintro _ ⟨⟩; exact closer_closing opens)
      (fun _ => anyValue_close closes') n (by simp; omega)
    have second := ih closer behind n (by simp; omega)
    rw [consumeAnyValue, bind_consumeWhitespace, trim_cons_of_not_space solid]
    simp [char, different, other, opens, bind_ok first, second]

theorem anyValue_of_balanced (balanced : Balanced text) {c : Token} (closer : Closer close)
    (closes : isChar c close = true) (enough : (text ++ c :: rest).length < n) :
    (consumeAnyValue n (some close)).run (text ++ c :: rest) = (.ok (), rest) := by
  exact anyValue_prefix balanced (by rintro _ ⟨⟩; exact closer) (fun _ => anyValue_close closes) n enough

/-! ### What is taken -/

theorem function_of_generalEnclosed (run : mqParseGeneralEnclosed.run ts = (.ok (), rest)) :
    ∃ t text c r after, ts = t :: (text ++ c :: r :: after) ∧ rest = r :: after ∧ t.type = .function ∧ Balanced text ∧
      isChar c (ch ')') = true ∧ isChar r (ch ')') = true := by
  unfold mqParseGeneralEnclosed at run
  rw [bind_iterate] at run
  rcases ts with _ | ⟨t, us⟩
  · simp at run
  simp only [List.head?_cons, tail_cons] at run
  split at run
  · rename_i call
    obtain ⟨_, middle, within, behind⟩ := bind_eq_ok.mp run
    rw [looking_run] at within
    obtain ⟨text, c, rfl, balanced, closes⟩ := balanced_of_anyValue _ _ _ _ within
    rw [bind_peek] at behind
    rcases middle with _ | ⟨r, after⟩
    · simp [tokenIsChar] at behind
    by_cases closes' : isChar r (ch ')') = true
    · simp only [List.head?_cons, tokenIsChar, Option.any_some, closes', Bool.not_true, Bool.false_eq_true, if_false,
        pure_run, Prod.mk.injEq, true_and] at behind
      exact ⟨t, text, c, r, after, rfl, behind.symm, call, balanced, closes, closes'⟩
    · simp [tokenIsChar, closes'] at behind
  · rw [looking_run] at run
    exact absurd run (anyValue_none _ _ _)
  · simp at run

theorem orGeneralEnclosed_ok {first : MqParser Part} (run : (orGeneralEnclosed first).run ts = (.ok part, rest)) :
    first.run ts = (.ok part, rest) ∨ part = .null ∧ mqParseGeneralEnclosed.run ts = (.ok (), rest) := by
  simp only [orGeneralEnclosed] at run
  split at run
  · obtain ⟨_, middle, general, behind⟩ := bind_eq_ok.mp run
    cases behind
    exact .inr ⟨rfl, general⟩
  · exact .inl run

theorem takes_function {l t : Token} {ts tail rest : List Token} (opens : isChar l (ch '(') = true)
    (trimmed : trim ts = t :: tail) (run : mqParseGeneralEnclosed.run (t :: tail) = (.ok (), rest)) :
    t.type = .function ∧ Takes .inParens true (l :: ts) rest := by
  obtain ⟨u, text, c, r, after, shape, rfl, call, balanced, closes, closes'⟩ := function_of_generalEnclosed run
  obtain ⟨rfl, rfl⟩ := List.cons.inj shape
  exact ⟨call, .function opens trimmed call balanced closes closes'⟩

theorem takes_of_inParens {condition : MqParser Part}
    (inner : ∀ ts part rest, condition.run ts = (.ok part, rest) → Takes (.condition true) (!whole part) ts rest)
    (run : (mqParseMediaInParens condition).run ts = (.ok part, rest)) : Takes .inParens (!whole part) ts rest := by
  rcases ts with _ | ⟨l, ts⟩
  · simp [mqParseMediaInParens, tokenIsChar] at run
  by_cases opens : isChar l (ch '(') = true
  case neg => simp [mqParseMediaInParens, tokenIsChar, opens] at run
  rcases trimmed : trim ts with _ | ⟨t, tail⟩
  · simp [mqParseMediaInParens, tokenIsChar, opens, trimmed] at run
  rw [inParens_of_open opens trimmed] at run
  split at run
  · rename_i begins
    simp only [mqParseNested] at run
    split at run
    · rename_i cond left outcome
      split at run
      · rename_i closed
        rcases left with _ | ⟨r, left⟩
        · cases closed
        · simp only [tail_cons, Prod.mk.injEq, Except.ok.injEq] at run
          obtain ⟨rfl, rfl⟩ := run
          exact .nested opens trimmed begins (inner _ _ _ outcome) closed
      · cases run
    · -- what begins with a parenthesis or `not` is no function
      rcases orGeneralEnclosed_ok run with failed | ⟨-, general⟩
      · cases failed
      · have call := (takes_function opens trimmed general).1
        simp [isChar, isKeyword, call] at begins
    · rename_i left failed _
      rw [run] at failed
      exact absurd rfl (failed part rest)
  split at run
  · rename_i begins named
    rcases orGeneralEnclosed_ok run with feature | ⟨-, general⟩
    · obtain ⟨f, middle, read, behind⟩ := bind_eq_ok.mp feature
      cases behind
      exact .feature opens trimmed (by simpa using (Bool.or_eq_false_iff.mp (by simpa using begins)).2) read
    · have call := (takes_function opens trimmed general).1
      simp [isNameOrValue, call] at named
  · rcases orGeneralEnclosed_ok run with failed | ⟨rfl, general⟩
    · cases failed
    · exact (takes_function opens trimmed general).2

theorem joiner_inv {op op' : Joiner} (run : (mqParseJoiner permitOr op t).run ts = (.ok op', rest)) :
    ∃ isOr, isKeyword t (joinWord isOr) = true ∧ (isOr = true → permitOr = true) ∧ op ≠ some (!isOr) ∧
      op' = some isOr ∧ rest = ts := by
  unfold mqParseJoiner at run
  split at run
  · cases run
  rename_i ident
  have ident : t.type = .ident := by simpa using ident
  split at run
  · rename_i word
    split at run
    · cases run
    · rename_i other
      cases run
      exact ⟨false, by simp [isKeyword, joinWord, ident, word], by simp, other, rfl, rfl⟩
  split at run
  · rename_i word
    split at run
    · cases run
    · rename_i other
      cases run
      exact ⟨true, by simp [isKeyword, joinWord, ident, word], fun _ => by simpa using not_or.mp other |>.1,
        (not_or.mp other).2, rfl, rfl⟩
  · cases run

theorem takes_of_loop {inParens : MqParser Part}
    (inner : ∀ ts part rest, inParens.run ts = (.ok part, rest) → Takes .inParens (!whole part) ts rest) (k : Nat) :
    ∀ op before ts op' parts rest, (op = some true → permitOr = true) →
      (mqConditionLoop inParens permitOr k op before).run ts = (.ok (op', parts), rest) →
      ∃ isOr own, parts = before ++ own ∧ (isOr = true → permitOr = true) ∧ op ≠ some (!isOr) ∧
        Takes (.chain isOr) (!wholeAll own) ts rest := by
  induction k with
  | zero => simp [mqConditionLoop]
  | succ k ih =>
    intro op before ts op' parts rest allowed run
    obtain ⟨part, middle, read, run⟩ := bind_eq_ok.mp run
    have first := inner _ _ _ read
    -- the last part: any word would do that has not been another
    have last : Follows middle → op = op' → before ++ [part] = parts → trim middle = rest →
        ∃ isOr own, parts = before ++ own ∧ (isOr = true → permitOr = true) ∧ op ≠ some (!isOr) ∧
          Takes (.chain isOr) (!wholeAll own) ts rest := by
      rintro follows - rfl rfl
      refine ⟨op == some true, [part], rfl, fun is => allowed (by simpa using is), ?_, ?_⟩
      · rcases op with _ | _ | _ <;> simp
      · simpa [wholeAll] using Takes.last first follows
    rw [bind_consumeWhitespace, bind_peek] at run
    rcases trimmed : trim middle with _ | ⟨t, tail⟩
    · rw [trimmed] at run
      cases run
      exact last (by simp [Follows, trimmed]) rfl rfl trimmed
    rw [trimmed] at run
    simp only [List.head?_cons] at run
    split at run
    · rename_i ends
      cases run
      exact last (by simpa [Follows, trimmed] using ends) rfl rfl trimmed
    · obtain ⟨joined, left, word, run⟩ := bind_eq_ok.mp run
      obtain ⟨isOr, joins, permitted, other, rfl, rfl⟩ := joiner_inv word
      rw [bind_iterate, bind_consumeWhitespace, tail_cons] at run
      obtain ⟨isOr', own, rfl, permitted', same, others⟩ := ih _ _ _ _ _ _ (by simpa using permitted) run
      obtain rfl : isOr' = isOr := by cases isOr <;> cases isOr' <;> simp_all
      refine ⟨isOr', part :: own, by simp, permitted, other, ?_⟩
      have all := Takes.more first trimmed joins others
      rwa [← Bool.not_and] at all

theorem takes_of_condition (n : Nat) : ∀ permitOr ts part rest,
    (mqParseCondition n permitOr).run ts = (.ok part, rest) → Takes (.condition permitOr) (!whole part) ts rest := by
  induction n with
  | zero => simp [mqParseCondition]
  | succ n ih =>
    intro permitOr ts part rest run
    have inParens : ∀ us part rest, (mqParseMediaInParens (mqParseCondition n true)).run us = (.ok part, rest) →
        Takes .inParens (!whole part) us rest := fun _ _ _ => takes_of_inParens (ih true)
    rw [mqParseCondition, bind_peek] at run
    rcases ts with _ | ⟨t, tail⟩
    · simp at run
    simp only [List.head?_cons] at run
    split at run
    · rename_i other
      split at run
      · cases run
      rename_i interned
      rw [bind_iterate, bind_consumeWhitespace, tail_cons] at run
      obtain ⟨operand, middle, read, behind⟩ := bind_eq_ok.mp run
      cases behind
      have taken : Takes (.condition permitOr) (!whole operand) (t :: tail) rest :=
        .negation (by simpa using other) (by simpa using interned) (inParens _ _ _ read)
      simpa [whole, wholeAll] using taken
    · obtain ⟨⟨op, parts⟩, middle, loop, behind⟩ := bind_eq_ok.mp run
      cases behind
      rw [looking_run] at loop
      obtain ⟨isOr, own, rfl, permitted, -, chain⟩ := takes_of_loop inParens _ _ _ _ _ _ _ (by simp) loop
      exact .joined permitted (by simpa [whole] using chain)

/-! ### What is taken is read -/

theorem takes_suffix (takes : Takes category hole ts rest) :
    rest <:+ ts ∧ (category = .inParens → rest.length < ts.length) := by
  induction takes with
  | @nested hole l t r ts tail rest opens trimmed begins inside closes ih =>
    have inner : rest <:+ ts := ((suffix_cons r rest).trans ih.1).trans (trimmed ▸ trim_suffix ts)
    exact ⟨inner.trans (suffix_cons l ts), fun _ => Nat.lt_succ_of_le inner.length_le⟩
  | @feature l t ts tail rest f opens trimmed begins inside =>
    have forward := forward_mqParseMediaFeature (t :: tail)
    rw [inside] at forward
    have inner : rest <:+ ts := List.IsSuffix.trans forward (trimmed ▸ trim_suffix ts)
    exact ⟨inner.trans (suffix_cons l ts), fun _ => Nat.lt_succ_of_le inner.length_le⟩
  | @function l t c r ts text rest opens trimmed call within closes closes' =>
    have taken : r :: rest <:+ t :: (text ++ c :: r :: rest) := ⟨t :: text ++ [c], by simp⟩
    have inner : r :: rest <:+ ts := taken.trans (trimmed ▸ trim_suffix ts)
    exact ⟨inner.trans (suffix_cons l ts), fun _ => Nat.lt_succ_of_le inner.length_le⟩
  | last only follows ih => exact ⟨(trim_suffix _).trans ih.1, by simp⟩
  | @more isOr hole hole' t ts middle tail rest first trimmed joins others ihFirst ihOthers =>
    have step : trim tail <:+ middle :=
      ((trim_suffix tail).trans (suffix_cons t tail)).trans (trimmed ▸ trim_suffix middle)
    exact ⟨(ihOthers.1.trans step).trans ihFirst.1, by simp⟩
  | @negation permitOr hole t tail rest other interned operand ih =>
    exact ⟨(ih.1.trans (trim_suffix tail)).trans (suffix_cons t tail), by simp⟩
  | joined allowed all ih => exact ⟨ih.1, by simp⟩

/-- That what is taken is read: by the parser of the category, with enough rounds and nestings, into
parts with a NULL just where there is a hole. -/
def ReadsAs : Category → Bool → List Token → List Token → Prop
  | .inParens, hole, ts, rest => ∀ n, ts.length ≤ n →
      ∃ part, whole part = !hole ∧ (mqParseMediaInParens (mqParseCondition n true)).run ts = (.ok part, rest)
  | .chain isOr, hole, ts, rest => ∀ n k permitOr op before, ts.length ≤ n → ts.length < k →
      (isOr = true → permitOr = true) → op ≠ some (!isOr) →
      ∃ op' parts, wholeAll parts = !hole ∧
        (mqConditionLoop (mqParseMediaInParens (mqParseCondition n true)) permitOr k op before).run ts =
          (.ok (op', before ++ parts), rest)
  | .condition permitOr, hole, ts, rest => ∀ n, ts.length < n →
      ∃ part, whole part = !hole ∧ (mqParseCondition n permitOr).run ts = (.ok part, rest)

theorem takes_open (takes : Takes category hole ts rest) (list : ∀ permitOr, category ≠ .condition permitOr) :
    ∃ l tail, ts = l :: tail ∧ isChar l (ch '(') = true := by
  induction takes with
  | nested opens => exact ⟨_, _, rfl, opens⟩
  | feature opens => exact ⟨_, _, rfl, opens⟩
  | function opens => exact ⟨_, _, rfl, opens⟩
  | last only follows ih => exact ih (by simp)
  | more first trimmed joins others ihFirst ihOthers => exact ihFirst (by simp)
  | negation => exact absurd rfl (list _)
  | joined => exact absurd rfl (list _)

theorem generalEnclosed_function {t c r : Token} {text : List Token} (call : t.type = .function)
    (within : Balanced text) (closes : isChar c (ch ')') = true) (closes' : isChar r (ch ')') = true)
    (rest : List Token) :
    mqParseGeneralEnclosed.run (t :: (text ++ c :: r :: rest)) = (.ok (), r :: rest) := by
  have value := anyValue_of_balanced within closer_paren closes (Nat.lt_succ_self (text ++ c :: r :: rest).length)
  rw [mqParseGeneralEnclosed, bind_iterate]
  simp only [List.head?_cons, tail_cons, call]
  rw [bind_ok ((looking_run _ _).trans value)]
  simp [tokenIsChar, closes']

theorem run_of_takes (takes : Takes category hole ts rest) : ReadsAs category hole ts rest := by
  induction takes with
  | @nested hole l t r ts tail rest opens trimmed begins inside closes ih =>
    intro n enough
    have fewer := (trimmed ▸ trim_suffix ts : t :: tail <:+ ts).length_le
    obtain ⟨part, same, read⟩ := ih n (by simp only [length_cons] at enough fewer ⊢; omega)
    refine ⟨part, same, ?_⟩
    rw [inParens_of_open opens trimmed, if_pos begins]
    simp [mqParseNested, read, tokenIsChar, closes]
  | @feature l t ts tail rest f opens trimmed begins inside =>
    intro n _
    refine ⟨.feature f, rfl, ?_⟩
    obtain ⟨u, us, trimmed', named⟩ := mediaFeature_head inside
    rw [← trimmed, trim_trim, trimmed] at trimmed'
    obtain ⟨rfl, rfl⟩ := List.cons.inj trimmed'
    have no_paren : isChar t (ch '(') = false := by
      simp only [isNameOrValue, Bool.or_eq_true, beq_iff_eq] at named
      rcases named with (type | type) | type <;> simp [isChar, type]
    have mapped := map_ok (f := Part.feature) inside
    rw [inParens_of_open opens trimmed, if_neg (by simp [no_paren, begins]), if_pos named]
    simp [orGeneralEnclosed, mapped]
  | @function l t c r ts text rest opens trimmed call within closes closes' =>
    intro n _
    refine ⟨.null, rfl, ?_⟩
    have general := generalEnclosed_function call within closes closes' rest
    rw [inParens_of_open opens trimmed, if_neg (by simp [isChar, isKeyword, call]),
      if_neg (by simp [isNameOrValue, call])]
    simp [orGeneralEnclosed, bind_ok general]
  | @last isOr hole ts rest only follows ih =>
    intro n k permitOr op before enough rounds _ _
    obtain ⟨k, rfl⟩ : ∃ j, k = j + 1 := ⟨k - 1, by omega⟩
    obtain ⟨part, same, read⟩ := ih n enough
    exact ⟨op, [part], by simp [wholeAll, same], loop_last read follows⟩
  | @more isOr hole hole' t ts middle tail rest first trimmed joins others ihFirst ihOthers =>
    intro n k permitOr op before enough rounds allowed same
    obtain ⟨k, rfl⟩ : ∃ j, k = j + 1 := ⟨k - 1, by omega⟩
    have shorter := (takes_suffix first).2 rfl
    have fewer : (trim tail).length < middle.length := by
      have own := (trimmed ▸ trim_suffix middle : t :: tail <:+ middle).length_le
      have less := (trim_suffix tail).length_le
      simp only [length_cons] at own
      omega
    obtain ⟨part, here, read⟩ := ihFirst n enough
    obtain ⟨op', parts, rest_whole, loop⟩ :=
      ihOthers n k permitOr (some isOr) (before ++ [part]) (by omega) (by omega) allowed (by simp)
    refine ⟨op', part :: parts, by simp [wholeAll, here, rest_whole], ?_⟩
    rw [loop_more read trimmed joins allowed same, loop]
    simp
  | @negation permitOr hole t tail rest other interned operand ih =>
    intro n enough
    obtain ⟨n, rfl⟩ : ∃ m, n = m + 1 := ⟨n - 1, by omega⟩
    have fewer := (trim_suffix tail).length_le
    obtain ⟨part, same, read⟩ := ih n (by simp only [length_cons] at enough; omega)
    refine ⟨.cond true false [part], by simp [whole, wholeAll, same], ?_⟩
    rw [mqParseCondition]
    simp [other, interned, bind_ok read]
  | @joined permitOr isOr hole ts rest allowed all ih =>
    intro n enough
    obtain ⟨n, rfl⟩ : ∃ m, n = m + 1 := ⟨n - 1, by omega⟩
    obtain ⟨l, tail, rfl, opens⟩ := takes_open all (by simp)
    obtain ⟨op, parts, same, loop⟩ := ih n _ permitOr none [] (by omega) (Nat.lt_succ_self _) allowed (by simp)
    exact ⟨_, by simpa [whole] using same, condition_of_loop opens loop⟩

/-! ### Rounds and nestings -/

section Steady
variable {e : Err} (serious : e ≠ .invalid)
include serious

theorem steady_consumeAnyValue (n : Nat) : ∀ (until? : Option UInt8) (ts : List Token), ts.length < n →
    (consumeAnyValue n until?).Steady e ts := by
  induction n with
  | zero => exact fun _ _ short => absurd short (Nat.not_lt_zero _)
  | succ n ih =>
    intro until? ts short
    refine (steady_skip _ ts).bind fun _ us skipped => (steady_iterate us).bind fun token rest taken => ?_
    cases skipped
    cases taken
    rcases trimmed : ts.dropWhile isSpace with _ | ⟨t, us⟩
    · exact steady_invalid serious _
    have fewer := (trimmed ▸ trim_suffix ts : t :: us <:+ ts).length_le
    have shorter : us.length < n := by
      simp only [length_cons] at fewer
      omega
    have again := ih until? us shorter
    have nested : ∀ close, (consumeAnyValue n (some close) >>= fun _ => consumeAnyValue n until?).Steady e us := by
      intro close
      have inside := ih (some close) us shorter
      refine inside.bind fun _ rest run => ih until? rest ?_
      have less := inside.1.length_le
      rw [run] at less
      exact lt_of_le_of_lt less shorter
    simp only [List.head?_cons, tail_cons]
    repeat' first
      | simp only [steady_invalid serious, steady_pure, again, nested]
      | split

theorem steady_mqParseGeneralEnclosed (ts : List Token) : mqParseGeneralEnclosed.Steady e ts := by
  unfold mqParseGeneralEnclosed
  have value : ∀ until? (us : List Token),
      (Parser.looking fun us => consumeAnyValue (us.length + 1) until? : MqParser Unit).Steady e us :=
    fun until? us => steady_looking (steady_consumeAnyValue serious _ until? us (Nat.lt_succ_self _))
  repeat' first
    | simp only [steady_invalid serious, steady_pure, steady_iterate, steady_peek, value]
    | split | refine Parser.Steady.bind ?_ fun _ _ _ => ?_

variable {ts : List Token} {condition : MqParser Part}

theorem steady_orGeneralEnclosed {first : MqParser Part} (steady : first.Steady e ts) :
    (orGeneralEnclosed first).Steady e ts := by
  rcases outcome : first.run ts with ⟨err | part, rest⟩
  · cases err with
    | invalid =>
      refine Parser.Steady.of_run ((steady_mqParseGeneralEnclosed serious ts).bind fun _ rest _ =>
        steady_pure Part.null rest) (suffix_refl ts) ?_
      simp [orGeneralEnclosed, outcome]
    | nullRead | fuel => exact steady.of_run (suffix_refl ts) (by simp [orGeneralEnclosed, outcome])
  · exact steady.of_run (suffix_refl ts) (by simp [orGeneralEnclosed, outcome])

theorem steady_mqParseNested (steady : condition.Steady e ts) : (mqParseNested condition).Steady e ts := by
  rcases outcome : condition.run ts with ⟨err | part, rest⟩
  · cases err with
    | invalid =>
      exact (steady_orGeneralEnclosed serious (steady_invalid serious ts)).of_run (suffix_refl ts)
        (by simp [mqParseNested, outcome])
    | nullRead | fuel => exact steady.of_run (suffix_refl ts) (by simp [mqParseNested, outcome])
  · have forward := steady.1
    rw [outcome] at forward
    have after : rest.tail <:+ ts := (tail_suffix rest).trans forward
    by_cases closes : tokenIsChar rest.head? (ch ')') = true
    · exact (steady_pure part rest.tail).of_run after (by simp [mqParseNested, outcome, closes])
    · exact (steady_invalid serious rest.tail).of_run after (by simp [mqParseNested, outcome, closes])

theorem steady_mqParseMediaInParens
    (steady : ∀ t tail, (t :: tail).length < ts.length → t.type.interned = true → condition.Steady e (t :: tail)) :
    (mqParseMediaInParens condition).Steady e ts := by
  rcases ts with _ | ⟨l, ts⟩
  · exact (steady_invalid serious []).of_run (suffix_refl _) (by simp [mqParseMediaInParens, tokenIsChar])
  by_cases opens : isChar l (ch '(') = true
  case neg =>
    exact (steady_invalid serious ts).of_run (suffix_cons l ts)
      (by simp [mqParseMediaInParens, tokenIsChar, opens])
  rcases trimmed : trim ts with _ | ⟨t, tail⟩
  · exact (steady_invalid serious []).of_run nil_suffix
      (by simp [mqParseMediaInParens, tokenIsChar, opens, trimmed])
  have inside : t :: tail <:+ ts := trimmed ▸ trim_suffix ts
  have after := inside.trans (suffix_cons l ts)
  have run := @inParens_of_open l t ts tail condition opens trimmed
  split at run
  · rename_i begins
    have interned : t.type.interned = true := by
      rcases Bool.or_eq_true_iff.mp begins with paren | word
      · rw [show t.type = .char by simpa using (Bool.and_eq_true_iff.mp paren).1]
        rfl
      · rw [(insensitive_of_keyword word).1]
        rfl
    have nested := steady t tail (Nat.lt_succ_of_le inside.length_le) interned
    exact (steady_mqParseNested serious nested).of_run after run
  split at run
  · exact (steady_orGeneralEnclosed serious ((steady_mqParseMediaFeature serious _).map _)).of_run after run
  · exact (steady_orGeneralEnclosed serious (steady_invalid serious _)).of_run after run

theorem steady_mqParseJoiner (permitOr : Bool) (op : Joiner) (token : Token) (ts : List Token) :
    (mqParseJoiner permitOr op token).Steady e ts := by
  unfold mqParseJoiner
  repeat' first | simp only [steady_invalid serious, steady_pure] | split

theorem steady_mqConditionLoop {inParens : MqParser Part} {permitOr : Bool} (k : Nat) :
    ∀ op parts ts, ts.length < k →
      (∀ us, us <:+ ts → inParens.Steady e us ∧ inParens.Consumes us) →
      (mqConditionLoop inParens permitOr k op parts).Steady e ts := by
  induction k with
  | zero => exact fun _ _ _ short => absurd short (Nat.not_lt_zero _)
  | succ k ih =>
    intro op parts ts short steady
    obtain ⟨first, consumes⟩ := steady ts (suffix_refl ts)
    refine first.bind fun part rest run => ?_
    have shorter := consumes part rest run
    have suffix := first.1
    rw [run] at suffix
    refine (steady_skip _ rest).bind fun _ us skipped => (steady_peek us).bind fun token vs looked => ?_
    cases skipped
    cases looked
    have fewer := (trim_suffix rest).length_le
    rcases trimmed : rest.dropWhile isSpace with _ | ⟨t, tail⟩
    · exact steady_pure _ _
    have inner : t :: tail <:+ rest := trimmed ▸ trim_suffix rest
    simp only [List.head?_cons]
    split
    · exact steady_pure _ _
    refine (steady_mqParseJoiner serious _ _ _ _).bind fun joined left word => ?_
    obtain ⟨-, -, -, -, -, rfl⟩ := joiner_inv word
    refine (steady_iterate _).bind fun _ us taken => (steady_skip _ us).bind fun _ vs skipped => ?_
    cases taken
    cases skipped
    have after : trim tail <:+ ts :=
      (((trim_suffix tail).trans (suffix_cons t tail)).trans inner).trans suffix
    refine ih _ _ _ ?_ fun us part => steady us (part.trans after)
    have less := inner.length_le
    have trim_less := (trim_suffix tail).length_le
    simp only [length_cons] at less
    change (trim tail).length < k
    omega

theorem steady_mqParseCondition (n : Nat) : ∀ permitOr ts, ts.length < n →
    (∀ t tail, ts = t :: tail → t.type.interned = true) → (mqParseCondition n permitOr).Steady e ts := by
  induction n with
  | zero => exact fun _ _ short => absurd short (Nat.not_lt_zero _)
  | succ n ih =>
    intro permitOr ts short interned
    have inParens : ∀ us, us <:+ ts → (mqParseMediaInParens (mqParseCondition n true)).Steady e us := by
      intro us suffix
      refine steady_mqParseMediaInParens serious fun t tail less string => ih true _ ?_ ?_
      · have := suffix.length_le
        omega
      · rintro t' tail' same
        obtain ⟨rfl, -⟩ := List.cons.inj same
        exact string
    rw [mqParseCondition]
    refine (steady_peek ts).bind fun token us looked => ?_
    cases looked
    rcases ts with _ | ⟨t, tail⟩
    · exact steady_invalid serious _
    simp only [List.head?_cons]
    split
    · rw [if_neg (by simp [interned t tail rfl])]
      have after : trim tail <:+ t :: tail := (trim_suffix tail).trans (suffix_cons t tail)
      have negated := (inParens _ after).bind fun part rest _ => steady_pure (Part.cond true false [part]) rest
      exact negated.of_run after (by simp)
    · refine Parser.Steady.bind ?_ fun _ _ _ => steady_pure _ _
      refine steady_looking (steady_mqConditionLoop serious _ _ _ _ (Nat.lt_succ_self _) fun us suffix => ?_)
      refine ⟨inParens us suffix, ?_⟩
      intro part rest run
      exact (takes_suffix (takes_of_inParens (takes_of_condition n true) run)).2 rfl

end Steady

/-! ### Queries -/

def queryWith (negate : Bool) (bits : UInt64) (c : Part) : Query :=
  { negateType := negate, type := bits, cond := some c }

theorem conditionAll_of_takes (takes : Takes (.condition permitOr) hole ts rest) :
    ∃ c, whole c = !hole ∧ (mqParseConditionAll permitOr).run ts = (.ok c, rest) :=
  run_of_takes takes _ (Nat.lt_succ_self _)

theorem takes_of_conditionAll {c : Part} (run : (mqParseConditionAll permitOr).run ts = (.ok c, rest)) :
    Takes (.condition permitOr) (!whole c) ts rest :=
  takes_of_condition (ts.length + 1) _ _ _ _ run

theorem steady_conditionAll {e : Err} (serious : e ≠ .invalid)
    (interned : ∀ t tail, ts = t :: tail → t.type.interned = true) : (mqParseConditionAll permitOr).Steady e ts :=
  steady_looking (steady_mqParseCondition serious _ _ _ (Nat.lt_succ_self _) interned)

theorem conditionAll_nullRead (bare : t.type.interned = false) (tail : List Token) :
    (mqParseConditionAll permitOr).run (t :: tail) = (.error .nullRead, t :: tail) := by
  have other : isChar t (ch '(') = false := by
    refine isChar_type ?_
    rintro char
    rw [char] at bare
    cases bare
  rw [mqParseConditionAll, looking_run, mqParseCondition]
  simp [other, bare]

theorem query_of_begins (begins : BeginsCondition ts) :
    mqParseMediaQuery.run ts = (queryWith false mediaAll <$> mqParseConditionAll true).run (trim ts) := by
  obtain ⟨t, tail, trimmed, condition⟩ := begins
  simp only [mqParseMediaQuery, bind_consumeWhitespace, trimmed, bind_peek, List.head?_cons,
    bind_looking_pure, condition, if_true]
  rfl

theorem query_of_typed (typed : Typed ts after) :
    ∃ negate bits, mqParseMediaQuery.run ts = (queryWith negate bits <$> mqParseConditionAll false).run after := by
  obtain @⟨t, a, w, modifier, w', rest, negate, bits, before, modified, ident, known, between, joins⟩ := typed
  refine ⟨negate, bits, ?_⟩
  rw [query_of_type before modified ident known]
  have trimmed : trim (w' ++ a :: rest) = a :: rest := by
    rw [trim_append between, trim_cons_of_not_space (isSpace_of_isKeyword joins)]
  simp only [mqParseTyped, ident, known, ne_eq, not_true_eq_false, if_false, bind_consumeWhitespace, trimmed,
    bind_iterate, List.head?_cons, tail_cons, joins, Bool.not_true, Bool.false_eq_true]
  rfl

theorem typed_cases {w modifier tail : List Token} {negate : Bool} {token : Option Token} (before : Blank w)
    (modified : Modifier modifier negate) :
    ((mqParseTyped negate token).run tail).1 = .error .invalid ∨
      (∃ q, ((mqParseTyped negate token).run tail).1 = .ok q ∧ q.cond = none) ∨
      ∃ t after, token = some t ∧ Typed (w ++ (modifier ++ t :: tail)) after := by
  rcases token with _ | t
  · exact .inl rfl
  by_cases ident : t.type = .ident
  case neg => exact .inl (by simp [mqParseTyped, ident])
  rcases known : mqParseType t.idata with _ | bits
  · exact .inl (by simp [mqParseTyped, ident, known])
  obtain ⟨w', between, parts⟩ := blank_split tail
  rcases trimmed : trim tail with _ | ⟨a, rest⟩
  · exact .inr (.inl ⟨_, congrArg Prod.fst (typed_end ident known trimmed), rfl⟩)
  by_cases joins : isKeyword a (lit "and") = true
  · rw [trimmed] at parts
    refine .inr (.inr ⟨t, trim rest, rfl, ?_⟩)
    rw [parts]
    exact .and before modified ident known between joins
  · exact .inl (by simp [mqParseTyped, ident, known, trimmed, joins])

theorem query_cases (ts : List Token) :
    trim ts = [] ∨ BeginsCondition ts ∨ (∃ after, Typed ts after) ∨
      (mqParseMediaQuery.run ts).1 = .error .invalid ∨
      ∃ q, (mqParseMediaQuery.run ts).1 = .ok q ∧ q.cond = none := by
  obtain ⟨w, before, shape⟩ := blank_split ts
  rcases trimmed : trim ts with _ | ⟨t, tail⟩
  · exact .inl rfl
  rw [trimmed] at shape
  by_cases condition : (isChar t (ch '(') || notParen (t :: tail)) = true
  · exact .inr (.inl ⟨t, tail, trimmed, condition⟩)
  refine .inr (.inr ?_)
  -- behind a modifier, or where there is none, the type is read
  have behind : ∀ {modifier negate token rest}, Modifier modifier negate →
      (∀ u, token = some u → t :: tail = modifier ++ u :: rest) →
      mqParseMediaQuery.run ts = (mqParseTyped negate token).run rest →
      (∃ after, Typed ts after) ∨ (mqParseMediaQuery.run ts).1 = .error .invalid ∨
        ∃ q, (mqParseMediaQuery.run ts).1 = .ok q ∧ q.cond = none := by
    intro modifier negate token rest modified parts run
    rw [run]
    rcases @typed_cases w modifier rest negate token before modified with refused | bare | ⟨u, after, rfl, typed⟩
    · exact .inr (.inl refused)
    · exact .inr (.inr bare)
    · rw [← parts u rfl, ← shape] at typed
      exact .inl ⟨after, typed⟩
  have run := Eq.refl (mqParseMediaQuery.run ts)
  conv_rhs at run =>
    rw [mqParseMediaQuery, bind_consumeWhitespace, trimmed]
    simp only [bind_peek, List.head?_cons, bind_looking_pure, condition, Bool.false_eq_true, if_false,
      bind_iterate, tail_cons]
  obtain ⟨v, between, split⟩ := blank_split tail
  have word : ∀ u, (trim tail).head? = some u → t :: tail = t :: v ++ u :: (trim tail).tail := by
    intro u head
    have cons : trim tail = u :: (trim tail).tail := List.eq_cons_of_mem_head? (by simp [head])
    rw [cons_append, ← cons, ← split]
  split at run
  · exact .inr (.inl (by rw [run]; rfl))
  split at run
  · rename_i negates
    exact behind (.negated negates between) word run
  split at run
  · rename_i only
    exact behind (.only only between) word run
  · exact behind .absent (by rintro u ⟨⟩; rfl) run

/-! ### Items -/

def ReadsWhole (ts : List Token) : Prop :=
  ∃ q, queryOrNotAll (mqParseMediaQuery.run ts).1 = .ok q ∧ ∀ c, q.cond = some c → whole c = true

/-- A condition that begins at a token with a string either is refused or reads as a query, which is without
a NULL part unless the condition takes a function for one. -/
theorem readsWhole_of_condition
    (run : mqParseMediaQuery.run ts = (queryWith negate bits <$> mqParseConditionAll permitOr).run after)
    (interned : ∀ t tail, after = t :: tail → t.type.interned = true)
    (no_hole : ∀ rest, ¬ Takes (.condition permitOr) true after rest) : ReadsWhole ts := by
  rcases outcome : (mqParseConditionAll permitOr).run after with ⟨e | c, rest⟩
  · have failed : (mqParseMediaQuery.run ts).1 = .error e := by
      rw [run]
      exact congrArg Prod.fst (bind_error outcome)
    have steady : ∀ e', e' ≠ .invalid → e ≠ e' := by
      intro e' serious same
      have steady : (mqParseConditionAll permitOr).Steady e' after := steady_conditionAll serious interned
      have other := steady.2
      rw [outcome] at other
      exact other (by rw [same])
    cases e with
    | invalid => exact ⟨notAll, by rw [failed]; rfl, by simp [notAll]⟩
    | nullRead => exact absurd rfl (steady .nullRead (by decide))
    | fuel => exact absurd rfl (steady .fuel (by decide))
  · have read : (mqParseMediaQuery.run ts).1 = .ok (queryWith negate bits c) := by
      rw [run]
      exact congrArg Prod.fst (map_ok outcome)
    refine ⟨_, by rw [read]; rfl, ?_⟩
    rintro c' ⟨⟩
    have takes := takes_of_conditionAll outcome
    by_contra hole
    rw [Bool.not_eq_true] at hole
    rw [hole] at takes
    exact no_hole rest takes

theorem interned_of_begins {t : Token} {tail : List Token}
    (begins : (isChar t (ch '(') || notParen (t :: tail)) = true) : t.type.interned = true := by
  rcases Bool.or_eq_true_iff.mp begins with paren | word
  · rw [show t.type = .char by simpa using (Bool.and_eq_true_iff.mp paren).1]
    rfl
  · have keyword : isKeyword t (lit "not") = true := by simpa using (Bool.and_eq_true_iff.mp word).1
    rw [(insensitive_of_keyword keyword).1]
    rfl

theorem readsWhole_of_harmless (harmless : Harmless ts) : ReadsWhole ts := by
  rcases query_cases ts with empty | begins | ⟨after, typed⟩ | refused | ⟨q, read, bare⟩
  · exact absurd empty harmless.some_token
  · refine readsWhole_of_condition (query_of_begins begins) ?_ fun rest takes => harmless.no_hole (.condition begins takes)
    intro t tail trimmed
    obtain ⟨u, us, trimmed', condition⟩ := begins
    obtain ⟨rfl, rfl⟩ := List.cons.inj (trimmed'.symm.trans trimmed)
    exact interned_of_begins condition
  · obtain ⟨negate, bits, run⟩ := query_of_typed typed
    refine readsWhole_of_condition run ?_ fun rest takes => harmless.no_hole (.typed typed takes)
    rintro t tail rfl
    exact harmless.interned t tail typed
  · exact ⟨notAll, by rw [refused]; rfl, by simp [notAll]⟩
  · exact ⟨q, by rw [read]; rfl, by simp [bare]⟩

theorem not_readsWhole_of_takes
    (run : mqParseMediaQuery.run ts = (queryWith negate bits <$> mqParseConditionAll permitOr).run after)
    (takes : Takes (.condition permitOr) true after rest) : ¬ ReadsWhole ts := by
  rintro ⟨q, read, all⟩
  obtain ⟨c, hole, outcome⟩ := conditionAll_of_takes takes
  rw [run, map_ok outcome] at read
  obtain rfl : queryWith negate bits c = q := Except.ok.inj read
  simp [all c rfl] at hole

theorem harmless_of_readsWhole (reads : ReadsWhole ts) : Harmless ts where
  some_token := by
    intro empty
    obtain ⟨q, read, -⟩ := reads
    simp [mqParseMediaQuery, empty, queryOrNotAll] at read
  interned := by
    intro t tail typed
    obtain ⟨q, read, -⟩ := reads
    by_contra bare
    obtain ⟨negate, bits, run⟩ := query_of_typed typed
    rw [run, map_error (conditionAll_nullRead (by simpa using bare) tail)] at read
    cases read
  no_hole := by
    rintro (⟨begins, takes⟩ | ⟨typed, takes⟩)
    · exact not_readsWhole_of_takes (query_of_begins begins) takes reads
    · obtain ⟨negate, bits, run⟩ := query_of_typed typed
      exact not_readsWhole_of_takes run takes reads

/-! ### Lists -/

theorem loop_whole (short : ts.length < n)
    (harmless : ∀ start, Relation.ReflTransGen NextItem ts start → Harmless start) :
    ∃ qs, mediaListLoop n ts = .ok qs ∧ ∀ q ∈ qs, ∀ c, q.cond = some c → whole c = true := by
  induction n generalizing ts with
  | zero => omega
  | succ n ih =>
    obtain ⟨q, read, all⟩ := readsWhole_of_harmless (harmless ts .refl)
    have forward := (trim_suffix _).trans (forward_mqParseMediaQuery ts)
    rcases trimmed : trim (mqParseMediaQuery.run ts).2 with _ | ⟨t, rest⟩
    · exact ⟨[q], by simp [mediaListLoop, read, trimmed, bind, Except.bind], by simpa using all⟩
    by_cases comma : isChar t (ch ',') = true
    · rw [trimmed] at forward
      have fewer := forward.length_le
      simp only [length_cons] at fewer
      obtain ⟨qs, loop, rest_all⟩ :=
        @ih rest (by omega) fun start reached => harmless start (.head ⟨t, comma, trimmed⟩ reached)
      refine ⟨q :: qs, by simp [mediaListLoop, read, trimmed, comma, loop, bind, Except.bind], ?_⟩
      simpa using ⟨all, rest_all⟩
    · exact ⟨[q], by simp [mediaListLoop, read, trimmed, comma, bind, Except.bind], by simpa using all⟩

theorem loop_inv (loop : mediaListLoop (n + 1) ts = .ok qs) (all : ∀ q ∈ qs, ∀ c, q.cond = some c → whole c = true) :
    ReadsWhole ts ∧ ∀ rest, NextItem ts rest → ∃ qs', mediaListLoop n rest = .ok qs' ∧
      ∀ q ∈ qs', ∀ c, q.cond = some c → whole c = true := by
  rcases read : queryOrNotAll (mqParseMediaQuery.run ts).1 with e | q
  · simp [mediaListLoop, read, bind, Except.bind] at loop
  by_cases next : ∃ rest, NextItem ts rest
  · obtain ⟨rest, t, comma, trimmed⟩ := next
    rcases inner : mediaListLoop n rest with e | rs
    · simp [mediaListLoop, read, trimmed, comma, inner, bind, Except.bind] at loop
    · obtain rfl : q :: rs = qs := by
        simpa [mediaListLoop, read, trimmed, comma, inner, bind, Except.bind] using loop
      refine ⟨⟨q, read, all q (by simp)⟩, ?_⟩
      rintro rest' ⟨t', comma', trimmed'⟩
      obtain ⟨rfl, rfl⟩ := List.cons.inj (trimmed.symm.trans trimmed')
      exact ⟨rs, inner, fun r member => all r (by simp [member])⟩
  · obtain rfl : [q] = qs := by
      rcases trimmed : trim (mqParseMediaQuery.run ts).2 with _ | ⟨t, rest⟩
      · simpa [mediaListLoop, read, trimmed, bind, Except.bind] using loop
      · have other : isChar t (ch ',') = false := by
          rw [Bool.eq_false_iff]
          exact fun comma => next ⟨rest, t, comma, trimmed⟩
        simpa [mediaListLoop, read, trimmed, other, bind, Except.bind] using loop
    exact ⟨⟨q, read, all q (by simp)⟩, fun rest item => absurd ⟨rest, item⟩ next⟩

theorem harmless_of_loop {start : List Token} (loop : mediaListLoop n ts = .ok qs)
    (all : ∀ q ∈ qs, ∀ c, q.cond = some c → whole c = true) (reached : Relation.ReflTransGen NextItem ts start) :
    Harmless start := by
  induction n generalizing ts qs with
  | zero => cases loop
  | succ n ih =>
    obtain ⟨reads, behind⟩ := loop_inv loop all
    rcases Relation.ReflTransGen.cases_head reached with rfl | ⟨rest, item, reached⟩
    · exact harmless_of_readsWhole reads
    · obtain ⟨qs', loop', all'⟩ := behind rest item
      exact ih loop' all' reached

mutual

theorem matchPart_of_whole (media : Media) : ∀ part, whole part = true → ∃ matched, mqMatchPart media part = some matched
  | .feature f, _ => ⟨mqMatchFeature media f, by simp [mqMatchPart]⟩
  | .cond negate op parts, all => by
    obtain ⟨matched, run⟩ := matchParts_of_whole media op parts (by simpa [whole] using all)
    exact ⟨matched != negate, by simp [mqMatchPart, run]⟩

theorem matchParts_of_whole (media : Media) (op : Bool) :
    ∀ parts, wholeAll parts = true → ∃ matched, mqMatchParts media op parts = some matched
  | [], _ => ⟨!op, by simp [mqMatchParts]⟩
  | part :: parts, all => by
    obtain ⟨here, rest⟩ := Bool.and_eq_true_iff.mp (by simpa [wholeAll] using all)
    obtain ⟨matched, run⟩ := matchPart_of_whole media part here
    obtain ⟨matched', run'⟩ := matchParts_of_whole media op parts rest
    by_cases decides : matched = op
    · exact ⟨op, by simp [mqMatchParts, run, decides]⟩
    · exact ⟨matched', by simp [mqMatchParts, run, run', decides]⟩

end

theorem listMatch_of_whole (media : Media) (all : ∀ q ∈ qs, ∀ c, q.cond = some c → whole c = true) :
    ∃ matched, mqListMatch media qs = some matched := by
  induction qs with
  | nil => exact ⟨false, rfl⟩
  | cons q qs ih =>
    obtain ⟨rest, run⟩ := ih fun r member => all r (by simp [member])
    have condition : ∃ matched, (q.cond.map (mqMatchPart media)).getD (some true) = some matched := by
      rcases cond : q.cond with _ | c
      · exact ⟨true, rfl⟩
      · exact matchPart_of_whole media c (all q (by simp) c cond)
    obtain ⟨matched, here⟩ := condition
    by_cases typed : (typeMatches media q != q.negateType) = true
    · cases matched with
      | true => exact ⟨true, by simp [mqListMatch, typed, here]⟩
      | false => exact ⟨rest, by simp [mqListMatch, typed, here, run]⟩
    · exact ⟨rest, by simp [mqListMatch, typed, run]⟩

/-- A list is parsed and matched without a read through NULL just where no item that the parser comes to does
harm: an item of white space only, a media type with `and` and a token without a string behind it, or a query
with a function for a part. -/
theorem mediaList_total_iff (ts : List Token) :
    Total ts ↔ (ts ≠ [] → ∀ start, Relation.ReflTransGen NextItem ts start → Harmless start) := by
  rw [Total, mqParseMediaList]
  by_cases empty : ts = []
  · rw [if_pos empty]
    exact iff_of_true ⟨[], rfl, by simp, fun _ => ⟨false, rfl⟩⟩ fun some_token => absurd empty some_token
  rw [if_neg empty]
  constructor
  · rintro ⟨qs, loop, all, -⟩ _ start reached
    exact harmless_of_loop loop all reached
  · intro harmless
    obtain ⟨qs, loop, all⟩ := loop_whole (Nat.lt_succ_self ts.length) (harmless empty)
    exact ⟨qs, loop, all, fun media => listMatch_of_whole media all⟩

/-- `( foo(bar) )` without the white space. -/
def functionPart : List Token :=
  [⟨.char, lit "("⟩, ⟨.function, lit "foo"⟩, ⟨.ident, lit "bar"⟩, ⟨.char, lit ")"⟩, ⟨.char, lit ")"⟩]

/-- `screen and` with `~=` behind it. -/
def bareAnd : List Token := [⟨.ident, lit "screen"⟩, ⟨.s, []⟩, ⟨.ident, lit "and"⟩, ⟨.s, []⟩, ⟨.includes, []⟩]

/-- `(color),` -/
def trailingComma : List Token :=
  [⟨.char, lit "("⟩, ⟨.ident, lit "color"⟩, ⟨.char, lit ")"⟩, ⟨.char, lit ","⟩]

theorem functionPart_null :
    ∃ q, mqParseMediaList functionPart = .ok [q] ∧ q.cond = some (.cond false false [.null]) ∧
      mqListMatch screen [q] = none :=
  ⟨queryWith false mediaAll (.cond false false [.null]), rfl, rfl, rfl⟩

/-- The part of a function is NULL and its match reads that; a token that is missing or has no string is read
while the list is parsed. -/
theorem mediaList_not_total : ¬ Total functionPart ∧ ¬ Total trailingComma ∧ ¬ Total bareAnd := by
  refine ⟨?_, ?_, ?_⟩
  · rintro ⟨qs, parsed, -, matched⟩
    obtain ⟨q, parsed', -, null⟩ := functionPart_null
    obtain rfl : [q] = qs := Except.ok.inj (parsed'.symm.trans parsed)
    obtain ⟨b, some_match⟩ := matched screen
    rw [null] at some_match
    cases some_match
  · rintro ⟨qs, parsed, -⟩
    have nullRead : mqParseMediaList trailingComma = .error .nullRead := rfl
    rw [nullRead] at parsed
    cases parsed
  · rintro ⟨qs, parsed, -⟩
    have nullRead : mqParseMediaList bareAnd = .error .nullRead := rfl
    rw [nullRead] at parsed
    cases parsed

end Besra.MqTotal
