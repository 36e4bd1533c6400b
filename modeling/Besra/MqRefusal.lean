import Besra.MqTotal

/-!
Where the parser of media queries stops when it refuses an item, as a relation on tokens (`RefusesQuery`),
and the lists of which it keeps the items apart.
-/
namespace Besra.MqRefusal
open Lwc Cursor Besra.Lex MqParse MqGrammar Mq MqTotal List Parser

/-- `mq_parse_consume_any_value`, reading up to a closing bracket, is broken off: the tokens end, or it
comes to an invalid string or to another closing bracket; `rest` is behind that. -/
inductive Breaks : Option UInt8 → List Token → List Token → Prop
  | ended {until? : Option UInt8} {text : List Token} (within : Balanced text) : Breaks until? text []
  | string {until? : Option UInt8} {t : Token} {text rest : List Token} (within : Balanced text)
      (bad : t.type = .invalidString) : Breaks until? (text ++ t :: rest) rest
  | closed {until? : Option UInt8} {t : Token} {text rest : List Token} (within : Balanced text)
      (closes : isClose t = true) (other : until?.any (isChar t) = false) : Breaks until? (text ++ t :: rest) rest
  | inside {until? : Option UInt8} {t : Token} {close : UInt8} {text tail rest : List Token} (within : Balanced text)
      (opens : closing t = some close) (breaks : Breaks (some close) tail rest) : Breaks until? (text ++ t :: tail) rest

variable {front rest ts tail item : List Token} {until? : Option UInt8} {t : Token} {permitOr : Bool}
  {list : List (List Token)}

theorem balanced_append {text : List Token} (first : Balanced front) (second : Balanced text) :
    Balanced (front ++ text) := by
  induction first with
  | nil => exact second
  | token string opens closes _ ih => exact .token string opens closes ih
  | bracket opens within closes _ _ ih =>
    rw [append_assoc, cons_append]
    exact .bracket opens within closes ih

theorem Breaks.prepend (first : Balanced front) (breaks : Breaks until? ts rest) :
    Breaks until? (front ++ ts) rest := by
  cases breaks with
  | ended within => exact .ended (balanced_append first within)
  | string within bad =>
    rw [← append_assoc]
    exact .string (balanced_append first within) bad
  | closed within closes other =>
    rw [← append_assoc]
    exact .closed (balanced_append first within) closes other
  | inside within opens breaks =>
    rw [← append_assoc]
    exact .inside (balanced_append first within) opens breaks

theorem isClose_char (closes : isClose t = true) : t.type = .char := by
  by_contra other
  simp [isClose, isChar_type other] at closes

theorem run_of_breaks (breaks : Breaks until? ts rest) (closer : ∀ close, until? = some close → Closer close) :
    ∀ n, ts.length < n → (consumeAnyValue n until?).run ts = (.error .invalid, rest) := by
  induction breaks with
  | @ended until? text within =>
    have behind : ∀ n, ([] : List Token).length < n → (consumeAnyValue n until?).run [] = (.error .invalid, []) := by
      intro n more
      obtain ⟨n, rfl⟩ : ∃ m, n = m + 1 := ⟨n - 1, by omega⟩
      simp [consumeAnyValue]
    simpa using anyValue_prefix within closer behind
  | string within bad =>
    refine anyValue_prefix within closer fun n more => ?_
    obtain ⟨n, rfl⟩ : ∃ m, n = m + 1 := ⟨n - 1, by omega⟩
    simp [consumeAnyValue, isSpace, bad]
  | closed within closes other =>
    refine anyValue_prefix within closer fun n more => ?_
    obtain ⟨n, rfl⟩ : ∃ m, n = m + 1 := ⟨n - 1, by omega⟩
    simp [consumeAnyValue, isSpace, isClose_char closes, closes, other]
  | @inside until? t close text tail rest within opens _ ih =>
    refine anyValue_prefix within closer fun n more => ?_
    obtain ⟨n, rfl⟩ : ∃ m, n = m + 1 := ⟨n - 1, by omega⟩
    obtain ⟨char, other⟩ := opening opens
    have different : until?.any (isChar t) = false := by
      rw [Option.any_eq_false]
      intro c is
      rw [Bool.eq_false_iff]
      exact fun same => by simp [isClose_of_isChar (closer c is) same] at other
    have deeper := ih (by rintro _ ⟨⟩; exact closer_closing opens) n (by simpa using more)
    simp [consumeAnyValue, isSpace, char, different, other, opens, bind_error deeper]

theorem breaks_of_run (n : Nat) : ∀ until? ts rest,
    (consumeAnyValue n until?).run ts = (.error .invalid, rest) → Breaks until? ts rest := by
  induction n with
  | zero => simp [consumeAnyValue]
  | succ n ih =>
    intro until? ts rest run
    obtain ⟨w, blank, parts⟩ := blank_split ts
    have space : Balanced w := by simpa using balanced_blank blank .nil
    rw [consumeAnyValue, bind_consumeWhitespace, bind_iterate] at run
    rcases trimmed : trim ts with _ | ⟨t, us⟩
    · rw [trimmed] at run parts
      cases run
      rw [parts]
      exact .prepend space (.ended .nil)
    rw [trimmed] at run parts
    rw [parts]
    refine .prepend space ?_
    simp only [List.head?_cons, tail_cons] at run
    split at run
    · rename_i bad
      cases run
      exact .string .nil bad
    rename_i string
    -- a token that is passed over stands in front of what breaks the value off
    have passed : closing t = none → isClose t = false → Breaks until? us rest → Breaks until? (t :: us) rest :=
      fun opens closes => Breaks.prepend (.token string opens closes .nil)
    split at run
    · split at run
      · cases run
      rename_i other
      split at run
      · rename_i closes
        cases run
        exact .closed .nil closes (by simpa using other)
      rename_i closes
      split at run
      · rename_i close opens
        rcases bind_eq_error.mp run with deeper | ⟨_, middle, within, behind⟩
        · exact .inside .nil opens (ih _ _ _ deeper)
        · obtain ⟨inside, r, rfl, balanced, closed⟩ := balanced_of_anyValue _ _ _ _ within
          have bracket := (ih _ _ _ behind).prepend (.bracket opens balanced closed .nil)
          simpa using bracket
      · rename_i opens
        exact passed opens (by simpa using closes) (ih _ _ _ run)
    · rename_i char
      have other : ∀ c, isChar t c = false := fun c => isChar_type char
      exact passed (by simp [closing, other]) (by simp [isClose, other]) (ih _ _ _ run)

/-- `mq_parse_general_enclosed` refuses the tokens; `rest` is behind what it has taken of them. -/
inductive Unenclosed : List Token → List Token → Prop
  | broken {t : Token} {tail rest : List Token} (call : t.type = .function) (breaks : Breaks (some (ch ')')) tail rest) :
      Unenclosed (t :: tail) rest
  | alone {t c : Token} {text rest : List Token} (call : t.type = .function) (within : Balanced text)
      (closes : isChar c (ch ')') = true) (other : tokenIsChar rest.head? (ch ')') = false) :
      Unenclosed (t :: (text ++ c :: rest)) rest
  | ident {t : Token} {tail rest : List Token} (ident : t.type = .ident) (breaks : Breaks none tail rest) :
      Unenclosed (t :: tail) rest
  | other {t : Token} {tail : List Token} (no_function : t.type ≠ .function) (no_ident : t.type ≠ .ident) :
      Unenclosed (t :: tail) tail

theorem unenclosed_iff :
    mqParseGeneralEnclosed.run (t :: tail) = (.error .invalid, rest) ↔ Unenclosed (t :: tail) rest := by
  have value : ∀ until? (us : List Token), (∀ close, until? = some close → Closer close) →
      ((consumeAnyValue (us.length + 1) until?).run us = (.error .invalid, rest) ↔ Breaks until? us rest) := by
    intro until? us closer
    exact ⟨breaks_of_run _ _ _ _, fun breaks => run_of_breaks breaks closer _ (Nat.lt_succ_self _)⟩
  have paren : ∀ close, some (ch ')') = some close → Closer close := by
    rintro _ ⟨⟩
    exact closer_paren
  unfold mqParseGeneralEnclosed
  rw [bind_iterate]
  simp only [List.head?_cons, tail_cons]
  constructor
  · intro run
    split at run
    · rename_i call
      rcases bind_eq_error.mp run with broken | ⟨_, middle, within, behind⟩
      · rw [looking_run] at broken
        exact .broken call ((value _ _ paren).mp broken)
      · rw [looking_run] at within
        obtain ⟨text, c, rfl, balanced, closes⟩ := balanced_of_anyValue _ _ _ _ within
        rw [bind_peek, ite_run] at behind
        split at behind
        · rename_i other
          cases behind
          exact .alone call balanced closes (by simpa using other)
        · cases behind
    · rename_i ident
      rw [looking_run] at run
      exact .ident ident ((value _ _ (by simp)).mp run)
    · rename_i no_function no_ident
      cases run
      exact .other no_function no_ident
  · intro refused
    cases refused with
    | broken call breaks =>
      simp only [call]
      exact bind_error ((value _ _ paren).mpr breaks)
    | @alone _ c text _ call within closes other =>
      simp only [call]
      have read := anyValue_of_balanced within closer_paren closes (Nat.lt_succ_self (text ++ c :: rest).length)
      rw [bind_ok ((looking_run _ _).trans read)]
      simp [other]
    | ident ident breaks =>
      simp only [ident, looking_run]
      exact (value _ _ (by simp)).mpr breaks
    | other no_function no_ident =>
      split
      · exact (no_function ‹_›).elim
      · exact (no_ident ‹_›).elim
      · rfl

/-- The parsers of a condition: of a part in parentheses, of the parts from one on, with the word that
has joined those before, and of the whole. -/
inductive Place where
  | inParens
  | parts (permitOr : Bool) (op : Joiner)
  | condition (permitOr : Bool)

/-- The word can join two parts where those before are joined by `op`. -/
def Joins (permitOr : Bool) (op : Joiner) (t : Token) (isOr : Bool) : Prop :=
  isKeyword t (joinWord isOr) = true ∧ (isOr = true → permitOr = true) ∧ op ≠ some (!isOr)

/-- The parser refuses the tokens; `rest` is behind what it has taken of them. After a text in
parentheses that is none of its forms, it tries that text again as a general enclosed one. -/
inductive Refuses : Place → List Token → List Token → Prop
  | nothing : Refuses .inParens [] []
  | unopened {t : Token} {tail : List Token} (other : isChar t (ch '(') = false) : Refuses .inParens (t :: tail) tail
  | unended {l : Token} {ts : List Token} (opens : isChar l (ch '(') = true) (blank : trim ts = []) :
      Refuses .inParens (l :: ts) []
  | unclosed {hole : Bool} {l t : Token} {ts tail rest : List Token} (opens : isChar l (ch '(') = true)
      (trimmed : trim ts = t :: tail) (begins : (isChar t (ch '(') || isKeyword t (lit "not")) = true)
      (inside : Takes (.condition true) hole (t :: tail) rest) (other : tokenIsChar rest.head? (ch ')') = false) :
      Refuses .inParens (l :: ts) rest.tail
  | nested {l t : Token} {ts tail middle rest : List Token} (opens : isChar l (ch '(') = true)
      (trimmed : trim ts = t :: tail) (begins : (isChar t (ch '(') || isKeyword t (lit "not")) = true)
      (inside : Refuses (.condition true) (t :: tail) middle) (text : Unenclosed (t :: tail) rest) :
      Refuses .inParens (l :: ts) rest
  | feature {l t : Token} {ts tail rest : List Token} (opens : isChar l (ch '(') = true)
      (trimmed : trim ts = t :: tail) (begins : (isChar t (ch '(') || isKeyword t (lit "not")) = false)
      (none : ∀ f after, mqParseMediaFeature.run (t :: tail) ≠ (.ok f, after)) (text : Unenclosed (t :: tail) rest) :
      Refuses .inParens (l :: ts) rest
  | part {permitOr : Bool} {op : Joiner} {ts rest : List Token} (first : Refuses .inParens ts rest) :
      Refuses (.parts permitOr op) ts rest
  | joiner {permitOr hole : Bool} {op : Joiner} {t : Token} {ts middle tail : List Token}
      (first : Takes .inParens hole ts middle) (trimmed : trim middle = t :: tail) (more : endsCondition t = false)
      (other : ∀ isOr, ¬ Joins permitOr op t isOr) : Refuses (.parts permitOr op) ts (t :: tail)
  | more {permitOr isOr hole : Bool} {op : Joiner} {t : Token} {ts middle tail rest : List Token}
      (first : Takes .inParens hole ts middle) (trimmed : trim middle = t :: tail) (joins : Joins permitOr op t isOr)
      (others : Refuses (.parts permitOr (some isOr)) (trim tail) rest) : Refuses (.parts permitOr op) ts rest
  | absent {permitOr : Bool} : Refuses (.condition permitOr) [] []
  | negation {permitOr : Bool} {t : Token} {tail rest : List Token} (other : isChar t (ch '(') = false)
      (interned : t.type.interned = true) (operand : Refuses .inParens (trim tail) rest) :
      Refuses (.condition permitOr) (t :: tail) rest
  | joined {permitOr : Bool} {l : Token} {tail rest : List Token} (opens : isChar l (ch '(') = true)
      (parts : Refuses (.parts permitOr none) (l :: tail) rest) : Refuses (.condition permitOr) (l :: tail) rest

theorem orGeneralEnclosed_error {first : MqParser Part} :
    (orGeneralEnclosed first).run (t :: tail) = (.error .invalid, rest) ↔
      (first.run (t :: tail)).1 = .error .invalid ∧ Unenclosed (t :: tail) rest := by
  rw [← unenclosed_iff, orGeneralEnclosed]
  rcases outcome : first.run (t :: tail) with ⟨e | part, left⟩
  · cases e with
    | invalid =>
      simp only [outcome, true_and]
      refine bind_eq_error.trans (or_iff_left ?_)
      rintro ⟨_, middle, -, run⟩
      cases run
    | nullRead | fuel => simp [outcome]
  · simp [outcome]

theorem mediaFeature_error (ts : List Token) :
    (mqParseMediaFeature.run ts).1 = .error .invalid ↔ ∀ f after, mqParseMediaFeature.run ts ≠ (.ok f, after) := by
  rcases outcome : mqParseMediaFeature.run ts with ⟨e | f, left⟩
  · have steady : ∀ e', e' ≠ .invalid → e ≠ e' := by
      intro e' serious same
      have other := (steady_mqParseMediaFeature (e := e') serious ts).2
      rw [outcome] at other
      exact other (by rw [same])
    cases e with
    | invalid => simp
    | nullRead => exact absurd rfl (steady .nullRead (by decide))
    | fuel => exact absurd rfl (steady .fuel (by decide))
  · simp

/-- How the text in parentheses is refused, given how its condition is. -/
theorem inParens_refused_iff {condition : MqParser Part} {l t : Token} {ts tail rest : List Token}
    (opens : isChar l (ch '(') = true) (trimmed : trim ts = t :: tail) :
    (mqParseMediaInParens condition).run (l :: ts) = (.error .invalid, rest) ↔
      if (isChar t (ch '(') || isKeyword t (lit "not")) = true then
        (∃ part left, condition.run (t :: tail) = (.ok part, left) ∧ tokenIsChar left.head? (ch ')') = false ∧
            left.tail = rest) ∨
          (condition.run (t :: tail)).1 = .error .invalid ∧ Unenclosed (t :: tail) rest
      else (∀ f after, mqParseMediaFeature.run (t :: tail) ≠ (.ok f, after)) ∧ Unenclosed (t :: tail) rest := by
  rw [inParens_of_open opens trimmed]
  split
  · rw [mqParseNested]
    rcases outcome : condition.run (t :: tail) with ⟨e | part, left⟩
    · cases e with
      | invalid => simp [outcome, orGeneralEnclosed_error]
      | nullRead | fuel => simp [outcome]
    · by_cases closes : tokenIsChar left.head? (ch ')') = true
      · simp [outcome, closes]
      · simp [outcome, closes]
  · split
    · rw [orGeneralEnclosed_error, ← mediaFeature_error]
      refine and_congr_left fun _ => ?_
      rcases outcome : mqParseMediaFeature.run (t :: tail) with ⟨e | f, left⟩
      · rw [map_error outcome]
        simp
      · rw [map_ok outcome]
        simp
    · rename_i unnamed
      rw [orGeneralEnclosed_error]
      refine and_congr_left fun _ => iff_of_true rfl fun f after read => ?_
      obtain ⟨u, us, trimmed', named⟩ := mediaFeature_head read
      have solid := (trim_trim ts).symm.trans (congrArg trim trimmed)
      rw [trimmed, trimmed'] at solid
      obtain ⟨rfl, -⟩ := List.cons.inj solid
      exact unnamed named

/-- That what is refused is refused there, by the parser of the place with enough rounds and nestings. -/
def RefusedAt : Place → List Token → List Token → Prop
  | .inParens, ts, rest => ∀ n, ts.length ≤ n →
      (mqParseMediaInParens (mqParseCondition n true)).run ts = (.error .invalid, rest)
  | .parts permitOr op, ts, rest => ∀ n k before, ts.length ≤ n → ts.length < k →
      (mqConditionLoop (mqParseMediaInParens (mqParseCondition n true)) permitOr k op before).run ts =
        (.error .invalid, rest)
  | .condition permitOr, ts, rest => ∀ n, ts.length < n →
      (mqParseCondition n permitOr).run ts = (.error .invalid, rest)

theorem joiner_refused {op : Joiner} (ts : List Token) (other : ∀ isOr, ¬ Joins permitOr op t isOr) :
    (mqParseJoiner permitOr op t).run ts = (.error .invalid, ts) := by
  rcases run : (mqParseJoiner permitOr op t).run ts with ⟨e | op', rest⟩
  · unfold mqParseJoiner at run
    repeat' split at run
    all_goals first | cases run; rfl | cases run
  · obtain ⟨isOr, joins, allowed, different, -, -⟩ := joiner_inv run
    exact absurd ⟨joins, allowed, different⟩ (other isOr)

theorem refusedAt_of_refuses {place : Place} (refuses : Refuses place ts rest) : RefusedAt place ts rest := by
  induction refuses with
  | nothing =>
    intro n _
    simp [mqParseMediaInParens, tokenIsChar]
  | unopened other =>
    intro n _
    simp [mqParseMediaInParens, tokenIsChar, other]
  | unended opens blank =>
    intro n _
    simp [mqParseMediaInParens, tokenIsChar, opens, blank]
  | @unclosed hole l t ts tail rest opens trimmed begins inside other =>
    intro n enough
    have fewer := (trimmed ▸ trim_suffix ts : t :: tail <:+ ts).length_le
    obtain ⟨part, -, read⟩ := run_of_takes inside n (by simp only [length_cons] at enough fewer ⊢; omega)
    rw [inParens_refused_iff opens trimmed, if_pos begins]
    exact .inl ⟨part, rest, read, other, rfl⟩
  | @nested l t ts tail middle rest opens trimmed begins inside text ih =>
    intro n enough
    have fewer := (trimmed ▸ trim_suffix ts : t :: tail <:+ ts).length_le
    have refused := ih n (by simp only [length_cons] at enough fewer ⊢; omega)
    rw [inParens_refused_iff opens trimmed, if_pos begins]
    exact .inr ⟨by rw [refused], text⟩
  | feature opens trimmed begins none text =>
    intro n _
    rw [inParens_refused_iff opens trimmed, if_neg (by simp [begins])]
    exact ⟨none, text⟩
  | part first ih =>
    intro n k before enough rounds
    obtain ⟨k, rfl⟩ : ∃ j, k = j + 1 := ⟨k - 1, by omega⟩
    exact bind_error (ih n enough)
  | joiner first trimmed more other =>
    intro n k before enough rounds
    obtain ⟨k, rfl⟩ : ∃ j, k = j + 1 := ⟨k - 1, by omega⟩
    obtain ⟨part, -, read⟩ := run_of_takes first n enough
    rw [mqConditionLoop, bind_ok read]
    simp [trimmed, more, bind_error (joiner_refused _ other)]
  | @more permitOr isOr hole op t ts middle tail rest first trimmed joins others ih =>
    intro n k before enough rounds
    obtain ⟨k, rfl⟩ : ∃ j, k = j + 1 := ⟨k - 1, by omega⟩
    have shorter := (takes_suffix first).2 rfl
    have own := (trimmed ▸ trim_suffix middle : t :: tail <:+ middle).length_le
    have less := (trim_suffix tail).length_le
    simp only [length_cons] at own
    obtain ⟨part, -, read⟩ := run_of_takes first n enough
    rw [loop_more read trimmed joins.1 joins.2.1 joins.2.2]
    exact ih n k _ (by omega) (by omega)
  | absent =>
    intro n enough
    obtain ⟨n, rfl⟩ : ∃ m, n = m + 1 := ⟨n - 1, by omega⟩
    simp [mqParseCondition]
  | @negation permitOr t tail rest other interned operand ih =>
    intro n enough
    obtain ⟨n, rfl⟩ : ∃ m, n = m + 1 := ⟨n - 1, by omega⟩
    have fewer := (trim_suffix tail).length_le
    have refused := ih n (by simp only [length_cons] at enough; omega)
    rw [mqParseCondition]
    simp [other, interned, bind_error refused]
  | joined opens parts ih =>
    intro n enough
    obtain ⟨n, rfl⟩ : ∃ m, n = m + 1 := ⟨n - 1, by omega⟩
    have refused := ih n _ [] (by omega) (Nat.lt_succ_self _)
    rw [mqParseCondition, bind_peek, List.head?_cons]
    simp only [opens, Bool.not_true, Bool.false_eq_true, if_false]
    exact bind_error ((looking_run _ _).trans refused)

theorem refuses_inParens {condition : MqParser Part}
    (takes : ∀ ts part rest, condition.run ts = (.ok part, rest) → Takes (.condition true) (!whole part) ts rest)
    (refuses : ∀ ts rest, condition.run ts = (.error .invalid, rest) → Refuses (.condition true) ts rest)
    (run : (mqParseMediaInParens condition).run ts = (.error .invalid, rest)) : Refuses .inParens ts rest := by
  rcases ts with _ | ⟨l, ts⟩
  · obtain rfl : [] = rest := by simpa [mqParseMediaInParens, tokenIsChar] using run
    exact .nothing
  by_cases opens : isChar l (ch '(') = true
  case neg =>
    obtain rfl : ts = rest := by simpa [mqParseMediaInParens, tokenIsChar, opens] using run
    exact .unopened (by simpa using opens)
  rcases trimmed : trim ts with _ | ⟨t, tail⟩
  · obtain rfl : [] = rest := by simpa [mqParseMediaInParens, tokenIsChar, opens, trimmed] using run
    exact .unended opens trimmed
  rw [inParens_refused_iff opens trimmed] at run
  split at run
  · rename_i begins
    rcases run with ⟨part, left, read, other, rfl⟩ | ⟨refused, text⟩
    · exact .unclosed opens trimmed begins (takes _ _ _ read) other
    · rcases outcome : condition.run (t :: tail) with ⟨e, middle⟩
      obtain rfl : e = .error .invalid := by rw [← refused, outcome]
      exact .nested opens trimmed begins (refuses _ _ outcome) text
  · rename_i begins
    exact .feature opens trimmed (by simpa using begins) run.1 run.2

theorem refuses_loop {inParens : MqParser Part}
    (takes : ∀ ts part rest, inParens.run ts = (.ok part, rest) → Takes .inParens (!whole part) ts rest)
    (refuses : ∀ ts rest, inParens.run ts = (.error .invalid, rest) → Refuses .inParens ts rest) (k : Nat) :
    ∀ op before ts rest,
    (mqConditionLoop inParens permitOr k op before).run ts = (.error .invalid, rest) →
      Refuses (.parts permitOr op) ts rest := by
  induction k with
  | zero => simp [mqConditionLoop]
  | succ k ih =>
    intro op before ts rest run
    rcases bind_eq_error.mp run with first | ⟨part, middle, read, run⟩
    · exact .part (refuses _ _ first)
    have first := takes _ _ _ read
    rw [bind_consumeWhitespace, bind_peek] at run
    rcases trimmed : trim middle with _ | ⟨t, tail⟩
    · rw [trimmed] at run
      cases run
    rw [trimmed] at run
    simp only [List.head?_cons, ite_run] at run
    split at run
    · cases run
    rename_i more
    by_cases joined : ∃ isOr, Joins permitOr op t isOr
    · obtain ⟨isOr, joins⟩ := joined
      rw [bind_ok (joiner_run joins.1 joins.2.1 joins.2.2 _), bind_iterate, bind_consumeWhitespace, tail_cons] at run
      exact .more first trimmed joins (ih _ _ _ _ run)
    · have other : ∀ isOr, ¬ Joins permitOr op t isOr := not_exists.mp joined
      rw [bind_error (joiner_refused _ other)] at run
      cases run
      exact .joiner first trimmed (by simpa using more) other

theorem refuses_condition (n : Nat) : ∀ permitOr ts rest,
    (mqParseCondition n permitOr).run ts = (.error .invalid, rest) → Refuses (.condition permitOr) ts rest := by
  induction n with
  | zero => simp [mqParseCondition]
  | succ n ih =>
    intro permitOr ts rest run
    have taken : ∀ us part rest, (mqParseMediaInParens (mqParseCondition n true)).run us = (.ok part, rest) →
        Takes .inParens (!whole part) us rest := fun _ _ _ => takes_of_inParens (takes_of_condition n true)
    have refused : ∀ us rest, (mqParseMediaInParens (mqParseCondition n true)).run us = (.error .invalid, rest) →
        Refuses .inParens us rest := fun _ _ => refuses_inParens (takes_of_condition n true) (ih true)
    rw [mqParseCondition, bind_peek] at run
    rcases ts with _ | ⟨t, tail⟩
    · cases run
      exact .absent
    simp only [List.head?_cons, ite_run] at run
    split at run
    · rename_i other
      split at run
      · cases run
      rename_i interned
      rw [bind_iterate, bind_consumeWhitespace, tail_cons] at run
      rcases bind_eq_error.mp run with operand | ⟨_, _, -, behind⟩
      · exact .negation (by simpa using other) (by simpa using interned) (refused _ _ operand)
      · cases behind
    · rename_i opens
      rcases bind_eq_error.mp run with loop | ⟨_, _, -, behind⟩
      · rw [looking_run] at loop
        exact .joined (by simpa using opens) (refuses_loop taken refused _ _ _ _ _ loop)
      · cases behind

theorem conditionAll_refused_iff :
    (mqParseConditionAll permitOr).run ts = (.error .invalid, rest) ↔ Refuses (.condition permitOr) ts rest := by
  rw [mqParseConditionAll, looking_run]
  exact ⟨refuses_condition _ _ _ _, fun refuses => refusedAt_of_refuses refuses _ (Nat.lt_succ_self _)⟩

def typeOf (token : Option Token) : Option UInt64 :=
  token.bind fun t => if t.type = .ident then mqParseType t.idata else none

/-- A query is refused behind the token that should be a media type: there is none or it is no type,
or a token other than `and` follows, or what follows `and` is refused. -/
def RefusesTyped (token : Option Token) (tail rest : List Token) : Prop :=
  match typeOf token, trim tail with
  | none, _ => tail = rest
  | some _, [] => False
  | some _, a :: more => if isKeyword a (lit "and") then Refuses (.condition false) (trim more) rest else more = rest

/-- `mq_parse_media_query` refuses the tokens: the condition they begin with, a first token that is no
identifier, or behind that. -/
def RefusesQuery (ts rest : List Token) : Prop :=
  match trim ts with
  | [] => False
  | t :: tail =>
    if isChar t (ch '(') || notParen (t :: tail) then Refuses (.condition true) (t :: tail) rest
    else if t.type ≠ .ident then tail = rest
    else if isKeyword t (lit "not") || isKeyword t (lit "only") then
      RefusesTyped (trim tail).head? (trim tail).tail rest
    else RefusesTyped (some t) tail rest

theorem typed_refused_iff {negate : Bool} {token : Option Token} :
    (mqParseTyped negate token).run tail = (.error .invalid, rest) ↔ RefusesTyped token tail rest := by
  rcases token with _ | t
  · simp [mqParseTyped, RefusesTyped, typeOf]
  by_cases ident : t.type = .ident
  case neg => simp [mqParseTyped, RefusesTyped, typeOf, ident]
  rcases known : mqParseType t.idata with _ | bits
  · simp [mqParseTyped, RefusesTyped, typeOf, ident, known]
  rcases trimmed : trim tail with _ | ⟨a, more⟩
  · simp [RefusesTyped, typeOf, typed_end ident known trimmed, ident, known, trimmed]
  by_cases joins : isKeyword a (lit "and") = true
  · have run : (mqParseTyped negate (some t)).run tail =
        (queryWith negate bits <$> mqParseConditionAll false).run (trim more) := by
      simp only [mqParseTyped, ident, known, trimmed, joins, ne_eq, not_true_eq_false, if_false,
        bind_consumeWhitespace, bind_iterate, List.head?_cons, tail_cons, Bool.not_true, Bool.false_eq_true]
      rfl
    rw [run, map_eq_error, conditionAll_refused_iff]
    simp [RefusesTyped, typeOf, ident, known, trimmed, joins]
  · simp [mqParseTyped, RefusesTyped, typeOf, ident, known, trimmed, joins]

theorem query_refused_iff : mqParseMediaQuery.run ts = (.error .invalid, rest) ↔ RefusesQuery ts rest := by
  rcases trimmed : trim ts with _ | ⟨t, tail⟩
  · simp [mqParseMediaQuery, RefusesQuery, trimmed]
  by_cases begins : (isChar t (ch '(') || notParen (t :: tail)) = true
  · rw [query_of_begins ⟨t, tail, trimmed, begins⟩, map_eq_error, conditionAll_refused_iff]
    simp [RefusesQuery, trimmed, begins]
  have run : mqParseMediaQuery.run ts =
      if t.type ≠ .ident then (.error .invalid, tail)
      else if isKeyword t (lit "not") = true then (mqParseTyped true (trim tail).head?).run (trim tail).tail
      else if isKeyword t (lit "only") = true then (mqParseTyped false (trim tail).head?).run (trim tail).tail
      else (mqParseTyped false (some t)).run tail := by
    rw [mqParseMediaQuery, bind_consumeWhitespace, trimmed]
    simp only [bind_peek, List.head?_cons, bind_looking_pure, begins, Bool.false_eq_true, if_false,
      bind_iterate, tail_cons, ite_run, fail_run, bind_consumeWhitespace]
  rw [run]
  by_cases ident : t.type = .ident
  · by_cases negates : isKeyword t (lit "not") = true
    · simp [RefusesQuery, trimmed, begins, ident, negates, typed_refused_iff]
    by_cases only : isKeyword t (lit "only") = true
    · simp [RefusesQuery, trimmed, begins, ident, negates, only, typed_refused_iff]
    · simp [RefusesQuery, trimmed, begins, ident, negates, only, typed_refused_iff]
  · simp [RefusesQuery, trimmed, begins, ident]

/-- The parser keeps the items apart. A well-formed item is one with a condition unless it is the
last; a malformed one is refused, just before its comma unless it is the last. -/
def Separate : List (List Token) → Prop
  | [] => True
  | [item] => (∃ q, WellFormed false item q) ∨
      Malformed item ∧ ∃ rest, RefusesQuery item rest ∧ (trim rest).head? ≠ some comma
  | item :: rest => ((∃ q, WellFormed false item q ∧ q.cond ≠ none) ∨
      Malformed item ∧ ∃ w, Blank w ∧ RefusesQuery (item ++ comma :: join rest) (w ++ comma :: join rest)) ∧
      Separate rest

theorem separate_cons {rest : List (List Token)} (more : rest ≠ []) :
    Separate (item :: rest) ↔ ((∃ q, WellFormed false item q ∧ q.cond ≠ none) ∨
      Malformed item ∧ ∃ w, Blank w ∧ RefusesQuery (item ++ comma :: join rest) (w ++ comma :: join rest)) ∧
      Separate rest := by
  cases rest with
  | nil => exact absurd rfl more
  | cons => rfl

theorem read_before_comma
    (apart : (∃ q, WellFormed false item q ∧ q.cond ≠ none) ∨ Malformed item ∧ ∃ w, Blank w ∧ RefusesQuery (item ++ comma :: rest) (w ++ comma :: rest)) :
    ∃ q, Expected item q ∧ queryOrNotAll (mqParseMediaQuery.run (item ++ comma :: rest)).1 = .ok q ∧
      trim (mqParseMediaQuery.run (item ++ comma :: rest)).2 = comma :: rest := by
  rcases apart with ⟨q, formed, conditional⟩ | ⟨malformed, w, blank, refused⟩
  · obtain ⟨left, read, next⟩ := item_comma formed conditional rest
    exact ⟨q, .inl (.inl formed), by rw [read]; rfl, by rw [read]; exact next⟩
  · have read := query_refused_iff.mpr refused
    refine ⟨notAll, .inr ⟨malformed, rfl⟩, by rw [read]; rfl, ?_⟩
    rw [read, trim_append blank, trim_cons_of_not_space isSpace_comma]

theorem loop_of_separate (some_item : list ≠ []) (apart : Separate list) :
    ∀ n, list.length ≤ n → ∃ qs, mediaListLoop n (join list) = .ok qs ∧ List.Forall₂ Expected list qs := by
  induction list with
  | nil => exact absurd rfl some_item
  | cons item rest ih =>
    intro n enough
    obtain ⟨n, rfl⟩ : ∃ m, n = m + 1 := ⟨n - 1, by simp at enough; omega⟩
    by_cases last : rest = []
    · subst last
      rcases apart with ⟨q, formed⟩ | ⟨malformed, left, refused, ends⟩
      · obtain ⟨left, read, blank⟩ := item_last formed
        exact ⟨[q], listLoop_end (by rw [join, read]; rfl) (by simp [join, read, blank]),
          .cons (.inl (.inl formed)) .nil⟩
      · have read := query_refused_iff.mpr refused
        exact ⟨[notAll], listLoop_end (by rw [join, read]; rfl) (by rwa [join, read]),
          .cons (.inr ⟨malformed, rfl⟩) .nil⟩
    · obtain ⟨first, others⟩ := (separate_cons last).mp apart
      obtain ⟨q, expected, read, next⟩ := read_before_comma first
      obtain ⟨qs, loop, all⟩ := ih last others n (by simpa using enough)
      refine ⟨q :: qs, ?_, .cons expected all⟩
      rw [join_cons last, listLoop_comma read next, loop]
      rfl

theorem length_items_le (list : List (List Token)) : list.length ≤ (join list).length + 1 := by
  induction list with
  | nil => simp
  | cons item rest ih =>
    by_cases last : rest = []
    · simp [last]
    · rw [join_cons last]
      simp only [length_cons, length_append]
      omega

theorem items_ne_nil (some_token : ts ≠ []) : items ts ≠ [] := by
  simp [items, some_token, splitItems_ne_nil]

theorem mediaList_of_separate (apart : Separate (items ts)) :
    ∃ qs, mqParseMediaList ts = .ok qs ∧ List.Forall₂ Expected (items ts) qs := by
  by_cases empty : ts = []
  · subst empty
    exact ⟨[], rfl, .nil⟩
  · have enough := length_items_le (items ts)
    obtain ⟨qs, loop, all⟩ := loop_of_separate (items_ne_nil empty) apart (ts.length + 1) (by rwa [join_items] at enough)
    rw [join_items] at loop
    exact ⟨qs, by rw [mqParseMediaList, if_neg empty, loop], all⟩

theorem readable_of_separate (apart : Separate list) :
    ∀ item ∈ list, (∃ q, WellFormed false item q) ∨ Malformed item := by
  induction list with
  | nil => simp
  | cons first rest ih =>
    intro item member
    by_cases last : rest = []
    · subst last
      obtain rfl := mem_singleton.mp member
      exact apart.imp id And.left
    · obtain ⟨head, others⟩ := (separate_cons last).mp apart
      rcases mem_cons.mp member with rfl | later
      · exact head.imp (fun ⟨q, formed, _⟩ => ⟨q, formed⟩) And.left
      · exact ih others item later

/-- One query for each item, where the commas are all between items, means that the items are kept apart. -/
theorem separate_of_loop (inner : ∀ item ∈ list, comma ∉ item)
    (readable : ∀ item ∈ list, (∃ q, WellFormed false item q) ∨ Malformed item) :
    ∀ n qs, mediaListLoop n (join list) = .ok qs → List.Forall₂ Expected list qs → Separate list := by
  induction list with
  | nil => exact fun _ _ _ _ => trivial
  | cons item rest ih =>
    intro n qs loop all
    obtain ⟨n, rfl⟩ : ∃ m, n = m + 1 := by
      cases n with
      | zero => cases loop
      | succ m => exact ⟨m, rfl⟩
    rcases all with _ | ⟨expected, others⟩
    rename_i q qs
    have own : comma ∉ item := inner item (by simp)
    rcases read : queryOrNotAll (mqParseMediaQuery.run (join (item :: rest))).1 with e | r
    · rw [mediaListLoop, read] at loop
      cases loop
    by_cases last : rest = []
    · subst last
      cases others
      have ends : (trim (mqParseMediaQuery.run item).2).head? ≠ some comma := by
        intro next
        obtain ⟨more, cons⟩ := List.head?_eq_some_iff.mp next
        rw [listLoop_comma read cons] at loop
        rcases deeper : mediaListLoop n more with e | rs
        · rw [deeper] at loop
          cases loop
        · rw [deeper] at loop
          have same : r :: rs = [q] := Except.ok.inj loop
          exact (listLoop_count deeper).1 (List.cons.inj same).2
      rw [listLoop_end read ends] at loop
      obtain rfl : r = q := by simpa using Except.ok.inj loop
      rcases readable item (by simp) with formed | malformed
      · exact .inl formed
      · refine .inr ⟨malformed, _, query_refused_iff.mp (Prod.ext ?_ rfl), ends⟩
        rcases expected with meaning | ⟨_, rfl⟩
        · obtain formed := (meaning_iff (.inr malformed)).mp meaning
          exact absurd (wellFormed_lax formed) (malformed r)
        · have refused := @refused_of_notAll item [] malformed (by simpa [join] using read) (.inl rfl)
          simpa using refused
    · rw [join_cons last] at loop read
      have counted := count_join last fun other member => inner other (by simp [member])
      have lengths := others.length_eq
      have next : (trim (mqParseMediaQuery.run (item ++ comma :: join rest)).2).head? = some comma := by
        by_contra ends
        rw [listLoop_end read ends] at loop
        have single : [r] = q :: qs := Except.ok.inj loop
        rw [← (List.cons.inj single).2] at lengths
        exact last (length_eq_zero_iff.mp lengths)
      obtain ⟨more, cons⟩ := List.head?_eq_some_iff.mp next
      rw [listLoop_comma read cons] at loop
      rcases deeper : mediaListLoop n more with e | rs
      · rw [deeper] at loop
        cases loop
      rw [deeper] at loop
      obtain ⟨rfl, rfl⟩ := List.cons.inj (Except.ok.inj loop)
      -- as many queries as items need all the commas that are left
      have same : more = join rest := by
        have enough := (listLoop_count deeper).2
        refine suffix_at_comma own ?_ (by omega)
        rw [← cons]
        exact (dropWhile_suffix _).trans (forward_mqParseMediaQuery _)
      subst same
      refine (separate_cons last).mpr ⟨?_, ih (fun other member => inner other (by simp [member]))
        (fun other member => readable other (by simp [member])) n _ deeper others⟩
      rcases readable item (by simp) with ⟨q, formed⟩ | malformed
      · refine .inl ⟨q, formed, fun bare => ?_⟩
        -- a bare type would have taken the comma
        rw [bare_comma formed bare] at cons
        have shorter : (trim (join rest)).length ≤ (join rest).length := (dropWhile_suffix isSpace).length_le
        rw [cons, length_cons] at shorter
        omega
      · refine .inr ⟨malformed, ?_⟩
        obtain ⟨w, blank, split⟩ := blank_split (mqParseMediaQuery.run (item ++ comma :: join rest)).2
        rw [cons] at split
        refine ⟨w, blank, ?_⟩
        rcases expected with meaning | ⟨_, rfl⟩
        · obtain formed := (meaning_iff (.inr malformed)).mp meaning
          exact absurd (wellFormed_lax formed) (malformed _)
        · have refused := refused_of_notAll malformed read (.inr (by rw [split]; simp))
          exact query_refused_iff.mp (Prod.ext refused split)

/-- A list is parsed and matched item by item where the parser keeps its items apart and no negated
type with a false condition is the only true item. Where all commas are between items and every
item is in the strict grammar or malformed, it is so only then. -/
theorem mediaList_compositional (media : Media) (ts : List Token) :
    (Separate (items ts) ∧ NegationAgrees media ts → Compositional media ts) ∧
      ((∀ item ∈ items ts, comma ∉ item) → Readable ts → Compositional media ts →
        Separate (items ts) ∧ NegationAgrees media ts) := by
  constructor
  · rintro ⟨apart, agrees⟩
    obtain ⟨qs, parsed, all⟩ := mediaList_of_separate apart
    exact ⟨qs, parsed, all, (match_iff (readable_of_separate apart) all).mpr agrees⟩
  · rintro inner readable ⟨qs, parsed, all, matched⟩
    refine ⟨?_, (match_iff readable all).mp matched⟩
    by_cases empty : ts = []
    · subst empty
      trivial
    · rw [mqParseMediaList, if_neg empty] at parsed
      exact separate_of_loop inner readable _ qs (by rwa [join_items]) all

def printer : Media where
  type := 0x10
  width := 0
  height := 0
  prefersColorScheme := none
  len2px := fun len _ => len
  typed := by decide

/-- The tokens of `screen, print`. -/
def screenPrint : List Token :=
  [⟨.ident, lit "screen"⟩, comma, ⟨.s, []⟩, ⟨.ident, lit "print"⟩]

/-- The first type takes the comma, becomes `not all`, and the second one is dropped. -/
theorem screenPrint_not_compositional : ¬ Compositional printer screenPrint := by
  rintro ⟨qs, parsed, all, -⟩
  have single : mqParseMediaList screenPrint = .ok [notAll] := rfl
  rw [single] at parsed
  obtain rfl := Except.ok.inj parsed
  have lengths := all.length_eq
  simp [show (items screenPrint).length = 2 from rfl] at lengths

end Besra.MqRefusal
