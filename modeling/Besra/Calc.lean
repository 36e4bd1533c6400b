import Besra.CalcDerives

/-!
`calc()` from the tokens to the value. A text of the grammar is accepted with the code of its expression, and the
calculator evaluates that if the code is not taken for another string (`calc_evaluates`); it divides by zero on just the
expressions with a zero divisor that the evaluation comes to (`divides_by_zero_iff`). A NULL token is dereferenced on just the tokens that break off where a
value is wanted, and what is rejected leaves everything as it was (`parse_safe_iff`).
-/
namespace Besra.Calc
open Faults Lwc Cursor Besra.Lex FixedPoint CalcCode CalcParse CalcDerives
open Number (CssUnit)
open Postfix (Term Instr)

def normalUnit : CalcUnit → UInt32
  | .pct => CalcUnit.code (.of .px)
  | .of u =>
    match u with
    | .deg | .grad | .rad | .turn => CalcUnit.code (.of .deg)
    | .ms | .s => CalcUnit.code (.of .ms)
    | .hz | .khz => CalcUnit.code (.of .hz)
    | .dpi | .dpcm | .dppx => CalcUnit.code (.of .dpi)
    | _ => CalcUnit.code (.of .px)

/-- The unit of an expression: sums and quotients have that of the left operand, products that of the operand which
is not a number. -/
def unitOf : Expr → UInt32
  | .leaf (.number _) => unitCalcNumber
  | .leaf (.value _ u) => normalUnit u
  | .node .multiply l r => if unitOf l = unitCalcNumber then unitOf r else unitOf l
  | .node _ l _ => unitOf l

def BareProduct : Expr → Prop
  | .leaf _ => False
  | .node o l r =>
    BareProduct l ∨ BareProduct r ∨ o = .multiply ∧ unitOf l ≠ unitCalcNumber ∧ unitOf r ≠ unitCalcNumber

def HasPercentage : Expr → Prop
  | .leaf (.number _) => False
  | .leaf (.value _ u) => u = .pct
  | .node _ l r => HasPercentage l ∨ HasPercentage r

/-- The expression has no value: a product is one of two lengths, or there is a percentage of no space. -/
def Invalid (ctx : Context) (e : Expr) : Prop := BareProduct e ∨ HasPercentage e ∧ ctx.available < 0

/-- A division by zero that the evaluation comes to, from left to right: by a number that is zero as a fixed-point
number, or by the resolution of the device, for a percentage. -/
def ZeroDivisor (ctx : Context) : Expr → Prop
  | .leaf (.number _) => False
  | .leaf (.value _ u) => u = .pct ∧ ctx.deviceDpi = 0
  | .node o l r => ZeroDivisor ctx l ∨
      ¬ Invalid ctx l ∧ (ZeroDivisor ctx r ∨ o = .divide ∧ r = .leaf (.number 0))

def NumberDivisors : Expr → Prop
  | .leaf _ => True
  | .node o l r => NumberDivisors l ∧ NumberDivisors r ∧ (o = .divide → ∃ v, r = .leaf (.number v))

variable {strict : Bool} {e e' : Expr} {mask : UInt32} {rest ts : List Token} {s : State} {live : List LwcString}

theorem derives_divisors {level : Level} {text : List Token} {tight : Bool}
    (derives : Derives strict mask level text tight e) : NumberDivisors e := by
  induction derives with
  | number | measure => trivial
  | parens _ _ _ _ _ _ ih | single _ ih | whole _ ih => exact ih
  | times _ _ _ _ _ _ ih ih' => exact ⟨ih, ih', fun divide => by cases divide⟩
  | divided _ _ _ _ _ _ ih => exact ⟨ih, trivial, fun _ => ⟨_, rfl⟩⟩
  | plus _ _ _ is _ _ ih ih' =>
    refine ⟨ih, ih', fun divide => ?_⟩
    rcases is with ⟨-, rfl⟩ | ⟨-, rfl⟩ <;> cases divide

theorem normaliseUnit_of (ctx : Context) (u : CssUnit) (v : CssFixed) :
    ∃ x, normaliseUnit ctx (CalcUnit.of u).code v = .ok ⟨normalUnit (.of u), x⟩ := by
  cases u <;> exact ⟨_, rfl⟩

theorem normaliseUnit_pct (ctx : Context) (v : CssFixed) :
    normaliseUnit ctx unitPct v =
      if ctx.deviceDpi = 0 then fault .divisionByZero
      else if ctx.available < 0 then result .noSpace
      else pure ⟨normalUnit .pct, divideFixed (multiplyFixed v
        (divideFixed (multiplyFixed (intToFixed ctx.available) 0x18000) ctx.deviceDpi)) 0x19000⟩ := by
  have space : normaliseUnit ctx unitPct v = device2cssPx (intToFixed ctx.available) ctx.deviceDpi >>= fun pct100 =>
      if ctx.available < 0 then result .noSpace
      else divide (multiplyFixed v pct100) 0x19000 >>= fun px => pure ⟨CalcUnit.code (.of .px), px⟩ := rfl
  rw [space, device2cssPx, divide]
  split
  · rfl
  · have hundred : (0x19000 : CssFixed) ≠ 0 := by decide
    simp only [pure_bind, divide, if_neg hundred]
    rfl

theorem invalid_node {ctx : Context} {o : Op} {l r : Expr} : Invalid ctx (.node o l r) ↔
    Invalid ctx l ∨ Invalid ctx r ∨ o = .multiply ∧ unitOf l ≠ unitCalcNumber ∧ unitOf r ≠ unitCalcNumber := by
  simp only [Invalid, BareProduct, HasPercentage]
  tauto

theorem not_invalid_number (ctx : Context) (v : CssFixed) : ¬ Invalid ctx (.leaf (.number v)) := by
  simp [Invalid, BareProduct, HasPercentage]

theorem eval_node (ctx : Context) (o : Op) (l r : Expr) : (Term.node o l r).eval (meaning ctx) =
    l.eval (meaning ctx) >>= fun x => r.eval (meaning ctx) >>= fun y => operate o x y := rfl

theorem operate_multiply (x y : Entry) : operate .multiply x y =
    if x.unit ≠ unitCalcNumber ∧ y.unit ≠ unitCalcNumber then result .noNumber
    else if x.unit = unitCalcNumber then pure ⟨y.unit, multiplyFixed y.value x.value⟩
    else pure ⟨x.unit, multiplyFixed x.value y.value⟩ := by
  unfold operate
  by_cases left : x.unit = unitCalcNumber
  · simp [left]
  · by_cases right : y.unit = unitCalcNumber <;> simp [left, right]

/-- What evaluation comes to: a division by zero, else a rejection when the expression is invalid, else a value of
the expression's unit. -/
theorem eval_cases (ctx : Context) (divisors : NumberDivisors e) :
    ZeroDivisor ctx e ∧ e.eval (meaning ctx) = .error (.fault .divisionByZero) ∨
      ¬ ZeroDivisor ctx e ∧ Invalid ctx e ∧
        (∃ r, (r = .noNumber ∨ r = .noSpace) ∧ e.eval (meaning ctx) = .error (.result r)) ∨
      ¬ ZeroDivisor ctx e ∧ ¬ Invalid ctx e ∧ ∃ v, e.eval (meaning ctx) = .ok ⟨unitOf e, v⟩ := by
  induction e with
  | leaf operand =>
    rcases operand with v | ⟨v, u | _⟩
    · exact .inr (.inr ⟨id, not_invalid_number ctx v, v, rfl⟩)
    · obtain ⟨x, value⟩ := normaliseUnit_of ctx u v
      exact .inr (.inr ⟨by simp [ZeroDivisor], by simp [Invalid, BareProduct, HasPercentage], x, value⟩)
    · have value : (Term.leaf (.value v .pct)).eval (meaning ctx) = _ := normaliseUnit_pct ctx v
      rw [value]
      by_cases zero : ctx.deviceDpi = 0
      · exact .inl ⟨⟨rfl, zero⟩, if_pos zero⟩
      · rw [if_neg zero]
        by_cases space : ctx.available < 0
        · rw [if_pos space]
          exact .inr (.inl ⟨fun bad => zero bad.2, .inr ⟨rfl, space⟩, .noSpace, .inr rfl, rfl⟩)
        · rw [if_neg space]
          refine .inr (.inr ⟨fun bad => zero bad.2, ?_, _, rfl⟩)
          simp [Invalid, BareProduct, space]
  | node o l r left right =>
    obtain ⟨inner, inner', divisor⟩ := divisors
    rw [eval_node, invalid_node]
    rcases left inner with ⟨zero, value⟩ | ⟨fine, invalid, reason, why, value⟩ | ⟨fine, valid, x, value⟩
    · exact .inl ⟨.inl zero, by rw [value]; rfl⟩
    · refine .inr (.inl ⟨?_, .inl invalid, reason, why, by rw [value]; rfl⟩)
      rintro (zero | ⟨valid, -⟩)
      · exact fine zero
      · exact valid invalid
    rw [value]
    rcases right inner' with ⟨zero, value'⟩ | ⟨fine', invalid, reason, why, value'⟩ | ⟨fine', valid', y, value'⟩
    · exact .inl ⟨.inr ⟨valid, .inl zero⟩, by rw [value']; rfl⟩
    · refine .inr (.inl ⟨?_, .inr (.inl invalid), reason, why, by rw [value']; rfl⟩)
      rintro (zero | ⟨-, zero | ⟨-, rfl⟩⟩)
      · exact fine zero
      · exact fine' zero
      · exact not_invalid_number ctx 0 invalid
    rw [value']
    have noZero (other : o ≠ .divide) : ¬ ZeroDivisor ctx (.node o l r) := by
      rintro (zero | ⟨-, zero | ⟨divide, -⟩⟩)
      · exact fine zero
      · exact fine' zero
      · exact other divide
    cases o with
    | add => exact .inr (.inr ⟨noZero (by simp), by simp [valid, valid'], _, rfl⟩)
    | subtract => exact .inr (.inr ⟨noZero (by simp), by simp [valid, valid'], _, rfl⟩)
    | multiply =>
      have product := operate_multiply ⟨unitOf l, x⟩ ⟨unitOf r, y⟩
      by_cases bare : unitOf l ≠ unitCalcNumber ∧ unitOf r ≠ unitCalcNumber
      · rw [if_pos bare] at product
        exact .inr (.inl ⟨noZero (by simp), .inr (.inr ⟨rfl, bare⟩), .noNumber, .inl rfl, product⟩)
      · rw [if_neg bare] at product
        refine .inr (.inr ⟨noZero (by simp), ?_, ?_⟩)
        · rintro (invalid | invalid | ⟨-, both⟩)
          · exact valid invalid
          · exact valid' invalid
          · exact bare both
        · by_cases number : unitOf l = unitCalcNumber
          · rw [if_pos number] at product
            exact ⟨_, by rw [unitOf, if_pos number]; exact product⟩
          · rw [if_neg number] at product
            exact ⟨_, by rw [unitOf, if_neg number]; exact product⟩
    | divide =>
      obtain ⟨v, rfl⟩ := divisor rfl
      obtain rfl : v = y := by
        have same : (Except.ok ⟨unitCalcNumber, v⟩ : Calculation Entry) = .ok ⟨unitCalcNumber, y⟩ := value'
        simpa using same
      have quotient : operate .divide ⟨unitOf l, x⟩ ⟨unitCalcNumber, v⟩ =
          divide x v >>= fun q => pure ⟨unitOf l, q⟩ := rfl
      by_cases zero : v = 0
      · refine .inl ⟨.inr ⟨valid, .inr ⟨rfl, by rw [zero]⟩⟩, quotient.trans ?_⟩
        rw [divide, if_pos zero]
        rfl
      · refine .inr (.inr ⟨?_, ?_, divideFixed x v, quotient.trans ?_⟩)
        · rintro (bad | ⟨-, bad | ⟨-, same⟩⟩)
          · exact fine bad
          · exact fine' bad
          · exact zero (by simpa using same)
        · rintro (invalid | invalid | ⟨other, -⟩)
          · exact valid invalid
          · exact valid' invalid
          · cases other
        · rw [divide, if_neg zero]
          rfl

/-- The tokens of a `calc()` after its opening parenthesis, up to the closing one, and those behind it. -/
inductive Enclosed (strict : Bool) (mask : UInt32) (e : Expr) (rest : List Token) : List Token → Prop
  | intro {before text after : List Token} {closing : Token} {tight : Bool} (blank : Blank before)
      (derives : Derives strict mask .sum text tight e) (blank' : Blank after)
      (glued : strict = true → tight = true → after = []) (closes : isChar closing (ch ')') = true) :
      Enclosed strict mask e rest (before ++ (text ++ (after ++ closing :: rest)))

theorem Enclosed.divisors (enclosed : Enclosed strict mask e rest ts) : NumberDivisors e := by
  obtain ⟨-, derives, -, -, -⟩ := enclosed
  exact derives_divisors derives

theorem Enclosed.trim (enclosed : Enclosed strict mask e rest ts) : ∃ text after closing tight,
      trim ts = text ++ (after ++ closing :: rest) ∧ Derives strict mask .sum text tight e ∧ Blank after ∧
        (strict = true → tight = true → after = []) ∧ isChar closing (ch ')') = true := by
  obtain ⟨blank, derives, blank', glued, closes⟩ := enclosed
  exact ⟨_, _, _, _, by rw [trim_append blank, trim_derives derives], derives, blank', glued, closes⟩

/-- The string that an accepted `calc()` puts into the sheet: the one that interning its code gives. -/
def stored (s : State) (code : Code) : LwcString := (Intern.internBytes s.live (codeBytes code)).2

/-- What an accepted `calc()` leaves behind. -/
def accepted (opv unit : UInt32) (s : State) (code : Code) (rest : List Token) : State :=
  let (strings, index) := stringAdd s.strings (stored s code)
  { tokens := rest, style := s.style ++ [opv, unit, UInt32.ofNat index], strings := strings,
    live := (Intern.internBytes s.live (codeBytes code)).1 }

theorem parseCalc_eq (mask opv unit : UInt32) (s : State) :
    parseCalc mask opv unit s =
      if trim s.tokens = [] then (.error .invalid, s)
      else match (parseCalcBody mask).run (trim s.tokens) with
        | (.error e, _) => (.error e, s)
        | (.ok code, rest) => (.ok (), accepted opv unit s code rest) := by
  unfold parseCalc
  cases trim s.tokens with
  | nil => rfl
  | cons t ts => rfl

theorem parseCalc_cases (mask opv unit : UInt32) (s : State) :
    (∃ e rest, Enclosed true mask e rest s.tokens ∧
        parseCalc mask opv unit s = (.ok (), accepted opv unit s e.code rest)) ∨
      parseCalc mask opv unit s = (.error .invalid, s) ∨
      (trim s.tokens ≠ [] ∧ Unfinished mask .sum (trim s.tokens)) ∧
        parseCalc mask opv unit s = (.error .nullRead, s) := by
  rw [parseCalc_eq]
  by_cases empty : trim s.tokens = []
  · rw [if_pos empty]
    exact .inr (.inl rfl)
  · rw [if_neg empty]
    obtain ⟨w, blank, split⟩ := blank_split s.tokens
    generalize trim s.tokens = ts at empty split
    have sound := @sound_sum mask _ _ (Nat.lt_succ_self ts.length)
    rcases outcome : (parseCalcSum mask (ts.length + 1)).run ts with ⟨e | code, rest⟩
    · have fails : (parseCalcBody mask).run ts = (.error e, rest) := Parser.bind_error outcome
      rw [outcome] at sound
      rw [fails]
      cases e with
      | invalid => exact .inr (.inl rfl)
      | nullRead => exact .inr (.inr ⟨⟨empty, sound⟩, rfl⟩)
      | fuel => exact sound.elim
    · rw [outcome] at sound
      obtain ⟨text, w', tight, e, parts, derives, blank', glued, solid, rfl, ends⟩ := sound
      obtain ⟨closing, rest, rfl, closes⟩ : ∃ c r, rest = c :: r ∧ isChar c (ch ')') = true := by
        have ends := ends (by simp)
        cases rest with
        | nil => simp at ends
        | cons c r => exact ⟨c, r, rfl, by simpa [endsSum] using ends⟩
      have reads : (parseCalcBody mask).run ts = (.ok e.code, rest) := by
        refine (Parser.bind_ok outcome).trans ?_
        simp [solid, tokenIsChar, closes]
      rw [reads]
      have enclosed : Enclosed true mask e rest (w ++ (text ++ (w' ++ closing :: rest))) :=
        .intro blank derives blank' (fun _ => glued) closes
      rw [← parts, ← split] at enclosed
      exact .inl ⟨e, rest, enclosed, rfl⟩

theorem parseCalc_unfinished (opv unit : UInt32) (some : trim s.tokens ≠ [])
    (unfinished : Unfinished mask .sum (trim s.tokens)) : parseCalc mask opv unit s = (.error .nullRead, s) := by
  obtain ⟨rest, read⟩ := unfinished_reads unfinished le_rfl
  have fails : (parseCalcBody mask).run (trim s.tokens) = (.error .nullRead, rest) := Parser.bind_error read
  rw [parseCalc_eq, if_neg some, fails]

theorem parseCalc_enclosed (opv unit : UInt32) (enclosed : Enclosed true mask e rest s.tokens) :
    parseCalc mask opv unit s = (.ok (), accepted opv unit s e.code rest) := by
  obtain ⟨text, w', closing, tight, trimmed, derives, blank', glued, closes⟩ := enclosed.trim
  have solid : trim (closing :: rest) = closing :: rest := trim_cons_of_not_space (isSpace_of_isChar closes) rest
  have reached : Reaches mask (text ++ (w' ++ closing :: rest)).length e.code _ _ .sum :=
    derives_reaches derives (by simp) blank' (glued rfl) solid
  have read := reached (by simp [endsProduct, closes])
  rw [chainLoop_ends (by simpa [endsSum] using closes)] at read
  have body : (parseCalcBody mask).run (text ++ (w' ++ closing :: rest)) = (.ok e.code, rest) := by
    refine (Parser.bind_ok read).trans ?_
    simp [solid, tokenIsChar, closes]
  have some : text ++ (w' ++ closing :: rest) ≠ [] := by simp
  rw [parseCalc_eq, trimmed, if_neg some, body]

/-- Interning the code of the first expression gives the string of the second: the first string that is alive, has the
hash and the length of the code and agrees with it up to a NUL byte, or the code itself where there is none. -/
def StandsFor (live : List LwcString) (e e' : Expr) : Prop :=
  match live.find? fun o => calculateHash o == calculateHash (codeBytes e.code) &&
      o.length == (codeBytes e.code).length && Intern.strncmp o (codeBytes e.code) with
  | none => e' = e
  | some o => o = codeBytes e'.code ∧ NumberDivisors e'

theorem standsFor_self (divisors : NumberDivisors e)
    (own : ∀ o ∈ live, calculateHash o = calculateHash (codeBytes e.code) → o = codeBytes e.code) :
    StandsFor live e e := by
  unfold StandsFor
  split
  · rfl
  · next o found =>
    have taken := List.find?_some found
    simp only [Bool.and_eq_true, beq_iff_eq] at taken
    exact ⟨own o (List.mem_of_find?_eq_some found) taken.1.1, divisors⟩

theorem StandsFor.stored (stands : StandsFor s.live e e') : readWords (stored s e.code) = expression e'.code := by
  rw [Calc.stored, Intern.internBytes]
  unfold StandsFor at stands
  split at stands
  · next absent => rw [absent, stands, readWords_codeBytes]
  · next o found => rw [found, stands.1, readWords_codeBytes]

theorem StandsFor.divisors (stands : StandsFor live e e') (divisors : NumberDivisors e) : NumberDivisors e' := by
  unfold StandsFor at stands
  split at stands
  · rwa [stands]
  · exact stands.2

def token (type : TokenType) (text : String) : Token := ⟨type, lit text⟩

/-- Tokens to parse for a declaration without a style yet. -/
def start (ts : List Token) : State := ⟨ts, [], [], []⟩

/-- A context in which lengths are pixels, of a device with 96 dots per inch. -/
def plain (available : Int32) : Context where
  len2cssPx v _ := v
  deviceDpi := 98304
  available := available

/-- The tokens of `1/2)`. -/
def half : List Token := [token .number "1", token .char "/", token .number "2", token .char ")"]

theorem half_derives (strict : Bool) (mask : UInt32) :
    Derives strict mask .sum [token .number "1", token .char "/", token .number "2"] true
      (.node .divide (.leaf (.number 1024)) (.leaf (.number 2048))) :=
  .whole (@Derives.divided strict mask _ _ [_] [] [] false _ _ (.single (.number rfl)) blank_nil (fun _ _ => rfl) rfl
    blank_nil rfl)

theorem half_enclosed : Enclosed true unitLength (.node .divide (.leaf (.number 1024)) (.leaf (.number 2048))) [] half :=
  @Enclosed.intro true unitLength _ _ [] _ [] _ _ blank_nil (half_derives true unitLength) blank_nil (fun _ _ => rfl) rfl

/-- A length, in pixels. -/
def pixels (v : CssFixed) : Expr := .leaf (.value v (.of .px))

/-- An accepted `calc()` divides by zero on just the expressions with a zero divisor that evaluation comes to: its own
one, or that of the string which its code is taken for. -/
theorem divides_by_zero_iff (mask opv unit : UInt32) (s : State) (ok : (parseCalc mask opv unit s).1 = .ok ()) :
    ∃ e rest, Enclosed true mask e rest s.tokens ∧
      (parseCalc mask opv unit s).2 = accepted opv unit s e.code rest ∧ ∀ e', StandsFor s.live e e' → ∀ ctx,
        calculate ctx (readWords (stored s e.code)) ≠ .error (.fault .divisionByZero) ↔ ¬ ZeroDivisor ctx e' := by
  rcases parseCalc_cases mask opv unit s with ⟨e, rest, enclosed, run⟩ | run | ⟨-, run⟩
  · refine ⟨e, rest, enclosed, by rw [run], fun e' stands ctx => ?_⟩
    rw [stands.stored, calculate_tree]
    rcases eval_cases ctx (stands.divisors enclosed.divisors) with
      ⟨zero, value⟩ | ⟨fine, -, reason, -, value⟩ | ⟨fine, -, v, value⟩
    · rw [value]
      exact ⟨fun safe => absurd rfl safe, fun fine => absurd zero fine⟩
    · rw [value]
      exact ⟨fun _ => fine, fun _ same => by cases same⟩
    · rw [value]
      exact ⟨fun _ => fine, fun _ same => by cases same⟩
  · rw [run] at ok
    cases ok
  · rw [run] at ok
    cases ok

theorem half_accepted : ∃ e rest, Enclosed true unitLength e rest half ∧
    (parseCalc unitLength 0 0 (start half)).2 = accepted 0 0 (start half) e.code rest ∧
    ∀ e', StandsFor [] e e' → ∀ ctx,
      calculate ctx (readWords (stored (start half) e.code)) ≠ .error (.fault .divisionByZero) ↔ ¬ ZeroDivisor ctx e' :=
  divides_by_zero_iff unitLength 0 0 (start half) (by decide)

/-- `1/0)` is accepted, and divides by zero. -/
theorem zero_divisor_accepted : ¬ ∀ (mask opv unit : UInt32) (s : State) (code : Code) (rest : List Token),
    parseCalc mask opv unit s = (.ok (), accepted opv unit s code rest) → ∀ ctx,
      calculate ctx (readWords (stored s code)) ≠ .error (.fault .divisionByZero) := by
  intro all
  refine all unitLength 0 0 (start [token .number "1", token .char "/", token .number "0", token .char ")"])
    [.push (.number 1024), .push (.number 0), .apply .divide] [] ?_ (plain 0) ?_
  · decide
  · rfl

/-- No NULL token is dereferenced, and what is rejected leaves the position and the style as they were. -/
def ParsesSafely (mask opv unit : UInt32) (s : State) : Prop :=
  (parseCalc mask opv unit s).1 ≠ .error .nullRead ∧
    ∀ e, (parseCalc mask opv unit s).1 = .error e → (parseCalc mask opv unit s).2 = s

/-- The parser is safe on just the tokens that do not break off where a value is wanted. -/
theorem parse_safe_iff (mask opv unit : UInt32) (s : State) :
    ParsesSafely mask opv unit s ↔ ¬ (trim s.tokens ≠ [] ∧ Unfinished mask .sum (trim s.tokens)) := by
  unfold ParsesSafely
  by_cases unfinished : trim s.tokens ≠ [] ∧ Unfinished mask .sum (trim s.tokens)
  · rw [parseCalc_unfinished opv unit unfinished.1 unfinished.2]
    exact ⟨fun safe => absurd rfl safe.1, fun fine => absurd unfinished fine⟩
  · refine ⟨fun _ => unfinished, fun _ => ?_⟩
    rcases parseCalc_cases mask opv unit s with ⟨e, rest, -, run⟩ | run | ⟨bad, -⟩
    · rw [run]
      exact ⟨by simp, fun e same => by cases same⟩
    · rw [run]
      exact ⟨by simp, fun _ _ => rfl⟩
    · exact absurd bad unfinished

/-- A NULL token is dereferenced after `1+`. -/
theorem sign_at_end : ¬ ∀ (mask opv unit : UInt32) (s : State), ParsesSafely mask opv unit s := by
  intro all
  exact (all unitLength 0 0 (start [token .number "1", token .char "+"])).1 (by decide)

end Besra.Calc
