import Besra.CalcParse

/-!
The `calc()` parser against the grammar in its comment. What it accepts are the texts of the strict form of the
grammar, with the code of their expressions (`derives_reaches`, `sound_sum`). It dereferences a NULL token on just the
texts that break off where a value is wanted (`Unfinished`).
-/
namespace Besra.CalcDerives
open Lwc Cursor Besra.Lex FixedPoint CalcCode CalcParse Parser
open Postfix (Term Instr)

theorem forward_parseCalcNumber : parseCalcNumber.Forward := by
  unfold parseCalcNumber
  refine forward_iterate.bind fun token => ?_
  split
  · exact forward_fail _
  · split
    · exact forward_fail _
    · exact forward_pure _

theorem forward_consumeWhitespace : (consumeWhitespace : CalcParser Unit).Forward := forward_skip _

theorem forward_parseUnitSpecifier : parseUnitSpecifier.Forward := by
  unfold parseUnitSpecifier
  refine forward_consumeWhitespace.bind fun _ => forward_iterate.bind fun token => ?_
  split
  · exact forward_fail _
  · split
    · exact forward_fail _
    · exact forward_pure _

variable {sum value product operand : CalcParser Code} {v : CssFixed} {t star sign : Token} {tight strict : Bool}
  {text ts rest : List Token} {level : Level} {e : Expr} {mask : UInt32} {code : Code} {o : Op} {n : Nat}

theorem forward_parseCalcValue (mask : UInt32) (forward : sum.Forward) : (parseCalcValue mask sum).Forward := by
  unfold parseCalcValue
  refine forward_peek.bind fun token => ?_
  split
  · refine forward_iterate.bind fun _ => forward_consumeWhitespace.bind fun _ => forward.bind fun _ =>
      forward_peek.bind fun _ => ?_
    split
    · exact forward_fail _
    · exact forward_iterate.bind fun _ => forward_consumeWhitespace.bind fun _ => forward_pure _
  · split
    · exact forward_fail _
    · split
      · exact forward_parseCalcNumber.bind fun _ => forward_consumeWhitespace.bind fun _ => forward_pure _
      · split
        · refine forward_parseUnitSpecifier.bind fun _ => ?_
          dsimp only
          split
          · exact forward_fail _
          · exact forward_consumeWhitespace.bind fun _ => forward_pure _
        · exact forward_consumeWhitespace.bind fun _ => forward_fail _

def ForwardOperands (operator : Token → Option (Op × CalcParser Code)) : Prop :=
  ∀ t o operand, operator t = some (o, operand) → operand.Forward

theorem forwardOperands_product (forward : value.Forward) : ForwardOperands (productOperator value) := by
  intro t o operand is
  unfold productOperator at is
  split at is
  · cases is
    exact forward
  · split at is
    · cases is
      exact forward_parseCalcNumber
    · cases is

theorem forwardOperands_sum (forward : product.Forward) : ForwardOperands (sumOperator product) := by
  intro t o operand is
  unfold sumOperator at is
  split at is
  · cases is
    exact forward
  · split at is
    · cases is
      exact forward
    · cases is

section chains
variable {ends : Token → Bool} {operator : Token → Option (Op × CalcParser Code)}

variable {t : Token} {operand : CalcParser Code} {ts : List Token} {code : Code} {n : Nat}

theorem chainLoop_ends (is : ends t = true) (n : Nat) (code : Code) (ts : List Token) :
    (chainLoop ends operator (n + 1) code).run (t :: ts) = (.ok code, t :: ts) := by
  simp [chainLoop, is]

theorem chainLoop_operator {o : Op} (goes : ends t = false) (is : operator t = some (o, operand)) (n : Nat)
    (code : Code) (ts : List Token) :
    (chainLoop ends operator (n + 1) code).run (t :: ts) =
      (operand >>= fun right => chainLoop ends operator n (code ++ right ++ [.apply o])).run (trim ts) := by
  simp [chainLoop, goes, is]

theorem chainLoop_rule {inv : Code → List Token → Prop} {post : Except Err Code × List Token → Prop}
    (forward : ForwardOperands operator) (none : ∀ code, inv code [] → post (.error .invalid, []))
    (stop : ∀ code t ts, inv code (t :: ts) → ends t = true → post (.ok code, t :: ts))
    (other : ∀ code t ts, inv code (t :: ts) → ends t = false → operator t = .none → post (.error .invalid, t :: ts))
    (fails : ∀ code t ts o operand e rest, inv code (t :: ts) → ends t = false → operator t = some (o, operand) → operand.run (trim ts) = (.error e, rest) → post (.error e, rest))
    (next : ∀ code t ts o operand right rest, inv code (t :: ts) → ends t = false → operator t = some (o, operand) → operand.run (trim ts) = (.ok right, rest) → inv (code ++ right ++ [.apply o]) rest)
    (start : inv code ts) (enough : ts.length < n) : post ((chainLoop ends operator n code).run ts) := by
  induction n generalizing code ts with
  | zero => omega
  | succ n ih =>
    cases ts with
    | nil => exact none code start
    | cons t ts =>
      by_cases goes : ends t = true
      · rw [chainLoop_ends goes]
        exact stop code t ts start goes
      · have goes : ends t = false := Bool.eq_false_iff.mpr goes
        cases is : operator t with
        | none =>
          have outcome : (chainLoop ends operator (n + 1) code).run (t :: ts) = (.error .invalid, t :: ts) := by
            simp [chainLoop, goes, is]
          rw [outcome]
          exact other code t ts start goes is
        | some step =>
          obtain ⟨o, operand⟩ := step
          rw [chainLoop_operator goes is]
          have moved := forward t o operand is (trim ts)
          rcases outcome : operand.run (trim ts) with ⟨e | right, rest⟩
          · rw [bind_error outcome]
            exact fails code t ts o operand e rest start goes is outcome
          · rw [bind_ok outcome]
            rw [outcome] at moved
            have shorter : rest.length ≤ ts.length := (moved.trans (List.dropWhile_suffix _)).length_le
            exact ih (next code t ts o operand right rest start goes is outcome) (by simp at enough; omega)

theorem forward_chainLoop (forward : ForwardOperands operator) (n : Nat) (code : Code) :
    (chainLoop ends operator n code).Forward := by
  induction n generalizing code with
  | zero => exact forward_fail _
  | succ n ih =>
    unfold chainLoop
    refine forward_peek.bind fun token => ?_
    split
    · exact forward_fail _
    next token =>
      split
      · exact forward_pure _
      · split
        · exact forward_fail _
        next o operand is =>
          exact forward_iterate.bind fun _ => forward_consumeWhitespace.bind fun _ =>
            (forward token o operand is).bind fun _ => ih _

theorem forward_chain (forward : ForwardOperands operator) (first : operand.Forward) :
    (chain ends operator operand).Forward :=
  first.bind fun _ => forward_looking fun _ => forward_chainLoop forward _ _

theorem chainLoop_fuel (forward : ForwardOperands operator) {m : Nat} (enough : ts.length < n)
    (enough' : ts.length < m) : (chainLoop ends operator n code).run ts = (chainLoop ends operator m code).run ts := by
  induction n generalizing m code ts with
  | zero => omega
  | succ n ih =>
    cases m with
    | zero => omega
    | succ m =>
      cases ts with
      | nil => rfl
      | cons t ts =>
        by_cases goes : ends t = true
        · rw [chainLoop_ends goes, chainLoop_ends goes]
        · have goes : ends t = false := Bool.eq_false_iff.mpr goes
          cases is : operator t with
          | none => simp [chainLoop, goes, is]
          | some step =>
            obtain ⟨o, operand⟩ := step
            rw [chainLoop_operator goes is, chainLoop_operator goes is]
            have moved := forward t o operand is (trim ts)
            rcases outcome : operand.run (trim ts) with ⟨e | right, rest⟩
            · rw [bind_error outcome, bind_error outcome]
            · rw [bind_ok outcome, bind_ok outcome]
              rw [outcome] at moved
              have shorter : rest.length ≤ ts.length := (moved.trans (List.dropWhile_suffix _)).length_le
              rw [List.length_cons] at enough enough'
              exact ih (by omega) (by omega)

end chains

abbrev valueAt (mask : UInt32) (n : Nat) : CalcParser Code := parseCalcValue mask (parseCalcSum mask n)

abbrev productAt (mask : UInt32) (n : Nat) : CalcParser Code := parseCalcProduct (valueAt mask n)

theorem forward_parseCalcSum (mask : UInt32) (n : Nat) : (parseCalcSum mask n).Forward := by
  induction n with
  | zero => exact forward_fail _
  | succ n ih =>
    have product : (productAt mask n).Forward :=
      forward_chain (forwardOperands_product (forward_parseCalcValue mask ih)) (forward_parseCalcValue mask ih)
    exact forward_chain (forwardOperands_sum product) product

theorem forward_valueAt (mask : UInt32) (n : Nat) : (valueAt mask n).Forward :=
  forward_parseCalcValue mask (forward_parseCalcSum mask n)

theorem forward_productAt (mask : UInt32) (n : Nat) : (productAt mask n).Forward :=
  forward_chain (forwardOperands_product (forward_valueAt mask n)) (forward_valueAt mask n)

theorem number?_type (is : number? t = some v) : t.type = .number := by
  unfold number? at is
  split at is
  next type => exact type
  next => cases is

theorem unit?_type {p : CssFixed × CalcUnit} (is : unit? t = some p) : t.type = .dimension ∨ t.type = .percentage := by
  unfold unit? at is
  dsimp only at is
  split at is
  next type => exact .inl type
  next =>
    split at is
    next type => exact .inr type
    next => cases is

theorem derives_head (derives : Derives strict mask level text tight e) :
    ∃ t rest, text = t :: rest ∧ isSpace t = false := by
  induction derives with
  | number is => exact ⟨_, [], rfl, by simp [isSpace, number?_type is]⟩
  | measure is => exact ⟨_, [], rfl, by rcases unit?_type is with type | type <;> simp [isSpace, type]⟩
  | parens opens => exact ⟨_, _, rfl, isSpace_of_isChar opens⟩
  | single _ ih | whole _ ih => exact ih
  | times _ _ _ _ _ _ ih | divided _ _ _ _ _ _ ih | plus _ _ _ _ _ _ ih =>
    obtain ⟨t, rest, rfl, solid⟩ := ih
    exact ⟨t, _, rfl, solid⟩

theorem trim_derives (derives : Derives strict mask level text tight e) (more : List Token) :
    trim (text ++ more) = text ++ more := by
  obtain ⟨t, rest, rfl, solid⟩ := derives_head derives
  exact trim_cons_of_not_space solid _

/-- Where the parser stands after the text of an expression and white space: a value is done, a product and a sum are
in their loop. -/
def Reaches (mask : UInt32) (n : Nat) (code : Code) (ts rest : List Token) : Level → Prop
  | .value => (valueAt mask n).run ts = (.ok code, rest)
  | .product => (productAt mask n).run ts =
      (chainLoop endsProduct (productOperator (valueAt mask n)) (rest.length + 1) code).run rest
  | .sum => rest.head?.any endsProduct = true → (parseCalcSum mask (n + 1)).run ts =
      (chainLoop endsSum (sumOperator (productAt mask n)) (rest.length + 1) code).run rest

theorem parseCalcNumber_run (is : number? t = some v) (rest : List Token) :
    parseCalcNumber.run (t :: rest) = (.ok [.push (.number v)], rest) := by
  simp [parseCalcNumber, is]

theorem value_number (mask : UInt32) (sum : CalcParser Code) (is : number? t = some v) (rest : List Token) :
    (parseCalcValue mask sum).run (t :: rest) = (.ok [.push (.number v)], trim rest) := by
  have type := number?_type is
  have other : isChar t (ch '(') = false := isChar_type (by simp [type])
  simp [parseCalcValue, tokenIsChar, other, type, bind_ok (parseCalcNumber_run is rest)]

theorem value_measure (mask : UInt32) (sum : CalcParser Code) {u : CalcUnit} (is : unit? t = some (v, u))
    (valid : u.code &&& mask ≠ 0) (rest : List Token) :
    (parseCalcValue mask sum).run (t :: rest) = (.ok [.push (.value v u)], trim rest) := by
  have type := unit?_type is
  have other : isChar t (ch '(') = false := isChar_type (by rcases type with type | type <;> simp [type])
  have notNumber : t.type ≠ .number := by rcases type with type | type <;> simp [type]
  have solid : isSpace t = false := by rcases type with type | type <;> simp [isSpace, type]
  have read : parseUnitSpecifier.run (t :: rest) = (.ok (v, u), rest) := by
    simp [parseUnitSpecifier, solid, is]
  simp [parseCalcValue, tokenIsChar, other, notNumber, type, bind_ok read, valid]

theorem value_parens (mask : UInt32) {opening closing : Token}
    (opens : isChar opening (ch '(') = true) (inner : sum.run (trim ts) = (.ok code, closing :: rest)) (closes : isChar closing (ch ')') = true) :
    (parseCalcValue mask sum).run (opening :: ts) = (.ok code, trim rest) := by
  simp [parseCalcValue, tokenIsChar, opens, bind_ok inner, closes]

theorem endsProduct_iff :
    endsProduct t = true ↔ isChar t (ch ')') = true ∨ isChar t (ch '+') = true ∨ isChar t (ch '-') = true := by
  simp [endsProduct, or_assoc]

theorem productOperator_times (value : CalcParser Code) (is : isChar star (ch '*') = true) :
    endsProduct star = false ∧ productOperator value star = some (.multiply, value) := by
  have apart : ch '*' ≠ ch ')' ∧ ch '*' ≠ ch '+' ∧ ch '*' ≠ ch '-' := by decide
  simp [endsProduct, productOperator, is, isChar_other is apart.1, isChar_other is apart.2.1, isChar_other is apart.2.2]

theorem productOperator_divided {slash : Token} (value : CalcParser Code) (is : isChar slash (ch '/') = true) :
    endsProduct slash = false ∧ productOperator value slash = some (.divide, parseCalcNumber) := by
  have apart : ch '/' ≠ ch ')' ∧ ch '/' ≠ ch '+' ∧ ch '/' ≠ ch '-' ∧ ch '/' ≠ ch '*' := by decide
  simp [endsProduct, productOperator, is, isChar_other is apart.1, isChar_other is apart.2.1,
    isChar_other is apart.2.2.1, isChar_other is apart.2.2.2]

theorem sumOperator_sign (product : CalcParser Code)
    (is : isChar sign (ch '+') = true ∧ o = .add ∨ isChar sign (ch '-') = true ∧ o = .subtract) :
    endsSum sign = false ∧ endsProduct sign = true ∧ sumOperator product sign = some (o, product) := by
  have apart : ch '+' ≠ ch ')' ∧ ch '-' ≠ ch ')' ∧ ch '-' ≠ ch '+' := by decide
  rcases is with ⟨is, rfl⟩ | ⟨is, rfl⟩
  · simp [endsSum, endsProduct, sumOperator, is, isChar_other is apart.1]
  · simp [endsSum, endsProduct, sumOperator, is, isChar_other is apart.2.1, isChar_other is apart.2.2]

theorem chainLoop_operand {ends : Token → Bool} {operator : Token → Option (Op × CalcParser Code)}
    (forward : ForwardOperands operator) (goes : ends sign = false ∧ operator sign = some (o, operand)) (code : Code)
    {right : Code} (read : operand.run (trim ts) = (.ok right, rest)) :
    (chainLoop ends operator ((sign :: ts).length + 1) code).run (sign :: ts) =
      (chainLoop ends operator (rest.length + 1) (code ++ right ++ [.apply o])).run rest := by
  have moved := forward sign o operand goes.2 (trim ts)
  rw [read] at moved
  have shorter : rest.length ≤ ts.length := (moved.trans (List.dropWhile_suffix _)).length_le
  rw [chainLoop_operator goes.1 goes.2, bind_ok read]
  exact chainLoop_fuel forward (by simp; omega) (by omega)

theorem derives_reaches (derives : Derives true mask level text tight e) (deep : text.length ≤ n) {w : List Token}
    (blank : Blank w) (glued : tight = true → w = []) (solid : trim rest = rest) :
    Reaches mask n e.code (text ++ (w ++ rest)) rest level := by
  induction derives generalizing n w rest with
  | number is =>
    have read := value_number mask (parseCalcSum mask n) is (w ++ rest)
    rwa [trim_append blank, solid] at read
  | measure is valid =>
    have read := value_measure mask (parseCalcSum mask n) is valid (w ++ rest)
    rwa [trim_append blank, solid] at read
  | @parens opening closing w₁ w₂ text tight e opens before inner after glued' closes ih =>
    obtain _ | n := n
    · simp at deep
    have closed : trim (closing :: (w ++ rest)) = closing :: (w ++ rest) :=
      trim_cons_of_not_space (isSpace_of_isChar closes) _
    have ends : (closing :: (w ++ rest)).head?.any endsProduct = true := by simp [endsProduct, closes]
    have inside : Reaches mask n e.code (text ++ (w₂ ++ closing :: (w ++ rest))) (closing :: (w ++ rest)) .sum :=
      ih (by simp at deep; omega) after (glued' rfl) closed
    have sum := inside ends
    rw [chainLoop_ends (by simpa [endsSum] using closes)] at sum
    rw [← trim_derives inner, ← trim_append before] at sum
    have read := value_parens mask opens sum closes
    rw [trim_append blank, solid] at read
    simpa [Reaches] using read
  | single value ih =>
    have read : (valueAt mask n).run _ = _ := ih deep blank (by simp) solid
    exact bind_ok read
  | @times star text text' w₁ w₂ tight l r left before glued' sign after right ih ih' =>
    have starts : trim (star :: (w₂ ++ (text' ++ (w ++ rest)))) = star :: (w₂ ++ (text' ++ (w ++ rest))) :=
      trim_cons_of_not_space (isSpace_of_isChar sign) _
    have reached : Reaches mask n l.code (text ++ (w₁ ++ star :: (w₂ ++ (text' ++ (w ++ rest)))))
        (star :: (w₂ ++ (text' ++ (w ++ rest)))) .product := ih (by simp at deep; omega) before (glued' rfl) starts
    have read : (valueAt mask n).run (text' ++ (w ++ rest)) = (.ok r.code, rest) :=
      ih' (by simp at deep; omega) blank (by simp) solid
    rw [← trim_derives right, ← trim_append after] at read
    have round := chainLoop_operand (forwardOperands_product (forward_valueAt mask n))
      (productOperator_times _ sign) l.code read
    rw [Reaches, round] at reached
    simpa [Reaches, Term.code] using reached
  | @divided slash t text w₁ w₂ tight l v left before glued' sign after is ih =>
    obtain rfl : w = [] := glued rfl
    have starts : trim (slash :: (w₂ ++ t :: rest)) = slash :: (w₂ ++ t :: rest) :=
      trim_cons_of_not_space (isSpace_of_isChar sign) _
    have reached : Reaches mask n l.code (text ++ (w₁ ++ slash :: (w₂ ++ t :: rest))) (slash :: (w₂ ++ t :: rest))
        .product := ih (by simp at deep; omega) before (glued' rfl) starts
    have number : isSpace t = false := by simp [isSpace, number?_type is]
    have read := parseCalcNumber_run is rest
    rw [← trim_cons_of_not_space number rest, ← trim_append after] at read
    have round := chainLoop_operand (forwardOperands_product (forward_valueAt mask n))
      (productOperator_divided _ sign) l.code read
    rw [Reaches, round] at reached
    simpa [Reaches, Term.code] using reached
  | @whole text tight e product ih =>
    intro ends
    obtain ⟨t, rest, rfl⟩ : ∃ t rest', rest = t :: rest' := by
      cases rest with
      | nil => simp at ends
      | cons t rest => exact ⟨t, rest, rfl⟩
    have read : (productAt mask n).run _ = _ := ih deep blank glued solid
    rw [List.length_cons, chainLoop_ends (by simpa using ends)] at read
    exact bind_ok read
  | @plus sign text text' w₁ w₂ tight tight' l r o left before glued' is after right ih ih' =>
    intro ends
    obtain ⟨t, rest, rfl⟩ : ∃ t rest', rest = t :: rest' := by
      cases rest with
      | nil => simp at ends
      | cons t rest => exact ⟨t, rest, rfl⟩
    have solid' : isSpace sign = false := by rcases is with is | is <;> exact isSpace_of_isChar is.1
    obtain ⟨goes, ends', operator⟩ := sumOperator_sign (productAt mask n) is
    have reached : Reaches mask n l.code (text ++ (w₁ ++ sign :: (w₂ ++ (text' ++ (w ++ t :: rest)))))
        (sign :: (w₂ ++ (text' ++ (w ++ t :: rest)))) .sum :=
      ih (by simp at deep; omega) before (glued' rfl) (trim_cons_of_not_space solid' _)
    have read : (productAt mask n).run (text' ++ (w ++ t :: rest)) = _ :=
      ih' (by simp at deep; omega) blank glued solid
    rw [List.length_cons, chainLoop_ends (by simpa using ends), ← trim_derives right, ← trim_append after] at read
    have round := chainLoop_operand (forwardOperands_sum (forward_productAt mask n)) ⟨goes, operator⟩ l.code read
    have reached := reached (by simpa using ends')
    rw [round] at reached
    simpa [Term.code] using reached

/-- The tokens break off where a value is wanted: at the beginning, in parentheses, or behind a sign that any value
may follow. -/
inductive Unfinished (mask : UInt32) : Level → List Token → Prop
  | missing : Unfinished mask .value []
  | parens {opening : Token} {w ts : List Token} (opens : isChar opening (ch '(') = true) (before : Blank w)
      (inner : Unfinished mask .sum ts) : Unfinished mask .value (opening :: (w ++ ts))
  | first {ts : List Token} (value : Unfinished mask .value ts) : Unfinished mask .product ts
  | times {star : Token} {text w w' ts : List Token} {tight : Bool} {l : Expr}
      (left : Derives true mask .product text tight l) (before : Blank w) (glued : tight = true → w = [])
      (sign : isChar star (ch '*') = true) (after : Blank w') (right : Unfinished mask .value ts) :
      Unfinished mask .product (text ++ (w ++ star :: (w' ++ ts)))
  | begin {ts : List Token} (product : Unfinished mask .product ts) : Unfinished mask .sum ts
  | plus {sign : Token} {text w w' ts : List Token} {tight : Bool} {l : Expr}
      (left : Derives true mask .sum text tight l) (before : Blank w) (glued : tight = true → w = [])
      (is : isChar sign (ch '+') = true ∨ isChar sign (ch '-') = true) (after : Blank w')
      (right : Unfinished mask .product ts) : Unfinished mask .sum (text ++ (w ++ sign :: (w' ++ ts)))

/-- What a parser of some level may do on tokens: read the text of an expression, and white space behind it, up to a
token that ends the level; dereference a NULL token where they break off; or fail. -/
def Sound (mask : UInt32) (level : Level) (ends : Token → Bool) (ts : List Token) :
    Except Err Code × List Token → Prop
  | (.ok code, rest) => ∃ text w tight e, ts = text ++ (w ++ rest) ∧ Derives true mask level text tight e ∧ Blank w ∧
      (tight = true → w = []) ∧ trim rest = rest ∧ code = e.code ∧ (level ≠ .value → rest.head?.any ends = true)
  | (.error .nullRead, _) => Unfinished mask level ts
  | (.error .invalid, _) => True
  | (.error .fuel, _) => False

theorem sound_leaf {operand : Operand} (derives : Derives true mask .value [t] false (.leaf operand)) :
    Sound mask .value endsSum (t :: ts) (.ok [.push operand], trim ts) := by
  obtain ⟨w, blank, split⟩ := blank_split ts
  refine ⟨[t], w, false, _, ?_, derives, blank, by simp, trim_trim ts, rfl, by simp⟩
  rw [← split, List.singleton_append]

theorem sound_value
    (sum : ∀ ts', ts'.length < ts.length → Sound mask .sum endsSum ts' ((parseCalcSum mask n).run ts')) :
    Sound mask .value endsSum ts ((valueAt mask n).run ts) := by
  cases ts with
  | nil => exact .missing
  | cons t ts =>
    by_cases opens : isChar t (ch '(') = true
    · obtain ⟨w, blank, split⟩ := blank_split ts
      have shorter : (trim ts).length < (t :: ts).length :=
        Nat.lt_succ_of_le (List.dropWhile_suffix isSpace).length_le
      have inside := sum (trim ts) shorter
      rcases outcome : (parseCalcSum mask n).run (trim ts) with ⟨e | code, rest⟩
      · have fails : (valueAt mask n).run (t :: ts) = (.error e, rest) := by
          simp [parseCalcValue, tokenIsChar, opens, bind_error outcome]
        rw [fails]
        rw [outcome] at inside
        cases e with
        | invalid => trivial
        | nullRead =>
          have unfinished : Unfinished mask .value (t :: (w ++ trim ts)) := .parens opens blank inside
          rwa [← split] at unfinished
        | fuel => exact inside
      · rw [outcome] at inside
        obtain ⟨text, w', tight, e, parts, derives, blank', glued, -, rfl, ends⟩ := inside
        obtain ⟨closing, rest, rfl, closes⟩ : ∃ c r, rest = c :: r ∧ isChar c (ch ')') = true := by
          have ends := ends (by simp)
          cases rest with
          | nil => simp at ends
          | cons c r => exact ⟨c, r, rfl, by simpa [endsSum] using ends⟩
        rw [valueAt, value_parens mask opens outcome closes]
        obtain ⟨w'', blank'', split'⟩ := blank_split rest
        refine ⟨_, w'', false, e, ?_, .parens opens blank derives blank' (fun _ => glued) closes, blank'', by simp,
          trim_trim rest, rfl, by simp⟩
        rw [split, parts]
        conv_lhs => rw [split']
        simp
    · by_cases number : t.type = .number
      · cases is : number? t with
        | none =>
          have fails : parseCalcNumber.run (t :: ts) = (.error .invalid, ts) := by simp [parseCalcNumber, is]
          simp [parseCalcValue, tokenIsChar, opens, number, bind_error fails, Sound]
        | some v =>
          rw [valueAt, value_number mask _ is]
          exact sound_leaf (.number is)
      · by_cases measure : t.type = .dimension ∨ t.type = .percentage
        · have solid : isSpace t = false := by rcases measure with type | type <;> simp [isSpace, type]
          cases is : unit? t with
          | none =>
            have fails : parseUnitSpecifier.run (t :: ts) = (.error .invalid, ts) := by
              simp [parseUnitSpecifier, solid, is]
            simp [parseCalcValue, tokenIsChar, opens, number, measure, bind_error fails, Sound]
          | some p =>
            obtain ⟨v, u⟩ := p
            by_cases valid : u.code &&& mask = 0
            · have read : parseUnitSpecifier.run (t :: ts) = (.ok (v, u), ts) := by simp [parseUnitSpecifier, solid, is]
              simp [parseCalcValue, tokenIsChar, opens, number, measure, bind_ok read, valid, Sound]
            · rw [valueAt, value_measure mask _ is valid]
              exact sound_leaf (.measure is valid)
        · simp [parseCalcValue, tokenIsChar, opens, number, measure, Sound]

def Stands (mask : UInt32) (level : Level) (ts : List Token) (code : Code) (rest : List Token) : Prop :=
  ∃ text w tight e, ts = text ++ (w ++ rest) ∧ Derives true mask level text tight e ∧ Blank w ∧
    (tight = true → w = []) ∧ code = e.code

theorem Stands.shorter (stands : Stands mask level ts code (t :: rest)) : (trim rest).length < ts.length := by
  obtain ⟨text, w, tight, e, rfl, -⟩ := stands
  have trimmed : (trim rest).length ≤ rest.length := (List.dropWhile_suffix isSpace).length_le
  simp only [List.length_append, List.length_cons]
  omega

theorem Stands.sound {ends : Token → Bool} (stands : Stands mask level ts code (t :: rest)) (stop : ends t = true)
    (solid : isSpace t = false) : Sound mask level ends ts (.ok code, t :: rest) := by
  obtain ⟨text, w, tight, e, parts, derives, blank, glued, same⟩ := stands
  exact ⟨text, w, tight, e, parts, derives, blank, glued, trim_cons_of_not_space solid rest, same, fun _ => stop⟩

theorem solid_of_endsProduct (ends : endsProduct t = true) : isSpace t = false := by
  rcases endsProduct_iff.mp ends with is | is | is <;> exact isSpace_of_isChar is

theorem productOperator_cases (is : productOperator value t = some (o, operand)) :
    isChar t (ch '*') = true ∧ o = .multiply ∧ operand = value ∨
      isChar t (ch '/') = true ∧ o = .divide ∧ operand = parseCalcNumber := by
  unfold productOperator at is
  split at is
  next star =>
    cases is
    exact .inl ⟨star, rfl, rfl⟩
  next =>
    split at is
    next slash =>
      cases is
      exact .inr ⟨slash, rfl, rfl⟩
    next => cases is

theorem sumOperator_cases (is : sumOperator product t = some (o, operand)) : operand = product ∧
      (isChar t (ch '+') = true ∧ o = .add ∨ isChar t (ch '-') = true ∧ o = .subtract) := by
  unfold sumOperator at is
  split at is
  next plus =>
    cases is
    exact ⟨rfl, .inl ⟨plus, rfl⟩⟩
  next =>
    split at is
    next minus =>
      cases is
      exact ⟨rfl, .inr ⟨minus, rfl⟩⟩
    next => cases is

theorem parseCalcNumber_cases (ts : List Token) :
    (∃ rest, parseCalcNumber.run ts = (.error .invalid, rest)) ∨
      ∃ t v rest, ts = t :: rest ∧ number? t = some v ∧ parseCalcNumber.run ts = (.ok [.push (.number v)], rest) := by
  cases ts with
  | nil => exact .inl ⟨[], rfl⟩
  | cons t rest =>
    cases is : number? t with
    | none => exact .inl ⟨rest, by simp [parseCalcNumber, is]⟩
    | some v => exact .inr ⟨t, v, rest, rfl, is, parseCalcNumber_run is rest⟩

theorem Stands.times {mask : UInt32} {ts rest rest' : List Token} {code : Code} {star : Token} {r : Expr}
    (stands : Stands mask .product ts code (star :: rest)) (sign : isChar star (ch '*') = true)
    {text w : List Token} (parts : trim rest = text ++ (w ++ rest')) (right : Derives true mask .value text false r)
    (blank : Blank w) : Stands mask .product ts (code ++ r.code ++ [.apply .multiply]) rest' := by
  obtain ⟨text₁, w₁, tight, l, rfl, derives, before, glued, rfl⟩ := stands
  obtain ⟨w₂, after, split⟩ := blank_split rest
  refine ⟨_, w, false, _, ?_, .times derives before (fun _ => glued) sign after right, blank, by simp, rfl⟩
  rw [split, parts]
  simp

theorem Stands.divided {mask : UInt32} {ts rest rest' : List Token} {code : Code} {slash t : Token} {v : CssFixed}
    (stands : Stands mask .product ts code (slash :: rest)) (sign : isChar slash (ch '/') = true)
    (parts : trim rest = t :: rest') (is : number? t = some v) :
    Stands mask .product ts (code ++ [.push (.number v)] ++ [.apply .divide]) rest' := by
  obtain ⟨text₁, w₁, tight, l, rfl, derives, before, glued, rfl⟩ := stands
  obtain ⟨w₂, after, split⟩ := blank_split rest
  refine ⟨_, [], true, _, ?_, .divided derives before (fun _ => glued) sign after is, blank_nil, by simp, rfl⟩
  rw [split, parts]
  simp

theorem Stands.plus {mask : UInt32} {ts rest rest' : List Token} {code : Code} {sign : Token} {r : Expr} {o : Op}
    (stands : Stands mask .sum ts code (sign :: rest))
    (is : isChar sign (ch '+') = true ∧ o = .add ∨ isChar sign (ch '-') = true ∧ o = .subtract) {text w : List Token}
    {tight : Bool} (parts : trim rest = text ++ (w ++ rest')) (right : Derives true mask .product text tight r)
    (blank : Blank w) (glued' : tight = true → w = []) : Stands mask .sum ts (code ++ r.code ++ [.apply o]) rest' := by
  obtain ⟨text₁, w₁, tight₁, l, rfl, derives, before, glued, rfl⟩ := stands
  obtain ⟨w₂, after, split⟩ := blank_split rest
  refine ⟨_, w, tight, _, ?_, .plus derives before (fun _ => glued) is after right, blank, glued', rfl⟩
  rw [split, parts]
  simp

theorem Stands.unfinished_times (stands : Stands mask .product ts code (star :: rest))
    (sign : isChar star (ch '*') = true) (right : Unfinished mask .value (trim rest)) :
    Unfinished mask .product ts := by
  obtain ⟨text₁, w₁, tight, l, rfl, derives, before, glued, -⟩ := stands
  obtain ⟨w₂, after, split⟩ := blank_split rest
  rw [split]
  exact .times derives before glued sign after right

theorem Stands.unfinished_plus (stands : Stands mask .sum ts code (sign :: rest))
    (is : isChar sign (ch '+') = true ∧ o = .add ∨ isChar sign (ch '-') = true ∧ o = .subtract)
    (right : Unfinished mask .product (trim rest)) : Unfinished mask .sum ts := by
  obtain ⟨text₁, w₁, tight, l, rfl, derives, before, glued, -⟩ := stands
  obtain ⟨w₂, after, split⟩ := blank_split rest
  rw [split]
  exact .plus derives before glued (is.imp And.left And.left) after right

theorem sound_product
    (value : ∀ part, part.length ≤ ts.length → Sound mask .value endsSum part ((valueAt mask n).run part)) :
    Sound mask .product endsProduct ts ((productAt mask n).run ts) := by
  have first := value ts le_rfl
  rcases outcome : (valueAt mask n).run ts with ⟨e | code, rest⟩
  · rw [productAt, parseCalcProduct, chain, bind_error outcome]
    rw [outcome] at first
    cases e with
    | invalid => trivial
    | nullRead => exact .first first
    | fuel => exact first
  · rw [productAt, parseCalcProduct, chain, bind_ok outcome, looking_run]
    rw [outcome] at first
    obtain ⟨text, w, tight, e, parts, derives, blank, glued, -, same, -⟩ := first
    obtain rfl : tight = false := by cases derives <;> rfl
    have start : Stands mask .product ts code rest := ⟨text, w, false, e, parts, .single derives, blank, glued, same⟩
    refine chainLoop_rule (forwardOperands_product (forward_valueAt mask n)) (fun code _ => ?_)
      (fun code t rest stands stop => stands.sound stop (solid_of_endsProduct stop)) (fun code t rest _ _ _ => ?_)
      (fun code t rest o operand e left stands _ is run => ?_)
      (fun code t rest o operand right left stands _ is run => ?_) start (Nat.lt_succ_self _)
    · exact trivial
    · exact trivial
    · rcases productOperator_cases is with ⟨sign, rfl, rfl⟩ | ⟨sign, rfl, rfl⟩
      · have inside := value (trim rest) stands.shorter.le
        rw [run] at inside
        cases e with
        | invalid => trivial
        | nullRead => exact stands.unfinished_times sign inside
        | fuel => exact inside
      · rcases parseCalcNumber_cases (trim rest) with ⟨left', fails⟩ | ⟨t', v, left', -, -, read⟩
        · rw [run] at fails
          cases fails
          trivial
        · rw [run] at read
          cases read
    · rcases productOperator_cases is with ⟨sign, rfl, rfl⟩ | ⟨sign, rfl, rfl⟩
      · have inside := value (trim rest) stands.shorter.le
        rw [run] at inside
        obtain ⟨text, w, tight, r, parts, derives, blank, -, -, rfl, -⟩ := inside
        obtain rfl : tight = false := by cases derives <;> rfl
        exact stands.times sign parts derives blank
      · rcases parseCalcNumber_cases (trim rest) with ⟨left', fails⟩ | ⟨t', v, left', parts, number, read⟩
        · rw [run] at fails
          cases fails
        · rw [run] at read
          cases read
          exact stands.divided sign parts number

theorem sound_sum {mask : UInt32} {n : Nat} {ts : List Token} (short : ts.length < n) :
    Sound mask .sum endsSum ts ((parseCalcSum mask n).run ts) := by
  induction n generalizing ts with
  | zero => omega
  | succ n ih =>
    have product (part : List Token) (shorter : part.length ≤ ts.length) :
        Sound mask .product endsProduct part ((productAt mask n).run part) :=
      sound_product fun _ shorter' => sound_value fun _ shorter'' => ih (by omega)
    have first := product ts le_rfl
    have unfolded : parseCalcSum mask (n + 1) = chain endsSum (sumOperator (productAt mask n)) (productAt mask n) := rfl
    rw [unfolded]
    rcases outcome : (productAt mask n).run ts with ⟨e | code, rest⟩
    · rw [chain, bind_error outcome]
      rw [outcome] at first
      cases e with
      | invalid => trivial
      | nullRead => exact .begin first
      | fuel => exact first
    · rw [chain, bind_ok outcome, looking_run]
      rw [outcome] at first
      obtain ⟨text, w, tight, e, parts, derives, blank, glued, -, same, -⟩ := first
      have start : Stands mask .sum ts code rest := ⟨text, w, tight, e, parts, .whole derives, blank, glued, same⟩
      refine chainLoop_rule (forwardOperands_sum (forward_productAt mask n)) (fun code _ => ?_)
        (fun code t rest stands stop => stands.sound stop (isSpace_of_isChar stop)) (fun code t rest _ _ _ => ?_)
        (fun code t rest o operand e left stands _ is run => ?_)
        (fun code t rest o operand right left stands _ is run => ?_) start (Nat.lt_succ_self _)
      · exact trivial
      · exact trivial
      · obtain ⟨rfl, sign⟩ := sumOperator_cases is
        have inside := product (trim rest) stands.shorter.le
        rw [run] at inside
        cases e with
        | invalid => trivial
        | nullRead => exact stands.unfinished_plus sign inside
        | fuel => exact inside
      · obtain ⟨rfl, sign⟩ := sumOperator_cases is
        have inside := product (trim rest) stands.shorter.le
        rw [run] at inside
        obtain ⟨text, w, tight, r, parts, derives, blank, glued, -, rfl, -⟩ := inside
        exact stands.plus sign parts derives blank glued

theorem trim_unfinished (unfinished : Unfinished mask level ts) : trim ts = ts := by
  induction unfinished with
  | missing => rfl
  | parens opens => exact trim_cons_of_not_space (isSpace_of_isChar opens) _
  | first _ ih | begin _ ih => exact ih
  | times left | plus left => exact trim_derives left _

theorem chainLoop_fails {ends : Token → Bool} {operator : Token → Option (Op × CalcParser Code)}
    (goes : ends sign = false ∧ operator sign = some (o, operand)) (code : Code) {e : Err}
    (read : operand.run (trim ts) = (.error e, rest)) :
    (chainLoop ends operator ((sign :: ts).length + 1) code).run (sign :: ts) = (.error e, rest) := by
  rw [chainLoop_operator goes.1 goes.2, bind_error read]

theorem unfinished_reads (unfinished : Unfinished mask level ts) (deep : ts.length ≤ n) :
    ∃ rest, (match level with
      | .value => valueAt mask n
      | .product => productAt mask n
      | .sum => parseCalcSum mask (n + 1)).run ts = (.error .nullRead, rest) := by
  induction unfinished generalizing n with
  | missing => exact ⟨[], rfl⟩
  | @parens opening w ts opens before inner ih =>
    obtain _ | n := n
    · simp at deep
    obtain ⟨rest, read⟩ := ih (n := n) (by simp at deep; omega)
    rw [← trim_unfinished inner, ← trim_append before] at read
    exact ⟨rest, by simp [parseCalcValue, tokenIsChar, opens, bind_error read]⟩
  | first _ ih | begin _ ih =>
    obtain ⟨rest, read⟩ := ih deep
    exact ⟨rest, bind_error read⟩
  | @times star text w w' ts tight l left before glued sign after right ih =>
    obtain ⟨rest, read⟩ := ih (n := n) (by simp at deep; omega)
    have reached : Reaches mask n l.code (text ++ (w ++ star :: (w' ++ ts))) (star :: (w' ++ ts)) .product :=
      derives_reaches left (by simp at deep; omega) before glued (trim_cons_of_not_space (isSpace_of_isChar sign) _)
    rw [← trim_unfinished right, ← trim_append after] at read
    exact ⟨rest, reached.trans (chainLoop_fails (productOperator_times _ sign) l.code read)⟩
  | @plus sign text w w' ts tight l left before glued is after right ih =>
    obtain ⟨rest, read⟩ := ih (n := n) (by simp at deep; omega)
    have solid : isSpace sign = false := by rcases is with is | is <;> exact isSpace_of_isChar is
    have reached : Reaches mask n l.code (text ++ (w ++ sign :: (w' ++ ts))) (sign :: (w' ++ ts)) .sum :=
      derives_reaches left (by simp at deep; omega) before glued (trim_cons_of_not_space solid _)
    rw [← trim_unfinished right, ← trim_append after] at read
    obtain ⟨o, signed⟩ : ∃ o : Op, isChar sign (ch '+') = true ∧ o = .add ∨
        isChar sign (ch '-') = true ∧ o = .subtract :=
      is.elim (fun is => ⟨.add, .inl ⟨is, rfl⟩⟩) (fun is => ⟨.subtract, .inr ⟨is, rfl⟩⟩)
    obtain ⟨goes, ends, operator⟩ := sumOperator_sign (productAt mask n) signed
    exact ⟨rest, (reached (by simpa using ends)).trans (chainLoop_fails ⟨goes, operator⟩ l.code read)⟩

end Besra.CalcDerives
