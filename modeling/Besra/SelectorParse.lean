import Besra.Nth

/-!
The selector parser of `libcss/src/parse/language.c`, from `parseClass` to `parseSelector`, over the tokens that are
left, with what it builds by the functions of `libcss/src/stylesheet.c`. The sheet is not an inline style, whose rule
has no selectors. Allocation failures are not modelled. The loops are bounded by the number of tokens left, which
every round lowers (`parseSelector_enough`).
-/
namespace Besra.SelectorParse
open Lwc Dom Cursor Besra.Lex Selector Nth Parser

def specificityA : UInt32 := 0x01000000

def specificityB : UInt32 := 0x00010000

def specificityC : UInt32 := 0x00000100

def specificityD : UInt32 := 0x00000001

/-- `css_selector` but for its combinator: the name of its element detail, and the details behind that. -/
structure SimpleSelector where
  specificity : UInt32
  qname : Qname
  details : List Detail
deriving DecidableEq

/-- `css_selector` with those that its combinator leads to. -/
inductive CssSelector where
  | last (simple : SimpleSelector)
  | step (simple : SimpleSelector) (comb : Combinator) (rest : CssSelector)
deriving DecidableEq

def CssSelector.head : CssSelector → SimpleSelector
  | .last simple => simple
  | .step simple _ _ => simple

/-- `css__stylesheet_selector_create`: 1 for an element, 0 for universal. -/
def selectorCreate (inlineStyle : Bool) (qname : Qname) : SimpleSelector where
  specificity :=
    if inlineStyle then specificityA
    else if qname.name.length ≠ 1 ∨ qname.name.head? ≠ some (ch '*') then specificityD
    else 0
  qname := qname
  details := []

/-- What `css__stylesheet_selector_append_specific` adds for a detail. -/
def specificityOf : DetailType → UInt32
  | .cls | .pseudoClass | .attribute | .attributeValue _ => specificityC
  | .id => specificityB
  | .pseudoElement | .element => specificityD

/-- `css__stylesheet_selector_append_specific` -/
def selectorAppendSpecific (parent : SimpleSelector) (detail : Detail) : SimpleSelector :=
  { parent with
    details := parent.details ++ [detail]
    specificity := parent.specificity + specificityOf detail.type }

/-- `css__stylesheet_selector_combine`; the first operand must not contain a pseudo element. -/
def selectorCombine (type : Combinator) (a : CssSelector) (b : SimpleSelector) : Option CssSelector :=
  if a.head.details.any (·.type == .pseudoElement) then none
  else some (.step { b with specificity := b.specificity + a.head.specificity } type a)

/-- The part of `css_language` that the selector parser reads. -/
structure Language where
  namespaces : List (LwcString × Option LwcString)
  defaultNamespace : Option LwcString

/-- `c->strings[UNIVERSAL]` -/
def universal : LwcString := lit "*"

def lookupNamespace (c : Language) (pre : Option LwcString) : SelParser (Option LwcString) :=
  match pre with
  | none => pure none
  | some pre =>
    match c.namespaces.find? fun ns => isEqual ns.1 pre with
    | some ns => pure ns.2
    | none => invalid

def namespaceOf (c : Language) : Option LwcString := some (c.defaultNamespace.getD universal)

/-- The name behind a `|`. -/
def parsePrefixed (c : Language) (pre : Option LwcString) : SelParser Qname := do
  match ← Parser.iterate with
  | none => invalid
  | some token =>
    if token.type ≠ .ident ∧ isChar token (ch '*') = false then invalid
    else do
      let ns ← lookupNamespace c pre
      pure ⟨ns, token.idata⟩

def parseTypeSelector (c : Language) : SelParser Qname := do
  match ← Parser.peek with
  | none => invalid
  | some token =>
    if isChar token (ch '|') then do
      let _ ← Parser.iterate
      parsePrefixed c none
    else do
      let _ ← Parser.iterate
      let next ← Parser.peek
      if tokenIsChar next (ch '|') then do
        let _ ← Parser.iterate
        parsePrefixed c (some token.idata)
      else pure ⟨namespaceOf c, token.idata⟩

def beginsType (token : Token) : Bool := token.type == .ident || isChar token (ch '*') || isChar token (ch '|')

def parseClass : SelParser Detail := do
  let token ← Parser.iterate
  if !tokenIsChar token (ch '.') then invalid
  else
    match ← Parser.iterate with
    | none => invalid
    | some token => if token.type ≠ .ident then invalid else pure { type := .cls, qname := ⟨none, token.idata⟩ }

def attributeTest (token : Token) : Option AttributeTest :=
  if isChar token (ch '=') then some .equal
  else
    match token.type with
    | .includes => some .includes
    | .dashmatch => some .dashmatch
    | .prefixmatch => some .starts
    | .suffixmatch => some .ends
    | .substringmatch => some .substring
    | _ => none

/-- The name of an attribute: its prefix, where there is one, and the token that must be an IDENT. -/
def parseAttribName : SelParser (Option LwcString × Option Token) := do
  match ← Parser.iterate with
  | none => invalid
  | some token =>
    if token.type ≠ .ident ∧ isChar token (ch '*') = false ∧ isChar token (ch '|') = false then invalid
    else if isChar token (ch '|') then do
      let name ← Parser.iterate
      pure (none, name)
    else do
      let temp ← Parser.peek
      if tokenIsChar temp (ch '|') then do
        let _ ← Parser.iterate
        let name ← Parser.iterate
        pure (some token.idata, name)
      else pure (none, some token)

def parseAttribValue (qname : Qname) : SelParser Detail := do
  match ← Parser.iterate with
  | none => invalid
  | some token =>
    if isChar token (ch ']') then pure { type := .attribute, qname := qname }
    else
      match attributeTest token with
      | none => invalid
      | some test => do
        consumeWhitespace
        match ← Parser.iterate with
        | none => invalid
        | some value =>
          if value.type ≠ .ident ∧ value.type ≠ .string then invalid
          else do
            consumeWhitespace
            let token ← Parser.iterate
            if !tokenIsChar token (ch ']') then invalid
            else pure { type := .attributeValue test, qname := qname, string := value.idata }

def parseAttrib (c : Language) : SelParser Detail := do
  let token ← Parser.iterate
  if !tokenIsChar token (ch '[') then invalid
  else do
    consumeWhitespace
    let (pre, name) ← parseAttribName
    match name with
    | none => invalid
    | some name =>
      if name.type ≠ .ident then invalid
      else do
        let ns ← lookupNamespace c pre
        consumeWhitespace
        parseAttribValue ⟨ns, name.idata⟩

/-- `pseudo_lut`: the pseudo classes. -/
def pseudoClasses : List LwcString :=
  [lit "first-child", lit "link", lit "visited", lit "hover", lit "active", lit "focus", lit "lang", lit "left",
    lit "right", lit "first", lit "root", lit "nth-child", lit "nth-last-child", lit "nth-of-type",
    lit "nth-last-of-type", lit "last-child", lit "first-of-type", lit "last-of-type", lit "only-child",
    lit "only-of-type", lit "empty", lit "target", lit "enabled", lit "disabled", lit "checked", lit "not"]

/-- `pseudo_lut`: the pseudo elements. -/
def pseudoElements : List LwcString := [lit "first-line", lit "first-letter", lit "before", lit "after"]

/-- The search in `pseudo_lut`. -/
def lookupPseudo (name : LwcString) : Option (LwcString × DetailType) :=
  (pseudoClasses.map (·, DetailType.pseudoClass) ++ pseudoElements.map (·, DetailType.pseudoElement)).find? fun e =>
    caselessIsEqual name e.1

def nthClasses : List LwcString := [lit "nth-child", lit "nth-last-child", lit "nth-of-type", lit "nth-last-of-type"]

/-- What stands in `:not()`, with the parser of the details in it. -/
def parseNegated (c : Language) (inner : SelParser Detail) : SelParser Detail := do
  match ← Parser.peek with
  | none => invalid
  | some token =>
    if beginsType token then do
      let qname ← parseTypeSelector c
      consumeWhitespace
      pure { type := .element, qname := qname, negate := true }
    else do
      let det ← inner
      consumeWhitespace
      pure { det with negate := true }

def parseArgument (c : Language) (inner : SelParser Detail) (fn : LwcString) (detail : Detail) : SelParser Detail :=
  if fn = lit "lang" then do
    match ← Parser.iterate with
    | none => invalid
    | some token =>
      if token.type ≠ .ident then invalid
      else do
        consumeWhitespace
        pure { detail with string := token.idata }
  else if fn ∈ nthClasses then do
    let value ← parseNth
    pure { detail with a := value.a, b := value.b }
  else if fn = lit "not" then parseNegated c inner
  else pure detail

/-- `parsePseudo`, behind its colons. -/
def parsePseudoName (c : Language) (inner : SelParser Detail) (inNot requireElement : Bool) (token : Option Token) :
    SelParser Detail :=
  match token with
  | none => invalid
  | some token =>
    if token.type ≠ .ident ∧ token.type ≠ .function then invalid
    else
      match lookupPseudo token.idata with
      | none => invalid
      | some (fn, type) =>
        if requireElement ∧ type ≠ .pseudoElement then invalid
        else if inNot ∧ (type = .pseudoElement ∨ fn = lit "not") then invalid
        else if token.type = .function then do
          consumeWhitespace
          let detail ← parseArgument c inner fn { type := type, qname := ⟨none, token.idata⟩ }
          let close ← Parser.iterate
          if !tokenIsChar close (ch ')') then invalid else pure detail
        else pure { type := type, qname := ⟨none, token.idata⟩ }

/-- `parsePseudo`, with the parser of the details in `:not()`. -/
def parsePseudo (c : Language) (inner : SelParser Detail) (inNot : Bool) : SelParser Detail := do
  let token ← Parser.iterate
  if !tokenIsChar token (ch ':') then invalid
  else do
    let token ← Parser.iterate
    if tokenIsChar token (ch ':') then do
      let token ← Parser.iterate
      parsePseudoName c inner inNot true token
    else parsePseudoName c inner inNot false token

/-- `parseSpecific`, with the parser of the details in `:not()`. -/
def parseSpecificWith (c : Language) (inner : SelParser Detail) (inNot : Bool) : SelParser Detail := do
  match ← Parser.peek with
  | none => invalid
  | some token =>
    if token.type = .hash then do
      let _ ← Parser.iterate
      pure { type := .id, qname := ⟨none, token.idata⟩ }
    else if isChar token (ch '.') then parseClass
    else if isChar token (ch '[') then parseAttrib c
    else if isChar token (ch ':') then parsePseudo c inner inNot
    else invalid

/-- `parseSpecific` in `:not()`, where there is no other `:not()`. -/
def parseSpecificInNot (c : Language) : SelParser Detail := parseSpecificWith c invalid true

/-- `parseSpecific` outside of `:not()`. -/
def parseSpecific (c : Language) : SelParser Detail := parseSpecificWith c (parseSpecificInNot c) false

def parseAppendSpecific (c : Language) (parent : SimpleSelector) : SelParser SimpleSelector :=
  selectorAppendSpecific parent <$> parseSpecific c

/-- The tokens at which `parseSelectorSpecifics` ends. -/
def endsSpecifics (token : Token) : Bool :=
  isSpace token || isChar token (ch '+') || isChar token (ch '>') || isChar token (ch '~') || isChar token (ch ',')

/-- The loop of `parseSelectorSpecifics`. -/
def specificsLoop (c : Language) : Nat → SimpleSelector → SelParser SimpleSelector
  | 0, _ => Parser.fail .fuel
  | n + 1, parent => do
    match ← Parser.peek with
    | none => pure parent
    | some token =>
      if endsSpecifics token then pure parent
      else do
        let parent ← parseAppendSpecific c parent
        specificsLoop c n parent

def parseSelectorSpecifics (c : Language) (parent : SimpleSelector) : SelParser SimpleSelector :=
  Parser.looking fun ts => specificsLoop c (ts.length + 1) parent

def parseSimpleSelector (c : Language) : SelParser SimpleSelector := do
  match ← Parser.peek with
  | none => invalid
  | some token =>
    if beginsType token then do
      let qname ← parseTypeSelector c
      parseSelectorSpecifics c (selectorCreate false qname)
    else do
      let selector ← parseAppendSpecific c (selectorCreate false ⟨namespaceOf c, universal⟩)
      parseSelectorSpecifics c selector

/-- The loop of `parseCombinator`, which ends behind a `+`, `>` or `~`. -/
def combinatorLoop : List Token → Option Combinator → Option Combinator × List Token
  | [], comb => (comb, [])
  | token :: rest, comb =>
    if isChar token (ch '+') then (some .sibling, rest)
    else if isChar token (ch '>') then (some .parent, rest)
    else if isChar token (ch '~') then (some .genericSibling, rest)
    else if isSpace token then combinatorLoop rest (some .ancestor)
    else (comb, token :: rest)

def parseCombinator : SelParser Combinator where
  run ts :=
    match combinatorLoop ts none with
    | (none, rest) => (.error .invalid, rest)
    | (some comb, rest) => (.ok comb, trim rest)

/-- The loop of `parseSelector`. White space at the end or in front of a comma is no combinator. -/
def selectorLoop (c : Language) : Nat → CssSelector → SelParser CssSelector
  | 0, _ => Parser.fail .fuel
  | n + 1, selector => do
    match ← Parser.peek with
    | none => pure selector
    | some token =>
      if isChar token (ch ',') then pure selector
      else do
        let comb ← parseCombinator
        let next ← Parser.peek
        if comb = .ancestor ∧ (next = none ∨ tokenIsChar next (ch ',') = true) then selectorLoop c n selector
        else do
          let other ← parseSimpleSelector c
          match selectorCombine comb selector other with
          | none => invalid
          | some selector => selectorLoop c n selector

def parseSelector (c : Language) : SelParser CssSelector := do
  let selector ← parseSimpleSelector c
  Parser.looking fun ts => selectorLoop c (ts.length + 1) (.last selector)

theorem steady_consumeWhitespace (ts : List Token) : (consumeWhitespace : SelParser Unit).Steady .fuel ts :=
  steady_skip _ ts

theorem steady_invalid {α : Type} (ts : List Token) : (invalid : SelParser α).Steady .fuel ts :=
  steady_fail (by decide) ts

theorem steady_lookupNamespace (c : Language) (pre : Option LwcString) (ts : List Token) :
    (lookupNamespace c pre).Steady .fuel ts := by
  unfold lookupNamespace
  split
  · exact steady_pure _ ts
  · split
    · exact steady_pure _ ts
    · exact steady_invalid ts

theorem steady_parsePrefixed (c : Language) (pre : Option LwcString) (ts : List Token) :
    (parsePrefixed c pre).Steady .fuel ts := by
  unfold parsePrefixed
  repeat' first
    | simp only [steady_invalid, steady_pure, steady_iterate, steady_lookupNamespace]
    | split | refine Steady.bind ?_ fun _ _ _ => ?_

theorem steady_parseTypeSelector (c : Language) (ts : List Token) : (parseTypeSelector c).Steady .fuel ts := by
  unfold parseTypeSelector
  repeat' first
    | simp only [steady_invalid, steady_pure, steady_iterate, steady_peek, steady_parsePrefixed]
    | split | refine Steady.bind ?_ fun _ _ _ => ?_

theorem steady_parseClass (ts : List Token) : parseClass.Steady .fuel ts := by
  unfold parseClass
  repeat' first
    | simp only [steady_invalid, steady_pure, steady_iterate]
    | split | refine Steady.bind ?_ fun _ _ _ => ?_

theorem steady_parseAttribName (ts : List Token) : parseAttribName.Steady .fuel ts := by
  unfold parseAttribName
  repeat' first
    | simp only [steady_invalid, steady_pure, steady_iterate, steady_peek]
    | split | refine Steady.bind ?_ fun _ _ _ => ?_

theorem steady_parseAttribValue (qname : Qname) (ts : List Token) : (parseAttribValue qname).Steady .fuel ts := by
  unfold parseAttribValue
  repeat' first
    | simp only [steady_invalid, steady_pure, steady_iterate, steady_consumeWhitespace]
    | split | refine Steady.bind ?_ fun _ _ _ => ?_

theorem steady_parseAttrib (c : Language) (ts : List Token) : (parseAttrib c).Steady .fuel ts := by
  unfold parseAttrib
  repeat' first
    | simp only [steady_invalid, steady_iterate, steady_consumeWhitespace, steady_parseAttribName,
        steady_lookupNamespace, steady_parseAttribValue]
    | split | refine Steady.bind ?_ fun _ _ _ => ?_

theorem steady_parseNumber (lead : Lead) (hadSign : Bool) (sign : Int) (ts : List Token) :
    (parseNumber lead hadSign sign).Steady .fuel ts := by
  unfold parseNumber
  repeat' first
    | simp only [steady_invalid, steady_pure, steady_iterate, steady_peek]
    | split | refine Steady.bind ?_ fun _ _ _ => ?_

theorem steady_parseB (lead : Lead) (ts : List Token) : (parseB lead).Steady .fuel ts := by
  unfold parseB
  repeat' first
    | simp only [steady_pure, steady_iterate, steady_peek, steady_consumeWhitespace, steady_parseNumber]
    | split | refine Steady.bind ?_ fun _ _ _ => ?_

theorem steady_parseNth (ts : List Token) : parseNth.Steady .fuel ts := by
  unfold parseNth parseExpression parseLead
  repeat' first
    | simp only [steady_invalid, steady_pure, steady_iterate, steady_consumeWhitespace, steady_parseB]
    | split | refine Steady.bind ?_ fun _ _ _ => ?_

section
variable (c : Language) {inner : SelParser Detail} (steady : ∀ ts, inner.Steady .fuel ts)
include steady

theorem steady_parseNegated (ts : List Token) : (parseNegated c inner).Steady .fuel ts := by
  unfold parseNegated
  repeat' first
    | simp only [steady_invalid, steady_pure, steady_peek, steady_consumeWhitespace, steady_parseTypeSelector, steady]
    | split | refine Steady.bind ?_ fun _ _ _ => ?_

theorem steady_parseArgument (fn : LwcString) (detail : Detail) (ts : List Token) :
    (parseArgument c inner fn detail).Steady .fuel ts := by
  unfold parseArgument
  repeat' first
    | simp only [steady_invalid, steady_pure, steady_iterate, steady_consumeWhitespace,
        steady_parseNth, steady_parseNegated _ steady]
    | split | refine Steady.bind ?_ fun _ _ _ => ?_

theorem steady_parsePseudoName (inNot requireElement : Bool) (token : Option Token) (ts : List Token) :
    (parsePseudoName c inner inNot requireElement token).Steady .fuel ts := by
  unfold parsePseudoName
  repeat' first
    | simp only [steady_invalid, steady_pure, steady_iterate, steady_consumeWhitespace, steady_parseArgument _ steady]
    | split | refine Steady.bind ?_ fun _ _ _ => ?_

theorem steady_parsePseudo (inNot : Bool) (ts : List Token) : (parsePseudo c inner inNot).Steady .fuel ts := by
  unfold parsePseudo
  repeat' first
    | simp only [steady_invalid, steady_iterate, steady_parsePseudoName _ steady]
    | split | refine Steady.bind ?_ fun _ _ _ => ?_

theorem steady_parseSpecificWith (inNot : Bool) (ts : List Token) :
    (parseSpecificWith c inner inNot).Steady .fuel ts := by
  unfold parseSpecificWith
  repeat' first
    | simp only [steady_invalid, steady_pure, steady_iterate, steady_peek, steady_parseClass,
        steady_parseAttrib, steady_parsePseudo _ steady]
    | split | refine Steady.bind ?_ fun _ _ _ => ?_

end

theorem steady_parseSpecific (c : Language) (ts : List Token) : (parseSpecific c).Steady .fuel ts :=
  steady_parseSpecificWith c (steady_parseSpecificWith c steady_invalid true) false ts

theorem consumes_invalid {α : Type} (ts : List Token) : (invalid : SelParser α).Consumes ts := consumes_fail _ ts

theorem consumes_parseTypeSelector (c : Language) (t : Token) (ts : List Token) :
    (parseTypeSelector c).Consumes (t :: ts) := by
  intro a rest run
  unfold parseTypeSelector at run
  rw [bind_peek, List.head?_cons] at run
  dsimp only at run
  split at run
  · exact consumes_iterate .fuel (steady_parsePrefixed c none ts) a rest run
  · refine consumes_iterate .fuel ?_ a rest run
    refine (steady_peek ts).bind fun next ts _ => ?_
    split
    · exact (steady_iterate ts).bind fun _ ts _ => steady_parsePrefixed c (some t.idata) ts
    · exact steady_pure _ ts

theorem consumes_parseClass (t : Token) (ts : List Token) : parseClass.Consumes (t :: ts) := by
  refine consumes_iterate .fuel ?_
  split
  · exact steady_invalid ts
  · refine (steady_iterate ts).bind fun token ts _ => ?_
    split
    · exact steady_invalid ts
    · split
      · exact steady_invalid ts
      · exact steady_pure _ ts

theorem consumes_parseAttrib (c : Language) (t : Token) (ts : List Token) : (parseAttrib c).Consumes (t :: ts) := by
  refine consumes_iterate .fuel ?_
  split
  · exact steady_invalid ts
  · refine (steady_consumeWhitespace ts).bind fun _ ts _ => (steady_parseAttribName ts).bind fun name ts _ => ?_
    dsimp only
    split
    · exact steady_invalid ts
    · split
      · exact steady_invalid ts
      · exact (steady_lookupNamespace c _ ts).bind fun _ ts _ =>
          (steady_consumeWhitespace ts).bind fun _ ts _ => steady_parseAttribValue _ ts

theorem consumes_parsePseudo (c : Language) {inner : SelParser Detail} (steady : ∀ ts, inner.Steady .fuel ts)
    (inNot : Bool) (t : Token) (ts : List Token) : (parsePseudo c inner inNot).Consumes (t :: ts) := by
  refine consumes_iterate .fuel ?_
  split
  · exact steady_invalid ts
  · refine (steady_iterate ts).bind fun token ts _ => ?_
    split
    · exact (steady_iterate ts).bind fun token ts _ => steady_parsePseudoName c steady inNot true token ts
    · exact steady_parsePseudoName c steady inNot false token ts

theorem consumes_parseSpecific (c : Language) (t : Token) (ts : List Token) : (parseSpecific c).Consumes (t :: ts) := by
  intro a rest run
  rw [parseSpecific, parseSpecificWith, bind_peek, List.head?_cons] at run
  dsimp only at run
  split at run
  · refine consumes_iterate .fuel ?_ a rest run
    exact steady_pure _ ts
  · split at run
    · exact consumes_parseClass t ts a rest run
    · split at run
      · exact consumes_parseAttrib c t ts a rest run
      · split at run
        · exact consumes_parsePseudo c (steady_parseSpecificWith c steady_invalid true) false t ts a rest run
        · exact consumes_invalid _ a rest run

theorem steady_specificsLoop (c : Language) (n : Nat) : ∀ (parent : SimpleSelector) (ts : List Token), ts.length < n →
    (specificsLoop c n parent).Steady .fuel ts := by
  induction n with
  | zero => exact fun _ _ short => absurd short (Nat.not_lt_zero _)
  | succ n ih =>
    intro parent ts short
    unfold specificsLoop
    refine (steady_peek ts).bind fun token rest peeked => ?_
    cases peeked
    split
    · exact steady_pure _ ts
    · next t first =>
      split
      · exact steady_pure _ ts
      · obtain ⟨ts, rfl⟩ := List.head?_eq_some_iff.mp first
        refine ((steady_parseSpecific c _).map _).bind fun parent rest run => ih parent rest ?_
        have shorter := (consumes_parseSpecific c t ts).map _ _ _ run
        rw [List.length_cons] at shorter short
        omega

theorem steady_parseSelectorSpecifics (c : Language) (parent : SimpleSelector) (ts : List Token) :
    (parseSelectorSpecifics c parent).Steady .fuel ts := steady_specificsLoop c _ parent ts (Nat.lt_succ_self _)

theorem steady_parseSimpleSelector (c : Language) (ts : List Token) : (parseSimpleSelector c).Steady .fuel ts := by
  unfold parseSimpleSelector
  refine (steady_peek ts).bind fun token rest _ => ?_
  split
  · exact steady_invalid rest
  · split
    · exact (steady_parseTypeSelector c rest).bind fun qname rest _ => steady_parseSelectorSpecifics c _ rest
    · exact ((steady_parseSpecific c rest).map _).bind fun parent rest _ => steady_parseSelectorSpecifics c parent rest

theorem consumes_parseSimpleSelector (c : Language) (ts : List Token) : (parseSimpleSelector c).Consumes ts := by
  intro a rest run
  cases ts with
  | nil => cases run
  | cons t ts =>
    rw [parseSimpleSelector, bind_peek, List.head?_cons] at run
    dsimp only at run
    split at run
    · exact (consumes_parseTypeSelector c t ts).bind .fuel (fun _ rest _ => steady_parseSelectorSpecifics c _ rest)
        a rest run
    · exact ((consumes_parseSpecific c t ts).map _).bind .fuel
        (fun parent rest _ => steady_parseSelectorSpecifics c parent rest) a rest run

theorem combinatorLoop_suffix (ts : List Token) (comb : Option Combinator) : (combinatorLoop ts comb).2 <:+ ts := by
  induction ts generalizing comb with
  | nil => exact List.suffix_refl _
  | cons t ts ih =>
    unfold combinatorLoop
    split_ifs
    · exact List.suffix_cons t ts
    · exact List.suffix_cons t ts
    · exact List.suffix_cons t ts
    · exact (ih _).trans (List.suffix_cons t ts)
    · exact List.suffix_refl _

theorem steady_parseCombinator (ts : List Token) : parseCombinator.Steady .fuel ts := by
  have forward := combinatorLoop_suffix ts none
  unfold Parser.Steady parseCombinator
  dsimp only
  generalize combinatorLoop ts none = outcome at forward
  obtain ⟨_ | comb, rest⟩ := outcome
  · exact ⟨forward, by simp⟩
  · exact ⟨(List.dropWhile_suffix _).trans forward, by simp⟩

theorem consumes_parseCombinator (ts : List Token) : parseCombinator.Consumes ts := by
  intro comb rest run
  cases ts with
  | nil => cases run
  | cons t ts =>
    have used : ∀ c left, combinatorLoop (t :: ts) none = (some c, left) → left <:+ ts := by
      intro c left looped
      unfold combinatorLoop at looped
      split_ifs at looped
      · cases looped
        exact List.suffix_refl _
      · cases looped
        exact List.suffix_refl _
      · cases looped
        exact List.suffix_refl _
      · have forward := combinatorLoop_suffix ts (some .ancestor)
        rwa [looped] at forward
      · cases looped
    unfold parseCombinator at run
    dsimp only at run
    rcases looped : combinatorLoop (t :: ts) none with ⟨_ | c, left⟩
    · rw [looped] at run
      cases run
    · rw [looped] at run
      cases run
      have shorter := ((List.dropWhile_suffix isSpace).trans (used _ _ looped)).length_le
      exact Nat.lt_succ_of_le shorter

theorem steady_selectorLoop (c : Language) (n : Nat) : ∀ (selector : CssSelector) (ts : List Token), ts.length < n →
    (selectorLoop c n selector).Steady .fuel ts := by
  induction n with
  | zero => exact fun _ _ short => absurd short (Nat.not_lt_zero _)
  | succ n ih =>
    intro selector ts short
    unfold selectorLoop
    refine (steady_peek ts).bind fun token rest peeked => ?_
    cases peeked
    split
    · exact steady_pure _ ts
    · split
      · exact steady_pure _ ts
      · refine (steady_parseCombinator ts).bind fun comb middle combined => ?_
        have used := consumes_parseCombinator ts comb middle combined
        refine (steady_peek middle).bind fun next rest peeked => ?_
        cases peeked
        split
        · exact ih selector middle (by omega)
        · refine (steady_parseSimpleSelector c middle).bind fun other rest run => ?_
          have used' := consumes_parseSimpleSelector c middle other rest run
          split
          · exact steady_invalid rest
          · exact ih _ rest (by omega)

theorem steady_parseSelector (c : Language) (ts : List Token) : (parseSelector c).Steady .fuel ts := by
  refine (steady_parseSimpleSelector c ts).bind fun simple rest _ => ?_
  exact steady_selectorLoop c (rest.length + 1) (.last simple) rest (Nat.lt_succ_self _)

theorem parseSelector_enough (c : Language) (ts : List Token) : ((parseSelector c).run ts).1 ≠ .error .fuel :=
  (steady_parseSelector c ts).2

end Besra.SelectorParse
