import Besra.Bytecode
import Besra.Lex

/-!
Declarations whose value refers to custom properties, from
`libcss/src/parse/custom_properties.c`, with the declaration parser of
`parse/language.c` that defers them and `parse/important.c`.

The property handlers are a parameter: a handler is given the tokens of a value
and returns the style it makes of them with the tokens it leaves, or refuses
them. Both paths call the same handler with the same sheet and strings.
-/
namespace Besra.CustomProperties
open Lwc Besra.Lex

/-- The names of the properties, in the order of `property_handlers`. -/
def propertyNames : List String :=
  ["align-content", "align-items", "align-self", "azimuth", "background", "background-attachment",
   "background-color", "background-image", "background-position", "background-repeat", "border", "border-bottom",
   "border-bottom-color", "border-bottom-style", "border-bottom-width", "border-collapse", "border-color",
   "border-left", "border-left-color", "border-left-style", "border-left-width", "border-right",
   "border-right-color", "border-right-style", "border-right-width", "border-spacing", "border-style",
   "border-top", "border-top-color", "border-top-style", "border-top-width", "border-width", "bottom",
   "box-sizing", "break-after", "break-before", "break-inside", "caption-side", "clear", "clip", "color",
   "columns", "column-count", "column-fill", "column-gap", "column-rule", "column-rule-color", "column-rule-style",
   "column-rule-width", "column-span", "column-width", "content", "counter-increment", "counter-reset", "cue",
   "cue-after", "cue-before", "cursor", "direction", "display", "elevation", "empty-cells", "fill-opacity", "flex",
   "flex-basis", "flex-direction", "flex-flow", "flex-grow", "flex-shrink", "flex-wrap", "float", "font",
   "font-family", "font-size", "font-style", "font-variant", "font-weight", "height", "justify-content", "left",
   "letter-spacing", "line-height", "list-style", "list-style-image", "list-style-position", "list-style-type",
   "margin", "margin-bottom", "margin-left", "margin-right", "margin-top", "max-height", "max-width", "min-height",
   "min-width", "opacity", "order", "orphans", "outline", "outline-color", "outline-style", "outline-width",
   "overflow", "overflow-x", "overflow-y", "padding", "padding-bottom", "padding-left", "padding-right",
   "padding-top", "page-break-after", "page-break-before", "page-break-inside", "pause", "pause-after",
   "pause-before", "pitch-range", "pitch", "play-during", "position", "quotes", "richness", "right",
   "speak-header", "speak-numeral", "speak-punctuation", "speak", "speech-rate", "stress", "stroke-opacity",
   "table-layout", "text-align", "text-decoration", "text-indent", "text-transform", "top", "unicode-bidi",
   "vertical-align", "visibility", "voice-family", "volume", "white-space", "widows", "width", "word-spacing",
   "writing-mode", "z-index"]
/-- `find_property_id`, and the linear search of `parseProperty`: the index of the property. -/
def findPropertyId (name : LwcString) : Option Nat :=
  propertyNames.findIdx? fun known => caselessIsEqual name (lit known)

/-- `css_prop_handler` for styles of type `σ`. -/
abbrev Handler (σ : Type) := List Token → Option (σ × List Token)

/-- `property_handlers` -/
abbrev Handlers (σ : Type) := Nat → Handler σ

/-- `css_cp_entry` -/
structure Entry where
  name : LwcString
  tokens : List Token

def undashed : LwcString → LwcString
  | c :: d :: rest => if c = ch '-' then if d = ch '-' then rest else d :: rest else c :: d :: rest
  | [c] => if c = ch '-' then [] else [c]
  | [] => []

def cpNameEqual (a b : LwcString) : Bool := undashed a == undashed b

/-- `css__sheet_find_custom_property`, and `find_inline_extras` on its table. -/
def findCustomProperty (table : List Entry) (name : LwcString) : Option Entry :=
  table.find? fun entry => cpNameEqual entry.name name

/-- Where `lookup_var` looks: the sheets of the select context, if there is one, the sheet of the
declaration, the element's inline sheet and the table of all inline styles. -/
structure Env where
  sheets : List (List Entry)
  originSheet : List Entry
  inlineSheet : Option (List Entry)
  inlineExtras : List Entry

def lookupVar (env : Env) (name : LwcString) : Option Entry :=
  let found := (env.sheets.filterMap (findCustomProperty · name)).getLast?
  let found := found.or (findCustomProperty env.originSheet name)
  let found := (env.inlineSheet.bind (findCustomProperty · name)).or found
  (findCustomProperty env.inlineExtras name).or found

/-- `token_is_var_function` -/
def isVarFunction (t : Token) : Bool := t.type == .function && caselessIsEqual t.idata (lit "var")

/-- `css__value_contains_var` -/
def valueContainsVar (ts : List Token) : Bool := ts.any isVarFunction

def isExactly (t : Token) (c : Char) : Bool := t.type == .char && t.idata == [ch c]

/-- `find_paren_close` after an opening function: the tokens before the closing parenthesis of
the given depth and those after it. -/
def findParenClose : Nat → List Token → Option (List Token × List Token)
  | _, [] => none
  | depth, t :: rest =>
    if t.type = .function ∨ isExactly t '(' = true then
      (findParenClose (depth + 1) rest).map fun (body, after) => (t :: body, after)
    else if isExactly t ')' then
      if depth = 1 then some ([], rest)
      else (findParenClose (depth - 1) rest).map fun (body, after) => (t :: body, after)
    else (findParenClose depth rest).map fun (body, after) => (t :: body, after)

/-- The name at the start of the body of `var()`, and what follows it: one identifier with two
dashes, or a dash and an identifier with another. -/
def varName : List Token → Option (LwcString × List Token)
  | [] => none
  | t :: rest =>
    if isExactly t '-' then
      match rest with
      | [] => none
      | u :: rest =>
        if u.type = .ident ∧ u.idata.head? = some (ch '-') then some (u.idata, rest) else none
    else if t.type = .ident ∧ t.idata.take 2 = [ch '-', ch '-'] then some (t.idata, rest)
    else none

/-- `parse_var_body`: the name and the fallback, which is empty where there is none. -/
def parseVarBody (body : List Token) : Option (LwcString × List Token) := do
  let (name, rest) ← varName (trim body)
  match trim rest with
  | [] => some (name, [])
  | t :: fallback => if isExactly t ',' then some (name, fallback) else none

/-- What stands for `var()`: the value of the property, else the fallback where there is one. -/
def varValue (env : Env) (deeper : List Token → Option (List Token)) (name : LwcString) (fallback : List Token) :
    Option (List Token) :=
  match lookupVar env name with
  | some entry => deeper entry.tokens
  | none => if fallback = [] then none else deeper fallback

/-- The loop of `substitute_tokens`, with the substitution one level deeper. -/
def substituteLoop (env : Env) (deeper : List Token → Option (List Token)) : Nat → List Token → Option (List Token)
  | _, [] => some []
  | 0, _ :: _ => none
  | n + 1, t :: rest =>
    if isVarFunction t then do
      let (body, after) ← findParenClose 1 rest
      let (name, fallback) ← parseVarBody body
      let value ← varValue env deeper name fallback
      (value ++ ·) <$> substituteLoop env deeper n after
    else (t :: ·) <$> substituteLoop env deeper n rest

/-- `substitute_tokens` with the number of levels that are left. -/
def substituteTokens (env : Env) : Nat → List Token → Option (List Token)
  | 0, _ => none
  | levels + 1, ts => substituteLoop env (substituteTokens env levels) ts.length ts

/-- The levels of `substitute_tokens` from depth 0 to MAX_VAR_DEPTH. -/
def varLevels : Nat := 11

/-- `css__parse_important`: whether `!important` was there, and the tokens after it. A refusal
leaves the position. -/
def parseImportant (ts : List Token) : Option (Bool × List Token) :=
  match trim ts with
  | [] => some (false, [])
  | t :: rest =>
    if isChar t (ch '!') then
      match trim rest with
      | [] => none
      | u :: rest => if isKeyword u (lit "important") then some (true, rest) else none
    else none

/-- `css_deferred_decl` -/
structure DeferredDecl where
  property : LwcString
  tokens : List Token
  important : Bool

inductive Parsed (σ : Type) where
  | invalid
  | custom (name : LwcString) (tokens : List Token)
  | deferred (decl : DeferredDecl)
  | style (style : σ) (important : Bool)

/-- `css__is_custom_property_ident` -/
def isCustomPropertyIdent (t : Token) : Bool := t.type == .ident && t.idata.take 2 == [ch '-', ch '-']

variable {σ : Type}

/-- The end of `parseProperty`, from the call of the handler on. -/
def parseValue (handler : Handler σ) (ts : List Token) : Option (σ × Bool) := do
  let (style, rest) ← handler ts
  let (important, rest) ← parseImportant rest
  if trim rest = [] then some (style, important) else none

def parseProperty (handlers : Handlers σ) (property : Token) (ts : List Token) : Parsed σ :=
  if isCustomPropertyIdent property then .custom property.idata ts
  else
    match findPropertyId property.idata with
    | none => .invalid
    | some id =>
      if valueContainsVar ts then .deferred { property := property.idata, tokens := ts, important := false }
      else
        match parseValue (handlers id) ts with
        | some (style, important) => .style style important
        | none => .invalid

/-- `handleDeclaration` in a ruleset or page rule. -/
def handleDeclaration (handlers : Handlers σ) (vector : List Token) : Parsed σ :=
  match trim vector with
  | [] => .invalid
  | ident :: rest =>
    if ident.type ≠ .ident then .invalid
    else
      match trim rest with
      | [] => .invalid
      | colon :: rest =>
        if !isChar colon (ch ':') then .invalid else parseProperty handlers ident (trim rest)

/-- `css__deferred_decl_resolve` up to the cascade: the style that is applied, and whether it is
made important. Nothing checks what follows the value, and `css__parse_important` may fail. -/
def deferredDeclResolve (handlers : Handlers σ) (env : Env) (decl : DeferredDecl) : Option (σ × Bool) := do
  let ts ← substituteTokens env varLevels decl.tokens
  let id ← findPropertyId decl.property
  let (style, rest) ← handlers id ts
  if decl.important then some (style, true)
  else some (style, ((parseImportant rest).map Prod.fst).getD false)

theorem findParenClose_shorter {depth : Nat} {ts body after : List Token}
    (found : findParenClose depth ts = some (body, after)) : after.length < ts.length := by
  induction ts generalizing depth body after with
  | nil => cases found
  | cons t rest ih =>
    have deeper : ∀ d, (findParenClose d rest).map (fun (body, after) => (t :: body, after)) = some (body, after) →
        after.length < (t :: rest).length := by
      intro d inner
      obtain ⟨⟨body', after'⟩, found', same⟩ := Option.map_eq_some_iff.mp inner
      obtain ⟨-, rfl⟩ := Prod.mk.inj same
      have shorter := ih found'
      simp only [List.length_cons]
      omega
    simp only [findParenClose] at found
    split at found
    · exact deeper _ found
    split at found
    · split at found
      · obtain ⟨-, rfl⟩ := Prod.mk.inj (Option.some.inj found)
        simp
      · exact deeper _ found
    · exact deeper _ found

theorem substituteLoop_bound {env : Env} {deeper : List Token → Option (List Token)} {n m : Nat} {ts : List Token}
    (enough : ts.length ≤ n) (enough' : ts.length ≤ m) :
    substituteLoop env deeper n ts = substituteLoop env deeper m ts := by
  induction n generalizing m ts with
  | zero =>
    obtain rfl := List.length_eq_zero_iff.mp (Nat.le_zero.mp enough)
    simp [substituteLoop]
  | succ n ih =>
    cases ts with
    | nil => simp [substituteLoop]
    | cons t rest =>
      obtain ⟨m, rfl⟩ : ∃ k, m = k + 1 := ⟨m - 1, by simp at enough'; omega⟩
      simp only [List.length_cons, Nat.add_le_add_iff_right] at enough enough'
      simp only [substituteLoop]
      rw [ih enough enough']
      rcases close : findParenClose 1 rest with _ | ⟨body, after⟩
      · rfl
      · have shorter := findParenClose_shorter close
        simp only [Option.bind_eq_bind, Option.bind_some, ih (show after.length ≤ n by omega)
          (show after.length ≤ m by omega)]

theorem substituteTokens_cons (env : Env) (levels : Nat) (t : Token) (rest : List Token) :
    substituteTokens env (levels + 1) (t :: rest) =
      if isVarFunction t then do
        let (body, after) ← findParenClose 1 rest
        let (name, fallback) ← parseVarBody body
        let value ← varValue env (substituteTokens env levels) name fallback
        (value ++ ·) <$> substituteTokens env (levels + 1) after
      else (t :: ·) <$> substituteTokens env (levels + 1) rest := by
  simp only [substituteTokens, List.length_cons, substituteLoop]
  rcases close : findParenClose 1 rest with _ | ⟨body, after⟩
  · rfl
  · have shorter := findParenClose_shorter close
    simp only [Option.bind_eq_bind, Option.bind_some,
      substituteLoop_bound (show after.length ≤ rest.length by omega) (Nat.le_refl after.length)]

theorem substituteTokens_no_var {env : Env} {levels : Nat} {ts out : List Token}
    (substituted : substituteTokens env levels ts = some out) : valueContainsVar out = false := by
  induction levels generalizing ts out with
  | zero => cases substituted
  | succ levels deeper =>
    -- a round leaves fewer tokens, so the rounds are counted by the tokens
    generalize bound : ts.length = n
    induction n using Nat.strongRecOn generalizing ts out with
    | _ n ih =>
      cases ts with
      | nil =>
        obtain rfl : [] = out := by simpa [substituteTokens, substituteLoop] using substituted
        rfl
      | cons t rest =>
        rw [substituteTokens_cons] at substituted
        split at substituted
        · simp only [Option.bind_eq_bind, Option.bind_eq_some_iff] at substituted
          obtain ⟨⟨body, after⟩, close, ⟨name, fallback⟩, -, value, found, more⟩ := substituted
          obtain ⟨out', later, rfl⟩ := Option.map_eq_some_iff.mp more
          have shorter := findParenClose_shorter close
          have clean : valueContainsVar value = false := by
            unfold varValue at found
            split at found
            · exact deeper found
            · split at found
              · cases found
              · exact deeper found
          have clean' := ih after.length (by simp at bound; omega) later rfl
          simp only [valueContainsVar, List.any_append, Bool.or_eq_false_iff] at clean clean' ⊢
          exact ⟨clean, clean'⟩
        · rename_i plain
          obtain ⟨out', later, rfl⟩ := Option.map_eq_some_iff.mp substituted
          have clean := ih rest.length (by simp at bound; omega) later rfl
          simp only [valueContainsVar, List.any_cons, Bool.or_eq_false_iff] at clean ⊢
          exact ⟨by simpa using plain, clean⟩

end Besra.CustomProperties
