import Besra.CustomProperties

/-!
Deferred declarations against direct ones. `css__deferred_decl_resolve` repeats
the end of `parseProperty` for the substituted value, but neither passes over the
white space in front of the value nor looks at what follows it.
-/
namespace Besra.Deferred
open Lwc Besra.Lex Bytecode CustomProperties

variable {σ : Type}

/-- Nothing but white space and an optional `!important`. -/
def Complete (rest : List Token) : Prop := ∃ important left, parseImportant rest = some (important, left) ∧ trim left = []

/-- Whether `css__parse_important` finds `!important`. -/
def flagged (rest : List Token) : Bool := ((parseImportant rest).map Prod.fst).getD false

/-- What a declaration adds to its rule at once. -/
def accepted : Parsed σ → Option (σ × Bool)
  | .style style important => some (style, important)
  | _ => none

variable {handler : Handler σ} {ts value : List Token} {handlers : Handlers σ} {property : Token}

theorem parseValue_eq_some {style : σ} {important : Bool} :
    parseValue handler ts = some (style, important) ↔
      ∃ rest, handler ts = some (style, rest) ∧ Complete rest ∧ flagged rest = important := by
  unfold parseValue
  simp only [Option.bind_eq_bind, Option.bind_eq_some_iff]
  constructor
  · rintro ⟨⟨style', rest⟩, read, ⟨important', left⟩, found, ended⟩
    split at ended
    · rename_i blank
      obtain ⟨rfl, rfl⟩ := Prod.mk.inj (Option.some.inj ended)
      exact ⟨rest, read, ⟨_, left, found, blank⟩, by simp [flagged, found]⟩
    · cases ended
  · rintro ⟨rest, read, ⟨important', left, found, blank⟩, rfl⟩
    refine ⟨(style, rest), read, (important', left), found, ?_⟩
    simp [blank, flagged, found]

theorem parseValue_eq_none :
    parseValue handler ts = none ↔ ∀ style rest, handler ts = some (style, rest) → ¬ Complete rest := by
  constructor
  · intro refused style rest read complete
    have found := parseValue_eq_some.mpr ⟨rest, read, complete, rfl⟩
    rw [refused] at found
    cases found
  · intro incomplete
    rcases found : parseValue handler ts with _ | ⟨style, important⟩
    · rfl
    · obtain ⟨rest, read, complete, -⟩ := parseValue_eq_some.mp found
      exact absurd complete (incomplete style rest read)

def colon : Token := { type := .char, idata := [ch ':'] }

theorem handleDeclaration_direct {id : Nat} (ident : property.type = .ident)
    (ordinary : isCustomPropertyIdent property = false) (known : findPropertyId property.idata = some id)
    (direct : valueContainsVar value = false) :
    accepted (handleDeclaration handlers (property :: colon :: value)) = parseValue (handlers id) (trim value) := by
  have solid : isSpace property = false := by simp [isSpace, ident]
  have separated : isChar colon (ch ':') = true := rfl
  have trimmed : valueContainsVar (trim value) = false := by
    rw [valueContainsVar, List.any_eq_false] at direct ⊢
    exact fun t member => direct t ((List.dropWhile_suffix isSpace).subset member)
  have solid' : isSpace colon = false := rfl
  simp only [handleDeclaration, trim_cons_of_not_space solid, ident, trim_cons_of_not_space solid', separated,
    parseProperty, ordinary, known, trimmed]
  rcases parseValue (handlers id) (trim value) with _ | ⟨style, important⟩ <;> rfl

theorem parseProperty_deferred {decl : DeferredDecl} (deferred : parseProperty handlers property ts = .deferred decl) :
    isCustomPropertyIdent property = false ∧
      decl = { property := property.idata, tokens := ts, important := false } := by
  unfold parseProperty at deferred
  split at deferred
  · cases deferred
  rename_i ordinary
  split at deferred
  · cases deferred
  split at deferred
  · exact ⟨by simpa using ordinary, (Parsed.deferred.inj deferred).symm⟩
  split at deferred <;> cases deferred

/-- The handler passes over any white space in front of the value, as one does that reads the value
with `css__parse_colour_specifier` or `css__parse_unit_specifier`. -/
def Skips (handler : Handler σ) (value : List Token) : Prop :=
  ∀ w, Blank w → handler (w ++ value) = handler value

/-- The handler refuses the value behind any white space, as one does that tests its first token. -/
def Stops (handler : Handler σ) (value : List Token) : Prop := ∀ w, Blank w → w ≠ [] → handler (w ++ value) = none

/-- What the handler takes is all of the value but an `!important`. -/
def Whole (handler : Handler σ) (value : List Token) : Prop :=
  ∀ style rest, handler value = some (style, rest) → Complete rest

/-- Nothing but `!important` follows what the handler takes, and it passes over the white space in front
of the value, if there is any; or it stops at that white space, and the value is none without it. -/
def Tidy (handler : Handler σ) (value : List Token) : Prop :=
  (trim value = value ∨ Skips handler (trim value)) ∧ Whole handler (trim value) ∨
    trim value ≠ value ∧ Stops handler (trim value) ∧
      ∀ style rest, handler (trim value) = some (style, rest) → ¬ Complete rest

/-- White space in front of the value is passed over or stopped at. -/
def Fronted (handler : Handler σ) (value : List Token) : Prop :=
  trim value = value ∨ Skips handler (trim value) ∨ Stops handler (trim value)

theorem Skips.eq_trim (skips : Skips handler (trim value)) : handler value = handler (trim value) := by
  obtain ⟨w, blank, split⟩ := blank_split value
  calc handler value = handler (w ++ trim value) := by rw [← split]
    _ = handler (trim value) := skips w blank

theorem Stops.eq_none (stops : Stops handler (trim value)) (front : trim value ≠ value) : handler value = none := by
  obtain ⟨w, blank, split⟩ := blank_split value
  have some_space : w ≠ [] := by
    rintro rfl
    exact front split.symm
  calc handler value = handler (w ++ trim value) := by rw [← split]
    _ = none := stops w blank some_space

theorem resolve_eq {env : Env} {property : LwcString} {id : Nat}
    (substituted : substituteTokens env varLevels ts = some value) (known : findPropertyId property = some id) :
    deferredDeclResolve handlers env { property := property, tokens := ts, important := false } =
      (handlers id value).map fun (style, rest) => (style, flagged rest) := by
  unfold deferredDeclResolve
  simp only [substituted, known, Option.bind_eq_bind, Option.bind_some]
  rcases handlers id value with _ | ⟨style, rest⟩ <;> rfl

/-- What the resolution makes of a handler's answer. -/
def resolved (read : Option (σ × List Token)) : Option (σ × Bool) := read.map fun (style, rest) => (style, flagged rest)

/-- Without white space in front the two paths differ only in the look at what is left. -/
theorem resolved_eq_iff : resolved (handler value) = parseValue handler value ↔ Whole handler value := by
  constructor
  · intro same style rest read
    rw [read] at same
    obtain ⟨rest', read', complete, -⟩ := parseValue_eq_some.mp same.symm
    obtain rfl : rest = rest' := by simpa [read] using read'
    exact complete
  · intro whole
    rcases read : handler value with _ | ⟨style, rest⟩
    · exact (parseValue_eq_none.mpr (by simp [read])).symm
    · exact (parseValue_eq_some.mpr ⟨rest, read, whole style rest read, rfl⟩).symm

theorem Tidy.agrees (tidy : Tidy handler value) : resolved (handler value) = parseValue handler (trim value) := by
  rcases tidy with ⟨front, whole⟩ | ⟨front, stops, refused⟩
  · rw [← resolved_eq_iff] at whole
    rcases front with same | skips
    · rwa [same] at whole ⊢
    · rwa [skips.eq_trim]
  · rw [stops.eq_none front, parseValue_eq_none.mpr refused]
    rfl

theorem tidy_of_agrees (fronted : Fronted handler value)
    (agrees : resolved (handler value) = parseValue handler (trim value)) : Tidy handler value := by
  by_cases front : trim value = value
  · refine .inl ⟨.inl front, ?_⟩
    rw [front] at agrees ⊢
    exact resolved_eq_iff.mp agrees
  rcases fronted with same | skips | stops
  · exact (front same).elim
  · rw [skips.eq_trim] at agrees
    exact .inl ⟨.inr skips, resolved_eq_iff.mp agrees⟩
  · rw [stops.eq_none front] at agrees
    exact .inr ⟨front, stops, parseValue_eq_none.mp agrees.symm⟩

/-- A deferred declaration is applied, with the style and importance of the direct declaration of
its substituted value, where the value is tidy, and only there if the handler passes over white space
in front of it or stops there. -/
theorem deferred_agrees_iff {handlers : Handlers σ} {env : Env} {property : Token} {ts value : List Token}
    {decl : DeferredDecl} {id : Nat} (ident : property.type = .ident)
    (deferred : parseProperty handlers property ts = .deferred decl) (known : findPropertyId property.idata = some id)
    (substituted : substituteTokens env varLevels ts = some value) :
    (Tidy (handlers id) value →
        deferredDeclResolve handlers env decl =
          accepted (handleDeclaration handlers (property :: colon :: value))) ∧
      (Fronted (handlers id) value →
        (deferredDeclResolve handlers env decl =
            accepted (handleDeclaration handlers (property :: colon :: value)) ↔
          Tidy (handlers id) value)) := by
  obtain ⟨ordinary, rfl⟩ := parseProperty_deferred deferred
  rw [resolve_eq substituted known, handleDeclaration_direct ident ordinary known (substituteTokens_no_var substituted)]
  exact ⟨Tidy.agrees, fun fronted => ⟨tidy_of_agrees fronted, Tidy.agrees⟩⟩

def flagWords : List (LwcString × BitVec 8) :=
  [(lit "inherit", 2), (lit "initial", 4), (lit "revert", 6), (lit "unset", 8)]

/-- What a token stands for among the keywords of a property. -/
def keyword (property : Property) (keywords : List (LwcString × BitVec 16)) (t : Token) : Option (List Word) :=
  let opcode := BitVec.ofNat 32 (properties.idxOf property)
  if t.type ≠ .ident then none
  else
    match flagWords.lookup (insensitive t.idata) with
    | some flags => some [buildOPV opcode flags 0]
    | none => (keywords.lookup (insensitive t.idata)).map fun value => [buildOPV opcode 0 value]

/-- The handler that `css_property_parser_gen` makes for a property of keywords and of what
`specifier` reads, a colour or a length; with neither, the specifier refuses everything. -/
def generatedHandler (property : Property) (keywords : List (LwcString × BitVec 16)) (specifier : Handler (List Word)) :
    Handler (List Word)
  | [] => none
  | t :: rest =>
    match keyword property keywords t with
    | some style => some (style, rest)
    | none => specifier (t :: rest)

/-- A specifier passes over white space in front and knows none of the keywords. -/
structure Specifies (property : Property) (keywords : List (LwcString × BitVec 16)) (specifier : Handler (List Word)) :
    Prop where
  skips : ∀ value, Skips specifier value
  refuses : ∀ {t rest}, keyword property keywords t ≠ none → specifier (t :: rest) = none
  refuses_nil : specifier [] = none

/-- A generated handler stops at white space in front of a keyword and passes over it elsewhere. -/
theorem generated_fronted {property : Property} {keywords : List (LwcString × BitVec 16)}
    {specifier : Handler (List Word)} (specifies : Specifies property keywords specifier) (value : List Token) :
    Fronted (generatedHandler property keywords specifier) value := by
  have behind : ∀ {w} v, Blank w → w ≠ [] →
      generatedHandler property keywords specifier (w ++ v) = specifier v := by
    intro w v blank some_space
    obtain ⟨s, w, rfl⟩ := List.exists_cons_of_ne_nil some_space
    have space : s.type = .s := by simpa [isSpace] using blank s (by simp)
    have passed : keyword property keywords s = none := by simp [keyword, space]
    rw [List.cons_append, generatedHandler, passed]
    exact specifies.skips v (s :: w) blank
  refine .inr ?_
  generalize trim value = v
  rcases v with _ | ⟨t, rest⟩
  · refine .inr fun w blank some_space => ?_
    rw [behind [] blank some_space, specifies.refuses_nil]
  rcases found : keyword property keywords t with _ | style
  · refine .inl fun w blank => ?_
    have read : generatedHandler property keywords specifier (t :: rest) = specifier (t :: rest) := by
      simp [generatedHandler, found]
    rcases w with _ | ⟨s, w⟩
    · rfl
    · rw [behind _ blank (by simp), read]
  · refine .inr fun w blank some_space => ?_
    have known : keyword property keywords t ≠ none := by simp [found]
    rw [behind _ blank some_space, specifies.refuses known]

/-- The handler of a property of keywords only. -/
def keywordHandler (property : Property) (keywords : List (LwcString × BitVec 16)) : Handler (List Word) :=
  generatedHandler property keywords fun _ => none

theorem keywordHandler_fronted (property : Property) (keywords : List (LwcString × BitVec 16)) (value : List Token) :
    Fronted (keywordHandler property keywords) value := by
  refine generated_fronted ⟨?_, ?_, rfl⟩ value
  · exact fun _ _ _ => rfl
  · exact fun _ => rfl

/-- `css__parse_float` -/
def parseFloat : Handler (List Word) := keywordHandler .float [(lit "left", 0), (lit "right", 1), (lit "none", 2)]

/-- The handlers with `css__parse_float` in its place. -/
def floatHandlers : Handlers (List Word) := fun id => if id = 70 then parseFloat else fun _ => none

/-- The sheet of `--side: left`. -/
def sideLeft : Env where
  sheets := [[⟨lit "--side", [⟨.ident, lit "left"⟩]⟩]]
  originSheet := [⟨lit "--side", [⟨.ident, lit "left"⟩]⟩]
  inlineSheet := none
  inlineExtras := []

/-- The property `float`. -/
def floatIdent : Token := ⟨.ident, lit "float"⟩

/-- The value `var(--side)`. -/
def varSide : List Token := [⟨.function, lit "var"⟩, ⟨.ident, lit "--side"⟩, ⟨.char, [ch ')']⟩]

theorem deferred_agrees_on_var :
    (Tidy parseFloat [⟨.ident, lit "left"⟩] →
        deferredDeclResolve floatHandlers sideLeft ⟨lit "float", varSide, false⟩ =
          accepted (handleDeclaration floatHandlers [floatIdent, colon, ⟨.ident, lit "left"⟩])) ∧
      (Fronted parseFloat [⟨.ident, lit "left"⟩] →
        (deferredDeclResolve floatHandlers sideLeft ⟨lit "float", varSide, false⟩ =
            accepted (handleDeclaration floatHandlers [floatIdent, colon, ⟨.ident, lit "left"⟩]) ↔
          Tidy parseFloat [⟨.ident, lit "left"⟩])) :=
  @deferred_agrees_iff _ floatHandlers sideLeft floatIdent varSide _ _ 70 rfl rfl (by decide) (by decide)

/-- The value `var(--other, left)`. -/
def varFallback : List Token :=
  [⟨.function, lit "var"⟩, ⟨.ident, lit "--other"⟩, ⟨.char, [ch ',']⟩, ⟨.s, []⟩, ⟨.ident, lit "left"⟩,
    ⟨.char, [ch ')']⟩]

/-- `float: var(--side) junk` is applied although `float: left junk` is discarded, and
`float: var(--other, left)` is discarded although `float: left` is applied. -/
theorem junk_and_space_disagree :
    deferredDeclResolve floatHandlers sideLeft ⟨lit "float", varSide ++ [⟨.s, []⟩, ⟨.ident, lit "junk"⟩], false⟩ ≠
        accepted (handleDeclaration floatHandlers [floatIdent, colon, ⟨.ident, lit "left"⟩, ⟨.s, []⟩,
          ⟨.ident, lit "junk"⟩]) ∧
      deferredDeclResolve floatHandlers sideLeft ⟨lit "float", varFallback, false⟩ ≠
        accepted (handleDeclaration floatHandlers [floatIdent, colon, ⟨.s, []⟩, ⟨.ident, lit "left"⟩]) := by
  decide

end Besra.Deferred
