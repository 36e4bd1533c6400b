import Besra.Winner

/-!
Declarations with `var()` against their substituted text. `cascade_style` leaves such a declaration to the end of its
rule and `css__deferred_decl_resolve` cascades it with a specificity of its own.
-/
namespace Besra.InPlace
open Lwc Besra.Lex Dom Bytecode CustomProperties Deferred Selector MatchChain List Option
  MqParse MqGrammar SelectorHash LastMax Cascade Selection
open Winner (lone identified rootOnScreen)

section
variable (handlers : Handlers (List Encoding)) (env : Env)

/-- A declaration that is deferred, with the tokens that are substituted for its value. -/
structure VarDeclaration where
  vector : List Token
  decl : DeferredDecl
  value : List Token
  deferred : handleDeclaration handlers vector = .deferred decl
  substituted : substituteTokens env varLevels decl.tokens = some value

inductive Declaration where
  | compared (d : VarDeclaration handlers env)
  | other (vector : List Token)

/-- The declarations of a rule, and the custom properties of its sheet. -/
structure Source where
  customProperties : List Entry
  declarations : List (Declaration handlers { env with originSheet := customProperties })

end

variable {handlers : Handlers (List Encoding)} {env : Env}

/-- The declaration with the substituted tokens for its value. -/
def VarDeclaration.direct (d : VarDeclaration handlers env) : List Token :=
  ⟨.ident, d.decl.property⟩ :: colon :: d.value

/-- What becomes of a declaration, whether it is one of those compared, and it with its text in place or not. -/
def Declaration.piece (inPlace : Bool) : Declaration handlers env → Bool × Parsed (List Encoding)
  | .compared d => (true, handleDeclaration handlers (if inPlace then d.direct else d.vector))
  | .other vector => (false, handleDeclaration handlers vector)

def Source.pieces (inPlace : Bool) (s : Source handlers env) : List (Bool × Parsed (List Encoding)) :=
  s.declarations.map (Declaration.piece inPlace)

def directOf : Parsed (List Encoding) → List Encoding
  | .style style important => emitted (style, important)
  | _ => []

def deferredOf : Parsed (List Encoding) → List DeferredDecl
  | .deferred decl => [decl]
  | _ => []

/-- `css__stylesheet_rule_append_style`, for what a declaration gives. -/
def ruleAppendStyle (customProperties : List Entry) (style : Option Style) (parsed : Parsed (List Encoding)) :
    Option Style :=
  let current := style.getD ⟨[], [], customProperties⟩
  match parsed with
  | .style .. => some { current with encodings := current.encodings ++ directOf parsed }
  | .deferred _ => some { current with deferred := current.deferred ++ deferredOf parsed }
  | _ => style

def compile (inPlace : Bool) (s : Source handlers env) : Option Style :=
  (s.pieces inPlace).foldl (fun style piece => ruleAppendStyle s.customProperties style piece.2) none

theorem compile_getD (inPlace : Bool) (s : Source handlers env) :
    (compile inPlace s).getD ⟨[], [], s.customProperties⟩ =
      ⟨(s.pieces inPlace).flatMap fun piece => directOf piece.2, (s.pieces inPlace).flatMap fun piece => deferredOf piece.2,
        s.customProperties⟩ := by
  rw [compile]
  generalize s.pieces inPlace = pieces
  induction pieces using List.reverseRecOn with
  | nil => rfl
  | append_singleton pieces piece ih =>
    obtain ⟨own, parsed⟩ := piece
    simp only [foldl_append, foldl_cons, foldl_nil, flatMap_append, flatMap_singleton]
    generalize pieces.foldl _ none = style at ih ⊢
    cases parsed <;> simp [ruleAppendStyle, directOf, deferredOf, ih]

/-- A setting, and whether it is of a declaration that is compared. -/
structure Candidate where
  own : Bool
  item : Item

def candidatesOf (own : Bool) (o : Occasion) (encodings : List Encoding) : List Candidate :=
  (encodings.filterMap (itemOf o)).map (⟨own, ·⟩)

def resolvedOf (handlers : Handlers (List Encoding)) (env : Env) (parsed : Parsed (List Encoding)) : List Encoding :=
  (deferredOf parsed).flatMap fun decl => ((deferredDeclResolve handlers env decl).map emitted).getD []

/-- The candidates of a rule, in the order in which they are cascaded. -/
def Source.candidates (inPlace : Bool) (s : Source handlers env) (o : Occasion) : List Candidate :=
  (s.pieces inPlace).flatMap (fun piece => candidatesOf piece.1 o (directOf piece.2)) ++
    (s.pieces inPlace).flatMap fun piece =>
      candidatesOf piece.1 { o with specificity := deferredSpecificity }
        (resolvedOf handlers { env with originSheet := s.customProperties } piece.2)

theorem candidatesOf_items (own : Bool) (o : Occasion) (encodings : List Encoding) :
    (candidatesOf own o encodings).map (·.item) = encodings.filterMap (itemOf o) := by
  rw [candidatesOf, List.map_map]
  exact List.map_id _

theorem direct_put (pieces : List (Bool × Parsed (List Encoding))) (state : SelectState) :
    (pieces.flatMap fun piece => directOf piece.2).foldl cascade state =
      { state with
        props := ((pieces.flatMap fun piece => candidatesOf piece.1 state.occasion (directOf piece.2)).map
          (·.item)).foldl put state.props } := by
  rw [cascade_items, filterMap_flatMap, map_flatMap]
  simp only [candidatesOf_items]

theorem deferred_put (pieces : List (Bool × Parsed (List Encoding))) (state : SelectState) :
    (pieces.flatMap fun piece => deferredOf piece.2).foldl (cascadeDeferred handlers env) state =
      { state with
        props := ((pieces.flatMap fun piece => candidatesOf piece.1
          { state.occasion with specificity := deferredSpecificity } (resolvedOf handlers env piece.2)).map
          (·.item)).foldl put state.props } := by
  have one : ∀ decl (state : SelectState), cascadeDeferred handlers env state decl =
      { state with
        props := ((((deferredDeclResolve handlers env decl).map emitted).getD []).filterMap
          (itemOf { state.occasion with specificity := deferredSpecificity })).foldl put state.props } := by
    intro decl state
    rw [cascadeDeferred]
    split
    · rename_i refused
      simp [refused]
    · rename_i value resolved
      rw [cascade_items, resolved]
      rfl
  rw [map_flatMap]
  simp only [candidatesOf_items, resolvedOf]
  rw [← filterMap_flatMap, ← flatMap_assoc]
  generalize (pieces.flatMap fun piece => deferredOf piece.2) = decls
  induction decls generalizing state with
  | nil => rfl
  | cons decl decls ih =>
    rw [foldl_cons, ih, one, flatMap_cons, filterMap_append, foldl_append]
    rfl

variable {inPlace : Bool} {s : Source handlers env} {o : Occasion} {c : Candidate}
  {inlineSource : Option (Source handlers env)} {hints : List Hint} {list : List Candidate} {p : Property}
  {pseudo : PseudoElement}

theorem cascadeStyle_put {style : Style} (compiled : compile inPlace s = some style) (state : SelectState) :
    cascadeStyle handlers env style state =
      { state with props := ((s.candidates inPlace state.occasion).map (·.item)).foldl put state.props } := by
  have parts := compile_getD inPlace s
  rw [compiled, getD_some] at parts
  rw [parts, cascadeStyle, direct_put, deferred_put, Source.candidates, map_append, foldl_append]
  rfl

variable {σ : Type} {src : σ → CssSelector (Source handlers env)}

def compiled (inPlace : Bool) (src : σ → CssSelector (Source handlers env)) (p : σ) : CssSelector Style where
  chain := (src p).chain
  specificity := (src p).specificity
  rule := ⟨(src p).rule.index, (src p).rule.style.bind (compile inPlace), (src p).rule.media⟩

variable {ν : Type}

section
variable (client : Client ν) (n : ν)

def occasions (heap : σ → CssSelector Style) : List Reject → List (Origin × σ) → List (σ × Occasion)
  | _, [] => []
  | cache, (origin, p) :: rest =>
    let attempt := matchSelectorChain client cache n (heap p).chain
    (match attempt.pseudo, (heap p).rule.style.isSome with
      | some pseudo, true => [(p, ⟨origin, (heap p).specificity, pseudo⟩)]
      | _, _ => []) ++ occasions heap attempt.cache rest

def cacheAfter (heap : σ → CssSelector Style) (cache : List Reject) (visits : List (Origin × σ)) : List Reject :=
  visits.foldl (fun cache visit => (matchSelectorChain client cache n (heap visit.2).chain).cache) cache

theorem occasions_append (heap : σ → CssSelector Style) (cache : List Reject) (xs ys : List (Origin × σ)) :
    occasions client n heap cache (xs ++ ys) =
      occasions client n heap cache xs ++ occasions client n heap (cacheAfter client n heap cache xs) ys := by
  induction xs generalizing cache with
  | nil => rfl
  | cons visit xs ih =>
    obtain ⟨origin, p⟩ := visit
    rw [cons_append, occasions, occasions, ih, append_assoc]
    rfl

end

def lastSpecificity (start : Nat) (matched : List (σ × Occasion)) : Nat := matched.foldl (fun _ m => m.2.specificity) start

def rulesCandidates (inPlace : Bool) (src : σ → CssSelector (Source handlers env)) (matched : List (σ × Occasion)) :
    List Candidate :=
  matched.flatMap fun m => ((src m.1).rule.style.map fun s => s.candidates inPlace m.2).getD []

variable {client : Client ν} {n : ν} {req : Requirements}

theorem specificity_of_occasion {heap : σ → CssSelector Style} {cache : List Reject} {visits : List (Origin × σ)}
    {m : σ × Occasion} (among : m ∈ occasions client n heap cache visits) : m.2.specificity = (heap m.1).specificity := by
  induction visits generalizing cache with
  | nil => cases among
  | cons visit visits ih =>
    obtain ⟨origin, p⟩ := visit
    rw [occasions] at among
    rcases mem_append.mp among with first | later
    · split at first
      · obtain rfl := mem_singleton.mp first
        rfl
      · cases first
    · exact ih later

theorem lastSpecificity_cases (matched : List (σ × Occasion)) :
    lastSpecificity 0 matched = 0 ∨ ∃ m ∈ matched, lastSpecificity 0 matched = m.2.specificity := by
  induction matched using List.reverseRecOn with
  | nil => exact .inl rfl
  | append_singleton matched m ih =>
    refine .inr ⟨m, by simp, ?_⟩
    rw [lastSpecificity, foldl_append]
    rfl

structure Follows (inPlace : Bool) (src : σ → CssSelector (Source handlers env)) (client : Client ν) (n : ν)
    (visits : List (Origin × σ)) (state after : SelectState) : Prop where
  props : after.props =
    ((rulesCandidates inPlace src (occasions client n (compiled inPlace src) state.rejectCache visits)).map
      (·.item)).foldl put state.props
  cache : after.rejectCache = cacheAfter client n (compiled inPlace src) state.rejectCache visits
  specificity : after.currentSpecificity =
    lastSpecificity state.currentSpecificity (occasions client n (compiled inPlace src) state.rejectCache visits)

theorem Follows.append {xs ys : List (Origin × σ)} {state between after : SelectState}
    (first : Follows inPlace src client n xs state between) (second : Follows inPlace src client n ys between after) :
    Follows inPlace src client n (xs ++ ys) state after where
  props := by
    rw [second.props, first.props, first.cache, occasions_append, rulesCandidates, rulesCandidates, rulesCandidates,
      flatMap_append, map_append, foldl_append]
  cache := by
    rw [second.cache, first.cache, cacheAfter, cacheAfter, cacheAfter, foldl_append]
  specificity := by
    rw [second.specificity, first.specificity, first.cache, occasions_append, lastSpecificity, lastSpecificity,
      lastSpecificity, foldl_append]

theorem matchRule_follows (inPlace : Bool) (state : SelectState) (p : σ) :
    Follows inPlace src client n [(state.currentOrigin, p)] state
        (matchRule handlers env client n (compiled inPlace src) state p) ∧
      (matchRule handlers env client n (compiled inPlace src) state p).currentOrigin = state.currentOrigin := by
  rcases matched : (matchSelectorChain client state.rejectCache n (src p).chain).pseudo with _ | pseudo
  · refine ⟨⟨?_, ?_, ?_⟩, ?_⟩ <;>
      simp [matchRule, compiled, matched, occasions, rulesCandidates, cacheAfter, lastSpecificity]
  · rcases given : (src p).rule.style with _ | s
    · refine ⟨⟨?_, ?_, ?_⟩, ?_⟩ <;>
        simp [matchRule, compiled, matched, given, occasions, rulesCandidates, cacheAfter, lastSpecificity]
    · rcases made : compile inPlace s with _ | style
      · refine ⟨⟨?_, ?_, ?_⟩, ?_⟩ <;>
          simp [matchRule, compiled, matched, given, made, occasions, rulesCandidates, cacheAfter, lastSpecificity]
      · refine ⟨⟨?_, ?_, ?_⟩, ?_⟩ <;>
          simp [matchRule, compiled, matched, given, made, occasions, rulesCandidates, cacheAfter, lastSpecificity,
            cascadeStyle_put made, SelectState.occasion]

theorem rules_follow (inPlace : Bool) (list : List σ) (state : SelectState) :
    Follows inPlace src client n (list.map (state.currentOrigin, ·)) state
        (list.foldl (matchRule handlers env client n (compiled inPlace src)) state) ∧
      (list.foldl (matchRule handlers env client n (compiled inPlace src)) state).currentOrigin = state.currentOrigin := by
  induction list generalizing state with
  | nil => exact ⟨⟨rfl, rfl, rfl⟩, rfl⟩
  | cons p list ih =>
    obtain ⟨first, origin⟩ := @matchRule_follows handlers env σ src ν client n inPlace state p
    obtain ⟨others, kept⟩ := ih (matchRule handlers env client n (compiled inPlace src) state p)
    rw [origin] at others kept
    exact ⟨first.append others, kept⟩

variable [DecidableEq σ]

def ruleSheet (inPlace : Bool) (own : RuleSheet src) : RuleSheet (compiled inPlace src) where
  ops := own.ops
  numbered := by
    intro p among q among' same
    simp only [compiled, own.numbered p among q among' same]

def sheet (inPlace : Bool) : Sheet src → Sheet (compiled inPlace src)
  | .rules own => .rules (ruleSheet inPlace own)
  | .imports media none rest => .imports media none (sheet inPlace rest)
  | .imports media (some imported) rest => .imports media (some (sheet inPlace imported)) (sheet inPlace rest)

def selectSheet (inPlace : Bool) (s : SelectSheet src) : SelectSheet (compiled inPlace src) where
  sheet := sheet inPlace s.sheet
  origin := s.origin
  media := s.media
  disabled := s.disabled

theorem processed_sheet (inPlace : Bool) (media : Media) (room : Nat) (s : Sheet src) :
    processed media room (sheet inPlace s) = (processed media room s).map (·.map (ruleSheet inPlace)) := by
  fun_induction processed media room s with
  | case1 room own => rfl
  | case2 room queries rest ih => rw [sheet, processed, ih]
  | case3 queries imported rest fits => simp [sheet, processed, fits]
  | case4 room queries imported rest fits free ih ih' =>
    rw [sheet, processed, if_pos fits, if_neg free, ih, ih']
    rcases processed media (room - 1) imported with _ | list
    · rfl
    · rcases processed media room rest with _ | others <;> simp
  | case5 room queries imported rest unfit ih => rw [sheet, processed, if_neg unfit, ih]

theorem sources_sheets (inPlace : Bool) (media : Media) (sheets : List (SelectSheet src)) :
    sources media (sheets.map (selectSheet inPlace)) =
      (sources media sheets).map (·.map fun source => (source.1, ruleSheet inPlace source.2)) := by
  induction sheets with
  | nil => rfl
  | cons s sheets ih =>
    rw [map_cons, sources, sources, ih]
    simp only [selectSheet, processed_sheet]
    split
    · rcases processed media 256 s.sheet with _ | own
      · rfl
      · rcases sources media sheets with _ | others
        · rfl
        · simp [Function.comp_def]
    · rcases sources media sheets with _ | others
      · rfl
      · simp

def lastOrigin {δ : Type} {heap : σ → CssSelector δ} (start : Origin) (list : List (Origin × RuleSheet heap)) : Origin :=
  list.foldl (fun _ source => source.1) start

/-- The selectors that are handed to the matching, with the origins of their sheets. -/
def visited {heap : σ → CssSelector Style} (client : Client ν) (n : ν) (req : Requirements)
    (list : List (Origin × RuleSheet heap)) : List (Origin × σ) :=
  list.flatMap fun source => (handed client n req source.2).map (source.1, ·)

theorem sheets_follow (inPlace : Bool) (list : List (Origin × RuleSheet (compiled inPlace src))) (state : SelectState) :
    Follows inPlace src client n (visited client n req list) state
        (list.foldl (matchSelectorsInSheet handlers env client n req) state) ∧
      (list.foldl (matchSelectorsInSheet handlers env client n req) state).currentOrigin =
        lastOrigin state.currentOrigin list := by
  induction list generalizing state with
  | nil => exact ⟨⟨rfl, rfl, rfl⟩, rfl⟩
  | cons source list ih =>
    obtain ⟨first, origin⟩ := @rules_follow handlers env σ src ν client n inPlace (handed client n req source.2)
      { state with currentOrigin := source.1 }
    obtain ⟨others, kept⟩ := ih (matchSelectorsInSheet handlers env client n req state source)
    refine ⟨Follows.append ⟨first.props, first.cache, first.specificity⟩ others, ?_⟩
    rw [foldl_cons, kept, matchSelectorsInSheet, origin]
    rfl

def matchedRules (inPlace : Bool) (client : Client ν) (n : ν) (req : Requirements) (list : List (Origin × RuleSheet src)) :
    List (σ × Occasion) :=
  occasions client n (compiled inPlace src) []
    (visited client n req (list.map fun source => (source.1, ruleSheet inPlace source.2)))

/-- All the candidates for an element, in the order in which they are cascaded. -/
def candidates (inPlace : Bool) (client : Client ν) (n : ν) (req : Requirements) (hints : List Hint)
    (list : List (Origin × RuleSheet src)) (inlineSource : Option (Source handlers env)) : List Candidate :=
  hints.map (fun hint => ⟨false, hintItem hint⟩) ++ rulesCandidates inPlace src (matchedRules inPlace client n req list) ++
    (inlineSource.map fun s => s.candidates inPlace
      ⟨lastOrigin .ua list, lastSpecificity 0 (matchedRules inPlace client n req list), .none⟩).getD []

/-- `css_select_style` on sheets and an inline style as they are written. -/
def selected (inPlace : Bool) (client : Client ν) (n : ν) (req : Requirements) (sheets : List (SelectSheet src))
    (hints : List Hint) (inlineSource : Option (Source handlers env)) : Option SelectState :=
  selectStyle handlers env client n req (sheets.map (selectSheet inPlace)) hints (inlineSource.bind (compile inPlace))

theorem candidates_of_none (nothing : compile inPlace s = none) (o : Occasion) : s.candidates inPlace o = [] := by
  have parts := compile_getD inPlace s
  rw [nothing, getD_none, Style.mk.injEq] at parts
  obtain ⟨direct, deferred, -⟩ := parts
  rw [eq_comm, flatMap_eq_nil_iff] at direct deferred
  rw [Source.candidates, append_eq_nil_iff, flatMap_eq_nil_iff, flatMap_eq_nil_iff]
  refine ⟨fun piece among => ?_, fun piece among => ?_⟩
  · rw [direct piece among]
    rfl
  · rw [resolvedOf, deferred piece among]
    rfl

variable {sheets : List (SelectSheet src)}

theorem selected_props {list : List (Origin × RuleSheet src)} (sourced : sources req.media sheets = some list)
    (hints : List Hint) (inlineSource : Option (Source handlers env)) :
    (selected inPlace client n req sheets hints inlineSource).map (·.props) =
      some (((candidates inPlace client n req hints list inlineSource).map (·.item)).foldl put fun _ _ => none) := by
  let compiledList := list.map fun source => (source.1, ruleSheet inPlace source.2)
  have hinted : hints.foldl setHint {} =
      { ({} : SelectState) with props := (hints.map hintItem).foldl put fun _ _ => none } := hints_put (by simp)
  obtain ⟨follows, origin⟩ := @sheets_follow handlers env σ src ν client n req _ inPlace compiledList (hints.foldl setHint {})
  have lastOne : lastOrigin .ua compiledList = lastOrigin .ua list := by
    rw [lastOrigin, lastOrigin, foldl_map]
  have before : (selectFromSheets handlers env client n req hints compiledList).props =
      ((hints.map (fun hint => (⟨false, hintItem hint⟩ : Candidate)) ++
        rulesCandidates inPlace src (matchedRules inPlace client n req list)).map (·.item)).foldl put fun _ _ => none := by
    rw [map_append, foldl_append, List.map_map]
    exact follows.props.trans (by rw [hinted]; rfl)
  have left : SelectState.occasion
      { selectFromSheets handlers env client n req hints compiledList with currentPseudo := .none } =
        ⟨lastOrigin .ua list, lastSpecificity 0 (matchedRules inPlace client n req list), .none⟩ := by
    rw [hinted] at origin
    rw [SelectState.occasion, Occasion.mk.injEq]
    refine ⟨?_, ?_, rfl⟩
    · rw [← lastOne, ← origin, ← hinted]
      rfl
    · exact follows.specificity.trans (by rw [hinted]; rfl)
  rw [selected, selectStyle, sources_sheets, sourced, map_some, map_some, map_some, candidates,
    map_append, foldl_append, ← before]
  cases inlineSource with
  | none => rfl
  | some s =>
    rcases made : compile inPlace s with _ | style
    · simp [made, candidates_of_none made, cascadeInline, compiledList]
    · simp only [bind_some, made, cascadeInline, cascadeStyle_put made, map_some, getD_some]
      rw [left]

theorem itemOf_specificity {e : Encoding} {item : Item} (found : itemOf o e = some item) :
    item.state.specificity = o.specificity := by
  rw [itemOf] at found
  split at found
  · cases found
  · split at found
    · cases found
      rfl
    · cases found

theorem mem_candidatesOf {own : Bool} {encodings : List Encoding} (among : c ∈ candidatesOf own o encodings) :
    c.own = own ∧ c.item.state.specificity = o.specificity ∧ encodings ≠ [] := by
  obtain ⟨item, member, rfl⟩ := List.mem_map.mp among
  obtain ⟨e, listed, found⟩ := mem_filterMap.mp member
  exact ⟨rfl, itemOf_specificity found, ne_nil_of_mem listed⟩

theorem direct_not_deferred (d : VarDeclaration handlers env) : deferredOf (handleDeclaration handlers d.direct) = [] := by
  have clean : valueContainsVar (trim d.value) = false := by
    have none_left := substituteTokens_no_var d.substituted
    rw [valueContainsVar, List.any_eq_false] at none_left ⊢
    exact fun t member => none_left t ((dropWhile_suffix isSpace).subset member)
  have read : handleDeclaration handlers d.direct =
      parseProperty handlers ⟨.ident, d.decl.property⟩ (trim d.value) := rfl
  rw [read, parseProperty]
  split
  · rfl
  · split
    · rfl
    · rw [clean, if_neg (by simp)]
      split <;> rfl

/-- What a compared declaration sets as it is written has the specificity of deferred declarations, and
what its text sets in place has that of the rule. -/
theorem own_specificity (among : c ∈ s.candidates inPlace o) (mine : c.own = true) :
    c.item.state.specificity = if inPlace then o.specificity else deferredSpecificity := by
  have ofPiece : ∀ piece ∈ s.pieces inPlace, piece.1 = true →
      if inPlace then deferredOf piece.2 = [] else directOf piece.2 = [] := by
    intro piece member own
    obtain ⟨declaration, -, rfl⟩ := List.mem_map.mp member
    cases declaration with
    | compared d =>
      cases inPlace with
      | true => exact direct_not_deferred d
      | false => simp [Declaration.piece, d.deferred, directOf]
    | other vector => cases own
  rcases mem_append.mp among with first | last
  · obtain ⟨piece, member, inside⟩ := mem_flatMap.mp first
    obtain ⟨owner, specificity, some⟩ := mem_candidatesOf inside
    have fits := ofPiece piece member (owner ▸ mine)
    cases inPlace with
    | true => exact specificity
    | false => exact absurd fits some
  · obtain ⟨piece, member, inside⟩ := mem_flatMap.mp last
    obtain ⟨owner, specificity, some⟩ := mem_candidatesOf inside
    have fits := ofPiece piece member (owner ▸ mine)
    cases inPlace with
    | true => exact absurd (by rw [resolvedOf, show deferredOf piece.2 = [] from fits]; rfl) some
    | false => exact specificity

/-- Of the candidates, those of compared declarations have the specificity of deferred declarations as
they are written, and in place none has it unless a selector does. -/
theorem own_deferred {list : List (Origin × RuleSheet src)} (ordinary : ∀ p, (src p).specificity ≠ deferredSpecificity)
    (among : c ∈ candidates inPlace client n req hints list inlineSource) (mine : c.own = true) :
    c.item.state.specificity = deferredSpecificity ↔ inPlace = false := by
  have plain : ∀ m ∈ matchedRules inPlace client n req list, m.2.specificity ≠ deferredSpecificity := by
    intro m member
    rw [specificity_of_occasion member]
    exact ordinary m.1
  have settled : ∀ {s : Source handlers env} {o : Occasion}, c ∈ s.candidates inPlace o →
      o.specificity ≠ deferredSpecificity → (c.item.state.specificity = deferredSpecificity ↔ inPlace = false) := by
    intro s o inside different
    have specificity := own_specificity inside mine
    cases inPlace with
    | true => simpa [specificity] using different
    | false => simpa using specificity
  rcases mem_append.mp among with before | inline
  · rcases mem_append.mp before with hinted | matched
    · obtain ⟨hint, -, rfl⟩ := List.mem_map.mp hinted
      cases mine
    · obtain ⟨m, member, inside⟩ := mem_flatMap.mp matched
      rcases given : (src m.1).rule.style with _ | s
      · simp [given] at inside
      · rw [given] at inside
        exact settled inside (plain m member)
  · cases inlineSource with
    | none => cases inline
    | some s =>
      refine settled inline ?_
      rcases lastSpecificity_cases (matchedRules inPlace client n req list) with zero | ⟨m, member, left⟩
      · simp [zero, deferredSpecificity]
      · rw [left]
        exact plain m member

/-- The candidates of the declarations that are not compared. -/
def others (list : List Candidate) : List Candidate := list.filter fun c => !c.own

/-- For every property and pseudo element, the strongest of what the compared declarations set gives way
to another declaration, or is what the strongest of the others sets. -/
def Yields (list : List Candidate) : Prop :=
  ∀ p pseudo, GivesWay (fun c : Candidate => c.item.state.weight) (·.own) (·.item.state)
    (list.filter fun c => c.item.concerns p pseudo)

/-- What is set for a property by some candidates. -/
def outcome (p : Property) (pseudo : PseudoElement) (list : List Candidate) : Option Candidate :=
  hold (heavier fun c : Candidate => c.item.state.weight) none (list.filter fun c => c.item.concerns p pseudo)

theorem put_outcome (list : List Candidate) (p : Property) (pseudo : PseudoElement) :
    (list.map (·.item)).foldl put (fun _ _ => none) p pseudo = (outcome p pseudo list).map (·.item.state) := by
  rw [put_hold, List.filter_map, List.map_map]
  exact @hold_map Candidate PropState _ _ none _

theorem yields_iff :
    Yields list ↔ ∀ p pseudo,
      (outcome p pseudo list).map (·.item.state) = (outcome p pseudo (others list)).map (·.item.state) := by
  have weighed : ∀ a b : Candidate, a.item.state = b.item.state → a.item.state.weight = b.item.state.weight :=
    fun a b same => congrArg PropState.weight same
  have swapped : ∀ p pseudo, (others list).filter (fun c => c.item.concerns p pseudo) =
      (list.filter fun c => c.item.concerns p pseudo).filter fun c => !c.own := by
    intro p pseudo
    rw [others, List.filter_filter, List.filter_filter]
    simp only [Bool.and_comm]
  constructor
  · intro yields p pseudo
    rw [outcome, outcome, swapped]
    exact hold_of_givesWay weighed (yields p pseudo)
  · intro same p pseudo
    refine givesWay_of_hold weighed ?_
    rw [← swapped]
    exact same p pseudo

theorem outcome_others (set : outcome p pseudo list = some c) (other : c.own = false) :
    outcome p pseudo (others list) = some c := by
  have kept := hold_filter (f := fun c => !c.own) set (by simp [other])
  rw [outcome, others, List.filter_filter]
  rw [List.filter_filter] at kept
  simpa only [Bool.and_comm] using kept

theorem outcome_none (unset : outcome p pseudo list = none) : outcome p pseudo (others list) = none := by
  have nothing := hold_none.mp unset
  rw [outcome, others, List.filter_filter, hold_none]
  rw [filter_eq_nil_iff] at nothing ⊢
  intro c among both
  exact nothing c among (Bool.and_eq_true _ _ ▸ both).1

/-- Two runs with the same others that leave the same for a property leave what the others do, when what
is compared has a specificity in the one that it never has in the other. -/
theorem settled_of_equal {list' : List Candidate} {special : Nat} (alike : others list = others list')
    (only : ∀ c ∈ list, c.own = true → c.item.state.specificity = special)
    (never : ∀ c ∈ list', c.own = true → c.item.state.specificity ≠ special)
    (equal : (outcome p pseudo list).map (·.item.state) = (outcome p pseudo list').map (·.item.state)) :
    (outcome p pseudo list).map (·.item.state) = (outcome p pseudo (others list)).map (·.item.state) ∧
      (outcome p pseudo list').map (·.item.state) = (outcome p pseudo (others list')).map (·.item.state) := by
  have mem_of_outcome : ∀ {list : List Candidate} {c : Candidate}, outcome p pseudo list = some c → c ∈ list :=
    fun set => mem_of_mem_filter (hold_none_spec set).mem
  rcases set : outcome p pseudo list with _ | c
  · rw [set] at equal
    rw [← equal, ← alike, outcome_none set]
    exact ⟨rfl, rfl⟩
  · rw [set] at equal
    cases mine : c.own with
    | false =>
      rw [← equal, ← alike, outcome_others set mine]
      exact ⟨rfl, rfl⟩
    | true =>
      obtain ⟨c', set', same⟩ := map_eq_some_iff.mp equal.symm
      have other : c'.own = false := by
        by_contra owned
        refine never c' (mem_of_outcome set') (by simpa using owned) ?_
        rw [same]
        exact only c (mem_of_outcome set) mine
      rw [alike, outcome_others set' other, set', map_some, map_some, same]
      exact ⟨rfl, rfl⟩

theorem others_append (xs ys : List Candidate) : others (xs ++ ys) = others xs ++ others ys := filter_append ..

theorem others_flatMap {α : Type} (list : List α) (f : α → List Candidate) :
    others (list.flatMap f) = list.flatMap fun a => others (f a) := filter_flatMap ..

theorem others_candidatesOf (own : Bool) (o : Occasion) (encodings : List Encoding) :
    others (candidatesOf own o encodings) = if own then [] else candidatesOf own o encodings := by
  rw [others, candidatesOf, List.filter_map]
  cases own <;> simp [Function.comp_def]

theorem others_source (s : Source handlers env) (o : Occasion) :
    others (s.candidates false o) = others (s.candidates true o) := by
  simp only [Source.candidates, Source.pieces, others_append, flatMap_map, others_flatMap, others_candidatesOf]
  congr 1
  · refine flatMap_congr fun declaration _ => ?_
    cases declaration <;> rfl
  · refine flatMap_congr fun declaration _ => ?_
    cases declaration <;> rfl

theorem others_alike (kept : ∀ p s, (src p).rule.style = some s → (compile true s).isSome = (compile false s).isSome)
    (hints : List Hint) (list : List (Origin × RuleSheet src)) (inlineSource : Option (Source handlers env)) :
    others (candidates false client n req hints list inlineSource) =
      others (candidates true client n req hints list inlineSource) := by
  have styled : ∀ p, (compiled true src p).rule.style.isSome = (compiled false src p).rule.style.isSome := by
    intro p
    rcases given : (src p).rule.style with _ | s
    · simp [compiled, given]
    · simpa [compiled, given] using kept p s given
  have same : SameSelectors (compiled false src) (compiled true src) :=
    ⟨fun _ => rfl, fun _ => rfl, fun _ => rfl, fun _ => rfl, styled⟩
  have visits : visited client n req (list.map fun source => (source.1, ruleSheet true source.2)) =
      visited client n req (list.map fun source => (source.1, ruleSheet false source.2)) := by
    rw [visited, visited, flatMap_map, flatMap_map]
    refine flatMap_congr fun source _ => ?_
    simp only [handed, same.visits, same.run, ruleSheet]
  have matching : ∀ cache visits, occasions client n (compiled true src) cache visits =
      occasions client n (compiled false src) cache visits := by
    intro cache visits
    induction visits generalizing cache with
    | nil => rfl
    | cons visit visits ih =>
      obtain ⟨origin, p⟩ := visit
      rw [occasions, occasions, ih, styled]
      rfl
  have matched : matchedRules true client n req list = matchedRules false client n req list := by
    rw [matchedRules, matchedRules, visits, matching]
  simp only [candidates, matched, rulesCandidates, others_append, others_flatMap]
  congr 1
  · congr 1
    refine flatMap_congr fun m _ => ?_
    rcases (src m.1).rule.style with _ | s
    · rfl
    · exact others_source s m.2
  · rcases inlineSource with _ | s
    · rfl
    · exact others_source s _

variable (client n req) in
/-- The other declarations apply alike, and what the compared ones set, both as they are written and in
place, gives way to them. -/
structure Unnoticed (hints : List Hint) (list : List (Origin × RuleSheet src))
    (inlineSource : Option (Source handlers env)) : Prop where
  others : others (candidates false client n req hints list inlineSource) =
    others (candidates true client n req hints list inlineSource)
  deferred : Yields (candidates false client n req hints list inlineSource)
  inPlace : Yields (candidates true client n req hints list inlineSource)

variable (client n req) in
/-- The selection sets the same for every property, in value, specificity, origin and importance, whether
the compared declarations are as they are written or have their text in place. -/
def Same (sheets : List (SelectSheet src)) (hints : List Hint) (inlineSource : Option (Source handlers env)) : Prop :=
  (selected false client n req sheets hints inlineSource).map (·.props) =
    (selected true client n req sheets hints inlineSource).map (·.props)

theorem same_iff {list : List (Origin × RuleSheet src)} (sourced : sources req.media sheets = some list) :
    Same client n req sheets hints inlineSource ↔ ∀ p pseudo,
      (outcome p pseudo (candidates false client n req hints list inlineSource)).map (·.item.state) =
        (outcome p pseudo (candidates true client n req hints list inlineSource)).map (·.item.state) := by
  rw [Same, selected_props sourced, selected_props sourced, Option.some.injEq, funext_iff]
  refine forall_congr' fun p => ?_
  rw [funext_iff]
  refine forall_congr' fun pseudo => ?_
  rw [put_outcome, put_outcome]

/-- A declaration with `var()` cascades as its text in place does where it goes unnoticed; and where the
others apply alike and no selector has the specificity of deferred declarations, only there. -/
theorem var_cascades_in_place {sheets : List (SelectSheet src)} {list : List (Origin × RuleSheet src)}
    (sourced : sources req.media sheets = some list) (hints : List Hint) (inlineSource : Option (Source handlers env)) :
    (Unnoticed client n req hints list inlineSource → Same client n req sheets hints inlineSource) ∧
      (others (candidates false client n req hints list inlineSource) =
          others (candidates true client n req hints list inlineSource) →
        (∀ p, (src p).specificity ≠ deferredSpecificity) →
        (Same client n req sheets hints inlineSource ↔ Unnoticed client n req hints list inlineSource)) := by
  have enough : Unnoticed client n req hints list inlineSource → Same client n req sheets hints inlineSource := by
    intro unnoticed
    refine (same_iff sourced).mpr fun p pseudo => ?_
    rw [yields_iff.mp unnoticed.deferred, yields_iff.mp unnoticed.inPlace, unnoticed.others]
  refine ⟨enough, fun alike ordinary => ⟨fun same => ?_, enough⟩⟩
  have deferred : ∀ c ∈ candidates false client n req hints list inlineSource, c.own = true →
      c.item.state.specificity = deferredSpecificity := fun c among mine => (own_deferred ordinary among mine).mpr rfl
  have inPlace : ∀ c ∈ candidates true client n req hints list inlineSource, c.own = true →
      c.item.state.specificity ≠ deferredSpecificity := fun c among mine => by simp [own_deferred ordinary among mine]
  have settled : ∀ p pseudo, _ := fun p pseudo => settled_of_equal alike deferred inPlace ((same_iff sourced).mp same p pseudo)
  exact ⟨alike, yields_iff.mpr fun p pseudo => (settled p pseudo).1, yields_iff.mpr fun p pseudo => (settled p pseudo).2⟩

theorem yields_of_lighter
    (lighter : ∀ m ∈ list, m.own = true → ∃ o ∈ list, o.own = false ∧ o.item.concerns m.item.property m.item.pseudo = true ∧ m.item.state.weight < o.item.state.weight) :
    Yields list := by
  intro p pseudo
  refine givesWay_of_lighter fun m among mine => ?_
  obtain ⟨listed, wanted⟩ := mem_filter.mp among
  obtain ⟨o, among', other, concerned, heavy⟩ := lighter m listed mine
  refine ⟨o, mem_filter.mpr ⟨among', ?_⟩, other, heavy⟩
  simp only [Item.concerns, Bool.and_eq_true, beq_iff_eq] at wanted concerned ⊢
  exact ⟨concerned.1.trans wanted.1, concerned.2.trans wanted.2⟩

/-- The handler of `float`, with its words as encodings. -/
def floatStyles : Handlers (List Encoding) := fun id ts =>
  (floatHandlers id ts).map fun (words, rest) => (words.map (⟨·, []⟩), rest)

/-- `float: var(--side)` in the sheet of `--side: left`. -/
def floatVar : VarDeclaration floatStyles sideLeft where
  vector := floatIdent :: colon :: varSide
  decl := ⟨lit "float", varSide, false⟩
  value := [⟨.ident, lit "left"⟩]
  deferred := by rfl
  substituted := by decide +kernel

/-- `p { float: var(--side) }` and `#x { float: right }`, with more tokens at the end. -/
def leftAndRight (more : List Token) (p : Bool) : CssSelector (Source floatStyles sideLeft) :=
  if p then ⟨.last (typed "p"), 1, ⟨0, some ⟨sideLeft.originSheet, [.compared floatVar]⟩, []⟩⟩
  else
    ⟨.last (identified "x"), 0x10000,
      ⟨1, some ⟨sideLeft.originSheet, [.other (floatIdent :: colon :: ⟨.ident, lit "right"⟩ :: more)]⟩, []⟩⟩

def twoFloats (more : List Token) : RuleSheet (leftAndRight more) where
  ops := [.insert true, .insert false]
  numbered := by
    intro p _ q _ same
    cases p <;> cases q <;> first | rfl | cases same

def floatSheet (more : List Token) : SelectSheet (leftAndRight more) where
  sheet := .rules (twoFloats more)
  origin := .author
  media := [⟨false, mediaAll, none⟩]

/-- With `var()`, the declaration of `p` wins against that of `#x`; its text in place loses. -/
theorem var_outranks_id : ¬ Same lone () rootOnScreen [floatSheet []] [] none := by
  intro same
  have float := congrArg (·.bind fun props => props .float .none) same
  simp only [Option.bind_map] at float
  have deferred : ((selected false lone () rootOnScreen [floatSheet []] [] none).bind fun state =>
      state.props .float .none) = some ⟨0x7fffffff, .author, false, .declared ⟨buildOPV 0x23 0 0, []⟩⟩ := by decide +kernel
  have inPlace : ((selected true lone () rootOnScreen [floatSheet []] [] none).bind fun state =>
      state.props .float .none) = some ⟨0x10000, .author, false, .declared ⟨buildOPV 0x23 0 1, []⟩⟩ := by decide +kernel
  cases deferred.symm.trans (float.trans inPlace)

/-- The tokens of `!important`. -/
def bang : List Token := [⟨.char, [ch '!']⟩, ⟨.ident, lit "important"⟩]

theorem var_in_place_of_important : Same lone () rootOnScreen [floatSheet bang] [] none := by
  refine (@var_cascades_in_place _ _ _ (leftAndRight bang) _ lone () rootOnScreen _ [floatSheet bang]
    [(.author, twoFloats bang)] rfl [] none).1 ⟨others_alike ?_ _ _ _, yields_of_lighter ?_, yields_of_lighter ?_⟩
  · intro p s given
    cases p <;> cases given <;> rfl
  · decide
  · decide

end Besra.InPlace
