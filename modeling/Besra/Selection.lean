import Besra.Cascade

/-!
`css_select_style` from the hints to the inline style, without the sharing of styles
and the initial values: the sheets of the context in their order, each after the
sheets it imports, and the rules of a sheet from the least specific on.
-/
namespace Besra.Selection
open Lwc Dom Bytecode CustomProperties Selector MatchChain Merge
  MqParse MqGrammar SelectorHash Cascade

variable {σ δ : Type} [DecidableEq σ] {heap : σ → CssSelector δ}

/-- The rules of a sheet, as the calls that made its hash. `css__stylesheet_add_rule` gives every rule
a number of its own. -/
structure RuleSheet (heap : σ → CssSelector δ) where
  ops : List (Op σ)
  numbered : ∀ p ∈ contents [] ops, ∀ q ∈ contents [] ops,
    (heap p).rule.index = (heap q).rule.index → (heap p).rule = (heap q).rule

/-- `css_stylesheet` from its first rule that is no charset on: the imports, and the rules behind them. -/
inductive Sheet (heap : σ → CssSelector δ) where
  | rules (own : RuleSheet heap)
  | imports (media : List Query) (sheet : Option (Sheet heap)) (rest : Sheet heap)

/-- `css_select_sheet` -/
structure SelectSheet (heap : σ → CssSelector δ) where
  sheet : Sheet heap
  origin : Origin
  media : List Query
  disabled : Bool := false

/-- The sheets in the order in which `select_from_sheet` matches their selectors, with room for so
many imports on the stack. -/
def processed (media : Media) : Nat → Sheet heap → Option (List (RuleSheet heap))
  | _, .rules own => some [own]
  | room, .imports _ none rest => processed media room rest
  | room, .imports queries (some sheet) rest =>
    if mqListMatch media queries = some true then
      if room = 0 then none
      else do
        let imported ← processed media (room - 1) sheet
        let others ← processed media room rest
        return imported ++ others
    else processed media room rest

/-- The sheets that the loop of `css_select_style` matches selectors in, with their origins. -/
def sources (media : Media) : List (SelectSheet heap) → Option (List (Origin × RuleSheet heap))
  | [] => some []
  | s :: rest => do
    let own ← if mqListMatch media s.media = some true ∧ s.disabled = false then processed media 256 s.sheet else some []
    let others ← sources media rest
    return own.map (s.origin, ·) ++ others

variable {ν : Type} (handlers : Handlers (List Encoding)) (env : Env) (client : Client ν) (n : ν) (req : Requirements)

/-- The selectors of a sheet that are handed to the matching. -/
def handed (own : RuleSheet heap) : List σ := visits heap client req (run heap selectorHashCreate own.ops) n

variable {heap : σ → CssSelector Style}

/-- `match_selector_chain` with the cascade of the rule that it matches. -/
def matchRule (heap : σ → CssSelector Style) (state : SelectState) (p : σ) : SelectState :=
  let attempt := matchSelectorChain client state.rejectCache n (heap p).chain
  let state := { state with rejectCache := attempt.cache, taints := state.taints.union attempt.taints }
  match attempt.pseudo, (heap p).rule.style with
  | some pseudo, some style =>
    cascadeStyle handlers env style
      { state with
        currentSpecificity := (heap p).specificity
        currentPseudo := pseudo
        created := fun other => other == pseudo || state.created other }
  | _, _ => state

/-- `match_selectors_in_sheet`, after the origin is set. -/
def matchSelectorsInSheet (state : SelectState) (source : Origin × RuleSheet heap) : SelectState :=
  (handed client n req source.2).foldl (matchRule handlers env client n heap) { state with currentOrigin := source.1 }

def selectFromSheets (hints : List Hint) (list : List (Origin × RuleSheet heap)) : SelectState :=
  list.foldl (matchSelectorsInSheet handlers env client n req) (hints.foldl setHint {})

def cascadeInline (inlineStyle : Option Style) (state : SelectState) : SelectState :=
  match inlineStyle with
  | none => state
  | some style => cascadeStyle handlers env style { state with currentPseudo := .none }

/-- `css_select_style`; without a value where the stack of imports runs out. -/
def selectStyle (sheets : List (SelectSheet heap)) (hints : List Hint) (inlineStyle : Option Style) :
    Option SelectState :=
  (sources req.media sheets).map fun list =>
    cascadeInline handlers env inlineStyle (selectFromSheets handlers env client n req hints list)

variable {client n req}

theorem stores_rules (own : RuleSheet heap) :
    Stores heap (run heap selectorHashCreate own.ops) (contents [] own.ops) := by
  have empty : Stores heap (selectorHashCreate : CssSelectorHash σ) [] :=
    ⟨fun _ => .refl _, fun _ => List.Pairwise.nil⟩
  exact stores_run heap empty own.ops

theorem mem_handed {own : RuleSheet heap} {p : σ} (among : p ∈ handed client n req own) : p ∈ contents [] own.ops :=
  mem_of_visited (stores_rules own) among

theorem handed_ascending (own : RuleSheet heap) : Ascending (chainLt heap) (handed client n req own) :=
  visits_ascending (stores_rules own)

end Besra.Selection
