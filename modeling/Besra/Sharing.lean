import Mathlib.Data.List.Induction
import Besra.Selection

/-!
Shared styles. `css_select_style` takes over the style of an earlier sibling that
looks the same (`css_select_style__get_sharable_node_data`): of the same name and
classes, without an id, hints or an inline style, in the same state, and not tainted
by a rule that asked for more than that.
-/
namespace Besra.Sharing
open Lwc Trail Dom Bytecode CustomProperties Selector MatchChain Merge List
  MqParse MqGrammar Bloom SelectorHash Cascade Selection

variable {ν : Type} {client : Client ν}

/-- The pseudo classes that are compared: the flags of CSS_NODE_FLAGS__PSEUDO_CLASSES_MASK. -/
structure PseudoClasses where
  active : Bool
  focus : Bool
  hover : Bool
  link : Bool
  visited : Bool
deriving DecidableEq

def pseudoClasses (client : Client ν) (n : ν) : PseudoClasses where
  active := client.nodeIsActive n
  focus := client.nodeIsFocus n
  hover := client.nodeIsHover n
  link := client.nodeIsLink n
  visited := client.nodeIsVisited n

def sameClasses (s t : List LwcString) : Bool := s.length == t.length && (s.zip t).all fun (a, b) => caselessIsEqual a b

/-- What a rule that does not taint can see of an element. -/
structure Alike (client : Client ν) (n k : ν) : Prop where
  parent : client.parent n = client.parent k
  name : caselessIsEqual (client.nodeName n).name (client.nodeName k).name = true
  hasName : ∀ q, client.nodeHasName n q = client.nodeHasName k q
  classes : sameClasses (client.nodeClasses n) (client.nodeClasses k) = true
  hasClass : ∀ c, client.nodeHasClass n c = client.nodeHasClass k c
  id : client.nodeId n = none
  id' : client.nodeId k = none
  hasId : ∀ i, client.nodeHasId n i = client.nodeHasId k i
  pseudo : pseudoClasses client n = pseudoClasses client k

variable {n k : ν}

theorem matchDetail_alike (alike : Alike client n k) {d : Detail} (clean : detailTaint d = {}) :
    matchDetail client n d = matchDetail client k d := by
  have pseudo := alike.pseudo
  simp only [pseudoClasses, PseudoClasses.mk.injEq] at pseudo
  obtain ⟨active, focus, hover, link, visited⟩ := pseudo
  rw [matchDetail, matchDetail]
  congr 1
  rcases kind : d.type with _ | _ | _ | _ | _ | _ | test <;> simp only [detailTaint, kind] at clean
  · simp only [matchPositive, kind, alike.hasName]
  · simp only [matchPositive, kind, alike.hasClass]
  · simp only [matchPositive, kind, alike.hasId]
  · have compared : d.qname.name ∈ comparedPseudoClasses := by simpa using clean
    simp only [comparedPseudoClasses, mem_cons, not_mem_nil, or_false] at compared
    rcases compared with name | name | name | name | name <;>
      simp [matchPositive, kind, matchPseudoClass, name, lit, ch, active, focus, hover, link, visited]
  · simp only [matchPositive, kind]
  · cases clean
  · cases clean

theorem union_eq_empty {s t : Taints} : s.union t = {} ↔ s = {} ∧ t = {} := by
  obtain ⟨a, b, c⟩ := s
  obtain ⟨d, e, f⟩ := t
  simp only [Taints.union, Taints.mk.injEq, Bool.or_eq_false_iff]
  tauto

theorem matchDetails_alike (alike : Alike client n k) {details : List Detail} {pseudo : PseudoElement}
    (clean : (matchDetails client k details pseudo).2.2 = {}) :
    matchDetails client n details pseudo = matchDetails client k details pseudo := by
  induction details generalizing pseudo with
  | nil => rfl
  | cons d rest ih =>
    rw [matchDetails] at clean
    split at clean
    · rename_i holds
      obtain ⟨own, others⟩ := union_eq_empty.mp clean
      rw [matchDetails, matchDetails, matchDetail_alike alike own, ih others]
    · rename_i fails
      rw [matchDetails, matchDetails, matchDetail_alike alike clean, if_neg fails, if_neg fails]

theorem ancestors_alike (same : client.parent n = client.parent k) : client.ancestors n = client.ancestors k := by
  change client.parents.next n = client.parents.next k at same
  rw [Doc.ancestors, Doc.ancestors]
  rcases linked : client.parents.next k with _ | p
  · rw [Links.trail_none (same.trans linked), Links.trail_none linked]
  · rw [Links.trail_some (same.trans linked), Links.trail_some linked]

theorem nextNode_alike (same : client.parent n = client.parent k) {comb : Combinator} (up : Combinator.isUp comb = true)
    (target : Compound) : nextNode client comb target n = nextNode client comb target k := by
  rw [nextNode_eq_nearest, nextNode_eq_nearest]
  cases comb with
  | ancestor => rw [nearest, nearest, ancestors_alike same]
  | parent => rw [nearest, nearest, same]
  | sibling => cases up
  | genericSibling => cases up

theorem matchCombinators_taints (cache : List Reject) (pseudo : PseudoElement) (taints : Taints) (chain : Chain)
    (m : ν) (mayOptimise : Bool) :
    (matchCombinators client cache pseudo taints chain m mayOptimise false).taints = taints := by
  induction chain generalizing taints m mayOptimise with
  | last => rfl
  | step c comb rest ih =>
    rw [matchCombinators]
    simp only [Bool.false_and, Bool.or_false]
    split
    · rfl
    · split
      · exact ih ..
      · rfl

theorem matchCombinators_first_taints (cache : List Reject) (pseudo : PseudoElement) (taints : Taints) (c : Compound)
    (comb : Combinator) (rest : Chain) (m : ν) (mayOptimise : Bool) :
    (matchCombinators client cache pseudo taints (.step c comb rest) m mayOptimise true).taints =
      { taints with sibling := taints.sibling || !Combinator.isUp comb } := by
  rw [matchCombinators]
  simp only [Bool.true_and]
  split
  · rfl
  · split
    · exact matchCombinators_taints ..
    · rfl

theorem matchSelectorChain_alike (alike : Alike client n k) {cache : List Reject} {chain : Chain}
    (clean : (matchSelectorChain client cache k chain).taints = {}) :
    matchSelectorChain client cache n chain = matchSelectorChain client cache k chain := by
  rcases details : matchDetails client k chain.head.details .none with ⟨matched, pseudo, taints⟩
  rw [matchSelectorChain, details] at clean
  dsimp only at clean
  have untainted : taints = {} := by
    split at clean
    · cases chain with
      | last => exact clean
      | step c comb rest =>
        rw [matchCombinators_first_taints] at clean
        simp only [Taints.mk.injEq, Bool.or_eq_false_iff] at clean
        obtain ⟨pseudoClass, attr, sibling, -⟩ := clean
        exact Taints.ext pseudoClass attr sibling
    · exact clean
  have same : matchDetails client n chain.head.details .none = matchDetails client k chain.head.details .none :=
    matchDetails_alike alike (by rw [details, untainted])
  rw [matchSelectorChain, matchSelectorChain, same, details]
  dsimp only
  split
  · rename_i holds
    rw [if_pos holds] at clean
    cases chain with
    | last => rfl
    | step c comb rest =>
      have up : Combinator.isUp comb = true := by
        rw [matchCombinators_first_taints] at clean
        simp only [Taints.mk.injEq, Bool.or_eq_false_iff] at clean
        simpa using clean.2.2.2
      rw [matchCombinators, matchCombinators, nextNode_alike alike.parent up]
  · rfl

theorem caselessIsEqual_congr {s t : LwcString} (same : caselessIsEqual s t = true) :
    caselessIsEqual s = caselessIsEqual t := by
  funext x
  rw [caselessIsEqual, caselessIsEqual, (caselessIsEqual_iff s t).mp same]

theorem chainGood_congr {q r : Qname} (same : caselessIsEqual q.name r.name = true) (c : Compound) :
    chainGoodForElementName c q = chainGoodForElementName c r := by
  rw [chainGoodForElementName, chainGoodForElementName, caselessIsEqual, caselessIsEqual,
    (caselessIsEqual_iff _ _).mp same]

theorem map_of_sameClasses {α : Type} {s t : List LwcString} {f g : LwcString → α} (same : sameClasses s t = true)
    (agree : ∀ a b, caselessIsEqual a b = true → f a = g b) : s.map f = t.map g := by
  induction s generalizing t with
  | nil =>
    cases t with
    | nil => rfl
    | cons => cases same
  | cons a s ih =>
    cases t with
    | nil => cases same
    | cons b t =>
      simp only [sameClasses, length_cons, zip_cons_cons, all_cons, Bool.and_eq_true, beq_iff_eq,
        Nat.add_right_cancel_iff] at same
      obtain ⟨length, first, others⟩ := same
      have rest : sameClasses s t = true := by
        rw [sameClasses, Bool.and_eq_true, beq_iff_eq]
        exact ⟨length, others⟩
      rw [map_cons, map_cons, agree a b first, ih rest]

variable {σ δ : Type} {heap : σ → CssSelector δ}

theorem visits_alike (alike : Alike client n k) (req : Requirements) (hash : CssSelectorHash σ) :
    visits heap client req hash n = visits heap client req hash k := by
  have classes : (client.nodeClasses n).map (selectorHashFindByClass heap req hash (client.nodeName n)) =
      (client.nodeClasses k).map (selectorHashFindByClass heap req hash (client.nodeName k)) := by
    refine map_of_sameClasses alike.classes fun a b same => ?_
    simp only [selectorHashFindByClass, slot_congr same, caselessIsEqual_congr same, chainGood_congr alike.name]
  have named : selectorHashFind heap req hash (client.nodeName n) = selectorHashFind heap req hash (client.nodeName k) := by
    simp only [selectorHashFind, slot_congr alike.name, caselessIsEqual_congr alike.name]
  simp only [visits, classes, named, alike.id, alike.id', Option.map_none]

theorem cascade_taints (state : SelectState) (encodings : List Encoding) :
    (encodings.foldl cascade state).taints = state.taints := by
  induction encodings generalizing state with
  | nil => rfl
  | cons e encodings ih =>
    rw [foldl_cons, ih, cascade]
    split
    · rfl
    · split
      · rw [setIfOutranks]
        split <;> rfl
      · rfl

variable {handlers : Handlers (List Encoding)} {env : Env}

theorem cascadeStyle_taints (style : Style) (state : SelectState) :
    (cascadeStyle handlers env style state).taints = state.taints := by
  rw [cascadeStyle, ← cascade_taints state style.encodings]
  generalize style.encodings.foldl cascade state = after
  induction style.deferred generalizing after with
  | nil => rfl
  | cons decl deferred ih =>
    rw [foldl_cons, ih, cascadeDeferred]
    split
    · rfl
    · exact cascade_taints ..

section
variable {heap : σ → CssSelector Style}

theorem matchRule_taints (state : SelectState) (p : σ) :
    (matchRule handlers env client k heap state p).taints =
      state.taints.union (matchSelectorChain client state.rejectCache k (heap p).chain).taints := by
  simp only [matchRule]
  split
  · exact cascadeStyle_taints ..
  · rfl

variable {state : SelectState} {list : List σ} {req : Requirements}

theorem matchRule_alike (alike : Alike client n k) {p : σ}
    (clean : (matchRule handlers env client k heap state p).taints = {}) :
    matchRule handlers env client n heap state p = matchRule handlers env client k heap state p := by
  rw [matchRule_taints] at clean
  simp only [matchRule, matchSelectorChain_alike alike (union_eq_empty.mp clean).2]

theorem rules_taints (clean : (list.foldl (matchRule handlers env client k heap) state).taints = {}) :
    state.taints = {} := by
  induction list generalizing state with
  | nil => exact clean
  | cons p list ih =>
    have next := ih clean
    rw [matchRule_taints] at next
    exact (union_eq_empty.mp next).1

theorem rules_alike (alike : Alike client n k)
    (clean : (list.foldl (matchRule handlers env client k heap) state).taints = {}) :
    list.foldl (matchRule handlers env client n heap) state =
      list.foldl (matchRule handlers env client k heap) state := by
  induction list generalizing state with
  | nil => rfl
  | cons p list ih =>
    rw [foldl_cons] at clean ⊢
    rw [matchRule_alike alike (rules_taints clean), ih clean]
    rfl

variable [DecidableEq σ]

theorem sheets_alike (alike : Alike client n k) {list : List (Origin × RuleSheet heap)}
    (clean : (list.foldl (matchSelectorsInSheet handlers env client k req) state).taints = {}) :
    list.foldl (matchSelectorsInSheet handlers env client n req) state =
      list.foldl (matchSelectorsInSheet handlers env client k req) state := by
  induction list using List.reverseRecOn with
  | nil => rfl
  | append_singleton list source ih =>
    simp only [foldl_append, foldl_cons, foldl_nil] at clean ⊢
    rw [matchSelectorsInSheet] at clean
    have before : (list.foldl (matchSelectorsInSheet handlers env client k req) state).taints = {} := by
      have entered := rules_taints clean
      exact entered
    have same : handed client n req source.2 = handed client k req source.2 := visits_alike alike ..
    rw [ih before, matchSelectorsInSheet, matchSelectorsInSheet, same]
    exact rules_alike alike clean

theorem selectStyle_alike (alike : Alike client n k) {sheets : List (SelectSheet heap)}
    (selected : selectStyle handlers env client k req sheets [] none = some state) (clean : state.taints = {}) :
    selectStyle handlers env client n req sheets [] none = some state := by
  obtain ⟨list, sourced, rfl⟩ := Option.map_eq_some_iff.mp selected
  rw [selectStyle, sourced, Option.map_some]
  exact congrArg some (sheets_alike alike clean)

end

/-- `css_select_results`, before the initial values: what is set, and which styles there are. -/
structure Partial where
  props : Property → PseudoElement → Option PropState
  created : PseudoElement → Bool

def partialOf (state : SelectState) : Partial := ⟨state.props, state.created⟩

/-- `css_node_data`: the flags, the filter for the children and the results. -/
structure NodeData where
  hasHints : Bool
  hasInlineStyle : Bool
  pseudo : PseudoClasses
  taints : Taints
  bloom : CssBloom
  partials : Partial

/-- An inline sheet: the style of its rule, if it has any, and its custom properties. -/
structure InlineSheet where
  style : Option Style
  customProperties : List Entry

/-- The sheets of a selection context and what the client gives for each element. -/
structure Context (ν : Type) {σ : Type} [DecidableEq σ] (heap : σ → CssSelector Style) where
  handlers : Handlers (List Encoding)
  env : Env
  media : Media
  sheets : List (SelectSheet heap)
  hints : ν → List Hint
  inlineSheet : ν → Option InlineSheet

variable {heap : σ → CssSelector Style} [DecidableEq σ] (ctx : Context ν heap) (client)

/-- `css_select_style` without sharing, with the filter of the parent. -/
def selectFresh (bloom : CssBloom) (n : ν) : Option SelectState :=
  selectStyle ctx.handlers { ctx.env with inlineSheet := (ctx.inlineSheet n).map (·.customProperties) } client n
    ⟨ctx.media, bloom⟩ ctx.sheets (ctx.hints n) ((ctx.inlineSheet n).bind (·.style))

/-- `css__set_node_data` -/
def nodeData (bloom : CssBloom) (n : ν) (taints : Taints) (partials : Partial) : NodeData where
  hasHints := !(ctx.hints n).isEmpty
  hasInlineStyle := (ctx.inlineSheet n).isSome
  pseudo := pseudoClasses client n
  taints := taints
  bloom := createNodeBloom client bloom n
  partials := partials

/-- The data that the client keeps for the elements. -/
abbrev Store (ν : Type) := ν → Option NodeData

/-- The data that `css__get_parent_bloom` makes for a parent without any: a filter with all bits set. -/
def placeholder : NodeData where
  hasHints := false
  hasInlineStyle := false
  pseudo := ⟨false, false, false, false, false⟩
  taints := {}
  bloom := fun _ => 0xffffffff
  partials := ⟨fun _ _ => none, fun _ => false⟩

/-- `css_select_style__get_sharable_node_data_for_candidate` -/
def sharableCandidate (store : Store ν) (n m : ν) : Option NodeData :=
  (store m).filter fun data =>
    data.hasHints == !(ctx.hints n).isEmpty && data.pseudo == pseudoClasses client n && data.taints == {} &&
      !data.hasInlineStyle && (client.nodeId m).isNone && sameClasses (client.nodeClasses n) (client.nodeClasses m) &&
      !data.hasHints

/-- `css_select_style__get_sharable_node_data`: the earlier siblings of the element's name, nearest first. -/
def sharableNodeData (store : Store ν) (n : ν) : Option NodeData :=
  if (client.nodeId n).isNone && (ctx.inlineSheet n).isNone then
    ((client.earlier n).filter (client.nodeHasName · (client.nodeName n))).findSome? (sharableCandidate client ctx store n)
  else none

def bloomFor (n : ν) : CssBloom := (client.ancestors n).foldr (fun p bloom => createNodeBloom client bloom p) init

/-- The step finds the parent's data, and no earlier sibling of the element's name has its classes but
for the letter case and is told apart by them. -/
structure Orderly (store : Store ν) (n : ν) : Prop where
  parent : ∀ p, client.parent n = some p → (store p).isSome = true
  classes : ∀ m ∈ client.earlier n, client.nodeHasName m (client.nodeName n) = true →
    sameClasses (client.nodeClasses n) (client.nodeClasses m) = true →
      ∀ c, client.nodeHasClass n c = client.nodeHasClass m c

/-- The names of elements are compared without letter case, and none is that of the universal selector. -/
structure PlainNames : Prop where
  proper : ∀ n, (client.nodeName n).name ≠ lit "*"
  hasName : ∀ n m, caselessIsEqual (client.nodeName n).name (client.nodeName m).name = true →
    ∀ q, client.nodeHasName n q = client.nodeHasName m q

/-- The data of every element is what a selection of its own would have left. -/
def Faithful (store : Store ν) : Prop :=
  ∀ k data, store k = some data → ∃ state, selectFresh client ctx (bloomFor client k) k = some state ∧
    data = nodeData client ctx (bloomFor client k) k state.taints (partialOf state)

variable {ctx client}

theorem bloomFor_alike (same : client.parent n = client.parent k) : bloomFor client n = bloomFor client k := by
  rw [bloomFor, bloomFor, ancestors_alike same]

variable {store : Store ν} {order : List ν}

theorem alike_of_candidate (consistent : Consistent client) (names : PlainNames client)
    (orderly : Orderly client store n) {m : ν} (earlier : m ∈ client.earlier n)
    (named : client.nodeHasName m (client.nodeName n) = true) (id : client.nodeId n = none)
    (id' : client.nodeId m = none) (classes : sameClasses (client.nodeClasses n) (client.nodeClasses m) = true)
    (pseudo : pseudoClasses client m = pseudoClasses client n) : Alike client n m where
  parent := (parent_of_siblings client (Links.mem_trail.mp earlier)).symm
  name := by
    have same := consistent.name m _ named (names.proper n)
    rw [caselessIsEqual_iff] at same ⊢
    exact same.symm
  hasName := by
    have same := consistent.name m _ named (names.proper n)
    exact fun q => (names.hasName m n same q).symm
  classes := classes
  hasClass := orderly.classes m earlier named classes
  id := id
  id' := id'
  hasId := by
    have never : ∀ k, client.nodeId k = none → ∀ i, client.nodeHasId k i = false := by
      intro k none_given i
      by_contra has
      obtain ⟨j, given, -⟩ := consistent.id k i (by simpa using has)
      simp [none_given] at given
    intro i
    rw [never n id, never m id']
  pseudo := pseudo.symm

theorem shared_fresh (consistent : Consistent client) (names : PlainNames client) (faithful : Faithful client ctx store)
    (orderly : Orderly client store n) {data : NodeData} (shared : sharableNodeData client ctx store n = some data) :
    ∃ state, selectFresh client ctx (bloomFor client n) n = some state ∧ state.taints = {} ∧
      data.partials = partialOf state := by
  rw [sharableNodeData] at shared
  split at shared
  · rename_i free
    simp only [Bool.and_eq_true, Option.isNone_iff_eq_none] at free
    obtain ⟨m, among, candidate⟩ := List.exists_of_findSome?_eq_some shared
    obtain ⟨earlier, named⟩ := mem_filter.mp among
    obtain ⟨stored, checked⟩ := Option.filter_eq_some_iff.mp candidate
    obtain ⟨state, selected, rfl⟩ := faithful m data stored
    simp only [nodeData, Bool.and_eq_true, beq_iff_eq, Bool.not_eq_true', Option.isNone_iff_eq_none,
      Option.isSome_eq_false_iff, Bool.not_eq_false', List.isEmpty_iff] at checked
    obtain ⟨⟨⟨⟨⟨⟨hints, pseudo⟩, clean⟩, inline⟩, id⟩, classes⟩, bare⟩ := checked
    have bare' : ctx.hints n = [] := by simpa [bare] using hints
    have alike := alike_of_candidate consistent names orderly earlier named free.1 id classes pseudo
    refine ⟨state, ?_, clean, rfl⟩
    rw [selectFresh, bare, inline] at selected
    rw [selectFresh, bare', free.2, bloomFor_alike alike.parent]
    exact selectStyle_alike alike selected clean
  · cases shared

variable (ctx client)

variable [DecidableEq ν]

/-- `css__get_parent_bloom`: the filter, and the store with what it makes for the parent. -/
def parentBloom (store : Store ν) (n : ν) : CssBloom × Store ν :=
  match client.parent n with
  | none => (init, store)
  | some p =>
    match store p with
    | some data => (data.bloom, store)
    | none => (placeholder.bloom, Function.update store p (some placeholder))

/-- `css_select_style`: the store after it, and the results unless it fails. -/
def selectShared (store : Store ν) (n : ν) : Store ν × Option Partial :=
  let (bloom, store) := parentBloom client store n
  match sharableNodeData client ctx store n with
  | some data => (Function.update store n (some (nodeData client ctx bloom n {} data.partials)), some data.partials)
  | none =>
    match selectFresh client ctx bloom n with
    | some state =>
      (Function.update store n (some (nodeData client ctx bloom n state.taints (partialOf state))), some (partialOf state))
    | none => (store, none)

def OrderlyRun : Store ν → List ν → Prop
  | _, [] => True
  | store, n :: rest => Orderly client store n ∧ OrderlyRun (selectShared client ctx store n).1 rest

def selections (store : Store ν) (order : List ν) : Store ν :=
  order.foldl (fun store n => (selectShared client ctx store n).1) store

variable {ctx client}

theorem parentBloom_eq (faithful : Faithful client ctx store) (orderly : Orderly client store n) :
    parentBloom client store n = (bloomFor client n, store) := by
  rcases linked : client.parent n with _ | p
  · have alone : client.ancestors n = [] := Links.trail_none (show client.parents.next n = none from linked)
    simp [parentBloom, linked, bloomFor, alone]
  · obtain ⟨data, stored⟩ := Option.isSome_iff_exists.mp (orderly.parent p linked)
    obtain ⟨state, -, rfl⟩ := faithful p data stored
    have further : client.ancestors n = p :: client.ancestors p :=
      Links.trail_some (show client.parents.next n = some p from linked)
    simp [parentBloom, linked, stored, nodeData, bloomFor, further]

theorem faithful_step (consistent : Consistent client) (names : PlainNames client)
    (faithful : Faithful client ctx store) (orderly : Orderly client store n) :
    Faithful client ctx (selectShared client ctx store n).1 ∧
      (selectShared client ctx store n).2 = (selectFresh client ctx (bloomFor client n) n).map partialOf := by
  have kept : ∀ state, selectFresh client ctx (bloomFor client n) n = some state →
      Faithful client ctx
        (Function.update store n (some (nodeData client ctx (bloomFor client n) n state.taints (partialOf state)))) := by
    intro state selected k data stored
    by_cases here : k = n
    · subst here
      rw [Function.update_self] at stored
      cases stored
      exact ⟨state, selected, rfl⟩
    · rw [Function.update_of_ne here] at stored
      exact faithful k data stored
  rw [selectShared, parentBloom_eq faithful orderly]
  dsimp only
  rcases shared : sharableNodeData client ctx store n with _ | data
  · rcases selected : selectFresh client ctx (bloomFor client n) n with _ | state
    · exact ⟨faithful, rfl⟩
    · exact ⟨kept state selected, rfl⟩
  · obtain ⟨state, selected, clean, same⟩ := shared_fresh consistent names faithful orderly shared
    have faithful' := kept state selected
    rw [clean, ← same] at faithful'
    refine ⟨faithful', ?_⟩
    change some data.partials = _
    rw [selected, same, Option.map_some]

theorem faithful_run (consistent : Consistent client) (names : PlainNames client) (faithful : Faithful client ctx store)
    (orderly : OrderlyRun client ctx store order) : Faithful client ctx (selections client ctx store order) := by
  induction order generalizing store with
  | nil => exact faithful
  | cons n order ih => exact ih (faithful_step consistent names faithful orderly.1).1 orderly.2

/-- After any orderly run, an orderly selection gives what the path without sharing would give. -/
theorem sharing_invisible (consistent : Consistent client) (names : PlainNames client)
    (orderly : OrderlyRun client ctx (fun _ => none) order)
    (next : Orderly client (selections client ctx (fun _ => none) order) n) :
    (selectShared client ctx (selections client ctx (fun _ => none) order) n).2 =
      (selectFresh client ctx (parentBloom client (selections client ctx (fun _ => none) order) n).1 n).map partialOf := by
  have start : Faithful client ctx (fun _ => none) := by
    intro k data stored
    cases stored
  have faithful := faithful_run consistent names start orderly
  rw [(faithful_step consistent names faithful next).2, parentBloom_eq faithful next]

/-- A `div` and its two paragraphs. -/
inductive Family where
  | div
  | first
  | second
deriving DecidableEq

def classesOf (class_ : String) : Family → List LwcString
  | .first => [lit class_]
  | .second => [lit "a"]
  | _ => []

def namesOf : Family → LwcString
  | .div => lit "div"
  | _ => lit "p"

/-- The document of these elements, where the first paragraph is of the given class. It is not in quirks
mode. -/
def twins (class_ : String) : Client Family where
  parent
    | .div => none
    | _ => some .div
  previous n := if n = .second then some .first else none
  order
    | .div => 0
    | .first => 1
    | .second => 2
  parent_lt := by
    intro n m linked
    cases n <;> cases linked <;> decide
  previous_lt := by
    intro n m linked
    cases n <;> cases linked
    decide
  previous_parent := by
    intro n m linked
    cases n <;> cases linked
    rfl
  nodeName n := ⟨none, namesOf n⟩
  nodeClasses n := classesOf class_ n
  nodeId _ := none
  nodeHasName n q := caselessIsEqual (namesOf n) q.name
  nodeHasClass n c := (classesOf class_ n).contains c
  nodeHasId _ _ := false
  nodeHasAttribute _ _ := false
  nodeHasAttributeValue _ _ _ _ := false
  nodeIsRoot n := n == .div
  nodeCountSiblings n _ after := if n = .first ∧ after = true ∨ n = .second ∧ after = false then 1 else 0
  nodeIsEmpty n := n != .div
  nodeIsLink _ := false
  nodeIsVisited _ := false
  nodeIsHover _ := false
  nodeIsActive _ := false
  nodeIsFocus _ := false
  nodeIsEnabled _ := false
  nodeIsDisabled _ := false
  nodeIsChecked _ := false
  nodeIsTarget _ := false
  nodeIsLang _ _ := false

theorem twins_consistent (first : String) : Consistent (twins first) where
  name n q has _ := has
  cls n c has := ⟨c, by simpa [twins] using has, caselessIsEqual_refl c⟩
  id n i has := by simp [twins] at has

theorem twins_names (first : String) : PlainNames (twins first) where
  proper n := by
    cases n <;> simp only [twins, namesOf] <;> decide
  hasName n m same q := congrFun (caselessIsEqual_congr same) q.name

/-- `.a { color: #ff0000 }` -/
def classRule (_ : Unit) : CssSelector Style where
  chain := .last ⟨⟨none, lit "*"⟩, [⟨.cls, ⟨none, lit "a"⟩, [], 0, 0, false⟩], by simp⟩
  specificity := 0x100
  rule := ⟨0, some ⟨[⟨buildOPV 0x18 0 0x80, [0xff0000]⟩], [], []⟩, []⟩

def oneSheet : Context Family classRule where
  handlers := fun _ _ => none
  env := ⟨[], [], none, []⟩
  media := screen
  sheets := [⟨.rules ⟨[.insert ()], by simp⟩, .author, [⟨false, mediaAll, none⟩], false⟩]
  hints _ := []
  inlineSheet _ := none

/-- The paragraph of the class `a` takes over the style of the one of the class `A`, which has no color. -/
theorem case_ignored :
    ¬ (selectShared (twins "A") oneSheet (selections (twins "A") oneSheet (fun _ => none) [.div, .first]) .second).2 =
      (selectFresh (twins "A") oneSheet
        (parentBloom (twins "A") (selections (twins "A") oneSheet (fun _ => none) [.div, .first]) .second).1 .second).map partialOf := by
  intro same
  have color := congrArg (fun results => results.map fun results => results.props .color .none) same
  have shared : ((selectShared (twins "A") oneSheet (selections (twins "A") oneSheet (fun _ => none) [.div, .first]) .second).2.map
      fun results => results.props .color .none) = some none := by
    decide
  rw [shared] at color
  revert color
  decide

theorem sharing_invisible_of_twins :
    (selectShared (twins "a") oneSheet (selections (twins "a") oneSheet (fun _ => none) [.div, .first]) .second).2 =
      (selectFresh (twins "a") oneSheet
        (parentBloom (twins "a") (selections (twins "a") oneSheet (fun _ => none) [.div, .first]) .second).1 .second).map partialOf := by
  refine sharing_invisible (twins_consistent "a") (twins_names "a") ⟨⟨?_, ?_⟩, ⟨?_, ?_⟩, trivial⟩ ⟨?_, ?_⟩
  · decide
  · simp [show (twins "a").earlier .div = [] from rfl]
  · decide
  · simp [show (twins "a").earlier .first = [] from rfl]
  · decide
  · intro m among named same c
    have before : (twins "a").earlier .second = [.first] := by decide
    rw [before, mem_singleton] at among
    subst among
    rfl

end Besra.Sharing
