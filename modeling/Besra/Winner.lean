import Mathlib.Data.List.Induction
import Mathlib.Order.WithBot
import Besra.LastMax
import Besra.Selection

/-!
The winner of the cascade. What is set for a property at the end of
`css_select_style` is compared with the greatest of all the declarations that apply:
by origin and importance, then by specificity, where the inline style is the
author's and more specific than any selector, and then by position.
-/
namespace Besra.Winner
open Lwc Dom Bytecode CustomProperties Selector MatchChain Merge
  MqParse MqGrammar SelectorHash Cascade Selection LastMax
open List (mem_map pairwise_append mem_append mem_cons mem_filter flatMap_append mem_flatMap foldl_map foldl_cons
  foldl_append)
open Option (map_eq_some_iff mem_toList)

/-- The declarations that are cascaded together: the hints, a matched rule or the inline style, with
what the code gives them and with their place: a sheet and a rule in it. -/
structure Block where
  origin : Origin
  specificity : Nat
  pseudo : PseudoElement
  inline : Bool
  sheet : Nat
  rule : Nat
  settings : List (Property × Bool × Setting)

structure Applied where
  block : Block
  property : Property
  important : Bool
  setting : Setting
  decl : Nat

def applied (b : Block) : List Applied :=
  b.settings.zipIdx.map fun (s, decl) => ⟨b, s.1, s.2.1, s.2.2, decl⟩

def weight (a : Applied) : ℕ ×ₗ ℕ := toLex (rank a.block.origin a.important, a.block.specificity)

/-- What is documented: the inline style is the author's and more specific than any selector. -/
def documented (a : Applied) : ℕ ×ₗ WithTop ℕ :=
  if a.block.inline then toLex (rank .author a.important, ⊤)
  else toLex (rank a.block.origin a.important, (a.block.specificity : WithTop ℕ))

def position (a : Applied) : ℕ ×ₗ ℕ ×ₗ ℕ := toLex (a.block.sheet, toLex (a.block.rule, a.decl))

def key (a : Applied) : (ℕ ×ₗ WithTop ℕ) ×ₗ (ℕ ×ₗ ℕ ×ₗ ℕ) := toLex (documented a, position a)

def concerns (p : Property) (pseudo : PseudoElement) (a : Applied) : Bool := a.property == p && a.block.pseudo == pseudo

variable {a m : Applied} {b : Block} {f : Applied → Bool} {p : Property} {pseudo : PseudoElement}
  {state : SelectState} {number : Nat} {origin : Origin} {cache : List Reject}

theorem block_of_applied (among : a ∈ applied b) : a.block = b := by
  obtain ⟨⟨s, decl⟩, -, rfl⟩ := mem_map.mp among
  rfl

theorem mem_applied :
    a ∈ applied b ↔ a.block = b ∧ b.settings[a.decl]? = some (a.property, a.important, a.setting) := by
  constructor
  · intro among
    obtain ⟨⟨s, decl⟩, member, rfl⟩ := mem_map.mp among
    exact ⟨rfl, List.mem_zipIdx_iff_getElem?.mp member⟩
  · rintro ⟨rfl, found⟩
    exact mem_map.mpr ⟨((a.property, a.important, a.setting), a.decl), List.mem_zipIdx_iff_getElem?.mpr found, rfl⟩

theorem applied_ordered (b : Block) : (applied b).Pairwise fun a c => a.decl < c.decl := by
  have numbers : (b.settings.zipIdx.map Prod.snd).Pairwise (· < ·) := by
    rw [List.zipIdx_map_snd]
    exact List.pairwise_lt_range'
  exact List.pairwise_map.mpr (List.pairwise_map.mp numbers)

theorem decl_le_of_last {β : Type} [LinearOrder β] {w : Applied → β} (last : LastHeaviest w ((applied b).filter f) m)
    (among : a ∈ (applied b).filter f) (same : w a = w m) : a.decl ≤ m.decl := by
  obtain ⟨before, after, split, -, back⟩ := last
  have ordered := (applied_ordered b).filter f
  rw [split] at among ordered
  obtain ⟨-, -, across⟩ := pairwise_append.mp ordered
  rcases mem_append.mp among with first | rest
  · exact (across a first m (by simp)).le
  · rcases mem_cons.mp rest with rfl | later
    · exact le_refl _
    · exact absurd same (back a later).ne

/-- A block comes after another: in a later sheet, or in the same sheet by specificity and rule. The
same rule comes twice when two of its selectors match. -/
def Follows (b c : Block) : Prop :=
  b.sheet < c.sheet ∨
    (b.sheet = c.sheet ∧ b.inline = false ∧ c.inline = false ∧
      (b.specificity = c.specificity →
        b.rule < c.rule ∨ (b.rule = c.rule ∧ b.origin = c.origin ∧ b.settings = c.settings)))

theorem position_le (same : a.block = m.block) (order : a.decl ≤ m.decl) : position a ≤ position m := by
  rw [position, position, same, Prod.Lex.toLex_le_toLex, Prod.Lex.toLex_le_toLex]
  exact .inr ⟨rfl, .inr ⟨rfl, order⟩⟩

theorem position_le_of_follows (filter : f = concerns p pseudo) (follows : Follows a.block b)
    (inside : a ∈ applied a.block) (wanted : f a = true) (last : LastHeaviest documented ((applied b).filter f) m)
    (same : documented a = documented m) : position a ≤ position m := by
  obtain ⟨member, fits⟩ := mem_filter.mp last.mem
  have own := block_of_applied member
  subst filter
  simp only [concerns, Bool.and_eq_true, beq_iff_eq] at wanted fits
  rw [position, position, Prod.Lex.toLex_le_toLex, Prod.Lex.toLex_le_toLex, own]
  rcases follows with later | ⟨sheet, plain, plain', ordered⟩
  · exact .inl later
  · have weighed := same
    simp only [documented, plain, own, plain', Bool.false_eq_true, if_false, EmbeddingLike.apply_eq_iff_eq,
      Prod.mk.injEq] at weighed
    have specificity : a.block.specificity = b.specificity := by exact_mod_cast weighed.2
    rcases ordered specificity with before | ⟨rule, origin, settings⟩
    · exact .inr ⟨sheet, .inl before⟩
    · -- the declaration is in the later block as well, and so no later there than the last of its equals
      refine .inr ⟨sheet, .inr ⟨rule, ?_⟩⟩
      let again : Applied := ⟨b, a.property, a.important, a.setting, a.decl⟩
      have there : again ∈ applied b := by
        obtain ⟨-, found⟩ := mem_applied.mp inside
        exact mem_applied.mpr ⟨rfl, settings ▸ found⟩
      have equal : documented again = documented m := by
        rw [← same]
        simp [documented, again, plain, plain', origin, specificity]
      have fitting : concerns p pseudo again = true := by
        simp [concerns, again, wanted.1, ← own, fits.2]
      exact decl_le_of_last (a := again) last (mem_filter.mpr ⟨there, fitting⟩) equal

theorem greatest {blocks : List Block} (ordered : blocks.Pairwise Follows)
    (held : hold (heavier documented) none ((blocks.flatMap applied).filter (concerns p pseudo)) = some m) :
    m ∈ (blocks.flatMap applied).filter (concerns p pseudo) ∧
      ∀ a ∈ (blocks.flatMap applied).filter (concerns p pseudo), key a ≤ key m := by
  refine ⟨(hold_none_spec held).mem, ?_⟩
  induction blocks using List.reverseRecOn generalizing m with
  | nil => simp
  | append_singleton blocks b ih =>
    obtain ⟨before, -, across⟩ := pairwise_append.mp ordered
    have inner : ∀ {m}, LastHeaviest documented ((applied b).filter (concerns p pseudo)) m →
        ∀ a ∈ (applied b).filter (concerns p pseudo), key a ≤ key m := by
      intro m last a among
      rw [key, key, Prod.Lex.toLex_le_toLex]
      rcases (last.le among).lt_or_eq with less | same
      · exact .inl less
      · have both := (block_of_applied (List.mem_of_mem_filter among)).trans
          (block_of_applied (List.mem_of_mem_filter last.mem)).symm
        exact .inr ⟨same, position_le both (decl_le_of_last last among same)⟩
    rw [flatMap_append, List.filter_append, List.flatMap_singleton, hold_append] at held
    intro a among
    rw [flatMap_append, List.filter_append, List.flatMap_singleton] at among
    rcases earlier : hold (heavier documented) none ((blocks.flatMap applied).filter (concerns p pseudo)) with _ | v
    · rw [hold_none.mp earlier, List.nil_append] at among
      rw [earlier] at held
      exact inner (hold_none_spec held) a among
    · rw [earlier] at held
      have past := ih before earlier
      rcases hold_some_spec held with ⟨rfl, lighter⟩ | ⟨grows, last⟩
      · rcases mem_append.mp among with old | new
        · exact past a old
        · exact (Prod.Lex.toLex_le_toLex.mpr (.inl (lighter a new)))
      · rcases mem_append.mp among with old | new
        · have below : documented a ≤ documented v := by
            have under := past a old
            rw [key, key, Prod.Lex.toLex_le_toLex] at under
            rcases under with less | ⟨same, -⟩
            · exact less.le
            · exact same.le
          rw [key, key, Prod.Lex.toLex_le_toLex]
          rcases (below.trans grows).lt_or_eq with less | same
          · exact .inl less
          · obtain ⟨member, wanted⟩ := mem_filter.mp old
            obtain ⟨c, listed, inside⟩ := mem_flatMap.mp member
            obtain rfl := block_of_applied inside
            exact .inr ⟨same, position_le_of_follows rfl (across _ listed b (by simp)) inside wanted last same⟩
        · exact inner last a new

def stateOf (a : Applied) : PropState := ⟨a.block.specificity, a.block.origin, a.important, a.setting⟩

/-- A declaration set where it outranks what is set. -/
def place (props : Property → PseudoElement → Option PropState) (a : Applied) :
    Property → PseudoElement → Option PropState :=
  if outranksExisting (props a.property a.block.pseudo) a.block.origin a.block.specificity a.important then
    setProp props a.property a.block.pseudo (stateOf a)
  else props

def asItem (a : Applied) : Item := ⟨a.property, a.block.pseudo, stateOf a⟩

theorem place_hold {list : List Applied} {props : Property → PseudoElement → Option PropState}
    {holder : Option Applied} (start : props p pseudo = holder.map stateOf) :
    list.foldl place props p pseudo = (hold (heavier weight) holder (list.filter (concerns p pseudo))).map stateOf := by
  have placed : list.foldl place props = (list.map asItem).foldl put props := by
    rw [foldl_map]
    rfl
  rw [placed, put_hold, start, List.filter_map, List.map_map]
  exact hold_map

def settingsOf (style : Style) : List (Property × Bool × Setting) :=
  style.encodings.filterMap fun e => (propertyOf e.opv).map fun p => (p, isImportant e.opv, .declared e)

/-- The cascade function does not pass over the declaration. -/
def isRecorded (s : Property × Bool × Setting) : Bool :=
  match s.2.2 with
  | .declared e => records s.1 e.opv
  | .hinted _ => true

/-- A setting placed, as `place` does with a declaration of a block. -/
def placeSetting (b : Block) (props : Property → PseudoElement → Option PropState) (s : Property × Bool × Setting) :
    Property → PseudoElement → Option PropState :=
  place props ⟨b, s.1, s.2.1, s.2.2, 0⟩

theorem applied_fold (b : Block) (props : Property → PseudoElement → Option PropState) :
    (applied b).foldl place props = b.settings.foldl (placeSetting b) props := by
  have same : b.settings.zipIdx.map Prod.fst = b.settings := List.zipIdx_map_fst ..
  rw [applied, foldl_map]
  conv_rhs => rw [← same, foldl_map]
  rfl

theorem cascade_fold {encodings : List Encoding} (origin : b.origin = state.currentOrigin)
    (specificity : b.specificity = state.currentSpecificity) (pseudo : b.pseudo = state.currentPseudo)
    (recorded : ∀ s ∈ settingsOf ⟨encodings, [], []⟩, isRecorded s = true) :
    encodings.foldl cascade state =
      { state with props := (settingsOf ⟨encodings, [], []⟩).foldl (placeSetting b) state.props } := by
  have items : encodings.filterMap (itemOf state.occasion) =
      (settingsOf ⟨encodings, [], []⟩).map fun s => asItem ⟨b, s.1, s.2.1, s.2.2, 0⟩ := by
    rw [settingsOf, List.map_filterMap]
    refine List.filterMap_congr fun e among => ?_
    rcases found : propertyOf e.opv with _ | p
    · simp [itemOf, found]
    · have kept : records p e.opv = true :=
        recorded (p, isImportant e.opv, .declared e) (List.mem_filterMap.mpr ⟨e, among, by simp [found]⟩)
      simp [itemOf, found, kept, asItem, stateOf, SelectState.occasion, origin, specificity, pseudo]
  rw [cascade_items, items, foldl_map]
  rfl

theorem cascadeStyle_block {handlers : Handlers (List Encoding)} {env : Env} {style : Style}
    (direct : style.deferred = []) (origin : b.origin = state.currentOrigin)
    (specificity : b.specificity = state.currentSpecificity) (pseudo : b.pseudo = state.currentPseudo)
    (settings : b.settings = settingsOf style) (recorded : ∀ s ∈ b.settings, isRecorded s = true) :
    cascadeStyle handlers env style state = { state with props := (applied b).foldl place state.props } := by
  rw [settings] at recorded
  rw [cascadeStyle, direct, List.foldl_nil, applied_fold, settings]
  exact cascade_fold origin specificity pseudo recorded

variable {σ : Type} {heap : σ → CssSelector Style} {ν : Type} {handlers : Handlers (List Encoding)}
  {env : Env} {client : Client ν} {n : ν} {req : Requirements}

def hintBlock (hints : List Hint) : Block where
  origin := .author
  specificity := 0
  pseudo := .none
  inline := false
  sheet := 0
  rule := 0
  settings := hints.map fun hint => (hint.prop, false, .hinted hint)

def ruleBlock (heap : σ → CssSelector Style) (sheet : Nat) (origin : Origin) (p : σ) (pseudo : PseudoElement) : Block where
  origin := origin
  specificity := (heap p).specificity
  pseudo := pseudo
  inline := false
  sheet := sheet
  rule := (heap p).rule.index
  settings := ((heap p).rule.style.map settingsOf).getD []

def sheetBlocks (heap : σ → CssSelector Style) (client : Client ν) (n : ν) (sheet : Nat) (origin : Origin) :
    List Reject → List σ → List Block
  | _, [] => []
  | cache, p :: rest =>
    let attempt := matchSelectorChain client cache n (heap p).chain
    (attempt.pseudo.map (ruleBlock heap sheet origin p)).toList ++ sheetBlocks heap client n sheet origin attempt.cache rest

def sheetCache (heap : σ → CssSelector Style) (client : Client ν) (n : ν) (cache : List Reject) (list : List σ) :
    List Reject :=
  list.foldl (fun cache p => (matchSelectorChain client cache n (heap p).chain).cache) cache

def inlineBlock (state : SelectState) (number : Nat) (style : Style) : Block where
  origin := state.currentOrigin
  specificity := state.currentSpecificity
  pseudo := .none
  inline := true
  sheet := number
  rule := 0
  settings := settingsOf style

variable {list : List σ}

theorem matchRule_block (direct : ∀ p style, (heap p).rule.style = some style → style.deferred = []) {p : σ}
    (recorded : ∀ b ∈ ((matchSelectorChain client state.rejectCache n (heap p).chain).pseudo.map (ruleBlock heap number state.currentOrigin p)).toList, ∀ s ∈ b.settings, isRecorded s = true) :
    (matchRule handlers env client n heap state p).props =
        (((matchSelectorChain client state.rejectCache n (heap p).chain).pseudo.map
          (ruleBlock heap number state.currentOrigin p)).toList.flatMap applied).foldl place state.props ∧
      (matchRule handlers env client n heap state p).rejectCache =
        (matchSelectorChain client state.rejectCache n (heap p).chain).cache ∧
      (matchRule handlers env client n heap state p).currentOrigin = state.currentOrigin := by
  rcases matched : (matchSelectorChain client state.rejectCache n (heap p).chain).pseudo with _ | pseudo
  · simp [matchRule, matched]
  · rcases given : (heap p).rule.style with _ | style
    · simp [matchRule, matched, given, ruleBlock, applied]
    · rw [matched] at recorded
      have settings : (ruleBlock heap number state.currentOrigin p pseudo).settings = settingsOf style := by
        simp [ruleBlock, given]
      let entered : SelectState :=
        { state with
          rejectCache := (matchSelectorChain client state.rejectCache n (heap p).chain).cache
          taints := state.taints.union (matchSelectorChain client state.rejectCache n (heap p).chain).taints
          currentSpecificity := (heap p).specificity
          currentPseudo := pseudo
          created := fun other => other == pseudo || state.created other }
      have cascaded : cascadeStyle handlers env style entered = { entered with
          props := (applied (ruleBlock heap number state.currentOrigin p pseudo)).foldl place entered.props } :=
        cascadeStyle_block (direct p style given) rfl rfl rfl settings (recorded _ (by simp))
      have done : matchRule handlers env client n heap state p = { entered with
          props := (applied (ruleBlock heap number state.currentOrigin p pseudo)).foldl place entered.props } := by
        simp only [matchRule, matched, given]
        exact cascaded
      rw [done]
      simp [entered]

theorem sheet_fold (direct : ∀ p style, (heap p).rule.style = some style → style.deferred = []) {number : Nat}
    {list : List σ} {state : SelectState}
    (recorded : ∀ b ∈ sheetBlocks heap client n number state.currentOrigin state.rejectCache list,
      ∀ s ∈ b.settings, isRecorded s = true) :
    (list.foldl (matchRule handlers env client n heap) state).props =
        ((sheetBlocks heap client n number state.currentOrigin state.rejectCache list).flatMap applied).foldl place
          state.props ∧
      (list.foldl (matchRule handlers env client n heap) state).rejectCache =
        sheetCache heap client n state.rejectCache list := by
  induction list generalizing state with
  | nil => exact ⟨rfl, rfl⟩
  | cons p list ih =>
    rw [sheetBlocks] at recorded ⊢
    obtain ⟨props, cache, origin⟩ := matchRule_block (n := n) direct
      fun b among => recorded b (List.mem_append_left _ among)
    rw [foldl_cons, flatMap_append, foldl_append, ← props, sheetCache, foldl_cons, ← cache, ← origin]
    apply ih
    rw [cache, origin]
    exact fun b among => recorded b (List.mem_append_right _ among)

theorem mem_sheetBlocks (among : b ∈ sheetBlocks heap client n number origin cache list) :
    ∃ p ∈ list, ∃ pseudo, b = ruleBlock heap number origin p pseudo := by
  induction list generalizing cache with
  | nil => cases among
  | cons p list ih =>
    rcases mem_append.mp among with here | later
    · obtain ⟨pseudo, -, rfl⟩ := map_eq_some_iff.mp (mem_toList.mp here)
      exact ⟨p, by simp, pseudo, rfl⟩
    · obtain ⟨q, member, pseudo, rfl⟩ := ih later
      exact ⟨q, by simp [member], pseudo, rfl⟩

theorem follows_of_ascending {p q : σ} {pseudo' : PseudoElement} (ascending : chainLt heap q p = false)
    (numbered : (heap p).rule.index = (heap q).rule.index → (heap p).rule = (heap q).rule) :
    Follows (ruleBlock heap number origin p pseudo) (ruleBlock heap number origin q pseudo') := by
  refine .inr ⟨rfl, rfl, rfl, fun specificity => ?_⟩
  rw [← Bool.not_eq_true, chainLt, lessSpecific_iff] at ascending
  change (heap p).specificity = (heap q).specificity at specificity
  rcases Nat.lt_or_ge (heap p).rule.index (heap q).rule.index with less | greater
  · exact .inl less
  · have same : (heap p).rule.index = (heap q).rule.index := by omega
    exact .inr ⟨same, rfl, by simp only [ruleBlock, numbered same]⟩

theorem sheetBlocks_ordered (ascending : Ascending (chainLt heap) list)
    (numbered : ∀ p ∈ list, ∀ q ∈ list, (heap p).rule.index = (heap q).rule.index → (heap p).rule = (heap q).rule) :
    (sheetBlocks heap client n number origin cache list).Pairwise Follows := by
  induction list generalizing cache with
  | nil => exact List.Pairwise.nil
  | cons p list ih =>
    obtain ⟨first, others⟩ := List.pairwise_cons.mp ascending
    refine pairwise_append.mpr ⟨?_, ih others fun p hp q hq => numbered p (by simp [hp]) q (by simp [hq]), ?_⟩
    · cases (matchSelectorChain client cache n (heap p).chain).pseudo <;> simp
    · intro b here c later
      obtain ⟨pseudo, -, rfl⟩ := map_eq_some_iff.mp (mem_toList.mp here)
      obtain ⟨q, member, pseudo', rfl⟩ := mem_sheetBlocks later
      exact follows_of_ascending (first q member) (numbered p (by simp) q (by simp [member]))

variable [DecidableEq σ]

def rulesBlocks (client : Client ν) (n : ν) (req : Requirements) :
    Nat → List Reject → List (Origin × RuleSheet heap) → List Block
  | _, _, [] => []
  | number, cache, (origin, own) :: rest =>
    sheetBlocks heap client n number origin cache (handed client n req own) ++
      rulesBlocks client n req (number + 1) (sheetCache heap client n cache (handed client n req own)) rest

theorem sheets_fold (direct : ∀ p style, (heap p).rule.style = some style → style.deferred = []) {number : Nat}
    {list : List (Origin × RuleSheet heap)} {state : SelectState}
    (recorded : ∀ b ∈ rulesBlocks client n req number state.rejectCache list, ∀ s ∈ b.settings, isRecorded s = true) :
    (list.foldl (matchSelectorsInSheet handlers env client n req) state).props =
      ((rulesBlocks client n req number state.rejectCache list).flatMap applied).foldl place state.props := by
  induction list generalizing state number with
  | nil => rfl
  | cons source list ih =>
    obtain ⟨origin, own⟩ := source
    rw [rulesBlocks] at recorded ⊢
    have within : ∀ b ∈ sheetBlocks heap client n number origin state.rejectCache (handed client n req own),
        ∀ s ∈ b.settings, isRecorded s = true := fun b among => recorded b (by simp [among])
    obtain ⟨props, cache⟩ :=
      @sheet_fold σ heap ν handlers env client n direct number _ { state with currentOrigin := origin } within
    rw [foldl_cons, flatMap_append, foldl_append, ← cache, ← props]
    apply ih
    rw [matchSelectorsInSheet, cache]
    exact fun b among => recorded b (List.mem_append_right _ among)

theorem mem_rulesBlocks {number : Nat} {cache : List Reject} {list : List (Origin × RuleSheet heap)} {b : Block}
    (among : b ∈ rulesBlocks client n req number cache list) :
    number ≤ b.sheet ∧ b.sheet < number + list.length ∧ b.inline = false := by
  induction list generalizing number cache with
  | nil => cases among
  | cons source list ih =>
    obtain ⟨origin, own⟩ := source
    rcases mem_append.mp among with here | later
    · obtain ⟨p, -, pseudo, rfl⟩ := mem_sheetBlocks here
      simp [ruleBlock]
    · obtain ⟨above, below, plain⟩ := ih later
      simp only [List.length_cons]
      exact ⟨by omega, by omega, plain⟩

theorem rulesBlocks_ordered {number : Nat} {cache : List Reject} {list : List (Origin × RuleSheet heap)} :
    (rulesBlocks client n req number cache list).Pairwise Follows := by
  induction list generalizing number cache with
  | nil => exact List.Pairwise.nil
  | cons source list ih =>
    obtain ⟨origin, own⟩ := source
    refine pairwise_append.mpr ⟨?_, ih, ?_⟩
    · exact sheetBlocks_ordered (handed_ascending own)
        fun p hp q hq => own.numbered p (mem_handed hp) q (mem_handed hq)
    · intro b here c later
      obtain ⟨p, -, pseudo, rfl⟩ := mem_sheetBlocks here
      have above := (mem_rulesBlocks later).1
      exact .inl (by simp only [ruleBlock]; omega)

def sheetsBlocks (client : Client ν) (n : ν) (req : Requirements) (hints : List Hint)
    (list : List (Origin × RuleSheet heap)) : List Block :=
  hintBlock hints :: rulesBlocks client n req 1 [] list

def inlineBlocks (state : SelectState) (count : Nat) (inlineStyle : Option Style) : List Block :=
  (inlineStyle.map (inlineBlock state (count + 1))).toList

variable (handlers env client n req)

/-- All the declarations that apply to an element, in the order of the cascade. -/
def applicable (hints : List Hint) (list : List (Origin × RuleSheet heap)) (inlineStyle : Option Style) : List Applied :=
  (sheetsBlocks client n req hints list ++
    inlineBlocks (selectFromSheets handlers env client n req hints list) list.length inlineStyle).flatMap applied

/-- Compared with a declaration before it, one of the inline style is given the place that is
documented by the origin and specificity that the last sheet and the last matched rule leave. -/
def InlineInPlace (list : List Applied) : Prop :=
  list.Pairwise fun a d => d.block.inline = true → a.property = d.property → a.block.pseudo = d.block.pseudo →
    (weight a ≤ weight d ↔ documented a ≤ documented d)

variable {handlers env client n req}

theorem weight_le_iff {d : Applied} (plain : a.block.inline = false) (plain' : d.block.inline = false) :
    weight a ≤ weight d ↔ documented a ≤ documented d := by
  simp only [weight, documented, plain, plain', Bool.false_eq_true, if_false, Prod.Lex.toLex_le_toLex, Nat.cast_le]

theorem sheetsBlocks_plain {hints : List Hint} {list : List (Origin × RuleSheet heap)} :
    ∀ b ∈ sheetsBlocks client n req hints list, b.inline = false := by
  intro b among
  rcases mem_cons.mp among with rfl | later
  · rfl
  · exact (mem_rulesBlocks later).2.2

theorem inline_of_inlineBlocks {count : Nat} {inlineStyle : Option Style}
    (among : b ∈ inlineBlocks state count inlineStyle) : b.inline = true ∧ b.sheet = count + 1 := by
  obtain ⟨style, -, rfl⟩ := map_eq_some_iff.mp (mem_toList.mp among)
  exact ⟨rfl, rfl⟩

theorem blocks_ordered {hints : List Hint} {list : List (Origin × RuleSheet heap)} {state : SelectState}
    {inlineStyle : Option Style} :
    (sheetsBlocks client n req hints list ++ inlineBlocks state list.length inlineStyle).Pairwise Follows := by
  refine pairwise_append.mpr ⟨List.pairwise_cons.mpr ⟨?_, rulesBlocks_ordered⟩, ?_, ?_⟩
  · intro b among
    have above := (mem_rulesBlocks among).1
    exact .inl (by simp only [hintBlock]; omega)
  · cases inlineStyle <;> simp [inlineBlocks]
  · intro b here c later
    have last := (inline_of_inlineBlocks later).2
    rcases mem_cons.mp here with rfl | among
    · exact .inl (by simp only [hintBlock]; omega)
    · have below := (mem_rulesBlocks among).2.1
      exact .inl (by omega)

theorem hold_documented {hints : List Hint} {list : List (Origin × RuleSheet heap)} {inlineStyle : Option Style}
    (inPlace : InlineInPlace (applicable handlers env client n req hints list inlineStyle)) (p : Property)
    (pseudo : PseudoElement) :
    hold (heavier weight) none ((applicable handlers env client n req hints list inlineStyle).filter (concerns p pseudo)) =
      hold (heavier documented) none
        ((applicable handlers env client n req hints list inlineStyle).filter (concerns p pseudo)) := by
  have last : (applicable handlers env client n req hints list inlineStyle).Pairwise
      fun a d => a.block.inline = true → d.block.inline = true := by
    rw [applicable, flatMap_append]
    refine pairwise_append.mpr ⟨?_, ?_, ?_⟩
    · refine List.pairwise_of_forall_mem_list fun a among d _ inline => ?_
      obtain ⟨b, listed, inside⟩ := mem_flatMap.mp among
      rw [block_of_applied inside, sheetsBlocks_plain b listed] at inline
      cases inline
    · refine List.pairwise_of_forall_mem_list fun a _ d among _ => ?_
      obtain ⟨b, listed, inside⟩ := mem_flatMap.mp among
      rw [block_of_applied inside]
      exact (inline_of_inlineBlocks listed).1
    · intro a _ d among _
      obtain ⟨b, listed, inside⟩ := mem_flatMap.mp among
      rw [block_of_applied inside]
      exact (inline_of_inlineBlocks listed).1
  refine hold_congr (((inPlace.and last).filter _).imp_of_mem fun among among' both => ?_)
  obtain ⟨placed, follows⟩ := both
  have wanted := List.of_mem_filter among
  have wanted' := List.of_mem_filter among'
  simp only [concerns, Bool.and_eq_true, beq_iff_eq] at wanted wanted'
  rw [heavier, heavier, decide_eq_decide]
  rename_i a d
  by_cases inline : d.block.inline = true
  · exact placed inline (wanted.1.trans wanted'.1.symm) (wanted.2.trans wanted'.2.symm)
  · have plain : a.block.inline = false := by simpa using fun first => inline (follows first)
    exact weight_le_iff plain (by simpa using inline)

theorem selectStyle_props (direct : ∀ p style, (heap p).rule.style = some style → style.deferred = [])
    {hints : List Hint} {list : List (Origin × RuleSheet heap)} {inlineStyle : Option Style}
    (directInline : ∀ style, inlineStyle = some style → style.deferred = [])
    (recorded : ∀ a ∈ applicable handlers env client n req hints list inlineStyle,
      isRecorded (a.property, a.important, a.setting) = true) :
    (cascadeInline handlers env inlineStyle (selectFromSheets handlers env client n req hints list)).props =
      (applicable handlers env client n req hints list inlineStyle).foldl place fun _ _ => none := by
  have blockwise : ∀ b ∈ sheetsBlocks client n req hints list ++
      inlineBlocks (selectFromSheets handlers env client n req hints list) list.length inlineStyle,
      ∀ s ∈ b.settings, isRecorded s = true := by
    intro b among s member
    obtain ⟨i, bound, rfl⟩ := List.getElem_of_mem member
    refine recorded ⟨b, _, _, _, i⟩ (mem_flatMap.mpr ⟨b, among, mem_applied.mpr ⟨rfl, ?_⟩⟩)
    simp [List.getElem?_eq_getElem bound]
  have hinted : hints.foldl setHint {} =
      { ({} : SelectState) with props := (applied (hintBlock hints)).foldl place fun _ _ => none } := by
    have placed : (applied (hintBlock hints)).foldl place (fun _ _ => none) =
        (hints.map hintItem).foldl put fun _ _ => none := by
      rw [applied_fold, hintBlock, foldl_map, foldl_map]
      rfl
    rw [placed]
    exact hints_put (by simp)
  have sheets : (selectFromSheets handlers env client n req hints list).props =
      ((sheetsBlocks client n req hints list).flatMap applied).foldl place fun _ _ => none := by
    rw [selectFromSheets, hinted, sheetsBlocks, List.flatMap_cons, foldl_append]
    apply sheets_fold direct
    exact fun b among => blockwise b (List.mem_append_left _ (List.mem_cons_of_mem _ among))
  rw [applicable, flatMap_append, foldl_append, ← sheets]
  cases inlineStyle with
  | none => rfl
  | some style =>
    have entered : cascadeStyle handlers env style
        { selectFromSheets handlers env client n req hints list with currentPseudo := .none } = _ :=
      cascadeStyle_block (b := inlineBlock (selectFromSheets handlers env client n req hints list) (list.length + 1) style)
        (directInline style rfl) rfl rfl rfl rfl (blockwise _ (by simp [inlineBlocks]))
    rw [cascadeInline, entered]
    simp [inlineBlocks]

/-- For every property and pseudo element, what is set is the greatest of the declarations that concern
it in the documented order, and nothing is set only where there is none. -/
def SetsGreatest (props : Property → PseudoElement → Option PropState) (list : List Applied) : Prop :=
  ∀ p pseudo,
    match props p pseudo with
    | none => ∀ a ∈ list, concerns p pseudo a = false
    | some set =>
      ∃ m ∈ list, concerns p pseudo m = true ∧ set = stateOf m ∧
        ∀ a ∈ list, concerns p pseudo a = true → key a ≤ key m

/-- In every selection that records all the declarations that apply and gives the inline style its
place, what is set for a property is the greatest of its declarations in the documented order. -/
theorem winner_greatest (direct : ∀ p style, (heap p).rule.style = some style → style.deferred = [])
    {sheets : List (SelectSheet heap)} {hints : List Hint} {inlineStyle : Option Style}
    {list : List (Origin × RuleSheet heap)} (directInline : ∀ style, inlineStyle = some style → style.deferred = [])
    (sourced : sources req.media sheets = some list)
    (recorded : ∀ a ∈ applicable handlers env client n req hints list inlineStyle,
      isRecorded (a.property, a.important, a.setting) = true)
    (inPlace : InlineInPlace (applicable handlers env client n req hints list inlineStyle)) :
    ∃ state, selectStyle handlers env client n req sheets hints inlineStyle = some state ∧
      SetsGreatest state.props (applicable handlers env client n req hints list inlineStyle) := by
  refine ⟨_, by rw [selectStyle, sourced, Option.map_some], fun p pseudo => ?_⟩
  have unset : (fun _ _ => none : Property → PseudoElement → Option PropState) p pseudo =
      (none : Option Applied).map stateOf := rfl
  rw [selectStyle_props direct directInline recorded, place_hold unset, hold_documented inPlace]
  rcases held : hold (heavier documented) none
    ((applicable handlers env client n req hints list inlineStyle).filter (concerns p pseudo)) with _ | m
  · intro a among
    have nothing := hold_none.mp held
    rw [List.filter_eq_nil_iff] at nothing
    simpa using nothing a among
  · obtain ⟨member, most⟩ := greatest blocks_ordered held
    obtain ⟨among, wanted⟩ := mem_filter.mp member
    exact ⟨m, among, wanted, rfl, fun a listed fits => most a (mem_filter.mpr ⟨listed, fits⟩)⟩

theorem author_of_rank {important important' : Bool} (same : rank origin important = rank .author important') :
    origin = .author := by
  cases origin <;> cases important <;> cases important' <;> first | rfl | cases same

theorem inPlace_of_author {hints : List Hint} {list : List (Origin × RuleSheet heap)} {inlineStyle : Option Style}
    (author : (selectFromSheets handlers env client n req hints list).currentOrigin = .author)
    (specific : ∀ b ∈ sheetsBlocks client n req hints list, b.origin = .author →
      b.specificity ≤ (selectFromSheets handlers env client n req hints list).currentSpecificity) :
    InlineInPlace (applicable handlers env client n req hints list inlineStyle) := by
  refine List.pairwise_of_forall_mem_list fun a among d among' inline _ _ => ?_
  have left : d.block.origin = .author ∧
      d.block.specificity = (selectFromSheets handlers env client n req hints list).currentSpecificity := by
    obtain ⟨b, listed, inside⟩ := mem_flatMap.mp among'
    rw [block_of_applied inside] at inline ⊢
    rcases mem_append.mp listed with sheet | later
    · simp [sheetsBlocks_plain b sheet] at inline
    · obtain ⟨style, -, rfl⟩ := map_eq_some_iff.mp (mem_toList.mp later)
      exact ⟨author, rfl⟩
  obtain ⟨b, listed, inside⟩ := mem_flatMap.mp among
  obtain rfl := block_of_applied inside
  rcases mem_append.mp listed with sheet | later
  · simp only [weight, documented, inline, if_true, left.1, left.2, sheetsBlocks_plain _ sheet, Bool.false_eq_true,
      if_false, Prod.Lex.toLex_le_toLex, le_top, and_true]
    refine or_congr_right ⟨And.left, fun same => ⟨same, specific _ sheet (author_of_rank same)⟩⟩
  · obtain ⟨style, -, own⟩ := map_eq_some_iff.mp (mem_toList.mp later)
    simp only [weight, documented, inline, if_true, left.1, left.2, ← own, inlineBlock, author,
      Prod.Lex.toLex_le_toLex, le_refl, and_true]

/-- A paragraph with an id, alone in its document. -/
def lone : Client Unit where
  parent _ := none
  previous _ := none
  order _ := 0
  parent_lt := by simp
  previous_lt := by simp
  previous_parent := by simp
  nodeName _ := ⟨none, lit "p"⟩
  nodeClasses _ := []
  nodeId _ := some (lit "x")
  nodeHasName _ q := q.name == lit "p"
  nodeHasClass _ _ := false
  nodeHasId _ i := i == lit "x"
  nodeHasAttribute _ _ := false
  nodeHasAttributeValue _ _ _ _ := false
  nodeIsRoot _ := true
  nodeCountSiblings _ _ _ := 0
  nodeIsEmpty _ := true
  nodeIsLink _ := false
  nodeIsVisited _ := false
  nodeIsHover _ := false
  nodeIsActive _ := false
  nodeIsFocus _ := false
  nodeIsEnabled _ := false
  nodeIsDisabled _ := false
  nodeIsChecked _ := false
  nodeIsTarget _ := false
  nodeIsLang _ _ := false

/-- A declaration of `color`. -/
def ink (word : Word) : Encoding := ⟨buildOPV 0x18 0 0x80, [word]⟩

def identified (id : String) : Compound := ⟨⟨none, lit "*"⟩, [⟨.id, ⟨none, lit id⟩, [], 0, 0, false⟩], by simp⟩

/-- `#x` and `p`, each with a color. -/
def idAndType (p : Bool) : CssSelector Style :=
  if p then ⟨.last (typed "p"), 1, ⟨0, some ⟨[ink 0x00ff00], [], []⟩, []⟩⟩
  else
    ⟨.last (identified "x"), 0x10000, ⟨0, some ⟨[ink 0xff0000], [], []⟩, []⟩⟩

def oneRule (p : Bool) : RuleSheet idAndType where
  ops := [.insert p]
  numbered := by
    intro q among r among' _
    simp only [contents, foldl_cons, List.foldl_nil, List.mem_singleton] at among among'
    rw [among, among']

def authored (p : Bool) : SelectSheet idAndType where
  sheet := .rules (oneRule p)
  origin := .author
  media := [⟨false, mediaAll, none⟩]

/-- A screen, and an element without ancestors. -/
def rootOnScreen : Requirements where
  media := screen
  nodeBloom := Bloom.init

def noTables : Env := ⟨[], [], none, []⟩

def inlineInk : Style := ⟨[ink 0x0000ff], [], []⟩

def colors : List Applied :=
  applicable (fun _ _ => none) noTables lone () rootOnScreen [] [(.author, oneRule false), (.author, oneRule true)]
    (some inlineInk)

/-- With two sheets of the author's, the inline style loses to `#x` after `p` has matched last. -/
theorem inline_loses :
    ¬ ∃ state, selectStyle (fun _ _ => none) noTables lone () rootOnScreen [authored false, authored true] []
        (some inlineInk) = some state ∧ SetsGreatest state.props colors := by
  rintro ⟨state, selected, most⟩
  have red : state.props .color .none = some ⟨0x10000, .author, false, .declared (ink 0xff0000)⟩ := by
    cases selected
    decide
  have winner := most .color .none
  rw [red] at winner
  obtain ⟨m, among, wanted, same, greatest⟩ := winner
  have beaten : ∀ m ∈ colors, stateOf m = ⟨0x10000, .author, false, .declared (ink 0xff0000)⟩ →
      ∃ a ∈ colors, concerns .color .none a = true ∧ ¬ key a ≤ key m := by
    decide
  obtain ⟨a, listed, concerned, less⟩ := beaten m among same.symm
  exact less (greatest a listed concerned)

theorem winner_of_author_sheet :
    ∃ state, selectStyle (fun _ _ => none) noTables lone () rootOnScreen [authored false] [] (some inlineInk) = some state ∧
      SetsGreatest state.props
        (applicable (fun _ _ => none) noTables lone () rootOnScreen [] [(.author, oneRule false)] (some inlineInk)) := by
  refine winner_greatest ?_ ?_ rfl ?_ (inPlace_of_author rfl ?_)
  · intro p style given
    cases p <;> cases given <;> rfl
  · intro style given
    cases given
    rfl
  · decide
  · decide

end Besra.Winner
