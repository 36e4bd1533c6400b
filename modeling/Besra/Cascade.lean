import Mathlib.Data.Prod.Lex
import Besra.Deferred
import Besra.Important
import Besra.LastMax
import Besra.SelectorHash

/-!
The cascade of one style, from `cascade_style` and `css__outranks_existing` in `libcss/src/select/select.c` and the
cascade functions of `select/properties`.
-/
namespace Besra.Cascade
open Lwc Bytecode Important CustomProperties Selector MatchChain LastMax List

/-- `css_origin` -/
inductive Origin where
  | ua
  | user
  | author
deriving DecidableEq

def Origin.number : Origin → Nat
  | .ua => 0
  | .user => 1
  | .author => 2

/-- `css_hint`: a property with its data and status. -/
structure Hint where
  prop : Property
  data : List Word
  status : Word
deriving DecidableEq

/-- What a property is set from: a declaration, as its words, or a presentational hint. -/
inductive Setting where
  | declared (e : Encoding)
  | hinted (hint : Hint)
deriving DecidableEq

/-- `prop_state` of a property that is set, with what it is set from in place of the value. -/
structure PropState where
  specificity : Nat
  origin : Origin
  important : Bool
  setting : Setting
deriving DecidableEq

/-- The test of `css__outranks_existing`. -/
def outranksExisting (existing : Option PropState) (origin : Origin) (specificity : Nat) (important : Bool) : Bool :=
  match existing with
  | none => true
  | some e =>
    if e.origin.number < origin.number then !e.important || e.origin != .user
    else if e.origin = origin then
      if e.origin = .ua then e.specificity ≤ specificity
      else if !e.important && important then true
      else if e.important && !important then false
      else e.specificity ≤ specificity
    else origin == .user && important

def rank : Origin → Bool → Nat
  | .ua, _ => 0
  | .user, false => 1
  | .author, false => 2
  | .author, true => 3
  | .user, true => 4

theorem outranksExisting_iff (e : PropState) (origin : Origin) (specificity : Nat) (important : Bool) :
    outranksExisting (some e) origin specificity important = true ↔
      toLex (rank e.origin e.important, e.specificity) ≤ toLex (rank origin important, specificity) := by
  obtain ⟨s, o, i, setting⟩ := e
  rw [Prod.Lex.toLex_le_toLex]
  cases o <;> cases origin <;> cases i <;> cases important <;> simp [outranksExisting, Origin.number, rank]

/-- `css_select_state`, as far as it changes; `created` says which of the results' styles there are. -/
structure SelectState where
  currentOrigin : Origin := .ua
  currentSpecificity : Nat := 0
  currentPseudo : PseudoElement := .none
  props : Property → PseudoElement → Option PropState := fun _ _ => none
  created : PseudoElement → Bool := fun pseudo => pseudo == .none
  rejectCache : List Reject := []
  taints : Taints := {}

def setProp (props : Property → PseudoElement → Option PropState) (p : Property) (pseudo : PseudoElement)
    (state : PropState) : Property → PseudoElement → Option PropState :=
  fun q other => if q = p ∧ other = pseudo then some state else props q other

/-- `css__outranks_existing`, with the setter that is called when it says so. -/
def setIfOutranks (state : SelectState) (p : Property) (important : Bool) (setting : Setting) : SelectState :=
  if outranksExisting (state.props p state.currentPseudo) state.currentOrigin state.currentSpecificity important then
    { state with
      props := setProp state.props p state.currentPseudo
        ⟨state.currentSpecificity, state.currentOrigin, important, setting⟩ }
  else state

def setHint (state : SelectState) (hint : Hint) : SelectState :=
  { state with props := setProp state.props hint.prop .none ⟨0, .author, false, .hinted hint⟩ }

/-- A setting of a property of a pseudo element. -/
structure Item where
  property : Property
  pseudo : PseudoElement
  state : PropState

def PropState.weight (e : PropState) : ℕ ×ₗ ℕ := toLex (rank e.origin e.important, e.specificity)

def put (props : Property → PseudoElement → Option PropState) (item : Item) : Property → PseudoElement → Option PropState :=
  if outranksExisting (props item.property item.pseudo) item.state.origin item.state.specificity item.state.important then
    setProp props item.property item.pseudo item.state
  else props

def Item.concerns (p : Property) (pseudo : PseudoElement) (item : Item) : Bool :=
  item.property == p && item.pseudo == pseudo

theorem outranksExisting_eq (e f : PropState) :
    outranksExisting (some e) f.origin f.specificity f.important = heavier PropState.weight e f := by
  rw [Bool.eq_iff_iff, outranksExisting_iff, heavier, decide_eq_true_eq]
  rfl

variable {pseudo : PseudoElement} {props : Property → PseudoElement → Option PropState} {p : Property} {item : Item}
  {encodings : List Encoding}

theorem put_of_concerned (wanted : item.concerns p pseudo = true) :
    put props item p pseudo = challenge (heavier PropState.weight) (props p pseudo) item.state := by
  simp only [Item.concerns, Bool.and_eq_true, beq_iff_eq] at wanted
  obtain ⟨rfl, rfl⟩ := wanted
  rw [put]
  rcases held : props item.property item.pseudo with _ | e
  · simp [outranksExisting, setProp, challenge]
  · rw [outranksExisting_eq, challenge]
    split
    · simp [setProp]
    · exact held

theorem put_of_not_concerned (unwanted : item.concerns p pseudo = false) :
    put props item p pseudo = props p pseudo := by
  rw [put]
  split
  · rw [setProp, if_neg]
    rintro ⟨rfl, rfl⟩
    simp [Item.concerns] at unwanted
  · rfl

theorem put_hold (list : List Item) (props : Property → PseudoElement → Option PropState) (p : Property)
    (pseudo : PseudoElement) :
    list.foldl put props p pseudo =
      hold (heavier PropState.weight) (props p pseudo) ((list.filter (Item.concerns p pseudo)).map (·.state)) := by
  induction list generalizing props with
  | nil => rfl
  | cons item list ih =>
    rw [foldl_cons, ih]
    cases wanted : item.concerns p pseudo with
    | true => rw [filter_cons_of_pos wanted, map_cons, hold_cons, put_of_concerned wanted]
    | false => rw [filter_cons_of_neg (by simp [wanted]), put_of_not_concerned wanted]

def hintItem (hint : Hint) : Item := ⟨hint.prop, .none, 0, .author, false, .hinted hint⟩

theorem hints_put {hints : List Hint} {state : SelectState}
    (hinted : ∀ p e, state.props p .none = some e → e.weight = toLex (2, 0)) :
    hints.foldl setHint state = { state with props := (hints.map hintItem).foldl put state.props } := by
  induction hints generalizing state with
  | nil => rfl
  | cons hint hints ih =>
    have outranks : outranksExisting (state.props hint.prop .none) .author 0 false = true := by
      rcases found : state.props hint.prop .none with _ | e
      · rfl
      · rw [outranksExisting_iff]
        exact (hinted _ e found).le
    have step : setHint state hint = { state with props := put state.props (hintItem hint) } := by
      simp only [setHint, put, hintItem, outranks, if_true]
    rw [foldl_cons, map_cons, foldl_cons, ih, step]
    intro p e found
    simp only [setHint, setProp] at found
    split at found
    · cases found
      rfl
    · exact hinted p e found

def unset : List Property := [.cueAfter, .cueBefore, .pauseAfter, .pauseBefore, .pitchRange, .richness, .stress]

def skipsCalc (p : Property) : Bool :=
  p != .width &&
    match layout p with
    | .setOrCalc .. | .numberOrDimension _ => true
    | _ => false

def records (p : Property) (opv : Word) : Bool :=
  !unset.contains p && !(skipsCalc p && !hasFlagValue opv && (getValue opv).toNat == valueIsCalc)

/-- A cascade function of `prop_dispatch`. -/
def cascade (state : SelectState) (e : Encoding) : SelectState :=
  match propertyOf e.opv with
  | none => state
  | some p => if records p e.opv then setIfOutranks state p (isImportant e.opv) (.declared e) else state

/-- The origin, specificity and pseudo element that declarations are cascaded with. -/
structure Occasion where
  origin : Origin
  specificity : Nat
  pseudo : PseudoElement
deriving DecidableEq

def SelectState.occasion (state : SelectState) : Occasion :=
  ⟨state.currentOrigin, state.currentSpecificity, state.currentPseudo⟩

def itemOf (o : Occasion) (e : Encoding) : Option Item :=
  match propertyOf e.opv with
  | none => none
  | some p =>
    if records p e.opv then some ⟨p, o.pseudo, o.specificity, o.origin, isImportant e.opv, .declared e⟩ else none

theorem cascade_items (encodings : List Encoding) (state : SelectState) :
    encodings.foldl cascade state =
      { state with props := (encodings.filterMap (itemOf state.occasion)).foldl put state.props } := by
  induction encodings generalizing state with
  | nil => rfl
  | cons e encodings ih =>
    have step : cascade state e =
        { state with props := ((itemOf state.occasion e).toList).foldl put state.props } := by
      rw [cascade, itemOf]
      split
      · rfl
      · split
        · simp only [setIfOutranks, Option.toList_some, foldl_cons, foldl_nil, put, SelectState.occasion]
          split <;> rfl
        · rfl
    have same : (cascade state e).occasion = state.occasion := by
      rw [step]
      rfl
    rw [foldl_cons, ih, same, step]
    cases found : itemOf state.occasion e with
    | none => rw [filterMap_cons_none found]; rfl
    | some item => rw [filterMap_cons_some found]; rfl

/-- The loop of `cascade_style` over the bytecode; none where it reads past the end. -/
def cascadeBytecode : Nat → List Word → SelectState → Option SelectState
  | 0, bytecode, state => if bytecode = [] then some state else none
  | fuel + 1, bytecode, state =>
    match bytecode with
    | [] => some state
    | opv :: rest => do
      let n ← cascadeOperands opv rest
      cascadeBytecode fuel (rest.drop n) (cascade state ⟨opv, rest.take n⟩)

/-- The encodings that the loop of `cascade_style` finds in some bytecode. -/
def decode : Nat → List Word → Option (List Encoding)
  | 0, bytecode => if bytecode = [] then some [] else none
  | fuel + 1, bytecode =>
    match bytecode with
    | [] => some []
    | opv :: rest => do
      let n ← cascadeOperands opv rest
      let others ← decode fuel (rest.drop n)
      return ⟨opv, rest.take n⟩ :: others

theorem cascadeBytecode_eq (fuel : Nat) (bytecode : List Word) (state : SelectState) :
    cascadeBytecode fuel bytecode state = (decode fuel bytecode).map (·.foldl cascade state) := by
  induction fuel generalizing bytecode state with
  | zero =>
    rw [cascadeBytecode, decode]
    split <;> rfl
  | succ fuel ih =>
    cases bytecode with
    | nil => rfl
    | cons opv rest =>
      rcases read : cascadeOperands opv rest with _ | n
      · simp [cascadeBytecode, decode, read]
      · rcases found : decode fuel (rest.drop n) with _ | others <;> simp [cascadeBytecode, decode, read, ih, found]

theorem decode_bytecode (wellFormed : ∀ e ∈ encodings, e.WellFormed) {fuel : Nat}
    (enough : (bytecode encodings).length ≤ fuel) : decode fuel (bytecode encodings) = some encodings := by
  induction encodings generalizing fuel with
  | nil => cases fuel <;> rfl
  | cons e encodings ih =>
    have split : bytecode (e :: encodings) = e.opv :: (e.operands ++ bytecode encodings) := by simp [bytecode]
    rw [split] at enough ⊢
    obtain ⟨fuel, rfl⟩ : ∃ k, fuel = k + 1 := ⟨fuel - 1, by simp at enough; omega⟩
    have read := cascadeOperands_append (wellFormed e (by simp)) (bytecode encodings)
    simp only [length_cons, length_append] at enough
    have others := ih (fun e among => wellFormed e (by simp [among])) (show _ ≤ fuel by omega)
    simp only [decode, read, Option.bind_eq_bind, Option.bind_some, drop_left, take_left, others, Option.pure_def]

/-- The loop never reads past the end of a style, and leaves with each property the heaviest of what was there and what
the style declares. -/
theorem cascadeBytecode_holds (wellFormed : ∀ e ∈ encodings, e.WellFormed) (state : SelectState) (p : Property)
    (pseudo : PseudoElement) :
    (cascadeBytecode (bytecode encodings).length (bytecode encodings) state).map (·.props p pseudo) =
      some (hold (heavier PropState.weight) (state.props p pseudo)
        (((encodings.filterMap (itemOf state.occasion)).filter (Item.concerns p pseudo)).map (·.state))) := by
  rw [cascadeBytecode_eq, decode_bytecode wellFormed (Nat.le_refl _), Option.map_some, Option.map_some, cascade_items]
  exact congrArg some (put_hold _ _ p pseudo)

/-- Two colours, of which the later one is not important. -/
theorem cascadeBytecode_holds_colours :
    (cascadeBytecode 4 [buildOPV 0x18 1 0x80, 0xff00ff00, buildOPV 0x18 0 0x80, 0] { currentOrigin := .author }).map
        (·.props .color .none) =
      some (some ⟨0, .author, true, .declared ⟨buildOPV 0x18 1 0x80, [0xff00ff00]⟩⟩) := by
  have wellFormed : ∀ e ∈ [(⟨buildOPV 0x18 1 0x80, [0xff00ff00]⟩ : Encoding), ⟨buildOPV 0x18 0 0x80, [0]⟩],
      e.WellFormed := by
    rintro e (_ | ⟨_, _ | ⟨_, ⟨⟩⟩⟩) <;> exact ⟨.color, by decide, by decide, by decide⟩
  exact (cascadeBytecode_holds wellFormed _ .color .none).trans (by decide)

/-- An encoding that was made important. -/
def made (e : Encoding) : Encoding := ⟨setImportant e.opv, e.operands⟩

theorem made_wellFormed {e : Encoding} (wellFormed : e.WellFormed) : (made e).WellFormed := by
  obtain ⟨p, found, valid, read⟩ := wellFormed
  refine ⟨p, ?_, ?_, ?_⟩
  · rw [propertyOf, made, getOpcode_setImportant]
    exact found
  · simpa [made] using valid
  · simpa [made] using read

/-- A style that was made important is cascaded like its declarations with `!important`. -/
theorem importantBytecode_holds (wellFormed : ∀ e ∈ encodings, e.WellFormed) (plain : ∀ e ∈ encodings, ¬ Mixed e)
    (state : SelectState) (p : Property) (pseudo : PseudoElement) :
    ∃ words, makeStyleImportant (bytecode encodings) = some words ∧ (∀ e ∈ encodings, isImportant (made e).opv = true) ∧
      (cascadeBytecode words.length words state).map (·.props p pseudo) =
        some (hold (heavier PropState.weight) (state.props p pseudo)
          ((((encodings.map made).filterMap (itemOf state.occasion)).filter (Item.concerns p pseudo)).map (·.state))) := by
  refine ⟨bytecode (encodings.map made), ?_, ?_, ?_⟩
  · rw [makeStyleImportant, importantLoop_bytecode wellFormed plain le_rfl, important, bytecode, flatMap_map]
    rfl
  · exact fun e _ => isImportant_of_flags (by rw [made, getFlags_setImportant, BitVec.or_assoc, BitVec.or_self])
  · refine cascadeBytecode_holds (fun e among => ?_) state p pseudo
    obtain ⟨d, member, rfl⟩ := mem_map.mp among
    exact made_wellFormed (wellFormed d member)

/-- One colour that is not important. -/
def oneColour : List Encoding := [⟨buildOPV 0x18 0 0x80, [0]⟩]

theorem importantBytecode_holds_colour :
    ∃ words, makeStyleImportant (bytecode oneColour) = some words ∧ (∀ e ∈ oneColour, isImportant (made e).opv = true) ∧
      (cascadeBytecode words.length words {}).map (·.props .color .none) =
        some (some ⟨0, .ua, true, .declared ⟨buildOPV 0x18 1 0x80, [0]⟩⟩) := by
  refine importantBytecode_holds ?_ ?_ {} .color .none
  · rintro e (_ | ⟨_, ⟨⟩⟩)
    exact ⟨.color, by decide, by decide, by decide⟩
  · rintro e (_ | ⟨_, ⟨⟩⟩) ⟨sound, -⟩
    exact absurd sound (by decide)

/-- A style: its bytecode as `cascade_style` decodes it, the declarations that wait for the values of
custom properties, and the custom properties of its sheet. -/
structure Style where
  encodings : List Encoding
  deferred : List DeferredDecl := []
  customProperties : List Entry := []

/-- The specificity that a deferred declaration is cascaded with. -/
def deferredSpecificity : Nat := 0x7fffffff

variable (handlers : Handlers (List Encoding)) (env : Env)

/-- What the value of a declaration adds to a style, after `css__make_style_important` where it says so;
nothing where that reads past the end. -/
def emitted (value : List Encoding × Bool) : List Encoding :=
  if value.2 then
    ((makeStyleImportant (bytecode value.1)).bind fun words => decode words.length words).getD []
  else value.1

/-- The cascade of `css__deferred_decl_resolve`. -/
def cascadeDeferred (state : SelectState) (decl : DeferredDecl) : SelectState :=
  match deferredDeclResolve handlers env decl with
  | none => state
  | some value =>
    { (emitted value).foldl cascade { state with currentSpecificity := deferredSpecificity } with
      currentSpecificity := state.currentSpecificity }

def cascadeStyle (style : Style) (state : SelectState) : SelectState :=
  style.deferred.foldl (cascadeDeferred handlers { env with originSheet := style.customProperties })
    (style.encodings.foldl cascade state)

end Besra.Cascade
