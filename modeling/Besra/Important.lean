import Besra.Bytecode

/-!
`css__make_style_important` of `libcss/src/parse/important.c` walks a style with a table of operand lengths of its
own.
-/
namespace Besra.Important
open Bytecode Option List

/-- The operands of an item of `content` for the walker, which counts none for an unknown item. -/
def contentItemWidth (value : Nat) : Nat :=
  match value &&& 0xff with
  | 0x82 | 0x81 | 0x84 | 0x80 => 1
  | 0x83 => 2
  | _ => 0

/-- The switch of `css__make_style_important`: how far a property's value makes it advance; none where
    it passes the end of the bytecode. -/
def propertyData (p : Property) (value : Nat) (rest : List Word) : Option Nat :=
  match p with
  | .azimuth => if value &&& 0x3fdf = 0x80 then words 2 rest else some 0
  | .borderTopColor | .borderRightColor | .borderBottomColor | .borderLeftColor | .backgroundColor
  | .columnRuleColor => if value = 0x80 then words 1 rest else some 0
  | .backgroundImage | .cueAfter | .cueBefore | .listStyleImage => if value = 0x80 then words 1 rest else some 0
  | .backgroundPosition =>
    words ((if value &&& 0xf0 = 0x80 then 2 else 0) + (if value &&& 0x0f = 8 then 2 else 0)) rest
  | .borderSpacing => if value = 0x80 then words 4 rest else some 0
  | .borderTopWidth | .borderRightWidth | .borderBottomWidth | .borderLeftWidth | .outlineWidth
  | .columnRuleWidth => if value = 0x80 then words 2 rest else some 0
  | .marginTop | .marginRight | .marginBottom | .marginLeft | .bottom | .left | .right | .top | .height | .width
  | .columnWidth | .columnGap => if value = 0x80 then words 2 rest else some 0
  | .clip =>
    if value &&& 0x87 = 0x80 then
      words ((if value &&& 0x08 = 0 then 2 else 0) + (if value &&& 0x10 = 0 then 2 else 0) +
        (if value &&& 0x20 = 0 then 2 else 0) + (if value &&& 0x40 = 0 then 2 else 0)) rest
    else some 0
  | .color => if value = 0x80 then words 1 rest else some 0
  | .columnCount => if value = 0x80 then words 1 rest else some 0
  | .content => listOperands (fun v => v = 0 || v = 1) (fun v => some (contentItemWidth v)) value rest
  | .counterIncrement | .counterReset => listOperands (· = 0) (fun _ => some 2) value rest
  | .cursor => listOperands (· ≠ 0x80) (fun _ => some 1) value rest
  | .elevation => if value = 0x80 then words 2 rest else some 0
  | .flexBasis => if value = 0x80 then words 2 rest else some 0
  | .flexGrow => if value = 0x80 then words 1 rest else some 0
  | .flexShrink => if value = 0x80 then words 1 rest else some 0
  | .fontFamily => listOperands (· = 0) (fun v => some (if v = 0x80 ∨ v = 0x81 then 1 else 0)) value rest
  | .fontSize => if value = 0x80 then words 2 rest else some 0
  | .letterSpacing | .wordSpacing => if value = 0x80 then words 2 rest else some 0
  | .lineHeight => if value = 0x80 then words 1 rest else if value = 0x81 then words 2 rest else some 0
  | .maxHeight | .maxWidth => if value = 0x80 then words 2 rest else some 0
  | .paddingTop | .paddingRight | .paddingBottom | .paddingLeft | .minHeight | .minWidth | .pauseAfter
  | .pauseBefore | .textIndent => if value = 0x80 then words 2 rest else some 0
  | .opacity => if value = 0x80 then words 1 rest else some 0
  | .fillOpacity => if value = 0x80 then words 1 rest else some 0
  | .strokeOpacity => if value = 0x80 then words 1 rest else some 0
  | .order => if value = 0x80 then words 1 rest else some 0
  | .orphans | .pitchRange | .richness | .stress | .widows => if value = 0x80 then words 1 rest else some 0
  | .outlineColor => if value = 0x80 then words 1 rest else some 0
  | .pitch => if value = 0x80 then words 2 rest else some 0
  | .playDuring => if value &&& 0x80 ≠ 0 then words 1 rest else some 0
  | .quotes => listOperands (· = 0) (fun _ => some 2) value rest
  | .speechRate => if value = 0x80 then words 1 rest else some 0
  | .verticalAlign => if value = 0x80 then words 2 rest else some 0
  | .voiceFamily => listOperands (· = 0) (fun v => some (if v = 0x80 ∨ v = 0x81 then 1 else 0)) value rest
  | .volume => if value = 0x80 then words 1 rest else if value = 0x81 then words 2 rest else some 0
  | .zIndex => if value = 0x80 then words 1 rest else some 0
  | _ => some 0

/-- "Advance past any property-specific data" -/
def advance (opv : Word) (rest : List Word) : Option Nat :=
  let value := (getValue opv).toNat
  if hasFlagValue opv = false ∧ value = valueIsCalc then words 2 rest
  else if hasFlagValue opv = false then (propertyOf opv).elim (some 0) (fun p => propertyData p value rest)
  else some 0

def setImportant (opv : Word) : Word := buildOPV (getOpcode opv) (getFlags opv ||| 1) (getValue opv)

/-- The loop of `css__make_style_important`; each round takes a word at least. -/
def importantLoop : Nat → List Word → Option (List Word)
  | 0, bytecode => if bytecode = [] then some [] else none
  | fuel + 1, bytecode =>
    match bytecode with
    | [] => some []
    | opv :: rest => do
      let n ← advance opv rest
      let behind ← importantLoop fuel (rest.drop n)
      return setImportant opv :: rest.take n ++ behind

/-- `css__make_style_important`: the bytecode it leaves, none where it does not end at the end. -/
def makeStyleImportant (bytecode : List Word) : Option (List Word) := importantLoop bytecode.length bytecode

private theorem setImportant_eq (opv : Word) : setImportant opv = opv ||| 0x400 := by
  apply BitVec.eq_of_getLsbD_eq
  intro i inside
  simp only [setImportant, buildOPV, getOpcode, getFlags, getValue, BitVec.getLsbD_or, BitVec.getLsbD_and,
    BitVec.getLsbD_shiftLeft, BitVec.getLsbD_setWidth, BitVec.getLsbD_ushiftRight]
  interval_cases i <;> simp

@[simp] theorem getOpcode_setImportant (opv : Word) : getOpcode (setImportant opv) = getOpcode opv := by
  rw [setImportant_eq]
  apply BitVec.eq_of_getLsbD_eq
  intro i inside
  simp only [getOpcode, BitVec.getLsbD_or, BitVec.getLsbD_and]
  interval_cases i <;> simp

@[simp] theorem getValue_setImportant (opv : Word) : getValue (setImportant opv) = getValue opv := by
  rw [setImportant_eq]
  apply BitVec.eq_of_getLsbD_eq
  intro i inside
  simp only [getValue, BitVec.getLsbD_or, BitVec.getLsbD_setWidth, BitVec.getLsbD_ushiftRight]
  interval_cases i <;> simp

@[simp] theorem getFlags_setImportant (opv : Word) : getFlags (setImportant opv) = getFlags opv ||| 1 := by
  rw [setImportant_eq]
  apply BitVec.eq_of_getLsbD_eq
  intro i inside
  simp only [getFlags, BitVec.getLsbD_or, BitVec.getLsbD_setWidth, BitVec.getLsbD_ushiftRight, BitVec.getLsbD_and]
  interval_cases i <;> simp

@[simp] theorem hasFlagValue_setImportant (opv : Word) : hasFlagValue (setImportant opv) = hasFlagValue opv := by
  have same : getFlagValue (setImportant opv) = getFlagValue opv := by
    simp only [getFlagValue, getFlags_setImportant]
    apply BitVec.eq_of_getLsbD_eq
    intro i inside
    simp only [BitVec.getLsbD_or, BitVec.getLsbD_ushiftRight, BitVec.getLsbD_and]
    interval_cases i <;> simp
  rw [hasFlagValue, hasFlagValue, same]

theorem isImportant_of_flags {opv : Word} (same : getFlags opv = getFlags opv ||| 1) : isImportant opv = true := by
  have bit := congrArg (fun flags => flags.getLsbD 0) same
  simp only [BitVec.getLsbD_or] at bit
  have set : (getFlags opv &&& 1).getLsbD 0 = true := by
    rw [BitVec.getLsbD_and, bit]
    simp
  simp only [isImportant, ne_eq, decide_eq_true_eq]
  intro zero
  rw [zero] at set
  simp at set

@[simp] theorem cascadeOperands_setImportant (opv : Word) (rest : List Word) :
    cascadeOperands (setImportant opv) rest = cascadeOperands opv rest := by
  simp [cascadeOperands, propertyOf]

def valueData (p : Property) (value : Nat) (rest : List Word) : Option Nat :=
  if value = valueIsCalc then words 2 rest else propertyData p value rest

variable {width' width : Nat → Option Nat} {stop' stop : Nat → Bool} {pending fuel : Nat}
  {more befores afters : List Word} {encodings : List Encoding}

private theorem listLoop_agree
    (agree : ∀ v, stop v = true ∧ stop' v = true ∨ stop v = false ∧ (∀ n, width v = some n → stop' v = false ∧ width' v = some n))
    {rest : List Word} {n : Nat} (read : listLoop stop width pending rest = some n) :
    listLoop stop' width' pending rest = some n := by
  induction rest generalizing pending n with
  | nil => simp [listLoop] at read
  | cons word rest ih =>
    cases pending with
    | succ pending =>
      simp only [listLoop, map_eq_some_iff] at read ⊢
      obtain ⟨k, read, rfl⟩ := read
      exact ⟨k, ih read, rfl⟩
    | zero =>
      simp only [listLoop] at read ⊢
      rcases agree word.toNat with ⟨ends, ends'⟩ | ⟨goes, item⟩
      · simpa [ends, ends'] using read
      · simp only [goes, Bool.false_eq_true, ↓reduceIte, bind_eq_some_iff, map_eq_some_iff] at read
        obtain ⟨k, width, m, read, rfl⟩ := read
        obtain ⟨goes', width'⟩ := item k width
        simp [goes', width', ih read]

private theorem listOperands_agree
    (agree : ∀ v, stop v = true ∧ stop' v = true ∨ stop v = false ∧ (∀ n, width v = some n → stop' v = false ∧ width' v = some n))
    {value n : Nat} {rest : List Word} (read : listOperands stop width value rest = some n) :
    listOperands stop' width' value rest = some n := by
  simp only [listOperands] at read ⊢
  rcases agree value with ⟨ends, ends'⟩ | ⟨goes, item⟩
  · simpa [ends, ends'] using read
  · simp only [goes, Bool.false_eq_true, ↓reduceIte, bind_eq_some_iff] at read
    obtain ⟨k, width, read⟩ := read
    obtain ⟨goes', width'⟩ := item k width
    simp [goes', width', listLoop_agree agree read]

private theorem content_items (v : Nat) : (decide (v = 0) = true ∧ (decide (v = 0) || decide (v = 1)) = true) ∨
    decide (v = 0) = false ∧ (∀ n, contentWidth v = some n → (decide (v = 0) || decide (v = 1)) = false ∧
      some (contentItemWidth v) = some n) := by
  by_cases zero : v = 0
  · simp [zero]
  · refine Or.inr ⟨by simp [zero], fun n width => ?_⟩
    by_cases one : v = 1
    · have absent : contentWidth 1 = none := by decide
      rw [one, absent] at width
      cases width
    · refine ⟨by simp [zero, one], ?_⟩
      revert width
      unfold contentWidth contentItemWidth
      split <;> simp_all

private theorem family_items (generic v : Nat) : (decide (v = 0) = true ∧ decide (v = 0) = true) ∨
    decide (v = 0) = false ∧ (∀ n, familyWidth generic v = some n → decide (v = 0) = false ∧
      some (if v = 0x80 ∨ v = 0x81 then 1 else 0) = some n) := by
  by_cases zero : v = 0
  · simp [zero]
  · refine Or.inr ⟨by simp [zero], fun n width => ⟨by simp [zero], ?_⟩⟩
    revert width
    unfold familyWidth
    split_ifs <;> simp

section
variable {value n : Nat} {rest : List Word}

private theorem keywords_data (count : Nat) (small : count ≤ valueIsCalc)
    (valid : (Layout.keywords count).isValue value = true)
    (read : (Layout.keywords count).operands value rest = some n) :
    (if value = valueIsCalc then words 2 rest else some 0) = some n := by
  have other : value ≠ valueIsCalc := by
    simp only [Layout.isValue, decide_eq_true_eq] at valid
    omega
  rw [if_neg other]
  exact read

private theorem set_data (count operands : Nat) (small : count ≤ valueIsCalc)
    (valid : (Layout.set count operands).isValue value = true)
    (read : (Layout.set count operands).operands value rest = some n) :
    (if value = valueIsCalc then words 2 rest else if value = 0x80 then words operands rest else some 0) = some n := by
  have other : value ≠ valueIsCalc := by
    simp only [Layout.isValue, Bool.or_eq_true, decide_eq_true_eq, valueIsCalc] at valid small ⊢
    omega
  rw [if_neg other]
  exact read

private theorem setOrCalc_data (count operands : Nat)
    (read : (Layout.setOrCalc count operands).operands value rest = some n) :
    (if value = valueIsCalc then words 2 rest else if value = 0x80 then words operands rest else some 0) = some n := by
  simp only [Layout.operands] at read
  split_ifs at read ⊢ <;> simp_all [valueIsCalc]

private theorem numberOrDimension_data (count : Nat)
    (read : (Layout.numberOrDimension count).operands value rest = some n) :
    (if value = valueIsCalc then words 2 rest else if value = 0x80 then words 1 rest
      else if value = 0x81 then words 2 rest else some 0) = some n := by
  simp only [Layout.operands] at read
  split_ifs at read ⊢ <;> simp_all [valueIsCalc]

private theorem always_data (operands : Nat) (valid : (Layout.always operands).isValue value = true)
    (read : (Layout.always operands).operands value rest = some n) :
    (if value = valueIsCalc then words 2 rest else if value = 0x80 then words operands rest else some 0) = some n := by
  simp only [Layout.isValue, decide_eq_true_eq] at valid
  rw [valid]
  exact read

end

def MixedPlayDuring (p : Property) (value : Nat) : Prop := p = .playDuring ∧ value &&& 0x80 ≠ 0 ∧ value ≠ 0x80

private theorem not_calc {l : Layout} {value : Nat} (none : l.isValue valueIsCalc = false)
    (valid : l.isValue value = true) : value ≠ valueIsCalc := by
  rintro rfl
  rw [none] at valid
  cases valid

theorem valueData_eq {p : Property} {value n : Nat} {rest : List Word} (valid : (layout p).isValue value = true)
    (read : (layout p).operands value rest = some n) (plain : ¬ MixedPlayDuring p value) :
    valueData p value rest = some n := by
  cases p
  case azimuth | backgroundPosition | clip | cursor | quotes =>
    rw [valueData, if_neg (not_calc (by decide) valid)]
    exact read
  case content =>
    rw [valueData, if_neg (not_calc (by decide) valid)]
    simp only [layout, Layout.operands] at read
    split_ifs at read with none
    · cases read
      rw [none]
      rfl
    · exact listOperands_agree content_items read
  case counterIncrement | counterReset =>
    simp only [layout, Layout.isValue, Bool.or_eq_true, decide_eq_true_eq] at valid
    rcases valid with rfl | rfl <;> exact read
  case fontFamily | voiceFamily =>
    rw [valueData, if_neg (not_calc (by decide) valid)]
    exact listOperands_agree (family_items _) read
  case playDuring =>
    have same : value &&& 0x80 ≠ 0 ↔ value = 0x80 := by
      refine ⟨fun uri => ?_, fun uri => by rw [uri]; decide⟩
      by_contra mixed
      exact plain ⟨rfl, uri, mixed⟩
    rw [valueData, if_neg (not_calc (by decide) valid)]
    simp only [propertyData, same]
    exact read
  all_goals first
    | exact keywords_data _ (by decide) valid read
    | exact set_data _ _ (by decide) valid read
    | exact setOrCalc_data _ _ read
    | exact numberOrDimension_data _ read
    | exact always_data _ valid read

private theorem words_append {n m : Nat} {rest : List Word} (read : words n rest = some m) :
    words n (rest ++ more) = some m := by
  unfold words at read ⊢
  split_ifs at read with enough
  rw [if_pos (by rw [length_append]; omega)]
  exact read

private theorem listLoop_append {n : Nat} {rest : List Word} (read : listLoop stop width pending rest = some n) :
    listLoop stop width pending (rest ++ more) = some n := by
  induction rest generalizing pending n with
  | nil => simp [listLoop] at read
  | cons word rest ih =>
    cases pending with
    | succ pending =>
      simp only [cons_append, listLoop, map_eq_some_iff] at read ⊢
      obtain ⟨k, read, rfl⟩ := read
      exact ⟨k, ih read, rfl⟩
    | zero =>
      simp only [cons_append, listLoop] at read ⊢
      split_ifs at read ⊢
      · exact read
      · simp only [bind_eq_some_iff, map_eq_some_iff] at read ⊢
        obtain ⟨k, width, m, read, rfl⟩ := read
        exact ⟨k, width, m, ih read, rfl⟩

private theorem listOperands_append {value n : Nat} {rest : List Word}
    (read : listOperands stop width value rest = some n) : listOperands stop width value (rest ++ more) = some n := by
  simp only [listOperands] at read ⊢
  split_ifs at read ⊢
  · exact read
  · simp only [bind_eq_some_iff] at read ⊢
    obtain ⟨k, width, read⟩ := read
    exact ⟨k, width, listLoop_append read⟩

private theorem operands_append (l : Layout) {value n : Nat} {rest : List Word}
    (read : l.operands value rest = some n) : l.operands value (rest ++ more) = some n := by
  cases l <;> simp only [Layout.operands] at read ⊢
  case keywords => exact read
  case always | backgroundPosition => exact words_append read
  case cursor | families | quotes => exact listOperands_append read
  case content | counters =>
    split_ifs at read ⊢
    · first | exact read | exact listOperands_append read
    · first | exact read | exact listOperands_append read
  all_goals
    split_ifs at read ⊢ <;> first | exact read | exact words_append read

section
variable {e : Encoding}

/-- A play-during encoding of a URI with mix or repeat. -/
def Mixed (e : Encoding) : Prop :=
  propertyOf e.opv = some .playDuring ∧ hasFlagValue e.opv = false ∧
    (getValue e.opv).toNat &&& 0x80 ≠ 0 ∧ (getValue e.opv).toNat ≠ 0x80

theorem cascadeOperands_append (wellFormed : e.WellFormed) (more : List Word) :
    cascadeOperands e.opv (e.operands ++ more) = some e.operands.length := by
  obtain ⟨p, found, -, read⟩ := wellFormed
  simp only [cascadeOperands, found, bind_some] at read ⊢
  split_ifs at read ⊢
  · exact read
  · exact operands_append (layout p) read

private theorem advance_eq (wellFormed : e.WellFormed) (plain : ¬ Mixed e) (more : List Word) :
    advance e.opv (e.operands ++ more) = some e.operands.length := by
  have read := cascadeOperands_append wellFormed more
  obtain ⟨p, found, valid, -⟩ := wellFormed
  simp only [cascadeOperands, found, bind_some] at read
  cases flagged : hasFlagValue e.opv with
  | true => simpa [advance, flagged] using read
  | false =>
    have mixed : ¬ MixedPlayDuring p (getValue e.opv).toNat := by
      rintro ⟨rfl, uri, other⟩
      exact plain ⟨found, flagged, uri, other⟩
    rw [flagged] at read
    have same := valueData_eq (valid flagged) read mixed
    simpa [advance, flagged, found, valueData] using same

private theorem mixed_operands (wellFormed : e.WellFormed) (mixed : Mixed e) :
    e.operands = [] ∧ ∀ rest, advance e.opv rest = words 1 rest := by
  obtain ⟨p, found, valid, read⟩ := wellFormed
  obtain ⟨playDuring, flagged, uri, other⟩ := mixed
  cases found.symm.trans playDuring
  constructor
  · simp only [cascadeOperands, found, bind_some, flagged, Bool.false_eq_true, ↓reduceIte, layout,
      Layout.operands, other] at read
    exact eq_nil_of_length_eq_zero (Option.some.inj read).symm
  · intro rest
    have calc' := not_calc (l := .playDuring) (by decide) (valid flagged)
    simp [advance, flagged, found, calc', propertyData, uri]

end

def marks (encodings : List Encoding) : List Bool :=
  encodings.flatMap (fun e => true :: List.replicate e.operands.length false)

/-- The style with every opcode important. -/
def important (encodings : List Encoding) : List Word :=
  encodings.flatMap (fun e => setImportant e.opv :: e.operands)

theorem enough_rest {e : Encoding} (enough : (bytecode (e :: encodings)).length ≤ fuel + 1) :
    (bytecode encodings).length ≤ fuel := by
  simp only [bytecode, flatMap_cons, length_append, length_cons] at enough ⊢
  omega

private theorem cascadeWalk_bytecode {f : Word → Word}
    (same : ∀ opv rest, cascadeOperands (f opv) rest = cascadeOperands opv rest)
    (wellFormed : ∀ e ∈ encodings, e.WellFormed) (enough : (bytecode encodings).length ≤ fuel) :
    cascadeWalk fuel (encodings.flatMap (fun e => f e.opv :: e.operands)) = some (marks encodings) := by
  induction encodings generalizing fuel with
  | nil => cases fuel <;> rfl
  | cons e es ih =>
    cases fuel with
    | zero => simp [bytecode] at enough
    | succ fuel =>
      have tail := ih (fun e member => wellFormed e (mem_cons_of_mem _ member)) (enough_rest enough)
      have read := cascadeOperands_append (wellFormed e (mem_cons_self ..))
        (es.flatMap (fun e => f e.opv :: e.operands))
      simp only [flatMap_cons, cons_append, cascadeWalk, same, read, bind_eq_bind, bind_some, drop_left, tail]
      rfl

private theorem bytecode_length (f : Word → Word) (encodings : List Encoding) :
    (encodings.flatMap (fun e => f e.opv :: e.operands)).length = (bytecode encodings).length := by
  simp [bytecode, length_flatMap]

theorem decoded_bytecode (wellFormed : ∀ e ∈ encodings, e.WellFormed) :
    decoded (bytecode encodings) = some (marks encodings) ∧
      decoded (important encodings) = some (marks encodings) := by
  refine ⟨cascadeWalk_bytecode (f := id) (fun _ _ => rfl) wellFormed le_rfl, ?_⟩
  exact cascadeWalk_bytecode cascadeOperands_setImportant wellFormed (bytecode_length _ _).ge

theorem importantLoop_bytecode (wellFormed : ∀ e ∈ encodings, e.WellFormed) (plain : ∀ e ∈ encodings, ¬ Mixed e)
    (enough : (bytecode encodings).length ≤ fuel) :
    importantLoop fuel (bytecode encodings) = some (important encodings) := by
  induction encodings generalizing fuel with
  | nil => cases fuel <;> rfl
  | cons e es ih =>
    cases fuel with
    | zero => simp [bytecode] at enough
    | succ fuel =>
      have tail := ih (fun e member => wellFormed e (mem_cons_of_mem _ member))
        (fun e member => plain e (mem_cons_of_mem _ member)) (enough_rest enough)
      have read := advance_eq (wellFormed e (mem_cons_self ..)) (plain e (mem_cons_self ..)) (bytecode es)
      rw [bytecode, flatMap_cons, cons_append, ← bytecode]
      simp only [importantLoop, read, bind_eq_bind, bind_some, drop_left, take_left, tail]
      rfl

/-- A word after the walk: an opcode has become important and kept its opcode, value and other flags, any
    other word is unchanged. -/
def Kept : Bool → Word → Word → Prop
  | true, before, after => getOpcode after = getOpcode before ∧ getValue after = getValue before ∧
      getFlags after = getFlags before ||| 1
  | false, before, after => after = before

/-- The words of a style after the walk, for the words that are opcodes. -/
inductive AllKept : List Bool → List Word → List Word → Prop
  | nil : AllKept [] [] []
  | cons {mark : Bool} {before after : Word} {marks : List Bool} {befores afters : List Word} :
      Kept mark before after → AllKept marks befores afters →
      AllKept (mark :: marks) (before :: befores) (after :: afters)

/-- The walker ends at the end of the style and makes exactly the words important that `cascade_style`
    decodes as opcodes, then as before. -/
def Agrees (style : List Word) : Prop :=
  ∃ marks after, decoded style = some marks ∧ makeStyleImportant style = some after ∧
    decoded after = some marks ∧ AllKept marks style after

private theorem allKept_operands (operands : List Word) {marks : List Bool} (kept : AllKept marks befores afters) :
    AllKept (List.replicate operands.length false ++ marks) (operands ++ befores) (operands ++ afters) := by
  induction operands with
  | nil => exact kept
  | cons word operands ih => exact .cons rfl ih

private theorem allKept_important (encodings : List Encoding) :
    AllKept (marks encodings) (bytecode encodings) (important encodings) := by
  induction encodings with
  | nil => exact .nil
  | cons e es ih =>
    simp only [marks, bytecode, important, flatMap_cons, cons_append]
    exact .cons ⟨getOpcode_setImportant _, getValue_setImportant _, getFlags_setImportant _⟩
      (allKept_operands e.operands ih)

private theorem allKept_drop (operands : List Word) {marks : List Bool}
    (kept : AllKept (List.replicate operands.length false ++ marks) (operands ++ befores) (operands ++ afters)) :
    AllKept marks befores afters := by
  induction operands with
  | nil => exact kept
  | cons word operands ih =>
    cases kept with
    | cons _ kept => exact ih kept

/-- Where no opcode is important yet, a walk that makes exactly the opcodes important meets no mixed
    play-during URI: the opcode behind one is skipped for its operand. -/
private theorem no_mixed (wellFormed : ∀ e ∈ encodings, e.WellFormed)
    (fresh : ∀ e ∈ encodings, isImportant e.opv = false) {after : List Word}
    (walked : importantLoop fuel (bytecode encodings) = some after)
    (kept : AllKept (marks encodings) (bytecode encodings) after) : ∀ e ∈ encodings, ¬ Mixed e := by
  induction encodings generalizing fuel after with
  | nil => simp
  | cons e es ih =>
    have wellFormedHead := wellFormed e (mem_cons_self ..)
    have split : bytecode (e :: es) = e.opv :: (e.operands ++ bytecode es) := by simp [bytecode]
    have splitMarks : marks (e :: es) = true :: (List.replicate e.operands.length false ++ marks es) := by
      simp [marks]
    cases fuel with
    | zero => simp [importantLoop, split] at walked
    | succ fuel =>
      rw [split] at walked
      simp only [importantLoop, bind_eq_bind, bind_eq_some_iff] at walked
      obtain ⟨n, read, behind, walked, result⟩ := walked
      cases result
      rw [split, splitMarks] at kept
      by_cases mixed : Mixed e
      · exfalso
        obtain ⟨none, skips⟩ := mixed_operands wellFormedHead mixed
        rw [none, nil_append, skips] at read
        cases es with
        | nil => simp [bytecode, words] at read
        | cons next es =>
          have one : n = 1 := by
            simp only [words, bytecode, flatMap_cons, length_append, length_cons] at read
            split_ifs at read with enough
            exact (Option.some.inj read).symm
          rw [none, one] at kept
          simp only [length_nil, replicate_zero, nil_append, marks, bytecode, flatMap_cons,
            cons_append, take_succ_cons, take_zero] at kept
          cases kept with
          | cons _ kept =>
            cases kept with
            | cons unchanged _ =>
              have already := isImportant_of_flags unchanged.2.2
              rw [fresh next (by simp)] at already
              cases already
      · have same := advance_eq wellFormedHead mixed (bytecode es)
        rw [same] at read
        cases read
        rw [drop_left] at walked
        rw [take_left] at kept
        have keptTail : AllKept (marks es) (bytecode es) behind := by
          cases kept with
          | cons _ kept => exact allKept_drop e.operands kept
        have tail := ih (fun e member => wellFormed e (mem_cons_of_mem _ member))
          (fun e member => fresh e (mem_cons_of_mem _ member)) walked keptTail
        intro other member
        rcases mem_cons.mp member with rfl | member
        · exact mixed
        · exact tail other member

/-- On every sequence of well-formed encodings without a mixed play-during URI the walkers agree; and
    where no encoding is important yet, they agree on no other. -/
theorem make_important_agrees (encodings : List Encoding) (wellFormed : ∀ e ∈ encodings, e.WellFormed) :
    ((∀ e ∈ encodings, ¬ Mixed e) → Agrees (bytecode encodings)) ∧
      ((∀ e ∈ encodings, isImportant e.opv = false) →
        (Agrees (bytecode encodings) ↔ ∀ e ∈ encodings, ¬ Mixed e)) := by
  obtain ⟨before, afterwards⟩ := decoded_bytecode wellFormed
  have agrees : (∀ e ∈ encodings, ¬ Mixed e) → Agrees (bytecode encodings) := fun plain =>
    ⟨marks encodings, important encodings, before, importantLoop_bytecode wellFormed plain le_rfl, afterwards,
      allKept_important encodings⟩
  refine ⟨agrees, fun fresh => ⟨?_, agrees⟩⟩
  rintro ⟨marked, after, decodedAs, walked, -, kept⟩
  cases before.symm.trans decodedAs
  exact no_mixed wellFormed fresh walked kept

/-- The bytecode that the parser makes of `play-during: url(x) mix`, the URI being the first string of the
    sheet, as `cascade_style` decodes it: the number of the URI is the opcode of background-attachment. -/
def mixedUri : List Encoding := [⟨buildOPV 0x48 0 0xc0, []⟩, ⟨1, []⟩]

/-- The walker takes the number of the URI for an operand, `cascade_style` for an opcode. -/
theorem mixed_play_during_disagrees :
    (∀ e ∈ mixedUri, e.WellFormed) ∧ bytecode mixedUri = [buildOPV 0x48 0 0xc0, 1] ∧ ¬ Agrees (bytecode mixedUri) := by
  have wellFormed : ∀ e ∈ mixedUri, e.WellFormed := by
    intro e member
    simp only [mixedUri, mem_cons, not_mem_nil, or_false] at member
    rcases member with rfl | rfl
    · exact ⟨.playDuring, by decide, by decide, by decide⟩
    · exact ⟨.backgroundAttachment, by decide, by decide, by decide⟩
  refine ⟨wellFormed, rfl, ?_⟩
  rintro ⟨marked, after, decodedAs, walked, -, kept⟩
  cases (decoded_bytecode wellFormed).1.symm.trans decodedAs
  have plain := no_mixed wellFormed (by decide) walked kept
  exact plain _ (mem_cons_self ..) ⟨by decide, by decide, by decide, by decide⟩

/-- A style of a colour and a font family list meets the hypothesis. -/
theorem make_important_agrees_list : let encodings : List Encoding :=
      [⟨buildOPV 0x18 0 0x80, [0xff00ff00]⟩, ⟨buildOPV 0x24 0 0x80, [3, 0x81, 4, 1, 0]⟩]
    (∀ e ∈ encodings, e.WellFormed) ∧ Agrees (bytecode encodings) := by
  intro encodings
  have wellFormed : ∀ e ∈ encodings, e.WellFormed := by
    intro e member
    simp only [encodings, mem_cons, not_mem_nil, or_false] at member
    rcases member with rfl | rfl
    · exact ⟨.color, by decide, by decide, by decide⟩
    · exact ⟨.fontFamily, by decide, by decide, by decide⟩
  refine ⟨wellFormed, (make_important_agrees encodings wellFormed).1 ?_⟩
  intro e member mixed
  simp only [encodings, mem_cons, not_mem_nil, or_false] at member
  rcases member with rfl | rfl
  · exact absurd mixed.1 (by decide)
  · exact absurd mixed.1 (by decide)

end Besra.Important
