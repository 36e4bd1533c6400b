import Mathlib
import Besra.Lwc

/-!
Labels of list items (`libcss/src/select/format_list_style.c`): the systems that turn a value into indices of symbols,
and the text made from these.

The numeric and the alphabetic system generate the same way (`generateLoop`), with the least index first, and reverse
the array in place (`reverseLoop`). Read as a number in the base of the symbols, with one more for each index in the
alphabetic system, the indices are the value again (`decode_generate`).
-/
namespace Besra.FormatListStyle
open Lwc List

/-- `struct numeric`; the length is that of `val`. -/
structure Numeric where
  val : List UInt8
  used : Nat
  negative : Bool
deriving DecidableEq

/-- The functions a style may have as its `system`. -/
inductive System where
  | numeric
  | cyclic
  | additive
  | alphabet
  | roman
deriving DecidableEq

/-- `struct list_counter_style`, without the name; a text that is `NULL` is absent. -/
structure CounterStyle where
  system : System
  fallback : Option CounterStyle := none
  symbols : List (List UInt8)
  weights : List Nat := []
  range : Int × Int := (0, 0)
  pad : Nat × List UInt8 := (0, [])
  negativePre : Option (List UInt8) := none
  negativePost : Option (List UInt8) := none
  prefixText : Option (List UInt8) := none
  suffix : Option (List UInt8) := none

def CounterStyle.items (style : CounterStyle) : Nat := style.symbols.length

/-- The loop that generates values "in ascending order"; `offset` is what is taken off in each round. -/
def generateLoop (offset items : Nat) : Nat → Nat → Nat → List UInt8 → List UInt8 × Nat
  | 0, _, idx, val => (val, idx)
  | fuel + 1, value, idx, val =>
    if 0 < value then
      let value := value - offset
      generateLoop offset items fuel (value / items) (idx + 1)
        (if idx < val.length then val.set idx (UInt8.ofNat (value % items)) else val)
    else (val, idx)

/-- `*first ^= *last; *last ^= *first; *first ^= *last` -/
def swap (val : List UInt8) (first last : Nat) : List UInt8 :=
  let val := val.set first (val.getD first 0 ^^^ val.getD last 0)
  let val := val.set last (val.getD last 0 ^^^ val.getD first 0)
  val.set first (val.getD first 0 ^^^ val.getD last 0)

def reverseLoop : Nat → List UInt8 → Nat → Nat → List UInt8
  | 0, val, _, _ => val
  | fuel + 1, val, first, last =>
    if first < last then reverseLoop fuel (swap val first last) (first + 1) (last - 1) else val

/-- What both systems that generate do with a value greater than zero, which has no more digits than units. -/
def generate (offset items value : Nat) (val : List UInt8) : List UInt8 × Nat :=
  let (val, idx) := generateLoop offset items value value 0 val
  let last := if idx < val.length then idx - 1 else val.length - 1
  (reverseLoop val.length val 0 last, idx)

/-- `calc_numeric_system`; `abs` of the least `int` is that `int`, and no value to generate. -/
def calcNumericSystem (value : Int32) (style : CounterStyle) (nval : Numeric) : Option Numeric :=
  if value = 0 then some { nval with val := nval.val.set 0 0, used := 1 }
  else
    let negative : Bool := value < 0
    let value := if negative then value.abs else value
    let (val, used) := generate 0 style.items value.toInt.toNat nval.val
    some { val, used, negative }

def calcCyclicSystem (value : Int32) (style : CounterStyle) (nval : Numeric) : Option Numeric :=
  if nval.val.length = 0 then none
  else
    let index := if style.items = 1 then 0 else ((value - 1).toInt % 2 ^ 64).toNat % style.items
    some { val := nval.val.set 0 (UInt8.ofNat index), used := 1, negative := false }

/-- The loop over the weights: `times` values for each, as far as there is room. -/
def additiveLoop : List Nat → Nat → Nat → Nat → List UInt8 → List UInt8 × Nat
  | [], _, _, aidx, val => (val, aidx)
  | weight :: weights, widx, value, aidx, val =>
    if weight = 0 then (val, aidx)
    else
      let times := value / weight
      let val := (List.range times).foldl (fun val k =>
        if aidx + k < val.length then val.set (aidx + k) (UInt8.ofNat widx) else val) val
      additiveLoop weights (widx + 1) (value - times * weight) (aidx + times) val

/-- `calc_additive_system`; no range has the least `int` in it. -/
def calcAdditiveSystem (value : Int32) (style : CounterStyle) (nval : Numeric) : Option Numeric :=
  if value.toInt < style.range.1 ∨ style.range.2 < value.toInt then none
  else if value = 0 then
    if style.weights.idxOf 0 < style.items then
      some { val := nval.val.set 0 (UInt8.ofNat (style.weights.idxOf 0)), used := 1, negative := false }
    else none
  else
    let negative : Bool := value < 0
    let value := if negative then value.abs else value
    let (val, used) := additiveLoop style.weights 0 value.toInt.toNat 0 nval.val
    some { val, used, negative }

def calcAlphabetSystem (value : Int32) (style : CounterStyle) (nval : Numeric) : Option Numeric :=
  if value < 1 then none
  else
    let (val, used) := generate 1 style.items value.toInt.toNat nval.val
    some { val, used, negative := false }

/-- `if (k < nval->len) nval->val[k++] = v` -/
def put (out : List UInt8 × Nat) (v : Nat) : List UInt8 × Nat :=
  if out.2 < out.1.length then (out.1.set out.2 (UInt8.ofNat v), out.2 + 1) else out

/-- The loop of `calc_roman_system` over the weights from `i` on; `r2` is left from the round before. -/
def romanLoop (weights : List Nat) : Nat → Nat → Nat → Nat → List UInt8 × Nat → List UInt8 × Nat
  | 0, _, _, _, out => out
  | fuel + 1, i, value, r2, out =>
    if 0 < value then
      let s := [0, 2, 4, 2, 4, 2, 4].getD i 0
      let weight := weights.getD i 0
      if weight ≤ value then
        let r := value / weight
        let value := value - r * weight
        let next := weights.getD (i + 1) 0
        let r2 := if i < 6 then value / next else r2
        if i < 6 ∧ [0, 2, 4, 2, 4, 2, 4].getD (i + 1) 0 ≤ r2 then
          romanLoop weights fuel (i + 1) (value - r2 * next) r2 (put (put out (i + 1)) (i - 1))
        else if s ≠ 0 ∧ s ≤ r then romanLoop weights fuel (i + 1) value r2 (put (put out i) (i - 1))
        else romanLoop weights fuel (i + 1) value r2 ((List.replicate r i).foldl put out)
      else romanLoop weights fuel (i + 1) value r2 out
    else out

/-- `calc_roman_system`, for the seven weights that it asserts. -/
def calcRomanSystem (value : Int32) (style : CounterStyle) (nval : Numeric) : Option Numeric :=
  if value.toInt < style.range.1 ∨ style.range.2 < value.toInt then none
  else
    let (val, used) := romanLoop style.weights 7 0 value.toInt.toNat 0 (nval.val, 0)
    some { val, used, negative := false }

/-- `cstyle->system`; none where it gives `CSS_INVALID`, which leaves `nval` as it is. -/
def CounterStyle.calc (style : CounterStyle) (value : Int32) (nval : Numeric) : Option Numeric :=
  match style.system with
  | .numeric => calcNumericSystem value style nval
  | .cyclic => calcCyclicSystem value style nval
  | .additive => calcAdditiveSystem value style nval
  | .alphabet => calcAlphabetSystem value style nval
  | .roman => calcRomanSystem value style nval

structure Out where
  buf : Nat → UInt8
  oidx : Nat

/-- `copy_string` and `copy_symbol`: bytes behind the buffer are counted only. -/
def copy (buflen : Nat) (out : Out) (text : List UInt8) : Out :=
  text.foldl (fun out c => ⟨if out.oidx < buflen then Function.update out.buf out.oidx c else out.buf, out.oidx + 1⟩) out

def CounterStyle.symbol (style : CounterStyle) (index : UInt8) : List UInt8 := style.symbols.getD index.toNat []

def nvalToSymbols (nval : Numeric) (style : CounterStyle) (buf : Nat → UInt8) (buflen : Nat) : Out :=
  let out : Out := ⟨buf, 0⟩
  let out := copy buflen out (style.prefixText.getD [])
  let out := if nval.negative then copy buflen out (style.negativePre.getD (lit "-")) else out
  let out := (List.replicate (style.pad.1 - nval.used) style.pad.2).foldl (copy buflen) out
  let out := (nval.val.take nval.used).foldl (fun out index => copy buflen out (style.symbol index)) out
  let out := if nval.negative then copy buflen out (style.negativePost.getD []) else out
  copy buflen out (style.suffix.getD (lit "."))

def CounterStyle.chain : CounterStyle → List CounterStyle
  | ⟨system, fallback, symbols, weights, range, pad, pre, post, prefixText, suffix⟩ =>
    ⟨system, fallback, symbols, weights, range, pad, pre, post, prefixText, suffix⟩ ::
      match fallback with
      | none => []
      | some fallback => fallback.chain

/-- The loop of `css_computed_format_list_style`: the style that succeeds, and what it made. -/
def choose (value : Int32) : List CounterStyle → Numeric → Option (CounterStyle × Numeric)
  | [], _ => none
  | style :: fallbacks, nval =>
    match style.calc value nval with
    | none => choose value fallbacks nval
    | some nval => if nval.used < nval.val.length then some (style, nval) else choose value fallbacks nval

/-- `nval` at first; `memory` is what `aval` holds then. -/
def start (memory : List UInt8) : Numeric := ⟨memory, 0, false⟩

def ascending (offset items : Nat) : Nat → Nat → List Nat
  | 0, _ => []
  | fuel + 1, value =>
    if 0 < value then (value - offset) % items :: ascending offset items fuel ((value - offset) / items) else []

/-- The number that a list of indices is in base `items`, with `offset` added to each. -/
def decode (offset items : Nat) (indices : List Nat) : Nat :=
  indices.foldl (fun value index => value * items + (index + offset)) 0

theorem decode_append (offset items : Nat) (indices : List Nat) (index : Nat) :
    decode offset items (indices ++ [index]) = decode offset items indices * items + (index + offset) := by
  rw [decode, foldl_append]
  rfl

variable {offset : Nat} {val : List UInt8} {value : Int32} {style : CounterStyle} {nval' nval : Numeric}

theorem decode_ascending {items : Nat} (two : 2 ≤ items) (small : offset ≤ 1) (fuel value : Nat)
    (enough : value ≤ fuel) : decode offset items (ascending offset items fuel value).reverse = value := by
  induction fuel generalizing value with
  | zero =>
    rw [Nat.le_zero.mp enough]
    rfl
  | succ fuel ih =>
    rw [ascending]
    split_ifs with some
    · have less : (value - offset) / items ≤ fuel := by
        have half : (value - offset) / items ≤ (value - offset) / 2 := Nat.div_le_div_left two (by decide)
        omega
      rw [reverse_cons, decode_append, ih _ less]
      have parts := Nat.div_add_mod' (value - offset) items
      omega
    · rw [Nat.eq_zero_of_not_pos some]
      rfl

theorem ascending_lt {offset items : Nat} (some : 0 < items) (fuel value : Nat) :
    ∀ index ∈ ascending offset items fuel value, index < items := by
  induction fuel generalizing value with
  | zero => exact fun _ member => absurd member not_mem_nil
  | succ fuel ih =>
    rw [ascending]
    split_ifs
    · exact forall_mem_cons.mpr ⟨Nat.mod_lt _ some, ih _⟩
    · exact fun _ member => absurd member not_mem_nil

theorem ascending_ne_nil {items fuel value : Nat} (some : 0 < value) (enough : value ≤ fuel) :
    ascending offset items fuel value ≠ [] := by
  obtain ⟨fuel, rfl⟩ : ∃ k, fuel = k + 1 := ⟨fuel - 1, by omega⟩
  rw [ascending, if_pos some]
  exact cons_ne_nil _ _

theorem generateLoop_ascending (offset items fuel value idx : Nat) (val : List UInt8) :
    (generateLoop offset items fuel value idx val).2 = idx + (ascending offset items fuel value).length ∧
      (generateLoop offset items fuel value idx val).1.length = val.length ∧
      (idx + (ascending offset items fuel value).length ≤ val.length →
        (generateLoop offset items fuel value idx val).1.take (idx + (ascending offset items fuel value).length) =
          val.take idx ++ (ascending offset items fuel value).map UInt8.ofNat) := by
  induction fuel generalizing value idx val with
  | zero => exact ⟨rfl, rfl, fun _ => (append_nil _).symm⟩
  | succ fuel ih =>
    rw [generateLoop, ascending]
    by_cases some : 0 < value
    · rw [if_pos some, if_pos some, length_cons]
      simp only
      generalize stored : (if idx < val.length then
        val.set idx (UInt8.ofNat ((value - offset) % items)) else val) = val'
      obtain ⟨count, length, taken⟩ := ih ((value - offset) / items) (idx + 1) val'
      have same : val'.length = val.length := by
        rw [← stored]
        split_ifs
        · exact length_set
        · rfl
      refine ⟨by rw [count]; omega, length.trans same, fun room => ?_⟩
      have inside : idx < val.length := by omega
      have next : val'.take (idx + 1) = val.take idx ++ [UInt8.ofNat ((value - offset) % items)] := by
        rw [← stored, if_pos inside, take_succ_eq_append_getElem (by rwa [length_set]),
          getElem_set_self, take_set_of_le le_rfl]
      have index : idx + ((ascending offset items fuel ((value - offset) / items)).length + 1) =
          idx + 1 + (ascending offset items fuel ((value - offset) / items)).length := by omega
      rw [index, taken (by omega), next, append_assoc, singleton_append, map_cons]
    · rw [if_neg some, if_neg some]
      exact ⟨rfl, rfl, fun _ => (append_nil _).symm⟩

theorem length_swap (val : List UInt8) (first last : Nat) : (swap val first last).length = val.length := by
  simp [swap]

theorem swap_getElem? {first last : Nat} (apart : first < last) (within : last < val.length) (i : Nat) :
    (swap val first last)[i]? = if i = first then val[last]? else if i = last then val[first]? else val[i]? := by
  have before : first < val.length := apart.trans within
  have left : ∀ a b : UInt8, b ^^^ (a ^^^ b) = a := by
    intro a b
    rw [UInt8.xor_comm a b, ← UInt8.xor_assoc, UInt8.xor_self, UInt8.zero_xor]
  have right : ∀ a b : UInt8, (a ^^^ b) ^^^ a = b := by
    intro a b
    rw [UInt8.xor_comm a b, UInt8.xor_assoc, UInt8.xor_self, UInt8.xor_zero]
  simp only [swap, getD_eq_getElem?_getD, List.getElem?_set, length_set, apart.ne, apart.ne', before, within,
    if_true, if_false, Option.getD_some, List.getElem?_eq_getElem before, List.getElem?_eq_getElem within]
  by_cases here : i = first
  · subst here
    simp [left, right]
  · by_cases there : i = last
    · subst there
      simp [left, here, apart.ne]
    · simp [here, there, Ne.symm here, Ne.symm there]

theorem reverseLoop_getElem? (fuel : Nat) (val : List UInt8) (first last : Nat) (within : last < val.length)
    (enough : last < first + 2 * fuel) (i : Nat) :
    (reverseLoop fuel val first last)[i]? =
      if first ≤ i ∧ i ≤ last then val[first + last - i]? else val[i]? := by
  induction fuel generalizing val first last with
  | zero =>
    rw [reverseLoop, if_neg (by omega)]
  | succ fuel ih =>
    rw [reverseLoop]
    by_cases apart : first < last
    · rw [if_pos apart, ih _ (first + 1) (last - 1) (by rw [length_swap]; omega) (by omega),
        swap_getElem? apart within, swap_getElem? apart within]
      by_cases inside : first + 1 ≤ i ∧ i ≤ last - 1
      · have mirror : first + 1 + (last - 1) - i = first + last - i := by omega
        rw [if_pos inside, mirror, if_neg (by omega), if_neg (by omega), if_pos (by omega)]
      · rw [if_neg inside]
        by_cases here : i = first
        · have mirror : first + last - i = last := by omega
          rw [if_pos here, if_pos (by omega), mirror]
        · by_cases there : i = last
          · have mirror : first + last - i = first := by omega
            rw [if_neg here, if_pos there, if_pos (by omega), mirror]
          · rw [if_neg here, if_neg there, if_neg (by omega)]
    · rw [if_neg apart]
      split_ifs with inside
      · have same : first + last - i = i := by omega
        rw [same]
      · rfl

theorem length_reverseLoop (fuel : Nat) (val : List UInt8) (first last : Nat) :
    (reverseLoop fuel val first last).length = val.length := by
  induction fuel generalizing val first last with
  | zero => rfl
  | succ fuel ih =>
    rw [reverseLoop]
    split_ifs
    · rw [ih, length_swap]
    · rfl

theorem take_reverseLoop {count : Nat} (some : 0 < count) (within : count ≤ val.length) :
    (reverseLoop val.length val 0 (count - 1)).take count = (val.take count).reverse := by
  refine ext_getElem? fun i => ?_
  rw [List.getElem?_take, reverseLoop_getElem? val.length val 0 (count - 1) (by omega) (by omega)]
  by_cases inside : i < count
  · rw [if_pos inside, if_pos (by omega), List.getElem?_reverse (by rw [length_take]; omega), length_take,
      List.getElem?_take, if_pos (by omega), min_eq_left within, Nat.zero_add]
  · rw [if_neg inside, List.getElem?_eq_none (by rw [length_reverse, length_take]; omega)]

def Numeric.indices (nval : Numeric) : List Nat := (nval.val.take nval.used).map UInt8.toNat

theorem generate_indices {items value : Nat} (two : 2 ≤ items) (byte : items ≤ 256) (some : 0 < value)
    (room : (generate offset items value val).2 < val.length) :
    ((generate offset items value val).1.take (generate offset items value val).2).map UInt8.toNat =
        (ascending offset items value value).reverse ∧
      (generate offset items value val).1.length = val.length := by
  obtain ⟨count, length, taken⟩ := generateLoop_ascending offset items value value 0 val
  have positive : 0 < (ascending offset items value value).length :=
    length_pos_iff.mpr (ascending_ne_nil some le_rfl)
  rcases generated : generateLoop offset items value value 0 val with ⟨val', idx⟩
  rw [generated] at count length taken
  simp only [generate, generated, Nat.zero_add, take_zero, nil_append] at count length taken room ⊢
  rw [count] at room ⊢
  rw [if_pos (by omega), take_reverseLoop positive (by omega), taken room.le, length_reverseLoop]
  refine ⟨?_, length⟩
  rw [map_reverse, map_map]
  congr 1
  refine (map_congr_left fun index member => ?_).trans (map_id _)
  have less := @ascending_lt offset items (by omega) value value index member
  exact UInt8.toNat_ofNat_of_lt' (by simpa using less.trans_le byte)

theorem toNat_abs (above : value ≠ Int32.minValue) :
    (if decide (value < 0) = true then value.abs else value).toInt.toNat = value.toInt.natAbs := by
  by_cases negative : value < 0
  · have same : value.abs.toInt = value.toInt.natAbs := by
      have bits : value.toBitVec ≠ BitVec.intMin 32 := fun same => above (Int32.toBitVec_inj.mp same)
      exact (BitVec.toInt_abs_eq_natAbs (x := value.toBitVec)).trans (if_neg bits)
    rw [if_pos (decide_eq_true negative), same]
    exact Int.toNat_natCast _
  · have positive : 0 ≤ value.toInt := by
      rw [Int32.lt_iff_toInt_lt] at negative
      exact not_lt.mp negative
    rw [if_neg (by simpa using negative)]
    omega

/-- What is read from the indices that a system generates. -/
structure Reads (offset items : Nat) (value : Int32) (nval : Numeric) : Prop where
  magnitude : decode offset items nval.indices = value.toInt.natAbs
  sign : nval.negative = decide (value < 0)
  bound : ∀ index ∈ nval.indices, index < items
  some : nval.used ≠ 0

theorem generate_reads {items : Nat} {negative : Bool} (two : 2 ≤ items) (byte : items ≤ 256) (small : offset ≤ 1)
    (nonzero : value ≠ 0) (sign : negative = decide (value < 0))
    (room : (generate offset items value.toInt.natAbs val).2 < (generate offset items value.toInt.natAbs val).1.length) :
    Reads offset items value ⟨(generate offset items value.toInt.natAbs val).1,
      (generate offset items value.toInt.natAbs val).2, negative⟩ := by
  have some : 0 < value.toInt.natAbs := by
    rw [Int.natAbs_pos]
    exact fun same => nonzero (Int32.toInt_inj.mp same)
  have length : (generate offset items value.toInt.natAbs val).1.length = val.length := by
    rw [generate, length_reverseLoop]
    exact (generateLoop_ascending offset items value.toInt.natAbs value.toInt.natAbs 0 val).2.1
  obtain ⟨indices, -⟩ := generate_indices two byte some (length ▸ room)
  refine ⟨?_, sign, ?_, ?_⟩
  · rw [Numeric.indices, indices]
    exact decode_ascending two small _ _ le_rfl
  · rw [Numeric.indices, indices]
    exact fun index member => ascending_lt (by omega) _ _ index (mem_reverse.mp member)
  · intro none
    have none' : (generate offset items value.toInt.natAbs val).2 = 0 := none
    have empty : (ascending offset items value.toInt.natAbs value.toInt.natAbs).reverse = [] := by
      rw [← indices, none']
      rfl
    exact ascending_ne_nil some le_rfl (reverse_eq_nil_iff.mp empty)

theorem calcNumericSystem_reads (two : 2 ≤ style.items) (byte : style.items ≤ 256) (above : value ≠ Int32.minValue)
    (positive : value = 0 → nval.negative = false) (made : calcNumericSystem value style nval = some nval')
    (room : nval'.used < nval'.val.length) : Reads 0 style.items value nval' := by
  unfold calcNumericSystem at made
  by_cases zero : value = 0
  · rw [if_pos zero] at made
    obtain rfl := Option.some.inj made
    have first : (nval.val.set 0 0).take 1 = [0] := by
      cases holds : nval.val with
      | nil => simp [holds] at room
      | cons c rest => rfl
    have indices : Numeric.indices { nval with val := nval.val.set 0 0, used := 1 } = [0] := by
      rw [Numeric.indices, first]
      rfl
    refine ⟨?_, ?_, ?_, Nat.one_ne_zero⟩
    · rw [indices, zero]
      simp [decode]
    · rw [zero]
      exact positive zero
    · rw [indices]
      simp only [mem_singleton, forall_eq]
      omega
  · rw [if_neg zero] at made
    simp only [toNat_abs above] at made
    obtain rfl := Option.some.inj made
    exact generate_reads two byte (Nat.zero_le 1) zero rfl room

theorem calcAlphabetSystem_reads (two : 2 ≤ style.items) (byte : style.items ≤ 256)
    (made : calcAlphabetSystem value style nval = some nval') (room : nval'.used < nval'.val.length) :
    Reads 1 style.items value nval' := by
  unfold calcAlphabetSystem at made
  by_cases small : value < 1
  · rw [if_pos small] at made
    exact absurd made (by simp)
  · rw [if_neg small] at made
    have least : 1 ≤ value.toInt := by
      rw [Int32.lt_iff_toInt_lt] at small
      exact not_lt.mp small
    have magnitude : value.toInt.toNat = value.toInt.natAbs := by omega
    have nonzero : value ≠ 0 := by
      rintro rfl
      exact absurd least (by decide)
    have sign : false = decide (value < 0) := by
      refine (decide_eq_false fun negative => ?_).symm
      rw [Int32.lt_iff_toInt_lt] at negative
      exact absurd (least.trans_lt negative) (by decide)
    simp only [magnitude] at made
    obtain rfl := Option.some.inj made
    exact generate_reads two byte le_rfl nonzero sign room

theorem calcNumericSystem_minValue (style : CounterStyle) (nval : Numeric) :
    ∃ nval', calcNumericSystem Int32.minValue style nval = some nval' ∧ nval'.used = 0 ∧ nval'.negative = true ∧
      nval'.val.length = nval.val.length := by
  have none : (if decide (Int32.minValue < 0) = true then Int32.minValue.abs else Int32.minValue).toInt.toNat = 0 := by
    decide
  refine ⟨⟨(generate 0 style.items 0 nval.val).1, 0, true⟩, ?_, rfl, rfl, ?_⟩
  · rw [calcNumericSystem, if_neg (by decide)]
    simp only [none]
    rfl
  · exact length_reverseLoop _ _ _ _

theorem calc_zero (positive : nval.negative = false) (made : style.calc 0 nval = some nval') :
    nval'.negative = false := by
  unfold CounterStyle.calc at made
  split at made
  · rw [calcNumericSystem, if_pos rfl] at made
    obtain rfl := Option.some.inj made
    exact positive
  · unfold calcCyclicSystem at made
    by_cases none : nval.val.length = 0
    · rw [if_pos none] at made
      exact absurd made (by simp)
    · rw [if_neg none] at made
      obtain rfl := Option.some.inj made
      rfl
  · unfold calcAdditiveSystem at made
    split at made
    · exact absurd made (by simp)
    · rw [if_pos rfl] at made
      split_ifs at made
      obtain rfl := Option.some.inj made
      rfl
  · rw [calcAlphabetSystem, if_pos (by decide)] at made
    exact absurd made (by simp)
  · unfold calcRomanSystem at made
    split_ifs at made
    obtain rfl := Option.some.inj made
    rfl

theorem choose_made {styles : List CounterStyle} {chosen : CounterStyle}
    (positive : value = 0 → nval.negative = false) (found : choose value styles nval = some (chosen, nval')) :
    ∃ before, chosen.calc value before = some nval' ∧ (value = 0 → before.negative = false) ∧
      nval'.used < nval'.val.length := by
  induction styles generalizing nval with
  | nil => exact absurd found (by simp [choose])
  | cons style fallbacks ih =>
    rw [choose] at found
    cases made : style.calc value nval with
    | none =>
      rw [made] at found
      exact ih positive found
    | some nval₁ =>
      rw [made] at found
      simp only at found
      split_ifs at found with room
      · obtain ⟨rfl, rfl⟩ := Prod.mk.inj (Option.some.inj found)
        exact ⟨nval, made, positive, room⟩
      · refine ih (fun zero => ?_) found
        subst zero
        exact calc_zero (positive rfl) made

def label (style : CounterStyle) (nval : Numeric) : List UInt8 :=
  style.prefixText.getD [] ++ (if nval.negative then style.negativePre.getD (lit "-") else []) ++
    (List.replicate (style.pad.1 - nval.used) style.pad.2).flatten ++
    (nval.val.take nval.used).flatMap style.symbol ++
    (if nval.negative then style.negativePost.getD [] else []) ++ style.suffix.getD (lit ".")

theorem copy_append (buflen : Nat) (out : Out) (first second : List UInt8) :
    copy buflen (copy buflen out first) second = copy buflen out (first ++ second) := foldl_append.symm

theorem foldl_copy {α : Type} (buflen : Nat) (text : α → List UInt8) (parts : List α) (out : Out) :
    parts.foldl (fun out part => copy buflen out (text part)) out = copy buflen out (parts.flatMap text) := by
  induction parts generalizing out with
  | nil => rfl
  | cons part parts ih => rw [foldl_cons, ih, flatMap_cons, copy_append]

theorem nvalToSymbols_copy (nval : Numeric) (style : CounterStyle) (buf : Nat → UInt8) (buflen : Nat) :
    nvalToSymbols nval style buf buflen = copy buflen ⟨buf, 0⟩ (label style nval) := by
  have pads := foldl_copy buflen id (List.replicate (style.pad.1 - nval.used) style.pad.2)
  simp only [id] at pads
  rw [nvalToSymbols]
  simp only [pads, foldl_copy]
  cases sign : nval.negative with
  | false => simp [label, copy_append, sign]
  | true => simp [label, copy_append, sign]

theorem copy_spec (buflen : Nat) (out : Out) (text : List UInt8) :
    (copy buflen out text).oidx = out.oidx + text.length ∧
      ∀ i, (copy buflen out text).buf i =
        if out.oidx ≤ i ∧ i < out.oidx + text.length ∧ i < buflen then text.getD (i - out.oidx) 0 else out.buf i := by
  induction text generalizing out with
  | nil =>
    refine ⟨rfl, fun i => ?_⟩
    rw [length_nil, if_neg (by omega)]
    rfl
  | cons c text ih =>
    obtain ⟨count, bytes⟩ := ih
      ⟨if out.oidx < buflen then Function.update out.buf out.oidx c else out.buf, out.oidx + 1⟩
    have next : copy buflen out (c :: text) = copy buflen
      ⟨if out.oidx < buflen then Function.update out.buf out.oidx c else out.buf, out.oidx + 1⟩ text := rfl
    simp only at count bytes
    rw [next, length_cons]
    refine ⟨by rw [count]; omega, fun i => ?_⟩
    rw [bytes i]
    by_cases behind : out.oidx + 1 ≤ i ∧ i < out.oidx + 1 + text.length ∧ i < buflen
    · have index : i - out.oidx = i - (out.oidx + 1) + 1 := by omega
      rw [if_pos behind, if_pos (by omega), index, getD_cons_succ]
    · rw [if_neg behind]
      by_cases here : i = out.oidx
      · subst here
        by_cases room : out.oidx < buflen
        · rw [if_pos room, if_pos (by omega), Function.update_self, Nat.sub_self, getD_cons_zero]
        · rw [if_neg room, if_neg (by omega)]
      · have outside : ¬(out.oidx ≤ i ∧ i < out.oidx + (text.length + 1) ∧ i < buflen) := by omega
        rw [if_neg outside]
        split_ifs
        · exact Function.update_of_ne here c out.buf
        · rfl

end Besra.FormatListStyle
