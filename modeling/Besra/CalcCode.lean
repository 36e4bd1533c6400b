import Besra.Faults
import Besra.FixedPoint
import Besra.Number
import Besra.Postfix

/-!
The code of `calc()` expressions and the calculator of `select/calc.c`. The code is a string of 32-bit words; the
calculator reads it word by word with a stack of values and units. Where it gives CSS_INVALID, `Reject` says why; a
division by zero and a read past the code are faults.
-/
namespace Besra.CalcCode
open Faults Lwc FixedPoint List
open Number (CssUnit)
open Postfix (Term Instr)

/-- The `unit`s of `bytecode.h` that an operand can have in the code. -/
inductive CalcUnit where
  | of (u : CssUnit)
  | pct
deriving DecidableEq

/-- The kinds of units, each a bit of a `unit`. -/
def unitLength : UInt32 := 0x100

def unitPct : UInt32 := 0x200

def unitAngle : UInt32 := 0x400

def unitTime : UInt32 := 0x800

def unitFreq : UInt32 := 0x1000

def unitResolution : UInt32 := 0x2000

def unitCalcNumber : UInt32 := 0x100001

/-- The `unit` of a unit. -/
def CalcUnit.code : CalcUnit → UInt32
  | .pct => unitPct
  | .of u =>
    match u with
    | .px => unitLength
    | .ex => unitLength + 1
    | .em => unitLength + 2
    | .inch => unitLength + 3
    | .cm => unitLength + 4
    | .mm => unitLength + 5
    | .pt => unitLength + 6
    | .pc => unitLength + 7
    | .ch => unitLength + 8
    | .rem => unitLength + 9
    | .lh => unitLength + 10
    | .vh => unitLength + 11
    | .vw => unitLength + 12
    | .vi => unitLength + 13
    | .vb => unitLength + 14
    | .vmin => unitLength + 15
    | .vmax => unitLength + 16
    | .q => unitLength + 17
    | .deg => unitAngle
    | .grad => unitAngle + 1
    | .rad => unitAngle + 2
    | .turn => unitAngle + 3
    | .ms => unitTime
    | .s => unitTime + 1
    | .hz => unitFreq
    | .khz => unitFreq + 1
    | .dpi => unitResolution
    | .dpcm => unitResolution + 1
    | .dppx => unitResolution + 2

/-- `css__to_css_unit`, with the numbers of `css_unit` -/
def toCssUnit (u : UInt32) : Nat :=
  if unitLength ≤ u ∧ u ≤ unitLength + 17 then (u - unitLength).toNat
  else if u = unitPct then 0x15
  else if unitAngle ≤ u ∧ u ≤ unitAngle + 2 then 0x16 + (u - unitAngle).toNat
  else if unitTime ≤ u ∧ u ≤ unitTime + 1 then 0x19 + (u - unitTime).toNat
  else if unitFreq ≤ u ∧ u ≤ unitFreq + 1 then 0x1b + (u - unitFreq).toNat
  else 0

/-- What the calculator is given beside the code: the conversion of lengths to pixels that the style and the unit
context make, the resolution of the device and the available space. -/
structure Context where
  len2cssPx : CssFixed → Nat → CssFixed
  deviceDpi : CssFixed
  available : Int32

inductive Operand where
  | number (v : CssFixed)
  | value (v : CssFixed) (u : CalcUnit)
deriving DecidableEq

/-- The operators. -/
inductive Op where
  | add
  | subtract
  | multiply
  | divide
deriving DecidableEq

/-- An expression of `calc()`. -/
abbrev Expr := Term Operand Op

def calcFinish : UInt32 := 61

def calcPushNumber : UInt32 := 78

def calcPushValue : UInt32 := 86

/-- The four operators of `calc_opcodes`. -/
def Op.code : Op → UInt32
  | .add => 43
  | .subtract => 45
  | .multiply => 42
  | .divide => 47

def words : Instr Operand Op → List UInt32
  | .push (.number v) => [calcPushNumber, v.toUInt32]
  | .push (.value v u) => [calcPushValue, v.toUInt32, u.code]
  | .apply o => [o.code]

/-- The code of a calculation. -/
def expression (code : List (Instr Operand Op)) : List UInt32 := code.flatMap words ++ [calcFinish]

/-- A word in the memory of a little-endian machine. -/
def wordBytes (w : UInt32) : LwcString :=
  [w.toUInt8, (w / 0x100).toUInt8, (w / 0x10000).toUInt8, (w / 0x1000000).toUInt8]

/-- The string that stands for a calculation. -/
def codeBytes (code : List (Instr Operand Op)) : LwcString := (expression code).flatMap wordBytes

/-- The words that the calculator reads in a string. -/
def readWords : LwcString → List UInt32
  | a :: b :: c :: d :: s =>
    (a.toUInt32 + b.toUInt32 * 0x100 + c.toUInt32 * 0x10000 + d.toUInt32 * 0x1000000) :: readWords s
  | _ => []

theorem readWords_wordBytes (w : UInt32) (s : LwcString) : readWords (wordBytes w ++ s) = w :: readWords s := by
  have back : w.toUInt8.toUInt32 + (w / 0x100).toUInt8.toUInt32 * 0x100 + (w / 0x10000).toUInt8.toUInt32 * 0x10000 +
      (w / 0x1000000).toUInt8.toUInt32 * 0x1000000 = w := by
    rw [← UInt32.toNat_inj]
    have bound := w.toNat_lt
    simp only [UInt32.toNat_add, UInt32.toNat_mul, UInt32.toNat_div, UInt8.toNat_toUInt32, UInt32.toNat_toUInt8,
      UInt32.reduceToNat]
    omega
  rw [wordBytes, cons_append, cons_append, cons_append, cons_append, readWords, nil_append, back]

theorem readWords_codeBytes (code : List (Instr Operand Op)) : readWords (codeBytes code) = expression code := by
  rw [codeBytes]
  induction expression code with
  | nil => rfl
  | cons w ws ih => rw [flatMap_cons, readWords_wordBytes, ih]

inductive Reject where
  | underflow
  | leftover
  | noNumber
  | noSpace
  | badUnit
  | badOpcode
deriving DecidableEq

inductive Fault where
  | divisionByZero
  | pastCode
deriving DecidableEq

abbrev Calculation (α : Type) := Run Reject Fault α

/-- `css_calculator_stack_entry` -/
structure Entry where
  unit : UInt32
  value : CssFixed
deriving DecidableEq

/-- `css_divide_fixed`, of any divisor -/
def divide (x y : CssFixed) : Calculation CssFixed :=
  if y = 0 then fault .divisionByZero else pure (divideFixed x y)

/-- `css_int_to_fixed` -/
def intToFixed (a : Int32) : CssFixed := limit (a.toInt64 * 1024)

/-- `css_unit_device2css_px` -/
def device2cssPx (devicePixels deviceDpi : CssFixed) : Calculation CssFixed :=
  divide (multiplyFixed devicePixels 0x18000) deviceDpi

/-- `css_unit_angle2deg`; turns are taken for degrees, since `css__to_css_unit` does not have them. -/
def angle2deg (unit : Nat) (angle : CssFixed) : Calculation CssFixed :=
  if unit = 0x17 then pure (multiplyFixed angle 921)
  else if unit = 0x18 then divide (multiplyFixed angle 0x2d000) 0xc91
  else pure angle

/-- `css__normalise_unit`. The space for a percentage is computed before it is found to be negative. -/
def normaliseUnit (ctx : Context) (u : UInt32) (v : CssFixed) : Calculation Entry :=
  if u &&& unitLength ≠ 0 then pure ⟨CalcUnit.code (.of .px), ctx.len2cssPx v (toCssUnit u)⟩
  else if u &&& unitAngle ≠ 0 then do
    let deg ← angle2deg (toCssUnit u) v
    pure ⟨CalcUnit.code (.of .deg), deg⟩
  else if u &&& unitTime ≠ 0 then
    pure ⟨CalcUnit.code (.of .ms), if u = CalcUnit.code (.of .s) then multiplyFixed v 1024000 else v⟩
  else if u &&& unitFreq ≠ 0 then
    pure ⟨CalcUnit.code (.of .hz), if u = CalcUnit.code (.of .khz) then multiplyFixed v 1024000 else v⟩
  else if u &&& unitResolution ≠ 0 then
    pure ⟨CalcUnit.code (.of .dpi),
      if u = CalcUnit.code (.of .dpcm) then multiplyFixed v 2600
      else if u = CalcUnit.code (.of .dppx) then multiplyFixed v 98304 else v⟩
  else if u = unitPct then do
    let pct100 ← device2cssPx (intToFixed ctx.available) ctx.deviceDpi
    if ctx.available < 0 then result .noSpace
    else
      let px ← divide (multiplyFixed v pct100) 0x19000
      pure ⟨CalcUnit.code (.of .px), px⟩
  else if u = unitCalcNumber then pure ⟨u, v⟩
  else result .badUnit

/-- CALC_ADD, CALC_SUBTRACT, CALC_MULTIPLY and CALC_DIVIDE, of the two values popped. A number that comes first in a
product changes places with the other operand. -/
def operate : Op → Entry → Entry → Calculation Entry
  | .add, left, right => pure ⟨left.unit, addFixed left.value right.value⟩
  | .subtract, left, right => pure ⟨left.unit, subtractFixed left.value right.value⟩
  | .multiply, left, right =>
    let (left, right) := if left.unit = unitCalcNumber then (right, left) else (left, right)
    if right.unit ≠ unitCalcNumber then result .noNumber
    else pure ⟨left.unit, multiplyFixed left.value right.value⟩
  | .divide, left, right =>
    if right.unit ≠ unitCalcNumber then result .noNumber
    else do
      let v ← divide left.value right.value
      pure ⟨left.unit, v⟩

def operator? (op : UInt32) : Option Op :=
  if op = 43 then some .add
  else if op = 45 then some .subtract
  else if op = 42 then some .multiply
  else if op = 47 then some .divide
  else none

/-- The loop of `css_calculator_calculate`, until the stack that CALC_FINISH finds. -/
def calculateLoop (ctx : Context) : List UInt32 → List Entry → Calculation (List Entry)
  | [], _ => fault .pastCode
  | op :: code, stack =>
    if op = calcFinish then pure stack
    else if op = calcPushValue then
      match code with
      | v :: u :: code => do
        let e ← normaliseUnit ctx u v.toInt32
        calculateLoop ctx code (e :: stack)
      | _ => fault .pastCode
    else if op = calcPushNumber then
      match code with
      | v :: code => calculateLoop ctx code (⟨unitCalcNumber, v.toInt32⟩ :: stack)
      | [] => fault .pastCode
    else
      match operator? op, stack with
      | some o, right :: left :: stack => do
        let e ← operate o left right
        calculateLoop ctx code (e :: stack)
      | some _, _ => result .underflow
      | none, _ => result .badOpcode

/-- `css_calculator_calculate`: the unit, as a `css_unit`, and the value of the only entry that is left. -/
def calculate (ctx : Context) (expr : List UInt32) : Calculation (Nat × CssFixed) := do
  match ← calculateLoop ctx expr [] with
  | [e] => pure (toCssUnit e.unit, e.value)
  | _ => result .leftover

def pushed (ctx : Context) : Operand → Calculation Entry
  | .number v => pure ⟨unitCalcNumber, v⟩
  | .value v u => normaliseUnit ctx u.code v

/-- What operands and operators mean to the calculator. -/
def meaning (ctx : Context) : Postfix.Meaning (Run Reject Fault) Operand Op Entry where
  push := pushed ctx
  apply := operate
  underflow := result .underflow

theorem operator?_code (o : Op) : operator? o.code = some o := by cases o <;> rfl

theorem Op.code_ne (o : Op) : o.code ≠ calcFinish ∧ o.code ≠ calcPushValue ∧ o.code ≠ calcPushNumber := by
  cases o <;> decide

theorem calculateLoop_finish (ctx : Context) (code : List UInt32) (stack : List Entry) :
    calculateLoop ctx (calcFinish :: code) stack = pure stack := by
  rw [calculateLoop.eq_def]
  exact if_pos rfl

theorem calculateLoop_number (ctx : Context) (v : CssFixed) (code : List UInt32) (stack : List Entry) :
    calculateLoop ctx (calcPushNumber :: v.toUInt32 :: code) stack =
      calculateLoop ctx code (⟨unitCalcNumber, v⟩ :: stack) := by
  rw [calculateLoop.eq_def]
  dsimp only
  rw [if_neg (by decide), if_neg (by decide), if_pos rfl, Int32.toInt32_toUInt32]

theorem calculateLoop_value (ctx : Context) (v : CssFixed) (u : UInt32) (code : List UInt32) (stack : List Entry) :
    calculateLoop ctx (calcPushValue :: v.toUInt32 :: u :: code) stack =
      normaliseUnit ctx u v >>= fun e => calculateLoop ctx code (e :: stack) := by
  rw [calculateLoop.eq_def]
  dsimp only
  rw [if_neg (by decide), if_pos rfl, Int32.toInt32_toUInt32]

theorem calculateLoop_operator (ctx : Context) (o : Op) (code : List UInt32) (stack : List Entry) :
    calculateLoop ctx (o.code :: code) stack =
      Postfix.step (meaning ctx) (.apply o) stack >>= calculateLoop ctx code := by
  obtain ⟨notFinish, notValue, notNumber⟩ := o.code_ne
  rw [calculateLoop.eq_def]
  dsimp only
  rw [if_neg notFinish, if_neg notValue, if_neg notNumber, operator?_code]
  rcases stack with _ | ⟨right, _ | ⟨left, stack⟩⟩
  · rfl
  · rfl
  · simp only [Postfix.step, meaning, bind_assoc, pure_bind]

theorem calculateLoop_words (ctx : Context) (code : List (Instr Operand Op)) (stack : List Entry) :
    calculateLoop ctx (expression code) stack = Postfix.run (meaning ctx) code stack := by
  induction code generalizing stack with
  | nil => exact calculateLoop_finish ctx [] stack
  | cons i code ih =>
    have rest : expression (i :: code) = words i ++ expression code := by
      rw [expression, flatMap_cons, append_assoc, ← expression]
    rw [rest, Postfix.run]
    rcases i with (v | ⟨v, u⟩) | o
    · rw [words, cons_append, singleton_append, calculateLoop_number, ih]
      rfl
    · rw [words, cons_append, cons_append, singleton_append, calculateLoop_value]
      simp only [ih, Postfix.step, bind_assoc, pure_bind]
      rfl
    · rw [words, singleton_append, calculateLoop_operator]
      exact bind_congr fun stack => ih stack

theorem calculate_tree (ctx : Context) (e : Expr) :
    calculate ctx (expression e.code) = e.eval (meaning ctx) >>= fun v => pure (toCssUnit v.unit, v.value) := by
  rw [calculate, calculateLoop_words, Postfix.run_code, bind_assoc]
  rfl

end Besra.CalcCode
