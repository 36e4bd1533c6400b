import Mathlib
import Besra.LzwBounds

/-!
The LZW decoder keeps to its memory. Each entry of the table is as long a chain as its count says, down to an entry
without a link.
-/
namespace Besra.LzwSafe
open Lzw (LzwResult ReadCtx Entry bitsUsed lzwCodeMax lzwTableEntryMax)
open LzwBounds

def Inside (input : ReadCtx) : Prop :=
  ∃ size, input.sbBitCount = size * 8 ∧ (size = 0 ∨ input.sbData + size ≤ input.data.length)

def bitsLeft (input : ReadCtx) : Nat := (input.data.length - input.dataSbNext) * 8 + (input.sbBitCount - input.sbBit)

structure Advanced (input input' : ReadCtx) : Prop where
  inside : Inside input'
  data : input'.data = input.data
  left : bitsLeft input' ≤ bitsLeft input

variable {input : ReadCtx}

theorem Advanced.refl (inside : Inside input) : Advanced input input := ⟨inside, rfl, Nat.le_refl _⟩

theorem Advanced.trans {input' input'' : ReadCtx} (first : Advanced input input') (second : Advanced input' input'') :
    Advanced input input'' :=
  ⟨second.inside, second.data.trans first.data, Nat.le_trans second.left first.left⟩

theorem readByte_inside {data : List UInt8} {i : Nat} (inside : i < data.length) :
    readByte data i = .ok (data[i]).toNat := by
  unfold readByte
  rw [List.getElem?_eq_getElem inside]

theorem blockAdvance_safe (inside : Inside input) (used : input.sbBitCount ≤ input.sbBit) :
    ∃ res input', blockAdvance input = .ok (res, input') ∧ Advanced input input' ∧
      (res = .ok → input'.sbBit < input'.sbBitCount) := by
  by_cases none : input.dataSbNext ≥ input.data.length
  · refine ⟨.noData, input, ?_, .refl inside, nofun⟩
    simp only [blockAdvance, if_pos none]
    rfl
  · have here : input.dataSbNext < input.data.length := Nat.lt_of_not_le none
    generalize size : (input.data[input.dataSbNext]).toNat = blockSize
    have read := readByte_inside here
    rw [size] at read
    by_cases short : input.dataSbNext + blockSize ≥ input.data.length
    · refine ⟨.noData, input, ?_, .refl inside, nofun⟩
      simp only [blockAdvance, if_neg none, read, bind, Except.bind, if_pos short]
      rfl
    · by_cases empty : blockSize = 0
      · refine ⟨.okEod, { input with sbBit := 0, sbBitCount := blockSize * 8, dataSbNext := input.dataSbNext + 1 }, ?_,
          ⟨⟨blockSize, rfl, .inl empty⟩, rfl, ?_⟩, nofun⟩
        · simp only [blockAdvance, if_neg none, read, bind, Except.bind, if_neg short, if_pos empty]
          rfl
        · simp only [bitsLeft]
          omega
      · refine ⟨.ok, { input with
            sbBit := 0
            sbBitCount := blockSize * 8
            sbData := input.dataSbNext + 1
            dataSbNext := input.dataSbNext + (blockSize + 1) }, ?_, ⟨⟨blockSize, rfl, .inr ?_⟩, rfl, ?_⟩, fun _ => ?_⟩
        · simp only [blockAdvance, if_neg none, read, bind, Except.bind, if_neg short, if_neg empty]
          rfl
        · dsimp only
          omega
        · simp only [bitsLeft]
          omega
        · dsimp only
          omega

theorem ready_safe (inside : Inside input) :
    ∃ res input', ready input = .ok (res, input') ∧ Advanced input input' ∧
      (res = .ok → input'.sbBit < input'.sbBitCount) := by
  by_cases more : input.sbBit < input.sbBitCount
  · exact ⟨.ok, input, if_pos more, .refl inside, fun _ => more⟩
  · obtain ⟨res, input', ran, advanced, filled⟩ := blockAdvance_safe inside (Nat.not_lt.mp more)
    exact ⟨res, input', (if_neg more).trans ran, advanced, filled⟩

theorem Inside.byte (inside : Inside input) {bit : Nat} (more : bit < input.sbBitCount) :
    input.sbData + bit >>> 3 < input.data.length := by
  obtain ⟨size, count, whole⟩ := inside
  rw [Nat.shiftRight_eq_div_pow]
  omega

theorem Inside.take (inside : Inside input) (bits : Nat) :
    Advanced input { input with sbBit := input.sbBit + bits } := by
  refine ⟨inside, rfl, ?_⟩
  simp only [bitsLeft]
  omega

theorem gather_safe (bitsUsed : Nat → Nat) :
    ∀ (wanted byte : Nat) (input : ReadCtx) (code : Nat), Inside input →
      ∃ res input' code', gather bitsUsed wanted byte input code = .ok (res, input', code') ∧ Advanced input input' ∧
        (res = .ok → 0 < wanted → 0 < bitsUsed byte → bitsLeft input' < bitsLeft input)
  | 0, _, input, code, inside => ⟨.ok, input, code, rfl, .refl inside, fun _ none => absurd none (Nat.lt_irrefl 0)⟩
  | wanted + 1, byte, input, code, inside => by
    obtain ⟨res, input', ran, advanced, filled⟩ := ready_safe inside
    by_cases ok : res = .ok
    · have more := filled ok
      have read := readByte_inside (advanced.inside.byte more)
      have taken := advanced.inside.take (bitsUsed byte)
      obtain ⟨res', input'', code', rest, advanced', -⟩ :=
        gather_safe bitsUsed wanted (byte + 1) { input' with sbBit := input'.sbBit + bitsUsed byte }
          (code ||| ((input'.data.get ⟨input'.sbData + input'.sbBit >>> 3, advanced.inside.byte more⟩).toNat <<< (byte <<< 3)))
          taken.inside
      refine ⟨res', input'', code', ?_, advanced.trans (taken.trans advanced'), fun _ _ some => ?_⟩
      · simp only [gather, ran, ok, bind, Except.bind, ne_eq, not_true_eq_false, if_false, read]
        exact rest
      · have less : bitsLeft { input' with sbBit := input'.sbBit + bitsUsed byte } < bitsLeft input' := by
          simp only [bitsLeft]
          omega
        exact Nat.lt_of_le_of_lt advanced'.left (Nat.lt_of_lt_of_le less advanced.left)
    · refine ⟨res, input', code, ?_, advanced, fun is => absurd is ok⟩
      simp only [gather, ran, bind, Except.bind, ne_eq, ok, not_false_eq_true, if_true]
      rfl

theorem codeBytes_safe (inside : Inside input) {codeSize : Nat} (some : 0 < codeSize) :
    ∃ res input' code, codeBytes input codeSize = .ok (res, input', code) ∧ Advanced input input' ∧
      (res = .ok → bitsLeft input' < bitsLeft input) := by
  by_cases fast : input.sbBit + 24 ≤ input.sbBitCount
  · have first := @Inside.byte _ inside input.sbBit (by omega)
    have last := @Inside.byte _ inside (input.sbBit + 16) (by omega)
    rw [Nat.shiftRight_eq_div_pow] at first last
    have read : ∀ i ≤ 2, ∃ byte, readByte input.data (input.sbData + input.sbBit >>> 3 + i) = .ok byte := by
      intro i low
      refine ⟨_, readByte_inside ?_⟩
      rw [Nat.shiftRight_eq_div_pow]
      omega
    obtain ⟨byte0, read0⟩ := read 0 (by decide)
    obtain ⟨byte1, read1⟩ := read 1 (by decide)
    obtain ⟨byte2, read2⟩ := read 2 (by decide)
    rw [Nat.add_zero] at read0
    refine ⟨.ok, _, 0 ||| (byte0 <<< 0) ||| (byte1 <<< 8) ||| (byte2 <<< 16), ?_, inside.take codeSize, fun _ => ?_⟩
    · simp only [codeBytes, if_pos fast, read0, read1, read2, bind, Except.bind]
      rfl
    · simp only [bitsLeft]
      omega
  · obtain ⟨res, input', code, ran, advanced, less⟩ :=
      gather_safe (bitsUsed (input.sbBit &&& 7) codeSize) (((input.sbBit &&& 7) + codeSize) >>> 3 + 1) 0 input 0 inside
    refine ⟨res, input', code, ?_, advanced, fun ok => less ok (Nat.succ_pos _) ?_⟩
    · simp only [codeBytes, if_neg fast]
      exact ran
    · have low : input.sbBit &&& 7 < 2 ^ 3 := Nat.and_lt_two_pow _ (by decide)
      simp only [bitsUsed]
      split
      · exact some
      · omega

theorem readCode_safe (inside : Inside input) {codeSize : Nat} (some : 0 < codeSize) :
    ∃ res input' code, readCode input codeSize = .ok (res, input', code) ∧ Advanced input input' ∧
      (res = .ok → bitsLeft input' < bitsLeft input) ∧ code < 2 ^ codeSize := by
  obtain ⟨res, input', code, ran, advanced, less⟩ := codeBytes_safe inside some
  refine ⟨res, input', (code >>> (input.sbBit &&& 7)) &&& ((1 <<< codeSize) - 1), ?_, advanced, less, ?_⟩
  · simp only [readCode, ran, bind, Except.bind]
    rfl
  · rw [Nat.one_shiftLeft]
    exact Nat.and_lt_two_pow _ (Nat.sub_lt (Nat.two_pow_pos _) Nat.one_pos)

theorem readInitial_safe {codeSize : Nat} (some : 0 < codeSize) (clearCode : Nat) :
    ∀ (fuel : Nat) (input : ReadCtx), Inside input → bitsLeft input < fuel →
      ∃ res input' code, readInitial clearCode codeSize fuel input = .ok (res, input', code) ∧ Advanced input input' ∧
        (res = .ok → code ≠ clearCode)
  | 0, _, _, enough => absurd enough (Nat.not_lt_zero _)
  | fuel + 1, input, inside, enough => by
    obtain ⟨res, input', code, ran, advanced, less, -⟩ := readCode_safe inside some
    by_cases ok : res = .ok
    · by_cases again : code = clearCode
      · obtain ⟨res', input'', code', rest, advanced', other⟩ :=
          readInitial_safe some clearCode fuel input' advanced.inside (by have := less ok; omega)
        refine ⟨res', input'', code', ?_, advanced.trans advanced', other⟩
        simp only [readInitial, ran, bind, Except.bind, ne_eq, ok, not_true_eq_false, if_false, if_pos again]
        exact rest
      · refine ⟨.ok, input', code, ?_, advanced, fun _ => again⟩
        simp only [readInitial, ran, bind, Except.bind, ne_eq, ok, not_true_eq_false, if_false, if_neg again]
        rfl
    · refine ⟨res, input', code, ?_, advanced, fun is => absurd is ok⟩
      simp only [readInitial, ran, bind, Except.bind, ne_eq, ok, not_false_eq_true, if_true]
      rfl

/-- Following links from a code, there are so many entries in the table, each of them written, and each link but the last
one's, which was not. -/
inductive Chain (ctx : Ctx) : Nat → Nat → Prop
  | base {code : Nat} (low : code < ctx.tableSize) (known : ctx.known code = true) (ends : ctx.linked code = false) :
      Chain ctx code 1
  | link {code n : Nat} (low : code < ctx.tableSize) (known : ctx.known code = true) (linked : ctx.linked code = true)
      (rest : Chain ctx (ctx.table code).extendsTo n) : Chain ctx code (n + 1)

def Valid (ctx : Ctx) (code : Nat) : Prop := code < ctx.tableSize ∧ code ≠ ctx.clearCode ∧ code ≠ ctx.eoiCode

/-- Each entry is a chain as long as its count says. -/
def Chained (ctx : Ctx) : Prop := ∀ code, Valid ctx code → Chain ctx code (ctx.table code).count

variable {ctx ctx' : Ctx} {code n : Nat}

theorem Chain.readEntry (chain : Chain ctx code n) : readEntry ctx code = .ok (ctx.table code) := by
  cases chain with
  | base low known ends => simp only [LzwBounds.readEntry, if_pos low, known, if_true]
  | link low known linked rest => simp only [LzwBounds.readEntry, if_pos low, known, if_true]

theorem Chain.pos (chain : Chain ctx code n) : 0 < n := by
  cases chain <;> exact Nat.succ_pos _

theorem Chain.grow (chain : Chain ctx code n) (size : ctx.tableSize ≤ ctx'.tableSize)
    (table : ∀ i < ctx.tableSize, ctx'.table i = ctx.table i) (known : ∀ i < ctx.tableSize, ctx'.known i = ctx.known i)
    (linked : ∀ i < ctx.tableSize, ctx'.linked i = ctx.linked i) : Chain ctx' code n := by
  induction chain with
  | base low is ends => exact .base (Nat.lt_of_lt_of_le low size) ((known _ low).trans is) ((linked _ low).trans ends)
  | @link code n low is set rest ih =>
    rw [← table code low] at ih
    exact .link (Nat.lt_of_lt_of_le low size) ((known _ low).trans is) ((linked _ low).trans set) ih

def Along (ctx : Ctx) (walk : Nat × Bool) (n : Nat) : Prop := n ≠ 0 → walk.2 = true ∧ Chain ctx walk.1 n

theorem Along.step {written : Bool} (along : Along ctx (code, written) (n + 1)) :
    written = true ∧ readEntry ctx code = .ok (ctx.table code) ∧ Along ctx ((ctx.table code).extendsTo, ctx.linked code) n := by
  obtain ⟨set, chain⟩ := along (Nat.succ_ne_zero n)
  refine ⟨set, chain.readEntry, fun some => ?_⟩
  cases chain with
  | base low known ends => exact absurd rfl some
  | link low known linked rest => exact ⟨linked, rest⟩

theorem skipValues_safe (ctx : Ctx) :
    ∀ (left n : Nat) (walk : Nat × Bool), left ≤ n → Along ctx walk n →
      ∃ walk', skipValues ctx left walk = .ok walk' ∧ Along ctx walk' (n - left)
  | 0, _, walk, _, along => ⟨walk, rfl, along⟩
  | left + 1, 0, _, low, _ => absurd low (Nat.not_succ_le_zero _)
  | left + 1, n + 1, (code, written), low, along => by
    obtain ⟨rfl, read, rest⟩ := along.step
    obtain ⟨walk', ran, along'⟩ := skipValues_safe ctx left n _ (Nat.le_of_succ_le_succ low) rest
    refine ⟨walk', ?_, ?_⟩
    · simp only [skipValues, if_true, read, bind, Except.bind]
      exact ran
    · rwa [Nat.add_sub_add_right]

variable {α : Type} {pixel : UInt8 → α → α}

theorem writeValues_safe (ctx : Ctx) :
    ∀ (count n outputPos : Nat) (walk : Nat × Bool) (output : List α), count ≤ n → Along ctx walk n →
      count ≤ outputPos → outputPos ≤ output.length →
      ∃ output', writeValues pixel ctx count outputPos walk output = .ok output' ∧ output'.length = output.length
  | 0, _, _, _, output, _, _, _, _ => ⟨output, rfl, rfl⟩
  | count + 1, 0, _, _, _, low, _, _, _ => absurd low (Nat.not_succ_le_zero _)
  | count + 1, n + 1, outputPos, (code, written), output, low, along, room, inside => by
    obtain ⟨rfl, read, rest⟩ := along.step
    obtain ⟨output', ran, same⟩ := writeValues_safe ctx count n (outputPos - 1) _
      (output.modify (outputPos - 1) (pixel (ctx.table code).value)) (Nat.le_of_succ_le_succ low) rest (by omega)
      (by rw [List.length_modify]; omega)
    refine ⟨output', ?_, same.trans (List.length_modify ..)⟩
    simp only [writeValues, if_true, read, bind, Except.bind]
    rw [if_pos ⟨Nat.lt_of_lt_of_le (Nat.succ_pos _) room, inside⟩]
    exact ran

theorem writeFn_safe (chain : Chain ctx code n) {left outputUsed : Nat} (low : left ≤ n) {output : List α}
    (inside : outputUsed ≤ output.length) :
    ∃ output', writeFn pixel ctx output outputUsed code left =
        .ok ({ ctx with outputCode := code, outputLeft := left - (output.length - outputUsed) }, output',
          min left (output.length - outputUsed)) ∧ output'.length = output.length := by
  let ctx' : Ctx := { ctx with outputCode := code, outputLeft := left - (output.length - outputUsed) }
  have along : Along ctx' (code, true) n :=
    fun _ => ⟨rfl, chain.grow (Nat.le_refl _) (fun _ _ => rfl) (fun _ _ => rfl) (fun _ _ => rfl)⟩
  have skip : left - (output.length - outputUsed) ≤ n := Nat.le_trans (Nat.sub_le _ _) low
  obtain ⟨walk, skipped, rest⟩ := skipValues_safe ctx' _ n _ skip along
  obtain ⟨output', wrote, same⟩ := @writeValues_safe _ pixel ctx' (min left (output.length - outputUsed)) _
    (outputUsed + min left (output.length - outputUsed)) walk output (by omega) rest (Nat.le_add_left _ _) (by omega)
  have count : (if left > output.length - outputUsed then output.length - outputUsed else left) =
      min left (output.length - outputUsed) := by
    split
    · omega
    · omega
  have after : (if left > output.length - outputUsed then left - (output.length - outputUsed) else 0) =
      left - (output.length - outputUsed) := by
    split
    · rfl
    · omega
  refine ⟨output', ?_, same⟩
  simp only [writeFn, count, after]
  rw [show skipValues _ (left - (output.length - outputUsed)) (code, true) = .ok walk from skipped]
  simp only [bind, Except.bind]
  rw [show writeValues pixel _ _ _ walk output = .ok output' from wrote]
  rfl

structure Based (minimum : Nat) (ctx : Ctx) : Prop where
  small : minimum < lzwCodeMax
  initial : ctx.initialCodeSize = minimum + 1
  clear : ctx.clearCode = 2 ^ minimum
  eoi : ctx.eoiCode = 2 ^ minimum + 1
  literals : ∀ code < ctx.clearCode, ctx.known code = true ∧ ctx.linked code = false ∧ (ctx.table code).count = 1
  inside : Inside ctx.input
  left : bitsLeft ctx.input ≤ 8 * ctx.input.data.length

/-- The previous code is in the table, as it is but for a clear code that got no first code. -/
def Fresh (ctx : Ctx) : Prop := ctx.prevCode < ctx.tableSize

/-- The table is as a clear code leaves it. -/
def Emptied (ctx : Ctx) : Prop := ctx.tableSize = ctx.eoiCode + 1

/-- What holds between calls, and between codes. -/
structure Sound (minimum : Nat) (ctx : Ctx) : Prop extends Based minimum ctx where
  size : ctx.eoiCode < ctx.tableSize ∧ ctx.tableSize ≤ lzwTableEntryMax
  codes : 0 < ctx.codeSize ∧ ctx.codeSize ≤ lzwCodeMax
  chained : Chained ctx
  prev : Fresh ctx → Valid ctx ctx.prevCode ∧ ctx.prevCodeCount = (ctx.table ctx.prevCode).count
  pending : ctx.outputLeft ≠ 0 → Valid ctx ctx.outputCode ∧ ctx.outputLeft ≤ (ctx.table ctx.outputCode).count

variable {minimum : Nat}

theorem Based.advance (based : Based minimum ctx) {input : ReadCtx} (advanced : Advanced ctx.input input) :
    Based minimum { ctx with input } :=
  { based with
    inside := advanced.inside
    left := Nat.le_trans advanced.left (Nat.le_trans based.left (Nat.le_of_eq (by rw [advanced.data]))) }

theorem Chained.congr (chained : Chained ctx) (size : ctx'.tableSize = ctx.tableSize) (table : ctx'.table = ctx.table)
    (known : ctx'.known = ctx.known) (linked : ctx'.linked = ctx.linked) (clear : ctx'.clearCode = ctx.clearCode)
    (eoi : ctx'.eoiCode = ctx.eoiCode) : Chained ctx' := by
  intro code valid
  unfold Valid at valid
  rw [size, clear, eoi] at valid
  rw [table]
  exact (chained code valid).grow (Nat.le_of_eq size.symm) (fun _ _ => by rw [table]) (fun _ _ => by rw [known])
    (fun _ _ => by rw [linked])

theorem Sound.advance (sound : Sound minimum ctx) {input : ReadCtx} (advanced : Advanced ctx.input input) :
    Sound minimum { ctx with input } :=
  { sound.toBased.advance advanced with
    size := sound.size
    codes := sound.codes
    chained := sound.chained.congr rfl rfl rfl rfl rfl rfl
    prev := sound.prev
    pending := sound.pending }

def cleared (ctx : Ctx) (input : ReadCtx) : Ctx :=
  { ctx with
    codeSize := ctx.initialCodeSize
    codeMax := (1 <<< ctx.initialCodeSize) - 1
    tableSize := ctx.eoiCode + 1
    input }

theorem handleClear_safe (based : Based minimum ctx) :
    ∃ res input code, handleClear ctx = .ok (res, cleared ctx input, code) ∧ Advanced ctx.input input ∧
      (res = .ok → code < ctx.clearCode) := by
  have some : 0 < ctx.initialCodeSize := by
    rw [based.initial]
    exact Nat.succ_pos _
  obtain ⟨res, input, code, ran, advanced, other⟩ :=
    readInitial_safe some ctx.clearCode (8 * ctx.input.data.length + 1) ctx.input based.inside (Nat.lt_succ_of_le based.left)
  by_cases ok : res = .ok
  · by_cases high : code > ctx.clearCode
    · refine ⟨.badIcode, input, code, ?_, advanced, nofun⟩
      simp only [handleClear, ran, bind, Except.bind, ne_eq, ok, not_true_eq_false, if_false, if_pos high]
      rfl
    · refine ⟨.ok, input, code, ?_, advanced, fun _ => Nat.lt_of_le_of_ne (Nat.not_lt.mp high) (other ok)⟩
      simp only [handleClear, ran, bind, Except.bind, ne_eq, ok, not_true_eq_false, if_false, if_neg high]
      rfl
  · refine ⟨res, input, code, ?_, advanced, fun is => absurd is ok⟩
    simp only [handleClear, ran, bind, Except.bind, ne_eq, ok, not_false_eq_true, if_true]
    rfl

theorem Based.valid_cleared (based : Based minimum ctx) {input : ReadCtx} :
    Valid (cleared ctx input) code ↔ code < ctx.clearCode := by
  have clear := based.clear
  have eoi := based.eoi
  simp only [Valid, cleared]
  omega

theorem Based.chained_cleared (based : Based minimum ctx) (input : ReadCtx) : Chained (cleared ctx input) := by
  intro code valid
  obtain ⟨known, ends, count⟩ := based.literals code (based.valid_cleared.mp valid)
  rw [show ((cleared ctx input).table code).count = 1 from count]
  exact .base valid.1 known ends

theorem Based.room (based : Based minimum ctx) : ctx.eoiCode < lzwTableEntryMax := by
  have power : 2 ^ minimum ≤ 2 ^ 11 := Nat.pow_le_pow_right (by decide) (Nat.le_of_lt_succ based.small)
  rw [based.eoi]
  exact Nat.lt_of_le_of_lt (Nat.succ_le_succ power) (by decide)

theorem Based.cleared_codes (based : Based minimum ctx) (input : ReadCtx) :
    0 < (cleared ctx input).codeSize ∧ (cleared ctx input).codeSize ≤ lzwCodeMax := by
  rw [show (cleared ctx input).codeSize = minimum + 1 from based.initial]
  exact ⟨Nat.succ_pos _, based.small⟩

theorem Sound.cleared (sound : Sound minimum ctx) (done : ctx.outputLeft = 0) {input : ReadCtx}
    (advanced : Advanced ctx.input input) : Sound minimum (cleared ctx input) :=
  { sound.toBased.advance advanced with
    size := ⟨Nat.lt_succ_self _, sound.toBased.room⟩
    codes := sound.toBased.cleared_codes input
    chained := sound.toBased.chained_cleared input
    prev := fun low => by
      obtain ⟨valid, count⟩ := sound.prev (Nat.lt_of_lt_of_le low sound.size.1)
      exact ⟨⟨low, valid.2⟩, count⟩
    pending := fun some => absurd done some }

theorem Sound.grow (sound : Sound minimum ctx) (fresh : Fresh ctx) (room : ctx.tableSize < lzwTableEntryMax)
    (first : UInt8) : Sound minimum (tableAddEntry ctx first) := by
  obtain ⟨valid, count⟩ := sound.prev fresh
  have table : ∀ i < ctx.tableSize, (tableAddEntry ctx first).table i = ctx.table i :=
    fun i low => Function.update_of_ne (Nat.ne_of_lt low) _ _
  have known : ∀ i < ctx.tableSize, (tableAddEntry ctx first).known i = ctx.known i :=
    fun i low => Function.update_of_ne (Nat.ne_of_lt low) _ _
  have linked : ∀ i < ctx.tableSize, (tableAddEntry ctx first).linked i = ctx.linked i :=
    fun i low => Function.update_of_ne (Nat.ne_of_lt low) _ _
  have size : (tableAddEntry ctx first).tableSize = ctx.tableSize + 1 := rfl
  have kept : ∀ {code n}, Chain ctx code n → Chain (tableAddEntry ctx first) code n :=
    fun chain => chain.grow (Nat.le_succ _) table known linked
  have stays : ∀ {code}, Valid ctx code → Valid (tableAddEntry ctx first) code :=
    fun valid => ⟨Nat.lt_succ_of_lt valid.1, valid.2⟩
  have low : ctx.clearCode < ctx.tableSize := by
    have size := sound.size.1
    rw [sound.eoi] at size
    rw [sound.clear]
    exact Nat.lt_of_succ_lt size
  refine { sound with
    literals := fun code base => ?_
    size := ⟨Nat.lt_succ_of_lt sound.size.1, room⟩
    codes := sound.codes
    chained := fun code valid' => ?_
    prev := fun _ => ⟨stays valid, ?_⟩
    pending := fun some => ?_ }
  · have below := Nat.lt_trans base low
    rw [known code below, linked code below, table code below]
    exact sound.literals code base
  · rcases Nat.lt_or_eq_of_le (Nat.le_of_lt_succ valid'.1) with old | rfl
    · rw [table code old]
      exact kept (sound.chained code ⟨old, valid'.2⟩)
    · have entry : (tableAddEntry ctx first).table ctx.tableSize =
          { value := first, first := ctx.prevCodeFirst, count := ctx.prevCodeCount + 1, extendsTo := ctx.prevCode } :=
        Function.update_self ..
      have chain := kept (sound.chained _ valid)
      rw [← count] at chain
      rw [show ((tableAddEntry ctx first).table ctx.tableSize).count = ctx.prevCodeCount + 1 from by rw [entry]]
      refine .link (Nat.lt_succ_self _) (Function.update_self ..) (Function.update_self ..) ?_
      rwa [entry]
  · rw [show (tableAddEntry ctx first).prevCode = ctx.prevCode from rfl, table _ valid.1]
    exact count
  · obtain ⟨valid, left⟩ := sound.pending some
    refine ⟨stays valid, ?_⟩
    rw [show (tableAddEntry ctx first).outputCode = ctx.outputCode from rfl, table _ valid.1]
    exact left

theorem Sound.widen (sound : Sound minimum ctx) (more : ctx.codeSize < lzwCodeMax) (codeMax : Nat) :
    Sound minimum { ctx with codeSize := ctx.codeSize + 1, codeMax } :=
  { sound with
    codes := ⟨Nat.succ_pos _, more⟩
    chained := sound.chained.congr rfl rfl rfl rfl rfl rfl
    prev := sound.prev
    pending := sound.pending }

theorem firstOf_safe (sound : Sound minimum ctx) (clear : code ≠ ctx.clearCode) (eoi : code ≠ ctx.eoiCode) :
    ∃ first, firstOf ctx code = .ok first := by
  by_cases low : code < ctx.tableSize
  · have read := (sound.chained code ⟨low, clear, eoi⟩).readEntry
    exact ⟨(ctx.table code).first, by simp only [firstOf, if_pos low, read, bind, Except.bind]; rfl⟩
  · exact ⟨ctx.prevCodeFirst, by simp only [firstOf, if_neg low]; rfl⟩

theorem handleCode_safe (sound : Sound minimum ctx) (fresh : Fresh ctx) (done : ctx.outputLeft = 0)
    (bits : code < lzwTableEntryMax) (eoi : code ≠ ctx.eoiCode) :
    ∃ res ctx' code', handleCode ctx code = .ok (res, ctx', code') ∧ Sound minimum ctx' ∧ ctx'.outputLeft = 0 ∧
      (res = .ok → Valid ctx' code') ∧ (Fresh ctx' ∨ Emptied ctx') := by
  by_cases bad : code > ctx.tableSize
  · refine ⟨.badCode, ctx, code, ?_, sound, done, nofun, .inl fresh⟩
    simp only [handleCode, if_pos bad]
    rfl
  by_cases clear : code = ctx.clearCode
  · obtain ⟨res, input, code', ran, advanced, low⟩ := handleClear_safe sound.toBased
    refine ⟨res, _, code', ?_, sound.cleared done advanced, done, fun ok => sound.toBased.valid_cleared.mpr (low ok),
      .inr rfl⟩
    simp only [handleCode, if_neg bad, if_pos clear]
    exact ran
  by_cases room : ctx.tableSize < lzwTableEntryMax
  · obtain ⟨first, read⟩ := firstOf_safe sound clear eoi
    have grown := sound.grow fresh room first
    have valid : Valid (tableAddEntry ctx first) code := ⟨Nat.lt_succ_of_le (Nat.not_lt.mp bad), clear, eoi⟩
    by_cases full : ctx.tableSize = ctx.codeMax ∧ ctx.codeSize < lzwCodeMax
    · refine ⟨.ok, _, code, ?_, grown.widen full.2 ((1 <<< (ctx.codeSize + 1)) - 1), done, fun _ => valid,
        .inl (Nat.lt_succ_of_lt fresh)⟩
      simp only [handleCode, if_neg bad, if_neg clear, if_pos room, read, bind, Except.bind]
      exact if_pos full
    · refine ⟨.ok, _, code, ?_, grown, done, fun _ => valid, .inl (Nat.lt_succ_of_lt fresh)⟩
      simp only [handleCode, if_neg bad, if_neg clear, if_pos room, read, bind, Except.bind]
      exact if_neg full
  · refine ⟨.ok, ctx, code, ?_, sound, done, fun _ => ⟨?_, clear, eoi⟩, .inl fresh⟩
    · simp only [handleCode, if_neg bad, if_neg clear, if_neg room]
      rfl
    · exact Nat.lt_of_lt_of_le bits (Nat.not_lt.mp room)

theorem Sound.write (sound : Sound minimum ctx) (valid : Valid ctx code) {left : Nat}
    (low : left ≤ (ctx.table code).count) (space : Nat) :
    Sound minimum { ctx with outputCode := code, outputLeft := left - space } :=
  { sound with
    chained := sound.chained.congr rfl rfl rfl rfl rfl rfl
    prev := sound.prev
    pending := fun _ => ⟨valid, Nat.le_trans (Nat.sub_le _ _) low⟩ }

theorem Sound.store (sound : Sound minimum ctx) (valid : Valid ctx code) (first : UInt8) :
    Sound minimum { ctx with prevCodeFirst := first, prevCodeCount := (ctx.table code).count, prevCode := code } :=
  { sound with
    chained := sound.chained.congr rfl rfl rfl rfl rfl rfl
    prev := fun _ => ⟨valid, rfl⟩
    pending := sound.pending }

theorem decode_safe (pixel : UInt8 → α → α) (sound : Sound minimum ctx) (fresh : Fresh ctx) (done : ctx.outputLeft = 0)
    {output : List α} {outputWritten : Nat} (space : outputWritten < output.length) :
    ∃ res ctx' output' outputWritten', decode pixel ctx output outputWritten = .ok (res, ctx', output', outputWritten') ∧
      Sound minimum ctx' ∧ output'.length = output.length ∧ outputWritten' ≤ output.length ∧
      (Fresh ctx' ∨ res ≠ .ok ∧ Emptied ctx') ∧
      (res = .ok → outputWritten < outputWritten' ∧ (outputWritten' ≠ output.length → ctx'.outputLeft = 0)) := by
  obtain ⟨res, input, code, ran, advanced, -, bits⟩ := readCode_safe sound.inside sound.codes.1
  have here := sound.advance advanced
  by_cases failed : res ≠ .ok
  · refine ⟨res, _, output, outputWritten, ?_, here, rfl, Nat.le_of_lt space, .inl fresh, fun is => absurd is failed⟩
    simp only [decode, ran, bind, Except.bind, if_pos failed]
    rfl
  have ok : res = .ok := not_not.mp failed
  by_cases eoi : code = ctx.eoiCode
  · refine ⟨.eoiCode, _, output, outputWritten, ?_, here, rfl, Nat.le_of_lt space, .inl fresh, nofun⟩
    simp only [decode, ran, bind, Except.bind, ne_eq, ok, not_true_eq_false, if_false, if_pos eoi]
    rfl
  have most : code < lzwTableEntryMax := Nat.lt_of_lt_of_le bits (Nat.pow_le_pow_right (by decide) sound.codes.2)
  obtain ⟨res', ctx', code', handled, sound', done', valid, after⟩ := handleCode_safe here fresh done most eoi
  by_cases failed' : res' ≠ .ok
  · refine ⟨res', ctx', output, outputWritten, ?_, sound', rfl, Nat.le_of_lt space,
      after.imp_right (fun emptied => ⟨failed', emptied⟩), fun is => absurd is failed'⟩
    simp only [decode, ran, bind, Except.bind, ne_eq, ok, not_true_eq_false, if_false, if_neg eoi, handled]
    exact if_pos failed'
  have ok' : res' = .ok := not_not.mp failed'
  have chain := sound'.chained code' (valid ok')
  obtain ⟨output', wrote, same⟩ := @writeFn_safe _ _ _ _ pixel chain _ _ (Nat.le_refl _) _ (Nat.le_of_lt space)
  have written := sound'.write (valid ok') (Nat.le_refl _) (output.length - outputWritten)
  have read : readEntry _ code' = .ok (ctx'.table code') := (written.chained code' (valid ok')).readEntry
  refine ⟨.ok, _, output', outputWritten + min (ctx'.table code').count (output.length - outputWritten), ?_,
    written.store (valid ok') (ctx'.table code').first, same, by omega, .inl (valid ok').1, fun _ => ⟨?_, ?_⟩⟩
  · simp only [decode, ran, bind, Except.bind, ne_eq, ok, not_true_eq_false, if_false, if_neg eoi, handled, ok',
      chain.readEntry, wrote, read]
    rfl
  · have pos := chain.pos
    omega
  · intro short
    show (ctx'.table code').count - (output.length - outputWritten) = 0
    omega

theorem decodeLoop_safe (pixel : UInt8 → α → α) :
    ∀ (fuel : Nat) (ctx : Ctx) (output : List α) (outputWritten : Nat), Sound minimum ctx → Fresh ctx →
      outputWritten ≤ output.length → (outputWritten ≠ output.length → ctx.outputLeft = 0) →
      output.length ≤ outputWritten + fuel →
      ∃ res ctx' output' outputWritten',
        decodeLoop pixel fuel ctx output outputWritten = .ok (res, ctx', output', outputWritten') ∧
        Sound minimum ctx' ∧ outputWritten' ≤ output.length ∧ (Fresh ctx' ∨ res ≠ .ok ∧ Emptied ctx')
  | 0, ctx, output, outputWritten, sound, fresh, low, _, enough => by
    refine ⟨.ok, ctx, output, outputWritten, ?_, sound, low, .inl fresh⟩
    exact if_pos (Nat.le_antisymm low enough)
  | fuel + 1, ctx, output, outputWritten, sound, fresh, low, done, enough => by
    by_cases full : outputWritten = output.length
    · refine ⟨.ok, ctx, output, outputWritten, ?_, sound, low, .inl fresh⟩
      exact if_pos full
    obtain ⟨res, ctx', output', outputWritten', ran, sound', same, low', fresh', after⟩ :=
      decode_safe pixel sound fresh (done full) (Nat.lt_of_le_of_ne low full)
    by_cases ok : res = .ok
    · obtain ⟨more, done'⟩ := after ok
      replace fresh' := fresh'.resolve_right (fun failed => failed.1 ok)
      rw [← same] at low' done'
      obtain ⟨res', ctx'', output'', outputWritten'', rest, sound'', low'', fresh''⟩ :=
        decodeLoop_safe pixel fuel ctx' output' outputWritten' sound' fresh' low' done' (by omega)
      refine ⟨res', ctx'', output'', outputWritten'', ?_, sound'', same ▸ low'', fresh''⟩
      simp only [decodeLoop, if_neg full, ran, bind, Except.bind, ne_eq, ok, not_true_eq_false, if_false]
      exact rest
    · refine ⟨res, ctx', output', outputWritten', ?_, sound', low', fresh'⟩
      simp only [decodeLoop, if_neg full, ran, bind, Except.bind, ne_eq, ok, not_false_eq_true, if_true]
      rfl

theorem decodeInto_safe (pixel : UInt8 → α → α) (sound : Sound minimum ctx) (fresh : Fresh ctx) (output : List α) :
    ∃ res ctx' output' outputWritten, decodeInto pixel ctx output = .ok (res, ctx', output', outputWritten) ∧
      Sound minimum ctx' ∧ outputWritten ≤ output.length ∧ (Fresh ctx' ∨ res ≠ .ok ∧ Emptied ctx') := by
  by_cases some : ctx.outputLeft ≠ 0
  · obtain ⟨valid, left⟩ := sound.pending some
    obtain ⟨output', wrote, same⟩ :=
      @writeFn_safe _ _ _ _ pixel (sound.chained _ valid) _ _ left output (Nat.zero_le _)
    have written := sound.write valid left (output.length - 0)
    obtain ⟨res, ctx', output'', outputWritten, ran, sound', low, fresh'⟩ :=
      decodeLoop_safe pixel output.length _ output' (min ctx.outputLeft (output.length - 0)) written fresh (by omega)
        (fun short => by dsimp only; omega) (by omega)
    refine ⟨res, ctx', output'', outputWritten, ?_, sound', same ▸ low, fresh'⟩
    simp only [decodeInto, if_pos some, wrote, bind, Except.bind]
    rw [same]
    exact ran
  · obtain ⟨res, ctx', output', outputWritten, ran, sound', low, fresh'⟩ :=
      decodeLoop_safe pixel output.length ctx output 0 sound fresh (Nat.zero_le _) (fun _ => not_not.mp some) (by omega)
    refine ⟨res, ctx', output', outputWritten, ?_, sound', low, fresh'⟩
    simp only [decodeInto, if_neg some]
    exact ran

theorem Sound.call (sound : Sound minimum ctx) (fresh : Fresh ctx) (call : Call) :
    ∃ res ctx' outputWritten, call.run ctx = .ok (res, ctx', outputWritten) ∧ Sound minimum ctx' ∧
      outputWritten ≤ call.outputLength ∧ (Fresh ctx' ∨ res ≠ .ok ∧ Emptied ctx') := by
  cases call with
  | decode stackBase =>
    obtain ⟨res, ctx', output, outputWritten, ran, after⟩ :=
      decodeInto_safe (fun value _ => value) sound fresh stackBase
    refine ⟨res, ctx', outputWritten, ?_, after⟩
    simp only [Call.run, lzwDecode, ran, bind, Except.bind]
    rfl
  | decodeMap outputData =>
    cases colours : ctx.colourMap with
    | none =>
      refine ⟨.noColour, ctx, 0, ?_, sound, Nat.zero_le _, .inl fresh⟩
      simp only [Call.run, lzwDecodeMap, colours, bind, Except.bind]
      rfl
    | some colourMap =>
      obtain ⟨res, ctx', output, outputWritten, ran, after⟩ :=
        decodeInto_safe (Lzw.mapPixel ctx.toCtx colourMap) sound fresh outputData
      refine ⟨res, ctx', outputWritten, ?_, after⟩
      simp only [Call.run, lzwDecodeMap, colours, ran, bind, Except.bind]
      rfl

/-- The context that `lzw_decode_init` has before the first code is read. -/
def started (ctx : Ctx) (minimum : Nat) (inputData : List UInt8) (inputPos : Nat) : Ctx :=
  { ctx with
    input := { data := inputData, dataSbNext := inputPos, sbData := ctx.input.sbData }
    initialCodeSize := minimum + 1
    clearCode := (1 <<< minimum) + 0
    eoiCode := (1 <<< minimum) + 1
    outputLeft := 0
    table := fun i =>
      if i < (1 <<< minimum) + 0 then
        { ctx.table i with first := UInt8.ofNat i, value := UInt8.ofNat i, count := 1 }
      else ctx.table i
    known := fun i => i < (1 <<< minimum) + 0
    linked := fun _ => false }

theorem started_based (ctx : Ctx) (small : minimum < lzwCodeMax) (inputData : List UInt8) (inputPos : Nat) :
    Based minimum (started ctx minimum inputData inputPos) where
  small := small
  initial := rfl
  clear := Nat.one_shiftLeft _
  eoi := congrArg (· + 1) (Nat.one_shiftLeft _)
  literals code low := by
    refine ⟨decide_eq_true low, rfl, ?_⟩
    simp only [started]
    rw [if_pos (show code < (1 <<< minimum) + 0 from low)]
  inside := ⟨0, (Nat.zero_mul _).symm, .inl rfl⟩
  left := by
    simp only [started, bitsLeft]
    omega

theorem lzwDecodeInit_safe (stale : Ctx) (minimum : Nat) (inputData : List UInt8) (inputPos : Nat) :
    ∃ res ctx, lzwDecodeInit stale minimum inputData inputPos = .ok (res, ctx) ∧
      (res = .ok → Sound minimum ctx ∧ Fresh ctx) := by
  by_cases large : minimum ≥ lzwCodeMax
  · refine ⟨.badIcode, stale, ?_, nofun⟩
    simp only [lzwDecodeInit, if_pos large]
    rfl
  have based := started_based stale (Nat.lt_of_not_le large) inputData inputPos
  obtain ⟨res, input, code, ran, advanced, low⟩ := handleClear_safe based
  rw [started] at ran
  by_cases ok : res = .ok
  · have chained := based.chained_cleared input
    have valid := (@Based.valid_cleared _ _ _ based input).mpr (low ok)
    have read := (chained code valid).readEntry
    simp only [started] at read
    refine ⟨.ok, { cleared (started stale minimum inputData inputPos) input with
      prevCodeFirst := ((cleared (started stale minimum inputData inputPos) input).table code).first
      prevCodeCount := ((cleared (started stale minimum inputData inputPos) input).table code).count
      prevCode := code
      outputCode := code
      outputLeft := 1
      hasTransparency := false
      transparencyIdx := 0
      colourMap := none }, ?_, fun _ => ⟨?_, valid.1⟩⟩
    · simp only [lzwDecodeInit, if_neg large, ran, bind, Except.bind, ne_eq, ok, not_true_eq_false, if_false, read]
      rfl
    · exact { based.advance advanced with
        size := ⟨Nat.lt_succ_self _, based.room⟩
        codes := based.cleared_codes input
        chained := chained.congr rfl rfl rfl rfl rfl rfl
        prev := fun _ => ⟨valid, rfl⟩
        pending := fun _ => ⟨valid, (chained code valid).pos⟩ }
  · refine ⟨res, cleared (started stale minimum inputData inputPos) input, ?_, fun is => absurd is ok⟩
    simp only [lzwDecodeInit, if_neg large, ran, bind, Except.bind, ne_eq, ok, not_false_eq_true, if_true]
    rfl

theorem lzwDecodeInitMap_safe (stale : Ctx) (minimum transparencyIdx : Nat) (colourTable : Option (UInt8 → UInt32))
    (inputData : List UInt8) (inputPos : Nat) :
    ∃ res ctx, lzwDecodeInitMap stale minimum transparencyIdx colourTable inputData inputPos = .ok (res, ctx) ∧
      (res = .ok → Sound minimum ctx ∧ Fresh ctx) := by
  by_cases missing : colourTable.isNone
  · refine ⟨.badParam, stale, ?_, nofun⟩
    simp only [lzwDecodeInitMap, if_pos missing]
    rfl
  obtain ⟨res, ctx, ran, after⟩ := lzwDecodeInit_safe stale minimum inputData inputPos
  by_cases ok : res = .ok
  · obtain ⟨sound, fresh⟩ := after ok
    refine ⟨.ok, { ctx with
      hasTransparency := transparencyIdx ≤ 0xff
      transparencyIdx := UInt8.ofNat transparencyIdx
      colourMap := colourTable }, ?_, fun _ => ⟨?_, fresh⟩⟩
    · simp only [lzwDecodeInitMap, if_neg missing, ran, bind, Except.bind, ne_eq, ok, not_true_eq_false, if_false]
      rfl
    · exact { sound with
        chained := sound.chained.congr rfl rfl rfl rfl rfl rfl
        prev := sound.prev
        pending := sound.pending }
  · refine ⟨res, ctx, ?_, fun is => absurd is ok⟩
    simp only [lzwDecodeInitMap, if_neg missing, ran, bind, Except.bind, ne_eq, ok, not_false_eq_true, if_true]
    rfl

/-- The contexts that calls get to, each made while the previous code is in the table. -/
inductive Reached (minimum : Nat) (inputData : List UInt8) (inputPos : Nat) : Ctx → Prop
  | init {stale ctx : Ctx} (ran : lzwDecodeInit stale minimum inputData inputPos = .ok (.ok, ctx)) :
      Reached minimum inputData inputPos ctx
  | initMap {stale ctx : Ctx} {transparencyIdx : Nat} {colourTable : Option (UInt8 → UInt32)}
      (ran : lzwDecodeInitMap stale minimum transparencyIdx colourTable inputData inputPos = .ok (.ok, ctx)) :
      Reached minimum inputData inputPos ctx
  | call {ctx ctx' : Ctx} {call : Call} {res : LzwResult} {outputWritten : Nat}
      (reached : Reached minimum inputData inputPos ctx) (fresh : Fresh ctx)
      (ran : call.run ctx = .ok (res, ctx', outputWritten)) : Reached minimum inputData inputPos ctx'

theorem Reached.sound {inputData : List UInt8} {inputPos : Nat} (reached : Reached minimum inputData inputPos ctx) :
    Sound minimum ctx := by
  induction reached with
  | init ran =>
    obtain ⟨res, ctx, ran', after⟩ := lzwDecodeInit_safe _ minimum inputData inputPos
    obtain ⟨rfl, rfl⟩ := Prod.mk.inj (Except.ok.inj (ran.symm.trans ran'))
    exact (after rfl).1
  | initMap ran =>
    obtain ⟨res, ctx, ran', after⟩ := lzwDecodeInitMap_safe _ minimum _ _ inputData inputPos
    obtain ⟨rfl, rfl⟩ := Prod.mk.inj (Except.ok.inj (ran.symm.trans ran'))
    exact (after rfl).1
  | call reached fresh ran sound =>
    obtain ⟨res, ctx', outputWritten, ran', sound', -⟩ := sound.call fresh _
    have same := Except.ok.inj (ran.symm.trans ran')
    simp only [Prod.mk.injEq] at same
    exact same.2.1 ▸ sound'

/-- No read, and no write, goes out of bounds, each code is as long a chain as its count says, and each call ends; a call
leaves the previous code in the table unless it fails at a clear code. -/
theorem decoding_in_bounds (stale : Ctx) (minimum transparencyIdx : Nat) (colourTable : Option (UInt8 → UInt32))
    (inputData : List UInt8) (inputPos : Nat) :
    (∃ res ctx, lzwDecodeInit stale minimum inputData inputPos = .ok (res, ctx) ∧ (res = .ok → Fresh ctx)) ∧
      (∃ res ctx, lzwDecodeInitMap stale minimum transparencyIdx colourTable inputData inputPos = .ok (res, ctx) ∧
        (res = .ok → Fresh ctx)) ∧
      ∀ ctx, Reached minimum inputData inputPos ctx →
        ctx.tableSize ≤ lzwTableEntryMax ∧ Chained ctx ∧
          (Fresh ctx → ∀ call : Call, ∃ res ctx' outputWritten, call.run ctx = .ok (res, ctx', outputWritten) ∧
            outputWritten ≤ call.outputLength ∧ (Fresh ctx' ∨ res ≠ .ok ∧ Emptied ctx')) := by
  obtain ⟨res, ctx, ran, after⟩ := lzwDecodeInit_safe stale minimum inputData inputPos
  obtain ⟨res', ctx', ran', after'⟩ := lzwDecodeInitMap_safe stale minimum transparencyIdx colourTable inputData inputPos
  refine ⟨⟨res, ctx, ran, fun ok => (after ok).2⟩, ⟨res', ctx', ran', fun ok => (after' ok).2⟩, fun ctx reached => ?_⟩
  have sound := reached.sound
  refine ⟨sound.size.2, sound.chained, fun fresh call => ?_⟩
  obtain ⟨res, ctx', outputWritten, ran, -, low, fresh'⟩ := sound.call fresh call
  exact ⟨res, ctx', outputWritten, ran, low, fresh'⟩

/-- A clear code with an end code after it, and then a call that goes on where this one failed: it makes entries from
the previous code of the table before, and goes on at the link of a literal, which is not written. -/
theorem link_of_literal_followed :
    (do
      let (res, ctx) ← lzwDecodeInitMap { input := { data := [], dataSbNext := 0 } } 2 256 (some UInt8.toUInt32)
        [5, 240, 145, 154, 24, 0, 0] 0
      let (res', ctx, outputWritten) ← Call.run ctx (.decodeMap (List.replicate 40 0))
      return ((res, res', outputWritten), Call.run ctx (.decodeMap (List.replicate 40 0)) matches .error .link)) =
      Except.ok ((LzwResult.ok, LzwResult.badIcode, 10), true) := by
  rfl

end Besra.LzwSafe
