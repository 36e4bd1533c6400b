import Besra.Lzw

/-!
The LZW decoder of `libnsgif/src/lzw.c` with an eye on memory: every read and every write is
checked, a loop that does not end is told apart, and a context is kept after an error, so
that it can be used again. A step that does not fault computes what it does in `Besra.Lzw`
(`decode_follows`, `decodeInto_ends`).
-/
namespace Besra.LzwBounds
open Lzw

inductive Fault where
  /-- A read outside of the data. -/
  | input
  /-- An index in the table that is not below `table_size`. -/
  | index
  /-- A read of an entry that nothing was written to since the last `lzw_decode_init`. -/
  | entry
  /-- An index that is taken from a link which was not written since. -/
  | link
  /-- A write outside of the output. -/
  | output
  /-- A loop that goes on after there is nothing left to read, or to write. -/
  | endless
deriving DecidableEq

def readByte (data : List UInt8) (i : Nat) : Except Fault Nat :=
  match data[i]? with
  | some byte => .ok byte.toNat
  | none => .error .input

/-- `lzw__block_advance` -/
def blockAdvance (ctx : ReadCtx) : Except Fault (LzwResult × ReadCtx) := do
  let nextBlockPos := ctx.dataSbNext
  if nextBlockPos ≥ ctx.data.length then return (.noData, ctx)
  else
    let blockSize ← readByte ctx.data nextBlockPos
    if nextBlockPos + blockSize ≥ ctx.data.length then return (.noData, ctx)
    else
      let ctx := { ctx with sbBit := 0, sbBitCount := blockSize * 8 }
      if blockSize = 0 then return (.okEod, { ctx with dataSbNext := ctx.dataSbNext + 1 })
      else return (.ok, { ctx with sbData := nextBlockPos + 1, dataSbNext := ctx.dataSbNext + (blockSize + 1) })

/-- The sub-block that the next bit is in, which is the next one where the current one is used up. -/
def ready (ctx : ReadCtx) : Except Fault (LzwResult × ReadCtx) :=
  if ctx.sbBit < ctx.sbBitCount then .ok (.ok, ctx) else blockAdvance ctx

def gather (bitsUsed : Nat → Nat) : Nat → Nat → ReadCtx → Nat → Except Fault (LzwResult × ReadCtx × Nat)
  | 0, _, ctx, code => .ok (.ok, ctx, code)
  | wanted + 1, byte, ctx, code => do
    let (res, ctx) ← ready ctx
    if res ≠ .ok then return (res, ctx, code)
    else
      let data ← readByte ctx.data (ctx.sbData + ctx.sbBit >>> 3)
      gather bitsUsed wanted (byte + 1) { ctx with sbBit := ctx.sbBit + bitsUsed byte } (code ||| (data <<< (byte <<< 3)))

/-- The bytes that a code is in: three bytes of this sub-block, or as many as the code may reach into. -/
def codeBytes (ctx : ReadCtx) (codeSize : Nat) : Except Fault (LzwResult × ReadCtx × Nat) := do
  let currentBit := ctx.sbBit &&& 7
  if ctx.sbBit + 24 ≤ ctx.sbBitCount then
    let data := ctx.sbData + ctx.sbBit >>> 3
    let byte0 ← readByte ctx.data data
    let byte1 ← readByte ctx.data (data + 1)
    let byte2 ← readByte ctx.data (data + 2)
    return (.ok, { ctx with sbBit := ctx.sbBit + codeSize }, 0 ||| (byte0 <<< 0) ||| (byte1 <<< 8) ||| (byte2 <<< 16))
  else
    let byteAdvance := (currentBit + codeSize) >>> 3
    gather (bitsUsed currentBit codeSize) (byteAdvance + 1) 0 ctx 0

/-- `lzw__read_code` -/
def readCode (ctx : ReadCtx) (codeSize : Nat) : Except Fault (LzwResult × ReadCtx × Nat) := do
  let currentBit := ctx.sbBit &&& 7
  let (res, ctx, code) ← codeBytes ctx codeSize
  return (res, ctx, (code >>> currentBit) &&& ((1 <<< codeSize) - 1))

/-- A context with what was written since the last `lzw_decode_init`: to which entries, and for which of them the link. -/
structure Ctx extends Lzw.Ctx where
  known : Nat → Bool := fun _ => false
  linked : Nat → Bool := fun _ => false

def readEntry (ctx : Ctx) (code : Nat) : Except Fault Entry :=
  if code < ctx.tableSize then if ctx.known code then .ok (ctx.table code) else .error .entry
  else .error .index

/-- The loop over clear codes. Each code takes bits of the data, so that there are not more of them. -/
def readInitial (clearCode codeSize : Nat) : Nat → ReadCtx → Except Fault (LzwResult × ReadCtx × Nat)
  | 0, _ => .error .endless
  | fuel + 1, input => do
    let (res, input, code) ← readCode input codeSize
    if res ≠ .ok then return (res, input, code)
    else if code = clearCode then readInitial clearCode codeSize fuel input
    else return (.ok, input, code)

/-- `lzw__handle_clear` -/
def handleClear (ctx : Ctx) : Except Fault (LzwResult × Ctx × Nat) := do
  let ctx := { ctx with
    codeSize := ctx.initialCodeSize
    codeMax := (1 <<< ctx.initialCodeSize) - 1
    tableSize := ctx.eoiCode + 1 }
  let (res, input, code) ← readInitial ctx.clearCode ctx.codeSize (8 * ctx.input.data.length + 1) ctx.input
  if res ≠ .ok then return (res, { ctx with input }, code)
  else if code > ctx.clearCode then return (.badIcode, { ctx with input }, code)
  else return (.ok, { ctx with input }, code)

def lzwDecodeInit (ctx : Ctx) (minimumCodeSize : Nat) (inputData : List UInt8) (inputPos : Nat) :
    Except Fault (LzwResult × Ctx) := do
  if minimumCodeSize ≥ lzwCodeMax then return (.badIcode, ctx)
  else
    let ctx := { ctx with
      input := { data := inputData, dataSbNext := inputPos, sbData := ctx.input.sbData }
      initialCodeSize := minimumCodeSize + 1
      clearCode := (1 <<< minimumCodeSize) + 0
      eoiCode := (1 <<< minimumCodeSize) + 1
      outputLeft := 0
      table := fun i =>
        if i < (1 <<< minimumCodeSize) + 0 then
          { ctx.table i with first := UInt8.ofNat i, value := UInt8.ofNat i, count := 1 }
        else ctx.table i
      known := fun i => i < (1 <<< minimumCodeSize) + 0
      linked := fun _ => false }
    let (res, ctx, code) ← handleClear ctx
    if res ≠ .ok then return (res, ctx)
    else
      let entry ← readEntry ctx code
      return (.ok, { ctx with
        prevCodeFirst := entry.first
        prevCodeCount := entry.count
        prevCode := code
        outputCode := code
        outputLeft := 1
        hasTransparency := false
        transparencyIdx := 0
        colourMap := none })

def lzwDecodeInitMap (ctx : Ctx) (minimumCodeSize transparencyIdx : Nat) (colourTable : Option (UInt8 → UInt32))
    (inputData : List UInt8) (inputPos : Nat) : Except Fault (LzwResult × Ctx) := do
  if colourTable.isNone then return (.badParam, ctx)
  else
    let (res, ctx) ← lzwDecodeInit ctx minimumCodeSize inputData inputPos
    if res ≠ .ok then return (res, ctx)
    else
      return (.ok, { ctx with
        hasTransparency := transparencyIdx ≤ 0xff
        transparencyIdx := UInt8.ofNat transparencyIdx
        colourMap := colourTable })

/-- `lzw__table_add_entry` -/
def tableAddEntry (ctx : Ctx) (code : UInt8) : Ctx :=
  { ctx with
    toCtx := Lzw.tableAddEntry ctx.toCtx code
    known := Function.update ctx.known ctx.tableSize true
    linked := Function.update ctx.linked ctx.tableSize true }

/-- "Skip over any values we don't have space for." A code comes with whether the link that it is from was written. -/
def skipValues (ctx : Ctx) : Nat → Nat × Bool → Except Fault (Nat × Bool)
  | 0, walk => .ok walk
  | n + 1, (code, written) => do
    if written then
      let entry ← readEntry ctx code
      skipValues ctx n (entry.extendsTo, ctx.linked code)
    else .error .link

variable {α : Type}

/-- The loop that writes values down from a position, each by what `pixel` makes of it and of what is there. -/
def writeValues (pixel : UInt8 → α → α) (ctx : Ctx) : Nat → Nat → Nat × Bool → List α → Except Fault (List α)
  | 0, _, _, output => .ok output
  | n + 1, outputPos, (code, written), output => do
    if written then
      let entry ← readEntry ctx code
      if 0 < outputPos ∧ outputPos ≤ output.length then
        writeValues pixel ctx n (outputPos - 1) (entry.extendsTo, ctx.linked code)
          (output.modify (outputPos - 1) (pixel entry.value))
      else .error .output
    else .error .link

/-- `lzw__write_fn` and `lzw__map_write_fn`, which differ in what is written for a value. -/
def writeFn (pixel : UInt8 → α → α) (ctx : Ctx) (output : List α) (outputUsed code left : Nat) :
    Except Fault (Ctx × List α × Nat) := do
  let space := output.length - outputUsed
  let count := if left > space then space else left
  let left := if left > space then left - space else 0
  let ctx := { ctx with outputCode := code, outputLeft := left }
  let walk ← skipValues ctx left (code, true)
  let output ← writeValues pixel ctx count (outputUsed + count) walk output
  return (ctx, output, count)

def firstOf (ctx : Ctx) (code : Nat) : Except Fault UInt8 := do
  if code < ctx.tableSize then
    let entry ← readEntry ctx code
    return entry.first
  else return ctx.prevCodeFirst

/-- What a code that is no end code does to the context, and the code that is to be written then. -/
def handleCode (ctx : Ctx) (code : Nat) : Except Fault (LzwResult × Ctx × Nat) := do
  if code > ctx.tableSize then return (.badCode, ctx, code)
  else if code = ctx.clearCode then handleClear ctx
  else if ctx.tableSize < lzwTableEntryMax then
    let size := ctx.tableSize
    let first ← firstOf ctx code
    let ctx := tableAddEntry ctx first
    if size = ctx.codeMax ∧ ctx.codeSize < lzwCodeMax then
      return (.ok, { ctx with codeSize := ctx.codeSize + 1, codeMax := (1 <<< (ctx.codeSize + 1)) - 1 }, code)
    else return (.ok, ctx, code)
  else return (.ok, ctx, code)

/-- `lzw__decode` -/
def decode (pixel : UInt8 → α → α) (ctx : Ctx) (output : List α) (outputWritten : Nat) :
    Except Fault (LzwResult × Ctx × List α × Nat) := do
  let (res, input, code) ← readCode ctx.input ctx.codeSize
  let ctx := { ctx with input }
  if res ≠ .ok then return (res, ctx, output, outputWritten)
  else if code = ctx.eoiCode then return (.eoiCode, ctx, output, outputWritten)
  else
    let (res, ctx, code) ← handleCode ctx code
    if res ≠ .ok then return (res, ctx, output, outputWritten)
    else
      let entry ← readEntry ctx code
      let (ctx, output, count) ← writeFn pixel ctx output outputWritten code entry.count
      let entry ← readEntry ctx code
      return (.ok, { ctx with
        prevCodeFirst := entry.first
        prevCodeCount := entry.count
        prevCode := code }, output, outputWritten + count)

/-- The loop until the output is full. Each code writes a value, so that there are not more of them than values. -/
def decodeLoop (pixel : UInt8 → α → α) : Nat → Ctx → List α → Nat → Except Fault (LzwResult × Ctx × List α × Nat)
  | 0, ctx, output, outputWritten =>
    if outputWritten = output.length then .ok (.ok, ctx, output, outputWritten) else .error .endless
  | fuel + 1, ctx, output, outputWritten => do
    if outputWritten = output.length then return (.ok, ctx, output, outputWritten)
    else
      let (res, ctx, output, outputWritten) ← decode pixel ctx output outputWritten
      if res ≠ .ok then return (res, ctx, output, outputWritten)
      else decodeLoop pixel fuel ctx output outputWritten

/-- What `lzw_decode` and `lzw_decode_map` do with an output. -/
def decodeInto (pixel : UInt8 → α → α) (ctx : Ctx) (output : List α) : Except Fault (LzwResult × Ctx × List α × Nat) := do
  if ctx.outputLeft ≠ 0 then
    let (ctx, output, count) ← writeFn pixel ctx output 0 ctx.outputCode ctx.outputLeft
    decodeLoop pixel output.length ctx output count
  else decodeLoop pixel output.length ctx output 0

/-- `lzw_decode`, into the output stack of the context. -/
def lzwDecode (ctx : Ctx) (stackBase : List UInt8) : Except Fault (LzwResult × Ctx × List UInt8 × Nat) :=
  decodeInto (fun value _ => value) ctx stackBase

def lzwDecodeMap (ctx : Ctx) (outputData : List UInt32) : Except Fault (LzwResult × Ctx × List UInt32 × Nat) :=
  match ctx.colourMap with
  | none => .ok (.noColour, ctx, outputData, 0)
  | some colourMap => decodeInto (mapPixel ctx.toCtx colourMap) ctx outputData

section Follows

variable {β γ δ ε : Type} {f : β → γ} {g : δ → ε}

/-- What holds of the outcome of a checked step that does not fault. -/
def Yields (checked : Except Fault β) (P : β → Prop) : Prop := ∀ b, checked = .ok b → P b

theorem Yields.ok {P : β → Prop} {b : β} (holds : P b) : Yields (.ok b) P := by
  rintro _ ⟨⟩
  exact holds

theorem Yields.bind {checked : Except Fault β} {next : β → Except Fault δ} {P : β → Prop} {Q : δ → Prop}
    (first : Yields checked P) (goes : ∀ b, P b → Yields (next b) Q) : Yields (checked >>= next) Q := by
  intro d ran
  rcases checked with fault | b
  · cases ran
  · exact goes b (first b rfl) d ran

theorem Yields.and {checked : Except Fault β} {P Q : β → Prop} (left : Yields checked P) (right : Yields checked Q) :
    Yields checked fun b => P b ∧ Q b :=
  fun b ran => ⟨left b ran, right b ran⟩

theorem Yields.any (checked : Except Fault β) : Yields checked fun _ => True := fun _ _ => trivial

/-- What a checked step does without a fault is what the plain one does, which keeps nothing after an error. -/
def Follows (f : β → γ) (checked : Except Fault (LzwResult × β)) (plain : Except LzwResult γ) : Prop :=
  Yields checked fun after => plain = if after.1 = .ok then .ok (f after.2) else .error after.1

theorem Follows.ok (b : β) : Follows f (.ok (.ok, b)) (.ok (f b)) := Yields.ok rfl

theorem Follows.stop {res : LzwResult} (bad : res ≠ .ok) (b : β) : Follows f (.ok (res, b)) (.error res) :=
  Yields.ok (if_neg bad).symm

theorem Follows.of_eq {checked checked' : Except Fault (LzwResult × β)} {plain plain' : Except LzwResult γ}
    (left : checked = checked') (right : plain = plain') (follows : Follows f checked' plain') : Follows f checked plain := by
  rwa [left, right]

theorem Follows.bind {checked : Except Fault (LzwResult × β)} {plain : Except LzwResult γ}
    {next : LzwResult × β → Except Fault (LzwResult × δ)} {plainNext : γ → Except LzwResult ε}
    (first : Follows f checked plain) (stops : ∀ res b, res ≠ .ok → ∃ d, next (res, b) = .ok (res, d))
    (goes : ∀ b, Follows g (next (.ok, b)) (plainNext (f b))) : Follows g (checked >>= next) (plain >>= plainNext) := by
  refine Yields.bind first ?_
  rintro ⟨res, b⟩ step
  dsimp only at step
  by_cases fine : res = .ok
  · subst fine
    rw [step, if_pos rfl]
    exact goes b
  · obtain ⟨d, stopped⟩ := stops res b fine
    rw [step, if_neg fine, stopped]
    exact Follows.stop fine d

theorem Follows.after {checked : Except Fault β} {next : β → Except Fault (LzwResult × δ)} {plain : Except LzwResult ε}
    {P : β → Prop} (first : Yields checked P) (goes : ∀ b, P b → Follows g (next b) plain) :
    Follows g (checked >>= next) plain :=
  first.bind goes

theorem readByte_eq (data : List UInt8) (i : Nat) : Yields (readByte data i) (· = (data.getD i 0).toNat) := by
  intro byte read
  unfold readByte at read
  split at read
  next there =>
    cases read
    rw [List.getD_eq_getElem?_getD, there]
    rfl
  · cases read

theorem readEntry_eq (ctx : Ctx) (code : Nat) : Yields (readEntry ctx code) (· = ctx.table code) := by
  intro entry read
  unfold readEntry at read
  split at read
  · split at read
    · cases read
      rfl
    · cases read
  · cases read

theorem blockAdvance_follows (ctx : ReadCtx) : Follows id (blockAdvance ctx) (Lzw.blockAdvance ctx) := by
  unfold blockAdvance Lzw.blockAdvance
  dsimp only
  split
  · exact .stop (by decide) _
  refine .after (readByte_eq _ _) ?_
  rintro _ rfl
  split
  · exact .stop (by decide) _
  split
  · exact .stop (by decide) _
  · exact .ok _

theorem ready_follows (ctx : ReadCtx) : Follows id (ready ctx) (Lzw.ready ctx) := by
  unfold ready Lzw.ready
  split
  · exact .ok _
  · exact blockAdvance_follows ctx

theorem gather_follows (bitsUsed : Nat → Nat) (wanted byte : Nat) (ctx : ReadCtx) (code : Nat) :
    Follows id (gather bitsUsed wanted byte ctx code) (Lzw.gather bitsUsed wanted byte ctx code) := by
  induction wanted generalizing byte ctx code with
  | zero => exact .ok _
  | succ wanted ih =>
    refine (ready_follows ctx).bind (fun res ctx bad => ⟨_, if_pos bad⟩) fun ctx => ?_
    exact .after (readByte_eq _ _) fun byte read => read ▸ ih _ _ _

theorem codeBytes_follows (ctx : ReadCtx) (codeSize : Nat) :
    Follows id (codeBytes ctx codeSize) (Lzw.codeBytes ctx codeSize) := by
  unfold codeBytes Lzw.codeBytes
  dsimp only
  split
  · refine .after (readByte_eq _ _) fun _ byte0 => .after (readByte_eq _ _) fun _ byte1 =>
      .after (readByte_eq _ _) fun _ byte2 => ?_
    rw [byte0, byte1, byte2]
    exact .ok _
  · exact gather_follows _ _ _ _ _

theorem readCode_follows (ctx : ReadCtx) (codeSize : Nat) : Follows id (readCode ctx codeSize) (Lzw.readCode ctx codeSize) :=
  (codeBytes_follows ctx codeSize).bind (fun _ _ _ => ⟨_, rfl⟩) fun _ => .ok _

theorem readInitial_follows (clearCode codeSize fuel : Nat) (input : ReadCtx) :
    Follows id (readInitial clearCode codeSize fuel input) (Lzw.readInitial clearCode codeSize fuel input) := by
  induction fuel generalizing input with
  | zero => rintro _ ⟨⟩
  | succ fuel ih =>
    refine (readCode_follows input codeSize).bind (fun res read bad => ⟨_, if_pos bad⟩) ?_
    rintro ⟨input, code⟩
    dsimp only [id_eq]
    rw [if_neg (not_not_intro rfl)]
    split
    · exact ih input
    · exact .ok _

/-- A checked context, with what is read or returned beside it, as a plain one. -/
def plainly (after : Ctx × β) : Lzw.Ctx × β := (after.1.toCtx, after.2)

theorem handleClear_follows (ctx : Ctx) : Follows plainly (handleClear ctx) (Lzw.handleClear ctx.toCtx) := by
  refine (readInitial_follows _ _ _ _).bind (fun res read bad => ⟨_, if_pos bad⟩) ?_
  rintro ⟨input, code⟩
  dsimp only [id_eq]
  rw [if_neg (not_not_intro rfl)]
  split
  · exact .stop (by decide) _
  · exact .ok _

theorem lzwDecodeInit_follows (ctx : Ctx) (minimumCodeSize : Nat) (inputData : List UInt8) (inputPos : Nat) :
    Follows Ctx.toCtx (lzwDecodeInit ctx minimumCodeSize inputData inputPos)
      (Lzw.lzwDecodeInit ctx.toCtx minimumCodeSize inputData inputPos) := by
  unfold lzwDecodeInit Lzw.lzwDecodeInit
  split
  · exact .stop (by decide) _
  refine (handleClear_follows _).bind (fun res read bad => ⟨_, if_pos bad⟩) ?_
  rintro ⟨ctx, code⟩
  refine .after (readEntry_eq _ _) ?_
  rintro _ rfl
  exact .ok _

theorem lzwDecodeInitMap_follows (ctx : Ctx) (minimumCodeSize transparencyIdx : Nat)
    (colourTable : Option (UInt8 → UInt32)) (inputData : List UInt8) (inputPos : Nat) :
    Follows Ctx.toCtx (lzwDecodeInitMap ctx minimumCodeSize transparencyIdx colourTable inputData inputPos)
      (Lzw.lzwDecodeInitMap ctx.toCtx minimumCodeSize transparencyIdx colourTable inputData inputPos) := by
  unfold lzwDecodeInitMap Lzw.lzwDecodeInitMap
  rcases colourTable with _ | colours
  · exact .stop (by decide) _
  refine (lzwDecodeInit_follows ctx _ _ _).bind (fun res ctx bad => ⟨_, if_pos bad⟩) fun ctx => ?_
  exact .ok _

theorem skipValues_eq (ctx : Ctx) (n : Nat) (walk : Nat × Bool) :
    Yields (skipValues ctx n walk) (·.1 = Lzw.skipValues ctx.table n walk.1) := by
  induction n generalizing walk with
  | zero => exact .ok rfl
  | succ n ih =>
    obtain ⟨code, _ | _⟩ := walk
    · rintro _ ⟨⟩
    · refine (readEntry_eq ctx code).bind ?_
      rintro _ rfl
      exact ih _

theorem writeValues_eq (pixel : UInt8 → α → α) (ctx : Ctx) (n pos : Nat) (walk : Nat × Bool) (output : List α) :
    Yields (writeValues pixel ctx n pos walk output) (· = Lzw.writeValues pixel ctx.table n pos walk.1 output) := by
  induction n generalizing pos walk output with
  | zero => exact .ok rfl
  | succ n ih =>
    obtain ⟨code, _ | _⟩ := walk
    · rintro _ ⟨⟩
    · refine (readEntry_eq ctx code).bind ?_
      rintro _ rfl
      dsimp only
      split
      · exact ih _ _ _
      · rintro _ ⟨⟩

theorem writeFn_eq (pixel : UInt8 → α → α) (ctx : Ctx) (output : List α) (outputUsed code left : Nat) :
    Yields (writeFn pixel ctx output outputUsed code left)
      (plainly · = Lzw.writeFn pixel ctx.toCtx output outputUsed code left) := by
  unfold writeFn Lzw.writeFn
  refine (skipValues_eq _ _ _).bind fun walk skipped => (writeValues_eq _ _ _ _ _ _).bind fun output' wrote => .ok ?_
  rw [wrote, skipped]
  rfl

theorem firstOf_eq (ctx : Ctx) (code : Nat) : Yields (firstOf ctx code)
    (· = if code < ctx.tableSize then (ctx.table code).first else ctx.prevCodeFirst) := by
  unfold firstOf
  split
  · refine (readEntry_eq ctx code).bind ?_
    rintro _ rfl
    exact .ok rfl
  · exact .ok rfl

theorem handleCode_follows (ctx : Ctx) (code : Nat) : Follows plainly (handleCode ctx code) (Lzw.handleCode ctx.toCtx code) := by
  unfold handleCode Lzw.handleCode
  split
  · exact .stop (by decide) _
  split
  · exact handleClear_follows ctx
  split
  · refine .after (firstOf_eq ctx code) fun first is => ?_
    dsimp only
    rw [← is]
    by_cases full : ctx.tableSize = ctx.codeMax ∧ ctx.codeSize < lzwCodeMax
    · exact .of_eq (if_pos full) (if_pos full) (.ok _)
    · exact .of_eq (if_neg full) (if_neg full) (.ok _)
  · exact .ok _

theorem decode_follows (pixel : UInt8 → α → α) (ctx : Ctx) (output : List α) (outputWritten : Nat) :
    Follows plainly (decode pixel ctx output outputWritten) (Lzw.decode pixel ctx.toCtx output outputWritten) := by
  refine (readCode_follows _ _).bind (fun res read bad => ⟨_, if_pos bad⟩) ?_
  rintro ⟨input, code⟩
  dsimp only [id_eq]
  rw [if_neg (not_not_intro rfl)]
  split
  · exact .stop (by decide) _
  refine (handleCode_follows _ _).bind (fun res after bad => ⟨_, if_pos bad⟩) ?_
  rintro ⟨ctx, code⟩
  dsimp only [plainly]
  rw [if_neg (not_not_intro rfl)]
  refine .after (readEntry_eq _ _) fun entry read => .after (writeFn_eq _ _ _ _ _ _) fun after wrote =>
    .after (readEntry_eq _ _) fun entry' read' => ?_
  subst read read'
  rw [← wrote]
  exact .ok _

theorem decode_stops (pixel : UInt8 → α → α) (ctx : Ctx) (output : List α) (outputWritten : Nat) :
    Yields (decode pixel ctx output outputWritten) (fun after => after.1 ≠ .ok → after.2.2 = (output, outputWritten)) := by
  refine (Yields.any _).bind ?_
  rintro ⟨res, input, code⟩ -
  dsimp only
  split
  · exact .ok fun _ => rfl
  split
  · exact .ok fun _ => rfl
  refine (Yields.any _).bind ?_
  rintro ⟨res, ctx, code⟩ -
  dsimp only
  split
  · exact .ok fun _ => rfl
  · exact (Yields.any _).bind fun _ _ => (Yields.any _).bind fun _ _ => (Yields.any _).bind fun _ _ =>
      .ok fun bad => absurd rfl bad

/-- What a checked call leaves is what the plain one does; a context is compared after `LZW_OK` only. -/
def Ends (checked : Except Fault (LzwResult × Ctx × β)) (plain : LzwResult × Lzw.Ctx × β) : Prop :=
  Yields checked fun after =>
    plain.1 = after.1 ∧ plain.2.2 = after.2.2 ∧ (after.1 = .ok → plain.2.1 = after.2.1.toCtx)

theorem decodeLoop_ends (pixel : UInt8 → α → α) (fuel : Nat) (ctx : Ctx) (output : List α) (outputWritten : Nat) :
    Ends (decodeLoop pixel fuel ctx output outputWritten) (Lzw.decodeLoop pixel fuel ctx.toCtx output outputWritten) := by
  induction fuel generalizing ctx output outputWritten with
  | zero =>
    unfold decodeLoop
    split
    · exact Yields.ok ⟨rfl, rfl, fun _ => rfl⟩
    · rintro _ ⟨⟩
  | succ fuel ih =>
    rw [decodeLoop, Lzw.decodeLoop]
    split
    · exact Yields.ok ⟨rfl, rfl, fun _ => rfl⟩
    refine ((decode_follows pixel ctx output outputWritten).and (decode_stops pixel ctx output outputWritten)).bind ?_
    rintro ⟨res, after, output', written⟩ ⟨same, stops⟩
    dsimp only at same stops ⊢
    rw [same]
    by_cases fine : res = .ok
    · subst fine
      exact ih _ _ _
    · cases stops fine
      rw [if_neg fine, if_pos fine]
      exact Yields.ok ⟨rfl, rfl, fun ok => absurd ok fine⟩

theorem decodeInto_ends (pixel : UInt8 → α → α) (ctx : Ctx) (output : List α) :
    Ends (decodeInto pixel ctx output) (Lzw.decodeInto pixel ctx.toCtx output) := by
  unfold decodeInto Lzw.decodeInto
  split
  · refine (writeFn_eq pixel ctx output 0 ctx.outputCode ctx.outputLeft).bind fun after wrote => ?_
    rw [← wrote]
    exact decodeLoop_ends pixel _ _ _ _
  · exact decodeLoop_ends pixel _ _ _ _

theorem lzwDecode_ends (ctx : Ctx) (stackBase : List UInt8) : Ends (lzwDecode ctx stackBase) (Lzw.lzwDecode ctx.toCtx stackBase) :=
  decodeInto_ends _ _ _

theorem lzwDecodeMap_ends (ctx : Ctx) (outputData : List UInt32) :
    Ends (lzwDecodeMap ctx outputData) (Lzw.lzwDecodeMap ctx.toCtx outputData) := by
  unfold lzwDecodeMap Lzw.lzwDecodeMap
  rcases ctx.colourMap with _ | colourMap
  · exact Yields.ok ⟨rfl, rfl, LzwResult.noConfusion⟩
  · exact decodeInto_ends _ _ _

end Follows

/-- A call to decode, with the output that it is given. -/
inductive Call where
  | decode (stackBase : List UInt8)
  | decodeMap (outputData : List UInt32)

def Call.outputLength : Call → Nat
  | .decode stackBase => stackBase.length
  | .decodeMap outputData => outputData.length

/-- What a call returns, the context after it, and how many values it wrote. -/
def Call.run (ctx : Ctx) : Call → Except Fault (LzwResult × Ctx × Nat)
  | .decode stackBase => do
    let (res, ctx, _, outputWritten) ← lzwDecode ctx stackBase
    return (res, ctx, outputWritten)
  | .decodeMap outputData => do
    let (res, ctx, _, outputWritten) ← lzwDecodeMap ctx outputData
    return (res, ctx, outputWritten)

end Besra.LzwBounds
