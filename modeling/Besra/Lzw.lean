import Mathlib.Logic.Function.Basic

/-!
The LZW decoder of `libnsgif/src/lzw.c`. A context is not used again after a result other
than `LZW_OK`, so it is not kept then. No number here outgrows its type in the source: a
code has 12 bits, a table 4096 entries, and what an entry stands for as many values at most.
-/
namespace Besra.Lzw

def lzwCodeMax : Nat := 12

def lzwTableEntryMax : Nat := 1 <<< lzwCodeMax

inductive LzwResult where
  | ok
  | okEod
  | noMem
  | noData
  | eoiCode
  | noColour
  | badIcode
  | badParam
  | badCode
deriving DecidableEq

/-- `struct lzw_read_ctx`, where `sb_data` is an offset in `data`. -/
structure ReadCtx where
  data : List UInt8
  dataSbNext : Nat
  sbData : Nat := 0
  sbBit : Nat := 0
  sbBitCount : Nat := 0
deriving DecidableEq

/-- `lzw__block_advance` -/
def blockAdvance (ctx : ReadCtx) : Except LzwResult ReadCtx :=
  let nextBlockPos := ctx.dataSbNext
  if nextBlockPos ≥ ctx.data.length then .error .noData
  else
    let blockSize := (ctx.data.getD nextBlockPos 0).toNat
    if nextBlockPos + blockSize ≥ ctx.data.length then .error .noData
    else if blockSize = 0 then .error .okEod
    else .ok { ctx with
      sbBit := 0
      sbBitCount := blockSize * 8
      sbData := nextBlockPos + 1
      dataSbNext := nextBlockPos + (blockSize + 1) }

/-- The sub-block that the next bit is in, which is the next one where the current one is used up. -/
def ready (ctx : ReadCtx) : Except LzwResult ReadCtx :=
  if ctx.sbBit < ctx.sbBitCount then .ok ctx else blockAdvance ctx

/-- The loops of the slow path, for as many bytes as are wanted yet. A sub-block that is moved to has a byte, so each byte
takes one move at most. -/
def gather (bitsUsed : Nat → Nat) : Nat → Nat → ReadCtx → Nat → Except LzwResult (ReadCtx × Nat)
  | 0, _, ctx, code => .ok (ctx, code)
  | wanted + 1, byte, ctx, code => do
    let ctx ← ready ctx
    let data := (ctx.data.getD (ctx.sbData + ctx.sbBit >>> 3) 0).toNat
    gather bitsUsed wanted (byte + 1) { ctx with sbBit := ctx.sbBit + bitsUsed byte } (code ||| (data <<< (byte <<< 3)))

/-- `bits_used` of the slow path, where the last one is a `uint8_t`. -/
def bitsUsed (currentBit codeSize byte : Nat) : Nat :=
  let bitsRemaining0 := if codeSize < 8 - currentBit then codeSize else 8 - currentBit
  let bitsRemaining1 := codeSize - bitsRemaining0
  match byte with
  | 0 => bitsRemaining0
  | 1 => if bitsRemaining1 < 8 then bitsRemaining1 else 8
  | _ => (bitsRemaining1 + 256 - 8) % 256

/-- The bytes that a code is in: three bytes of this sub-block, or as many as the code may reach into. -/
def codeBytes (ctx : ReadCtx) (codeSize : Nat) : Except LzwResult (ReadCtx × Nat) :=
  let currentBit := ctx.sbBit &&& 7
  if ctx.sbBit + 24 ≤ ctx.sbBitCount then
    let data := ctx.sbData + ctx.sbBit >>> 3
    let byte := fun i => (ctx.data.getD (data + i) 0).toNat
    .ok ({ ctx with sbBit := ctx.sbBit + codeSize }, 0 ||| (byte 0 <<< 0) ||| (byte 1 <<< 8) ||| (byte 2 <<< 16))
  else
    let byteAdvance := (currentBit + codeSize) >>> 3
    gather (bitsUsed currentBit codeSize) (byteAdvance + 1) 0 ctx 0

/-- `lzw__read_code` -/
def readCode (ctx : ReadCtx) (codeSize : Nat) : Except LzwResult (ReadCtx × Nat) := do
  let currentBit := ctx.sbBit &&& 7
  let (ctx, code) ← codeBytes ctx codeSize
  return (ctx, (code >>> currentBit) &&& ((1 <<< codeSize) - 1))

/-- `struct lzw_table_entry`, where `extendsTo` is `extends`. -/
structure Entry where
  value : UInt8 := 0
  first : UInt8 := 0
  count : Nat := 0
  extendsTo : Nat := 0
deriving DecidableEq

/-- `struct lzw_ctx`, without the output stack. `prev_code_first` holds the `first` of an entry. -/
structure Ctx where
  input : ReadCtx
  prevCode : Nat := 0
  prevCodeFirst : UInt8 := 0
  prevCodeCount : Nat := 0
  initialCodeSize : Nat := 0
  codeSize : Nat := 0
  codeMax : Nat := 0
  clearCode : Nat := 0
  eoiCode : Nat := 0
  tableSize : Nat := 0
  outputCode : Nat := 0
  outputLeft : Nat := 0
  hasTransparency : Bool := false
  transparencyIdx : UInt8 := 0
  colourMap : Option (UInt8 → UInt32) := none
  table : Nat → Entry := fun _ => {}

/-- The loop over clear codes. Each code takes bits of the data, so that there are not more of them. -/
def readInitial (clearCode codeSize : Nat) : Nat → ReadCtx → Except LzwResult (ReadCtx × Nat)
  | 0, _ => .error .noData
  | fuel + 1, input => do
    let (input, code) ← readCode input codeSize
    if code = clearCode then readInitial clearCode codeSize fuel input else .ok (input, code)

/-- `lzw__handle_clear` -/
def handleClear (ctx : Ctx) : Except LzwResult (Ctx × Nat) := do
  let ctx := { ctx with
    codeSize := ctx.initialCodeSize
    codeMax := (1 <<< ctx.initialCodeSize) - 1
    tableSize := ctx.eoiCode + 1 }
  let (input, code) ← readInitial ctx.clearCode ctx.codeSize (8 * ctx.input.data.length + 1) ctx.input
  if code > ctx.clearCode then .error .badIcode else .ok ({ ctx with input }, code)

def lzwDecodeInit (ctx : Ctx) (minimumCodeSize : Nat) (inputData : List UInt8) (inputPos : Nat) : Except LzwResult Ctx := do
  if minimumCodeSize ≥ lzwCodeMax then .error .badIcode
  else
    let ctx := { ctx with
      input := { data := inputData, dataSbNext := inputPos, sbData := ctx.input.sbData }
      initialCodeSize := minimumCodeSize + 1
      clearCode := (1 <<< minimumCodeSize) + 0
      eoiCode := (1 <<< minimumCodeSize) + 1
      outputLeft := 0
      table := fun i =>
        if i < (1 <<< minimumCodeSize) + 0 then
          { ctx.table i with first := UInt8.ofNat i, value := UInt8.ofNat i, count := 1 }
        else ctx.table i }
    let (ctx, code) ← handleClear ctx
    .ok { ctx with
      prevCodeFirst := (ctx.table code).first
      prevCodeCount := (ctx.table code).count
      prevCode := code
      outputCode := code
      outputLeft := 1
      hasTransparency := false
      transparencyIdx := 0
      colourMap := none }

def lzwDecodeInitMap (ctx : Ctx) (minimumCodeSize transparencyIdx : Nat) (colourTable : Option (UInt8 → UInt32))
    (inputData : List UInt8) (inputPos : Nat) : Except LzwResult Ctx := do
  if colourTable = none then .error .badParam
  else
    let ctx ← lzwDecodeInit ctx minimumCodeSize inputData inputPos
    .ok { ctx with
      hasTransparency := transparencyIdx ≤ 0xff
      transparencyIdx := UInt8.ofNat transparencyIdx
      colourMap := colourTable }

/-- `lzw__table_add_entry` -/
def tableAddEntry (ctx : Ctx) (code : UInt8) : Ctx :=
  { ctx with
    table := Function.update ctx.table ctx.tableSize
      { value := code, first := ctx.prevCodeFirst, count := ctx.prevCodeCount + 1, extendsTo := ctx.prevCode }
    tableSize := ctx.tableSize + 1 }

def skipValues (table : Nat → Entry) : Nat → Nat → Nat
  | 0, code => code
  | n + 1, code => skipValues table n (table code).extendsTo

variable {α : Type}

/-- The loop that writes values down from a position, each by what `pixel` makes of it and of what is there. -/
def writeValues (pixel : UInt8 → α → α) (table : Nat → Entry) : Nat → Nat → Nat → List α → List α
  | 0, _, _, output => output
  | n + 1, outputPos, code, output =>
    writeValues pixel table n (outputPos - 1) (table code).extendsTo
      (output.modify (outputPos - 1) (pixel (table code).value))

/-- `lzw__write_fn` and `lzw__map_write_fn`, which differ in what is written for a value. -/
def writeFn (pixel : UInt8 → α → α) (ctx : Ctx) (output : List α) (outputUsed code left : Nat) : Ctx × List α × Nat :=
  let space := output.length - outputUsed
  let count := if left > space then space else left
  let left := if left > space then left - space else 0
  let ctx := { ctx with outputCode := code, outputLeft := left }
  let code := skipValues ctx.table left code
  (ctx, writeValues pixel ctx.table count (outputUsed + count) code output, count)

/-- What a code that is no end code does to the context, and the code that is to be written then. -/
def handleCode (ctx : Ctx) (code : Nat) : Except LzwResult (Ctx × Nat) :=
  if code > ctx.tableSize then .error .badCode
  else if code = ctx.clearCode then handleClear ctx
  else if ctx.tableSize < lzwTableEntryMax then
    let size := ctx.tableSize
    let ctx := tableAddEntry ctx (if code < size then (ctx.table code).first else ctx.prevCodeFirst)
    if size = ctx.codeMax ∧ ctx.codeSize < lzwCodeMax then
      .ok ({ ctx with codeSize := ctx.codeSize + 1, codeMax := (1 <<< (ctx.codeSize + 1)) - 1 }, code)
    else .ok (ctx, code)
  else .ok (ctx, code)

/-- `lzw__decode` -/
def decode (pixel : UInt8 → α → α) (ctx : Ctx) (output : List α) (outputWritten : Nat) :
    Except LzwResult (Ctx × List α × Nat) := do
  let (input, code) ← readCode ctx.input ctx.codeSize
  let ctx := { ctx with input }
  if code = ctx.eoiCode then .error .eoiCode
  else
    let (ctx, code) ← handleCode ctx code
    let (ctx, output, count) := writeFn pixel ctx output outputWritten code (ctx.table code).count
    .ok ({ ctx with
      prevCodeFirst := (ctx.table code).first
      prevCodeCount := (ctx.table code).count
      prevCode := code }, output, outputWritten + count)

/-- The loop until the output is full. Each code writes a value, so that there are not more of them than values. -/
def decodeLoop (pixel : UInt8 → α → α) : Nat → Ctx → List α → Nat → LzwResult × Ctx × List α × Nat
  | 0, ctx, output, outputWritten => (.ok, ctx, output, outputWritten)
  | fuel + 1, ctx, output, outputWritten =>
    if outputWritten = output.length then (.ok, ctx, output, outputWritten)
    else match decode pixel ctx output outputWritten with
      | .error res => (res, ctx, output, outputWritten)
      | .ok (ctx, output, outputWritten) => decodeLoop pixel fuel ctx output outputWritten

/-- What `lzw_decode` and `lzw_decode_map` do with an output. -/
def decodeInto (pixel : UInt8 → α → α) (ctx : Ctx) (output : List α) : LzwResult × Ctx × List α × Nat :=
  if ctx.outputLeft ≠ 0 then
    let (ctx, output, count) := writeFn pixel ctx output 0 ctx.outputCode ctx.outputLeft
    decodeLoop pixel output.length ctx output count
  else decodeLoop pixel output.length ctx output 0

/-- `lzw_decode`, into the output stack of the context. -/
def lzwDecode (ctx : Ctx) (stackBase : List UInt8) : LzwResult × Ctx × List UInt8 × Nat :=
  decodeInto (fun value _ => value) ctx stackBase

/-- What `lzw__map_write_fn` writes for a value over what is there. -/
def mapPixel (ctx : Ctx) (colourMap : UInt8 → UInt32) (value : UInt8) (there : UInt32) : UInt32 :=
  if ctx.hasTransparency then if value ≠ ctx.transparencyIdx then colourMap value else there
  else colourMap value

def lzwDecodeMap (ctx : Ctx) (outputData : List UInt32) : LzwResult × Ctx × List UInt32 × Nat :=
  match ctx.colourMap with
  | none => (.noColour, ctx, outputData, 0)
  | some colourMap => decodeInto (mapPixel ctx colourMap) ctx outputData

/-- What calls with one output after the other write, until one does not return `LZW_OK`. -/
def outputs (call : Ctx → List α → LzwResult × Ctx × List α × Nat) : Ctx → List (List α) → List α
  | _, [] => []
  | ctx, output :: rest =>
    match call ctx output with
    | (.ok, ctx, output, outputWritten) => output.take outputWritten ++ outputs call ctx rest
    | (_, _, output, outputWritten) => output.take outputWritten

/-- What is decoded by `lzw_decode` from a position in the data. -/
def decoded (ctx : Ctx) (minimumCodeSize : Nat) (inputData : List UInt8) (inputPos : Nat) (bases : List (List UInt8)) :
    List UInt8 :=
  match lzwDecodeInit ctx minimumCodeSize inputData inputPos with
  | .error _ => []
  | .ok ctx => outputs lzwDecode ctx bases

/-- What is decoded by `lzw_decode_map` from a position in the data. -/
def decodedMap (ctx : Ctx) (minimumCodeSize transparencyIdx : Nat) (colourTable : UInt8 → UInt32) (inputData : List UInt8)
    (inputPos : Nat) (frames : List (List UInt32)) : List UInt32 :=
  match lzwDecodeInitMap ctx minimumCodeSize transparencyIdx (some colourTable) inputData inputPos with
  | .error _ => []
  | .ok ctx => outputs lzwDecodeMap ctx frames

end Besra.Lzw
