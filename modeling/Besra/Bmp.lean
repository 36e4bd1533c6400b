import Mathlib
import Besra.Faults

/-!
What `libnsbmp/src/libnsbmp.c` makes of the headers of a bitmap and of an icon. Pointers into
the data are offsets from its first byte; a read outside of the data and a shift by an
amount that C does not define are faults. What a failed call leaves in the image is left
out, as an image may only be decoded when it has been analysed.
-/
namespace Besra.Bmp
open Faults

/-- The values of `bmp_result` but for `BMP_OK`. -/
inductive BmpResult where
  | insufficientMemory
  | insufficientData
  | dataError
deriving DecidableEq

inductive Fault where
  | read (offset : Nat)
  | pixel (offset : Int)
  | colour (index : Nat)
  | shift (amount : Int)
  | endless
  | assertion
deriving DecidableEq

abbrev Run := Faults.Run BmpResult Fault

/-- `bmp_encoding` -/
inductive Encoding where
  | rgb
  | rle8
  | rle4
  | bitfields
deriving DecidableEq

abbrev Pixels := Nat → UInt32

/-- `bmp_image`, with the values of unsigned 32-bit members as natural numbers. -/
structure BmpImage where
  bmpData : Nat := 0
  width : Nat := 0
  height : Nat := 0
  decoded : Bool := false
  bitmap : Option Pixels := none
  bufferSize : Nat := 0
  encoding : Encoding := .rgb
  bitmapOffset : Nat := 0
  bpp : Nat := 0
  colours : Nat := 0
  colourTable : List UInt32 := []
  limitedTrans : Bool := false
  transColour : UInt32 := 0
  reversed : Bool := false
  ico : Bool := false
  isOpaque : Bool := false
  mask : Nat → UInt32 := fun _ => 0
  shift : Nat → Int := fun _ => 0
  transparentIndex : UInt32 := 0

/-- What the library calls: the callbacks for bitmaps, of which the one that gives the buffer may give none, and
`malloc` and `calloc`. -/
structure Callbacks where
  bitmapCreate : (width height flags : Nat) → Option Pixels
  bitmapGetBuffer : Bool
  malloc : Nat → Bool
  calloc : Nat → Bool

/-- The data given, and its address. -/
structure Source where
  bytes : List UInt8
  address : Nat

/-- `bmp_create`: `bmp_image` with all members zero. -/
def bmpCreate : BmpImage := {}

/-- `data[o]` -/
def Source.read (src : Source) (o : Nat) : Run UInt8 :=
  match src.bytes[o]? with
  | some byte => pure byte
  | none => fault (.read o)

def Source.readUint16 (src : Source) (o : Nat) : Run UInt16 := do
  let b₀ ← src.read o
  let b₁ ← src.read (o + 1)
  return b₀.toUInt16 ||| b₁.toUInt16 <<< 8

def Source.readInt16 (src : Source) (o : Nat) : Run Int := do
  let value ← src.readUint16 o
  return value.toInt16.toInt

def Source.readUint32 (src : Source) (o : Nat) : Run UInt32 := do
  let b₀ ← src.read o
  let b₁ ← src.read (o + 1)
  let b₂ ← src.read (o + 2)
  let b₃ ← src.read (o + 3)
  return b₀.toUInt32 ||| b₁.toUInt32 <<< 8 ||| b₂.toUInt32 <<< 16 ||| b₃.toUInt32 <<< 24

def Source.readInt32 (src : Source) (o : Nat) : Run Int := do
  let value ← src.readUint32 o
  return value.toInt32.toInt

/-- `value << amount` -/
def shiftLeft (value : UInt32) (amount : Int) : Run UInt32 :=
  if 0 ≤ amount ∧ amount ≤ 31 then pure (value <<< amount.toNat.toUInt32) else fault (.shift amount)

/-- `value >> amount` -/
def shiftRight (value : UInt32) (amount : Int) : Run UInt32 :=
  if 0 ≤ amount ∧ amount ≤ 31 then pure (value >>> amount.toNat.toUInt32) else fault (.shift amount)

/-- The size of an image, which in icons is bounded; there the height is that of the image and its mask. -/
def setSize (bmp : BmpImage) (width height : Int) : Run BmpImage :=
  if bmp.ico then
    if width > 256 ∨ height > 512 then result .dataError
    else pure { bmp with width := width.toNat, height := height.toNat / 2 }
  else pure { bmp with width := width.toNat, height := height.toNat }

def isLegalDepth (bpp : Nat) : Bool :=
  bpp == 1 || bpp == 4 || bpp == 8 || bpp == 16 || bpp == 24 || bpp == 32

def coreHeader (src : Source) (bmp : BmpImage) (data : Nat) : Run BmpImage := do
  let width ← src.readInt16 (data + 4)
  let height ← src.readInt16 (data + 6)
  if width ≤ 0 ∨ height = 0 then result .dataError
  else
    let bmp := if height < 0 then { bmp with reversed := true } else bmp
    let height := if height < 0 then -height else height
    let bmp ← setSize bmp width height
    let planes ← src.readUint16 (data + 8)
    if planes ≠ 1 then result .dataError
    else
      let bpp ← src.readUint16 (data + 10)
      let bmp := { bmp with bpp := bpp.toNat }
      if !isLegalDepth bmp.bpp then result .dataError
      else pure (if bmp.bpp < 16 then { bmp with colours := 2 ^ bmp.bpp } else bmp)

def encodingOf (value : UInt32) (bpp : Nat) : Run Encoding :=
  if value = 0 then if isLegalDepth bpp then pure .rgb else result .dataError
  else if value = 1 then if bpp = 8 then pure .rle8 else result .dataError
  else if value = 2 then if bpp = 4 then pure .rle4 else result .dataError
  else if value = 3 then if bpp = 16 ∨ bpp = 32 then pure .bitfields else result .dataError
  else result .dataError

def readMasks (src : Source) (bmp : BmpImage) (data count : Nat) : Run BmpImage :=
  times (fun i bmp => do
    let mask ← src.readUint32 (data + (40 + i * 4))
    return { bmp with mask := Function.update bmp.mask i mask }) 0 count bmp

/-- The loop over `j` that finds the highest bit of a mask: the mask of eight bits from there, and how far they are
from their place in the pixel. -/
def alignMask (i : Nat) (mask : UInt32) : Nat → Run (UInt32 × Option Int)
  | 0 => pure (mask, none)
  | j + 1 => do
    let bit ← shiftLeft 1 (j + 1)
    if mask &&& bit ≠ 0 then
      let off : Int := j + 1 - 7
      let eight ← if off > 0 then shiftLeft 0xff off else shiftRight 0xff (-off)
      return (mask &&& eight, some (i * 8 - off))
    else alignMask i mask j

def alignMasks : Nat → Nat → BmpImage → Run BmpImage
  | 0, _, bmp => pure bmp
  | n + 1, i, bmp =>
    if bmp.mask i = 0 then pure bmp
    else do
      let (mask, shift) ← alignMask i (bmp.mask i) 31
      let bmp := { bmp with mask := Function.update bmp.mask i mask }
      alignMasks n (i + 1) (match shift with
        | none => bmp
        | some shift => { bmp with shift := Function.update bmp.shift i shift })

/-- The masks of the bitfield encoding, which are behind a header of 40 bytes, and the size of the header with them. -/
def bitfieldMasks (src : Source) (bmp : BmpImage) (data headerSize : Nat) : Run (BmpImage × Nat) :=
  if bmp.encoding ≠ .bitfields then pure (bmp, headerSize)
  else if headerSize = 40 then
    if bmp.bufferSize < 14 + (headerSize + 12) then result .insufficientData
    else do
      let bmp ← readMasks src bmp data 3
      let bmp ← alignMasks 4 0 bmp
      return (bmp, headerSize + 12)
  else if headerSize < 56 then result .insufficientData
  else do
    let bmp ← readMasks src bmp data 4
    let bmp ← alignMasks 4 0 bmp
    return (bmp, headerSize)

def windowsHeader (src : Source) (bmp : BmpImage) (data headerSize : Nat) : Run (BmpImage × Nat) := do
  let width ← src.readInt32 (data + 4)
  let height ← src.readInt32 (data + 8)
  if width ≤ 0 ∨ height = 0 then result .dataError
  else
    let bmp := if height < 0 then { bmp with reversed := true } else bmp
    let height := if height < 0 then if height ≤ -(2 ^ 31 - 1) then 2 ^ 31 - 1 else -height else height
    let bmp ← setSize bmp width height
    let planes ← src.readUint16 (data + 12)
    if planes ≠ 1 then result .dataError
    else
      let bpp ← src.readUint16 (data + 14)
      let bmp := { bmp with bpp := if bpp = 0 then 8 else bpp.toNat }
      let compression ← src.readUint32 (data + 16)
      let encoding ← encodingOf compression bmp.bpp
      let bmp := { bmp with encoding }
      let (bmp, headerSize) ← bitfieldMasks src bmp data headerSize
      let colours ← src.readUint32 (data + 32)
      let bmp := { bmp with colours := if colours.toNat = 0 ∧ bmp.bpp < 16 then 2 ^ bmp.bpp else colours.toNat }
      return (bmp, headerSize)

def readPalette (src : Source) (isOpaque : Bool) (paletteSize data colours : Nat) : Run (List UInt32 × Nat) :=
  times (fun _ (table, data) => do
    let red ← src.read (data + 2)
    let green ← src.read (data + 1)
    let blue ← src.read data
    let colour := red.toUInt32 ||| green.toUInt32 <<< 8 ||| blue.toUInt32 <<< 16
    let colour := if isOpaque then colour ||| (0xff : UInt32) <<< 24 else colour
    return (table ++ [colour], data + paletteSize)) 0 colours ([], data)

/-- The palette of an image with fewer than 16 bits for a pixel. An offset of the pixels before its end is moved there,
if there is data behind it. -/
def takePalette (src : Source) (callbacks : Callbacks) (bmp : BmpImage) (headerSize paletteSize data : Nat) :
    Run (BmpImage × Nat) :=
  if bmp.bufferSize < 14 + headerSize + 4 * bmp.colours then result .insufficientData
  else if !callbacks.malloc (bmp.colours * 4 % 2 ^ 32) then result .insufficientMemory
  else do
    let (table, data) ← readPalette src bmp.isOpaque paletteSize data bmp.colours
    let bmp := { bmp with colourTable := table }
    if bmp.bitmapOffset < (data - bmp.bmpData) % 2 ^ 32 ∧ (bmp.bufferSize : Int) - ((data : Int) - bmp.bmpData) > 0 then
      return ({ bmp with bitmapOffset := data - bmp.bmpData }, data)
    else return (bmp, data)

def anyHeader (src : Source) (bmp : BmpImage) (data headerSize : Nat) : Run (BmpImage × Nat × Nat) :=
  if headerSize = 12 then do
    let bmp ← coreHeader src bmp data
    return (bmp, headerSize, 3)
  else if headerSize < 40 then result .dataError
  else do
    let (bmp, headerSize) ← windowsHeader src bmp data headerSize
    return (bmp, headerSize, 4)

/-- The bitmap is created. In icons, which have no file header, the pixels are where the headers end. -/
def createBitmap (callbacks : Callbacks) (bmp : BmpImage) (flagged : Bool) (data : Nat) : Run BmpImage :=
  match callbacks.bitmapCreate bmp.width bmp.height ((if flagged then 1 else 0) ||| 2) with
  | none => result .insufficientMemory
  | some pixels =>
    let bmp := { bmp with bitmap := some pixels }
    pure (if bmp.ico then { bmp with bitmapOffset := data - bmp.bmpData } else bmp)

def bmpInfoHeaderParse (src : Source) (callbacks : Callbacks) (bmp : BmpImage) (data : Nat) : Run BmpImage :=
  if bmp.bufferSize < 14 + 12 then result .insufficientData
  else do
    let headerSize ← src.readUint32 data
    let headerSize := headerSize.toNat
    if bmp.bufferSize - 14 < headerSize then result .insufficientData
    else
      let (bmp, headerSize, paletteSize) ← anyHeader src bmp data headerSize
      let data := data + headerSize
      let flagged := !bmp.ico && bmp.mask 3 == 0
      let bmp := if flagged then { bmp with isOpaque := true } else bmp
      let (bmp, data) ←
        if bmp.bpp < 16 then takePalette src callbacks bmp headerSize paletteSize data else pure (bmp, data)
      createBitmap callbacks bmp flagged data

def bmpFileHeaderParse (src : Source) (bmp : BmpImage) (data : Nat) : Run BmpImage :=
  if bmp.bufferSize < 14 then result .insufficientData
  else do
    let b ← src.read data
    let m ← src.read (data + 1)
    if b ≠ 66 ∨ m ≠ 77 then result .dataError
    else
      let offset ← src.readUint32 (data + 10)
      if offset.toNat ≥ bmp.bufferSize then result .insufficientData
      else pure { bmp with bitmapOffset := offset.toNat }

/-- `bmp_analyse` of an image that has just been created. -/
def bmpAnalyse (src : Source) (callbacks : Callbacks) : Run BmpImage := do
  let bmp ← bmpFileHeaderParse src { bmpCreate with bufferSize := src.bytes.length % 2 ^ 32 } 0
  bmpInfoHeaderParse src callbacks bmp 14

/-- The loop of `ico_header_parse` for one entry of the directory. -/
def icoEntry (src : Source) (callbacks : Callbacks) (bufferSize data : Nat) : Run BmpImage :=
  if !callbacks.calloc data then result .insufficientMemory
  else do
    let width ← src.read data
    let height ← src.read (data + 1)
    let size ← src.readUint32 (data + 8)
    let offset ← src.readUint32 (data + 12)
    if offset.toNat + size.toNat > bufferSize then result .insufficientData
    else if offset.toNat ≥ bufferSize then result .dataError
    else if (size - 16).toNat ≥ bufferSize + (data + 16) then result .insufficientData
    else
      let image := { bmpCreate with
        width := if width = 0 then 256 else width.toNat
        height := if height = 0 then 256 else height.toNat
        bufferSize := size.toNat
        bmpData := offset.toNat
        ico := true }
      bmpInfoHeaderParse src callbacks image offset.toNat

/-- The loop of `ico_header_parse`: the images that have been parsed, the last one first, and the error at which the
loop has ended, if any. -/
def icoEntries (src : Source) (callbacks : Callbacks) (bufferSize : Nat) :
    Nat → Nat → List BmpImage → Run (List BmpImage × Option BmpResult)
  | 0, _, images => pure (images, none)
  | count + 1, data, images =>
    match icoEntry src callbacks bufferSize data with
    | .ok image => icoEntries src callbacks bufferSize count (data + 16) (image :: images)
    | .error (.result r) => pure (images, some r)
    | .error (.fault f) => fault f

/-- `ico_analyse` of a collection that has just been created, with `ico_header_parse`. -/
def icoAnalyse (src : Source) (callbacks : Callbacks) : Run (List BmpImage × Option BmpResult) :=
  let bufferSize := src.bytes.length % 2 ^ 32
  if bufferSize < 6 then result .insufficientData
  else do
    let type ← src.readUint16 2
    if type ≠ 1 then result .dataError
    else
      let count ← src.readUint16 4
      if count = 0 then result .dataError
      else if bufferSize < 6 + 16 * count.toNat then result .insufficientData
      else icoEntries src callbacks bufferSize count.toNat 6 []

end Besra.Bmp
