import Besra.Bmp

/-!
The decoders of `libnsbmp/src/libnsbmp.c`. Writes go through `store`, which faults outside of
the `width * height` pixels of the buffer, and look-ups through `colourAt`, which faults beyond
the colour table. Places in the buffer are byte offsets from its top. Arithmetic on unsigned
32-bit values is done modulo `2 ^ 32` where it can exceed that.
-/
namespace Besra.Bmp
open Faults

/-- `*(uint32_t *)(top + place) = colour` -/
def store (bmp : BmpImage) (pixels : Pixels) (place : Int) (colour : UInt32) : Run Pixels :=
  if 0 ≤ place ∧ place % 4 = 0 ∧ place / 4 < bmp.width * bmp.height then
    pure (Function.update pixels (place / 4).toNat colour)
  else fault (.pixel place)

/-- `*(uint32_t *)(top + place)` -/
def load (bmp : BmpImage) (pixels : Pixels) (place : Int) : Run UInt32 :=
  if 0 ≤ place ∧ place % 4 = 0 ∧ place / 4 < bmp.width * bmp.height then pure (pixels (place / 4).toNat)
  else fault (.pixel place)

/-- `bmp->colour_table[index]` -/
def colourAt (bmp : BmpImage) (index : Nat) : Run UInt32 :=
  match bmp.colourTable[index]? with
  | some colour => pure colour
  | none => fault (.colour index)

/-- `swidth` -/
def scanWidth (bmp : BmpImage) : Nat := 4 * bmp.width % 2 ^ 32

def bottom (bmp : BmpImage) : Nat := scanWidth bmp * ((bmp.height + (2 ^ 32 - 1)) % 2 ^ 32)

/-- Where row `y` begins, when the rows go down and when they go up. -/
def scanline (bmp : BmpImage) (reversed : Bool) (y : Nat) : Int :=
  if reversed then (y * scanWidth bmp % 2 ^ 32 : Nat) else bottom bmp - (y * scanWidth bmp % 2 ^ 32 : Nat)

/-- `bitmap_get_buffer` -/
def getBuffer (callbacks : Callbacks) (bmp : BmpImage) : Run Pixels :=
  match bmp.bitmap with
  | none => fault .assertion
  | some pixels => if callbacks.bitmapGetBuffer then pure pixels else result .insufficientMemory

def align (src : Source) (start step : Nat) : Nat → Nat → Run Nat
  | 0, _ => fault .endless
  | fuel + 1, data =>
    if (src.address + data) % 4 = (src.address + start) % 4 then pure data else align src start step fuel (data + step)

def alignFuel : Nat := 5

/-- What the decoders of uncompressed rows differ in: the bytes that a row is checked for, how its pixels are
read, from which place of the data and into which place of the buffer, and the step by which the data are
aligned, if they are. -/
structure Rows where
  checked : Nat
  row : Nat → Int → Pixels → Run (Nat × Pixels)
  step : Option Nat

def decodeRows (src : Source) (bmp : BmpImage) (rows : Rows) (reversed : Bool) (start : Nat) (stop : Int)
    (pixels : Pixels) : Run (Nat × Pixels) :=
  times (fun y (data, pixels) =>
    if (data + rows.checked : Int) > stop then result .insufficientData
    else do
      let (data, pixels) ← rows.row data (scanline bmp reversed y) pixels
      let data ← match rows.step with
        | none => pure data
        | some step => align src start step alignFuel data
      return (data, pixels)) 0 bmp.height (start, pixels)

def Source.readColour (src : Source) (data : Nat) : Run UInt32 := do
  let red ← src.read (data + 2)
  let green ← src.read (data + 1)
  let blue ← src.read data
  return red.toUInt32 ||| green.toUInt32 <<< 8 ||| blue.toUInt32 <<< 16

def masked (bmp : BmpImage) (word start : UInt32) : Run UInt32 :=
  times (fun i colour => do
    let bits ← if bmp.shift i > 0 then shiftLeft (word &&& bmp.mask i) (bmp.shift i)
      else shiftRight (word &&& bmp.mask i) (-bmp.shift i)
    return colour ||| bits) 0 4 start

def pixelRow (bmp : BmpImage) (size : Nat) (colour : Nat → UInt32 → Run UInt32) (data : Nat) (line : Int)
    (pixels : Pixels) : Run (Nat × Pixels) :=
  times (fun x (data, pixels) => do
    let before ← load bmp pixels (line + 4 * x)
    let colour ← colour data before
    let pixels ← store bmp pixels (line + 4 * x) colour
    return (data + size, pixels)) 0 bmp.width (data, pixels)

/-- The colours of `bmp_decode_rgb32`. With masks they are added to what is there. -/
def colour32 (src : Source) (bmp : BmpImage) (data : Nat) (before : UInt32) : Run UInt32 :=
  if bmp.encoding = .bitfields then do
    let word ← src.readUint32 data
    let colour ← masked bmp word before
    return if bmp.isOpaque then colour ||| 0xff000000 else colour
  else do
    let colour ← src.readColour data
    let colour := if bmp.limitedTrans ∧ colour = bmp.transparentIndex then bmp.transColour else colour
    if bmp.isOpaque then return colour ||| 0xff000000
    else do
      let alpha ← src.read (data + 3)
      return colour ||| alpha.toUInt32 <<< 24

/-- `bmp_decode_rgb32` -/
def decodeRgb32 (src : Source) (callbacks : Callbacks) (bmp : BmpImage) (start : Nat) (bytes : Int) :
    Run (BmpImage × Nat) := do
  if bmp.bpp ≠ 32 then fault .assertion
  else
    let pixels ← getBuffer callbacks bmp
    let stop := start + bytes
    let transparentIndex ←
      if bmp.limitedTrans then
        if (start + 4 : Int) > stop then result .insufficientData
        else if bmp.encoding = .bitfields then src.readUint32 start else src.readColour start
      else pure bmp.transparentIndex
    let bmp := { bmp with decoded := true, transparentIndex }
    let (data, pixels) ← decodeRows src bmp
      ⟨4 * bmp.width % 2 ^ 32, pixelRow bmp 4 (colour32 src bmp), none⟩ bmp.reversed start stop pixels
    return ({ bmp with bitmap := some pixels }, data)

/-- The colours of `bmp_decode_rgb24`. -/
def colour24 (src : Source) (bmp : BmpImage) (data : Nat) (_before : UInt32) : Run UInt32 := do
  let colour ← src.readColour data
  return if bmp.limitedTrans ∧ colour = bmp.transparentIndex then bmp.transColour else colour ||| 0xff000000

/-- `bmp_decode_rgb24` -/
def decodeRgb24 (src : Source) (callbacks : Callbacks) (bmp : BmpImage) (start : Nat) (bytes : Int) :
    Run (BmpImage × Nat) := do
  if bmp.encoding ≠ .rgb ∨ bmp.bpp ≠ 24 then fault .assertion
  else
    let pixels ← getBuffer callbacks bmp
    let stop := start + bytes
    let transparentIndex ←
      if bmp.limitedTrans then
        if (start + 3 : Int) > stop then result .insufficientData else src.readColour start
      else pure bmp.transparentIndex
    let bmp := { bmp with decoded := true, transparentIndex }
    let (data, pixels) ← decodeRows src bmp
      ⟨3 * bmp.width % 2 ^ 32, pixelRow bmp 3 (colour24 src bmp), some 1⟩ bmp.reversed start stop pixels
    return ({ bmp with bitmap := some pixels }, data)

/-- The colours of `bmp_decode_rgb16`. -/
def colour16 (src : Source) (bmp : BmpImage) (data : Nat) (_before : UInt32) : Run UInt32 := do
  let word ← src.readUint16 data
  let word := word.toUInt32
  if bmp.encoding = .bitfields then
    if bmp.limitedTrans ∧ word = bmp.transparentIndex then return bmp.transColour
    else do
      let colour ← masked bmp word 0
      return if bmp.isOpaque then colour ||| 0xff000000 else colour
  else
    let colour := if bmp.limitedTrans ∧ word = bmp.transparentIndex then bmp.transColour
      else (word &&& 0x1f) <<< 19 ||| (word &&& 0x3e0) <<< 6 ||| (word &&& 0x7c00) >>> 7
    return if bmp.isOpaque then colour ||| 0xff000000 else colour

/-- `bmp_decode_rgb16` -/
def decodeRgb16 (src : Source) (callbacks : Callbacks) (bmp : BmpImage) (start : Nat) (bytes : Int) :
    Run (BmpImage × Nat) := do
  let pixels ← getBuffer callbacks bmp
  let stop := start + bytes
  let transparentIndex ←
    if bmp.limitedTrans then
      if (start + 2 : Int) > stop then result .insufficientData
      else do
        let word ← src.readUint16 start
        pure word.toUInt32
    else pure bmp.transparentIndex
  let bmp := { bmp with decoded := true, transparentIndex }
  let (data, pixels) ← decodeRows src bmp
    ⟨2 * bmp.width % 2 ^ 32, pixelRow bmp 2 (colour16 src bmp), some 2⟩ bmp.reversed start stop pixels
  return ({ bmp with bitmap := some pixels }, data)

/-- `bit_shifts[i]` and `bit_mask` -/
def indexIn (bpp : Nat) (byte : UInt8) (i : Nat) : Nat := byte.toNat / 2 ^ (8 - (i + 1) * bpp) % 2 ^ bpp

/-- The row of `bmp_decode_rgb`, with `bit` and `cur_byte` beside the place in the data. -/
def paletteRow (src : Source) (bmp : BmpImage) (data : Nat) (line : Int) (pixels : Pixels) : Run (Nat × Pixels) := do
  let ppb := 8 / bmp.bpp
  let (data, _, _, pixels) ← times (fun x (data, bit, byte, pixels) => do
    let (data, bit, byte) ←
      if bit ≥ ppb then do
        let byte ← src.read data
        pure (data + 1, 0, byte)
      else pure (data, bit, byte)
    let index := indexIn bmp.bpp byte bit
    if index < bmp.colours then do
      let colour ← colourAt bmp index
      let colour := if bmp.limitedTrans ∧ colour = bmp.transparentIndex then bmp.transColour else colour
      let pixels ← store bmp pixels (line + 4 * x) colour
      pure (data, bit + 1, byte, pixels)
    else pure (data, bit + 1, byte, pixels)) 0 bmp.width (data, 8, (0 : UInt8), pixels)
  return (data, pixels)

/-- `bmp_decode_rgb` -/
def decodeRgb (src : Source) (callbacks : Callbacks) (bmp : BmpImage) (start : Nat) (bytes : Int) :
    Run (BmpImage × Nat) := do
  let ppb := 8 / bmp.bpp
  if ppb < 1 then fault .assertion
  else
    let pixels ← getBuffer callbacks bmp
    let stop := start + bytes
    let transparentIndex ←
      if bmp.limitedTrans then do
        let byte ← src.read start
        let index := indexIn bmp.bpp byte 0
        if index ≥ bmp.colours then result .dataError else colourAt bmp index
      else pure bmp.transparentIndex
    let bmp := { bmp with decoded := true, transparentIndex }
    let (data, pixels) ← decodeRows src bmp
      ⟨(bmp.width + ppb - 1) / ppb, paletteRow src bmp, some 1⟩ bmp.reversed start stop pixels
    return ({ bmp with bitmap := some pixels }, data)

/-- The row of `bmp_decode_mask`, with `cur_byte` beside the place in the data. -/
def maskRow (src : Source) (bmp : BmpImage) (data : Nat) (line : Int) (pixels : Pixels) : Run (Nat × Pixels) := do
  let (data, _, pixels) ← times (fun x (data, byte, pixels) => do
    let (data, byte) ←
      if x % 8 = 0 then do
        let byte ← src.read data
        pure (data + 1, byte.toUInt32)
      else pure (data, byte)
    let colour ← load bmp pixels (line + 4 * x)
    let colour := if byte &&& 128 = 0 then colour ||| 0xff000000 else colour &&& 0xffffff
    let pixels ← store bmp pixels (line + 4 * x) colour
    pure (data, byte <<< 1, pixels)) 0 bmp.width (data, (0 : UInt32), pixels)
  return (data, pixels)

/-- `bmp_decode_mask` -/
def decodeMask (src : Source) (callbacks : Callbacks) (bmp : BmpImage) (data : Nat) (bytes : Int) : Run BmpImage := do
  let pixels ← getBuffer callbacks bmp
  let (_, pixels) ← decodeRows src bmp ⟨bmp.width / 8, maskRow src bmp, some 1⟩ false data (data + bytes) pixels
  return { bmp with bitmap := some pixels }

/-- The variables of the loops of `bmp_decode_rle8` and `bmp_decode_rle4`. -/
structure Rle where
  data : Nat
  x : Nat
  y : Nat
  lastY : Nat
  pixels : Pixels

/-- What the two decoders differ in: the bytes of so many escaped pixels, whether a byte is behind them, how many of
them are in a byte, whether it is read before their place is looked for, the index of the `i`-th of them in its byte, and
the indices of a byte that is repeated. -/
structure RleFormat where
  escaped : Nat → Nat
  padded : Nat → Bool
  perByte : Nat
  readsFirst : Bool
  index : UInt8 → Nat → Nat
  repeated : UInt8 → List Nat

/-- `bmp_decode_rle8` -/
def rle8 : RleFormat where
  escaped length := length
  padded length := length % 2 = 1
  perByte := 1
  readsFirst := true
  index byte _ := byte.toNat
  repeated byte := [byte.toNat]

/-- `bmp_decode_rle4` -/
def rle4 : RleFormat where
  escaped length := (length + 1) / 2
  padded length := (length + 1) / 2 % 2 = 1
  perByte := 2
  readsFirst := false
  index byte i := if i % 2 = 0 then byte.toNat / 16 else byte.toNat % 16
  repeated byte := [byte.toNat / 16, byte.toNat % 16]

def pixelsLeft (bmp : BmpImage) (s : Rle) : Nat :=
  if bmp.reversed then ((bmp.height - s.y) * bmp.width + (2 ^ 32 - s.x)) % 2 ^ 32
  else ((s.y + 1) * bmp.width + (2 ^ 32 - s.x)) % 2 ^ 32

def nextPlace (bmp : BmpImage) (x y : Nat) (line : Int) : Run (Nat × Nat × Int) :=
  if x ≥ bmp.width then
    if y + 1 ≥ bmp.height then result .dataError
    else pure (0, y + 1, if bmp.reversed then line + 4 * bmp.width else line - 4 * bmp.width)
  else pure (x, y, line)

/-- The byte of the `i`-th escaped pixel, and the place in the data. -/
def escapedByte (src : Source) (format : RleFormat) (i data : Nat) (byte : UInt8) : Run (Nat × UInt8) :=
  if i % format.perByte = 0 then do
    let byte ← src.read data
    pure (data + 1, byte)
  else pure (data, byte)

/-- The round for the `i`-th escaped pixel, with the place of the row and the byte of the last pixel. -/
def escapedPixel (src : Source) (bmp : BmpImage) (format : RleFormat) (i : Nat) (t : Rle × Int × UInt8) :
    Run (Rle × Int × UInt8) := do
  let (s, line, byte) := t
  let (data, byte, x, y, line) ←
    if format.readsFirst then do
      let (data, byte) ← escapedByte src format i s.data byte
      let (x, y, line) ← nextPlace bmp s.x s.y line
      pure (data, byte, x, y, line)
    else do
      let (x, y, line) ← nextPlace bmp s.x s.y line
      let (data, byte) ← escapedByte src format i s.data byte
      pure (data, byte, x, y, line)
  let index := format.index byte i
  if index ≥ bmp.colours then result .dataError
  else
    let colour ← colourAt bmp index
    let pixels ← store bmp s.pixels (line + 4 * x) colour
    pure ({ s with data, x := x + 1, y, pixels }, line, byte)

def escapedPixels (src : Source) (bmp : BmpImage) (format : RleFormat) (length : Nat) (s : Rle) : Run Rle := do
  let (s, _, _) ← times (escapedPixel src bmp format) 0 length (s, scanline bmp bmp.reversed s.y, 0)
  pure s

/-- The round for the `i`-th repeated pixel, with the place of the row. -/
def repeatedPixel (bmp : BmpImage) (colours : List UInt32) (i : Nat) (t : Rle × Int) : Run (Rle × Int) := do
  let (s, line) := t
  let (x, y, line) ← nextPlace bmp s.x s.y line
  let pixels ← store bmp s.pixels (line + 4 * x) (colours.getD (i % colours.length) 0)
  pure ({ s with x := x + 1, y, pixels }, line)

def repeatedPixels (bmp : BmpImage) (colours : List UInt32) (length : Nat) (s : Rle) : Run Rle := do
  let (s, _) ← times (repeatedPixel bmp colours) 0 length (s, scanline bmp bmp.reversed s.y)
  pure s

def endLine (bmp : BmpImage) (s : Rle) : Run Rle :=
  if s.lastY = s.y then
    if s.y + 1 ≥ bmp.height then result .dataError
    else pure { s with x := 0, y := s.y + 1, lastY := s.y + 1 }
  else pure { s with x := 0, lastY := s.y }

def moveCursor (src : Source) (bmp : BmpImage) (stop : Int) (s : Rle) : Run Rle :=
  if (s.data + 2 : Int) > stop then result .insufficientData
  else do
    let right ← src.read s.data
    if s.x + right.toNat ≥ bmp.width then result .dataError
    else
      let up ← src.read (s.data + 1)
      if s.y + up.toNat ≥ bmp.height then result .dataError
      else pure { s with data := s.data + 2, x := s.x + right.toNat, y := s.y + up.toNat }

def escapedRun (src : Source) (bmp : BmpImage) (format : RleFormat) (stop : Int) (count : Nat) (s : Rle) : Run Rle :=
  let length := min count (pixelsLeft bmp s)
  if (s.data + format.escaped length : Int) > stop then result .insufficientData
  else do
    let s ← escapedPixels src bmp format length s
    if format.padded length then
      let pad ← src.read s.data
      if pad ≠ 0 then result .dataError else pure { s with data := s.data + 1 }
    else pure s

def repeatedRun (src : Source) (bmp : BmpImage) (format : RleFormat) (stop : Int) (count : Nat) (s : Rle) : Run Rle :=
  let length := min count (pixelsLeft bmp s)
  if (s.data + 1 : Int) > stop then result .insufficientData
  else do
    let byte ← src.read s.data
    let indices := format.repeated byte
    if indices.any (· ≥ bmp.colours) then result .dataError
    else
      let colours ← indices.mapM (colourAt bmp)
      repeatedPixels bmp colours length { s with data := s.data + 1 }

def rleRound (src : Source) (bmp : BmpImage) (format : RleFormat) (stop : Int) (s : Rle) : Run (Option Rle) :=
  if (s.data + 2 : Int) > stop then result .insufficientData
  else do
    let first ← src.read s.data
    if first = 0 then
      let second ← src.read (s.data + 1)
      let s := { s with data := s.data + 2 }
      if second = 0 then some <$> endLine bmp s
      else if second = 1 then pure none
      else if second = 2 then some <$> moveCursor src bmp stop s
      else some <$> escapedRun src bmp format stop second.toNat s
    else some <$> repeatedRun src bmp format stop first.toNat { s with data := s.data + 1 }

def rleLoop (src : Source) (bmp : BmpImage) (format : RleFormat) (stop : Int) : Nat → Rle → Run Pixels
  | 0, _ => fault .endless
  | fuel + 1, s => do
    match ← rleRound src bmp format stop s with
    | none => pure s.pixels
    | some s => if (s.data : Int) < stop then rleLoop src bmp format stop fuel s else pure s.pixels

/-- `bmp_decode_rle8` or `bmp_decode_rle4`. There are no more rounds than bytes. -/
def decodeRle (src : Source) (callbacks : Callbacks) (format : RleFormat) (bmp : BmpImage) (start : Nat)
    (bytes : Int) : Run BmpImage :=
  if bmp.ico then result .dataError
  else do
    let pixels ← getBuffer callbacks bmp
    let pixels ← rleLoop src bmp format (start + bytes) (src.bytes.length + 1) ⟨start, 0, 0, 0, pixels⟩
    return { bmp with decoded := true, bitmap := some pixels }

/-- An unsigned 32-bit value as an `int`. -/
def toInt32 (value : Nat) : Int := if value < 2 ^ 31 then value else (value : Int) - 2 ^ 32

def decodePixels (src : Source) (callbacks : Callbacks) (bmp : BmpImage) (data : Nat) (bytes : Int) :
    Run (BmpImage × Nat) :=
  match bmp.encoding with
  | .rgb =>
    if bmp.bpp = 32 then decodeRgb32 src callbacks bmp data bytes
    else if bmp.bpp = 24 then decodeRgb24 src callbacks bmp data bytes
    else if bmp.bpp = 16 then decodeRgb16 src callbacks bmp data bytes
    else decodeRgb src callbacks bmp data bytes
  | .rle8 => do
    let bmp ← decodeRle src callbacks rle8 bmp data bytes
    return (bmp, data)
  | .rle4 => do
    let bmp ← decodeRle src callbacks rle4 bmp data bytes
    return (bmp, data)
  | .bitfields =>
    if bmp.bpp = 32 then decodeRgb32 src callbacks bmp data bytes
    else if bmp.bpp = 16 then decodeRgb16 src callbacks bmp data bytes
    else result .dataError

def bmpDecode (src : Source) (callbacks : Callbacks) (bmp : BmpImage) : Run BmpImage :=
  if bmp.bitmap.isNone then fault .assertion
  else do
    let start := bmp.bmpData + bmp.bitmapOffset
    let bytes := ((bmp.bufferSize : Int) - bmp.bitmapOffset) % 2 ^ 32
    let (bmp, data) ← decodePixels src callbacks bmp start (toInt32 bytes.toNat)
    -- icons with less than 32 bits for a pixel have a mask behind them
    if bmp.ico ∧ bmp.bpp ≠ 32 then
      let bytes := ((bmp.bmpData : Int) + bmp.bufferSize - data) % 2 ^ 32
      decodeMask src callbacks bmp data (toInt32 bytes.toNat)
    else pure bmp

end Besra.Bmp
