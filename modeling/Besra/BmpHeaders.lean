import Besra.Bmp
import Mathlib.Data.Nat.Bitwise

/-!
What the headers leave in an image that is analysed: its pixels begin inside of the data,
its sizes and its depth are those that the decoders rest on, there are as many colours as are
counted, and the masks are shifted by less than 32. On the way no byte outside of the data is read.
-/
namespace Besra.Bmp
open Faults

section
variable {src : Source} {o : Nat}

theorem keeps_read (within : o < src.bytes.length) : Keeps (src.read o) fun _ => True := by
  unfold Source.read
  rw [List.getElem?_eq_getElem within]
  exact keeps_pure trivial

theorem keeps_readUint16 (within : o + 2 ≤ src.bytes.length) : Keeps (src.readUint16 o) fun _ => True :=
  (keeps_read (by omega)).bind fun _ _ => (keeps_read (by omega)).bind fun _ _ => keeps_pure trivial

theorem keeps_readUint32 (within : o + 4 ≤ src.bytes.length) : Keeps (src.readUint32 o) fun _ => True :=
  (keeps_read (by omega)).bind fun _ _ => (keeps_read (by omega)).bind fun _ _ =>
    (keeps_read (by omega)).bind fun _ _ => (keeps_read (by omega)).bind fun _ _ => keeps_pure trivial

theorem keeps_readInt16 (within : o + 2 ≤ src.bytes.length) :
    Keeps (src.readInt16 o) fun value => -2 ^ 15 ≤ value ∧ value < 2 ^ 15 :=
  (keeps_readUint16 within).bind fun value _ => keeps_pure ⟨value.toInt16.le_toInt, value.toInt16.toInt_lt⟩

theorem keeps_readInt32 (within : o + 4 ≤ src.bytes.length) :
    Keeps (src.readInt32 o) fun value => -2 ^ 31 ≤ value ∧ value < 2 ^ 31 :=
  (keeps_readUint32 within).bind fun value _ => keeps_pure ⟨value.toInt32.le_toInt, value.toInt32.toInt_lt⟩

end

/-- Two images with the same data, in which the pixels begin inside of the second if they do so in the first. -/
structure SameData (before after : BmpImage) : Prop where
  bmpData : after.bmpData = before.bmpData
  bufferSize : after.bufferSize = before.bufferSize
  bitmapOffset : before.bitmapOffset < before.bufferSize → after.bitmapOffset < after.bufferSize
  ico : after.ico = before.ico
  limitedTrans : after.limitedTrans = before.limitedTrans

theorem SameData.refl (bmp : BmpImage) : SameData bmp bmp := ⟨rfl, rfl, id, rfl, rfl⟩

theorem SameData.trans {a b c : BmpImage} (first : SameData a b) (rest : SameData b c) : SameData a c :=
  ⟨rest.1.trans first.1, rest.2.trans first.2, fun offset => rest.3 (first.3 offset), rest.4.trans first.4,
    rest.5.trans first.5⟩

structure Sized (bmp : BmpImage) : Prop where
  width_pos : 0 < bmp.width
  width_lt : bmp.width < 2 ^ 31
  height_pos : bmp.ico = false → 0 < bmp.height
  height_lt : bmp.height < 2 ^ 31
  icon : bmp.ico = true → bmp.width ≤ 256 ∧ bmp.height ≤ 256

def Depth : Encoding → Nat → Prop
  | .rgb, bpp => isLegalDepth bpp
  | .rle8, bpp => bpp = 8
  | .rle4, bpp => bpp = 4
  | .bitfields, bpp => bpp = 16 ∨ bpp = 32

def Shifts (bmp : BmpImage) : Prop := ∀ i < 4, -24 ≤ bmp.shift i ∧ bmp.shift i ≤ 30

variable {bmp before : BmpImage} {data count i headerSize paletteSize bufferSize : Nat} {value : UInt32}
  {amount : Int} {callbacks : Callbacks} {flagged : Bool}

theorem keeps_setSize {width height : Int} (wide : 0 < width) (high : 0 < height) (width_lt : width < 2 ^ 31)
    (height_lt : height < 2 ^ 31) :
    Keeps (setSize bmp width height) fun bmp' =>
      Sized bmp' ∧ bmp' = { bmp with width := bmp'.width, height := bmp'.height } := by
  unfold setSize
  refine keeps_ite (fun icon => keeps_ite (fun _ => keeps_result) fun small => keeps_pure ⟨?_, rfl⟩)
    fun file => keeps_pure ⟨?_, rfl⟩
  · exact ⟨by dsimp only; omega, by dsimp only; omega, fun not => by dsimp only at not; simp [icon] at not,
      by dsimp only; omega, fun _ => by dsimp only; omega⟩
  · exact ⟨by dsimp only; omega, by dsimp only; omega, fun _ => by dsimp only; omega, by dsimp only; omega,
      fun not => absurd not (by simpa using file)⟩

structure Headed (before after : BmpImage) : Prop where
  data : SameData before after
  sized : Sized after
  depth : Depth after.encoding after.bpp
  shifts : Shifts after

theorem keeps_coreHeader {src : Source} (within : data + 12 ≤ src.bytes.length) (rgb : bmp.encoding = .rgb)
    (shifts : Shifts bmp) : Keeps (coreHeader src bmp data) (Headed bmp) := by
  unfold coreHeader
  refine (keeps_readInt16 (by omega)).bind fun width wide => (keeps_readInt16 (by omega)).bind fun height high => ?_
  refine keeps_ite (fun _ => keeps_result) fun sizes => ?_
  refine (keeps_setSize (by omega) (by split <;> omega) (by omega) (by split <;> omega)).bind fun bmp' ⟨sized, same⟩ => ?_
  refine (keeps_readUint16 (by omega)).bind fun _ _ => keeps_ite (fun _ => keeps_result) fun _ => ?_
  refine (keeps_readUint16 (by omega)).bind fun bpp _ => keeps_ite (fun _ => keeps_result) fun legal => keeps_pure ?_
  have start : SameData bmp bmp' ∧ bmp'.encoding = .rgb ∧ Shifts bmp' := by
    rw [same]
    split <;> exact ⟨⟨rfl, rfl, id, rfl, rfl⟩, rgb, shifts⟩
  have depth : Depth bmp'.encoding bpp.toNat := by
    rw [start.2.1]
    simpa [Depth] using legal
  split <;> exact ⟨⟨start.1.1, start.1.2, start.1.3, start.1.4, start.1.5⟩,
    ⟨sized.1, sized.2, sized.3, sized.4, sized.5⟩, depth, start.2.2⟩

theorem keeps_encodingOf {bpp : Nat} : Keeps (encodingOf value bpp) fun encoding => Depth encoding bpp := by
  unfold encodingOf
  refine keeps_ite (fun _ => keeps_ite (fun holds => keeps_pure holds) fun _ => keeps_result) fun _ => ?_
  refine keeps_ite (fun _ => keeps_ite (fun holds => keeps_pure holds) fun _ => keeps_result) fun _ => ?_
  refine keeps_ite (fun _ => keeps_ite (fun holds => keeps_pure holds) fun _ => keeps_result) fun _ => ?_
  exact keeps_ite (fun _ => keeps_ite (fun holds => keeps_pure holds) fun _ => keeps_result) fun _ => keeps_result

structure SameButMasks (before after : BmpImage) : Prop where
  data : SameData before after
  width : after.width = before.width
  height : after.height = before.height
  encoding : after.encoding = before.encoding
  bpp : after.bpp = before.bpp

theorem keeps_shiftLeft (lower : 0 ≤ amount) (upper : amount ≤ 31) : Keeps (shiftLeft value amount) fun _ => True := by
  unfold shiftLeft
  rw [if_pos ⟨lower, upper⟩]
  exact keeps_pure trivial

theorem keeps_shiftRight (lower : 0 ≤ amount) (upper : amount ≤ 31) :
    Keeps (shiftRight value amount) fun _ => True := by
  unfold shiftRight
  rw [if_pos ⟨lower, upper⟩]
  exact keeps_pure trivial

theorem keeps_readMasks {src : Source} (within : data + (40 + count * 4) ≤ src.bytes.length) (shifts : Shifts bmp) :
    Keeps (readMasks src bmp data count) fun bmp' => SameButMasks bmp bmp' ∧ Shifts bmp' := by
  refine keeps_times (fun _ bmp' => SameButMasks bmp bmp' ∧ Shifts bmp') ⟨⟨.refl bmp, rfl, rfl, rfl, rfl⟩, shifts⟩ ?_
  intro i bmp' _ upper ⟨same, shifts'⟩
  refine (keeps_readUint32 (by omega)).bind fun mask _ => keeps_pure ⟨?_, shifts'⟩
  exact ⟨⟨same.1.1, same.1.2, same.1.3, same.1.4, same.1.5⟩, same.2, same.3, same.4, same.5⟩

theorem keeps_alignMask {j : Nat} {mask : UInt32} (place : j ≤ 31) :
    Keeps (alignMask i mask j) fun found =>
      ∀ shift, found.2 = some shift → (i * 8 - 24 : Int) ≤ shift ∧ shift ≤ i * 8 + 6 := by
  induction j with
  | zero => exact keeps_pure fun shift same => (by cases same)
  | succ j ih =>
    unfold alignMask
    refine (keeps_shiftLeft (by omega) (by omega)).bind fun bit _ => keeps_ite (fun _ => ?_) fun _ => ih (by omega)
    have aligned : ∀ shift, (some ((i * 8 : Int) - (j + 1 - 7))) = some shift →
        (i * 8 - 24 : Int) ≤ shift ∧ shift ≤ i * 8 + 6 := by
      intro shift same
      cases same
      omega
    exact keeps_ite (fun _ => (keeps_shiftLeft (by omega) (by omega)).bind fun _ _ => keeps_pure aligned)
      fun _ => (keeps_shiftRight (by omega) (by omega)).bind fun _ _ => keeps_pure aligned

theorem keeps_alignMasks {n : Nat} (four : i + n ≤ 4) (shifts : Shifts bmp) :
    Keeps (alignMasks n i bmp) fun bmp' => SameButMasks bmp bmp' ∧ Shifts bmp' := by
  induction n generalizing i bmp with
  | zero => exact keeps_pure ⟨⟨.refl bmp, rfl, rfl, rfl, rfl⟩, shifts⟩
  | succ n ih =>
    unfold alignMasks
    refine keeps_ite (fun _ => keeps_pure ⟨⟨.refl bmp, rfl, rfl, rfl, rfl⟩, shifts⟩) fun _ => ?_
    refine (keeps_alignMask (Nat.le_refl 31)).bind fun (mask, shift) bounds => ?_
    refine (ih (by omega) ?_).mono fun bmp' ⟨same, shifts'⟩ => ⟨?_, shifts'⟩
    · cases shift with
      | none => exact shifts
      | some shift =>
        intro k four
        have bound := bounds shift rfl
        by_cases here : k = i
        · simp only [here, Function.update_self]
          omega
        · simpa only [Function.update_of_ne here] using shifts k four
    · cases shift <;> exact ⟨⟨same.1.1, same.1.2, same.1.3, same.1.4, same.1.5⟩, same.2, same.3, same.4, same.5⟩

theorem keeps_bitfieldMasks {src : Source} (within : data + bmp.bufferSize ≤ src.bytes.length + 14)
    (room : 14 + headerSize ≤ bmp.bufferSize) (shifts : Shifts bmp) :
    Keeps (bitfieldMasks src bmp data headerSize) fun p =>
      (SameButMasks bmp p.1 ∧ Shifts p.1) ∧ 14 + p.2 ≤ bmp.bufferSize := by
  unfold bitfieldMasks
  refine keeps_ite (fun _ => keeps_pure ⟨⟨⟨.refl bmp, rfl, rfl, rfl, rfl⟩, shifts⟩, room⟩) fun _ => ?_
  have masks {n : Nat} (inside : data + (40 + n * 4) ≤ src.bytes.length) :
      Keeps (readMasks src bmp data n >>= fun bmp => alignMasks 4 0 bmp) fun bmp' =>
        SameButMasks bmp bmp' ∧ Shifts bmp' := by
    refine (keeps_readMasks inside shifts).bind fun read ⟨same, shifts'⟩ => ?_
    refine (keeps_alignMasks (Nat.le_refl 4) shifts').mono fun aligned ⟨same', shifts''⟩ => ⟨?_, shifts''⟩
    exact ⟨same.1.trans same'.1, same'.2.trans same.2, same'.3.trans same.3, same'.4.trans same.4, same'.5.trans same.5⟩
  refine keeps_ite (fun forty => keeps_ite (fun _ => keeps_result) fun room' => ?_) fun _ =>
    keeps_ite (fun _ => keeps_result) fun long => ?_
  · rw [← bind_assoc]
    exact (masks (by omega)).bind fun bmp' kept => keeps_pure ⟨kept, by dsimp only; omega⟩
  · rw [← bind_assoc]
    exact (masks (by omega)).bind fun bmp' kept => keeps_pure ⟨kept, room⟩

theorem keeps_windowsHeader {src : Source} (within : data + bmp.bufferSize ≤ src.bytes.length + 14)
    (room : 14 + headerSize ≤ bmp.bufferSize) (long : 40 ≤ headerSize) (shifts : Shifts bmp) :
    Keeps (windowsHeader src bmp data headerSize) fun p =>
      Headed bmp p.1 ∧ 14 + p.2 ≤ bmp.bufferSize := by
  unfold windowsHeader
  refine (keeps_readInt32 (by omega)).bind fun width wide => (keeps_readInt32 (by omega)).bind fun height high => ?_
  refine keeps_ite (fun _ => keeps_result) fun sizes => ?_
  refine (keeps_setSize (by omega) (by split_ifs <;> omega) (by omega) (by split_ifs <;> omega)).bind
    fun sized ⟨size, same⟩ => ?_
  have start : SameData bmp sized ∧ Shifts sized := by
    rw [same]
    split <;> exact ⟨⟨rfl, rfl, id, rfl, rfl⟩, shifts⟩
  refine (keeps_readUint16 (by omega)).bind fun _ _ => keeps_ite (fun _ => keeps_result) fun _ => ?_
  refine (keeps_readUint16 (by omega)).bind fun bpp _ => (keeps_readUint32 (by omega)).bind fun compression _ => ?_
  refine keeps_encodingOf.bind fun encoding depth => ?_
  have buffer := start.1.bufferSize
  refine (keeps_bitfieldMasks ?within ?room ?shifts).bind fun (masked, size') ⟨⟨same', shifts'⟩, room'⟩ => ?_
  case within => exact buffer ▸ within
  case room => exact buffer ▸ room
  case shifts => exact start.2
  refine (keeps_readUint32 (by omega)).bind fun colours _ => keeps_pure ⟨⟨?_, ?_, ?_, shifts'⟩, ?_⟩
  · exact start.1.trans ⟨same'.1.1, same'.1.2, same'.1.3, same'.1.4, same'.1.5⟩
  · have icon := same'.1.ico
    have width' := same'.width
    have height' := same'.height
    dsimp only at icon width' height'
    constructor <;> dsimp only <;> simp only [icon, width', height']
    exacts [size.1, size.2, size.3, size.4, size.5]
  · dsimp only
    rw [same'.encoding, same'.bpp]
    exact depth
  · dsimp only at room' ⊢
    omega

theorem keeps_anyHeader {src : Source} (within : data + bmp.bufferSize ≤ src.bytes.length + 14)
    (room : 14 + headerSize ≤ bmp.bufferSize) (rgb : bmp.encoding = .rgb) (shifts : Shifts bmp) :
    Keeps (anyHeader src bmp data headerSize) fun p =>
      Headed bmp p.1 ∧ 14 + p.2.1 ≤ bmp.bufferSize ∧ p.2.2 ≤ 4 := by
  unfold anyHeader
  refine keeps_ite (fun core => ?_) fun _ => keeps_ite (fun _ => keeps_result) fun long => ?_
  · exact (keeps_coreHeader (by omega) rgb shifts).bind fun _ headed => keeps_pure ⟨headed, room, Nat.le_succ 3⟩
  · exact (keeps_windowsHeader within room (by omega) shifts).bind fun _ ⟨headed, room'⟩ =>
      keeps_pure ⟨headed, room', Nat.le_refl 4⟩

theorem keeps_readPalette {src : Source} {isOpaque : Bool} {colours : Nat} (small : paletteSize ≤ 4)
    (within : data + 4 * colours ≤ src.bytes.length) :
    Keeps (readPalette src isOpaque paletteSize data colours) fun p =>
      p.1.length = colours ∧ p.2 = data + colours * paletteSize := by
  have all : Keeps (readPalette src isOpaque paletteSize data colours) fun p =>
      p.1.length = 0 + colours ∧ p.2 = data + (0 + colours) * paletteSize := by
    refine keeps_times (fun i (p : List UInt32 × Nat) => p.1.length = i ∧ p.2 = data + i * paletteSize) (by simp) ?_
    intro i (table, place) _ upper ⟨count, here⟩
    dsimp only at count here
    have bound : i * paletteSize ≤ i * 4 := Nat.mul_le_mul_left i small
    refine (keeps_read (by omega)).bind fun _ _ => (keeps_read (by omega)).bind fun _ _ =>
      (keeps_read (by omega)).bind fun _ _ => keeps_pure ⟨?_, ?_⟩
    · simp [count]
    · simp only [here, Nat.succ_mul, Nat.add_assoc]
  simpa only [Nat.zero_add] using all

theorem keeps_takePalette {src : Source} (small : paletteSize ≤ 4)
    (within : data + bmp.bufferSize ≤ src.bytes.length + 14 + headerSize) :
    Keeps (takePalette src callbacks bmp headerSize paletteSize data) fun p =>
      SameData bmp p.1 ∧ p.1 = { bmp with bitmapOffset := p.1.bitmapOffset, colourTable := p.1.colourTable } ∧
      p.1.colourTable.length = bmp.colours ∧ data ≤ p.2 ∧ p.2 + 14 + headerSize ≤ data + bmp.bufferSize := by
  unfold takePalette
  refine keeps_ite (fun _ => keeps_result) fun room => keeps_ite (fun _ => keeps_result) fun _ => ?_
  refine (keeps_readPalette small (by omega)).bind fun (table, place) ⟨count, here⟩ => ?_
  dsimp only at count here
  have bound : bmp.colours * paletteSize ≤ bmp.colours * 4 := Nat.mul_le_mul_left _ small
  refine keeps_ite (fun behind => keeps_pure ?_) fun _ => keeps_pure ?_
  · exact ⟨⟨rfl, rfl, fun _ => by dsimp only at behind ⊢; omega, rfl, rfl⟩, rfl, count, by dsimp only; omega,
      by dsimp only; omega⟩
  · exact ⟨⟨rfl, rfl, id, rfl, rfl⟩, rfl, count, by dsimp only; omega, by dsimp only; omega⟩

structure Analysed (src : Source) (bmp : BmpImage) : Prop where
  within : bmp.bmpData + bmp.bufferSize ≤ src.bytes.length
  bufferSize : bmp.bufferSize < 2 ^ 32
  offset : bmp.bitmapOffset < bmp.bufferSize
  sized : Sized bmp
  depth : Depth bmp.encoding bmp.bpp
  shifts : Shifts bmp
  table : bmp.bpp < 16 → bmp.colourTable.length = bmp.colours
  bitmap : bmp.bitmap.isSome
  limitedTrans : bmp.limitedTrans = false

/-- What holds of an image before its information header is read at a place. -/
structure Begun (src : Source) (bmp : BmpImage) (data : Nat) : Prop where
  within : bmp.bmpData + bmp.bufferSize ≤ src.bytes.length
  bufferSize : bmp.bufferSize < 2 ^ 32
  offset : bmp.ico = false → bmp.bitmapOffset < bmp.bufferSize
  lower : bmp.bmpData ≤ data
  upper : data ≤ bmp.bmpData + 14
  icon : bmp.ico = true → data = bmp.bmpData
  encoding : bmp.encoding = .rgb
  shifts : Shifts bmp
  limitedTrans : bmp.limitedTrans = false

theorem keeps_createBitmap :
    Keeps (createBitmap callbacks bmp flagged data) fun bmp' => bmp'.bitmap.isSome ∧
      bmp' = { bmp with bitmap := bmp'.bitmap, bitmapOffset := bmp'.bitmapOffset } ∧
      bmp'.bitmapOffset = if bmp.ico then data - bmp.bmpData else bmp.bitmapOffset := by
  unfold createBitmap
  cases callbacks.bitmapCreate bmp.width bmp.height ((if flagged then 1 else 0) ||| 2) with
  | none => exact keeps_result
  | some pixels =>
    refine keeps_pure ?_
    cases icon : bmp.ico <;> simp

theorem Headed.listed {after : BmpImage} (header : Headed before bmp) (same : SameData bmp after)
    (frame : after = { bmp with bitmapOffset := after.bitmapOffset, colourTable := after.colourTable }) :
    Headed before after := by
  refine ⟨header.1.trans same, ?_, ?_, ?_⟩ <;> rw [frame]
  exacts [⟨header.2.1, header.2.2, header.2.3, header.2.4, header.2.5⟩, header.3, header.4]

theorem Headed.createBitmap {src : Source} (begun : Begun src before data) {place : Nat} (header : Headed before bmp)
    (table : bmp.bpp < 16 → bmp.colourTable.length = bmp.colours) (behind : data ≤ place)
    (rest : place + 14 ≤ data + before.bufferSize) :
    Keeps (createBitmap callbacks bmp flagged place) (Analysed src) := by
  have same := header.data
  refine keeps_createBitmap.mono fun made ⟨bitmap, frame, offset⟩ => ?_
  have image := begun.within
  have offset' : made.bitmapOffset < bmp.bufferSize := by
    rw [offset, same.bmpData, same.bufferSize]
    cases icon : bmp.ico with
    | true =>
      have here := begun.icon (same.ico ▸ icon)
      simp only [if_pos]
      omega
    | false => exact same.bufferSize ▸ same.bitmapOffset (begun.offset (same.ico ▸ icon))
  rw [frame]
  exact {
    within := by rw [← same.bmpData, ← same.bufferSize] at image; exact image
    bufferSize := same.bufferSize ▸ begun.bufferSize
    offset := offset'
    sized := ⟨header.sized.1, header.sized.2, header.sized.3, header.sized.4, header.sized.5⟩
    depth := header.depth
    shifts := header.shifts
    table
    bitmap
    limitedTrans := same.limitedTrans.trans begun.limitedTrans }

theorem keeps_bmpInfoHeaderParse {src : Source} (begun : Begun src bmp data) :
    Keeps (bmpInfoHeaderParse src callbacks bmp data) (Analysed src) := by
  have within := begun.within
  have upper := begun.upper
  have lower := begun.lower
  unfold bmpInfoHeaderParse
  refine keeps_ite (fun _ => keeps_result) fun core => (keeps_readUint32 (by omega)).bind fun size _ => ?_
  refine keeps_ite (fun _ => keeps_result) fun room => ?_
  refine (keeps_anyHeader (by omega) (by omega) begun.encoding begun.shifts).bind
    fun (headed, headerSize, paletteSize) ⟨header, room', small⟩ => ?_
  dsimp only at header room' small
  have flagged (isOpaque : Bool) : Headed bmp { headed with isOpaque } :=
    ⟨⟨header.1.1, header.1.2, header.1.3, header.1.4, header.1.5⟩,
      ⟨header.2.1, header.2.2, header.2.3, header.2.4, header.2.5⟩, header.3, header.4⟩
  have opaqued : Headed bmp (if !headed.ico && headed.mask 3 == 0 then { headed with isOpaque := true } else headed) := by
    split
    · exact flagged true
    · exact header
  refine keeps_ite (fun _ => ?_) fun many => ?_
  · refine (keeps_takePalette small ?_).bind fun (listed, place) ⟨same, frame, count, behind, rest⟩ => ?_
    · rw [opaqued.data.bufferSize]
      omega
    · have table : listed.colourTable.length = listed.colours := count.trans (congrArg BmpImage.colours frame).symm
      have size := opaqued.data.bufferSize
      dsimp only at behind rest
      exact (opaqued.listed same frame).createBitmap begun (fun _ => table) (by omega) (by omega)
  · exact opaqued.createBitmap begun (fun few => absurd few many) (by omega) (by omega)

theorem keeps_bmpFileHeaderParse {src : Source} (within : data + bmp.bufferSize ≤ src.bytes.length) :
    Keeps (bmpFileHeaderParse src bmp data) fun bmp' =>
      bmp' = { bmp with bitmapOffset := bmp'.bitmapOffset } ∧ bmp'.bitmapOffset < bmp.bufferSize := by
  unfold bmpFileHeaderParse
  refine keeps_ite (fun _ => keeps_result) fun room => (keeps_read (by omega)).bind fun _ _ => ?_
  refine (keeps_read (by omega)).bind fun _ _ => keeps_ite (fun _ => keeps_result) fun _ => ?_
  refine (keeps_readUint32 (by omega)).bind fun offset _ => keeps_ite (fun _ => keeps_result) fun inside => ?_
  exact keeps_pure ⟨rfl, by dsimp only; omega⟩

theorem keeps_bmpAnalyse (src : Source) (callbacks : Callbacks) : Keeps (bmpAnalyse src callbacks) (Analysed src) := by
  have fit := Nat.mod_le src.bytes.length (2 ^ 32)
  have small := Nat.mod_lt src.bytes.length (Nat.two_pow_pos 32)
  unfold bmpAnalyse
  refine (keeps_bmpFileHeaderParse (by dsimp only; omega)).bind fun bmp ⟨frame, inside⟩ => keeps_bmpInfoHeaderParse ?_
  rw [frame]
  exact {
    within := by simpa [bmpCreate] using fit
    bufferSize := small
    offset := fun _ => inside
    lower := Nat.zero_le _
    upper := by simp [bmpCreate]
    icon := fun icon => by cases icon
    encoding := rfl
    shifts := fun i _ => by simp [bmpCreate]
    limitedTrans := rfl }

theorem keeps_icoEntry {src : Source} (fit : bufferSize ≤ src.bytes.length) (within : data + 16 ≤ bufferSize) :
    Keeps (icoEntry src callbacks bufferSize data) (Analysed src) := by
  unfold icoEntry
  refine keeps_ite (fun _ => keeps_result) fun _ => (keeps_read (by omega)).bind fun width _ => ?_
  refine (keeps_read (by omega)).bind fun height _ => (keeps_readUint32 (by omega)).bind fun size _ => ?_
  refine (keeps_readUint32 (by omega)).bind fun offset _ => keeps_ite (fun _ => keeps_result) fun room => ?_
  refine keeps_ite (fun _ => keeps_result) fun _ => keeps_ite (fun _ => keeps_result) fun _ => keeps_bmpInfoHeaderParse ?_
  exact {
    within := by dsimp only; omega
    bufferSize := size.toNat_lt
    offset := fun file => by cases file
    lower := Nat.le_refl _
    upper := Nat.le_add_right _ _
    icon := fun _ => rfl
    encoding := rfl
    shifts := fun i _ => by simp [bmpCreate]
    limitedTrans := rfl }

theorem keeps_icoEntries {src : Source} {images : List BmpImage} (fit : bufferSize ≤ src.bytes.length)
    (within : data + 16 * count ≤ bufferSize) (before : ∀ bmp ∈ images, Analysed src bmp) :
    Keeps (icoEntries src callbacks bufferSize count data images) fun p => ∀ bmp ∈ p.1, Analysed src bmp := by
  induction count generalizing data images with
  | zero => exact keeps_pure before
  | succ count ih =>
    have entry : Keeps (icoEntry src callbacks bufferSize data) (Analysed src) := keeps_icoEntry fit (by omega)
    unfold icoEntries
    rcases done : icoEntry src callbacks bufferSize data with (r | f) | image
    · exact keeps_pure before
    · rw [done] at entry
      exact entry.elim
    · exact ih (by omega) (List.forall_mem_cons.mpr ⟨entry.of_ok done, before⟩)

theorem keeps_icoAnalyse (src : Source) (callbacks : Callbacks) :
    Keeps (icoAnalyse src callbacks) fun p => ∀ bmp ∈ p.1, Analysed src bmp := by
  have fit := Nat.mod_le src.bytes.length (2 ^ 32)
  unfold icoAnalyse
  refine keeps_ite (fun _ => keeps_result) fun header => (keeps_readUint16 (by omega)).bind fun _ _ => ?_
  refine keeps_ite (fun _ => keeps_result) fun _ => (keeps_readUint16 (by omega)).bind fun count _ => ?_
  refine keeps_ite (fun _ => keeps_result) fun _ => keeps_ite (fun _ => keeps_result) fun directory => ?_
  exact keeps_icoEntries fit (by omega) fun bmp none => absurd none List.not_mem_nil

end Besra.Bmp
