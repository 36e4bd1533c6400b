import Besra.BmpDecode
import Besra.BmpHeaders

/-!
Rows of colours. Pixels are always written within the buffer. Before a row is read it is checked that so many bytes
are left, and so its reads are within the data just if they need no more (`ends_decodeRows`).
-/
namespace Besra.Bmp
open Faults

def Inside (bmp : BmpImage) (place : Int) : Prop := 0 ≤ place ∧ place % 4 = 0 ∧ place / 4 < bmp.width * bmp.height

variable {pixels : Pixels} {place amount : Int} {y x step data size need : Nat} {value : UInt32} {reversed : Bool}

theorem ends_store {bmp : BmpImage} {colour : UInt32} :
    Ends (store bmp pixels place colour) True (Inside bmp place) fun _ => Inside bmp place :=
  ends_guard id

theorem ends_load {bmp : BmpImage} : Ends (load bmp pixels place) True (Inside bmp place) fun _ => True :=
  ends_guard fun _ => trivial

theorem scanWidth_le (bmp : BmpImage) : scanWidth bmp ≤ 4 * bmp.width := Nat.mod_le _ _

theorem scanWidth_mod (bmp : BmpImage) : scanWidth bmp % 4 = 0 := by
  unfold scanWidth
  omega

theorem offset_mod (bmp : BmpImage) (y : Nat) : y * scanWidth bmp % 2 ^ 32 % 4 = 0 := by
  rw [Nat.mod_mod_of_dvd _ (by decide), Nat.mul_mod, scanWidth_mod]
  simp

theorem bottom_eq {bmp : BmpImage} (row : y < bmp.height) (small : bmp.height < 2 ^ 31) :
    bottom bmp = scanWidth bmp * (bmp.height - 1) := by
  have rows : (bmp.height + (2 ^ 32 - 1)) % 2 ^ 32 = bmp.height - 1 := by omega
  rw [bottom, rows]

theorem inside_of_lt {bmp : BmpImage} {place : Nat} (word : place % 4 = 0) (lt : place < 4 * (bmp.height * bmp.width)) :
    Inside bmp place := by
  refine ⟨Int.natCast_nonneg place, by omega, ?_⟩
  rw [show (bmp.width : Int) * bmp.height = (bmp.height * bmp.width : Nat) by push_cast; rw [Int.mul_comm]]
  omega

theorem inside_scanline {bmp : BmpImage} (sized : Sized bmp) (reversed : Bool) (row : y < bmp.height)
    (column : x < bmp.width) : Inside bmp (scanline bmp reversed y + 4 * x) := by
  have offset : y * scanWidth bmp % 2 ^ 32 ≤ y * scanWidth bmp := Nat.mod_le _ _
  have offset_mod := offset_mod bmp y
  have wide (k : Nat) : k * scanWidth bmp ≤ 4 * (k * bmp.width) :=
    (Nat.mul_le_mul_left k (scanWidth_le bmp)).trans (Nat.mul_left_comm _ _ _).le
  have rows : y * scanWidth bmp ≤ (bmp.height - 1) * scanWidth bmp := Nat.mul_le_mul_right _ (by omega)
  have area : (bmp.height - 1) * bmp.width + bmp.width = bmp.height * bmp.width := by
    rw [← Nat.succ_mul, Nat.succ_eq_add_one, Nat.sub_add_cancel (by omega)]
  have wide' := wide (bmp.height - 1)
  have bottom_mod : (bmp.height - 1) * scanWidth bmp % 4 = 0 := by
    rw [Nat.mul_mod, scanWidth_mod]
    simp
  cases reversed with
  | true =>
    have place : scanline bmp true y + 4 * x = (y * scanWidth bmp % 2 ^ 32 + 4 * x : Nat) := by simp [scanline]
    rw [place]
    exact inside_of_lt (by omega) (by omega)
  | false =>
    have place : scanline bmp false y + 4 * x =
        ((bmp.height - 1) * scanWidth bmp - y * scanWidth bmp % 2 ^ 32 + 4 * x : Nat) := by
      simp only [scanline, bottom_eq row sized.height_lt, Nat.mul_comm (scanWidth bmp), Bool.false_eq_true, if_false]
      omega
    rw [place]
    exact inside_of_lt (by omega) (by omega)

theorem ends_getBuffer {callbacks : Callbacks} {bmp : BmpImage} (bitmap : bmp.bitmap.isSome) :
    Ends (getBuffer callbacks bmp) (callbacks.bitmapGetBuffer = true) True fun _ => True := by
  unfold getBuffer
  cases image : bmp.bitmap with
  | none => simp [image] at bitmap
  | some pixels =>
    dsimp only
    cases callbacks.bitmapGetBuffer with
    | true => exact (ends_pure trivial).congr (by simp) fun _ => Iff.rfl
    | false => exact ends_result.congr (by simp) fun _ => Iff.rfl

section
variable {src : Source} {o : Nat}

theorem ends_read : Ends (src.read o) True (o < src.bytes.length) fun byte => src.bytes[o]? = some byte := by
  unfold Source.read
  cases found : src.bytes[o]? with
  | none =>
    have past := List.getElem?_eq_none_iff.mp found
    exact ends_fault.congr Iff.rfl fun _ => ⟨fun no => no.elim, fun lt => absurd lt (by omega)⟩
  | some byte =>
    have lt := (List.getElem?_eq_some_iff.mp found).1
    have done : Ends (pure byte : Run UInt8) True True fun b => some byte = some b := ends_pure rfl
    exact done.congr Iff.rfl fun _ => ⟨fun _ => lt, fun _ => trivial⟩

theorem ends_readUint16 : Ends (src.readUint16 o) True (o + 2 ≤ src.bytes.length) fun _ => True :=
  (ends_read.bind fun _ _ => ends_read.bind fun _ _ => ends_pure trivial).congr (by simp) fun _ => by simp; omega

theorem ends_readUint32 : Ends (src.readUint32 o) True (o + 4 ≤ src.bytes.length) fun _ => True :=
  (ends_read.bind fun _ _ => ends_read.bind fun _ _ => ends_read.bind fun _ _ => ends_read.bind fun _ _ =>
    ends_pure trivial).congr (by simp) fun _ => by simp; omega

theorem ends_readColour : Ends (src.readColour o) True (o + 3 ≤ src.bytes.length) fun _ => True :=
  (ends_read.bind fun _ _ => ends_read.bind fun _ _ => ends_read.bind fun _ _ =>
    ends_pure trivial).congr (by simp) fun _ => by simp; omega

end

theorem ends_shiftLeft : Ends (shiftLeft value amount) True (0 ≤ amount ∧ amount ≤ 31) fun _ => True :=
  ends_guard fun _ => trivial

theorem ends_shiftRight : Ends (shiftRight value amount) True (0 ≤ amount ∧ amount ≤ 31) fun _ => True :=
  ends_guard fun _ => trivial

theorem ends_masked {bmp : BmpImage} {word start : UInt32} (shifts : Shifts bmp) :
    Ends (masked bmp word start) True True fun _ => True := by
  refine returns_times (fun _ _ => True) trivial fun i colour _ four _ => ?_
  have bounds := shifts i (by omega)
  by_cases left : bmp.shift i > 0
  · rw [if_pos left]
    exact (ends_shiftLeft.sure (by omega)).then fun _ _ => ends_pure trivial
  · rw [if_neg left]
    exact (ends_shiftRight.sure (by omega)).then fun _ _ => ends_pure trivial

def rowSize (bmp : BmpImage) : Nat :=
  if bmp.bpp < 16 then (bmp.width + 8 / bmp.bpp - 1) / (8 / bmp.bpp) else bmp.bpp / 8 * bmp.width

def aligned (size : Nat) : Nat := (size + 3) / 4 * 4

theorem align_eq {src : Source} {start k fuel : Nat} (enough : k < fuel)
    (here : (src.address + (data + k * step)) % 4 = (src.address + start) % 4)
    (before : ∀ j < k, (src.address + (data + j * step)) % 4 ≠ (src.address + start) % 4) :
    align src start step fuel data = pure (data + k * step) := by
  induction fuel generalizing data k with
  | zero => omega
  | succ fuel ih =>
    unfold align
    cases k with
    | zero => rw [if_pos (by simpa using here)]; simp
    | succ k =>
      rw [if_neg (by simpa using before 0 (by omega))]
      have same (j : Nat) : data + step + j * step = data + (j + 1) * step := by rw [Nat.succ_mul]; omega
      rw [ih (k := k) (by omega) (by rw [same]; exact here) fun j lt => by rw [same]; exact before (j + 1) (by omega), same]

theorem align_row {src : Source} {start : Nat} (steps : step = 1 ∨ step = 2 ∧ size % 2 = 0) :
    align src start step alignFuel (start + y * aligned size + size) = pure (start + (y + 1) * aligned size) := by
  have whole : y * aligned size % 4 = 0 := by rw [aligned, ← Nat.mul_assoc, Nat.mul_mod_left]
  have round : aligned size % 4 = 0 ∧ size ≤ aligned size ∧ aligned size < size + 4 := by unfold aligned; omega
  have next : (y + 1) * aligned size = y * aligned size + aligned size := Nat.succ_mul _ _
  generalize aligned size = stride at *
  rcases steps with rfl | ⟨rfl, even⟩
  · rw [align_eq (k := stride - size) (by unfold alignFuel; omega) (by omega) fun j lt => by omega, next]
    congr 1
    omega
  · rw [align_eq (k := (stride - size) / 2) (by unfold alignFuel; omega) (by omega) fun j lt => by omega, next]
    congr 1
    omega

theorem ends_decodeRows {src : Source} {bmp : BmpImage} {rows : Rows} {start : Nat} {stop : Int}
    (row : ∀ y < bmp.height, ∀ (data : Nat) (pixels : Pixels), (data + rows.checked : Int) ≤ stop → Ends (rows.row data (scanline bmp reversed y) pixels) True (data + need ≤ src.bytes.length) fun p => p.1 = data + size)
    (step : ∀ step, rows.step = some step → step = 1 ∨ step = 2 ∧ size % 2 = 0)
    (unaligned : rows.step = none → aligned size = size) :
    Ends (decodeRows src bmp rows reversed start stop pixels)
      (∀ i, 0 ≤ i → i < 0 + bmp.height → (∀ j, 0 ≤ j → j < i → start + j * aligned size + need ≤ src.bytes.length) →
        (start + i * aligned size + rows.checked : Int) ≤ stop)
      (∀ i, 0 ≤ i → i < 0 + bmp.height → start + i * aligned size + need ≤ src.bytes.length)
      fun p => p.1 = start + (0 + bmp.height) * aligned size := by
  refine ends_times (fun y (p : Nat × Pixels) => p.1 = start + y * aligned size)
    (fun y => (start + y * aligned size + rows.checked : Int) ≤ stop)
    (fun y => start + y * aligned size + need ≤ src.bytes.length) (by simp) ?_
  rintro y ⟨data, pixels⟩ _ upper here
  dsimp only at here
  subst here
  have next : start + y * aligned size + aligned size = start + (y + 1) * aligned size := by rw [Nat.succ_mul]; omega
  have whole (checked : ¬ ((start + y * aligned size : Nat) + rows.checked : Int) > stop) :=
    row y (by omega) (start + y * aligned size) pixels (by omega)
  refine (Ends.unless fun checked => (whole checked).finally fun (data, pixels) there => ?_).congr
    (by push_cast; simp) fun _ => Iff.rfl
  dsimp only at there ⊢
  subst there
  cases aligns : rows.step with
  | none => exact ends_pure (by rw [unaligned aligns] at next; rw [unaligned aligns]; exact next)
  | some k =>
    dsimp only
    rw [align_row (step k aligns)]
    exact ends_pure rfl

theorem ends_pixelRow {src : Source} {bmp : BmpImage} {colour : Nat → UInt32 → Run UInt32} (sized : Sized bmp)
    (row : y < bmp.height) (least : need ≤ size)
    (colours : ∀ data before, Ends (colour data before) True (data + need ≤ src.bytes.length) fun _ => True) :
    Ends (pixelRow bmp size colour data (scanline bmp reversed y) pixels) True
      (data + (size * bmp.width - (size - need)) ≤ src.bytes.length) fun p => p.1 = data + size * bmp.width := by
  unfold pixelRow
  refine ((ends_times (fun x (p : Nat × Pixels) => p.1 = data + size * x) (fun _ => True)
    (fun x => data + size * x + need ≤ src.bytes.length) (by simp) ?_).congr (by simp) fun _ => ?_).mono fun p place => ?_
  · rintro x ⟨here, pixels⟩ _ upper place
    dsimp only at place
    subst place
    have inside := inside_scanline sized reversed row (show x < bmp.width by omega)
    exact (ends_load.sure inside).then fun before _ => (colours _ before).finally fun colour _ =>
      (ends_store.sure inside).then fun pixels _ => ends_pure (by simp [Nat.mul_succ, Nat.add_assoc])
  · have whole : size * (bmp.width - 1) + size = size * bmp.width := by
      rw [← Nat.mul_succ, Nat.succ_eq_add_one, Nat.sub_add_cancel sized.width_pos]
    constructor
    · intro all
      have last := all (bmp.width - 1) (Nat.zero_le _) (by have := sized.width_pos; omega)
      omega
    · intro room x _ upper
      have before : size * x ≤ size * (bmp.width - 1) := Nat.mul_le_mul_left size (by omega)
      omega
  · rw [place, Nat.zero_add]

/-- The bytes that a pixel of `bmp_decode_rgb32` needs: the fourth one is that of the alpha value. -/
def need32 (bmp : BmpImage) : Nat := if bmp.encoding ≠ .bitfields ∧ bmp.isOpaque then 3 else 4

theorem ends_colour32 {src : Source} {bmp : BmpImage} (shifts : Shifts bmp) (data : Nat) (before : UInt32) :
    Ends (colour32 src bmp data before) True (data + need32 bmp ≤ src.bytes.length) fun _ => True := by
  unfold colour32 need32
  by_cases masks : bmp.encoding = .bitfields
  · simp only [masks, if_true, ne_eq, not_true_eq_false, false_and, if_false]
    exact ends_readUint32.finally fun word _ => (ends_masked shifts).then fun colour _ => ends_pure trivial
  · simp only [masks, if_false, ne_eq, not_false_eq_true, true_and]
    cases bmp.isOpaque with
    | true => exact ends_readColour.finally fun colour _ => ends_pure trivial
    | false =>
      refine (ends_readColour.bind fun colour _ => ends_read.finally fun alpha _ => ends_pure trivial).congr (by simp)
        fun _ => ?_
      simp
      omega

theorem ends_colour24 {src : Source} {bmp : BmpImage} (data : Nat) (before : UInt32) :
    Ends (colour24 src bmp data before) True (data + 3 ≤ src.bytes.length) fun _ => True :=
  ends_readColour.finally fun _ _ => ends_pure trivial

theorem ends_colour16 {src : Source} {bmp : BmpImage} (shifts : Shifts bmp) (data : Nat) (before : UInt32) :
    Ends (colour16 src bmp data before) True (data + 2 ≤ src.bytes.length) fun _ => True := by
  unfold colour16
  refine ends_readUint16.finally fun word _ => ?_
  by_cases masks : bmp.encoding = .bitfields
  · dsimp only
    rw [if_pos masks]
    split
    · exact ends_pure trivial
    · exact (ends_masked shifts).then fun colour _ => ends_pure trivial
  · dsimp only
    rw [if_neg masks]
    exact ends_pure trivial

theorem ends_colourAt {bmp : BmpImage} {index : Nat} (table : bmp.colourTable.length = bmp.colours)
    (few : index < bmp.colours) : Ends (colourAt bmp index) True True fun _ => True := by
  unfold colourAt
  rw [List.getElem?_eq_getElem (table ▸ few)]
  exact ends_pure trivial

/-- After `x` pixels of a row, `k` bytes are read, and `bit` counts the pixels of the last one. -/
def PaletteAt (ppb data x : Nat) (t : Nat × Nat × UInt8 × Pixels) : Prop :=
  ∃ k, t.1 = data + k ∧ ((x = 0 ∧ k = 0 ∧ ppb ≤ t.2.1) ∨ (0 < t.2.1 ∧ t.2.1 ≤ ppb ∧ x + ppb = k * ppb + t.2.1))

theorem paletteAt_end {ppb : Nat} {t : Nat × Nat × UInt8 × Pixels} (place : PaletteAt ppb data x t) (some : 0 < x) :
    t.1 = data + (x + ppb - 1) / ppb := by
  obtain ⟨k, here, start | ⟨lower, upper, count⟩⟩ := place
  · omega
  · rw [here, show x + ppb - 1 = t.2.1 - 1 + k * ppb by omega, Nat.add_mul_div_right _ _ (by omega),
      Nat.div_eq_of_lt (by omega), Nat.zero_add]

theorem ends_paletteRow {src : Source} {bmp : BmpImage} (sized : Sized bmp) (row : y < bmp.height)
    (table : bmp.colourTable.length = bmp.colours) (bpp_pos : 0 < bmp.bpp) (bpp_le : bmp.bpp ≤ 8)
    (within : data + (bmp.width + 8 / bmp.bpp - 1) / (8 / bmp.bpp) ≤ src.bytes.length) :
    Ends (paletteRow src bmp data (scanline bmp reversed y) pixels) True True
      fun p => p.1 = data + (bmp.width + 8 / bmp.bpp - 1) / (8 / bmp.bpp) := by
  have ppb_pos : 0 < 8 / bmp.bpp := Nat.div_pos bpp_le bpp_pos
  have ppb_le : 8 / bmp.bpp ≤ 8 := Nat.div_le_self 8 _
  unfold paletteRow
  refine (returns_times (PaletteAt (8 / bmp.bpp) data) ⟨0, rfl, .inl ⟨rfl, rfl, ppb_le⟩⟩ ?_).then
    fun t place => ends_pure ?_
  · rintro x ⟨here, bit, byte, pixels⟩ _ upper ⟨k, place, count⟩
    dsimp only at place count
    subst place
    have inside := inside_scanline sized reversed row (show x < bmp.width by omega)
    have painted (k' bit' : Nat) (byte : UInt8) (count' : 0 < bit' + 1 ∧ bit' + 1 ≤ 8 / bmp.bpp ∧
        x + 1 + 8 / bmp.bpp = k' * (8 / bmp.bpp) + (bit' + 1)) :
        Ends (if indexIn bmp.bpp byte bit' < bmp.colours then do
            let colour ← colourAt bmp (indexIn bmp.bpp byte bit')
            let colour := if bmp.limitedTrans ∧ colour = bmp.transparentIndex then bmp.transColour else colour
            let pixels ← store bmp pixels (scanline bmp reversed y + 4 * x) colour
            pure (data + k', bit' + 1, byte, pixels)
          else pure (data + k', bit' + 1, byte, pixels)) True True (PaletteAt (8 / bmp.bpp) data (x + 1)) := by
      split
      next few =>
        exact (ends_colourAt table few).then fun _ _ => (ends_store.sure inside).then fun _ _ =>
          ends_pure ⟨k', rfl, .inr count'⟩
      next => exact ends_pure ⟨k', rfl, .inr count'⟩
    dsimp only
    split
    next full =>
      have whole : x = k * (8 / bmp.bpp) := by
        rcases count with ⟨rfl, rfl, _⟩ | ⟨_, most, same⟩ <;> omega
      have left : k + 1 ≤ (bmp.width + 8 / bmp.bpp - 1) / (8 / bmp.bpp) := by
        rw [Nat.le_div_iff_mul_le ppb_pos, Nat.succ_mul]
        omega
      refine (ends_read.sure (by omega)).then fun byte _ => ?_
      exact painted (k + 1) 0 byte ⟨by omega, by omega, by rw [Nat.succ_mul]; omega⟩
    next less => exact painted k bit byte (by omega)
  · obtain ⟨here, _, _, pixels⟩ := t
    have done := paletteAt_end place (by have := sized.width_pos; omega)
    rwa [Nat.zero_add] at done

theorem ends_maskRow {src : Source} {bmp : BmpImage} (sized : Sized bmp) (row : y < bmp.height) :
    Ends (maskRow src bmp data (scanline bmp false y) pixels) True (data + (bmp.width + 7) / 8 ≤ src.bytes.length)
      fun p => p.1 = data + (bmp.width + 7) / 8 := by
  have width_pos := sized.width_pos
  unfold maskRow
  refine ((ends_times (fun x (t : Nat × UInt32 × Pixels) => t.1 = data + (x + 7) / 8) (fun _ => True)
    (fun x => x % 8 = 0 → data + x / 8 < src.bytes.length) rfl ?step).congr (by simp) fun _ => ?_).finally ?rest
  case step =>
    rintro x ⟨here, byte, pixels⟩ _ upper place
    dsimp only at place
    subst place
    have inside := inside_scanline sized false row (show x < bmp.width by omega)
    have painted {data' : Nat} (byte : UInt32) (next : data' = data + (x + 1 + 7) / 8) :
        Ends (do
          let colour ← load bmp pixels (scanline bmp false y + 4 * x)
          let colour := if byte &&& 128 = 0 then colour ||| 0xff000000 else colour &&& 0xffffff
          let pixels ← store bmp pixels (scanline bmp false y + 4 * x) colour
          pure (data', byte <<< 1, pixels)) True True fun t => t.1 = data + (x + 1 + 7) / 8 :=
      (ends_load.sure inside).then fun _ _ => (ends_store.sure inside).then fun _ _ => ends_pure next
    dsimp only
    split
    next first =>
      refine (ends_read.finally fun byte _ => painted _ (by omega)).congr Iff.rfl fun _ => ?_
      rw [show (x + 7) / 8 = x / 8 by omega]
      exact ⟨fun lt _ => lt, fun lt => lt first⟩
    next later =>
      refine (painted byte (by omega)).congr Iff.rfl fun _ => ⟨fun _ first => absurd first later, fun _ => trivial⟩
  case rest =>
    rintro ⟨here, byte, pixels⟩ place
    exact ends_pure (by rw [Nat.zero_add] at place; exact place)
  constructor
  · intro all
    have last := all ((bmp.width - 1) / 8 * 8) (Nat.zero_le _) (by omega)
    omega
  · intro room x _ upper first
    omega

def paint (src : Source) (callbacks : Callbacks) (bmp : BmpImage) (rows : Rows) (start : Nat) (bytes : Int) :
    Run (BmpImage × Nat) := do
  let pixels ← getBuffer callbacks bmp
  let (data, pixels) ← decodeRows src { bmp with decoded := true } rows bmp.reversed start (start + bytes) pixels
  return ({ bmp with decoded := true, bitmap := some pixels }, data)

section
variable {src : Source} {callbacks : Callbacks} {bmp : BmpImage} {start : Nat} {bytes : Int}

theorem decodeRgb32_eq (bpp : bmp.bpp = 32) (trans : bmp.limitedTrans = false) :
    decodeRgb32 src callbacks bmp start bytes = paint src callbacks bmp
      ⟨4 * bmp.width % 2 ^ 32, pixelRow { bmp with decoded := true } 4 (colour32 src { bmp with decoded := true }), none⟩
      start bytes := by
  simp [decodeRgb32, paint, bpp, trans]

theorem decodeRgb24_eq (encoding : bmp.encoding = .rgb) (bpp : bmp.bpp = 24) (trans : bmp.limitedTrans = false) :
    decodeRgb24 src callbacks bmp start bytes = paint src callbacks bmp
      ⟨3 * bmp.width % 2 ^ 32, pixelRow { bmp with decoded := true } 3 (colour24 src { bmp with decoded := true }), some 1⟩
      start bytes := by
  simp [decodeRgb24, paint, encoding, bpp, trans]

theorem decodeRgb16_eq (trans : bmp.limitedTrans = false) :
    decodeRgb16 src callbacks bmp start bytes = paint src callbacks bmp
      ⟨2 * bmp.width % 2 ^ 32, pixelRow { bmp with decoded := true } 2 (colour16 src { bmp with decoded := true }), some 2⟩
      start bytes := by
  simp [decodeRgb16, paint, trans]

theorem decodeRgb_eq (bpp_pos : 0 < bmp.bpp) (bpp_le : bmp.bpp ≤ 8) (trans : bmp.limitedTrans = false) :
    decodeRgb src callbacks bmp start bytes = paint src callbacks bmp
      ⟨(bmp.width + 8 / bmp.bpp - 1) / (8 / bmp.bpp), paletteRow src { bmp with decoded := true }, some 1⟩
      start bytes := by
  have ppb : ¬ 8 / bmp.bpp < 1 := Nat.not_lt.mpr (Nat.div_pos bpp_le bpp_pos)
  simp [decodeRgb, paint, ppb, trans]

def RowsLeft (src : Source) (height start size need checked : Nat) (stop : Int) : Prop :=
  ∀ i, 0 ≤ i → i < 0 + height → (∀ j, 0 ≤ j → j < i → start + j * aligned size + need ≤ src.bytes.length) →
    (start + i * aligned size + checked : Int) ≤ stop

def RowsHeld (src : Source) (height start size need : Nat) : Prop :=
  ∀ i, 0 ≤ i → i < 0 + height → start + i * aligned size + need ≤ src.bytes.length

variable {size need : Nat} {rows : Rows}

theorem rowsLeft_imp_rowsHeld_iff {height checked : Nat} {stop : Int} :
    (RowsLeft src height start size need checked stop → RowsHeld src height start size need) ↔
      ∀ i < height, (start + i * aligned size + checked : Int) ≤ stop →
        start + i * aligned size + need ≤ src.bytes.length := by
  refine goes_imp_right_iff (fun i => start + i * aligned size + need ≤ src.bytes.length) fun i j earlier go => ?_
  have rows : j * aligned size ≤ i * aligned size := Nat.mul_le_mul_right _ earlier
  have rows' : (j * aligned size : Int) ≤ i * aligned size := by exact_mod_cast rows
  omega

theorem ends_paint (bitmap : bmp.bitmap.isSome)
    (row : ∀ y < bmp.height, ∀ (data : Nat) (pixels : Pixels), (data + rows.checked : Int) ≤ start + bytes → Ends (rows.row data (scanline bmp bmp.reversed y) pixels) True (data + need ≤ src.bytes.length) fun p => p.1 = data + size)
    (step : ∀ step, rows.step = some step → step = 1 ∨ step = 2 ∧ size % 2 = 0)
    (unaligned : rows.step = none → aligned size = size) :
    Ends (paint src callbacks bmp rows start bytes)
      (callbacks.bitmapGetBuffer = true ∧ RowsLeft src bmp.height start size need rows.checked (start + bytes))
      (RowsHeld src bmp.height start size need)
      fun p => p.2 = start + bmp.height * aligned size ∧
        ∃ pixels, p.1 = { bmp with decoded := true, bitmap := some pixels } := by
  refine ((ends_getBuffer bitmap).bind fun pixels _ => (ends_decodeRows row step unaligned).finally
    fun (data, pixels) place => ends_pure ⟨?_, pixels, rfl⟩).congr (by simp [RowsLeft]) fun _ => by simp [RowsHeld]
  rwa [Nat.zero_add] at place

def needed (bmp : BmpImage) : Nat := rowSize bmp - if bmp.bpp = 32 then 4 - need32 bmp else 0

def checked (bmp : BmpImage) : Nat := rowSize bmp % 2 ^ 32

/-- What the decoders of rows leave behind: the rows are read, and the bitmap is the only thing that is new. -/
def Painted (bmp : BmpImage) (start : Nat) (p : BmpImage × Nat) : Prop :=
  p.2 = start + bmp.height * aligned (rowSize bmp) ∧ ∃ pixels, p.1 = { bmp with decoded := true, bitmap := some pixels }

theorem Analysed.decoded (analysed : Analysed src bmp) : Analysed src { bmp with decoded := true } :=
  ⟨analysed.1, analysed.2, analysed.3, ⟨analysed.4.1, analysed.4.2, analysed.4.3, analysed.4.4, analysed.4.5⟩, analysed.5,
    analysed.6, analysed.7, analysed.8, analysed.9⟩

def Rowwise (src : Source) (callbacks : Callbacks) (bmp : BmpImage) (start : Nat) (bytes : Int)
    (x : Run (BmpImage × Nat)) : Prop :=
  Ends x (callbacks.bitmapGetBuffer = true ∧
      RowsLeft src bmp.height start (rowSize bmp) (needed bmp) (checked bmp) (start + bytes))
    (RowsHeld src bmp.height start (rowSize bmp) (needed bmp)) (Painted bmp start)

theorem rowwise_paint (bitmap : bmp.bitmap.isSome) (checks : rows.checked = checked bmp)
    (row : ∀ y < bmp.height, ∀ (data : Nat) (pixels : Pixels), (data + rows.checked : Int) ≤ start + bytes → Ends (rows.row data (scanline bmp bmp.reversed y) pixels) True (data + needed bmp ≤ src.bytes.length) fun p => p.1 = data + rowSize bmp)
    (step : ∀ step, rows.step = some step → step = 1 ∨ step = 2 ∧ rowSize bmp % 2 = 0)
    (unaligned : rows.step = none → aligned (rowSize bmp) = rowSize bmp) :
    Rowwise src callbacks bmp start bytes (paint src callbacks bmp rows start bytes) := by
  unfold Rowwise
  rw [← checks]
  exact ends_paint bitmap row step unaligned

theorem rowwise_decodeRgb32 (analysed : Analysed src bmp) (bpp : bmp.bpp = 32) :
    Rowwise src callbacks bmp start bytes (decodeRgb32 src callbacks bmp start bytes) := by
  have size : rowSize bmp = 4 * bmp.width := by simp [rowSize, bpp]
  have least : need32 bmp ≤ 4 := by unfold need32; split <;> omega
  rw [decodeRgb32_eq bpp analysed.limitedTrans]
  refine rowwise_paint analysed.bitmap (by rw [checked, size]) (fun y row data pixels _ => ?_) (fun step some => by cases some)
    fun _ => by unfold aligned; omega
  rw [needed, if_pos bpp, size]
  exact ends_pixelRow analysed.decoded.sized row least fun data before => ends_colour32 analysed.decoded.shifts data before

theorem rowwise_decodeRgb24 (analysed : Analysed src bmp) (encoding : bmp.encoding = .rgb) (bpp : bmp.bpp = 24) :
    Rowwise src callbacks bmp start bytes (decodeRgb24 src callbacks bmp start bytes) := by
  have size : rowSize bmp = 3 * bmp.width := by simp [rowSize, bpp]
  rw [decodeRgb24_eq encoding bpp analysed.limitedTrans]
  refine rowwise_paint analysed.bitmap (by rw [checked, size]) (fun y row data pixels _ => ?_)
    (fun step some => by cases some; exact .inl rfl) fun none => by cases none
  rw [needed, if_neg (by omega), size]
  exact ends_pixelRow analysed.decoded.sized row (Nat.le_refl 3) fun data before => ends_colour24 data before

theorem rowwise_decodeRgb16 (analysed : Analysed src bmp) (bpp : bmp.bpp = 16) :
    Rowwise src callbacks bmp start bytes (decodeRgb16 src callbacks bmp start bytes) := by
  have size : rowSize bmp = 2 * bmp.width := by simp [rowSize, bpp]
  rw [decodeRgb16_eq analysed.limitedTrans]
  refine rowwise_paint analysed.bitmap (by rw [checked, size]) (fun y row data pixels _ => ?_)
    (fun step some => by cases some; exact .inr ⟨rfl, by omega⟩) fun none => by cases none
  rw [needed, if_neg (by omega), size]
  exact ends_pixelRow analysed.decoded.sized row (Nat.le_refl 2) fun data before =>
    ends_colour16 analysed.decoded.shifts data before

theorem rowwise_decodeRgb (analysed : Analysed src bmp) (bpp_pos : 0 < bmp.bpp) (bpp_le : bmp.bpp ≤ 8)
    (within : start + bytes ≤ src.bytes.length) :
    Rowwise src callbacks bmp start bytes (decodeRgb src callbacks bmp start bytes) := by
  have width := analysed.sized.width_lt
  have size : rowSize bmp = (bmp.width + 8 / bmp.bpp - 1) / (8 / bmp.bpp) := by rw [rowSize, if_pos (by omega)]
  have ppb_le : 8 / bmp.bpp ≤ 8 := Nat.div_le_self 8 _
  have small : rowSize bmp < 2 ^ 32 := by
    rw [size]
    exact (Nat.div_le_self _ _).trans_lt (by omega)
  have bare : needed bmp = rowSize bmp := by rw [needed, if_neg (by omega), Nat.sub_zero]
  rw [decodeRgb_eq bpp_pos bpp_le analysed.limitedTrans]
  refine rowwise_paint analysed.bitmap (by rw [checked, Nat.mod_eq_of_lt small, size]) (fun y row data pixels left => ?_)
    (fun step some => by cases some; exact .inl rfl) fun none => by cases none
  have room : data + (bmp.width + 8 / bmp.bpp - 1) / (8 / bmp.bpp) ≤ src.bytes.length := by
    dsimp only at left
    omega
  rw [bare, size]
  exact (ends_paletteRow analysed.decoded.sized row (analysed.table (by omega)) bpp_pos bpp_le room).congr Iff.rfl
    fun _ => ⟨fun _ => room, fun _ => trivial⟩

theorem rowwise_decodePixels (analysed : Analysed src bmp) (rle8 : bmp.encoding ≠ .rle8) (rle4 : bmp.encoding ≠ .rle4)
    (within : start + bytes ≤ src.bytes.length) :
    Rowwise src callbacks bmp start bytes (decodePixels src callbacks bmp start bytes) := by
  have depth := analysed.depth
  unfold decodePixels
  cases encoding : bmp.encoding with
  | rle8 => exact absurd encoding rle8
  | rle4 => exact absurd encoding rle4
  | rgb =>
    simp only [encoding, Depth, isLegalDepth, Bool.or_eq_true, beq_iff_eq] at depth
    dsimp only
    split_ifs with long full high
    · exact rowwise_decodeRgb32 analysed long
    · exact rowwise_decodeRgb24 analysed encoding full
    · exact rowwise_decodeRgb16 analysed high
    · exact rowwise_decodeRgb analysed (by omega) (by omega) within
  | bitfields =>
    simp only [encoding, Depth] at depth
    dsimp only
    split_ifs with long high
    · exact rowwise_decodeRgb32 analysed long
    · exact rowwise_decodeRgb16 analysed high
    · omega

theorem ends_decodeMask (sized : Sized bmp) (bitmap : bmp.bitmap.isSome) :
    Ends (decodeMask src callbacks bmp start bytes)
      (callbacks.bitmapGetBuffer = true ∧
        RowsLeft src bmp.height start ((bmp.width + 7) / 8) ((bmp.width + 7) / 8) (bmp.width / 8) (start + bytes))
      (RowsHeld src bmp.height start ((bmp.width + 7) / 8) ((bmp.width + 7) / 8)) fun _ => True := by
  unfold decodeMask
  refine ((ends_getBuffer bitmap).bind fun pixels _ => (ends_decodeRows (fun y row data pixels _ => ends_maskRow sized row)
    (fun step some => ?_) fun none => ?_).finally fun _ _ => ends_pure trivial).congr (by simp [RowsLeft])
      fun _ => by simp [RowsHeld]
  · cases some
    exact .inl rfl
  · cases none

end

end Besra.Bmp
