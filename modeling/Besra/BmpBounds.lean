import Besra.BmpRle

/-!
Bitmaps and icons stay in bounds. Their headers always do (`keeps_bmpAnalyse`, `keeps_icoAnalyse`).
Of a decoder it is said just when it does (`safe_bmpDecode_iff`).
-/
namespace Besra.Bmp
open Faults

def pixelStart (bmp : BmpImage) : Nat := bmp.bmpData + bmp.bitmapOffset

def remaining (bmp : BmpImage) : Nat := bmp.bufferSize - bmp.bitmapOffset

def pixelStop (bmp : BmpImage) : Int := pixelStart bmp + toInt32 (remaining bmp)

/-- Of a row whose bytes reach `2 ^ 32` all are in the data, if there are as many as it is checked for. -/
def WideFits (src : Source) (bmp : BmpImage) : Prop :=
  2 ^ 32 ≤ rowSize bmp → rowSize bmp % 2 ^ 32 ≤ remaining bmp → remaining bmp < 2 ^ 31 →
    pixelStart bmp + needed bmp ≤ src.bytes.length

def maskStart (bmp : BmpImage) : Nat := pixelStart bmp + bmp.height * aligned (rowSize bmp)

def MaskFits (src : Source) (bmp : BmpImage) : Prop :=
  bmp.ico = true → bmp.bpp ≠ 32 → bmp.width % 8 ≠ 0 → bmp.bmpData + bmp.bufferSize = src.bytes.length →
    ∀ y < bmp.height, maskStart bmp + y * aligned ((bmp.width + 7) / 8) + bmp.width / 8 ≠ src.bytes.length

def RunsFit (src : Source) (bmp : BmpImage) (format : RleFormat) : Prop :=
  bmp.ico = false →
    RoundsFit src bmp format (pixelStop bmp) ⟨pixelStart bmp, 0, 0, 0, bmp.bitmap.getD fun _ => 0⟩

/-- The images that are decoded within bounds. -/
def Fits (src : Source) (bmp : BmpImage) : Prop :=
  match bmp.encoding with
  | .rle8 => RunsFit src bmp rle8
  | .rle4 => RunsFit src bmp rle4
  | .rgb | .bitfields => WideFits src bmp ∧ MaskFits src bmp

section
variable {src : Source} {callbacks : Callbacks} {bmp : BmpImage}

theorem toInt32_le (value : Nat) : toInt32 value ≤ value := by
  unfold toInt32
  split <;> omega

theorem toInt32_mod {value : Int} (lower : -2 ^ 31 ≤ value) (upper : value < 2 ^ 32) :
    toInt32 (value % 2 ^ 32).toNat = if value < 2 ^ 31 then value else value - 2 ^ 32 := by
  unfold toInt32
  split <;> split <;> omega

theorem Analysed.bytes_eq (analysed : Analysed src bmp) :
    (((bmp.bufferSize : Int) - bmp.bitmapOffset) % 2 ^ 32).toNat = remaining bmp := by
  have size := analysed.bufferSize
  have offset := analysed.offset
  unfold remaining
  omega

theorem Analysed.stop_le (analysed : Analysed src bmp) : pixelStop bmp ≤ src.bytes.length := by
  have within := analysed.within
  have offset := analysed.offset
  have bytes := toInt32_le (remaining bmp)
  unfold pixelStop pixelStart
  unfold remaining at bytes ⊢
  omega

variable {format : RleFormat} {p : BmpImage × Nat}

theorem safe_decodeRle_iff (analysed : Analysed src bmp) (few : bmp.bpp < 16) (sound : format.Sound) :
    Safe (decodeRle src callbacks format bmp (pixelStart bmp) (toInt32 (remaining bmp))) ↔
      (callbacks.bitmapGetBuffer = true → RunsFit src bmp format) := by
  have within := analysed.within
  have offset := analysed.offset
  unfold decodeRle RunsFit
  cases icon : bmp.ico with
  | true => simp [safe_result]
  | false =>
    obtain ⟨pixels, image⟩ := Option.isSome_iff_exists.mp analysed.bitmap
    have upright : Upright bmp ⟨pixelStart bmp, 0, 0, 0, pixels⟩ := ⟨Nat.zero_le _, analysed.sized.height_pos icon⟩
    have loop := safe_rleLoop_iff (src.bytes.length + 1) analysed.sized (analysed.table few) upright sound analysed.stop_le
      (by unfold pixelStart; dsimp only; omega) (by dsimp only; omega)
    unfold getBuffer
    rw [image]
    cases callbacks.bitmapGetBuffer with
    | true =>
      refine safe_bind_pure_iff.trans (loop.trans ?_)
      simp
    | false => exact iff_of_true (fun f same => by cases same) fun no => by cases no

theorem le_aligned (size : Nat) : size ≤ aligned size := by
  unfold aligned
  omega

theorem needed_le (bmp : BmpImage) : needed bmp ≤ rowSize bmp := Nat.sub_le _ _

theorem rowSize_icon (sized : Sized bmp) (icon : bmp.ico = true) (depth : bmp.bpp ≤ 32) : rowSize bmp ≤ 1024 := by
  have small := (sized.icon icon).1
  unfold rowSize
  split
  · exact (Nat.div_le_self _ _).trans (by have := Nat.div_le_self 8 bmp.bpp; omega)
  · calc bmp.bpp / 8 * bmp.width ≤ 4 * 256 := Nat.mul_le_mul (by omega) small
      _ = 1024 := rfl

theorem Analysed.depth_le (analysed : Analysed src bmp) : bmp.bpp ≤ 32 := by
  have depth := analysed.depth
  cases encoding : bmp.encoding <;> simp [encoding, Depth, isLegalDepth] at depth <;> omega

theorem Analysed.wide_iff (analysed : Analysed src bmp) :
    (∀ i < bmp.height, (pixelStart bmp + i * aligned (rowSize bmp) + checked bmp : Int) ≤ pixelStop bmp →
      pixelStart bmp + i * aligned (rowSize bmp) + needed bmp ≤ src.bytes.length) ↔ WideFits src bmp := by
  have stop := analysed.stop_le
  have need := needed_le bmp
  have size := le_aligned (rowSize bmp)
  unfold WideFits
  constructor
  · intro each wide room short
    have file : bmp.ico = false := by
      cases icon : bmp.ico with
      | false => rfl
      | true => have := rowSize_icon analysed.sized icon analysed.depth_le; omega
    have first := each 0 (analysed.sized.height_pos file)
    simp only [Nat.zero_mul, Nat.add_zero] at first
    refine first ?_
    unfold pixelStop toInt32 checked
    rw [if_pos short]
    omega
  · intro wide i row left
    have total := analysed.bufferSize
    have most : remaining bmp ≤ bmp.bufferSize := Nat.sub_le _ _
    rw [← Int.natCast_mul] at left
    unfold pixelStop toInt32 at left stop
    split at left
    next short =>
      rw [if_pos short] at stop
      unfold checked at left
      by_cases narrow : rowSize bmp < 2 ^ 32
      · rw [Nat.mod_eq_of_lt narrow] at left
        omega
      · rcases Nat.eq_zero_or_pos i with rfl | later
        · have first := wide (by omega) (by omega) short
          omega
        · have rows : 1 * aligned (rowSize bmp) ≤ i * aligned (rowSize bmp) := Nat.mul_le_mul_right _ later
          omega
    next long => omega

def maskStop (bmp : BmpImage) : Int :=
  maskStart bmp + toInt32 ((((bmp.bmpData : Int) + bmp.bufferSize) - maskStart bmp) % 2 ^ 32).toNat

theorem Analysed.mask_iff (analysed : Analysed src bmp) (icon : bmp.ico = true) (depth : bmp.bpp ≠ 32) :
    (∀ i < bmp.height, (maskStart bmp + i * aligned ((bmp.width + 7) / 8) + bmp.width / 8 : Int) ≤ maskStop bmp →
      maskStart bmp + i * aligned ((bmp.width + 7) / 8) + (bmp.width + 7) / 8 ≤ src.bytes.length) ↔ MaskFits src bmp := by
  have within := analysed.within
  have offset := analysed.offset
  have total := analysed.bufferSize
  have width := (analysed.sized.icon icon).1
  have height := (analysed.sized.icon icon).2
  have rowBytes := rowSize_icon analysed.sized icon analysed.depth_le
  have rows : bmp.height * aligned (rowSize bmp) ≤ 256 * 1024 := Nat.mul_le_mul height (by unfold aligned; omega)
  have maskRows {i : Nat} (row : i < bmp.height) : i * aligned ((bmp.width + 7) / 8) ≤ 256 * 32 :=
    Nat.mul_le_mul (by omega) (by unfold aligned; omega)
  unfold MaskFits maskStop
  have start : maskStart bmp = bmp.bmpData + bmp.bitmapOffset + bmp.height * aligned (rowSize bmp) := rfl
  rw [toInt32_mod (by omega) (by omega)]
  constructor
  · intro each _ _ part whole i row last
    have bound := maskRows row
    have inside := each i row
    rw [if_pos (by omega)] at inside
    rw [← Int.natCast_mul] at inside
    have := inside (by omega)
    omega
  · intro fits i row left
    rw [← Int.natCast_mul] at left
    by_contra past
    split at left
    · exact fits icon depth (by omega) (by omega) i row (by omega)
    · omega

theorem Analysed.rowsLeft (analysed : Analysed src bmp) (icon : bmp.ico = true) {y : Nat} (row : y < bmp.height)
    (whole : bmp.bmpData + bmp.bufferSize = src.bytes.length)
    (last : maskStart bmp + y * aligned ((bmp.width + 7) / 8) + bmp.width / 8 = src.bytes.length) :
    RowsLeft src bmp.height (pixelStart bmp) (rowSize bmp) (needed bmp) (checked bmp) (pixelStop bmp) := by
  have offset := analysed.offset
  have width := (analysed.sized.icon icon).1
  have height := (analysed.sized.icon icon).2
  have rowBytes := rowSize_icon analysed.sized icon analysed.depth_le
  have rows : bmp.height * aligned (rowSize bmp) ≤ 256 * 1024 := Nat.mul_le_mul height (by unfold aligned; omega)
  have maskRows : y * aligned ((bmp.width + 7) / 8) ≤ 256 * 32 := Nat.mul_le_mul (by omega) (by unfold aligned; omega)
  have start : maskStart bmp = bmp.bmpData + bmp.bitmapOffset + bmp.height * aligned (rowSize bmp) := rfl
  have few : remaining bmp < 2 ^ 31 := by unfold remaining; omega
  intro i _ upper _
  have before : (i + 1) * aligned (rowSize bmp) ≤ bmp.height * aligned (rowSize bmp) := Nat.mul_le_mul_right _ (by omega)
  have size := le_aligned (rowSize bmp)
  rw [Nat.succ_mul] at before
  rw [← Int.natCast_mul, pixelStop, toInt32, if_pos few, checked, Nat.mod_eq_of_lt (by omega)]
  unfold remaining pixelStart
  omega

theorem decodeRle_file {start : Nat} {bytes : Int} {bmp' : BmpImage}
    (done : decodeRle src callbacks format bmp start bytes = .ok bmp') : bmp'.ico = false := by
  unfold decodeRle at done
  cases icon : bmp.ico with
  | true =>
    rw [if_pos icon] at done
    cases done
  | false =>
    rw [if_neg (by simp [icon])] at done
    obtain ⟨pixels, _, rest⟩ := bind_ok_iff.mp done
    obtain ⟨pixels', _, same⟩ := bind_ok_iff.mp rest
    cases same
    exact icon

theorem Analysed.bmpDecode_eq (analysed : Analysed src bmp) :
    bmpDecode src callbacks bmp = decodePixels src callbacks bmp (pixelStart bmp) (toInt32 (remaining bmp)) >>= fun p =>
      if p.1.ico ∧ p.1.bpp ≠ 32 then
        decodeMask src callbacks p.1 p.2 (toInt32 ((((p.1.bmpData : Int) + p.1.bufferSize) - p.2) % 2 ^ 32).toNat)
      else pure p.1 := by
  have image : ¬ bmp.bitmap.isNone = true := by simp [Option.isSome_iff_ne_none.mp analysed.bitmap]
  unfold bmpDecode
  rw [if_neg image]
  dsimp only
  rw [analysed.bytes_eq]
  rfl

theorem safe_runs_iff (analysed : Analysed src bmp) (few : bmp.bpp < 16) (sound : format.Sound)
    (pixels : decodePixels src callbacks bmp (pixelStart bmp) (toInt32 (remaining bmp)) = decodeRle src callbacks format bmp (pixelStart bmp) (toInt32 (remaining bmp)) >>= fun b => pure (b, pixelStart bmp)) :
    Safe (bmpDecode src callbacks bmp) ↔ (callbacks.bitmapGetBuffer = true → RunsFit src bmp format) := by
  rw [analysed.bmpDecode_eq, pixels, bind_assoc, ← safe_decodeRle_iff analysed few sound, safe_bind_iff]
  refine and_iff_left_of_imp fun _ b done => ?_
  have file := decodeRle_file done
  simp [file, safe_pure]

/-- What follows the pixels of an image. -/
def behind (src : Source) (callbacks : Callbacks) (p : BmpImage × Nat) : Run BmpImage :=
  if p.1.ico ∧ p.1.bpp ≠ 32 then
    decodeMask src callbacks p.1 p.2 (toInt32 ((((p.1.bmpData : Int) + p.1.bufferSize) - p.2) % 2 ^ 32).toNat)
  else pure p.1

theorem ends_behind_mask (sized : Sized bmp) (masked : bmp.ico = true ∧ bmp.bpp ≠ 32)
    (painted : Painted bmp (pixelStart bmp) p) :
    Ends (behind src callbacks p)
      (callbacks.bitmapGetBuffer = true ∧
        RowsLeft src bmp.height (maskStart bmp) ((bmp.width + 7) / 8) ((bmp.width + 7) / 8) (bmp.width / 8) (maskStop bmp))
      (RowsHeld src bmp.height (maskStart bmp) ((bmp.width + 7) / 8) ((bmp.width + 7) / 8)) fun _ => True := by
  obtain ⟨b, data⟩ := p
  obtain ⟨place, image, same⟩ := painted
  dsimp only at place same
  subst place same
  unfold behind
  rw [if_pos masked]
  exact ends_decodeMask ⟨sized.1, sized.2, sized.3, sized.4, sized.5⟩ rfl

theorem ends_behind_bare (bare : ¬ (bmp.ico = true ∧ bmp.bpp ≠ 32)) (painted : Painted bmp (pixelStart bmp) p) :
    Ends (behind src callbacks p) True True fun _ => True := by
  obtain ⟨b, data⟩ := p
  obtain ⟨place, image, same⟩ := painted
  dsimp only at place same
  subst place same
  unfold behind
  rw [if_neg bare]
  exact ends_pure trivial

theorem safe_rows_iff (analysed : Analysed src bmp) (rle8 : bmp.encoding ≠ .rle8) (rle4 : bmp.encoding ≠ .rle4) :
    Safe (bmpDecode src callbacks bmp) ↔ (callbacks.bitmapGetBuffer = true → WideFits src bmp ∧ MaskFits src bmp) := by
  have pixels : Rowwise src callbacks bmp (pixelStart bmp) (toInt32 (remaining bmp)) _ :=
    rowwise_decodePixels analysed rle8 rle4 analysed.stop_le
  have wide_iff := rowsLeft_imp_rowsHeld_iff.trans analysed.wide_iff
  rw [analysed.bmpDecode_eq]
  unfold Rowwise at pixels
  by_cases masked : bmp.ico = true ∧ bmp.bpp ≠ 32
  · have mask_iff := rowsLeft_imp_rowsHeld_iff.trans (analysed.mask_iff masked.1 masked.2)
    have small := rowSize_icon analysed.sized masked.1 analysed.depth_le
    have rest (p : BmpImage × Nat) (painted : Painted bmp (pixelStart bmp) p) : Ends (behind src callbacks p) _ _ _ :=
      ends_behind_mask analysed.sized masked painted
    refine (pixels.bind rest).safe_iff.trans ⟨fun safe buffer => ⟨fun wide => by omega, ?_⟩, fun fits => ?_⟩
    · intro icon depth part all y row last
      have left := analysed.rowsLeft icon row all last
      have fits := mask_iff.mp fun left' => (safe ⟨⟨buffer, left⟩, fun _ => ⟨buffer, left'⟩⟩).2
      exact fits icon depth part all y row last
    · rintro ⟨⟨buffer, left⟩, mask⟩
      have held := wide_iff.mpr (fits buffer).1 left
      exact ⟨held, mask_iff.mpr (fits buffer).2 (mask held).2⟩
  · refine (pixels.finally fun p painted => ends_behind_bare masked painted).safe_iff.trans ?_
    rw [and_imp]
    refine imp_congr_right fun _ => wide_iff.trans ?_
    exact ⟨fun fits => ⟨fits, fun icon depth => absurd ⟨icon, depth⟩ masked⟩, fun both => both.1⟩

theorem safe_bmpDecode_iff (analysed : Analysed src bmp) :
    Safe (bmpDecode src callbacks bmp) ↔ (callbacks.bitmapGetBuffer = true → Fits src bmp) := by
  have depth := analysed.depth
  unfold Fits
  cases encoding : bmp.encoding with
  | rle8 =>
    have eight : bmp.bpp = 8 := by simpa [encoding, Depth] using depth
    exact safe_runs_iff analysed (by omega) rle8_sound (by simp only [decodePixels, encoding])
  | rle4 =>
    have four : bmp.bpp = 4 := by simpa [encoding, Depth] using depth
    exact safe_runs_iff analysed (by omega) rle4_sound (by simp only [decodePixels, encoding])
  | rgb => exact safe_rows_iff analysed (by simp [encoding]) (by simp [encoding])
  | bitfields => exact safe_rows_iff analysed (by simp [encoding]) (by simp [encoding])

end

/-- The images that are analysed in the data of a bitmap or of an icon. -/
def IsAnalysed (src : Source) (callbacks : Callbacks) (bmp : BmpImage) : Prop :=
  bmpAnalyse src callbacks = .ok bmp ∨
    ∃ images stopped, icoAnalyse src callbacks = .ok (images, stopped) ∧ bmp ∈ images

/-- Headers are always read within bounds, and an image that is analysed is decoded within bounds just if it fits. -/
theorem in_bounds_iff (src : Source) (callbacks : Callbacks) :
    Safe (bmpAnalyse src callbacks) ∧ Safe (icoAnalyse src callbacks) ∧
      ∀ bmp, IsAnalysed src callbacks bmp →
        (Safe (bmpDecode src callbacks bmp) ↔ (callbacks.bitmapGetBuffer = true → Fits src bmp)) := by
  refine ⟨(keeps_bmpAnalyse src callbacks).safe, (keeps_icoAnalyse src callbacks).safe, ?_⟩
  rintro bmp (done | ⟨images, stopped, done, image⟩)
  · exact safe_bmpDecode_iff ((keeps_bmpAnalyse src callbacks).of_ok done)
  · exact safe_bmpDecode_iff ((keeps_icoAnalyse src callbacks).of_ok done bmp image)

def ample : Callbacks := ⟨fun _ _ _ => some fun _ => 0, true, fun _ => true, fun _ => true⟩

/-- A bitmap of three pixels that are escaped, without the byte behind them. -/
def unpadded : Source where
  bytes :=
    [66, 77, 63, 0, 0, 0, 0, 0, 0, 0, 58, 0, 0, 0] ++
    [40, 0, 0, 0, 3, 0, 0, 0, 1, 0, 0, 0, 1, 0, 8, 0, 1, 0, 0, 0] ++
    [0, 0, 0, 0, 0, 0, 0, 0, 0, 0, 0, 0, 1, 0, 0, 0, 0, 0, 0, 0] ++
    [0, 0, 0, 0] ++ [0, 3, 0, 0, 0]
  address := 0

/-- An icon of four rows of a pixel each, which ends where its mask begins. -/
def unmasked : Source where
  bytes :=
    [0, 0, 1, 0, 1, 0] ++ [1, 4, 0, 0, 1, 0, 24, 0, 28, 0, 0, 0, 22, 0, 0, 0] ++
    [12, 0, 0, 0, 1, 0, 8, 0, 1, 0, 24, 0] ++ [0, 0, 0, 0, 0, 0, 0, 0, 0, 0, 0, 0, 0, 0, 0, 0]
  address := 0

theorem unpadded_decoded : ∃ bmp, IsAnalysed unpadded ample bmp ∧
    (Safe (bmpDecode unpadded ample bmp) ↔ (ample.bitmapGetBuffer = true → Fits unpadded bmp)) :=
  ⟨_, .inl rfl, (in_bounds_iff unpadded ample).2.2 _ (.inl rfl)⟩

/-- Both are read behind their last bytes. -/
theorem past_the_data :
    (∃ bmp, bmpAnalyse unpadded ample = .ok bmp ∧
      bmpDecode unpadded ample bmp = .error (.fault (.read unpadded.bytes.length))) ∧
    ∃ bmp, icoAnalyse unmasked ample = .ok ([bmp], none) ∧
      bmpDecode unmasked ample bmp = .error (.fault (.read unmasked.bytes.length)) :=
  ⟨⟨_, rfl, rfl⟩, ⟨_, rfl, rfl⟩⟩

end Besra.Bmp
