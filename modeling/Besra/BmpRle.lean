import Besra.BmpRows
import Mathlib.Logic.Relation

/-!
Runs of colours. Each round of the loops is without fault just if it has two things
(`RoundFits`), and a whole image just if every round to which it comes is (`safe_decodeRle`):
the byte that pads escaped pixels must be in the data, and the row to which a run goes on must
begin within the buffer.
-/
namespace Besra.Bmp
open Faults

/-- The cursor is in the image, or behind the last pixel of a row of it. -/
structure Upright (bmp : BmpImage) (s : Rle) : Prop where
  column : s.x ≤ bmp.width
  row : s.y < bmp.height

def RowAbove (bmp : BmpImage) (y : Nat) : Prop :=
  bmp.reversed = false → y + 1 < bmp.height → (4 * bmp.width : Int) ≤ scanline bmp false y

/-- Where a run from a cursor is after `i` pixels, none of which was outside of the buffer. -/
structure Drawn (bmp : BmpImage) (s : Rle) (i x y : Nat) (line : Int) : Prop where
  column : x ≤ bmp.width
  row : y < bmp.height
  lower : s.y ≤ y
  count : y * bmp.width + x = s.y * bmp.width + s.x + i
  line : line = if bmp.reversed then scanline bmp true s.y + 4 * ((y - s.y : Nat) * bmp.width : Nat)
    else scanline bmp false s.y - 4 * ((y - s.y : Nat) * bmp.width : Nat)
  above : ∀ j < i, bmp.width ≤ s.x + j → RowAbove bmp s.y

/-- The image has a place for the `i`-th pixel of a run. -/
def HasRow (bmp : BmpImage) (s : Rle) (i : Nat) : Prop := s.y * bmp.width + s.x + i < bmp.height * bmp.width

section
variable {bmp : BmpImage} {s : Rle} {i x y : Nat} {line : Int}

theorem drawn_start (upright : Upright bmp s) : Drawn bmp s 0 s.x s.y (scanline bmp bmp.reversed s.y) where
  column := upright.column
  row := upright.row
  lower := Nat.le_refl _
  count := rfl
  line := by cases bmp.reversed <;> simp
  above j lt := absurd lt (Nat.not_lt_zero j)

theorem ends_nextPlace (width_pos : 0 < bmp.width) (drawn : Drawn bmp s i x y line) :
    Ends (nextPlace bmp x y line) (HasRow bmp s i) True fun p =>
      p.1 < bmp.width ∧ Drawn bmp s i p.1 p.2.1 p.2.2 ∧ HasRow bmp s i := by
  have count := drawn.count
  have lower := drawn.lower
  have column := drawn.column
  unfold nextPlace HasRow
  rw [← count]
  by_cases full : x ≥ bmp.width
  · rw [if_pos full]
    have whole : (y + 1) * bmp.width = y * bmp.width + x := by rw [Nat.succ_mul]; omega
    rw [← whole, Nat.mul_lt_mul_right width_pos]
    have next (left : y + 1 < bmp.height) :
        Drawn bmp s i 0 (y + 1) (if bmp.reversed then line + 4 * bmp.width else line - 4 * bmp.width) := by
      refine ⟨Nat.zero_le _, left, by omega, by omega, ?_, drawn.above⟩
      have rows : (y + 1 - s.y) * bmp.width = (y - s.y) * bmp.width + bmp.width := by
        rw [← Nat.succ_mul]
        congr 1
        omega
      rw [drawn.line, rows]
      cases bmp.reversed <;> simp only [if_true, Bool.false_eq_true, if_false] <;> push_cast <;> omega
    exact (Ends.unless fun left => ends_pure ⟨width_pos, next (by omega), by omega⟩).congr
      ⟨fun both => Nat.not_le.mp both.1, fun lt => ⟨Nat.not_le.mpr lt, trivial⟩⟩ fun _ => Iff.rfl
  · rw [if_neg full]
    have rows : (y + 1) * bmp.width ≤ bmp.height * bmp.width := Nat.mul_le_mul_right _ drawn.row
    rw [Nat.succ_mul] at rows
    have has : y * bmp.width + x < bmp.height * bmp.width := by omega
    exact (ends_pure ⟨by omega, drawn, has⟩).congr ⟨fun _ => has, fun _ => trivial⟩ fun _ => Iff.rfl

theorem scanline_false_eq (sized : Sized bmp) (row : y < bmp.height) :
    scanline bmp false y = ((bmp.height - 1) * scanWidth bmp : Nat) - (y * scanWidth bmp % 2 ^ 32 : Nat) := by
  simp [scanline, bottom_eq row sized.height_lt, Nat.mul_comm]

theorem Drawn.rows (drawn : Drawn bmp s i x y line) : (y - s.y) * bmp.width + s.y * bmp.width = y * bmp.width ∧
    y * bmp.width + bmp.width ≤ bmp.height * bmp.width := by
  constructor
  · rw [← Nat.add_mul, Nat.sub_add_cancel drawn.lower]
  · rw [← Nat.succ_mul]
    exact Nat.mul_le_mul_right _ drawn.row

theorem Drawn.lt_row (drawn : Drawn bmp s i x y line) (column : x < bmp.width) (next : bmp.width ≤ s.x + i) : s.y < y := by
  have count := drawn.count
  have later : (s.y + 1) * bmp.width < (y + 1) * bmp.width := by
    rw [Nat.succ_mul, Nat.succ_mul]
    omega
  have lt := Nat.lt_of_mul_lt_mul_right later
  omega

theorem Drawn.inside_reversed (drawn : Drawn bmp s i x y line) (column : x < bmp.width) (reversed : bmp.reversed = true) :
    Inside bmp (line + 4 * x) := by
  obtain ⟨rows, area⟩ := drawn.rows
  have offset : s.y * scanWidth bmp % 2 ^ 32 ≤ s.y * scanWidth bmp := Nat.mod_le _ _
  have offset_mod := offset_mod bmp s.y
  have wide : s.y * scanWidth bmp ≤ 4 * (s.y * bmp.width) :=
    (Nat.mul_le_mul_left _ (scanWidth_le bmp)).trans (Nat.mul_left_comm _ _ _).le
  have place : line + 4 * x = (s.y * scanWidth bmp % 2 ^ 32 + 4 * ((y - s.y) * bmp.width) + 4 * x : Nat) := by
    rw [drawn.line, reversed]
    simp [scanline]
  rw [place]
  exact inside_of_lt (by omega) (by omega)

theorem Drawn.inside_upwards_iff (sized : Sized bmp) (drawn : Drawn bmp s i x y line) (column : x < bmp.width)
    (upwards : bmp.reversed = false) : Inside bmp (line + 4 * x) ↔ 0 ≤ line + 4 * x := by
  have row : s.y < bmp.height := Nat.lt_of_le_of_lt drawn.lower drawn.row
  have top : (bmp.height - 1) * bmp.width + bmp.width = bmp.height * bmp.width := by
    rw [← Nat.succ_mul, Nat.succ_eq_add_one, Nat.sub_add_cancel (by omega)]
  have wide : (bmp.height - 1) * scanWidth bmp ≤ 4 * ((bmp.height - 1) * bmp.width) :=
    (Nat.mul_le_mul_left _ (scanWidth_le bmp)).trans (Nat.mul_left_comm _ _ _).le
  have offset_mod := offset_mod bmp s.y
  have bottom_mod : (bmp.height - 1) * scanWidth bmp % 4 = 0 := by
    rw [Nat.mul_mod, scanWidth_mod]
    simp
  have place := drawn.line
  rw [upwards, if_neg (by decide), scanline_false_eq sized row] at place
  refine ⟨fun inside => inside.1, fun above => ⟨above, by omega, ?_⟩⟩
  rw [show (bmp.width : Int) * bmp.height = (bmp.height * bmp.width : Nat) by push_cast; rw [Int.mul_comm]]
  omega

theorem scanline_ge (sized : Sized bmp) (narrow : 4 * bmp.width < 2 ^ 32) (row : y < bmp.height) :
    (4 * ((bmp.height - 1) * bmp.width) : Nat) - (4 * (y * bmp.width) : Nat) ≤ scanline bmp false y := by
  have width : scanWidth bmp = 4 * bmp.width := Nat.mod_eq_of_lt narrow
  have offset : y * scanWidth bmp % 2 ^ 32 ≤ y * scanWidth bmp := Nat.mod_le _ _
  have flat : y * scanWidth bmp = 4 * (y * bmp.width) := by rw [width, Nat.mul_left_comm]
  have flat' : (bmp.height - 1) * scanWidth bmp = 4 * ((bmp.height - 1) * bmp.width) := by rw [width, Nat.mul_left_comm]
  rw [scanline_false_eq sized row, flat']
  omega

theorem rowAbove_of_narrow (sized : Sized bmp) (narrow : 4 * bmp.width < 2 ^ 32) : RowAbove bmp y := by
  intro _ row
  have start := scanline_ge sized narrow (Nat.lt_of_succ_lt row)
  have rows : (y + 1) * bmp.width ≤ (bmp.height - 1) * bmp.width := Nat.mul_le_mul_right _ (by omega)
  rw [Nat.succ_mul] at rows
  omega

theorem Drawn.inside_iff (sized : Sized bmp) (start : s.x ≤ bmp.width) (drawn : Drawn bmp s i x y line)
    (column : x < bmp.width) (short : i < 2 ^ 30) :
    Inside bmp (line + 4 * x) ↔ (bmp.width ≤ s.x + i → RowAbove bmp s.y) := by
  have count := drawn.count
  obtain ⟨rows, area⟩ := drawn.rows
  have lower := drawn.lower
  have row := drawn.row
  by_cases same : s.x + i < bmp.width
  · have here : y = s.y := by
      have upper : y * bmp.width < (s.y + 1) * bmp.width := by rw [Nat.succ_mul]; omega
      have lt := Nat.lt_of_mul_lt_mul_right upper
      omega
    have line' : line = scanline bmp bmp.reversed s.y := by
      rw [drawn.line, here]
      cases bmp.reversed <;> simp
    rw [line', ← here]
    exact iff_of_true (inside_scanline sized bmp.reversed row column) fun next => absurd next (by omega)
  have next : s.y < y := drawn.lt_row column (by omega)
  cases reversed : bmp.reversed with
  | true => exact iff_of_true (drawn.inside_reversed column reversed) fun _ not => (by rw [reversed] at not; cases not)
  | false =>
    rw [drawn.inside_upwards_iff sized column reversed]
    have place := drawn.line
    rw [reversed, if_neg (by decide)] at place
    by_cases narrow : 4 * bmp.width < 2 ^ 32
    · -- the rows are as far apart as they are wide, and the row is one of the image
      have start := scanline_ge sized narrow (Nat.lt_trans next row)
      have last : y * bmp.width ≤ (bmp.height - 1) * bmp.width := Nat.mul_le_mul_right _ (by omega)
      exact iff_of_true (by omega) fun _ => rowAbove_of_narrow sized narrow
    · -- there is one row in between at most, and its first pixel is the one that is nearest to the top
      have near : y = s.y + 1 := by
        have upper : y * bmp.width < (s.y + 1 + 1) * bmp.width := by
          rw [Nat.succ_mul, Nat.succ_mul]
          omega
        have lt := Nat.lt_of_mul_lt_mul_right upper
        omega
      have between : (y - s.y) * bmp.width = bmp.width := by rw [near, Nat.add_sub_cancel_left, Nat.one_mul]
      have above : (4 * bmp.width : Int) ≤ scanline bmp false s.y → RowAbove bmp s.y := fun le _ _ => le
      rw [between] at place
      rcases Nat.eq_zero_or_pos x with first | later
      · exact ⟨fun le _ => above (by omega), fun holds => by have := holds (by omega) reversed (by omega); omega⟩
      · have known := drawn.above (i - 1) (by rw [between] at rows; omega) (by rw [between] at rows; omega)
        exact iff_of_true (by have := known reversed (by omega); omega) fun _ => known

theorem Drawn.next (drawn : Drawn bmp s i x y line) (column : x < bmp.width)
    (above : bmp.width ≤ s.x + i → RowAbove bmp s.y) : Drawn bmp s (i + 1) (x + 1) y line where
  column := column
  row := drawn.row
  lower := drawn.lower
  count := by
    have count := drawn.count
    omega
  line := drawn.line
  above j lt := (Nat.lt_succ_iff_lt_or_eq.mp lt).elim (drawn.above j) fun same => same ▸ above

end

def Source.byteAt (src : Source) (o : Nat) : UInt8 := src.bytes.getD o 0

/-- What holds of both formats. -/
structure RleFormat.Sound (format : RleFormat) : Prop where
  perByte : format.perByte = 1 ∨ format.perByte = 2
  escaped : ∀ n, format.escaped n = (n + format.perByte - 1) / format.perByte

theorem RleFormat.Sound.escaped_succ {format : RleFormat} (sound : format.Sound) (i : Nat) :
    format.escaped (i + 1) = i / format.perByte + 1 := by
  rw [sound.escaped]
  rcases sound.perByte with one | two
  · simp [one]
  · rw [two]; omega

theorem RleFormat.Sound.escaped_eq {format : RleFormat} (sound : format.Sound) (i : Nat) :
    format.escaped i = if i % format.perByte = 0 then i / format.perByte else i / format.perByte + 1 := by
  rw [sound.escaped]
  rcases sound.perByte with one | two
  · simp [one, Nat.mod_one]
  · rw [two]; split <;> omega

theorem rle8_sound : rle8.Sound := ⟨.inl rfl, fun n => by simp [rle8]⟩

theorem rle4_sound : rle4.Sound := ⟨.inr rfl, fun n => by simp [rle4]⟩

/-- The index of the `i`-th escaped pixel of a run whose bytes begin at a place. -/
def indexAt (src : Source) (format : RleFormat) (data i : Nat) : Nat :=
  format.index (src.byteAt (data + i / format.perByte)) i

/-- The first `n` pixels of a run have colours, and places in the image. -/
def Drawable (bmp : BmpImage) (s : Rle) (coloured : Nat → Prop) (n : Nat) : Prop :=
  ∀ i < n, coloured i ∧ HasRow bmp s i

/-- The `i`-th escaped pixel has a colour. -/
def Coloured (src : Source) (bmp : BmpImage) (format : RleFormat) (data i : Nat) : Prop :=
  indexAt src format data i < bmp.colours

section
variable {src : Source} {bmp : BmpImage} {format : RleFormat} {s : Rle} {coloured : Nat → Prop} {n i : Nat}

theorem drawable_succ : Drawable bmp s coloured (n + 1) ↔ Drawable bmp s coloured n ∧ coloured n ∧ HasRow bmp s n :=
  ⟨fun all => ⟨fun i lt => all i (Nat.lt_succ_of_lt lt), all n (Nat.lt_succ_self n)⟩,
    fun ⟨before, last⟩ i lt => (Nat.lt_succ_iff_lt_or_eq.mp lt).elim (before i) fun same => same ▸ last⟩

theorem Drawable.mono {m : Nat} (drawable : Drawable bmp s coloured n) (le : m ≤ n) : Drawable bmp s coloured m :=
  fun i lt => drawable i (Nat.lt_of_lt_of_le lt le)

/-- After `i` escaped pixels: the cursor and its row, the place in the data, and the byte when it has more pixels. -/
structure EscapedAt (src : Source) (bmp : BmpImage) (format : RleFormat) (s : Rle) (i : Nat)
    (t : Rle × Int × UInt8) : Prop where
  drawn : Drawn bmp s i t.1.x t.1.y t.2.1
  data : t.1.data = s.data + format.escaped i
  byte : i % format.perByte ≠ 0 → t.2.2 = src.byteAt (s.data + i / format.perByte)
  drawable : Drawable bmp s (Coloured src bmp format s.data) i

variable {t : Rle × Int × UInt8} {stop : Int} {count : Nat} {colours : List UInt32}

theorem ends_escapedByte (sound : format.Sound) (within : s.data + format.escaped (i + 1) ≤ src.bytes.length)
    (before : EscapedAt src bmp format s i t) :
    Ends (escapedByte src format i t.1.data t.2.2) True True fun p =>
      p.1 = s.data + format.escaped (i + 1) ∧ p.2 = src.byteAt (s.data + i / format.perByte) := by
  have place := before.data
  rw [sound.escaped_eq] at place
  rw [sound.escaped_succ] at within ⊢
  unfold escapedByte
  by_cases first : i % format.perByte = 0
  · rw [if_pos first] at place
    rw [if_pos first, place]
    refine (ends_read.sure (by omega)).then fun byte found => ends_pure ⟨rfl, ?_⟩
    simp [Source.byteAt, List.getD_eq_getElem?_getD, found]
  · rw [if_neg first] at place
    rw [if_neg first, place]
    exact ends_pure ⟨rfl, before.byte first⟩

theorem ends_escapedPixel (sized : Sized bmp) (table : bmp.colourTable.length = bmp.colours) (start : s.x ≤ bmp.width)
    (sound : format.Sound) (short : i < 2 ^ 30) (within : s.data + format.escaped (i + 1) ≤ src.bytes.length)
    (before : EscapedAt src bmp format s i t) :
    Ends (escapedPixel src bmp format i t) (Drawable bmp s (Coloured src bmp format s.data) (i + 1))
      (bmp.width ≤ s.x + i → RowAbove bmp s.y) (EscapedAt src bmp format s (i + 1)) := by
  obtain ⟨s', line, byte⟩ := t
  have read := ends_escapedByte sound within before
  have next := ends_nextPlace sized.width_pos before.drawn
  have painted (data' : Nat) (byte' : UInt8) (x y : Nat) (line' : Int)
      (place : data' = s.data + format.escaped (i + 1) ∧ byte' = src.byteAt (s.data + i / format.perByte))
      (here : x < bmp.width ∧ Drawn bmp s i x y line' ∧ HasRow bmp s i) :
      Ends (if format.index byte' i ≥ bmp.colours then result .dataError
        else do
          let colour ← colourAt bmp (format.index byte' i)
          let pixels ← store bmp s'.pixels (line' + 4 * x) colour
          pure ({ s' with data := data', x := x + 1, y, pixels }, line', byte'))
        (Coloured src bmp format s.data i) (bmp.width ≤ s.x + i → RowAbove bmp s.y)
        (EscapedAt src bmp format s (i + 1)) := by
    obtain ⟨column, drawn, has⟩ := here
    have inside_iff := drawn.inside_iff sized start column short
    have same : format.index byte' i < bmp.colours ↔ Coloured src bmp format s.data i := by rw [Coloured, indexAt, place.2]
    refine (Ends.unless fun few => (ends_colourAt table (by omega)).then fun colour _ =>
      ends_store.finally fun pixels inside => ends_pure ⟨drawn.next column (inside_iff.mp inside), place.1, fun later => ?_,
        drawable_succ.mpr ⟨before.drawable, same.mp (Nat.not_le.mp few), has⟩⟩).congr (by simp [← same])
          fun _ => inside_iff
    have quotient : (i + 1) / format.perByte = i / format.perByte := by
      rw [Nat.succ_div, if_neg fun divides => later (Nat.mod_eq_zero_of_dvd divides)]
      rfl
    rw [quotient]
    exact place.2
  have together : HasRow bmp s i ∧ (True → Coloured src bmp format s.data i) ↔
      Drawable bmp s (Coloured src bmp format s.data) (i + 1) := by
    rw [drawable_succ]
    exact ⟨fun both => ⟨before.drawable, both.2 trivial, both.1⟩, fun all => ⟨all.2.2, fun _ => all.2.1⟩⟩
  unfold escapedPixel
  cases first : format.readsFirst with
  | true =>
    refine (read.then fun p place => next.bind fun q here => painted p.1 p.2 q.1 q.2.1 q.2.2 place here).congr together
      fun _ => by simp
  | false =>
    refine (next.bind fun q here => read.then fun p place => painted p.1 p.2 q.1 q.2.1 q.2.2 place here).congr together
      fun _ => by simp

theorem rows_right_iff (width_pos : 0 < bmp.width) (start : s.x ≤ bmp.width) :
    (∀ i < n, Drawable bmp s coloured (i + 1) → bmp.width ≤ s.x + i → RowAbove bmp s.y) ↔
      (bmp.width < s.x + n → (∀ i ≤ bmp.width - s.x, coloured i) → RowAbove bmp s.y) := by
  constructor
  · intro each further colours reversed row
    refine each (bmp.width - s.x) (by omega) (fun i lt => ⟨colours i (by omega), ?_⟩) (by omega) reversed row
    have rows : (s.y + 1 + 1) * bmp.width ≤ bmp.height * bmp.width := Nat.mul_le_mul_right _ row
    unfold HasRow
    rw [Nat.succ_mul, Nat.succ_mul] at rows
    omega
  · intro whole i lt drawable next
    exact whole (by omega) fun j le => (drawable j (by omega)).1

theorem ends_escapedPixels (sized : Sized bmp) (table : bmp.colourTable.length = bmp.colours) (upright : Upright bmp s)
    (sound : format.Sound) (short : n ≤ 255) (within : s.data + format.escaped n ≤ src.bytes.length) :
    Ends (escapedPixels src bmp format n s)
      (∀ i, 0 ≤ i → i < 0 + n → (∀ j, 0 ≤ j → j < i → bmp.width ≤ s.x + j → RowAbove bmp s.y) →
        Drawable bmp s (Coloured src bmp format s.data) (i + 1))
      (∀ i, 0 ≤ i → i < 0 + n → bmp.width ≤ s.x + i → RowAbove bmp s.y)
      fun t => Upright bmp t ∧ t.data = s.data + format.escaped n ∧ Drawable bmp s (Coloured src bmp format s.data) n := by
  unfold escapedPixels
  refine (ends_times (EscapedAt src bmp format s) _ _ ⟨drawn_start upright, ?_, ?_, fun i lt => absurd lt (Nat.not_lt_zero i)⟩
    fun i t _ upper before => ?_).finally fun t after => ends_pure ?_
  · rw [sound.escaped_eq]
    simp
  · simp
  · have more : format.escaped (i + 1) ≤ format.escaped n := by
      rw [sound.escaped, sound.escaped]
      exact Nat.div_le_div_right (by omega)
    exact ends_escapedPixel sized table upright.column sound (by omega) (by omega) before
  · obtain ⟨t, line, byte⟩ := t
    rw [Nat.zero_add] at after
    exact ⟨⟨after.drawn.column, after.drawn.row⟩, after.data, after.drawable⟩

theorem safeIf_pad {t : Rle} {data : Nat} (upright : Upright bmp t) (here : t.data = data) :
    SafeIf (if format.padded n = true then do
        let pad ← src.read t.data
        if pad ≠ 0 then result .dataError else pure { t with data := t.data + 1 }
      else pure t : Run Rle) (format.padded n = true → data < src.bytes.length) fun t' =>
        Upright bmp t' ∧ data ≤ t'.data := by
  subst here
  split
  next padded =>
    have checked (pad : UInt8) : SafeIf (if pad ≠ 0 then result .dataError else pure { t with data := t.data + 1 } : Run Rle)
        True fun t' => Upright bmp t' ∧ t.data ≤ t'.data :=
      (SafeIf.unless fun _ => safeIf_pure ⟨⟨upright.column, upright.row⟩, Nat.le_succ _⟩).congr (by simp)
    refine (ends_read.bindSafe fun pad _ => checked pad).congr ?_
    simp [padded]
  next bare => exact (safeIf_pure ⟨upright, Nat.le_refl _⟩).congr (by simp [bare])

/-- What a run of escaped pixels needs: the row to which it goes on must begin in the buffer, and the byte behind its
pixels, where there has to be one, must be in the data. -/
def EscapedFits (src : Source) (bmp : BmpImage) (format : RleFormat) (stop : Int) (count : Nat) (s : Rle) : Prop :=
  let length := min count (pixelsLeft bmp s)
  (s.data + format.escaped length : Int) ≤ stop →
    (bmp.width < s.x + length → (∀ i ≤ bmp.width - s.x, Coloured src bmp format s.data i) → RowAbove bmp s.y) ∧
    (format.padded length = true → Drawable bmp s (Coloured src bmp format s.data) length →
      s.data + format.escaped length < src.bytes.length)

theorem safeIf_escapedRun (sized : Sized bmp) (table : bmp.colourTable.length = bmp.colours) (upright : Upright bmp s)
    (sound : format.Sound) (short : count ≤ 255) (within : stop ≤ src.bytes.length) :
    SafeIf (escapedRun src bmp format stop count s) (EscapedFits src bmp format stop count s)
      fun t => Upright bmp t ∧ s.data ≤ t.data := by
  unfold escapedRun EscapedFits
  have most : min count (pixelsLeft bmp s) ≤ count := Nat.min_le_left _ _
  generalize min count (pixelsLeft bmp s) = n at most
  refine (SafeIf.unless fun room => ?_).congr (imp_congr_left Int.not_lt)
  refine ((ends_escapedPixels sized table upright sound (by omega) (by omega)).bindSafe fun t ⟨upright', data, _⟩ =>
    (safeIf_pad upright' data).mono fun t' ⟨upright'', more⟩ => ⟨upright'', by omega⟩).congr ?_
  have above_iff := (goes_imp_right_iff (n := n) (fun i => bmp.width ≤ s.x + i → RowAbove bmp s.y)
    fun i j le (drawable : Drawable bmp s (Coloured src bmp format s.data) (i + 1)) => drawable.mono (by omega)).trans
      (rows_right_iff sized.width_pos upright.column)
  rw [imp_and, above_iff]
  refine and_congr_right fun above => ⟨fun pad padded drawable => ?_, fun pad go padded => pad padded ?_⟩
  · exact pad (fun i _ lt _ => drawable.mono (by omega)) padded
  · have right := above_iff.mpr above go
    rcases Nat.eq_zero_or_pos n with rfl | some
    · exact fun i lt => absurd lt (Nat.not_lt_zero i)
    · have all := go (n - 1) (Nat.zero_le _) (by omega) fun j lower lt => right j lower (by omega)
      rwa [Nat.sub_add_cancel some] at all

/-- After `i` repeated pixels. -/
structure RepeatedAt (bmp : BmpImage) (s : Rle) (i : Nat) (t : Rle × Int) : Prop where
  drawn : Drawn bmp s i t.1.x t.1.y t.2
  data : t.1.data = s.data
  drawable : Drawable bmp s (fun _ => True) i

theorem ends_repeatedPixel {t : Rle × Int} (sized : Sized bmp) (start : s.x ≤ bmp.width) (short : i < 2 ^ 30)
    (before : RepeatedAt bmp s i t) :
    Ends (repeatedPixel bmp colours i t) (Drawable bmp s (fun _ => True) (i + 1))
      (bmp.width ≤ s.x + i → RowAbove bmp s.y) (RepeatedAt bmp s (i + 1)) := by
  obtain ⟨s', line⟩ := t
  have next := ends_nextPlace sized.width_pos before.drawn
  have painted (x y : Nat) (line' : Int) (here : x < bmp.width ∧ Drawn bmp s i x y line' ∧ HasRow bmp s i) :
      Ends (do
          let pixels ← store bmp s'.pixels (line' + 4 * x) (colours.getD (i % colours.length) 0)
          pure ({ s' with x := x + 1, y, pixels }, line'))
        True (bmp.width ≤ s.x + i → RowAbove bmp s.y) (RepeatedAt bmp s (i + 1)) := by
    obtain ⟨column, drawn, has⟩ := here
    have inside_iff := drawn.inside_iff sized start column short
    exact (ends_store.finally fun pixels inside => ends_pure ⟨drawn.next column (inside_iff.mp inside), before.data,
      drawable_succ.mpr ⟨before.drawable, trivial, has⟩⟩).congr Iff.rfl fun _ => inside_iff
  unfold repeatedPixel
  refine (next.bind fun q here => painted q.1 q.2.1 q.2.2 here).congr ?_ fun _ => by simp
  rw [drawable_succ]
  exact ⟨fun both => ⟨before.drawable, trivial, both.1⟩, fun all => ⟨all.2.2, fun _ => trivial⟩⟩

theorem safeIf_repeatedPixels (sized : Sized bmp) (upright : Upright bmp s) (short : n ≤ 255) :
    SafeIf (repeatedPixels bmp colours n s) (bmp.width < s.x + n → RowAbove bmp s.y)
      fun t => Upright bmp t ∧ t.data = s.data := by
  unfold repeatedPixels
  refine Ends.safeIf ((ends_times (RepeatedAt bmp s) (fun i => Drawable bmp s (fun _ => True) (i + 1))
    (fun i => bmp.width ≤ s.x + i → RowAbove bmp s.y)
    ⟨drawn_start upright, rfl, fun i lt => absurd lt (Nat.not_lt_zero i)⟩
    fun i t _ upper before => ends_repeatedPixel sized upright.column (by omega) before).finally fun t after => ends_pure ?_) ?_
  · exact ⟨⟨after.drawn.column, after.drawn.row⟩, after.data⟩
  · rw [goes_imp_right_iff _ fun i j le drawable => drawable.mono (by omega), rows_right_iff sized.width_pos upright.column]
    simp

theorem ends_colours {indices : List Nat} (table : bmp.colourTable.length = bmp.colours)
    (few : ∀ k ∈ indices, k < bmp.colours) : Ends (indices.mapM (colourAt bmp)) True True fun _ => True := by
  induction indices with
  | nil => exact ends_pure trivial
  | cons k indices ih =>
    rw [List.mapM_cons]
    exact (ends_colourAt table (few k List.mem_cons_self)).then fun _ _ =>
      (ih fun k' mem => few k' (List.mem_cons_of_mem k mem)).then fun _ _ => ends_pure trivial

def RepeatedFits (src : Source) (bmp : BmpImage) (format : RleFormat) (stop : Int) (count : Nat) (s : Rle) : Prop :=
  (s.data + 1 : Int) ≤ stop → (∀ k ∈ format.repeated (src.byteAt s.data), k < bmp.colours) →
    bmp.width < s.x + min count (pixelsLeft bmp s) → RowAbove bmp s.y

theorem read_eq {o : Nat} (within : o < src.bytes.length) : src.read o = pure (src.byteAt o) := by
  rw [Source.read, List.getElem?_eq_getElem within, Source.byteAt, List.getD_eq_getElem _ _ within]

theorem safeIf_repeatedRun (sized : Sized bmp) (table : bmp.colourTable.length = bmp.colours)
    (upright : Upright bmp s) (short : count ≤ 255) (within : stop ≤ src.bytes.length) :
    SafeIf (repeatedRun src bmp format stop count s) (RepeatedFits src bmp format stop count s)
      fun t => Upright bmp t ∧ s.data + 1 ≤ t.data := by
  unfold repeatedRun RepeatedFits
  have most : min count (pixelsLeft bmp s) ≤ count := Nat.min_le_left _ _
  generalize min count (pixelsLeft bmp s) = n at most
  refine (SafeIf.unless fun room => ?_).congr (imp_congr_left Int.not_lt)
  rw [read_eq (by omega), pure_bind]
  have few_iff : ¬ (format.repeated (src.byteAt s.data)).any (fun k => decide (k ≥ bmp.colours)) = true ↔
      ∀ k ∈ format.repeated (src.byteAt s.data), k < bmp.colours := by simp
  refine (SafeIf.unless fun few => ?_).congr (imp_congr_left few_iff)
  refine (ends_colours table (few_iff.mp few)).thenSafe fun colours _ => ?_
  have cursor : Upright bmp { s with data := s.data + 1 } := ⟨upright.column, upright.row⟩
  exact (safeIf_repeatedPixels sized cursor (by omega)).mono fun t ⟨upright', data⟩ => ⟨upright', data.ge⟩

theorem safeIf_endLine (upright : Upright bmp s) : SafeIf (endLine bmp s) True fun t => Upright bmp t ∧ s.data ≤ t.data := by
  unfold endLine
  split
  · exact (SafeIf.unless fun left => safeIf_pure ⟨⟨Nat.zero_le _, Nat.not_le.mp left⟩, Nat.le_refl _⟩).congr (by simp)
  · exact safeIf_pure ⟨⟨Nat.zero_le _, upright.row⟩, Nat.le_refl _⟩

theorem safeIf_moveCursor (within : stop ≤ src.bytes.length) :
    SafeIf (moveCursor src bmp stop s) True fun t => Upright bmp t ∧ s.data ≤ t.data := by
  unfold moveCursor
  refine (SafeIf.unless fun room => ?_).congr (imp_true_iff _)
  rw [read_eq (by omega), pure_bind]
  refine (SafeIf.unless fun column => ?_).congr (imp_true_iff _)
  rw [read_eq (by omega), pure_bind]
  exact (SafeIf.unless fun row => safeIf_pure ⟨⟨by dsimp only; omega, by dsimp only; omega⟩, Nat.le_add_right _ _⟩).congr
    (imp_true_iff _)

def RoundFits (src : Source) (bmp : BmpImage) (format : RleFormat) (stop : Int) (s : Rle) : Prop :=
  (s.data + 2 : Int) ≤ stop →
    if src.byteAt s.data = 0 then
      3 ≤ (src.byteAt (s.data + 1)).toNat →
        EscapedFits src bmp format stop (src.byteAt (s.data + 1)).toNat { s with data := s.data + 2 }
    else RepeatedFits src bmp format stop (src.byteAt s.data).toNat { s with data := s.data + 1 }

theorem safeIf_rleRound (sized : Sized bmp) (table : bmp.colourTable.length = bmp.colours) (upright : Upright bmp s)
    (sound : format.Sound) (within : stop ≤ src.bytes.length) :
    SafeIf (rleRound src bmp format stop s) (RoundFits src bmp format stop s)
      fun r => ∀ t, r = some t → Upright bmp t ∧ s.data + 2 ≤ t.data := by
  unfold rleRound RoundFits
  refine (SafeIf.unless fun room => ?_).congr (imp_congr_left Int.not_lt)
  have goes_on {x : Run Rle} {right : Prop} (safe : SafeIf x right fun t => Upright bmp t ∧ s.data + 2 ≤ t.data) :
      SafeIf (some <$> x) right fun r => ∀ t, r = some t → Upright bmp t ∧ s.data + 2 ≤ t.data :=
    (safe.mono fun t kept t' same => by cases same; exact kept).map
  rw [read_eq (by omega), pure_bind]
  split
  next zero =>
    rw [read_eq (by omega), pure_bind]
    have cursor : Upright bmp { s with data := s.data + 2 } := ⟨upright.column, upright.row⟩
    have byte := (src.byteAt (s.data + 1)).toNat_lt
    generalize src.byteAt (s.data + 1) = second at byte ⊢
    dsimp only
    split_ifs with endOfLine endOfData move
    · exact (goes_on (safeIf_endLine cursor)).congr (by simp [endOfLine])
    · exact (safeIf_pure fun t none => by cases none).congr (by simp [endOfData])
    · exact (goes_on (safeIf_moveCursor within)).congr (by simp [move])
    · have many : 3 ≤ second.toNat := by
        rw [← UInt8.toNat_inj] at endOfLine endOfData move
        simp at endOfLine endOfData move
        omega
      exact (goes_on (safeIf_escapedRun sized table cursor sound (by omega) within)).congr (by simp [many])
  next count =>
    have cursor : Upright bmp { s with data := s.data + 1 } := ⟨upright.column, upright.row⟩
    exact goes_on (safeIf_repeatedRun sized table cursor (by have := (src.byteAt s.data).toNat_lt; omega) within)

def Next (src : Source) (bmp : BmpImage) (format : RleFormat) (stop : Int) (s s' : Rle) : Prop :=
  rleRound src bmp format stop s = .ok (some s') ∧ (s'.data : Int) < stop

def RoundsFit (src : Source) (bmp : BmpImage) (format : RleFormat) (stop : Int) (s : Rle) : Prop :=
  ∀ s', Relation.ReflTransGen (Next src bmp format stop) s s' → RoundFits src bmp format stop s'

theorem roundsFit_iff : RoundsFit src bmp format stop s ↔
    RoundFits src bmp format stop s ∧ ∀ s', Next src bmp format stop s s' → RoundsFit src bmp format stop s' := by
  constructor
  · exact fun all => ⟨all s .refl, fun s' next s'' later => all s'' (.head next later)⟩
  · rintro ⟨here, rest⟩ s' path
    rcases Relation.ReflTransGen.cases_head path with rfl | ⟨s'', next, later⟩
    · exact here
    · exact rest s'' next s' later

theorem safe_rleLoop_iff (fuel : Nat) (sized : Sized bmp) (table : bmp.colourTable.length = bmp.colours)
    (upright : Upright bmp s) (sound : format.Sound) (within : stop ≤ src.bytes.length)
    (inside : s.data < src.bytes.length) (enough : src.bytes.length ≤ fuel + s.data) :
    Safe (rleLoop src bmp format stop fuel s) ↔ RoundsFit src bmp format stop s := by
  induction fuel generalizing s with
  | zero => omega
  | succ fuel ih =>
    have round := safeIf_rleRound sized table upright sound within
    unfold rleLoop
    rw [safe_bind_iff, round.safe, roundsFit_iff]
    refine and_congr_right fun _ => ⟨fun rest s' ⟨done, left⟩ => ?_, fun rest r done => ?_⟩
    · obtain ⟨upright', more⟩ := round.of_ok _ done s' rfl
      have safe := rest _ done
      dsimp only at safe
      rw [if_pos left] at safe
      exact (ih upright' (by omega) (by omega)).mp safe
    · cases r with
      | none => exact safe_pure _
      | some s' =>
        obtain ⟨upright', more⟩ := round.of_ok _ done s' rfl
        dsimp only
        split
        next left => exact (ih upright' (by omega) (by omega)).mpr (rest s' ⟨done, left⟩)
        next => exact safe_pure _

end

end Besra.Bmp
