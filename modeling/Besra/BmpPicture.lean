import Besra.BmpRle

/-!
The pictures that run-length encoded bitmaps stand for. A stream of commands moves a cursor
over a canvas and gives palette indices to its pixels, each run within one row (`Canvas.after`).
`Decodes` says that a decoder returns the picture.
-/
namespace Besra.Bmp
open Faults List

/-- What a stream consists of, but for its end: a byte that is repeated, so many pixels as they are, the end of a
line, and a move of the cursor. -/
inductive Command where
  | encoded (count byte : UInt8)
  | absolute (count : UInt8) (bytes : List UInt8)
  | endOfLine
  | delta (right up : UInt8)

/-- Pixels as they are come padded to 16 bits. -/
def Command.text : Command → List UInt8
  | .encoded count byte => [count, byte]
  | .absolute count bytes => 0 :: count :: (bytes ++ if bytes.length % 2 = 1 then [0] else [])
  | .endOfLine => [0, 0]
  | .delta right up => [0, 2, right, up]

/-- The commands, the end of the bitmap, and whatever follows. -/
def stream (commands : List Command) (tail : List UInt8) : List UInt8 := commands.flatMap Command.text ++ 0 :: 1 :: tail

/-- The index of the `i`-th pixel of bytes. -/
def pixelIndex (format : RleFormat) (bytes : List UInt8) (i : Nat) : Nat :=
  format.index (bytes.getD (i / format.perByte) 0) i

/-- The cursor, the row that the last end of line led to, and the palette indices painted, by column and row from
the start of the stream. -/
structure Canvas where
  x : Nat := 0
  y : Nat := 0
  start : Nat := 0
  picture : Nat → Nat → Option Nat := fun _ _ => none

def Canvas.paint (c : Canvas) (n : Nat) (index : Nat → Nat) : Canvas :=
  { c with
    x := c.x + n
    picture := fun x y => if y = c.y ∧ c.x ≤ x ∧ x < c.x + n then some (index (x - c.x)) else c.picture x y }

/-- What a command means. -/
def Canvas.after (format : RleFormat) (c : Canvas) : Command → Canvas
  | .encoded count byte => c.paint count.toNat (format.index byte)
  | .absolute count bytes => c.paint count.toNat (pixelIndex format bytes)
  | .endOfLine => { c with x := 0, y := c.y + 1, start := c.y + 1 }
  | .delta right up => { c with x := c.x + right.toNat, y := c.y + up.toNat }

def Along (format : RleFormat) (holds : Canvas → Command → Prop) : Canvas → List Command → Prop
  | _, [] => True
  | c, command :: commands => holds c command ∧ Along format holds (c.after format command) commands

def FitsRow (bmp : BmpImage) (c : Canvas) (n : Nat) (index : Nat → Nat) : Prop :=
  c.x + n ≤ bmp.width ∧ c.y < bmp.height ∧ ∀ i < n, index i < bmp.colours

def Valid (bmp : BmpImage) (format : RleFormat) (c : Canvas) : Command → Prop
  | .encoded count byte => count ≠ 0 ∧ FitsRow bmp c count.toNat (format.index byte)
  | .absolute count bytes => 3 ≤ count.toNat ∧ bytes.length = format.escaped count.toNat ∧
      FitsRow bmp c count.toNat (pixelIndex format bytes)
  | .endOfLine => c.y < bmp.height
  | .delta right up => c.x + right.toNat < bmp.width ∧ c.y + up.toNat < bmp.height

/-- Where the pixel of a column and a row stands in the buffer. -/
def place (bmp : BmpImage) (x y : Nat) : Nat := (if bmp.reversed then y else bmp.height - 1 - y) * bmp.width + x

def Shown (bmp : BmpImage) (background : Pixels) (c : Canvas) (pixels : Pixels) : Prop :=
  ∀ x < bmp.width, ∀ y < bmp.height, pixels (place bmp x y) =
    match c.picture x y with
    | some k => bmp.colourTable.getD k 0
    | none => background (place bmp x y)

def At (bmp : BmpImage) (background : Pixels) (c : Canvas) (s : Rle) : Prop :=
  s.x = c.x ∧ s.y = c.y ∧ Shown bmp background c s.pixels

def Follows (src : Source) (bmp : BmpImage) (format : RleFormat) (background : Pixels) :
    Rle → Canvas → List Command → Prop
  | _, _, [] => True
  | s, c, command :: commands => ∃ s', rleRound src bmp format src.bytes.length s = .ok (some s') ∧
      At bmp background (c.after format command) s' ∧
        Follows src bmp format background s' (c.after format command) commands

/-- With every palette and background the decoder returns the picture of the stream, and does what each of its
commands means; in particular an end of line moves to the start of the next row. -/
def Decodes (bmp : BmpImage) (format : RleFormat) (callbacks : Callbacks) (front tail : List UInt8) (address : Nat)
    (commands : List Command) : Prop :=
  ∀ (table : List UInt32) (background : Pixels), table.length = bmp.colours →
    let image := { bmp with colourTable := table, bitmap := some background }
    let src : Source := ⟨front ++ stream commands tail, address⟩
    (∃ pixels, decodeRle src callbacks format image front.length (stream commands tail).length =
        .ok { image with decoded := true, bitmap := some pixels } ∧
      Shown image background (commands.foldl (Canvas.after format) {}) pixels) ∧
    Follows src image format background ⟨front.length, 0, 0, 0, background⟩ {} commands

def RowPlaced (bmp : BmpImage) (y : Nat) : Prop :=
  4 * (bmp.width * y) / 2 ^ 32 = if bmp.reversed then 0 else 4 * bmp.width / 2 ^ 32 * (bmp.height - 1)

instance (bmp : BmpImage) (y : Nat) : Decidable (RowPlaced bmp y) := inferInstanceAs (Decidable (_ = _))

/-- A run is painted where it belongs: its row is, and the pixels that are left, as a 32-bit value, are enough. -/
def Placed (bmp : BmpImage) (c : Canvas) (n : Nat) : Prop :=
  RowPlaced bmp c.y ∧ n ≤ ((if bmp.reversed then bmp.height - c.y else c.y + 1) * bmp.width + (2 ^ 32 - c.x)) % 2 ^ 32

def Met (bmp : BmpImage) (format : RleFormat) (c : Canvas) : Command → Prop
  | .encoded count byte => (∀ k ∈ format.repeated byte, k < bmp.colours) ∧ Placed bmp c count.toNat
  | .absolute count _ => Placed bmp c count.toNat
  | .endOfLine => c.y = c.start ∧ c.y + 1 < bmp.height
  | .delta _ _ => True

def laid (pixels : Pixels) (q n : Nat) (colour : Nat → UInt32) : Pixels :=
  fun p => if q ≤ p ∧ p < q + n then colour (p - q) else pixels p

theorem laid_zero (pixels : Pixels) (q : Nat) (colour : Nat → UInt32) : laid pixels q 0 colour = pixels := by
  funext p
  exact if_neg fun both => by omega

theorem laid_succ (pixels : Pixels) (q n : Nat) (colour : Nat → UInt32) :
    Function.update (laid pixels q n colour) (q + n) (colour n) = laid pixels q (n + 1) colour := by
  funext p
  unfold laid
  by_cases last : p = q + n
  · rw [last, Function.update_self, if_pos (by omega), Nat.add_sub_cancel_left]
  · rw [Function.update_of_ne last]
    by_cases inside : q ≤ p ∧ p < q + n
    · rw [if_pos inside, if_pos (by omega)]
    · rw [if_neg inside, if_neg (by omega)]

/-- The pixel at which row `y` begins for the code. -/
def base (bmp : BmpImage) (y : Nat) : Nat := (scanline bmp bmp.reversed y / 4).toNat

section
variable {bmp : BmpImage} {x y : Nat}

theorem scanline_eq_base (sized : Sized bmp) (row : y < bmp.height) :
    scanline bmp bmp.reversed y = 4 * (base bmp y : Int) := by
  obtain ⟨above, word, -⟩ := inside_scanline sized bmp.reversed row sized.width_pos
  unfold base
  omega

theorem store_row (sized : Sized bmp) (row : y < bmp.height) (column : x < bmp.width) (pixels : Pixels) (colour : UInt32) :
    store bmp pixels (scanline bmp bmp.reversed y + 4 * x) colour =
      pure (Function.update pixels (base bmp y + x) colour) := by
  have start := scanline_eq_base sized row
  have here : ((scanline bmp bmp.reversed y + 4 * x) / 4).toNat = base bmp y + x := by omega
  rw [← here]
  exact if_pos (inside_scanline sized bmp.reversed row column)

theorem base_eq_iff (sized : Sized bmp) (row : y < bmp.height) : base bmp y = place bmp 0 y ↔ RowPlaced bmp y := by
  have start := scanline_eq_base sized row
  have offset : y * scanWidth bmp % 2 ^ 32 = 4 * (bmp.width * y) % 2 ^ 32 := by
    rw [scanWidth, Nat.mul_mod_mod, Nat.mul_left_comm, Nat.mul_comm y]
  have split := Nat.div_add_mod (4 * (bmp.width * y)) (2 ^ 32)
  unfold RowPlaced place
  cases reversed : bmp.reversed with
  | true =>
    simp only [reversed, scanline, if_true] at start ⊢
    rw [offset] at start
    rw [Nat.mul_comm y]
    omega
  | false =>
    have width := Nat.div_add_mod (4 * bmp.width) (2 ^ 32)
    have rows : (bmp.height - 1) * (4 * bmp.width) =
        2 ^ 32 * (4 * bmp.width / 2 ^ 32 * (bmp.height - 1)) + (bmp.height - 1) * scanWidth bmp := by
      conv_lhs => rw [← width]
      rw [Nat.mul_add, scanWidth, Nat.mul_left_comm, Nat.mul_comm (bmp.height - 1)]
    have above : (bmp.height - 1 - y) * bmp.width + bmp.width * y = (bmp.height - 1) * bmp.width := by
      rw [Nat.mul_comm bmp.width, ← Nat.add_mul]
      congr 1
      omega
    have times4 : (bmp.height - 1) * (4 * bmp.width) = 4 * ((bmp.height - 1) * bmp.width) := Nat.mul_left_comm _ _ _
    rw [reversed, scanline_false_eq sized row, offset] at start
    simp only [Bool.false_eq_true, if_false]
    omega

theorem place_eq_iff {x' y' : Nat} (column : x < bmp.width) (column' : x' < bmp.width) (row : y < bmp.height)
    (row' : y' < bmp.height) : place bmp x y = place bmp x' y' ↔ x = x' ∧ y = y' := by
  have cancel {a b : Nat} (same : a * bmp.width + x = b * bmp.width + x') : a = b ∧ x = x' := by
    have columns := congrArg (· % bmp.width) same
    simp only [Nat.mul_add_mod_self_right, Nat.mod_eq_of_lt column, Nat.mod_eq_of_lt column'] at columns
    rw [columns] at same
    exact ⟨Nat.eq_of_mul_eq_mul_right (Nat.zero_lt_of_lt column) (Nat.add_right_cancel same), columns⟩
  refine ⟨fun same => ?_, fun ⟨columns, rows⟩ => by rw [columns, rows]⟩
  obtain ⟨rows, columns⟩ := cancel same
  refine ⟨columns, ?_⟩
  split at rows <;> omega

end

theorem times_pure {σ : Type} (body : Nat → σ → Run σ) (f : Nat → σ) {k n : Nat}
    (step : ∀ i, k ≤ i → i < k + n → body i (f i) = pure (f (i + 1))) : times body k n (f k) = pure (f (k + n)) := by
  induction n generalizing k with
  | zero => rfl
  | succ n ih =>
    rw [times, step k (Nat.le_refl k) (by omega), pure_bind, ih fun i lower upper => step i (by omega) (by omega)]
    congr 2
    omega

/-- The decoder after `n` pixels of a run. -/
def painted (bmp : BmpImage) (s : Rle) (n : Nat) (index : Nat → Nat) (data : Nat) : Rle :=
  { s with
    data
    x := s.x + n
    pixels := laid s.pixels (base bmp s.y + s.x) n fun i => bmp.colourTable.getD (index i) 0 }

section
variable {src : Source} {bmp : BmpImage} {format : RleFormat} {s : Rle} {n : Nat} {index : Nat → Nat}

theorem painted_zero (data : Nat) : painted bmp s 0 index data = { s with data } := by
  simp [painted, laid_zero]

theorem sound_of (formats : format = rle8 ∨ format = rle4) : format.Sound := by
  rcases formats with rfl | rfl
  · exact rle8_sound
  · exact rle4_sound

variable {m d : Nat} {l more : List UInt8} {count : UInt8}

theorem escaped_mono (sound : format.Sound) (le : m ≤ n) : format.escaped m ≤ format.escaped n := by
  rw [sound.escaped, sound.escaped]
  exact Nat.div_le_div_right (by omega)

theorem colourAt_eq {k : Nat} (within : k < bmp.colourTable.length) : colourAt bmp k = pure (bmp.colourTable.getD k 0) := by
  rw [colourAt, List.getElem?_eq_getElem within, getD_eq_getElem _ _ within]

theorem repeatedPixels_eq (sized : Sized bmp) (row : s.y < bmp.height) (fits : s.x + n ≤ bmp.width) {colours : List UInt32}
    (same : ∀ i, colours.getD (i % colours.length) 0 = bmp.colourTable.getD (index i) 0) :
    repeatedPixels bmp colours n s = pure (painted bmp s n index s.data) := by
  have run := times_pure (repeatedPixel bmp colours) (fun i => (painted bmp s i index s.data, scanline bmp bmp.reversed s.y))
    (k := 0) (n := n) fun i _ lt => by
      rw [repeatedPixel, painted, nextPlace, if_neg (by dsimp only; omega), pure_bind]
      dsimp only
      rw [store_row sized row (by omega), pure_bind, same, ← Nat.add_assoc (base bmp s.y),
        laid_succ _ _ _ fun i => bmp.colourTable.getD (index i) 0]
      rfl
  rw [painted_zero, Nat.zero_add] at run
  rw [repeatedPixels, run, pure_bind]

theorem escapedByte_eq (src : Source) (sound : format.Sound) (data i : Nat)
    (within : data + format.escaped (i + 1) ≤ src.bytes.length) :
    escapedByte src format i (data + format.escaped i) (if i = 0 then 0 else src.byteAt (data + (i - 1) / format.perByte)) =
      pure (data + format.escaped (i + 1), src.byteAt (data + i / format.perByte)) := by
  rw [sound.escaped_succ] at within ⊢
  rw [escapedByte, sound.escaped_eq]
  by_cases first : i % format.perByte = 0
  · rw [if_pos first, if_pos first, read_eq (by omega), pure_bind]
    rfl
  · have later : i ≠ 0 := fun zero => first (by rw [zero, Nat.zero_mod])
    have same : (i - 1) / format.perByte = i / format.perByte := by
      rcases sound.perByte with one | two
      · rw [one, Nat.mod_one] at first
        exact absurd rfl first
      · rw [two] at first ⊢
        omega
    rw [if_neg first, if_neg first, if_neg later, same]

theorem escapedPixels_eq (sized : Sized bmp) (table : bmp.colourTable.length = bmp.colours) (sound : format.Sound)
    (row : s.y < bmp.height) (fits : s.x + n ≤ bmp.width) (within : s.data + format.escaped n ≤ src.bytes.length)
    (same : ∀ i < n, indexAt src format s.data i = index i) (few : ∀ i < n, index i < bmp.colours) :
    escapedPixels src bmp format n s = pure (painted bmp s n index (s.data + format.escaped n)) := by
  have run := times_pure (escapedPixel src bmp format) (fun i => (painted bmp s i index (s.data + format.escaped i),
    scanline bmp bmp.reversed s.y, if i = 0 then 0 else src.byteAt (s.data + (i - 1) / format.perByte)))
    (k := 0) (n := n) fun i _ lt => by
      have more := escaped_mono sound (show i + 1 ≤ n by omega)
      have read := escapedByte_eq src sound s.data i (by omega)
      have next : nextPlace bmp (s.x + i) s.y (scanline bmp bmp.reversed s.y) =
          pure (s.x + i, s.y, scanline bmp bmp.reversed s.y) := if_neg (by omega)
      have here : format.index (src.byteAt (s.data + i / format.perByte)) i = index i := same i (by omega)
      have lt : index i < bmp.colours := few i (by omega)
      unfold escapedPixel painted
      cases format.readsFirst
      all_goals
        simp only [Bool.false_eq_true, if_false, if_true, read, next, pure_bind]
        rw [here, if_neg (Nat.not_le.mpr lt), colourAt_eq (by omega), pure_bind, store_row sized row (by omega), pure_bind,
          ← Nat.add_assoc (base bmp s.y), laid_succ _ _ _ fun i => bmp.colourTable.getD (index i) 0]
        rfl
  have none : format.escaped 0 = 0 := by simp [sound.escaped_eq]
  simp only [painted_zero, none, Nat.add_zero, Nat.zero_add, if_true] at run
  rw [escapedPixels, run, pure_bind]

theorem read_drop {i : Nat} {b : UInt8} (here : src.bytes.drop d = l) (found : l[i]? = some b) :
    src.read (d + i) = pure b := by
  rw [Source.read, ← List.getElem?_drop, here, found]

theorem length_drop (here : src.bytes.drop d = l) (some_ : l ≠ []) : d + l.length = src.bytes.length := by
  have length := congrArg List.length here
  have pos := length_pos_iff.mpr some_
  rw [List.length_drop] at length
  omega

theorem mapM_colourAt {ks : List Nat} (few : ∀ k ∈ ks, k < bmp.colourTable.length) :
    ks.mapM (colourAt bmp) = pure (ks.map fun k => bmp.colourTable.getD k 0) := by
  induction ks with
  | nil => rfl
  | cons k ks ih =>
    rw [mapM_cons, colourAt_eq (few k mem_cons_self), pure_bind, ih fun k' later => few k' (mem_cons_of_mem k later)]
    rfl

theorem repeated_getD (formats : format = rle8 ∨ format = rle4) (byte : UInt8) (g : Nat → UInt32) (i : Nat) :
    ((format.repeated byte).map g).getD (i % ((format.repeated byte).map g).length) 0 = g (format.index byte i) := by
  rcases formats with rfl | rfl
  · simp [rle8, Nat.mod_one]
  · rcases Nat.mod_two_eq_zero_or_one i with even | odd
    · simp [rle4, even]
    · simp [rle4, odd]

theorem padded_eq (formats : format = rle8 ∨ format = rle4) (n : Nat) :
    format.padded n = decide (format.escaped n % 2 = 1) := by
  rcases formats with rfl | rfl <;> rfl

/-- A round for a byte that is not zero. -/
theorem rleRound_encoded (formats : format = rle8 ∨ format = rle4) (sized : Sized bmp)
    (table : bmp.colourTable.length = bmp.colours) (row : s.y < bmp.height) {byte : UInt8}
    (here : src.bytes.drop s.data = count :: byte :: more) (nonzero : count ≠ 0)
    (fits : s.x + count.toNat ≤ bmp.width) :
    rleRound src bmp format src.bytes.length s = if ∀ k ∈ format.repeated byte, k < bmp.colours then
      pure (some (painted bmp s (min count.toNat (pixelsLeft bmp s)) (format.index byte) (s.data + 2)))
    else result .dataError := by
  have length := length_drop here (cons_ne_nil _ _)
  rw [length_cons, length_cons] at length
  have first : src.read s.data = pure count := read_drop (i := 0) here rfl
  have second : src.read (s.data + 1) = pure byte := read_drop here rfl
  have left : pixelsLeft bmp { s with data := s.data + 1 } = pixelsLeft bmp s := rfl
  rw [rleRound, if_neg (by omega), first, pure_bind, if_neg nonzero, repeatedRun, left, if_neg (by dsimp only; omega)]
  dsimp only
  rw [second, pure_bind]
  by_cases few : ∀ k ∈ format.repeated byte, k < bmp.colours
  · rw [if_pos few, if_neg (by simpa using few), mapM_colourAt (table.symm ▸ few), pure_bind,
      repeatedPixels_eq (s := { s with data := s.data + 2 }) sized row (by dsimp only; omega)
        (repeated_getD formats byte fun k => bmp.colourTable.getD k 0)]
    rfl
  · rw [if_neg few, if_pos (by simpa using few)]
    rfl

/-- A round for a byte that is zero and the one behind it. -/
theorem rleRound_escape {second : UInt8} (here : src.bytes.drop s.data = 0 :: second :: more) :
    rleRound src bmp format src.bytes.length s =
      if second = 0 then some <$> endLine bmp { s with data := s.data + 2 }
      else if second = 1 then pure none
      else if second = 2 then some <$> moveCursor src bmp src.bytes.length { s with data := s.data + 2 }
      else some <$> escapedRun src bmp format src.bytes.length second.toNat { s with data := s.data + 2 } := by
  have length := length_drop here (cons_ne_nil _ _)
  rw [length_cons, length_cons] at length
  rw [rleRound, if_neg (by omega), show src.read s.data = pure 0 from read_drop (i := 0) here rfl, pure_bind, if_pos rfl,
    show src.read (s.data + 1) = pure second from read_drop here rfl, pure_bind]

theorem rleRound_absolute (formats : format = rle8 ∨ format = rle4) (sized : Sized bmp)
    (table : bmp.colourTable.length = bmp.colours) (row : s.y < bmp.height) {bytes : List UInt8}
    (here : src.bytes.drop s.data = 0 :: count :: (bytes ++ more)) (many : 3 ≤ count.toNat)
    (length : bytes.length = format.escaped count.toNat) (fits : s.x + count.toNat ≤ bmp.width)
    (few : ∀ i < count.toNat, pixelIndex format bytes i < bmp.colours) (most : m = min count.toNat (pixelsLeft bmp s)) :
    rleRound src bmp format src.bytes.length s =
      let t := painted bmp s m (pixelIndex format bytes) (s.data + 2 + format.escaped m)
      some <$> if format.padded m then do
        let pad ← src.read t.data
        if pad ≠ 0 then result .dataError else pure { t with data := t.data + 1 }
      else pure t := by
  have sound := sound_of formats
  have whole := length_drop here (cons_ne_nil _ _)
  rw [length_cons, length_cons, length_append] at whole
  have behind : src.bytes.drop (s.data + 2) = bytes ++ more := by rw [← drop_drop, here]; rfl
  have large (small : UInt8) (lt : small.toNat < 3) : count ≠ small := fun same => by rw [same] at many; omega
  have le : m ≤ count.toNat := most ▸ Nat.min_le_left _ _
  have within := escaped_mono sound le
  have same (i : Nat) (lt : i < m) : indexAt src format (s.data + 2) i = pixelIndex format bytes i := by
    have inside := escaped_mono sound (show i + 1 ≤ count.toNat by omega)
    rw [sound.escaped_succ] at inside
    rw [indexAt, Source.byteAt, getD_eq_getElem?_getD, ← List.getElem?_drop, behind,
      List.getElem?_append_left (by omega), ← getD_eq_getElem?_getD, pixelIndex]
  have run := escapedPixels_eq (s := { s with data := s.data + 2 }) sized table sound row (by dsimp only; omega)
    (by dsimp only; omega) same fun i lt => few i (by omega)
  have left : pixelsLeft bmp { s with data := s.data + 2 } = pixelsLeft bmp s := rfl
  rw [rleRound_escape here, if_neg (large 0 (by decide)), if_neg (large 1 (by decide)), if_neg (large 2 (by decide)),
    escapedRun, left, ← most]
  dsimp only at run ⊢
  rw [if_neg (by omega), run, pure_bind]
  rfl

theorem pad_ok {t t' : Rle}
    (done : (if format.padded m then do let pad ← src.read t.data if pad ≠ 0 then result .dataError else pure { t with data := t.data + 1 } else pure t : Run Rle) = .ok t') :
    ∃ data', t' = { t with data := data' } := by
  split at done
  · obtain ⟨pad, -, rest⟩ := bind_ok_iff.mp done
    split at rest
    · cases rest
    · exact ⟨_, (Except.ok.inj rest).symm⟩
  · exact ⟨t.data, (Except.ok.inj done).symm⟩

theorem rleRound_delta {right up : UInt8} (here : src.bytes.drop s.data = 0 :: 2 :: right :: up :: more)
    (column : s.x + right.toNat < bmp.width) (row : s.y + up.toNat < bmp.height) :
    rleRound src bmp format src.bytes.length s =
      pure (some { s with data := s.data + 4, x := s.x + right.toNat, y := s.y + up.toNat }) := by
  have length := length_drop here (cons_ne_nil _ _)
  simp only [length_cons] at length
  rw [rleRound_escape here, if_neg (by decide), if_neg (by decide), if_pos rfl, moveCursor, if_neg (by dsimp only; omega)]
  dsimp only
  rw [show src.read (s.data + 2) = pure right from read_drop here rfl, pure_bind, if_neg (Nat.not_le.mpr column),
    show src.read (s.data + 2 + 1) = pure up from read_drop (i := 3) here rfl, pure_bind, if_neg (Nat.not_le.mpr row)]
  rfl

section
variable {background : Pixels} {c : Canvas} {data : Nat}

/-- A run whose row is placed right paints what it means. -/
theorem at_painted (here : At bmp background c s) (fits : FitsRow bmp c n index) (placed : RowPlaced bmp c.y)
    (sized : Sized bmp) : At bmp background (c.paint n index) (painted bmp s n index data) := by
  obtain ⟨columns, rows, shown⟩ := here
  obtain ⟨width, height, -⟩ := fits
  refine ⟨congrArg (· + n) columns, rows, fun x column y row => ?_⟩
  have start (x y : Nat) : place bmp x y = place bmp 0 y + x := rfl
  rw [painted, rows, columns, (base_eq_iff sized height).mpr placed, ← start]
  dsimp only [laid, Canvas.paint]
  by_cases inside : y = c.y ∧ c.x ≤ x ∧ x < c.x + n
  · obtain ⟨rfl, lower, upper⟩ := inside
    have offset : place bmp x c.y - place bmp c.x c.y = x - c.x := by rw [start x, start c.x]; omega
    rw [if_pos (by rw [start x, start c.x]; omega), if_pos ⟨rfl, lower, upper⟩, offset]
  · rw [if_neg inside, if_neg, shown x column y row]
    rintro ⟨lower, upper⟩
    have same : place bmp x y = place bmp (c.x + (place bmp x y - place bmp c.x c.y)) c.y := by
      rw [start (c.x + _), ← Nat.add_assoc, ← start]
      omega
    obtain ⟨columns, rows⟩ := (place_eq_iff column (by omega) row height).mp same
    exact inside ⟨rows, by omega, by omega⟩

/-- What comes behind the cursor is not painted yet. -/
def Fresh (c : Canvas) : Prop := ∀ x y, c.y < y ∨ c.y = y ∧ c.x ≤ x → c.picture x y = none

theorem Fresh.paint (fresh : Fresh c) : Fresh (c.paint n index) := by
  intro x y later
  dsimp only [Canvas.paint] at later ⊢
  rw [if_neg (by omega)]
  exact fresh x y (by omega)

theorem Fresh.after (fresh : Fresh c) (command : Command) : Fresh (c.after format command) := by
  cases command with
  | encoded count byte => exact fresh.paint
  | absolute count bytes => exact fresh.paint
  | endOfLine => exact fun x y later => fresh x y (by dsimp only [Canvas.after] at later; omega)
  | delta right up => exact fun x y later => fresh x y (by dsimp only [Canvas.after] at later; omega)

/-- A run that paints what it means has its row placed right: else its first or its last pixel keeps the background. -/
theorem placed_of_at (sized : Sized bmp) (plain : bmp.colourTable = List.replicate bmp.colours 1) (fresh : Fresh c)
    (here : At bmp (fun _ => 0) c s) (fits : FitsRow bmp c n index) (some_ : 0 < n)
    (here' : At bmp (fun _ => 0) (c.paint n index) (painted bmp s n index data)) : RowPlaced bmp c.y := by
  obtain ⟨columns, rows, shown⟩ := here
  obtain ⟨width, height, few⟩ := fits
  refine (base_eq_iff sized height).mp (Classical.not_not.mp fun wrong => ?_)
  obtain ⟨x, lower, upper, out⟩ : ∃ x, c.x ≤ x ∧ x < c.x + n ∧
      ¬ (base bmp c.y + c.x ≤ place bmp x c.y ∧ place bmp x c.y < base bmp c.y + c.x + n) := by
    have start (x : Nat) : place bmp x c.y = place bmp 0 c.y + x := rfl
    rcases Nat.lt_or_gt_of_ne wrong with before | behind
    · exact ⟨c.x + n - 1, by omega, by omega, by rw [start]; omega⟩
    · exact ⟨c.x, by omega, by omega, by rw [start]; omega⟩
  have old := shown x (by omega) c.y height
  have new := here'.2.2 x (by omega) c.y height
  have coloured := few (x - c.x) (by omega)
  rw [fresh x c.y (.inr ⟨rfl, lower⟩)] at old
  rw [painted, rows, columns] at new
  dsimp only [laid, Canvas.paint] at new
  rw [if_neg out, old, plain] at new
  simp [lower, upper, coloured] at new

/-- The decoder is where the canvas is, with so much of the data left. -/
structure Standing (src : Source) (bmp : BmpImage) (background : Pixels) (c : Canvas) (rest : List UInt8) (s : Rle) :
    Prop where
  here : At bmp background c s
  start : s.lastY = c.start
  data : src.bytes.drop s.data = rest

theorem pixelsLeft_eq (here : At bmp background c s) : pixelsLeft bmp s =
    ((if bmp.reversed then bmp.height - c.y else c.y + 1) * bmp.width + (2 ^ 32 - c.x)) % 2 ^ 32 := by
  rw [pixelsLeft, here.1, here.2.1]
  split <;> rfl

theorem absolute_text {count : UInt8} {bytes rest : List UInt8} : (Command.absolute count bytes).text ++ rest =
    0 :: count :: (bytes ++ ((if bytes.length % 2 = 1 then [0] else []) ++ rest)) := by
  rw [Command.text, cons_append, cons_append, append_assoc]

variable {rest : List UInt8} {command : Command}

theorem step_of_met (formats : format = rle8 ∨ format = rle4) (sized : Sized bmp)
    (table : bmp.colourTable.length = bmp.colours)
    (standing : Standing src bmp background c (command.text ++ rest) s) (valid : Valid bmp format c command)
    (met : Met bmp format c command) : ∃ s', rleRound src bmp format src.bytes.length s = .ok (some s') ∧
      Standing src bmp background (c.after format command) rest s' := by
  obtain ⟨here, start, data⟩ := standing
  have ⟨x, y, shown⟩ := here
  have drop (k : Nat) : src.bytes.drop (s.data + k) = (command.text ++ rest).drop k := by rw [← drop_drop, data]
  cases command with
  | encoded count byte =>
    obtain ⟨nonzero, fits⟩ := valid
    obtain ⟨few, placed, room⟩ := met
    rw [← pixelsLeft_eq here] at room
    refine ⟨_, (rleRound_encoded formats sized table (y ▸ fits.2.1) data nonzero (x ▸ fits.1)).trans (if_pos few), ?_⟩
    rw [Nat.min_eq_left room]
    exact ⟨at_painted here fits placed sized, start, drop 2⟩
  | absolute count bytes =>
    obtain ⟨many, length, fits⟩ := valid
    obtain ⟨placed, room⟩ := met
    rw [← pixelsLeft_eq here] at room
    rw [absolute_text] at data drop
    have round := rleRound_absolute formats sized table (y ▸ fits.2.1) data many length (x ▸ fits.1) fits.2.2
      (Nat.min_eq_left room).symm
    have after (data : Nat) : At bmp background _ (painted bmp s _ _ data) := at_painted here fits placed sized
    have behind : src.bytes.drop (s.data + 2 + bytes.length) = (if bytes.length % 2 = 1 then [0] else []) ++ rest := by
      rw [← drop_drop, drop]
      exact drop_left
    rw [padded_eq formats, ← length] at round
    by_cases odd : bytes.length % 2 = 1
    · rw [if_pos odd] at behind
      have pad : src.read (s.data + 2 + bytes.length) = pure 0 := read_drop (i := 0) behind rfl
      simp only [odd, decide_true, if_true, painted, pad, pure_bind, ne_eq, not_true, if_false] at round
      exact ⟨_, round, after _, start, by rw [← drop_drop, behind]; rfl⟩
    · rw [if_neg odd] at behind
      simp only [odd, decide_false, Bool.false_eq_true, if_false] at round
      exact ⟨_, round, after _, start, behind⟩
  | endOfLine =>
    obtain ⟨first, left⟩ := met
    rw [rleRound_escape data, if_pos rfl, endLine, if_pos (start.trans (first.symm.trans y.symm)),
      if_neg (by dsimp only; omega)]
    exact ⟨_, rfl, ⟨rfl, congrArg (· + 1) y, shown⟩, congrArg (· + 1) y, drop 2⟩
  | delta right up =>
    exact ⟨_, rleRound_delta data (x ▸ valid.1) (y ▸ valid.2), ⟨congrArg (· + right.toNat) x, congrArg (· + up.toNat) y, shown⟩,
      start, drop 4⟩

theorem met_of_step (formats : format = rle8 ∨ format = rle4) (sized : Sized bmp)
    (plain : bmp.colourTable = List.replicate bmp.colours 1) (fresh : Fresh c)
    (standing : Standing src bmp (fun _ => 0) c (command.text ++ rest) s) (valid : Valid bmp format c command) {s' : Rle}
    (round : rleRound src bmp format src.bytes.length s = .ok (some s'))
    (here' : At bmp (fun _ => 0) (c.after format command) s') : Met bmp format c command := by
  obtain ⟨here, start, data⟩ := standing
  have table : bmp.colourTable.length = bmp.colours := by rw [plain, length_replicate]
  have ⟨x, y, _⟩ := here
  cases command with
  | encoded count byte =>
    obtain ⟨nonzero, fits⟩ := valid
    rw [rleRound_encoded formats sized table (y ▸ fits.2.1) data nonzero (x ▸ fits.1)] at round
    split at round
    next few =>
      obtain rfl := Option.some.inj (Except.ok.inj round)
      have room : min count.toNat (pixelsLeft bmp s) = count.toNat := Nat.add_left_cancel (here'.1.trans (x ▸ rfl))
      rw [room] at here'
      refine ⟨few, placed_of_at sized plain fresh here fits
        (Nat.pos_of_ne_zero fun zero => nonzero (UInt8.toNat_inj.mp zero)) here', ?_⟩
      rw [← pixelsLeft_eq here]
      omega
    next => cases round
  | absolute count bytes =>
    obtain ⟨many, length, fits⟩ := valid
    rw [absolute_text] at data
    rw [rleRound_absolute formats sized table (y ▸ fits.2.1) data many length (x ▸ fits.1) fits.2.2 rfl] at round
    dsimp only at round
    rw [map_eq_pure_bind] at round
    obtain ⟨t, padded, same⟩ := bind_ok_iff.mp round
    obtain rfl := Option.some.inj (Except.ok.inj same)
    obtain ⟨data', rfl⟩ := pad_ok padded
    have room : min count.toNat (pixelsLeft bmp s) = count.toNat := Nat.add_left_cancel (here'.1.trans (x ▸ rfl))
    rw [room] at here'
    refine ⟨placed_of_at sized plain fresh here fits (by omega) (here' : At _ _ _ (painted _ _ _ _ data')), ?_⟩
    rw [← pixelsLeft_eq here]
    omega
  | endOfLine =>
    rw [rleRound_escape data, if_pos rfl, endLine] at round
    split at round
    next first =>
      split at round
      next => cases round
      next left => exact ⟨(y.symm.trans first.symm).trans start, by rw [← y]; exact Nat.not_le.mp left⟩
    next =>
      obtain rfl := Option.some.inj (Except.ok.inj round)
      exact absurd (y.symm.trans here'.2.1) (Nat.ne_of_lt (Nat.lt_succ_self _))
  | delta right up => trivial

variable {commands : List Command} {tail : List UInt8}

theorem stream_cons : stream (command :: commands) tail = command.text ++ stream commands tail := by
  rw [stream, flatMap_cons, append_assoc]
  rfl

theorem stream_ne_nil (commands : List Command) (tail : List UInt8) : stream commands tail ≠ [] := by simp [stream]

theorem follows_of_met (formats : format = rle8 ∨ format = rle4) (sized : Sized bmp)
    (table : bmp.colourTable.length = bmp.colours) (standing : Standing src bmp background c (stream commands tail) s)
    (valid : Along format (Valid bmp format) c commands) (met : Along format (Met bmp format) c commands) :
    Follows src bmp format background s c commands ∧ ∀ fuel, commands.length < fuel → ∃ pixels,
      rleLoop src bmp format src.bytes.length fuel s = .ok pixels ∧
        Shown bmp background (commands.foldl (Canvas.after format) c) pixels := by
  induction commands generalizing c s with
  | nil =>
    refine ⟨trivial, fun fuel enough => ?_⟩
    obtain ⟨fuel, rfl⟩ : ∃ k, fuel = k + 1 := ⟨fuel - 1, by omega⟩
    have data : src.bytes.drop s.data = 0 :: 1 :: tail := standing.data
    exact ⟨s.pixels, by rw [rleLoop, rleRound_escape data]; rfl, standing.here.2.2⟩
  | cons command commands ih =>
    rw [stream_cons] at standing
    obtain ⟨s', round, standing'⟩ := step_of_met formats sized table standing valid.1 met.1
    obtain ⟨follows, loops⟩ := ih standing' valid.2 met.2
    refine ⟨⟨s', round, standing'.here, follows⟩, fun fuel enough => ?_⟩
    obtain ⟨fuel, rfl⟩ : ∃ k, fuel = k + 1 := ⟨fuel - 1, by omega⟩
    obtain ⟨pixels, loop, shown⟩ := loops fuel (by rw [length_cons] at enough; omega)
    have more := length_drop standing'.data (stream_ne_nil _ _)
    have some_ := length_pos_iff.mpr (stream_ne_nil commands tail)
    refine ⟨pixels, ?_, shown⟩
    rw [rleLoop, round]
    exact (if_pos (by omega)).trans loop

theorem met_of_follows (formats : format = rle8 ∨ format = rle4) (sized : Sized bmp)
    (plain : bmp.colourTable = List.replicate bmp.colours 1) (fresh : Fresh c)
    (standing : Standing src bmp (fun _ => 0) c (stream commands tail) s)
    (valid : Along format (Valid bmp format) c commands) (follows : Follows src bmp format (fun _ => 0) s c commands) :
    Along format (Met bmp format) c commands := by
  induction commands generalizing c s with
  | nil => trivial
  | cons command commands ih =>
    rw [stream_cons] at standing
    obtain ⟨s', round, here, follows⟩ := follows
    have met := met_of_step formats sized plain fresh standing valid.1 round here
    obtain ⟨s'', round', standing'⟩ := step_of_met formats sized (by rw [plain, length_replicate]) standing valid.1 met
    obtain rfl := Option.some.inj (Except.ok.inj (round.symm.trans round'))
    exact ⟨met, ih (fresh.after command) standing' valid.2 follows⟩

theorem length_le_stream (commands : List Command) (tail : List UInt8) :
    commands.length < (stream commands tail).length := by
  induction commands with
  | nil => simp [stream]
  | cons command commands ih =>
    have some_ : 0 < command.text.length := by cases command <;> simp [Command.text]
    rw [stream_cons, length_cons, length_append]
    omega

end

end

section
variable {bmp : BmpImage} {format : RleFormat} {callbacks : Callbacks} {front tail : List UInt8} {address : Nat}
  {commands : List Command}

theorem standing_start (front tail : List UInt8) (address : Nat) (commands : List Command)
    {image : BmpImage} (background : Pixels) :
    Standing ⟨front ++ stream commands tail, address⟩ image background {}
    (stream commands tail) ⟨front.length, 0, 0, 0, background⟩ :=
  ⟨⟨rfl, rfl, fun _ _ _ _ => rfl⟩, rfl, drop_left⟩

theorem met_of_decodes (formats : format = rle8 ∨ format = rle4) (sized : Sized bmp)
    (valid : Along format (Valid bmp format) {} commands)
    (decodes : Decodes bmp format callbacks front tail address commands) : Along format (Met bmp format) {} commands := by
  have image : Sized { bmp with colourTable := List.replicate bmp.colours 1, bitmap := some fun _ => 0 } :=
    ⟨sized.width_pos, sized.width_lt, sized.height_pos, sized.height_lt, sized.icon⟩
  have follows := (decodes (List.replicate bmp.colours 1) (fun _ => 0) (length_replicate ..)).2
  have met := met_of_follows formats image rfl (fun _ _ _ => rfl) (standing_start _ _ _ _ _) valid follows
  exact met

/-- A stream whose runs stay inside their rows and whose cursor stays inside the image is decoded to the picture that
it encodes exactly if no end of line comes behind a move out of its row or ends the last row, the bytes that are
repeated have colours only, and the offsets of its runs are right as 32-bit values. -/
theorem rle_decodes_iff (formats : format = rle8 ∨ format = rle4) (sized : Sized bmp) (plain : bmp.ico = false)
    (buffer : callbacks.bitmapGetBuffer = true) (valid : Along format (Valid bmp format) {} commands) :
    Decodes bmp format callbacks front tail address commands ↔ Along format (Met bmp format) {} commands := by
  refine ⟨met_of_decodes formats sized valid, fun met table background length => ?_⟩
  have image : Sized { bmp with colourTable := table, bitmap := some background } :=
    ⟨sized.width_pos, sized.width_lt, sized.height_pos, sized.height_lt, sized.icon⟩
  obtain ⟨follows, loops⟩ := follows_of_met formats image length
    (standing_start front tail address commands background) valid met
  have rounds := length_le_stream commands tail
  obtain ⟨pixels, loop, shown⟩ := loops ((front ++ stream commands tail).length + 1) (by rw [length_append]; omega)
  refine ⟨⟨pixels, ?_, shown⟩, follows⟩
  have stop : (front.length + (stream commands tail).length : Int) = (front ++ stream commands tail).length := by simp
  rw [decodeRle, if_neg (by simp [plain]), stop]
  simp only [getBuffer, buffer, if_true, pure_bind, loop]
  rfl

end

def sampleImage : BmpImage := { width := 2, height := 3, colours := 2, bpp := 8, encoding := .rle8 }

theorem sized_sample : Sized sampleImage :=
  ⟨by decide, by decide, fun _ => by decide, by decide, fun icon => by cases icon⟩

def sampleCallbacks : Callbacks := ⟨fun _ _ _ => none, true, fun _ => true, fun _ => true⟩

/-- Two pixels, the end of their line, and one pixel in the row above. -/
theorem two_rows_decoded :
    Decodes sampleImage rle8 sampleCallbacks [] [] 0 [.encoded 2 1, .endOfLine, .encoded 1 0] := by
  refine (rle_decodes_iff (.inl rfl) sized_sample rfl rfl ?_).mpr ?_
  · exact ⟨⟨by decide, by decide, by decide, fun _ _ => Nat.one_lt_two⟩, (by decide : 0 < 3),
      ⟨by decide, by decide, by decide, fun _ _ => Nat.two_pos⟩, trivial⟩
  · exact ⟨⟨by decide, by decide, by decide⟩, ⟨rfl, by decide⟩, ⟨by decide, by decide, by decide⟩, trivial⟩

/-- An end of line behind a move to the next row does not move on, and so the pixel behind it is painted a row too low. -/
theorem line_end_lost :
    Along rle8 (Valid sampleImage rle8) {} [.delta 0 1, .endOfLine, .encoded 1 1] ∧
      ¬ Decodes sampleImage rle8 sampleCallbacks [] [] 0 [.delta 0 1, .endOfLine, .encoded 1 1] := by
  have valid : Along rle8 (Valid sampleImage rle8) {} [.delta 0 1, .endOfLine, .encoded 1 1] :=
    ⟨⟨by decide, by decide⟩, (by decide : 1 < 3), ⟨by decide, by decide, by decide, fun _ _ => Nat.one_lt_two⟩, trivial⟩
  exact ⟨valid, fun decodes => absurd (met_of_decodes (.inl rfl) sized_sample valid decodes).2.1.1 (by decide)⟩

end Besra.Bmp
