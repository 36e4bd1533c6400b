import Besra.LowBits
import Mathlib.Data.List.Flatten

/-!
What a string of bits stands for by the rules of LZW as GIF has it: a dictionary that
starts with one value for each low code, gets a word with each code but the first after
a clear code, and is full at 4096.
-/
namespace Besra.LzwText
open LowBits List

structure Text where
  words : List (List UInt8) := []
  prev : Option (List UInt8) := none
deriving DecidableEq

def nextCode (minimum : Nat) (words : List (List UInt8)) : Nat := 2 ^ minimum + 2 + words.length

/-- Codes have as many bits as the next code to get a word, but not more than 12. -/
def width (minimum : Nat) (words : List (List UInt8)) : Nat := min 12 ((nextCode minimum words).log2 + 1)

/-- What a code stands for; a value is written as a byte. -/
def meaning (minimum : Nat) (words : List (List UInt8)) (code : Nat) : Option (List UInt8) :=
  if code < 2 ^ minimum then some [UInt8.ofNat code]
  else if code < 2 ^ minimum + 2 then none
  else words[code - (2 ^ minimum + 2)]?

def extend (minimum : Nat) (words : List (List UInt8)) (word : List UInt8) : List (List UInt8) :=
  if nextCode minimum words < 4096 then words ++ [word] else words

/-- The word of a code that is no clear code, and the text after it; none for the end code and for a code without word.
The next code to get a word stands for the word before and the first value of it. -/
def next (minimum : Nat) (text : Text) (code : Nat) : Option (List UInt8 × Text) :=
  match text.prev with
  | none => (meaning minimum text.words code).map (fun word => (word, { text with prev := some word }))
  | some prev =>
    match meaning minimum text.words code with
    | some word => some (word, { words := extend minimum text.words (prev ++ word.take 1), prev := some word })
    | none =>
      if code = nextCode minimum text.words ∧ code < 4096 then
        some (prev ++ prev.take 1, { words := text.words ++ [prev ++ prev.take 1], prev := some (prev ++ prev.take 1) })
      else none

/-- The words of the codes in a string of bits, each with the bits after it, up to the first end code, code without word
or end of the string. -/
def wordsIn (minimum : Nat) : Nat → List Bool → Text → List (List UInt8 × List Bool)
  | 0, _, _ => []
  | fuel + 1, bits, text =>
    let size := width minimum text.words
    if size ≤ bits.length then
      let code := value (bits.take size)
      let rest := bits.drop size
      if code = 2 ^ minimum then wordsIn minimum fuel rest {}
      else match next minimum text code with
        | none => []
        | some (word, text) => (word, rest) :: wordsIn minimum fuel rest text
    else []

/-- The words of a string from its start. -/
def readWords (minimum : Nat) (bits : List Bool) : List (List UInt8 × List Bool) := wordsIn minimum bits.length bits {}

def expansion (minimum : Nat) (bits : List Bool) : List UInt8 := (readWords minimum bits).flatMap Prod.fst

def expandInside (minimum : Nat) : Nat → List Bool → Text → List UInt8
  | 0, _, _ => []
  | fuel + 1, bits, text =>
    let size := width minimum text.words
    if size < bits.length then
      let code := value (bits.take size)
      let rest := bits.drop size
      if code = 2 ^ minimum then expandInside minimum fuel rest {}
      else match next minimum text code with
        | none => []
        | some (word, text) => word ++ expandInside minimum fuel rest text
    else []

theorem width_pos (minimum : Nat) (words : List (List UInt8)) : 0 < width minimum words := by
  unfold width
  omega

theorem wordsIn_nil (minimum fuel : Nat) (text : Text) : wordsIn minimum fuel [] text = [] := by
  rcases fuel with _ | fuel
  · rfl
  · have := width_pos minimum text.words
    unfold wordsIn
    dsimp only
    rw [if_neg (by simp only [length_nil]; omega)]

theorem expandInside_nil (minimum fuel : Nat) (text : Text) : expandInside minimum fuel [] text = [] := by
  rcases fuel with _ | fuel
  · rfl
  · unfold expandInside
    dsimp only
    rw [if_neg (by simp)]

theorem expandInside_eq (minimum fuel : Nat) (bits : List Bool) (text : Text) :
    expandInside minimum fuel bits text =
      ((wordsIn minimum fuel bits text).filter (fun word => !word.2.isEmpty)).flatMap Prod.fst := by
  induction fuel generalizing bits text with
  | zero => rfl
  | succ fuel ih =>
    unfold expandInside wordsIn
    dsimp only
    rcases Nat.lt_trichotomy (width minimum text.words) bits.length with inside | last | short
    · have rest : (bits.drop (width minimum text.words)).isEmpty = false := by
        rw [isEmpty_eq_false_iff]
        intro none
        have := congrArg List.length none
        rw [length_drop, length_nil] at this
        omega
      rw [if_pos inside, if_pos (Nat.le_of_lt inside)]
      split
      · exact ih _ _
      · split
        · rfl
        next word text' _ =>
          rw [ih, filter_cons_of_pos (by simp [rest]), flatMap_cons]
    · have rest : bits.drop (width minimum text.words) = [] := by
        rw [last]
        exact drop_length
      rw [if_neg (Nat.not_lt.mpr (Nat.le_of_eq last.symm)), if_pos (Nat.le_of_eq last), rest]
      simp only [wordsIn_nil]
      split
      · rfl
      · split <;> rfl
    · rw [if_neg (Nat.not_lt.mpr (Nat.le_of_lt short)), if_neg (Nat.not_le.mpr short)]
      rfl

variable {fuel minimum code : Nat} {text : Text} {word : List UInt8}

theorem expandInside_fuel (minimum : Nat) {fuel' : Nat} {bits : List Bool} (enough : bits.length ≤ fuel)
    (enough' : bits.length ≤ fuel') : expandInside minimum fuel bits text = expandInside minimum fuel' bits text := by
  induction fuel generalizing fuel' bits text with
  | zero =>
    rw [length_eq_zero_iff.mp (Nat.le_zero.mp enough), expandInside_nil, expandInside_nil]
  | succ fuel ih =>
    rcases fuel' with _ | fuel'
    · rw [length_eq_zero_iff.mp (Nat.le_zero.mp enough'), expandInside_nil, expandInside_nil]
    · have size := width_pos minimum text.words
      have shorter : (bits.drop (width minimum text.words)).length ≤ bits.length - 1 := by
        rw [length_drop]
        omega
      unfold expandInside
      dsimp only
      split
      · split
        · exact ih (by omega) (by omega)
        · split
          · rfl
          next word text' _ => rw [ih (by omega) (by omega : _ ≤ fuel')]
      · rfl

def insideFrom (minimum : Nat) (bits : List Bool) (text : Text) : List UInt8 :=
  expandInside minimum bits.length bits text

theorem insideFrom_eq (minimum : Nat) (bits : List Bool) (text : Text) :
    insideFrom minimum bits text =
      let size := width minimum text.words
      if size < bits.length then
        if value (bits.take size) = 2 ^ minimum then insideFrom minimum (bits.drop size) {}
        else match next minimum text (value (bits.take size)) with
          | none => []
          | some (word, text) => word ++ insideFrom minimum (bits.drop size) text
      else [] := by
  have size := width_pos minimum text.words
  have shorter : (bits.drop (width minimum text.words)).length ≤ bits.length := by
    rw [length_drop]
    omega
  unfold insideFrom
  rw [expandInside_fuel minimum (Nat.le_refl _) (Nat.le_succ _), expandInside]
  dsimp only
  split
  · split
    · exact expandInside_fuel minimum shorter (Nat.le_refl _)
    · split
      · rfl
      next word text' _ => rw [expandInside_fuel minimum shorter (Nat.le_refl _)]
  · rfl

structure Full (text : Text) : Prop where
  words : ∀ word ∈ text.words, word ≠ []
  prev : ∀ word, text.prev = some word → word ≠ []

theorem full_clear : Full {} := ⟨fun _ member => (nomatch member), fun _ is => (nomatch is)⟩

theorem meaning_full {words : List (List UInt8)} (full : ∀ word ∈ words, word ≠ [])
    (is : meaning minimum words code = some word) : word ≠ [] := by
  unfold meaning at is
  split at is
  · obtain rfl := Option.some_inj.mp is
    exact cons_ne_nil _ _
  · split at is
    · cases is
    · exact full word (mem_of_getElem? is)

theorem next_full {text' : Text} (full : Full text) (is : next minimum text code = some (word, text')) :
    word ≠ [] ∧ Full text' := by
  unfold next at is
  split at is
  · obtain ⟨word', meant, same⟩ := Option.map_eq_some_iff.mp is
    obtain ⟨rfl, rfl⟩ := Prod.mk.inj same
    have some := meaning_full full.words meant
    exact ⟨some, full.words, fun _ last => Option.some_inj.mp last ▸ some⟩
  next prev last =>
    have before := full.prev prev last
    split at is
    next word' meant =>
      obtain ⟨rfl, rfl⟩ := Prod.mk.inj (Option.some_inj.mp is)
      have some := meaning_full full.words meant
      refine ⟨some, fun w member => ?_, fun _ last => Option.some_inj.mp last ▸ some⟩
      unfold extend at member
      split at member
      · rcases mem_append.mp member with old | new
        · exact full.words w old
        · rw [mem_singleton.mp new]
          exact append_ne_nil_of_left_ne_nil before _
      · exact full.words w member
    · split at is
      · obtain ⟨rfl, rfl⟩ := Prod.mk.inj (Option.some_inj.mp is)
        have some : prev ++ prev.take 1 ≠ [] := append_ne_nil_of_left_ne_nil before _
        refine ⟨some, fun w member => ?_, fun _ last => Option.some_inj.mp last ▸ some⟩
        rcases mem_append.mp member with old | new
        · exact full.words w old
        · rw [mem_singleton.mp new]
          exact some
      · cases is

theorem wordsIn_full {bits : List Bool} (full : Full text) {word : List UInt8 × List Bool}
    (member : word ∈ wordsIn minimum fuel bits text) : word.1 ≠ [] := by
  induction fuel generalizing bits text with
  | zero => cases member
  | succ fuel ih =>
    unfold wordsIn at member
    dsimp only at member
    split at member
    · split at member
      · exact ih full_clear member
      · split at member
        · cases member
        next word' text' is =>
          obtain ⟨some, full'⟩ := next_full full is
          rcases mem_cons.mp member with rfl | later
          · exact some
          · exact ih full' later
    · cases member

theorem insideFrom_clear (minimum : Nat) (bits : List Bool) : insideFrom minimum bits {} =
    ((readWords minimum bits).filter (fun word => !word.2.isEmpty)).flatMap Prod.fst := expandInside_eq ..

theorem insideFrom_le (minimum : Nat) (bits : List Bool) :
    (insideFrom minimum bits {}).length ≤ (expansion minimum bits).length := by
  rw [insideFrom_clear]
  exact (filter_sublist.flatMap _).length_le

theorem insideFrom_less {bits : List Bool}
    (same : (insideFrom minimum bits {}).length = (expansion minimum bits).length) :
    ∀ word ∈ readWords minimum bits, word.2 ≠ [] := by
  have filled : ∀ word ∈ readWords minimum bits, word.1 ≠ [] := fun _ member => wordsIn_full full_clear member
  rw [insideFrom_clear] at same
  unfold expansion at same
  generalize readWords minimum bits = words at filled same
  induction words with
  | nil => exact fun _ member => (nomatch member)
  | cons word words ih =>
    have rest : ((words.filter (fun word => !word.2.isEmpty)).flatMap Prod.fst).length ≤ (words.flatMap Prod.fst).length :=
      (filter_sublist.flatMap _).length_le
    have here := length_pos_iff.mpr (filled word mem_cons_self)
    have later := ih (fun w member => filled w (mem_cons_of_mem _ member))
    rcases bits' : word.2 with _ | ⟨b, more⟩
    · rw [filter_cons_of_neg (by simp [bits']), flatMap_cons, length_append] at same
      omega
    · rw [filter_cons_of_pos (by simp [bits']), flatMap_cons, flatMap_cons, length_append, length_append] at same
      intro w member
      rcases mem_cons.mp member with rfl | later'
      · rw [bits']
        exact cons_ne_nil _ _
      · exact later (by omega) w later'

theorem insideFrom_all {bits : List Bool} (followed : ∀ word ∈ readWords minimum bits, word.2 ≠ []) :
    insideFrom minimum bits {} = expansion minimum bits := by
  rw [insideFrom_clear, filter_eq_self.mpr]
  · rfl
  · intro word member
    simp [followed word member]

end Besra.LzwText
