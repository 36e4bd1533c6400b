import Besra.Lzw
import Besra.LzwText
import Mathlib.Data.List.Induction

/-!
The table of the decoder against the words of a text: what an entry spells, how its values
are written, in one go or cut at the end of an output, and how the table grows.
-/
namespace Besra.LzwTable
open Lzw LzwText List

inductive Spells (minimum : Nat) (table : Nat → Entry) : Nat → List UInt8 → Prop
  | literal {code : Nat} (low : code < 2 ^ minimum) (value : (table code).value = UInt8.ofNat code)
      (first : (table code).first = UInt8.ofNat code) (count : (table code).count = 1) :
      Spells minimum table code [UInt8.ofNat code]
  | entry {code : Nat} {word : List UInt8} (extended : Spells minimum table (table code).extendsTo word)
      (lower : (table code).extendsTo < code) (first : word.head? = some (table code).first)
      (count : (table code).count = word.length + 1) : Spells minimum table code (word ++ [(table code).value])

variable {minimum : Nat} {table table' : Nat → Entry}

variable {code : Nat} {word values before : List UInt8} {ctx : Ctx} {text : Text}

theorem Spells.first_eq (spells : Spells minimum table code word) : word.head? = some (table code).first := by
  cases spells with
  | literal low value first count => rw [first]; rfl
  | entry extended lower first count => rw [List.head?_append, first]; rfl

theorem Spells.count_eq (spells : Spells minimum table code word) : (table code).count = word.length := by
  cases spells with
  | literal low value first count => exact count
  | entry extended lower first count => rw [count, length_append]; rfl

theorem Spells.ne_nil (spells : Spells minimum table code word) : word ≠ [] := by
  rintro rfl
  exact nomatch spells.first_eq

theorem Spells.congr (spells : Spells minimum table code word) (same : ∀ i ≤ code, table' i = table i) :
    Spells minimum table' code word := by
  induction spells with
  | @literal code low value first count =>
    have here := same code (Nat.le_refl _)
    exact .literal low (here ▸ value) (here ▸ first) (here ▸ count)
  | @entry code word extended lower first count ih =>
    have here := same code (Nat.le_refl _)
    have rest := ih (fun i low => same i (Nat.le_trans low (Nat.le_of_lt lower)))
    rw [← here] at rest lower first count ⊢
    exact .entry rest lower first count

theorem Spells.last {code : Nat} {word : List UInt8} {v : UInt8} (spells : Spells minimum table code (word ++ [v])) :
    (table code).value = v ∧ (word ≠ [] → Spells minimum table (table code).extendsTo word) := by
  generalize whole : word ++ [v] = w at spells
  cases spells with
  | literal low value first count =>
    have parts := append_inj' (whole.trans (nil_append _).symm) rfl
    exact ⟨value.trans (List.cons.inj parts.2).1.symm, fun some => absurd parts.1 some⟩
  | entry extended lower first count =>
    obtain ⟨rfl, same⟩ := append_inj' whole rfl
    exact ⟨(List.cons.inj same).1.symm, fun _ => extended⟩

theorem skipValues_spells {rest : List UInt8} (spells : Spells minimum table code (word ++ rest)) (some : word ≠ []) :
    Spells minimum table (skipValues table rest.length code) word := by
  induction rest using List.reverseRecOn generalizing code with
  | nil => exact append_nil word ▸ spells
  | append_singleton rest v ih =>
    rw [length_append, length_singleton, skipValues]
    rw [← append_assoc] at spells
    exact ih (spells.last.2 (by simp [some]))

variable {α : Type} {pixel : UInt8 → α → α}

theorem modify_between (left right : List α) (x : α) (f : α → α) :
    (left ++ x :: right).modify left.length f = left ++ f x :: right := by
  induction left with
  | nil => rfl
  | cons y left ih => rw [cons_append, length_cons, modify_succ_cons, ih, cons_append]

variable {left right : List α}

theorem writeValues_spells {here : List α} (spells : values ≠ [] → Spells minimum table code (before ++ values))
    (same : here.length = values.length) :
    writeValues pixel table values.length (left.length + here.length) code (left ++ here ++ right) =
      left ++ List.zipWith pixel values here ++ right := by
  induction values using List.reverseRecOn generalizing code here right with
  | nil =>
    obtain rfl := length_eq_zero_iff.mp same
    rfl
  | append_singleton values v ih =>
    obtain ⟨here, x, rfl⟩ : ∃ front x, here = front ++ [x] := by
      rcases eq_nil_or_concat here with rfl | ⟨front, x, rfl⟩
      · simp at same
      · exact ⟨front, x, by simp⟩
    have length : here.length = values.length := by simpa using same
    have last := spells (by simp)
    rw [← append_assoc] at last
    obtain ⟨value, rest⟩ := last.last
    have position : left.length + (here ++ [x]).length - 1 = (left ++ here).length := by
      simp only [length_append, length_singleton]
      omega
    have written : (left ++ (here ++ [x]) ++ right).modify (left ++ here).length (pixel v) =
        left ++ here ++ (pixel v x :: right) := by
      rw [← modify_between]
      congr 1
      simp
    rw [length_append, length_singleton, writeValues, position, value, written, length_append,
      ih (fun some => rest (by simp [some])) length, zipWith_append length.symm]
    simp

structure Pending (minimum : Nat) (ctx : Ctx) (values : List UInt8) : Prop where
  left : ctx.outputLeft = values.length
  spelled : values ≠ [] → ∃ before, Spells minimum ctx.table ctx.outputCode (before ++ values)

theorem writeFn_spells (spells : Spells minimum ctx.table code (before ++ values)) :
    writeFn pixel ctx (left ++ right) left.length code values.length =
        ({ ctx with outputCode := code, outputLeft := (values.drop right.length).length },
          left ++ (List.zipWith pixel values right ++ right.drop values.length), (List.zipWith pixel values right).length) ∧
      Pending minimum { ctx with outputCode := code, outputLeft := (values.drop right.length).length }
        (values.drop right.length) := by
  have space : (left ++ right).length - left.length = right.length := by simp
  refine ⟨?_, rfl, fun _ => ⟨before ++ values.take right.length, ?_⟩⟩
  · unfold writeFn
    dsimp only
    rw [space, length_drop]
    by_cases cut : values.length > right.length
    · rw [if_pos cut, if_pos cut]
      have parts : values.take right.length ++ values.drop right.length = values := take_append_drop _ _
      have size : (values.take right.length).length = right.length := length_take_of_le (Nat.le_of_lt cut)
      have zipped : List.zipWith pixel values right = List.zipWith pixel (values.take right.length) right := by
        have both : List.zipWith pixel (values.take right.length ++ values.drop right.length) (right ++ []) =
            List.zipWith pixel (values.take right.length) right ++ List.zipWith pixel (values.drop right.length) [] :=
          zipWith_append size
        rwa [parts, append_nil, zipWith_nil_right, append_nil] at both
      have rest : values.take right.length ≠ [] → Spells minimum ctx.table
          (skipValues ctx.table (values.length - right.length) code) (before ++ values.take right.length) := by
        intro some
        rw [← length_drop]
        refine skipValues_spells ?_ (by simp [some])
        rw [append_assoc, parts]
        exact spells
      have written : writeValues pixel ctx.table (values.take right.length).length (left.length + right.length)
          (skipValues ctx.table (values.length - right.length) code) (left ++ right ++ []) =
          left ++ List.zipWith pixel (values.take right.length) right ++ [] := writeValues_spells rest size.symm
      rw [size, append_nil, append_nil] at written
      rw [written, drop_of_length_le (Nat.le_of_lt cut), append_nil, zipped, length_zipWith, size, Nat.min_self]
    · have fits := Nat.not_lt.mp cut
      rw [if_neg cut, if_neg cut, Nat.sub_eq_zero_of_le fits]
      have parts : right.take values.length ++ right.drop values.length = right := take_append_drop _ _
      have size : (right.take values.length).length = values.length := length_take_of_le fits
      have zipped : List.zipWith pixel values right = List.zipWith pixel values (right.take values.length) := by
        have both : List.zipWith pixel (values ++ []) (right.take values.length ++ right.drop values.length) =
            List.zipWith pixel values (right.take values.length) ++ List.zipWith pixel [] (right.drop values.length) :=
          zipWith_append size.symm
        rwa [parts, append_nil, zipWith_nil_left, append_nil] at both
      have written : writeValues pixel ctx.table values.length (left.length + (right.take values.length).length) code
          (left ++ right.take values.length ++ right.drop values.length) =
          left ++ List.zipWith pixel values (right.take values.length) ++ right.drop values.length :=
        writeValues_spells (fun _ => spells) size
      rw [size, append_assoc, parts, append_assoc] at written
      rw [skipValues, written, zipped, length_zipWith, size, Nat.min_self]
  · rw [append_assoc, take_append_drop]
    exact spells

structure Based (minimum : Nat) (ctx : Ctx) : Prop where
  range : 2 ≤ minimum ∧ minimum ≤ 11
  initial : ctx.initialCodeSize = minimum + 1
  clear : ctx.clearCode = 2 ^ minimum
  eoi : ctx.eoiCode = 2 ^ minimum + 1
  values : ∀ code < 2 ^ minimum, Spells minimum ctx.table code [UInt8.ofNat code]

/-- The context has the words of a text in its table. -/
structure Holds (minimum : Nat) (ctx : Ctx) (text : Text) : Prop where
  based : Based minimum ctx
  size : ctx.codeSize = width minimum text.words
  most : ctx.codeMax = 2 ^ ctx.codeSize - 1
  count : ctx.tableSize = nextCode minimum text.words
  room : nextCode minimum text.words ≤ 4096
  words : ∀ i word, text.words[i]? = some word → Spells minimum ctx.table (2 ^ minimum + 2 + i) word

/-- What the context knows of the word before. -/
structure After (minimum : Nat) (ctx : Ctx) (word : List UInt8) : Prop where
  spelled : Spells minimum ctx.table ctx.prevCode word
  first : word.head? = some ctx.prevCodeFirst
  count : ctx.prevCodeCount = word.length
  lower : ctx.prevCode < ctx.tableSize

theorem spells_of_meaning (holds : Holds minimum ctx text) (is : meaning minimum text.words code = some word) :
    Spells minimum ctx.table code word ∧ code < ctx.tableSize := by
  rw [holds.count]
  unfold meaning at is
  unfold nextCode
  split at is
  next low =>
    obtain rfl := Option.some_inj.mp is
    exact ⟨holds.based.values code low, by omega⟩
  next =>
    split at is
    · cases is
    next high =>
      obtain ⟨i, rfl⟩ := Nat.exists_eq_add_of_le (Nat.not_lt.mp high)
      rw [Nat.add_sub_cancel_left] at is
      have inside := (List.getElem?_eq_some_iff.mp is).1
      exact ⟨holds.words i word is, by omega⟩

theorem meaning_none {words : List (List UInt8)} (is : meaning minimum words code = none) :
    code = 2 ^ minimum ∨ code = 2 ^ minimum + 1 ∨ nextCode minimum words ≤ code := by
  unfold meaning at is
  unfold nextCode
  split at is
  · cases is
  · split at is
    · omega
    next high =>
      have outside := List.getElem?_eq_none_iff.mp is
      omega

theorem width_grows (minimum : Nat) (words : List (List UInt8)) (word : List UInt8) :
    width minimum (words ++ [word]) =
      if nextCode minimum words = 2 ^ width minimum words - 1 ∧ width minimum words < 12 then width minimum words + 1
      else width minimum words := by
  have more : nextCode minimum (words ++ [word]) = nextCode minimum words + 1 := by
    unfold nextCode
    rw [length_append, length_singleton]
    exact (Nat.add_assoc _ _ _).symm
  have some : nextCode minimum words ≠ 0 := by
    unfold nextCode
    rw [Nat.add_right_comm]
    exact Nat.succ_ne_zero _
  unfold width
  rw [more]
  generalize nextCode minimum words = n at some
  have below := Nat.lt_log2_self (n := n)
  have above := Nat.log2_self_le some
  have power : 2 ^ (n.log2 + 1) = 2 * 2 ^ n.log2 := Nat.pow_succ'
  by_cases small : n.log2 + 1 < 12
  · rw [Nat.min_eq_right (Nat.le_of_lt small)]
    by_cases full : n = 2 ^ (n.log2 + 1) - 1
    · have next : (n + 1).log2 = n.log2 + 1 := by
        refine (Nat.log2_eq_iff (Nat.succ_ne_zero n)).mpr ⟨by omega, ?_⟩
        rw [Nat.pow_succ]
        omega
      rw [if_pos ⟨full, small⟩, next, Nat.min_eq_right (by omega)]
    · have next : (n + 1).log2 = n.log2 := (Nat.log2_eq_iff (Nat.succ_ne_zero n)).mpr ⟨by omega, by omega⟩
      rw [if_neg (fun both => full both.1), next, Nat.min_eq_right (Nat.le_of_lt small)]
  · have next : n.log2 ≤ (n + 1).log2 := (Nat.le_log2 (Nat.succ_ne_zero n)).mpr (by omega)
    rw [Nat.min_eq_left (Nat.not_lt.mp small), if_neg (fun both => absurd both.2 (by decide)), Nat.min_eq_left (by omega)]

def grown (ctx : Ctx) (code : UInt8) : Ctx :=
  if ctx.tableSize = ctx.codeMax ∧ ctx.codeSize < lzwCodeMax then
    { tableAddEntry ctx code with codeSize := ctx.codeSize + 1, codeMax := (1 <<< (ctx.codeSize + 1)) - 1 }
  else tableAddEntry ctx code

theorem grown_table (ctx : Ctx) (code : UInt8) : (grown ctx code).table = (tableAddEntry ctx code).table := by
  unfold grown
  split <;> rfl

theorem grown_below (ctx : Ctx) (code : UInt8) {i : Nat} (low : i < ctx.tableSize) :
    (grown ctx code).table i = ctx.table i := by
  rw [grown_table]
  exact Function.update_of_ne (Nat.ne_of_lt low) _ _

theorem grown_holds (holds : Holds minimum ctx text) (after : After minimum ctx word) (room : ctx.tableSize < 4096)
    (v : UInt8) (prev : Option (List UInt8)) :
    Holds minimum (grown ctx v) { words := text.words ++ [word ++ [v]], prev } ∧
      Spells minimum (grown ctx v).table ctx.tableSize (word ++ [v]) := by
  have here : (grown ctx v).table ctx.tableSize =
      { value := v, first := ctx.prevCodeFirst, count := ctx.prevCodeCount + 1, extendsTo := ctx.prevCode } := by
    rw [grown_table]
    exact Function.update_self ..
  have kept : ∀ {code w}, code < ctx.tableSize → Spells minimum ctx.table code w →
      Spells minimum (grown ctx v).table code w :=
    fun low spells => spells.congr (fun i below => grown_below ctx v (Nat.lt_of_le_of_lt below low))
  have new : Spells minimum (grown ctx v).table ctx.tableSize (word ++ [v]) := by
    have extended := kept after.lower after.spelled
    rw [show ctx.prevCode = ((grown ctx v).table ctx.tableSize).extendsTo from by rw [here]] at extended
    have built := Spells.entry extended (by rw [here]; exact after.lower) (by rw [here]; exact after.first)
      (by rw [here]; exact congrArg (· + 1) after.count)
    rwa [here] at built
  have count := holds.count
  have more : nextCode minimum (text.words ++ [word ++ [v]]) = nextCode minimum text.words + 1 := by
    unfold nextCode
    rw [length_append, length_singleton]
    exact (Nat.add_assoc _ _ _).symm
  have grows := width_grows minimum text.words (word ++ [v])
  rw [← holds.size, ← count, ← holds.most] at grows
  refine ⟨⟨⟨holds.based.range, ?_, ?_, ?_, fun code low => kept ?_ (holds.based.values code low)⟩, ?_, ?_, ?_, ?_, ?_⟩, new⟩
  · exact Eq.trans (by unfold grown; split <;> rfl) holds.based.initial
  · exact Eq.trans (by unfold grown; split <;> rfl) holds.based.clear
  · exact Eq.trans (by unfold grown; split <;> rfl) holds.based.eoi
  · rw [count]
    unfold nextCode
    omega
  · refine Eq.trans ?_ grows.symm
    unfold grown
    split
    next full => exact (if_pos (show ctx.tableSize = ctx.codeMax ∧ ctx.codeSize < 12 from full)).symm
    next free => exact (if_neg (show ¬ (ctx.tableSize = ctx.codeMax ∧ ctx.codeSize < 12) from free)).symm
  · unfold grown
    split
    · exact congrArg (· - 1) (Nat.one_shiftLeft _)
    · exact holds.most
  · rw [more, ← count]
    unfold grown
    split <;> rfl
  · dsimp only
    rw [more, ← count]
    exact room
  · intro i w is
    rcases Nat.lt_trichotomy i text.words.length with old | own | beyond
    · rw [List.getElem?_append_left old] at is
      refine kept ?_ (holds.words i w is)
      rw [count]
      unfold nextCode
      omega
    · rw [own, List.getElem?_concat_length] at is
      obtain rfl := Option.some_inj.mp is
      have place : ctx.tableSize = 2 ^ minimum + 2 + i := by rw [count, own]; rfl
      rwa [place] at new
    · rw [List.getElem?_eq_none (by rw [length_append, length_singleton]; omega)] at is
      cases is

end Besra.LzwTable
