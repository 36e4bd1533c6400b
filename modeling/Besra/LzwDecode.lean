import Besra.LzwRead
import Besra.LzwTable

/-!
The decoder against the rules of LZW. It writes what the codes stand for up to the last code that has a bit after it,
however the data is split into sub-blocks and however large the outputs are.
-/
namespace Besra.LzwDecode
open LowBits Lzw LzwRead LzwText LzwTable

variable {minimum : Nat} {tail : List UInt8}

def Before (input : ReadCtx) (tail : List UInt8) (bits : List Bool) : Prop :=
  ∃ cur more, At input cur more tail ∧ bitsLeft input cur more = bits

variable {input input' : ReadCtx} {codeSize code : Nat} {ctx : Ctx} {text : Text} {word : List UInt8}

theorem read_some {bits : List Bool} (before : Before input tail bits) (small : codeSize ≤ 12)
    (enough : codeSize < bits.length) : ∃ input',
      readCode input codeSize = .ok (input', value (bits.take codeSize)) ∧ Before input' tail (bits.drop codeSize) ∧
      input'.data = input.data := by
  obtain ⟨cur, more, place, rfl⟩ := before
  obtain ⟨input', cur', more', ran, place', left, data⟩ := readCode_some place small enough
  exact ⟨input', ran, ⟨cur', more', place', left⟩, data⟩

theorem read_none {bits : List Bool} (before : Before input tail bits) (small : codeSize ≤ 12)
    (short : ¬ codeSize < bits.length) : ∃ e, readCode input codeSize = .error e ∧ e ≠ .ok := by
  obtain ⟨cur, more, place, rfl⟩ := before
  exact readCode_none place small short

theorem bits_small (minimum : Nat) (words : List (List UInt8)) : width minimum words ≤ 12 := Nat.min_le_left _ _

theorem width_clear (range : 2 ≤ minimum ∧ minimum ≤ 11) : width minimum [] = minimum + 1 := by
  have four : 2 ^ 2 ≤ 2 ^ minimum := Nat.pow_le_pow_right (by decide) range.1
  have log : (nextCode minimum []).log2 = minimum := by
    unfold nextCode
    refine (Nat.log2_eq_iff (Nat.succ_ne_zero _)).mpr ⟨?_, ?_⟩
    · show 2 ^ minimum ≤ 2 ^ minimum + 2
      omega
    · rw [Nat.pow_succ]
      show 2 ^ minimum + 2 < 2 ^ minimum * 2
      omega
  unfold width
  rw [log, Nat.min_eq_right (by omega)]

theorem readInitial_spec (range : 2 ≤ minimum ∧ minimum ≤ 11) {fuel : Nat} {bits : List Bool}
    (before : Before input tail bits) (enough : bits.length < fuel) :
    (∃ e, readInitial (2 ^ minimum) (minimum + 1) fuel input = .error e ∧ e ≠ .ok ∧ insideFrom minimum bits {} = []) ∨
      ∃ input' code bits', readInitial (2 ^ minimum) (minimum + 1) fuel input = .ok (input', code) ∧ code ≠ 2 ^ minimum ∧
        Before input' tail bits' ∧ bits'.length < bits.length ∧
        insideFrom minimum bits {} = match next minimum {} code with
          | none => []
          | some (word, text) => word ++ insideFrom minimum bits' text := by
  induction fuel generalizing input bits with
  | zero => omega
  | succ fuel ih =>
    have size := width_clear range
    have stands := insideFrom_eq minimum bits {}
    dsimp only at stands
    rw [size] at stands
    unfold readInitial
    by_cases inside : minimum + 1 < bits.length
    · obtain ⟨input', ran, before', -⟩ := read_some before (by omega) inside
      rw [if_pos inside] at stands
      have shorter : (bits.drop (minimum + 1)).length < bits.length := by
        rw [List.length_drop]
        omega
      rw [ran]
      by_cases clear : value (bits.take (minimum + 1)) = 2 ^ minimum
      · rw [if_pos clear] at stands
        rw [stands]
        rcases ih before' (by omega) with ⟨e, failed, bad, nothing⟩ | ⟨input'', code, bits', more, other, before'', less, is⟩
        · exact .inl ⟨e, (if_pos clear).trans failed, bad, nothing⟩
        · exact .inr ⟨input'', code, bits', (if_pos clear).trans more, other, before'', by omega, is⟩
      · rw [if_neg clear] at stands
        exact .inr ⟨input', _, _, if_neg clear, clear, before', shorter, stands⟩
    · rw [if_neg inside] at stands
      obtain ⟨e, failed, bad⟩ := read_none before (by omega) inside
      refine .inl ⟨e, ?_, bad, stands⟩
      rw [failed]
      rfl

theorem next_start : next minimum {} code =
    if code < 2 ^ minimum then some ([UInt8.ofNat code], { words := [], prev := some [UInt8.ofNat code] }) else none := by
  unfold next meaning
  dsimp only
  split
  · rfl
  · split
    · rfl
    · rw [List.getElem?_nil]
      rfl

theorem handleClear_spec {bits : List Bool} (based : Based minimum ctx) (before : Before ctx.input tail bits) :
    (∃ e, handleClear ctx = .error e ∧ e ≠ .ok ∧ insideFrom minimum bits {} = []) ∨
      ∃ ctx' code bits', handleClear ctx = .ok (ctx', code) ∧ code < 2 ^ minimum ∧ Before ctx'.input tail bits' ∧
        Holds minimum ctx' { words := [], prev := some [UInt8.ofNat code] } ∧
        insideFrom minimum bits {} =
          [UInt8.ofNat code] ++ insideFrom minimum bits' { words := [], prev := some [UInt8.ofNat code] } := by
  obtain ⟨cur, more, place, left⟩ := before
  have enough : bits.length < 8 * ctx.input.data.length + 1 := by
    have := bits_le place
    rw [left] at this
    omega
  have spec := readInitial_spec based.range ⟨cur, more, place, left⟩ enough
  unfold handleClear
  dsimp only
  rw [based.initial, based.clear, based.eoi]
  rcases spec with ⟨e, failed, bad, nothing⟩ | ⟨input', code, bits', ran, other, before', -, is⟩
  · refine .inl ⟨e, ?_, bad, nothing⟩
    rw [failed]
    rfl
  · rw [next_start] at is
    rw [ran]
    by_cases low : code < 2 ^ minimum
    · rw [if_pos low] at is
      refine .inr ⟨_, code, bits', if_neg (Nat.not_lt.mpr (Nat.le_of_lt low)), low, before', ?_, is⟩
      have size := width_clear based.range
      have small : 2 ^ minimum ≤ 2 ^ 11 := Nat.pow_le_pow_right (by decide) based.range.2
      refine ⟨⟨based.range, rfl, rfl, rfl, based.values⟩, size.symm, congrArg (· - 1) (Nat.one_shiftLeft _),
        rfl, ?_, fun i word is => nomatch is⟩
      show 2 ^ minimum + 2 ≤ 4096
      omega
    · rw [if_neg low] at is
      exact .inl ⟨.badIcode, if_pos (by omega), by decide, is⟩

/-- What a code does that is neither the end code nor a clear code. -/
theorem handleCode_spec {before : List UInt8} (holds : Holds minimum ctx text) (prev : text.prev = some before)
    (after : After minimum ctx before) (notClear : code ≠ 2 ^ minimum) (notEoi : code ≠ 2 ^ minimum + 1)
    (small : code < 4096) :
    (handleCode ctx code = .error .badCode ∧ next minimum text code = none) ∨
      ∃ ctx' word text', handleCode ctx code = .ok (ctx', code) ∧ next minimum text code = some (word, text') ∧
        ctx'.input = ctx.input ∧ Holds minimum ctx' text' ∧ text'.prev = some word ∧
        Spells minimum ctx'.table code word ∧ code < ctx'.tableSize := by
  have full : lzwTableEntryMax = 4096 := rfl
  have grows : ∀ v, ctx.tableSize < 4096 → v = (if code < ctx.tableSize then (ctx.table code).first else ctx.prevCodeFirst) →
      code ≤ ctx.tableSize → handleCode ctx code = .ok (grown ctx v, code) := by
    intro v room same low
    unfold handleCode grown
    rw [if_neg (Nat.not_lt.mpr low), holds.based.clear, if_neg notClear, full, if_pos room]
    dsimp only
    rw [← same]
    by_cases longer : ctx.tableSize = ctx.codeMax ∧ ctx.codeSize < lzwCodeMax
    · rw [if_pos longer]
      exact if_pos longer
    · rw [if_neg longer]
      exact if_neg longer
  have inputs : ∀ v, (grown ctx v).input = ctx.input := fun v => by unfold grown; split <;> rfl
  have sizes : ∀ v, (grown ctx v).tableSize = ctx.tableSize + 1 := fun v => by unfold grown; split <;> rfl
  unfold next
  rw [prev]
  dsimp only
  rcases is : meaning minimum text.words code with _ | word
  · dsimp only
    have high : nextCode minimum text.words ≤ code := by
      rcases meaning_none is with clear | eoi | high
      · exact absurd clear notClear
      · exact absurd eoi notEoi
      · exact high
    by_cases new : code = nextCode minimum text.words ∧ code < 4096
    · have own : code = ctx.tableSize := new.1.trans holds.count.symm
      have room : ctx.tableSize < 4096 := own ▸ new.2
      obtain ⟨holds', spells⟩ := grown_holds holds after room ctx.prevCodeFirst (some (before ++ before.take 1))
      have first : before.take 1 = [ctx.prevCodeFirst] := by
        rcases before with _ | ⟨v, vs⟩
        · exact absurd rfl after.spelled.ne_nil
        · rw [← Option.some_inj.mp after.first]
          rfl
      rw [if_pos new, first]
      rw [first] at holds'
      refine .inr ⟨_, _, _, grows ctx.prevCodeFirst room (if_neg (by omega)).symm (Nat.le_of_eq own), rfl, inputs _, holds', rfl,
        own ▸ spells, ?_⟩
      rw [sizes]
      omega
    · rw [if_neg new]
      refine .inl ⟨?_, rfl⟩
      unfold handleCode
      rw [if_pos]
      rw [holds.count]
      have other : code ≠ nextCode minimum text.words := fun same => new ⟨same, small⟩
      omega
  · dsimp only
    obtain ⟨spells, low⟩ := spells_of_meaning holds is
    have first : word.take 1 = [(ctx.table code).first] := by
      rcases word with _ | ⟨v, vs⟩
      · exact absurd rfl spells.ne_nil
      · rw [← Option.some_inj.mp spells.first_eq]
        rfl
    by_cases room : ctx.tableSize < 4096
    · obtain ⟨holds', -⟩ := grown_holds holds after room (ctx.table code).first (some word)
      unfold extend
      rw [if_pos (holds.count ▸ room), first]
      refine .inr ⟨_, _, _, grows (ctx.table code).first room (if_pos low).symm (Nat.le_of_lt low), rfl, inputs _, holds', rfl,
        ?_, ?_⟩
      · exact spells.congr (fun i below => grown_below ctx _ (Nat.lt_of_le_of_lt below low))
      · rw [sizes]
        omega
    · unfold extend
      rw [if_neg (holds.count ▸ room)]
      refine .inr ⟨ctx, word, _, ?_, rfl, rfl, ?_, rfl, spells, low⟩
      · unfold handleCode
        rw [if_neg (Nat.not_lt.mpr (Nat.le_of_lt low)), holds.based.clear, if_neg notClear, full, if_neg room]
      · exact ⟨holds.based, holds.size, holds.most, holds.count, holds.room, holds.words⟩

/-- The context between two codes: the bits that are left, the text so far and the word before. -/
structure Running (minimum : Nat) (tail : List UInt8) (ctx : Ctx) (bits : List Bool) (text : Text) (word : List UInt8) :
    Prop where
  before : Before ctx.input tail bits
  holds : Holds minimum ctx text
  prev : text.prev = some word
  after : After minimum ctx word

variable {α : Type} {pixel : UInt8 → α → α}

theorem holds_written (holds : Holds minimum ctx text) (outputCode outputLeft prevCode count : Nat) (first : UInt8) :
    Holds minimum { ctx with outputCode, outputLeft, prevCode, prevCodeCount := count, prevCodeFirst := first } text :=
  ⟨⟨holds.based.range, holds.based.initial, holds.based.clear, holds.based.eoi, holds.based.values⟩, holds.size, holds.most,
    holds.count, holds.room, holds.words⟩

theorem written_spec {bits : List Bool} (pixel : UInt8 → α → α) (left right : List α)
    (before : Before ctx.input tail bits) (holds : Holds minimum ctx text) (prev : text.prev = some word)
    (spells : Spells minimum ctx.table code word) (low : code < ctx.tableSize) :
    ∃ ctx', writeFn pixel ctx (left ++ right) left.length code (ctx.table code).count =
        (ctx', left ++ (List.zipWith pixel word right ++ right.drop word.length), (List.zipWith pixel word right).length) ∧
      Running minimum tail { ctx' with
        prevCodeFirst := (ctx'.table code).first, prevCodeCount := (ctx'.table code).count, prevCode := code } bits text word ∧
      Pending minimum { ctx' with
        prevCodeFirst := (ctx'.table code).first, prevCodeCount := (ctx'.table code).count, prevCode := code }
        (word.drop right.length) := by
  have spelled : Spells minimum ctx.table code ([] ++ word) := spells
  obtain ⟨written, pending⟩ : writeFn pixel ctx (left ++ right) left.length code word.length = _ ∧ Pending minimum _ _ :=
    writeFn_spells spelled
  refine ⟨_, (congrArg (writeFn pixel ctx (left ++ right) left.length code) spells.count_eq).trans written, ?_, ?_⟩
  · exact ⟨before, holds_written holds _ _ _ _ _, prev, ⟨spells, spells.first_eq, spells.count_eq, low⟩⟩
  · exact ⟨pending.left, pending.spelled⟩

theorem decode_handled {ctx' : Ctx} {code' : Nat} (output : List α) (outputWritten : Nat)
    (ran : readCode ctx.input ctx.codeSize = .ok (input', code)) (going : code ≠ ctx.eoiCode)
    (handled : handleCode { ctx with input := input' } code = .ok (ctx', code')) :
    decode pixel ctx output outputWritten =
      (match writeFn pixel ctx' output outputWritten code' (ctx'.table code').count with
        | (ctx, output, count) => .ok ({ ctx with
            prevCodeFirst := (ctx.table code').first
            prevCodeCount := (ctx.table code').count
            prevCode := code' }, output, outputWritten + count)) := by
  unfold decode
  rw [ran]
  refine (if_neg going).trans ?_
  rw [handled]
  rfl

theorem decode_failed {e : LzwResult} (output : List α) (outputWritten : Nat)
    (ran : readCode ctx.input ctx.codeSize = .ok (input', code)) (going : code ≠ ctx.eoiCode)
    (handled : handleCode { ctx with input := input' } code = .error e) :
    decode pixel ctx output outputWritten = .error e := by
  unfold decode
  rw [ran]
  refine (if_neg going).trans ?_
  rw [handled]
  rfl

theorem next_eoi (prev : text.prev = some word) : next minimum text (2 ^ minimum + 1) = none := by
  have none : meaning minimum text.words (2 ^ minimum + 1) = none := by
    unfold meaning
    rw [if_neg (by omega), if_pos (by omega)]
  unfold next
  rw [prev, none]
  refine if_neg (fun new => ?_)
  have := new.1
  unfold nextCode at this
  omega

theorem decode_spec {bits : List Bool} (running : Running minimum tail ctx bits text word) (left right : List α) :
    (∃ e, decode pixel ctx (left ++ right) left.length = .error e ∧ e ≠ .ok ∧ insideFrom minimum bits text = []) ∨
      ∃ ctx' word' text' bits', decode pixel ctx (left ++ right) left.length = .ok (ctx',
          left ++ (List.zipWith pixel word' right ++ right.drop word'.length),
          left.length + (List.zipWith pixel word' right).length) ∧ word' ≠ [] ∧
        insideFrom minimum bits text = word' ++ insideFrom minimum bits' text' ∧
        Running minimum tail ctx' bits' text' word' ∧ Pending minimum ctx' (word'.drop right.length) := by
  obtain ⟨before, holds, prev, after⟩ := running
  have stands := insideFrom_eq minimum bits text
  dsimp only at stands
  by_cases inside : width minimum text.words < bits.length
  · obtain ⟨input', ran, before', -⟩ := read_some before (bits_small minimum text.words) inside
    rw [if_pos inside] at stands
    have small : value (bits.take (width minimum text.words)) < 4096 := by
      refine Nat.lt_of_lt_of_le (value_lt _) (Nat.pow_le_pow_right (by decide) (?_ : _ ≤ 12))
      rw [List.length_take]
      exact Nat.le_trans (Nat.min_le_left _ _) (bits_small minimum text.words)
    generalize value (bits.take (width minimum text.words)) = code at ran stands small
    rw [← holds.size] at ran
    have holds' : Holds minimum { ctx with input := input' } text :=
      ⟨⟨holds.based.range, holds.based.initial, holds.based.clear, holds.based.eoi, holds.based.values⟩, holds.size,
        holds.most, holds.count, holds.room, holds.words⟩
    by_cases eoi : code = ctx.eoiCode
    · have special : code = 2 ^ minimum + 1 := eoi.trans holds.based.eoi
      rw [if_neg (by omega), special, next_eoi prev] at stands
      refine .inl ⟨.eoiCode, ?_, by decide, stands⟩
      unfold decode
      rw [ran]
      exact if_pos eoi
    · by_cases clear : code = 2 ^ minimum
      · rw [if_pos clear] at stands
        have handles : handleCode { ctx with input := input' } code = handleClear { ctx with input := input' } := by
          have count := holds.count
          unfold nextCode at count
          unfold handleCode
          dsimp only
          rw [if_neg (by omega), holds.based.clear, if_pos clear]
        rcases handleClear_spec holds'.based before' with
          ⟨e, failed, bad, nothing⟩ | ⟨ctx', first, bits', cleared, low, before'', starts, is⟩
        · exact .inl ⟨e, decode_failed _ _ ran eoi (handles.trans failed), bad, stands.trans nothing⟩
        · have below : first < ctx'.tableSize := by
            have count := starts.count
            unfold nextCode at count
            omega
          obtain ⟨ctx'', written, runs, pending⟩ :=
            written_spec pixel left right before'' starts rfl (starts.based.values first low) below
          refine .inr ⟨_, _, _, bits', ?_, List.cons_ne_nil _ _, stands.trans is, runs, pending⟩
          rw [decode_handled _ _ ran eoi (handles.trans cleared), written]
      · rw [if_neg clear] at stands
        have after' : After minimum { ctx with input := input' } word := ⟨after.spelled, after.first, after.count, after.lower⟩
        rcases handleCode_spec holds' prev after' clear (holds.based.eoi ▸ eoi) small with
          ⟨failed, nothing⟩ | ⟨ctx', word', text', handled, is, input, starts, prev', spells, low⟩
        · rw [nothing] at stands
          exact .inl ⟨.badCode, decode_failed _ _ ran eoi failed, by decide, stands⟩
        · rw [is] at stands
          have before'' : Before ctx'.input tail (bits.drop (width minimum text.words)) := by
            rw [input]
            exact before'
          obtain ⟨ctx'', written, runs, pending⟩ := written_spec pixel left right before'' starts prev' spells low
          refine .inr ⟨_, word', text', _, ?_, spells.ne_nil, stands, runs, pending⟩
          rw [decode_handled _ _ ran eoi handled, written]
  · rw [if_neg inside] at stands
    obtain ⟨e, failed, bad⟩ := read_none before (bits_small minimum text.words) inside
    refine .inl ⟨e, ?_, bad, stands⟩
    unfold decode
    rw [holds.size, failed]
    rfl

end Besra.LzwDecode
