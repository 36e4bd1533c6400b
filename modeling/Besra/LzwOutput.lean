import Besra.LzwDecode

/-!
The outputs of the decoder, one call after the other: together they are what the codes
stand for, as far as there is room, up to the last code that has a bit after it.
-/
namespace Besra.LzwOutput
open LowBits Lzw LzwRead LzwText LzwTable LzwDecode List

variable {minimum : Nat} {tail : List UInt8} {α : Type} {pixel : UInt8 → α → α}

theorem zipWith_values (values rest : List UInt8) (right : List α) :
    List.zipWith pixel (values ++ rest) right =
      List.zipWith pixel values right ++ List.zipWith pixel rest (right.drop values.length) := by
  induction values generalizing right with
  | nil => rfl
  | cons v values ih =>
    rcases right with _ | ⟨x, right⟩
    · simp
    · exact congrArg (pixel v x :: ·) (ih right)

theorem zipWith_places (values : List UInt8) (here rest : List α) :
    List.zipWith pixel values (here ++ rest) =
      List.zipWith pixel values here ++ List.zipWith pixel (values.drop here.length) rest := by
  induction here generalizing values with
  | nil => simp
  | cons x here ih =>
    rcases values with _ | ⟨v, values⟩
    · rfl
    · exact congrArg (pixel v x :: ·) (ih values)

theorem zipWith_left (values : List UInt8) (right : List α) :
    List.zipWith (fun value _ => value) values right = values.take right.length := by
  induction right generalizing values with
  | nil => simp
  | cons x right ih =>
    rcases values with _ | ⟨v, values⟩
    · rfl
    · exact congrArg (v :: ·) (ih values)

/-- What the context has still to write: the rest of a code that was cut, and what the codes after it stand for. -/
def Coming (minimum : Nat) (tail : List UInt8) (ctx : Ctx) (values : List UInt8) : Prop :=
  ∃ bits text word pending, Running minimum tail ctx bits text word ∧ Pending minimum ctx pending ∧
    pending ++ insideFrom minimum bits text = values

/-- An output with values written after `left`: as many as there is room for, and the others come next. -/
structure Filled (minimum : Nat) (tail : List UInt8) (pixel : UInt8 → α → α) (left right : List α) (values : List UInt8)
    (outcome : LzwResult × Ctx × List α × Nat) : Prop where
  written : outcome.2.2.1.take outcome.2.2.2 = left ++ List.zipWith pixel values right
  goes : outcome.1 = .ok → Coming minimum tail outcome.2.1 (values.drop right.length)
  ends : outcome.1 ≠ .ok → values.length ≤ right.length

theorem Filled.cons {left right : List α} {word values : List UInt8} {outcome : LzwResult × Ctx × List α × Nat}
    (filled : Filled minimum tail pixel (left ++ List.zipWith pixel word right) (right.drop word.length)
      (word.drop right.length ++ values) outcome) : Filled minimum tail pixel left right (word ++ values) outcome := by
  rcases Nat.le_total word.length right.length with fits | cut
  · rw [drop_of_length_le fits, nil_append] at filled
    refine ⟨?_, fun ok => ?_, fun bad => ?_⟩
    · rw [filled.written, zipWith_values, append_assoc]
    · rw [drop_append, drop_of_length_le fits, nil_append, ← length_drop]
      exact filled.goes ok
    · have room := filled.ends bad
      rw [length_drop] at room
      rw [length_append]
      omega
  · rw [drop_of_length_le cut] at filled
    refine ⟨?_, fun ok => ?_, fun bad => ?_⟩
    · rw [filled.written, zipWith_values word, drop_of_length_le cut, zipWith_nil_right, zipWith_nil_right,
        append_assoc]
    · rw [drop_append, Nat.sub_eq_zero_of_le cut]
      exact filled.goes ok
    · have room := filled.ends bad
      rw [length_append, length_drop, length_nil] at room
      rw [length_append]
      omega

variable {values : List UInt8} {ctx ctx' : Ctx} {code : Nat} {blocks : List (List UInt8)}

theorem Filled.full (coming : Coming minimum tail ctx values) (left : List α) :
    Filled minimum tail pixel left [] values (.ok, ctx, left ++ [], left.length) := by
  refine ⟨?_, fun _ => coming, fun bad => absurd rfl bad⟩
  rw [zipWith_nil_right, append_nil]
  exact take_length

theorem decodeLoop_spec {fuel : Nat} {ctx : Ctx} {bits : List Bool} {text : Text} {word pending : List UInt8}
    {left right : List α} (enough : right.length ≤ fuel) (running : Running minimum tail ctx bits text word)
    (holds : Pending minimum ctx pending) (cut : pending ≠ [] → right = []) :
    Filled minimum tail pixel left right (pending ++ insideFrom minimum bits text)
      (decodeLoop pixel fuel ctx (left ++ right) left.length) := by
  induction fuel generalizing ctx bits text word pending left right with
  | zero =>
    obtain rfl := length_eq_zero_iff.mp (Nat.le_zero.mp enough)
    exact .full ⟨bits, text, word, pending, running, holds, rfl⟩ left
  | succ fuel ih =>
    rcases right with _ | ⟨x, right⟩
    · unfold decodeLoop
      rw [if_pos (by simp)]
      exact .full ⟨bits, text, word, pending, running, holds, rfl⟩ left
    · have none : pending = [] := by
        by_contra some
        exact nomatch cut some
      rw [none, nil_append]
      unfold decodeLoop
      rw [if_neg (by simp)]
      rcases decode_spec running left (x :: right) with
        ⟨e, failed, bad, nothing⟩ | ⟨ctx', word', text', bits', ran, some, is, running', holds'⟩
      · rw [failed, nothing]
        exact ⟨by simp, fun ok => absurd ok bad, fun _ => Nat.zero_le _⟩
      · rw [ran, is]
        dsimp only
        rw [← length_append, ← append_assoc]
        have filled := length_pos_iff.mpr some
        have less : ((x :: right).drop word'.length).length ≤ fuel := by
          rw [length_drop]
          omega
        have cut' : word'.drop (x :: right).length ≠ [] → (x :: right).drop word'.length = [] := by
          intro more
          have := length_pos_iff.mpr more
          rw [length_drop] at this
          exact drop_of_length_le (by omega)
        exact (ih less running' holds' cut').cons

theorem decodeInto_spec (coming : Coming minimum tail ctx values) (output : List α) :
    Filled minimum tail pixel [] output values (decodeInto pixel ctx output) := by
  obtain ⟨bits, text, word, pending, running, holds, rfl⟩ := coming
  have left := holds.left
  unfold decodeInto
  by_cases some : ctx.outputLeft ≠ 0
  · rw [if_pos some]
    have more : pending ≠ [] := by
      rintro rfl
      exact some left
    obtain ⟨front, spells⟩ := holds.spelled more
    obtain ⟨written, holds'⟩ : writeFn pixel ctx ([] ++ output) ([] : List α).length ctx.outputCode pending.length = _ ∧
        Pending minimum _ _ := writeFn_spells spells
    rw [nil_append, length_nil, nil_append] at written
    rw [left, written]
    dsimp only
    have enough : (output.drop pending.length).length ≤
        (List.zipWith pixel pending output ++ output.drop pending.length).length := by
      rw [length_append]
      exact Nat.le_add_left _ _
    have cut : pending.drop output.length ≠ [] → output.drop pending.length = [] := by
      intro rest
      have := length_pos_iff.mpr rest
      rw [length_drop] at this
      exact drop_of_length_le (by omega)
    have running' : Running minimum tail
        { ctx with outputCode := ctx.outputCode, outputLeft := (pending.drop output.length).length } bits text word :=
      ⟨running.before, holds_written running.holds _ _ _ _ _, running.prev,
        ⟨running.after.spelled, running.after.first, running.after.count, running.after.lower⟩⟩
    refine Filled.cons ?_
    exact decodeLoop_spec enough running' holds' cut
  · rw [if_neg some]
    have none : pending = [] := length_eq_zero_iff.mp (left.symm.trans (not_not.mp some))
    exact decodeLoop_spec (Nat.le_refl _) running holds (fun more => absurd none more)

theorem outputs_spec {call : Ctx → List α → LzwResult × Ctx × List α × Nat} {kept : Ctx → Prop}
    (calls : ∀ ctx output, kept ctx → call ctx output = decodeInto pixel ctx output)
    (keeps : ∀ ctx output, kept ctx → kept (decodeInto pixel ctx output).2.1) (coming : Coming minimum tail ctx values)
    (here : kept ctx) (rooms : List (List α)) : outputs call ctx rooms = List.zipWith pixel values rooms.flatten := by
  induction rooms generalizing ctx values with
  | nil => exact zipWith_nil_right.symm
  | cons output rooms ih =>
    have filled : Filled minimum tail pixel [] output values (decodeInto pixel ctx output) := decodeInto_spec coming output
    have keep := keeps ctx output here
    rw [flatten_cons, zipWith_places]
    unfold outputs
    rw [calls ctx output here]
    generalize decodeInto pixel ctx output = outcome at filled keep ⊢
    obtain ⟨res, ctx', output', outputWritten⟩ := outcome
    have written : output'.take outputWritten = List.zipWith pixel values output := filled.written
    by_cases ok : res = .ok
    · rw [ok, ← written]
      exact congrArg (output'.take outputWritten ++ ·) (ih (filled.goes ok) keep)
    · rw [drop_of_length_le (filled.ends ok), zipWith_nil_left, append_nil, ← written]
      split
      next same => exact absurd (Prod.mk.inj same).1 ok
      next same => 
        obtain ⟨-, same⟩ := Prod.mk.inj same
        obtain ⟨-, same⟩ := Prod.mk.inj same
        obtain ⟨rfl, rfl⟩ := Prod.mk.inj same
        rfl

def colours (ctx : Ctx) : Bool × UInt8 × Option (UInt8 → UInt32) :=
  (ctx.hasTransparency, ctx.transparencyIdx, ctx.colourMap)

theorem handleClear_colours (ran : handleClear ctx = .ok (ctx', code)) : colours ctx' = colours ctx := by
  unfold handleClear at ran
  dsimp only at ran
  rcases read : readInitial ctx.clearCode ctx.initialCodeSize (8 * ctx.input.data.length + 1) ctx.input with e | ⟨input, first⟩
  · rw [read] at ran
    cases ran
  · rw [read] at ran
    change (if first > ctx.clearCode then Except.error LzwResult.badIcode else Except.ok (_, first)) = _ at ran
    split at ran
    · cases ran
    · obtain ⟨rfl, -⟩ := Prod.mk.inj (Except.ok.inj ran)
      rfl

theorem handleCode_colours {code' : Nat} (ran : handleCode ctx code = .ok (ctx', code')) :
    colours ctx' = colours ctx := by
  unfold handleCode at ran
  dsimp only at ran
  split at ran
  · cases ran
  · split at ran
    · exact handleClear_colours ran
    · split at ran
      · generalize (if code < ctx.tableSize then (ctx.table code).first else ctx.prevCodeFirst) = first at ran
        split at ran
        · obtain ⟨rfl, -⟩ := Prod.mk.inj (Except.ok.inj ran)
          rfl
        · obtain ⟨rfl, -⟩ := Prod.mk.inj (Except.ok.inj ran)
          rfl
      · obtain ⟨rfl, -⟩ := Prod.mk.inj (Except.ok.inj ran)
        rfl

theorem decode_colours {output output' : List α} {outputWritten outputWritten' : Nat}
    (ran : decode pixel ctx output outputWritten = .ok (ctx', output', outputWritten')) :
    colours ctx' = colours ctx := by
  rcases read : readCode ctx.input ctx.codeSize with e | ⟨input, code⟩
  · unfold decode at ran
    rw [read] at ran
    exact nomatch ran
  · by_cases eoi : code = ctx.eoiCode
    · unfold decode at ran
      rw [read] at ran
      exact nomatch (if_pos eoi).symm.trans ran
    · rcases handled : handleCode { ctx with input } code with e | ⟨ctx'', code'⟩
      · exact nomatch (decode_failed output outputWritten read eoi handled).symm.trans ran
      · have same := (decode_handled output outputWritten read eoi handled).symm.trans ran
        obtain ⟨rfl, -⟩ := Prod.mk.inj (Except.ok.inj same)
        have kept := handleCode_colours handled
        exact kept

theorem decodeLoop_colours (fuel : Nat) (ctx : Ctx) (output : List α) (outputWritten : Nat) :
    colours (decodeLoop pixel fuel ctx output outputWritten).2.1 = colours ctx := by
  induction fuel generalizing ctx output outputWritten with
  | zero => rfl
  | succ fuel ih =>
    unfold decodeLoop
    split
    · rfl
    · split
      · rfl
      next ctx' output' outputWritten' ran => exact (ih ctx' output' outputWritten').trans (decode_colours ran)

theorem decodeInto_colours (ctx : Ctx) (output : List α) : colours (decodeInto pixel ctx output).2.1 = colours ctx := by
  unfold decodeInto
  split
  · exact decodeLoop_colours ..
  · exact decodeLoop_colours ..

theorem lzwDecodeInit_spec (old : Ctx) (range : 2 ≤ minimum ∧ minimum ≤ 11) (front : List UInt8)
    (sizes : ∀ b ∈ blocks, 0 < b.length ∧ b.length ≤ 255) (ended : Ended tail) :
    (∃ e, lzwDecodeInit old minimum (front ++ (packed blocks ++ tail)) front.length = .error e ∧
        insideFrom minimum (ofBytes blocks.flatten) {} = []) ∨
      ∃ ctx, lzwDecodeInit old minimum (front ++ (packed blocks ++ tail)) front.length = .ok ctx ∧
        Coming minimum tail ctx (insideFrom minimum (ofBytes blocks.flatten) {}) := by
  unfold lzwDecodeInit
  rw [if_neg (by unfold lzwCodeMax; omega)]
  dsimp only
  have shift : 1 <<< minimum = 2 ^ minimum := Nat.one_shiftLeft minimum
  rw [shift]
  generalize starts : ({ old with
      input := { data := front ++ (packed blocks ++ tail), dataSbNext := front.length, sbData := old.input.sbData }
      initialCodeSize := minimum + 1
      clearCode := 2 ^ minimum + 0
      eoiCode := 2 ^ minimum + 1
      outputLeft := 0
      table := fun i =>
        if i < 2 ^ minimum + 0 then { old.table i with first := UInt8.ofNat i, value := UInt8.ofNat i, count := 1 }
        else old.table i } : Ctx) = ctx
  have based : Based minimum ctx := by
    subst starts
    refine ⟨range, rfl, rfl, rfl, fun code low => ?_⟩
    have here : (if code < 2 ^ minimum + 0 then
        { old.table code with first := UInt8.ofNat code, value := UInt8.ofNat code, count := 1 } else old.table code) = _ :=
      if_pos low
    exact .literal low (congrArg Entry.value here) (congrArg Entry.first here) (congrArg Entry.count here)
  have before : Before ctx.input tail (ofBytes blocks.flatten) := by
    subst starts
    refine ⟨[], blocks, ⟨ nil_prefix, ?_, sizes, rfl, Nat.zero_le _, Nat.zero_le _, ended⟩, ?_⟩
    · exact drop_left
    · unfold bitsLeft bytesLeft
      rw [drop_nil]
      exact drop_zero
  rcases handleClear_spec based before with ⟨e, failed, -, nothing⟩ | ⟨ctx', code, bits, ran, low, before', holds, is⟩
  · refine .inl ⟨e, ?_, nothing⟩
    rw [failed]
    rfl
  · rw [ran]
    have spells := holds.based.values code low
    have below : code < ctx'.tableSize := by
      have count := holds.count
      unfold nextCode at count
      omega
    refine .inr ⟨_, rfl, bits, _, [UInt8.ofNat code], [UInt8.ofNat code], ⟨before', ?_, rfl, ?_⟩, ⟨rfl, fun _ => ⟨[], spells⟩⟩,
      is.symm⟩
    · exact ⟨⟨holds.based.range, holds.based.initial, holds.based.clear, holds.based.eoi, holds.based.values⟩, holds.size,
        holds.most, holds.count, holds.room, holds.words⟩
    · exact ⟨spells, spells.first_eq, spells.count_eq, below⟩

theorem Coming.recoloured (coming : Coming minimum tail ctx values) (hasTransparency : Bool) (transparencyIdx : UInt8)
    (colourMap : Option (UInt8 → UInt32)) :
    Coming minimum tail { ctx with hasTransparency, transparencyIdx, colourMap } values := by
  obtain ⟨bits, text, word, pending, ⟨before, holds, prev, after⟩, left, rfl⟩ := coming
  refine ⟨bits, text, word, pending, ⟨before, ?_, prev, ?_⟩, ⟨left.left, left.spelled⟩, rfl⟩
  · exact ⟨⟨holds.based.range, holds.based.initial, holds.based.clear, holds.based.eoi, holds.based.values⟩, holds.size,
      holds.most, holds.count, holds.room, holds.words⟩
  · exact ⟨after.spelled, after.first, after.count, after.lower⟩

/-- What a value shows at a pixel: the transparent one leaves what is there. -/
def shown (transparencyIdx : Nat) (colourTable : UInt8 → UInt32) (value : UInt8) (there : UInt32) : UInt32 :=
  if value.toNat = transparencyIdx then there else colourTable value

theorem mapPixel_shown {transparencyIdx : Nat} {colourTable : UInt8 → UInt32}
    (same : colours ctx = (decide (transparencyIdx ≤ 0xff), UInt8.ofNat transparencyIdx, some colourTable)) :
    mapPixel ctx colourTable = shown transparencyIdx colourTable := by
  obtain ⟨has, same⟩ := Prod.mk.inj same
  have index := (Prod.mk.inj same).1
  funext value there
  have small := value.toNat_lt
  unfold mapPixel shown
  rw [has, index]
  by_cases within : transparencyIdx ≤ 0xff
  · rw [if_pos (decide_eq_true within)]
    have round : (UInt8.ofNat transparencyIdx).toNat = transparencyIdx := by
      rw [UInt8.toNat_ofNat']
      omega
    by_cases clear : value.toNat = transparencyIdx
    · have here : value = UInt8.ofNat transparencyIdx := UInt8.toNat_inj.mp (clear.trans round.symm)
      rw [if_pos clear, if_neg (not_not.mpr here)]
    · have other : value ≠ UInt8.ofNat transparencyIdx := fun here => clear (here ▸ round)
      rw [if_neg clear, if_pos other]
  · rw [if_neg (by simp [within]), if_neg (by omega)]

theorem decoded_inside (old : Ctx) (range : 2 ≤ minimum ∧ minimum ≤ 11) (front : List UInt8)
    (sizes : ∀ b ∈ blocks, 0 < b.length ∧ b.length ≤ 255) (ended : Ended tail) (bases : List (List UInt8)) :
    decoded old minimum (front ++ (packed blocks ++ tail)) front.length bases =
      (insideFrom minimum (ofBytes blocks.flatten) {}).take bases.flatten.length := by
  unfold decoded
  rcases lzwDecodeInit_spec old range front sizes ended with ⟨e, failed, nothing⟩ | ⟨ctx, ran, coming⟩
  · rw [failed, nothing, take_nil]
  · rw [ran]
    have plain : ∀ ctx stackBase, True → lzwDecode ctx stackBase = decodeInto (fun value _ => value) ctx stackBase :=
      fun _ _ _ => rfl
    exact (outputs_spec plain (fun _ _ _ => trivial) coming trivial bases).trans (zipWith_left _ _)

theorem decodedMap_inside (old : Ctx) (range : 2 ≤ minimum ∧ minimum ≤ 11) (front : List UInt8)
    (sizes : ∀ b ∈ blocks, 0 < b.length ∧ b.length ≤ 255) (ended : Ended tail) (transparencyIdx : Nat)
    (colourTable : UInt8 → UInt32) (frames : List (List UInt32)) :
    decodedMap old minimum transparencyIdx colourTable (front ++ (packed blocks ++ tail)) front.length frames =
      List.zipWith (shown transparencyIdx colourTable) (insideFrom minimum (ofBytes blocks.flatten) {}) frames.flatten := by
  unfold decodedMap lzwDecodeInitMap
  rw [if_neg (Option.some_ne_none _)]
  rcases lzwDecodeInit_spec old range front sizes ended with ⟨e, failed, nothing⟩ | ⟨ctx, ran, coming⟩
  · rw [failed, nothing, zipWith_nil_left]
    rfl
  · rw [ran]
    have start : colours { ctx with
        hasTransparency := decide (transparencyIdx ≤ 0xff)
        transparencyIdx := UInt8.ofNat transparencyIdx
        colourMap := some colourTable } = (decide (transparencyIdx ≤ 0xff), UInt8.ofNat transparencyIdx, some colourTable) := rfl
    have mapped : ∀ ctx outputData,
        colours ctx = (decide (transparencyIdx ≤ 0xff), UInt8.ofNat transparencyIdx, some colourTable) →
        lzwDecodeMap ctx outputData = decodeInto (shown transparencyIdx colourTable) ctx outputData := by
      intro ctx outputData same
      have map : ctx.colourMap = some colourTable := (Prod.mk.inj (Prod.mk.inj same).2).2
      unfold lzwDecodeMap
      rw [map, ← mapPixel_shown same]
    have coming' : Coming minimum tail { ctx with
        hasTransparency := decide (transparencyIdx ≤ 0xff)
        transparencyIdx := UInt8.ofNat transparencyIdx
        colourMap := some colourTable } _ := coming.recoloured _ _ _
    exact outputs_spec mapped (fun ctx output same => (decodeInto_colours ctx output).trans same) coming' start frames

/-- The decoder writes what the codes stand for, for each split into sub-blocks and for all outputs, if and only if each
code for values has a bit after it. -/
theorem decoded_exact (old : Ctx) (range : 2 ≤ minimum ∧ minimum ≤ 11) (front : List UInt8)
    (sizes : ∀ b ∈ blocks, 0 < b.length ∧ b.length ≤ 255) (ended : Ended tail) :
    ((∀ bases : List (List UInt8), (∀ stackBase ∈ bases, stackBase.length = lzwTableEntryMax) →
        decoded old minimum (front ++ (packed blocks ++ tail)) front.length bases =
          (expansion minimum (ofBytes blocks.flatten)).take bases.flatten.length) ∧
      ∀ transparencyIdx colourTable frames,
        decodedMap old minimum transparencyIdx colourTable (front ++ (packed blocks ++ tail)) front.length frames =
          List.zipWith (shown transparencyIdx colourTable) (expansion minimum (ofBytes blocks.flatten)) frames.flatten) ↔
      ∀ word ∈ readWords minimum (ofBytes blocks.flatten), word.2 ≠ [] := by
  constructor
  · rintro ⟨-, mapped⟩
    have all := mapped 0 (fun _ => 0) [List.replicate (expansion minimum (ofBytes blocks.flatten)).length 0]
    rw [decodedMap_inside old range front sizes ended] at all
    have lengths := congrArg List.length all
    have less : (insideFrom minimum (ofBytes blocks.flatten) {}).length ≤ (expansion minimum (ofBytes blocks.flatten)).length :=
      insideFrom_le _ _
    simp only [length_zipWith, flatten_cons, flatten_nil, append_nil, length_replicate, Nat.min_self] at lengths
    exact insideFrom_less (by omega)
  · intro followed
    have same := insideFrom_all followed
    refine ⟨fun bases _ => ?_, fun transparencyIdx colourTable frames => ?_⟩
    · rw [decoded_inside old range front sizes ended, same]
    · rw [decodedMap_inside old range front sizes ended, same]

/-- Where the end code follows, in a sub-block of its own, nothing is lost. -/
theorem decoded_exact_with_end :
    decodedMap { input := { data := [], dataSbNext := 0 } } 7 2 (fun value => value.toUInt32)
        ([] ++ (packed [[0x80, 1, 2], [0x81]] ++ [0])) ([] : List UInt8).length [[7], [7, 7]] =
      List.zipWith (shown 2 (fun value => value.toUInt32)) (expansion 7 (ofBytes [[0x80, 1, 2], [0x81]].flatten))
        [[7], [7, 7]].flatten := by
  have ended : Ended [0] := Or.inl rfl
  have followed : ∀ word ∈ readWords 7 (ofBytes [[0x80, 1, 2], [0x81]].flatten), word.2 ≠ [] := by decide +kernel
  exact ((decoded_exact { input := { data := [], dataSbNext := 0 } } (by decide) [] (by decide) ended).mpr followed).2
    2 (fun value => value.toUInt32) [[7], [7, 7]]

/-- A clear code and two values of eight bits each, in one sub-block: the second value is lost. -/
theorem last_code_lost :
    expansion 7 (ofBytes [[0x80, 1, 2]].flatten) = [1, 2] ∧
      decoded { input := { data := [], dataSbNext := 0 } } 7 (packed [[0x80, 1, 2]] ++ [0]) 0
        [List.replicate lzwTableEntryMax 0] = [1] ∧
      decodedMap { input := { data := [], dataSbNext := 0 } } 7 0x100 (fun value => value.toUInt32)
        (packed [[0x80, 1, 2]] ++ [0]) 0 [[0], [0]] = [1] := by
  decide +kernel

end Besra.LzwOutput
