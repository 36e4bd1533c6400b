import Besra.LowBits
import Besra.Lzw

/-!
How the decoder reads codes: from data in sub-blocks it gets the bits of the string that
the sub-blocks hold together, one code after the other, until there is no more bit after
a code than the code has.
-/
namespace Besra.LzwRead
open LowBits Lzw List

/-- Sub-blocks as they stand in the data, each after its size. -/
def packed (blocks : List (List UInt8)) : List UInt8 := blocks.flatMap (fun b => UInt8.ofNat b.length :: b)

/-- No sub-block starts here: the data ends, or there is one of size zero, or one that is not all there. -/
def Ended : List UInt8 → Prop
  | [] => True
  | size :: rest => size = 0 ∨ rest.length < size.toNat

/-- Where the input stands: in the bytes `cur` of a sub-block, before the sub-blocks `more`. -/
structure At (input : ReadCtx) (cur : List UInt8) (more : List (List UInt8)) (tail : List UInt8) : Prop where
  current : cur <+: input.data.drop input.sbData
  next : input.data.drop input.dataSbNext = packed more ++ tail
  sizes : ∀ b ∈ more, 0 < b.length ∧ b.length ≤ 255
  count : input.sbBitCount = cur.length * 8
  bit : input.sbBit ≤ input.sbBitCount
  before : cur.length ≤ input.dataSbNext
  ended : Ended tail

def bytesLeft (input : ReadCtx) (cur : List UInt8) (more : List (List UInt8)) : List UInt8 :=
  cur.drop (input.sbBit / 8) ++ more.flatten

def bitsLeft (input : ReadCtx) (cur : List UInt8) (more : List (List UInt8)) : List Bool :=
  (ofBytes (bytesLeft input cur more)).drop (input.sbBit % 8)

variable {input : ReadCtx} {cur tail : List UInt8} {more : List (List UInt8)}

theorem blockAdvance_cons {b : List UInt8} (place : At input cur (b :: more) tail) :
    ∃ input', blockAdvance input = .ok input' ∧ At input' b more tail ∧ input'.sbBit = 0 ∧
      input'.data = input.data := by
  obtain ⟨pos, small⟩ := place.sizes b mem_cons_self
  have next := place.next
  have size : (UInt8.ofNat b.length).toNat = b.length := by
    rw [UInt8.toNat_ofNat']
    omega
  have here : input.data.getD input.dataSbNext 0 = UInt8.ofNat b.length := by
    have head := congrArg (·[0]?) next
    simp only [packed, flatMap_cons, List.getElem?_drop, Nat.add_zero] at head
    rw [getD_eq_getElem?_getD, head]
    rfl
  have length := congrArg List.length next
  simp only [packed, flatMap_cons, length_drop, length_append, length_cons] at length
  unfold blockAdvance
  dsimp only
  rw [if_neg (by omega), here, size, if_neg (by omega), if_neg (by omega)]
  refine ⟨_, rfl, ⟨?_, ?_, fun c member => place.sizes c (mem_cons_of_mem _ member), rfl, Nat.zero_le _, ?_, place.ended⟩, rfl, rfl⟩
  · refine ⟨packed more ++ tail, ?_⟩
    rw [← drop_drop, next]
    simp [packed]
  · dsimp only
    rw [← drop_drop, next]
    simp [packed]
  · dsimp only
    omega

theorem blockAdvance_nil (place : At input cur [] tail) : ∃ e, blockAdvance input = .error e ∧ e ≠ .ok := by
  have next := place.next
  have ended := place.ended
  unfold blockAdvance
  dsimp only
  split
  · exact ⟨_, rfl, by decide⟩
  next inside =>
    split
    · exact ⟨_, rfl, by decide⟩
    next whole =>
      rcases tail with _ | ⟨size, rest⟩
      · have length := congrArg List.length next
        simp only [packed, flatMap_nil, append_nil, length_drop, length_nil] at length
        omega
      · have here : input.data.getD input.dataSbNext 0 = size := by
          have head := congrArg (·[0]?) next
          simp only [packed, flatMap_nil, nil_append, List.getElem?_drop, Nat.add_zero] at head
          rw [getD_eq_getElem?_getD, head]
          rfl
        rw [here] at whole ⊢
        have length := congrArg List.length next
        simp only [packed, flatMap_nil, nil_append, length_drop, length_cons] at length
        rcases ended with rfl | short
        · exact ⟨_, if_pos rfl, by decide⟩
        · omega

theorem bytesLeft_of_end (done : ¬ input.sbBit < input.sbBitCount) (place : At input cur more tail) :
    bytesLeft input cur more = more.flatten ∧ input.sbBit % 8 = 0 := by
  have bit : input.sbBit = cur.length * 8 := by
    have := place.bit
    have := place.count
    omega
  unfold bytesLeft
  rw [bit, Nat.mul_div_cancel _ (by decide), Nat.mul_mod_left, drop_length]
  exact ⟨rfl, rfl⟩

variable {b : UInt8} {rest : List UInt8} {start size codeSize : Nat}

theorem ready_cons (place : At input cur more tail) (left : bytesLeft input cur more = b :: rest) :
    ∃ input' cur' more', ready input = .ok input' ∧ At input' cur' more' tail ∧ bytesLeft input' cur' more' = b :: rest ∧
      input'.sbBit % 8 = input.sbBit % 8 ∧ input'.sbBit < input'.sbBitCount ∧ input'.data = input.data := by
  by_cases inside : input.sbBit < input.sbBitCount
  · exact ⟨input, cur, more, if_pos inside, place, left, rfl, inside, rfl⟩
  · obtain ⟨bytes, aligned⟩ := bytesLeft_of_end inside place
    rw [bytes] at left
    rcases more with _ | ⟨block, more⟩
    · cases left
    · obtain ⟨input', ran, place', bit, data⟩ := blockAdvance_cons place
      have filled := (place.sizes block mem_cons_self).1
      refine ⟨input', block, more, (if_neg inside).trans ran, place', ?_, ?_, ?_, data⟩
      · unfold bytesLeft
        rw [bit]
        exact left
      · rw [bit, aligned]
      · rw [bit, place'.count]
        omega

theorem ready_nil (place : At input cur more tail) (left : bytesLeft input cur more = []) :
    ∃ e, ready input = .error e ∧ e ≠ .ok := by
  by_cases inside : input.sbBit < input.sbBitCount
  · have count := place.count
    have some := congrArg List.length left
    simp only [bytesLeft, length_append, length_drop, length_nil] at some
    omega
  · obtain ⟨bytes, -⟩ := bytesLeft_of_end inside place
    rw [bytes] at left
    rcases more with _ | ⟨block, more⟩
    · obtain ⟨e, failed, bad⟩ := blockAdvance_nil place
      exact ⟨e, (if_neg inside).trans failed, bad⟩
    · have filled := (place.sizes block mem_cons_self).1
      have none := congrArg List.length left
      simp only [flatten_cons, length_append, length_nil] at none
      omega

theorem byte_here (place : At input cur more tail) (i : Nat) (there : input.sbBit / 8 + i < cur.length) :
    input.data.getD (input.sbData + input.sbBit >>> 3 + i) 0 = (bytesLeft input cur more).getD i 0 := by
  obtain ⟨after, current⟩ := place.current
  have here : input.data[input.sbData + (input.sbBit / 8 + i)]? = cur[input.sbBit / 8 + i]? := by
    rw [← List.getElem?_drop, ← current, List.getElem?_append_left there]
  unfold bytesLeft
  rw [getD_eq_getElem?_getD, getD_eq_getElem?_getD, Nat.shiftRight_eq_div_pow, Nat.add_assoc, here,
    List.getElem?_append_left (by rw [length_drop]; omega), List.getElem?_drop]

theorem used_bits (place : At input cur more tail) (inside : input.sbBit < input.sbBitCount)
    (left : bytesLeft input cur more = b :: rest) {used : Nat} (fits : input.sbBit % 8 + used ≤ 8) :
    At { input with sbBit := input.sbBit + used } cur more tail ∧
      bytesLeft { input with sbBit := input.sbBit + used } cur more =
        (if input.sbBit % 8 + used = 8 then rest else b :: rest) ∧
      bitsLeft { input with sbBit := input.sbBit + used } cur more = (bitsLeft input cur more).drop used := by
  have count := place.count
  have bytes : bytesLeft { input with sbBit := input.sbBit + used } cur more =
      (if input.sbBit % 8 + used = 8 then rest else b :: rest) := by
    unfold bytesLeft at left ⊢
    dsimp only
    split
    next whole =>
      have place : (input.sbBit + used) / 8 = input.sbBit / 8 + 1 := by omega
      have first : (cur.drop (input.sbBit / 8)).length ≠ 0 := by
        rw [length_drop]
        omega
      rw [place, ← drop_drop]
      rcases parts : cur.drop (input.sbBit / 8) with _ | ⟨c, cs⟩
      · rw [parts] at first
        exact absurd rfl first
      · rw [parts] at left
        exact (List.cons.inj left).2
    next part =>
      have place : (input.sbBit + used) / 8 = input.sbBit / 8 := by omega
      rw [place, left]
  refine ⟨⟨place.current, place.next, place.sizes, count, ?_, place.before, place.ended⟩, bytes, ?_⟩
  · dsimp only
    omega
  · unfold bitsLeft
    rw [bytes, left]
    dsimp only
    rw [drop_drop]
    split
    next whole =>
      have aligned : (input.sbBit + used) % 8 = 0 := by omega
      rw [aligned, whole, ofBytes_cons, drop_left' (by simp)]
      rfl
    next part =>
      have bit : (input.sbBit + used) % 8 = input.sbBit % 8 + used := by omega
      rw [bit]

theorem gather_cons (place : At input cur more tail) (used : Nat → Nat) (byte : Nat)
    (left : bytesLeft input cur more = b :: rest) (fits : input.sbBit % 8 + used byte ≤ 8) (wanted code : Nat) :
    ∃ input' cur' more', At input' cur' more' tail ∧
      gather used (wanted + 1) byte input code = gather used wanted (byte + 1) input' (code ||| (b.toNat <<< (8 * byte))) ∧
      bytesLeft input' cur' more' = (if input.sbBit % 8 + used byte = 8 then rest else b :: rest) ∧
      bitsLeft input' cur' more' = (bitsLeft input cur more).drop (used byte) ∧
      input'.sbBit % 8 = (input.sbBit % 8 + used byte) % 8 ∧ input'.data = input.data := by
  obtain ⟨input₁, cur₁, more₁, ran, place₁, left₁, bit, inside, data⟩ := ready_cons place left
  have count := place₁.count
  have here : input₁.data.getD (input₁.sbData + input₁.sbBit >>> 3) 0 = b := by
    have read := byte_here place₁ 0 (by omega)
    rw [left₁] at read
    exact read
  obtain ⟨place₂, bytes, bits⟩ := used_bits place₁ inside left₁ (bit ▸ fits)
  refine ⟨_, cur₁, more₁, place₂, ?_, bit ▸ bytes, ?_, ?_, data⟩
  · rw [gather, ran]
    show gather used wanted (byte + 1) _ (code ||| ((input₁.data.getD _ 0).toNat <<< (byte <<< 3))) = _
    rw [here, Nat.shiftLeft_eq byte, Nat.mul_comm byte]
  · rw [bits]
    unfold bitsLeft
    rw [left, left₁, bit]
  · dsimp only
    omega

theorem gather_nil (place : At input cur more tail) (left : bytesLeft input cur more = []) (used : Nat → Nat)
    (wanted byte code : Nat) : ∃ e, gather used (wanted + 1) byte input code = .error e ∧ e ≠ .ok := by
  obtain ⟨e, failed, bad⟩ := ready_nil place left
  refine ⟨e, ?_, bad⟩
  rw [gather, failed]
  rfl

theorem window_prefix {l m : List Bool} (inside : start + size ≤ l.length) :
    ((l ++ m).drop start).take size = (l.drop start).take size := by
  rw [drop_append, take_append, Nat.sub_eq_zero_of_le (by omega : start ≤ l.length), drop_zero,
    length_drop, Nat.sub_eq_zero_of_le (by omega), take_zero, append_nil]

theorem code_of_bytes {bytes : List UInt8} (inside : start + size ≤ 8 * bytes.length) :
    (value (ofBytes bytes) >>> start) &&& ((1 <<< size) - 1) =
      value (((ofBytes (bytes ++ rest)).drop start).take size) := by
  rw [value_window, ofBytes_append, window_prefix (by rw [length_ofBytes]; exact inside)]

theorem length_bitsLeft (input : ReadCtx) (cur : List UInt8) (more : List (List UInt8)) :
    (bitsLeft input cur more).length = 8 * (bytesLeft input cur more).length - input.sbBit % 8 := by
  unfold bitsLeft
  rw [length_drop, length_ofBytes]

theorem bitsLeft_eq (place : At input cur more tail) :
    bitsLeft input cur more = (ofBytes cur).drop input.sbBit ++ ofBytes more.flatten := by
  have count := place.count
  have bit := place.bit
  have inside : input.sbBit % 8 ≤ (ofBytes (cur.drop (input.sbBit / 8))).length := by
    rw [length_ofBytes, length_drop]
    omega
  unfold bitsLeft bytesLeft
  rw [ofBytes_append, drop_append_of_le_length inside, ofBytes_drop, drop_drop, Nat.div_add_mod]

def Fetched (input : ReadCtx) (cur : List UInt8) (more : List (List UInt8)) (tail : List UInt8) (codeSize : Nat)
    (outcome : Except LzwResult (ReadCtx × Nat)) : Prop :=
  ∃ input' cur' more' bytes rest, outcome = .ok (input', value (ofBytes bytes)) ∧
    bytesLeft input cur more = bytes ++ rest ∧ input.sbBit % 8 + codeSize ≤ 8 * bytes.length ∧ At input' cur' more' tail ∧
    bitsLeft input' cur' more' = (bitsLeft input cur more).drop codeSize ∧ input'.data = input.data

theorem fetched_fast (place : At input cur more tail) (small : codeSize ≤ 12)
    (three : input.sbBit + 24 ≤ input.sbBitCount) :
    Fetched input cur more tail codeSize (codeBytes input codeSize) := by
  have count := place.count
  have length : 3 ≤ (cur.drop (input.sbBit / 8)).length := by
    rw [length_drop]
    omega
  obtain ⟨b, c, d, rest, left⟩ : ∃ b c d rest, cur.drop (input.sbBit / 8) = b :: c :: d :: rest := by
    rcases parts : cur.drop (input.sbBit / 8) with _ | ⟨b, _ | ⟨c, _ | ⟨d, rest⟩⟩⟩
    · rw [parts] at length
      simp at length
    · rw [parts] at length
      simp at length
    · rw [parts] at length
      simp at length
    · exact ⟨b, c, d, rest, rfl⟩
  have bytes : bytesLeft input cur more = [b, c, d] ++ (rest ++ more.flatten) := by
    unfold bytesLeft
    rw [left]
    rfl
  have reads : ∀ i < 3, input.data.getD (input.sbData + input.sbBit >>> 3 + i) 0 = (bytesLeft input cur more).getD i 0 := by
    intro i small
    exact byte_here place i (by omega)
  have first := reads 0 (by decide)
  have second := reads 1 (by decide)
  have third := reads 2 (by decide)
  rw [bytes] at first second third
  have bit : input.sbBit + codeSize ≤ cur.length * 8 := by omega
  have place' : At { input with sbBit := input.sbBit + codeSize } cur more tail :=
    ⟨place.current, place.next, place.sizes, count, by rw [count]; exact bit, place.before, place.ended⟩
  refine ⟨_, cur, more, [b, c, d], rest ++ more.flatten, ?_, bytes, ?_, place', ?_, rfl⟩
  · unfold codeBytes
    dsimp only
    rw [if_pos three, first, second, third]
    show Except.ok (_, 0 ||| (b.toNat <<< 0) ||| (c.toNat <<< 8) ||| (d.toNat <<< 16)) = _
    have one : 0 ||| (b.toNat <<< 0) = value (ofBytes [b]) := value_snoc [] b
    have two : value (ofBytes [b]) ||| (c.toNat <<< 8) = value (ofBytes [b, c]) := value_snoc [b] c
    have three : value (ofBytes [b, c]) ||| (d.toNat <<< 16) = value (ofBytes [b, c, d]) := value_snoc [b, c] d
    rw [one, two, three]
  · show input.sbBit % 8 + codeSize ≤ 24
    omega
  · rw [bitsLeft_eq place', bitsLeft_eq place, drop_append_of_le_length, drop_drop]
    rw [length_drop, length_ofBytes]
    omega

theorem bitsUsed_within (below : start < 8) (one : (start + size) / 8 = 0) : bitsUsed start size 0 = size := by
  simp only [bitsUsed]
  split <;> omega

theorem bitsUsed_first (below : start < 8) (more : (start + size) / 8 ≠ 0) : bitsUsed start size 0 = 8 - start := by
  simp only [bitsUsed]
  split <;> omega

theorem bitsUsed_second (below : start < 8) (two : (start + size) / 8 = 1) :
    bitsUsed start size 1 = size - (8 - start) := by
  simp only [bitsUsed]
  split <;> split <;> omega

theorem bitsUsed_middle (below : start < 8) (three : (start + size) / 8 = 2) : bitsUsed start size 1 = 8 := by
  simp only [bitsUsed]
  split <;> split <;> omega

theorem bitsUsed_third (below : start < 8) (three : (start + size) / 8 = 2) :
    bitsUsed start size 2 = size - (8 - start) - 8 := by
  simp only [bitsUsed]
  split <;> omega

theorem fetched_slow (place : At input cur more tail) (small : codeSize ≤ 12)
    (short : ¬ input.sbBit + 24 ≤ input.sbBitCount) (enough : codeSize < (bitsLeft input cur more).length) :
    Fetched input cur more tail codeSize (codeBytes input codeSize) := by
  rw [length_bitsLeft] at enough
  have mask : input.sbBit &&& 7 = input.sbBit % 8 := Nat.and_two_pow_sub_one_eq_mod input.sbBit 3
  have below : input.sbBit % 8 < 8 := Nat.mod_lt _ (by decide)
  have reach : (input.sbBit % 8 + codeSize) >>> 3 = (input.sbBit % 8 + codeSize) / 8 := Nat.shiftRight_eq_div_pow _ 3
  unfold codeBytes
  dsimp only
  rw [if_neg short, mask, reach]
  rcases left : bytesLeft input cur more with _ | ⟨b, rest⟩
  · rw [left] at enough
    simp at enough
  have whole : (bytesLeft input cur more).length = rest.length + 1 := by rw [left, length_cons]
  have byte₁ : 0 ||| (b.toNat <<< (8 * 0)) = value (ofBytes [b]) := value_snoc [] b
  by_cases one : (input.sbBit % 8 + codeSize) / 8 = 0
  · -- the code ends within its first byte
    have used := bitsUsed_within below one
    obtain ⟨input₁, cur₁, more₁, place₁, ran₁, -, bits₁, -, data₁⟩ :=
      gather_cons place (bitsUsed (input.sbBit % 8) codeSize) 0 left (by omega) 0 0
    rw [used] at bits₁
    refine ⟨input₁, cur₁, more₁, [b], rest, ?_, left, ?_, place₁, bits₁, data₁⟩
    · rw [one, ran₁, byte₁]
      rfl
    · show _ ≤ 8
      omega
  · have used₁ := bitsUsed_first below one
    obtain ⟨input₁, cur₁, more₁, place₁, ran₁, left₁, bits₁, bit₁, data₁⟩ :=
      gather_cons place (bitsUsed (input.sbBit % 8) codeSize) 0 left (by omega) ((input.sbBit % 8 + codeSize) / 8) 0
    rw [if_pos (by omega)] at left₁
    rw [used₁] at bits₁ bit₁
    have aligned₁ : input₁.sbBit % 8 = 0 := by omega
    rcases rest with _ | ⟨c, rest⟩
    · simp only [length_nil] at whole
      omega
    simp only [length_cons] at whole
    have byte₂ : value (ofBytes [b]) ||| (c.toNat <<< (8 * 1)) = value (ofBytes [b, c]) := value_snoc [b] c
    by_cases two : (input.sbBit % 8 + codeSize) / 8 = 1
    · have used₂ := bitsUsed_second below two
      obtain ⟨input₂, cur₂, more₂, place₂, ran₂, -, bits₂, -, data₂⟩ :=
        gather_cons place₁ (bitsUsed (input.sbBit % 8) codeSize) 1 left₁ (by omega) 0 (value (ofBytes [b]))
      rw [used₂, bits₁, drop_drop] at bits₂
      refine ⟨input₂, cur₂, more₂, [b, c], rest, ?_, left, ?_, place₂, ?_, data₂.trans data₁⟩
      · rw [ran₁, byte₁, two, ran₂, byte₂]
        rfl
      · show _ ≤ 16
        omega
      · rw [bits₂]
        congr 1
        omega
    · have three : (input.sbBit % 8 + codeSize) / 8 = 2 := by omega
      have used₂ := bitsUsed_middle below three
      obtain ⟨input₂, cur₂, more₂, place₂, ran₂, left₂, bits₂, bit₂, data₂⟩ :=
        gather_cons place₁ (bitsUsed (input.sbBit % 8) codeSize) 1 left₁ (by omega) 1 (value (ofBytes [b]))
      rw [if_pos (by omega)] at left₂
      rw [used₂, bits₁, drop_drop] at bits₂
      rw [used₂] at bit₂
      rcases rest with _ | ⟨d, rest⟩
      · simp only [length_nil] at whole
        omega
      have byte₃ : value (ofBytes [b, c]) ||| (d.toNat <<< (8 * 2)) = value (ofBytes [b, c, d]) := value_snoc [b, c] d
      have used₃ := bitsUsed_third below three
      obtain ⟨input₃, cur₃, more₃, place₃, ran₃, -, bits₃, -, data₃⟩ :=
        gather_cons place₂ (bitsUsed (input.sbBit % 8) codeSize) 2 left₂ (by omega) 0 (value (ofBytes [b, c]))
      rw [used₃, bits₂, drop_drop] at bits₃
      refine ⟨input₃, cur₃, more₃, [b, c, d], rest, ?_, left, ?_, place₃, ?_, data₃.trans (data₂.trans data₁)⟩
      · rw [ran₁, byte₁, three, ran₂, byte₂, ran₃, byte₃]
        rfl
      · show _ ≤ 24
        omega
      · rw [bits₃]
        congr 1
        omega

theorem unfetched (place : At input cur more tail) (small : codeSize ≤ 12)
    (short : ¬ codeSize < (bitsLeft input cur more).length) : ∃ e, codeBytes input codeSize = .error e ∧ e ≠ .ok := by
  have count := place.count
  rw [length_bitsLeft] at short
  have mask : input.sbBit &&& 7 = input.sbBit % 8 := Nat.and_two_pow_sub_one_eq_mod input.sbBit 3
  have below : input.sbBit % 8 < 8 := Nat.mod_lt _ (by decide)
  have reach : (input.sbBit % 8 + codeSize) >>> 3 = (input.sbBit % 8 + codeSize) / 8 := Nat.shiftRight_eq_div_pow _ 3
  have slow : ¬ input.sbBit + 24 ≤ input.sbBitCount := by
    intro three
    have length : (bytesLeft input cur more).length = (cur.length - input.sbBit / 8) + more.flatten.length := by
      unfold bytesLeft
      rw [length_append, length_drop]
    omega
  unfold codeBytes
  dsimp only
  rw [if_neg slow, mask, reach]
  rcases left : bytesLeft input cur more with _ | ⟨b, rest⟩
  · exact gather_nil place left _ _ _ _
  rw [left, length_cons] at short
  have several : (input.sbBit % 8 + codeSize) / 8 ≠ 0 := by omega
  have used₁ := bitsUsed_first below several
  obtain ⟨input₁, cur₁, more₁, place₁, ran₁, left₁, -, bit₁, -⟩ :=
    gather_cons place (bitsUsed (input.sbBit % 8) codeSize) 0 left (by omega) ((input.sbBit % 8 + codeSize) / 8) 0
  rw [if_pos (by omega)] at left₁
  rw [ran₁]
  obtain ⟨wanted, reaches⟩ := Nat.exists_eq_succ_of_ne_zero several
  rw [reaches]
  rcases rest with _ | ⟨c, rest⟩
  · exact gather_nil place₁ left₁ _ _ _ _
  rw [length_cons] at short
  have three : (input.sbBit % 8 + codeSize) / 8 = 2 := by omega
  have used₂ := bitsUsed_middle below three
  obtain ⟨input₂, cur₂, more₂, place₂, ran₂, left₂, -, -, -⟩ :=
    gather_cons place₁ (bitsUsed (input.sbBit % 8) codeSize) 1 left₁ (by omega) wanted (0 ||| (b.toNat <<< (8 * 0)))
  rw [if_pos (by omega)] at left₂
  rw [ran₂]
  obtain rfl : wanted = 0 + 1 := by omega
  rcases rest with _ | ⟨d, rest⟩
  · exact gather_nil place₂ left₂ _ _ _ _
  · rw [length_cons] at short
    omega

theorem readCode_some (place : At input cur more tail) (small : codeSize ≤ 12)
    (enough : codeSize < (bitsLeft input cur more).length) :
    ∃ input' cur' more', readCode input codeSize = .ok (input', value ((bitsLeft input cur more).take codeSize)) ∧
      At input' cur' more' tail ∧ bitsLeft input' cur' more' = (bitsLeft input cur more).drop codeSize ∧
      input'.data = input.data := by
  have fetched : Fetched input cur more tail codeSize (codeBytes input codeSize) := by
    by_cases three : input.sbBit + 24 ≤ input.sbBitCount
    · exact fetched_fast place small three
    · exact fetched_slow place small three enough
  obtain ⟨input', cur', more', bytes, rest, ran, left, inside, place', bits, data⟩ := fetched
  refine ⟨input', cur', more', ?_, place', bits, data⟩
  have mask : input.sbBit &&& 7 = input.sbBit % 8 := Nat.and_two_pow_sub_one_eq_mod input.sbBit 3
  unfold readCode
  rw [ran]
  show Except.ok (input', (value (ofBytes bytes) >>> (input.sbBit &&& 7)) &&& ((1 <<< codeSize) - 1)) = _
  unfold bitsLeft
  rw [mask, code_of_bytes inside, left]

theorem readCode_none (place : At input cur more tail) (small : codeSize ≤ 12)
    (short : ¬ codeSize < (bitsLeft input cur more).length) : ∃ e, readCode input codeSize = .error e ∧ e ≠ .ok := by
  obtain ⟨e, failed, bad⟩ := unfetched place small short
  refine ⟨e, ?_, bad⟩
  unfold readCode
  rw [failed]
  rfl

theorem bits_le (place : At input cur more tail) : (bitsLeft input cur more).length ≤ 8 * input.data.length := by
  have next := congrArg List.length place.next
  have current := place.current.length_le
  have before := place.before
  have blocks : more.flatten.length ≤ (packed more).length := by
    unfold packed
    generalize more = bs
    induction bs with
    | nil => rfl
    | cons b bs ih =>
      simp only [flatten_cons, flatMap_cons, length_append, length_cons] at ih ⊢
      omega
  rw [length_drop, length_append] at next
  rw [length_drop] at current
  rw [length_bitsLeft]
  have length : (bytesLeft input cur more).length = (cur.length - input.sbBit / 8) + more.flatten.length := by
    unfold bytesLeft
    rw [length_append, length_drop]
  omega

end Besra.LzwRead
