import Besra.Block
import Besra.DomString

/-!
The buffer of `libparserutils/src/utils/buffer.c`. Its bytes are somewhere in a block of memory: what is discarded at
the front only moves the pointer at them, and they move back to the start of the block once they fit in what is free
before them. `none` stands for what is undefined: an access outside the block, or `memcpy` between regions that
overlap. However calls succeed and fail, the buffer holds the list that the calls that succeeded make
(`buffer_is_sequence`).
-/
namespace Besra.ParserBuffer
open Block
open DomString (sizeSub)
open Utf8 (Error)

/-- `realloc` during a call: the sizes it can provide, none of them above `PTRDIFF_MAX`, and what is in new memory. -/
structure Realloc where
  grants : ℕ → Bool
  limit : ∀ size, grants size = true → size < 2 ^ 63
  fill : ℕ → UInt8

/-- `realloc`; none where it returns NULL. -/
def Realloc.realloc (r : Realloc) (block : List UInt8) (size : ℕ) : Option (List UInt8) :=
  if r.grants size then some ((block ++ (List.range size).map r.fill).take size) else none

/-- `memcpy` within a block. -/
def memcpy (block : List UInt8) (dest src n : ℕ) : Option (List UInt8) :=
  if (dest + n ≤ src ∨ src + n ≤ dest) ∧ src + n ≤ block.length ∧ dest + n ≤ block.length then
    some (poke block dest (window block src n))
  else none

/-- `memmove` within a block. -/
def memmove (block : List UInt8) (dest src n : ℕ) : Option (List UInt8) :=
  if src + n ≤ block.length ∧ dest + n ≤ block.length then some (poke block dest (window block src n)) else none

/-- `memcpy` of data from elsewhere. -/
def memcpyFrom (block : List UInt8) (dest : ℕ) (data : List UInt8) : Option (List UInt8) :=
  if dest + data.length ≤ block.length then some (poke block dest data) else none

/-- `parserutils_buffer`, with the block at `alloc`; `data` is the distance from `alloc`. -/
structure Buffer where
  block : List UInt8
  data : ℕ
  length : ℕ
  allocated : ℕ
deriving DecidableEq

def defaultSize : ℕ := 4096

/-- `parserutils_buffer_create`, when there is memory. -/
def create (r : Realloc) : Buffer := ⟨(List.range defaultSize).map r.fill, 0, 0, defaultSize⟩

def tryRebase (b : Buffer) : Option Buffer :=
  if b.length ≤ b.data then (memcpy b.block 0 b.data b.length).map fun block => { b with block := block, data := 0 }
  else some b

/-- `parserutils_buffer_grow` -/
def grow (r : Realloc) (b : Buffer) : Error × Buffer :=
  let size := b.allocated * 2 % 2 ^ 64
  match r.realloc b.block size with
  | none => (.nomem, b)
  | some block => (.ok, { b with block := block, allocated := size })

/-- The loop of `ensure_space`. -/
def spaceLoop (r : Realloc) (len : ℕ) : ℕ → Buffer → Option (Error × Buffer)
  | 0, _ => none
  | fuel + 1, b =>
    if sizeSub (sizeSub b.allocated b.length) b.data ≤ len then
      match grow r b with
      | (.ok, b) => spaceLoop r len fuel b
      | (error, b) => some (error, b)
    else some (.ok, b)

def ensureSpace (r : Realloc) (b : Buffer) (len : ℕ) : Option (Error × Buffer) := (tryRebase b).bind (spaceLoop r len 64)

/-- `parserutils_buffer_append` -/
def append (r : Realloc) (b : Buffer) (data : List UInt8) : Option (Error × Buffer) := do
  let (error, b) ← ensureSpace r b data.length
  if error ≠ .ok then some (error, b)
  else
    let block ← memcpyFrom b.block (b.data + b.length) data
    some (.ok, { b with block := block, length := b.length + data.length })

/-- `parserutils_buffer_insert` -/
def insert (r : Realloc) (b : Buffer) (offset : ℕ) (data : List UInt8) : Option (Error × Buffer) :=
  if b.length < offset then some (.badparm, b)
  else if offset = b.length then append r b data
  else do
    let (error, b) ← ensureSpace r b data.length
    if error ≠ .ok then some (error, b)
    else
      let block ← memmove b.block (b.data + offset + data.length) (b.data + offset) (b.length - offset)
      let block ← memcpyFrom block (b.data + offset) data
      some (.ok, { b with block := block, length := b.length + data.length })

/-- `parserutils_buffer_discard`; the sum of offset and length wraps around. -/
def discard (b : Buffer) (offset len : ℕ) : Option (Error × Buffer) :=
  if b.length ≤ offset ∨ b.length < (offset + len) % 2 ^ 64 then some (.badparm, b)
  else if offset = 0 then do
    let b ← tryRebase { b with data := b.data + len, length := sizeSub b.length len }
    some (.ok, b)
  else do
    let block ← memmove b.block (b.data + offset) (b.data + offset + len) (sizeSub b.length ((len + offset) % 2 ^ 64))
    some (.ok, { b with block := block, length := sizeSub b.length len })

/-- A call on a buffer. -/
inductive Call where
  | append (data : List UInt8)
  | insert (offset : ℕ) (data : List UInt8)
  | discard (offset len : ℕ)
  | grow
deriving DecidableEq

def Call.run (r : Realloc) (b : Buffer) : Call → Option (Error × Buffer)
  | .append data => ParserBuffer.append r b data
  | .insert offset data => ParserBuffer.insert r b offset data
  | .discard offset len => ParserBuffer.discard b offset len
  | .grow => some (ParserBuffer.grow r b)

def Call.apply (s : List UInt8) : Call → List UInt8
  | .append data => s ++ data
  | .insert offset data => s.take offset ++ (data ++ s.drop offset)
  | .discard offset len => s.take offset ++ s.drop (offset + len)
  | .grow => s

def Call.Inside (s : List UInt8) : Call → Prop
  | .insert offset _ => offset ≤ s.length
  | .discard offset len => offset < s.length ∧ offset + len ≤ s.length
  | _ => True

/-- A buffer after calls, and the sequence that those of them that succeeded make. -/
inductive After : Buffer → List UInt8 → Prop
  | create (r : Realloc) : After (create r) []
  | succeeded {b b' : Buffer} {s : List UInt8} {c : Call} (r : Realloc) (before : After b s) (inside : c.Inside s)
      (run : c.run r b = some (.ok, b')) : After b' (c.apply s)
  | failed {b b' : Buffer} {s : List UInt8} {c : Call} {error : Error} (r : Realloc) (before : After b s)
      (inside : c.Inside s) (run : c.run r b = some (error, b')) (notOk : error ≠ .ok) : After b' s

/-- The `length` bytes from `data`. -/
def Buffer.bytes (b : Buffer) : List UInt8 := window b.block b.data b.length

/-- The bytes are inside the block, which is no larger than a block can be. -/
structure Buffer.Sound (b : Buffer) : Prop where
  block : b.block.length = b.allocated
  inside : b.data + b.length ≤ b.allocated
  some : 0 < b.allocated
  limit : b.allocated < 2 ^ 63

/-- A call has a result, leaves the buffer sound and, unless it fails, with the bytes it is to have. -/
def Does (b : Buffer) (result : Option (Error × Buffer)) (s : List UInt8) : Prop :=
  ∃ error b', result = some (error, b') ∧ b'.Sound ∧ b'.bytes = if error = .ok then s else b.bytes

variable {b : Buffer} {block new s : List UInt8} {size : ℕ} {r : Realloc} {c : Call}

theorem Buffer.Sound.length_bytes (sound : b.Sound) : b.bytes.length = b.length :=
  length_window (sound.block ▸ sound.inside)

theorem sound_create (r : Realloc) : (create r).Sound := by
  constructor <;> simp [create, defaultSize]

theorem bytes_create (r : Realloc) : (create r).bytes = [] := by
  rw [Buffer.bytes, window, create]
  rfl

theorem length_realloc (granted : r.realloc block size = some new) : new.length = size ∧ size < 2 ^ 63 := by
  rw [Realloc.realloc] at granted
  split at granted
  next grants =>
    obtain rfl := Option.some.inj granted
    refine ⟨?_, r.limit size grants⟩
    rw [List.length_take, List.length_append, List.length_map, List.length_range]
    omega
  next => cases granted

theorem window_realloc {start n : ℕ} (granted : r.realloc block size = some new) (inside : start + n ≤ block.length)
    (larger : block.length ≤ size) : window new start n = window block start n := by
  rw [Realloc.realloc] at granted
  split at granted
  next =>
    obtain rfl := Option.some.inj granted
    rw [window_of_take (by omega), window_of_append inside]
  next => cases granted

theorem grow_cases (r : Realloc) (sound : b.Sound) :
    grow r b = (.nomem, b) ∨ ∃ b', grow r b = (.ok, b') ∧ b'.Sound ∧ b'.bytes = b.bytes ∧ b'.data = b.data ∧
      b'.length = b.length ∧ b'.allocated = b.allocated * 2 := by
  have small := sound.limit
  have size : b.allocated * 2 % 2 ^ 64 = b.allocated * 2 := Nat.mod_eq_of_lt (by omega)
  rw [grow, size]
  rcases granted : r.realloc b.block (b.allocated * 2) with _ | block
  · exact .inl rfl
  · obtain ⟨length, limit⟩ := length_realloc granted
    have inside := sound.inside
    refine .inr ⟨_, rfl, ⟨length, ?_, ?_, limit⟩, ?_, rfl, rfl, rfl⟩
    · show b.data + b.length ≤ b.allocated * 2
      omega
    · exact Nat.mul_pos sound.some (by decide)
    · exact window_realloc granted (sound.block ▸ inside) (by rw [sound.block]; omega)

theorem tryRebase_eq (sound : b.Sound) :
    ∃ b', tryRebase b = some b' ∧ b'.Sound ∧ b'.bytes = b.bytes ∧ b'.length = b.length := by
  have inside := sound.inside
  have length := sound.length_bytes
  have block := sound.block
  rw [tryRebase]
  split
  next room =>
    have fits : 0 + b.bytes.length ≤ b.block.length := by omega
    refine ⟨{ b with block := poke b.block 0 b.bytes, data := 0 }, ?_, ⟨?_, ?_, sound.some, sound.limit⟩, ?_, rfl⟩
    · rw [memcpy, if_pos (by omega)]
      rfl
    · exact (length_poke fits).trans block
    · show 0 + b.length ≤ b.allocated
      omega
    · have moved := window_poke_self fits
      rwa [length] at moved
  next => exact ⟨b, rfl, sound, rfl, rfl⟩

theorem free_eq (sound : b.Sound) :
    sizeSub (sizeSub b.allocated b.length) b.data = b.allocated - b.length - b.data := by
  have inside := sound.inside
  have shorter : b.length ≤ b.allocated := by omega
  rw [sizeSub, sizeSub, if_pos shorter, if_pos (by omega)]

theorem spaceLoop_eq (r : Realloc) (len : ℕ) {fuel : ℕ} (sound : b.Sound) (enough : 2 ^ 63 ≤ b.allocated * 2 ^ fuel) :
    ∃ error b', spaceLoop r len (fuel + 1) b = some (error, b') ∧ b'.Sound ∧ b'.bytes = b.bytes ∧
      b'.length = b.length ∧ (error = .ok → b'.data + b'.length + len < b'.allocated) := by
  induction fuel generalizing b with
  | zero =>
    have limit := sound.limit
    omega
  | succ fuel ih =>
    rw [spaceLoop, free_eq sound]
    split
    next =>
      rcases grow_cases r sound with fails | ⟨b', grows, sound', bytes, data, length, allocated⟩
      · rw [fails]
        exact ⟨.nomem, b, rfl, sound, rfl, rfl, by simp⟩
      · have enough' : 2 ^ 63 ≤ b'.allocated * 2 ^ fuel := by
          rw [allocated, Nat.mul_assoc, ← Nat.pow_succ']
          exact enough
        obtain ⟨error, b'', run, sound'', bytes', length', room⟩ := ih sound' enough'
        rw [grows]
        exact ⟨error, b'', run, sound'', bytes'.trans bytes, length'.trans length, room⟩
    next room => exact ⟨.ok, b, rfl, sound, rfl, rfl, fun _ => by have := sound.inside; omega⟩

theorem ensureSpace_eq (r : Realloc) (len : ℕ) (sound : b.Sound) :
    ∃ error b', ensureSpace r b len = some (error, b') ∧ b'.Sound ∧ b'.bytes = b.bytes ∧ b'.length = b.length ∧
      (error = .ok → b'.data + b'.length + len < b'.allocated) := by
  obtain ⟨b', rebased, sound', bytes, length⟩ := tryRebase_eq sound
  have enough : 2 ^ 63 ≤ b'.allocated * 2 ^ 63 := Nat.le_mul_of_pos_left _ sound'.some
  obtain ⟨error, b'', run, sound'', bytes', length', room⟩ := spaceLoop_eq r len sound' enough
  refine ⟨error, b'', ?_, sound'', bytes'.trans bytes, length'.trans length, room⟩
  rw [ensureSpace, rebased]
  exact run

theorem does_append (r : Realloc) (sound : b.Sound) (data : List UInt8) :
    Does b (append r b data) (b.bytes ++ data) := by
  obtain ⟨error, b', ensured, sound', bytes, length, room⟩ := ensureSpace_eq r data.length sound
  rw [append, ensured]
  by_cases ok : error = .ok
  · have free := room ok
    have block := sound'.block
    have fits : b'.data + b'.length + data.length ≤ b'.block.length := by omega
    refine ⟨.ok, { b' with block := poke b'.block (b'.data + b'.length) data, length := b'.length + data.length }, ?_,
      ⟨(length_poke fits).trans block, ?_, sound'.some, sound'.limit⟩, ?_⟩
    · simp [ok, memcpyFrom, fits]
    · show b'.data + (b'.length + data.length) ≤ b'.allocated
      omega
    · rw [if_pos rfl, ← bytes, Buffer.bytes, Buffer.bytes, window_append, window_poke_self fits,
        window_poke_apart fits (.inl (Nat.le_refl _))]
  · exact ⟨error, b', by simp [ok], sound', by rw [if_neg ok, bytes]⟩

theorem does_insert (r : Realloc) (sound : b.Sound) (offset : ℕ) (data : List UInt8) :
    Does b (insert r b offset data) (b.bytes.take offset ++ (data ++ b.bytes.drop offset)) := by
  have all := sound.length_bytes
  rw [insert]
  split
  next => exact ⟨.badparm, b, rfl, sound, rfl⟩
  next among =>
    split
    next last =>
      rw [List.take_of_length_le (by omega), List.drop_of_length_le (by omega), List.append_nil]
      exact does_append r sound data
    next middle =>
      obtain ⟨error, b', ensured, sound', bytes, length, room⟩ := ensureSpace_eq r data.length sound
      rw [ensured]
      by_cases ok : error = .ok
      · have free := room ok
        have block := sound'.block
        -- what is behind the place moves away from it, and the data is written between
        have tail : (window b'.block (b'.data + offset) (b'.length - offset)).length = b'.length - offset :=
          length_window (by omega)
        have fits : b'.data + offset + data.length + (window b'.block (b'.data + offset) (b'.length - offset)).length ≤
            b'.block.length := by omega
        have moved := length_poke fits
        have fits' : b'.data + offset + data.length ≤
            (poke b'.block (b'.data + offset + data.length)
              (window b'.block (b'.data + offset) (b'.length - offset))).length := by omega
        refine ⟨.ok, ⟨poke (poke b'.block (b'.data + offset + data.length)
          (window b'.block (b'.data + offset) (b'.length - offset))) (b'.data + offset) data, b'.data,
          b'.length + data.length, b'.allocated⟩, ?_, ⟨(length_poke fits').trans (moved.trans block), ?_, sound'.some,
          sound'.limit⟩, ?_⟩
        · have inside : b'.data + offset + (b'.length - offset) ≤ b'.block.length ∧
              b'.data + offset + data.length + (b'.length - offset) ≤ b'.block.length := by omega
          simp only [Option.bind_eq_bind, Option.bind_some, ok, ne_eq, not_true_eq_false, if_false, memmove, if_pos inside,
            memcpyFrom, if_pos fits']
        · show b'.data + (b'.length + data.length) ≤ b'.allocated
          omega
        · have sizes : b'.length + data.length = offset + (data.length + (b'.length - offset)) := by omega
          have front := window_poke_apart fits' (.inl (Nat.le_refl (b'.data + offset)))
          have front' := window_poke_apart fits (.inl (Nat.le_add_right (b'.data + offset) data.length))
          have back : window _ (b'.data + offset + data.length) (b'.length - offset) = _ :=
            window_poke_apart fits' (.inr (Nat.le_refl _))
          have back' := window_poke_self fits
          rw [tail] at back'
          rw [if_pos rfl, ← bytes, Buffer.bytes, Buffer.bytes, sizes, window_append, window_append,
            window_poke_self fits', back, back', front, front', take_window _ (by omega), drop_window]
      · exact ⟨error, b', by simp [ok], sound', by rw [if_neg ok, bytes]⟩

theorem does_discard (sound : b.Sound) {offset len : ℕ} (start : offset < b.length) (inside : offset + len ≤ b.length) :
    Does b (discard b offset len) (b.bytes.take offset ++ b.bytes.drop (offset + len)) := by
  have within := sound.inside
  have limit := sound.limit
  have block := sound.block
  have sum : (offset + len) % 2 ^ 64 = offset + len := Nat.mod_eq_of_lt (by omega)
  have less : sizeSub b.length len = b.length - len := if_pos (by omega)
  rw [discard, sum, if_neg (by omega), less]
  split
  next first =>
    have advanced : Buffer.Sound { b with data := b.data + len, length := b.length - len } := by
      refine ⟨block, ?_, sound.some, limit⟩
      show b.data + len + (b.length - len) ≤ b.allocated
      omega
    obtain ⟨b', rebased, sound', bytes, -⟩ := tryRebase_eq advanced
    refine ⟨.ok, b', by rw [rebased]; rfl, sound', ?_⟩
    rw [bytes, if_pos rfl, first, List.take_zero, List.nil_append, Nat.zero_add, Buffer.bytes, Buffer.bytes, drop_window]
  next =>
    have rest : sizeSub b.length ((len + offset) % 2 ^ 64) = b.length - (offset + len) := by
      rw [Nat.add_comm len, sum, sizeSub, if_pos inside]
    have tail : (window b.block (b.data + offset + len) (b.length - (offset + len))).length = b.length - (offset + len) :=
      length_window (by omega)
    have fits : b.data + offset + (window b.block (b.data + offset + len) (b.length - (offset + len))).length ≤
        b.block.length := by omega
    rw [rest]
    refine ⟨.ok, ⟨poke b.block (b.data + offset) (window b.block (b.data + offset + len) (b.length - (offset + len))),
      b.data, b.length - len, b.allocated⟩, ?_, ⟨(length_poke fits).trans block, ?_, sound.some, limit⟩, ?_⟩
    · rw [memmove, if_pos (by omega)]
      rfl
    · show b.data + (b.length - len) ≤ b.allocated
      omega
    · have sizes : b.length - len = offset + (b.length - (offset + len)) := by omega
      have moved := window_poke_self fits
      rw [tail] at moved
      rw [if_pos rfl, Buffer.bytes, Buffer.bytes, sizes, window_append, moved,
        window_poke_apart fits (.inl (Nat.le_refl _)), take_window _ (by omega), drop_window, Nat.add_assoc]

theorem does_grow (r : Realloc) (sound : b.Sound) : Does b (some (grow r b)) b.bytes := by
  rcases grow_cases r sound with fails | ⟨b', grows, sound', bytes, -⟩
  · exact ⟨.nomem, b, by rw [fails], sound, rfl⟩
  · exact ⟨.ok, b', by rw [grows], sound', bytes⟩

theorem does_run (r : Realloc) (sound : b.Sound) (inside : c.Inside b.bytes) :
    Does b (c.run r b) (c.apply b.bytes) := by
  cases c with
  | append data => exact does_append r sound data
  | insert offset data => exact does_insert r sound offset data
  | discard offset len =>
    obtain ⟨start, range⟩ := inside
    rw [sound.length_bytes] at start range
    exact does_discard sound start range
  | grow => exact does_grow r sound

theorem After.sound (after : After b s) : b.Sound ∧ b.bytes = s := by
  induction after with
  | create r => exact ⟨sound_create r, bytes_create r⟩
  | succeeded r _ inside run ih =>
    obtain ⟨sound, rfl⟩ := ih
    obtain ⟨error, b'', run', sound', bytes⟩ := does_run r sound inside
    obtain ⟨rfl, rfl⟩ := Prod.mk.inj (Option.some.inj (run.symm.trans run'))
    exact ⟨sound', bytes⟩
  | failed r _ inside run notOk ih =>
    obtain ⟨sound, rfl⟩ := ih
    obtain ⟨error, b'', run', sound', bytes⟩ := does_run r sound inside
    obtain ⟨rfl, rfl⟩ := Prod.mk.inj (Option.some.inj (run.symm.trans run'))
    exact ⟨sound', bytes.trans (if_neg notOk)⟩

/-- After calls a buffer holds the sequence that those that succeeded make, inside its block. The next call has a
result, whether or not it rebases, so that no `memcpy` of it is between regions that overlap. -/
theorem buffer_is_sequence (after : After b s) :
    b.bytes = s ∧ b.bytes.length = b.length ∧ b.data + b.length ≤ b.allocated ∧ b.block.length = b.allocated ∧
      (tryRebase b).isSome ∧ ∀ r (c : Call), c.Inside s → ∃ error b', c.run r b = some (error, b') := by
  obtain ⟨sound, rfl⟩ := after.sound
  refine ⟨rfl, sound.length_bytes, sound.inside, sound.block, ?_, fun r c inside => ?_⟩
  · obtain ⟨b', rebased, -⟩ := tryRebase_eq sound
    rw [rebased]
    rfl
  · obtain ⟨error, b', run, -⟩ := does_run r sound inside
    exact ⟨error, b', run⟩

/-- `realloc` where there is memory for every block, and new memory is zero. -/
def plenty : Realloc := ⟨fun size => size < 2 ^ 63, fun _ small => of_decide_eq_true small, fun _ => 0⟩

/-- A buffer after a call that it can serve. -/
def Call.done (c : Call) (b : Buffer) : Buffer := ((c.run plenty b).map Prod.snd).getD b

theorem Call.run_done (ok : (c.run plenty b).map Prod.fst = some .ok) : c.run plenty b = some (.ok, c.done b) := by
  obtain ⟨⟨error, b'⟩, run, rfl⟩ := Option.map_eq_some_iff.mp ok
  rw [done, run]
  rfl

def appended : Buffer := Call.done (.append [1, 2, 3]) (create plenty)

def inserted : Buffer := Call.done (.insert 1 [9]) appended

/-- What is discarded leaves as many bytes in front as there are behind, which move. -/
def rebased : Buffer := Call.done (.discard 0 2) inserted

theorem buffer_is_sequence_rebased : inserted.data + 2 = rebased.data + rebased.length ∧ rebased.bytes = [2, 3] := by
  have one := Call.run_done (c := .append [1, 2, 3]) (b := create plenty) (by decide +kernel)
  have two := Call.run_done (c := .insert 1 [9]) (b := appended) (by decide +kernel)
  have three := Call.run_done (c := .discard 0 2) (b := inserted) (by decide +kernel)
  have appended_after : After appended [1, 2, 3] := .succeeded plenty (.create plenty) (c := .append [1, 2, 3]) trivial one
  have inserted_after : After inserted [1, 9, 2, 3] :=
    .succeeded plenty appended_after (c := .insert 1 [9]) (Nat.le_add_left 1 2) two
  have rebased_after : After rebased [2, 3] :=
    .succeeded plenty inserted_after (c := .discard 0 2) ⟨Nat.zero_lt_succ 3, Nat.le_add_left 2 2⟩ three
  exact ⟨by decide +kernel, (buffer_is_sequence rebased_after).1⟩

end Besra.ParserBuffer
