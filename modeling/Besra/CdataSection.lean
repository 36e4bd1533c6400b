import Besra.TokeniserInput

/-!
CDATA sections in the HTML tokeniser (libhubbub, tokeniser.c), from what follows `<!` to the data state.
-/

namespace Besra.CdataSection
open List Option

open Lwc (forall_byte)
open Utf8 (numContinuations)
open TokeniserInput

inductive State where
  | markupDeclarationOpen
  | matchComment
  | matchDoctype
  | bogusComment
  | matchCdata
  | cdataBlock
  | data
  deriving DecidableEq

/-- `input` is what the stream holds from its cursor on; `count` and `ends` are the members of `match_cdata`. -/
structure Tokeniser where
  processCdataSection : Bool
  state : State
  input : List UInt8
  pending : ℕ
  count : ℕ
  ends : ℕ
  emitted : List UInt8
  deriving DecidableEq

/-- `hubbub_tokeniser_emit_token` for characters. -/
def emitToken (chars : List UInt8) (t : Tokeniser) : Tokeniser :=
  { t with emitted := t.emitted ++ chars, input := t.input.drop t.pending, pending := 0 }

/-- `emit_current_chars`; nothing when its assertion is compiled in and fails. -/
def emitCurrentChars (asserts : Bool) (t : Tokeniser) : Option Tokeniser :=
  if asserts ∧ t.pending = 0 then none
  else if peek t.input 0 = none then some t
  else some (emitToken (t.input.take t.pending) t)

/-- `parserutils_inputstream_advance` -/
def advance (n : ℕ) (t : Tokeniser) : Tokeniser := { t with input := t.input.drop n }

/-- `hubbub_tokeniser_handle_markup_declaration_open` -/
def handleMarkupDeclarationOpen (t : Tokeniser) : Tokeniser :=
  match peek t.input 0 with
  | none => { t with state := .bogusComment }
  | some (c, len) =>
    if c = 0x2D then { t with pending := len, state := .matchComment }
    else if c &&& ~~~0x20 = 0x44 then { t with pending := len, count := len, state := .matchDoctype }
    else if t.processCdataSection ∧ c = 0x5B then { t with pending := len, count := len, state := .matchCdata }
    else { t with state := .bogusComment }

/-- `CDATA`, with the byte that ends it. -/
def cdata : List UInt8 := [0x5B, 0x43, 0x44, 0x41, 0x54, 0x41, 0x5B, 0x00]

def cdataLen : ℕ := 6

/-- `hubbub_tokeniser_handle_match_cdata`; nothing when the assertion on `count` fails. -/
def handleMatchCdata (asserts : Bool) (t : Tokeniser) : Option Tokeniser :=
  match peek t.input t.pending with
  | none => some { t with pending := 0, state := .bogusComment }
  | some (c, len) =>
    if asserts ∧ cdataLen < t.count then none
    else if cdata[t.count]? ≠ some (c &&& ~~~0x20) then some { t with pending := 0, state := .bogusComment }
    else if t.count = cdataLen then
      some { advance (t.count + len) t with pending := 0, ends := 0, state := .cdataBlock, count := t.count + len }
    else some { t with pending := t.pending + len, count := t.count + len }

def flush (asserts : Bool) (t : Tokeniser) : Option Tokeniser :=
  if 0 < t.pending then emitCurrentChars asserts t else some t

/-- `hubbub_tokeniser_handle_cdata_block` -/
def handleCdataBlock (asserts : Bool) (t : Tokeniser) : Option Tokeniser :=
  match peek t.input t.pending with
  | none => emitCurrentChars asserts { t with state := .data }
  | some (c, len) =>
    if c = 0x5D ∧ (t.ends = 0 ∨ t.ends = 1) then some { t with pending := t.pending + len, ends := t.ends + len }
    else if c = 0x3E ∧ t.ends = 2 then
      (emitCurrentChars asserts { t with pending := t.pending - 2 }).map fun t =>
        { advance 3 t with state := .data }
    else if c = 0x00 then
      (flush asserts t).map fun t => { advance len (emitToken replacement.bytes t) with ends := 0 }
    else if c = 0x0D then
      let next := peek t.input (t.pending + len)
      (flush asserts t).map fun t =>
        { advance 1 (if next.map Prod.fst = some 0x0A then t else emitToken lf.bytes t) with ends := 0 }
    else some { t with pending := t.pending + len, ends := 0 }

/-- One round of the loop of `hubbub_tokeniser_run`, as long as the tokeniser is in the states of a section. -/
def step (asserts : Bool) (t : Tokeniser) : Option Tokeniser :=
  match t.state with
  | .markupDeclarationOpen => some (handleMarkupDeclarationOpen t)
  | .matchCdata => handleMatchCdata asserts t
  | .cdataBlock => handleCdataBlock asserts t
  | _ => some t

def run (asserts : Bool) : ℕ → Tokeniser → Option Tokeniser
  | 0, t => some t
  | fuel + 1, t => (step asserts t).bind (run asserts fuel)

def seen (t : Tokeniser) : State × List UInt8 × List UInt8 := (t.state, t.emitted, t.input)

/-- What comes of the text after `<!`, with CDATA processing enabled: the state, what was emitted and what is left. -/
def tokenise (asserts : Bool) (text : List Character) : Option (State × List UInt8 × List UInt8) :=
  let input := bytes text
  (run asserts (input.length + 1) ⟨true, .markupDeclarationOpen, input, 0, 0, 0, []⟩).map seen

/-- The brackets counted, after one more character: a third one in a row counts from nothing again. -/
def nextEnds (e : ℕ) (c : Character) : ℕ := if c = bracket ∧ e < 2 then e + 1 else 0

def nextPending (p : List Character) (c : Character) : List Character := if c = nul ∨ c = cr then [] else p ++ [c]

/-- A character as it is emitted, in front of another: a newline that follows stands for the two. -/
def shown (c : Character) (next : Option Character) : List Character :=
  if c = nul then [replacement] else if c = cr then (if next = some lf then [] else [lf]) else [c]

def nextOut (out p : List Character) (c : Character) (next : Option Character) : List Character :=
  if c = nul ∨ c = cr then out ++ p ++ shown c next else out

/-- The section as one pass: `p` is pending, `e` brackets are counted, `out` has been emitted.  What comes out, and
what follows the end. -/
def scan (asserts : Bool) : List Character → ℕ → List Character → List Character →
    Option (List Character × List Character)
  | p, _, out, [] => if asserts ∧ p = [] then none else some (out ++ p, [])
  | p, e, out, c :: s =>
    if c = greater ∧ e = 2 then
      let kept := p.take (p.length - 2)
      if asserts ∧ kept = [] then none else some (out ++ kept, s)
    else scan asserts (nextPending p c) (nextEnds e c) (nextOut out p c s.head?) s

/-- The tokeniser in a section, with the characters `p` pending and `s` behind them. -/
def inside (process : Bool) (count : ℕ) (p : List Character) (e : ℕ) (out s : List Character) : Tokeniser :=
  ⟨process, .cdataBlock, bytes p ++ bytes s, (bytes p).length, count, e, bytes out⟩

/-- The pending characters end in as many brackets as are counted. -/
def Counted (e : ℕ) (p : List Character) : Prop :=
  e ≤ 2 ∧ List.replicate e bracket <:+ p

theorem counted_nil : Counted 0 [] := ⟨by omega, suffix_refl []⟩

theorem Counted.next {e : ℕ} {p : List Character} (counted : Counted e p) (c : Character) :
    Counted (nextEnds e c) (nextPending p c) := by
  unfold nextEnds nextPending
  split_ifs with another flushed
  · exact absurd flushed (by rw [another.1]; decide)
  · refine ⟨by omega, ?_⟩
    rw [replicate_succ', another.1]
    obtain ⟨q, rfl⟩ := counted.2
    exact ⟨q, by simp⟩
  · exact ⟨by omega, by simp⟩
  · exact ⟨by omega, by simp⟩

theorem Counted.two {p : List Character} (counted : Counted 2 p) : p = p.take (p.length - 2) ++ [bracket, bracket] := by
  obtain ⟨q, rfl⟩ := counted.2
  simp [replicate_succ]

theorem emitCurrentChars_eq (asserts : Bool) {t : Tokeniser} {p : List Character} {s : List UInt8}
    (input : t.input = bytes p ++ s) (pending : t.pending = (bytes p).length) :
    emitCurrentChars asserts t = if asserts ∧ p = [] then none else
      some { t with emitted := t.emitted ++ bytes p, input := s, pending := 0 } := by
  have none_pending : t.pending = 0 ↔ p = [] := by rw [pending, length_eq_zero_iff, bytes_eq_nil]
  unfold emitCurrentChars
  simp only [none_pending]
  split_ifs with failed nothing
  · rfl
  · have empty : t.input = [] := by
      simpa [peek] using nothing
    rw [empty, eq_comm, append_eq_nil_iff, bytes_eq_nil] at input
    cases t
    simp_all
  · simp [emitToken, input, pending]

theorem flush_eq (asserts : Bool) {t : Tokeniser} {p : List Character} {s : List UInt8}
    (input : t.input = bytes p ++ s) (pending : t.pending = (bytes p).length) :
    flush asserts t = some { t with emitted := t.emitted ++ bytes p, input := s, pending := 0 } := by
  have some_pending : 0 < t.pending ↔ p ≠ [] := by
    rw [pending, length_pos_iff, Ne, bytes_eq_nil]
  unfold flush
  split_ifs with any
  · rw [emitCurrentChars_eq asserts input pending, if_neg fun failed => some_pending.mp any failed.2]
  · have empty : p = [] := by
      simpa [some_pending] using any
    cases t
    simp_all

theorem peek_next (a : List UInt8) (s : List Character) :
    (peek (a ++ bytes (cr :: s)) (a.length + 1)).map Prod.fst = s.head?.map Character.lead := by
  cases s with
  | nil => simp [peek, bytes, cr, Character.bytes]
  | cons d s =>
    have behind := peek_append (a ++ cr.bytes) d s
    rw [append_assoc, length_append] at behind
    have found : peek (a ++ bytes (cr :: d :: s)) (a.length + 1) = some (d.lead, d.bytes.length) := behind
    rw [found]
    rfl

theorem head_is_lf (s : List Character) : s.head?.map Character.lead = some 0x0A ↔ s.head? = some lf := by
  cases s with
  | nil => simp
  | cons d s =>
    rw [List.head?_cons, map_some, some_inj, some_inj]
    exact lead_eq_iff (d := lf) rfl

section Block

variable (asserts process : Bool) (count : ℕ) {p : List Character} {e : ℕ} (out s : List Character)

theorem handleCdataBlock_greater (counted : Counted 2 p) :
    handleCdataBlock asserts (inside process count p 2 out (greater :: s)) =
      if asserts ∧ p.take (p.length - 2) = [] then none
      else some ⟨process, .data, bytes s, 0, count, 2, bytes (out ++ p.take (p.length - 2))⟩ := by
  have input : bytes p ++ bytes (greater :: s) =
      bytes (p.take (p.length - 2)) ++ (bracket.bytes ++ bracket.bytes ++ bytes (greater :: s)) := by
    conv_lhs => rw [counted.two]
    simp [bytes]
  have pending : (bytes p).length - 2 = (bytes (p.take (p.length - 2))).length := by
    conv_lhs => rw [counted.two]
    simp [bytes, bracket, Character.bytes]
  unfold handleCdataBlock
  simp only [inside, peek_append]
  rw [if_neg (by decide), if_pos (by decide), emitCurrentChars_eq asserts input pending]
  split_ifs with failed
  · rfl
  · simp [advance, bracket, greater, Character.bytes, bytes_cons]

theorem handleCdataBlock_nul :
    handleCdataBlock asserts (inside process count p e out (nul :: s)) =
      some (inside process count [] 0 (out ++ p ++ [replacement]) s) := by
  have behind : (bytes (nul :: s)).drop 1 = bytes s := drop_character nul s
  have notBracket : nul.lead ≠ 0x5D := by decide
  have notGreater : nul.lead ≠ 0x3E := by decide
  have length : nul.bytes.length = 1 := rfl
  unfold handleCdataBlock
  simp only [inside, peek_append, notBracket, notGreater, false_and, if_false, length]
  rw [if_pos (by rfl), flush_eq asserts rfl rfl]
  simp [advance, emitToken, behind, bytes_singleton]

theorem handleCdataBlock_cr :
    handleCdataBlock asserts (inside process count p e out (cr :: s)) =
      some (inside process count [] 0 (out ++ p ++ shown cr s.head?) s) := by
  have next := peek_next (bytes p) s
  have behind : (bytes (cr :: s)).drop 1 = bytes s := drop_character cr s
  have notBracket : cr.lead ≠ 0x5D := by decide
  have notGreater : cr.lead ≠ 0x3E := by decide
  have notNul : cr.lead ≠ 0x00 := by decide
  have notNul' : cr ≠ nul := by decide
  have length : cr.bytes.length = 1 := rfl
  unfold handleCdataBlock
  simp only [inside, peek_append, length, next, head_is_lf, notBracket, notGreater, notNul, false_and, if_false]
  rw [if_pos (by rfl), flush_eq asserts rfl rfl]
  by_cases newline : s.head? = some lf
  · simp [advance, drop_one ▸ behind, shown, newline, notNul']
  · simp [advance, emitToken, behind, shown, newline, notNul', bytes_singleton]

theorem handleCdataBlock_cons (c : Character) (counted : Counted e p) :
    handleCdataBlock asserts (inside process count p e out (c :: s)) =
      if c = greater ∧ e = 2 then
        if asserts ∧ p.take (p.length - 2) = [] then none
        else some ⟨process, .data, bytes s, 0, count, 2, bytes (out ++ p.take (p.length - 2))⟩
      else some (inside process count (nextPending p c) (nextEnds e c) (nextOut out p c s.head?) s) := by
  by_cases ending : c = greater ∧ e = 2
  · obtain ⟨rfl, rfl⟩ := ending
    rw [if_pos ⟨rfl, rfl⟩, handleCdataBlock_greater asserts process count out s counted]
  rw [if_neg ending]
  by_cases isNul : c = nul
  · have other : nul ≠ bracket := by decide
    rw [isNul, handleCdataBlock_nul]
    simp [nextPending, nextEnds, nextOut, shown, other]
  by_cases isCr : c = cr
  · have other : cr ≠ bracket := by decide
    rw [isCr, handleCdataBlock_cr]
    simp [nextPending, nextEnds, nextOut, other]
  have notNul : c.lead ≠ 0x00 := fun same => isNul ((lead_eq_iff (d := nul) rfl).mp same)
  have notCr : c.lead ≠ 0x0D := fun same => isCr ((lead_eq_iff (d := cr) rfl).mp same)
  have isBracket : c.lead = 0x5D ↔ c = bracket := lead_eq_iff (d := bracket) rfl
  have isGreater : c.lead = 0x3E ↔ c = greater := lead_eq_iff (d := greater) rfl
  have counts : e = 0 ∨ e = 1 ↔ e < 2 := by
    omega
  have kept : ¬(c = nul ∨ c = cr) := by simp [isNul, isCr]
  have pending : nextPending p c = p ++ [c] := if_neg kept
  have emitted : nextOut out p c s.head? = out := if_neg kept
  unfold handleCdataBlock nextEnds
  simp only [inside, peek_append, isBracket, isGreater, counts, if_neg ending, if_neg notNul, if_neg notCr, pending,
    emitted]
  split_ifs with another
  · have single : c.later = [] := by rw [another.1]; rfl
    simp [bytes_cons, single, Character.bytes]
  · simp [bytes_cons, Character.bytes]

theorem handleCdataBlock_nil :
    handleCdataBlock asserts (inside process count p e out []) =
      if asserts ∧ p = [] then none else some ⟨process, .data, [], 0, count, e, bytes (out ++ p)⟩ := by
  have ended : peek (bytes p ++ bytes []) (bytes p).length = none := by simp [peek]
  unfold handleCdataBlock
  simp only [inside, ended]
  rw [emitCurrentChars_eq asserts rfl rfl]
  simp

end Block

theorem run_data (asserts : Bool) (fuel : ℕ) {t : Tokeniser} (stopped : step asserts t = some t) :
    run asserts fuel t = some t := by
  induction fuel with
  | zero => rfl
  | succ fuel ih => rw [run, stopped, bind_some, ih]

theorem run_scan (asserts process : Bool) (count fuel : ℕ) (s : List Character) {p : List Character} {e : ℕ}
    (out : List Character) (counted : Counted e p) (enough : s.length < fuel) :
    (run asserts fuel (inside process count p e out s)).map seen =
      (scan asserts p e out s).map fun r => (.data, bytes r.1, bytes r.2) := by
  induction s generalizing p e out fuel with
  | nil =>
    obtain ⟨fuel, rfl⟩ := Nat.exists_eq_succ_of_ne_zero (by omega : fuel ≠ 0)
    have last : step asserts (inside process count p e out []) = _ := handleCdataBlock_nil asserts process count out
    rw [run, last, scan]
    split_ifs
    · rfl
    · rw [bind_some, run_data asserts fuel rfl]
      rfl
  | cons c s ih =>
    obtain ⟨fuel, rfl⟩ := Nat.exists_eq_succ_of_ne_zero (by omega : fuel ≠ 0)
    have one : step asserts (inside process count p e out (c :: s)) = _ :=
      handleCdataBlock_cons asserts process count out s c counted
    rw [run, one, scan]
    by_cases ending : c = greater ∧ e = 2
    · rw [if_pos ending, if_pos ending]
      dsimp only
      split_ifs
      · rfl
      · rw [bind_some, run_data asserts fuel rfl]
        rfl
    · rw [if_neg ending, if_neg ending, bind_some]
      exact ih fuel _ (counted.next c) (by simpa using enough)

/-- What follows the rest `ks` of the keyword, whatever the bit of the letter case. -/
def follows : List UInt8 → List Character → Option (List Character)
  | [], s => some s
  | _ :: _, [] => none
  | k :: ks, c :: s => if c.lead &&& ~~~0x20 = k then follows ks s else none

theorem single_of_keyword {c : Character} {k : UInt8} (ascii : k < 0x80) (same : c.lead &&& ~~~0x20 = k) :
    c.later = [] := by
  have low : numContinuations c.lead = 0 := by
    have all := forall_byte (p := fun b => b &&& ~~~0x20 < 0x80 → numContinuations b = 0) (by decide +kernel)
    exact all c.lead (same ▸ ascii)
  rw [← length_eq_zero_iff, c.whole, low]

/-- In the middle of the keyword, with `a` read and `ks` to come. -/
def within (process : Bool) (ends : ℕ) (out a : List UInt8) (s : List Character) : Tokeniser :=
  ⟨process, .matchCdata, a ++ bytes s, a.length, a.length, ends, out⟩

theorem run_keyword (asserts process : Bool) (ends : ℕ) (out : List Character) (ks : List UInt8) (more : ks ≠ [])
    (ascii : ∀ k ∈ ks, k < 0x80) (s : List Character) (a : List UInt8) (rest : cdata.drop a.length = ks ++ [0x00])
    (fuel : ℕ) (enough : s.length < fuel) :
    (run asserts fuel (within process ends (bytes out) a s)).map seen =
      match follows ks s with
      | none => some (.bogusComment, bytes out, a ++ bytes s)
      | some s => (scan asserts [] 0 out s).map fun r => (.data, bytes r.1, bytes r.2) := by
  induction ks generalizing s a fuel with
  | nil => exact absurd rfl more
  | cons k ks ih =>
    obtain ⟨fuel, rfl⟩ := Nat.exists_eq_succ_of_ne_zero (by omega : fuel ≠ 0)
    have lengths : 8 - a.length = ks.length + 2 := by
      have := congrArg List.length rest
      simpa [cdata] using this
    have inRange : ¬cdataLen < a.length := by
      unfold cdataLen
      omega
    have expected : cdata[a.length]? = some k := by
      rw [← List.head?_drop, rest]
      rfl
    cases s with
    | nil =>
      have bogus : step asserts (within process ends (bytes out) a []) =
          some ⟨process, .bogusComment, a, 0, a.length, ends, bytes out⟩ := by
        simp [step, within, handleMatchCdata, peek]
      rw [run, bogus, bind_some, run_data asserts fuel rfl]
      simp [follows, seen]
    | cons c s =>
      by_cases same : c.lead &&& ~~~0x20 = k
      · have single := single_of_keyword (ascii k (by simp)) same
        have length : c.bytes.length = 1 := by simp [Character.bytes, single]
        have text : bytes (c :: s) = c.lead :: bytes s := by simp [bytes_cons, single]
        rw [follows, if_pos same]
        cases ks with
        | nil =>
          have last : a.length = cdataLen := by
            simp only [length_nil] at lengths
            unfold cdataLen
            omega
          have opened : step asserts (within process ends (bytes out) a (c :: s)) =
              some (inside process (a.length + 1) [] 0 out s) := by
            simp only [step, within, handleMatchCdata, peek_append, expected, inRange, and_false, if_false, length]
            rw [if_neg (by simp [same])]
            refine (if_pos last).trans ?_
            simp [inside, advance, text, drop_append]
          rw [run, opened, bind_some]
          exact run_scan asserts process _ fuel s out counted_nil (by simpa using enough)
        | cons k' ks =>
          have before : a.length ≠ cdataLen := by
            simp only [length_cons] at lengths
            unfold cdataLen
            omega
          have read : step asserts (within process ends (bytes out) a (c :: s)) =
              some (within process ends (bytes out) (a ++ [c.lead]) s) := by
            simp only [step, within, handleMatchCdata, peek_append, expected, inRange, and_false, if_false, length]
            rw [if_neg (by simp [same])]
            refine (if_neg before).trans ?_
            simp [text]
          have later : cdata.drop (a ++ [c.lead]).length = k' :: ks ++ [0x00] := by
            rw [length_append, length_singleton, ← drop_drop, rest]
            rfl
          have whole : a ++ bytes (c :: s) = a ++ [c.lead] ++ bytes s := by simp [text]
          rw [run, read, bind_some, whole]
          exact ih (by simp) (fun k member => ascii k (by simp [member])) s _ later fuel (by simpa using enough)
      · have bogus : step asserts (within process ends (bytes out) a (c :: s)) =
            some ⟨process, .bogusComment, a ++ bytes (c :: s), 0, a.length, ends, bytes out⟩ := by
          simp only [step, within, handleMatchCdata, peek_append, expected, inRange, and_false, if_false]
          rw [if_pos fun equal => same (Option.some.inj equal).symm]
        rw [run, bogus, bind_some, run_data asserts fuel rfl, follows, if_neg same]
        rfl

theorem follows_eq (ks : List UInt8) (s : List Character) :
    follows ks s =
      if (s.take ks.length).map (fun c => c.lead &&& ~~~0x20) = ks then some (s.drop ks.length) else none := by
  induction ks generalizing s with
  | nil => simp [follows]
  | cons k ks ih =>
    cases s with
    | nil => simp [follows]
    | cons c s =>
      rw [follows, ih]
      by_cases same : c.lead &&& ~~~0x20 = k <;> simp [same]

/-- `[`, the first character of the keyword. -/
def left : Character := ⟨0x5B, [], by decide⟩

/-- `CDATA[` -/
def keyword : List Character :=
  [⟨0x43, [], by decide⟩, ⟨0x44, [], by decide⟩, ⟨0x41, [], by decide⟩, ⟨0x54, [], by decide⟩, ⟨0x41, [], by decide⟩, left]

def opening : List Character := left :: keyword

def closing : List Character := [bracket, bracket, greater]

/-- The text begins with the keyword when one bit of each character, that of the letter case, is left out. -/
def LikeKeyword (v : List Character) : Prop :=
  (v.take 6).map (fun c => c.lead &&& ~~~0x20) = keyword.map Character.lead

instance (v : List Character) : Decidable (LikeKeyword v) := by
  unfold LikeKeyword
  infer_instance

/-- The characters of a text as they are meant to be emitted. -/
def normalise : List Character → List Character
  | [] => []
  | c :: s => shown c s.head? ++ normalise s

def trailing (t : List Character) : ℕ := (t.reverse.takeWhile (· = bracket)).length

/-- The last character of the text is still pending when the text is over. -/
def Held (t : List Character) : Prop := ∃ c, t.getLast? = some c ∧ c ≠ nul ∧ c ≠ cr

theorem tokenise_eq (asserts : Bool) (v : List Character) :
    tokenise asserts (left :: v) =
      if LikeKeyword v then (scan asserts [] 0 [] (v.drop 6)).map fun r => (.data, bytes r.1, bytes r.2)
      else some (.bogusComment, [], bytes (left :: v)) := by
  have opens : step asserts ⟨true, .markupDeclarationOpen, bytes (left :: v), 0, 0, 0, []⟩ =
      some (within true 0 (bytes []) left.bytes v) := rfl
  have long : v.length < (bytes (left :: v)).length := by
    have := length_le_bytes v
    rw [bytes_cons, length_cons, length_append]
    omega
  have rest : cdata.drop left.bytes.length = keyword.map Character.lead ++ [0x00] := rfl
  have started := run_keyword asserts true 0 [] _ (by simp [keyword])
    (forall_iff_forall_mem.mp (by decide)) v left.bytes rest _ long
  have found : follows (keyword.map Character.lead) v = if LikeKeyword v then some (v.drop 6) else none := by
    rw [follows_eq]
    rfl
  unfold tokenise
  dsimp only
  rw [run, opens, bind_some, started, found]
  by_cases like : LikeKeyword v
  · rw [if_pos like, if_pos like]
  · rw [if_neg like, if_neg like]
    rfl

theorem out_pending (out p : List Character) (c : Character) (next : Option Character) :
    nextOut out p c next ++ nextPending p c = out ++ p ++ shown c next := by
  unfold nextOut nextPending
  split_ifs with flushed
  · rw [append_nil]
  · rw [not_or] at flushed
    rw [shown, if_neg flushed.1, if_neg flushed.2, append_assoc]

theorem shown_append (c : Character) (t : List Character) {tail : List Character} (other : tail.head? ≠ some lf) :
    shown c (t ++ tail).head? = shown c t.head? := by
  cases t with
  | nil => simp [shown, other]
  | cons d t => rfl

theorem scan_text (asserts : Bool) (t tail : List Character) {p : List Character} {e : ℕ} (out : List Character)
    (counted : Counted e p) (unclosed : ¬closing <:+: List.replicate e bracket ++ t) (other : tail.head? ≠ some lf) :
    ∃ out', out' ++ t.foldl nextPending p = out ++ p ++ normalise t ∧
      scan asserts p e out (t ++ tail) = scan asserts (t.foldl nextPending p) (t.foldl nextEnds e) out' tail := by
  induction t generalizing p e out with
  | nil => exact ⟨out, by simp [normalise], rfl⟩
  | cons c t ih =>
    have goes : ¬(c = greater ∧ e = 2) := by
      rintro ⟨rfl, rfl⟩
      exact unclosed ⟨[], t, rfl⟩
    have unclosed' : ¬closing <:+: List.replicate (nextEnds e c) bracket ++ t := by
      intro closed
      apply unclosed
      unfold nextEnds at closed
      split_ifs at closed with another
      · rw [replicate_succ', append_assoc, singleton_append] at closed
        rwa [another.1]
      · exact closed.trans ⟨List.replicate e bracket ++ [c], [], by simp⟩
    obtain ⟨out', whole, scanned⟩ := ih (nextOut out p c (t ++ tail).head?) (counted.next c) unclosed'
    refine ⟨out', ?_, ?_⟩
    · rw [foldl_cons, whole, out_pending, shown_append c t other, normalise, append_assoc]
    · rw [cons_append, scan, if_neg goes]
      exact scanned

theorem bytes_take_two {p : List Character} (counted : Counted 2 p) :
    (bytes p).length = (bytes (p.take (p.length - 2))).length + 2 := by
  conv_lhs => rw [counted.two]
  simp [bytes, bracket, Character.bytes]

theorem scan_longer (asserts : Bool) (s : List Character) {p : List Character} {e : ℕ} {out o r : List Character}
    (counted : Counted e p) (scanned : scan asserts p e out s = some (o, r)) :
    (bytes (out ++ p)).length ≤ (bytes o).length + e := by
  induction s generalizing p e out with
  | nil =>
    rw [scan] at scanned
    split_ifs at scanned
    cases scanned
    omega
  | cons c s ih =>
    rw [scan] at scanned
    dsimp only at scanned
    split_ifs at scanned with ending
    · cases scanned
      obtain ⟨-, rfl⟩ := ending
      have := bytes_take_two counted
      simp only [bytes_append, length_append]
      omega
    · have later := ih (counted.next c) scanned
      rw [out_pending, bytes_append, length_append] at later
      unfold nextEnds at later
      split_ifs at later with another
      · have : (bytes (shown c s.head?)).length = 1 := by rw [another.1]; rfl
        omega
      · omega

theorem trailing_append (t : List Character) (c : Character) :
    trailing (t ++ [c]) = if c = bracket then trailing t + 1 else 0 := by
  unfold trailing
  rw [reverse_append, reverse_singleton, singleton_append, takeWhile_cons]
  split_ifs <;> simp_all

theorem foldl_nextEnds (t : List Character) : t.foldl nextEnds 0 = trailing t % 3 := by
  induction t using List.reverseRecOn with
  | nil => rfl
  | append_singleton t c ih =>
    rw [foldl_append, foldl_cons, foldl_nil, ih, trailing_append]
    unfold nextEnds
    split_ifs <;> grind

theorem foldl_nextPending (t : List Character) : t.foldl nextPending [] ≠ [] ↔ Held t := by
  induction t using List.reverseRecOn with
  | nil => simp [Held]
  | append_singleton t c ih =>
    rw [foldl_append, foldl_cons, foldl_nil]
    unfold nextPending Held
    split_ifs with flushed
    · rcases flushed with rfl | rfl <;> simp
    · rw [not_or] at flushed
      simp [flushed.1, flushed.2]

theorem scan_closing (asserts : Bool) (p out rest : List Character) :
    scan asserts p 0 out (closing ++ rest) = if asserts ∧ p = [] then none else some (out ++ p, rest) := by
  have apart : bracket ≠ greater := by decide
  have kept : ¬(bracket = nul ∨ bracket = cr) := by decide
  have counted : nextEnds (nextEnds 0 bracket) bracket = 2 := rfl
  rw [closing, cons_append, scan, if_neg (by simp [apart]), cons_append, scan, if_neg (by simp [apart]),
    counted, singleton_append, scan, if_pos ⟨rfl, rfl⟩]
  simp [nextPending, nextOut, kept]

theorem scan_closing_missed (asserts : Bool) (p out rest : List Character) {e : ℕ} (some_counted : e = 1 ∨ e = 2) :
    scan asserts p e out (closing ++ rest) = scan asserts (p ++ closing) 0 out rest := by
  have apart : bracket ≠ greater := by decide
  have kept : ¬(bracket = nul ∨ bracket = cr) := by decide
  have kept' : ¬(greater = nul ∨ greater = cr) := by decide
  have other : greater ≠ bracket := by decide
  have counted : nextEnds (nextEnds e bracket) bracket ≠ 2 := by
    rcases some_counted with rfl | rfl <;> decide
  rw [closing, cons_append, scan, if_neg (by simp [apart]), cons_append, scan, if_neg (by simp [apart]),
    singleton_append, scan, if_neg fun ending => counted ending.2]
  simp [nextPending, nextOut, nextEnds, kept, kept', other]

theorem tokenise_opening (asserts : Bool) (s : List Character) :
    tokenise asserts (opening ++ s) = (scan asserts [] 0 [] s).map fun r => (.data, bytes r.1, bytes r.2) := by
  have like : LikeKeyword (keyword ++ s) := rfl
  rw [opening, cons_append, tokenise_eq, if_pos like]
  rfl

theorem tokenise_text (asserts : Bool) (t tail : List Character) (unclosed : ¬closing <:+: t)
    (other : tail.head? ≠ some lf) :
    ∃ out, out ++ t.foldl nextPending [] = normalise t ∧
      tokenise asserts (opening ++ t ++ tail) =
        (scan asserts (t.foldl nextPending []) (trailing t % 3) out tail).map fun r =>
          (.data, bytes r.1, bytes r.2) := by
  obtain ⟨out, whole, scanned⟩ := scan_text asserts t tail [] counted_nil unclosed other
  refine ⟨out, by simpa using whole, ?_⟩
  rw [append_assoc, tokenise_opening, scanned, foldl_nextEnds]

theorem section_iff (asserts : Bool) (t rest : List Character) (unclosed : ¬closing <:+: t) :
    tokenise asserts (opening ++ t ++ closing ++ rest) = some (.data, bytes (normalise t), bytes rest) ↔
      3 ∣ trailing t ∧ (asserts → Held t) := by
  have other : (closing ++ rest).head? ≠ some lf := by
    rw [closing, cons_append, List.head?_cons]
    decide
  obtain ⟨out, whole, read⟩ := tokenise_text asserts t (closing ++ rest) unclosed other
  rw [append_assoc, read, ← foldl_nextPending, Nat.dvd_iff_mod_eq_zero]
  by_cases none_counted : trailing t % 3 = 0
  · rw [none_counted, scan_closing, whole]
    split_ifs with failed
    · simp [failed.1, failed.2]
    · simpa using failed
  · have counted : trailing t % 3 = 1 ∨ trailing t % 3 = 2 := by
      omega
    rw [scan_closing_missed asserts _ out rest counted]
    simp only [none_counted, false_and, iff_false]
    intro read
    obtain ⟨⟨o, r⟩, scanned, same⟩ := map_eq_some_iff.mp read
    have uncounted : Counted 0 (t.foldl nextPending [] ++ closing) := ⟨by omega, nil_suffix⟩
    have longer := scan_longer asserts rest uncounted scanned
    have equal : bytes o = bytes (normalise t) := by
      injection same with _ same
      injection same
    rw [← append_assoc, whole, equal, bytes_append, length_append] at longer
    have : (bytes closing).length = 3 := rfl
    omega

theorem end_of_input_iff (asserts : Bool) (t : List Character) (unclosed : ¬closing <:+: t) :
    tokenise asserts (opening ++ t) = some (.data, bytes (normalise t), []) ↔ (asserts → Held t) := by
  obtain ⟨out, whole, read⟩ := tokenise_text asserts t [] unclosed (by simp)
  rw [append_nil] at read
  rw [read, scan, ← foldl_nextPending, whole]
  split_ifs with failed
  · simp [failed.1, failed.2]
  · simpa using failed

theorem bogus_iff (asserts : Bool) (v : List Character) :
    tokenise asserts (left :: v) = some (.bogusComment, [], bytes (left :: v)) ↔ ¬LikeKeyword v := by
  rw [tokenise_eq]
  split_ifs with like
  · simp only [like, not_true_eq_false, iff_false]
    intro bogus
    obtain ⟨_, _, same⟩ := map_eq_some_iff.mp bogus
    injection same with different
    cases different
  · simp [like]

/-- A section whose text does not hold the end of a section is read as it is meant when the number of brackets at the
end of its text is a multiple of three, and with the assertions only when its last character is still pending then.
At the end of the input the latter is all.  What resembles the keyword but for the letter case opens a section too,
and nothing else does. -/
theorem cdata_sections_exact (asserts : Bool) (t rest v : List Character) (unclosed : ¬closing <:+: t) :
    (tokenise asserts (opening ++ t ++ closing ++ rest) = some (.data, bytes (normalise t), bytes rest) ↔
      3 ∣ trailing t ∧ (asserts → Held t)) ∧
    (tokenise asserts (opening ++ t) = some (.data, bytes (normalise t), []) ↔ (asserts → Held t)) ∧
    ((¬keyword <+: v → tokenise asserts (left :: v) = some (.bogusComment, [], bytes (left :: v))) ↔
      keyword <+: v ∨ ¬LikeKeyword v) := by
  refine ⟨section_iff asserts t rest unclosed, end_of_input_iff asserts t unclosed, ?_⟩
  rw [bogus_iff, or_iff_not_imp_left]

theorem cdata_sections_exact_of_text :
    3 ∣ trailing [lf] ∧ (true → Held [lf]) ↔
      tokenise true (opening ++ [lf] ++ closing ++ []) = some (.data, bytes (normalise [lf]), bytes []) :=
  (cdata_sections_exact true [lf] [] [] (by decide)).1.symm

/-- A text that ends in one bracket takes the end of its section and what follows with it. -/
theorem one_bracket_missed :
    ¬∀ (asserts : Bool) (t rest : List Character), ¬closing <:+: t →
      tokenise asserts (opening ++ t ++ closing ++ rest) = some (.data, bytes (normalise t), bytes rest) := by
  intro exact_
  have read := exact_ true [lf, bracket] [] (by decide)
  have missed : tokenise true (opening ++ [lf, bracket] ++ closing ++ []) =
      some (.data, [0x0A, 0x5D, 0x5D, 0x5D, 0x3E], []) := by decide +kernel
  rw [missed] at read
  exact absurd read (by decide +kernel)

end Besra.CdataSection
