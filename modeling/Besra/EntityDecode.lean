import Besra.EntityNames
import Besra.EntityNumbers

/-!
What the tokeniser makes of an ampersand and the text behind it, in text and in an attribute value.
-/

namespace Besra.CharacterReference
open List Option

open TokeniserInput (peek)
open TernaryTree (Word)

/-! ### Where a reference stands -/

inductive Quote where
  | dq
  | sq
  | uq
  deriving DecidableEq

def Quote.state : Quote → State
  | .dq => .attributeValueDq
  | .sq => .attributeValueSq
  | .uq => .attributeValueUq

/-- What the states of attribute values leave in `allowed_char`. -/
def Quote.allowed : Quote → UInt8
  | .dq => 0x22
  | .sq => 0x27
  | .uq => 0x00

/-- Nothing is pending in text; in an attribute value the tag is, up to the ampersand. -/
inductive Place where
  | data
  | value (quote : Quote) (before : List UInt8)
  deriving DecidableEq

def Place.inValue : Place → Bool
  | .data => false
  | .value _ _ => true

def Place.before : Place → List UInt8
  | .data => []
  | .value _ before => before

def Place.state : Place → State
  | .data => .characterReferenceData
  | .value _ _ => .characterReferenceInAttributeValue

def Place.next : Place → State
  | .data => .data
  | .value quote _ => quote.state

def Place.allowed : Place → UInt8
  | .data => 0x00
  | .value quote _ => quote.allowed

def referring (place : Place) (text : List UInt8) (allowed : UInt8) (entity : MatchEntity) : Tokeniser :=
  ⟨place.state, place.next, place.before ++ 0x26 :: text, place.before.length, allowed, entity, [], []⟩

def seen (t : Tokeniser) : State × List UInt8 × ℕ × List UInt8 × List UInt8 :=
  (t.state, t.input, t.pending, t.emitted, t.value)

/-- What is seen when the bytes are put out and `n` bytes are taken. -/
def Place.after (place : Place) (text bytes : List UInt8) (n : ℕ) : State × List UInt8 × ℕ × List UInt8 × List UInt8 :=
  match place with
  | .data => (.data, (0x26 :: text).drop n, 0, bytes, [])
  | .value quote before => (quote.state, before ++ 0x26 :: text, before.length + n, [], bytes)

/-- The ampersand and the text behind it give the bytes and take `n` bytes, whatever reference was decoded before. -/
def Reads (dict : Dict) (old : MatchEntity) (place : Place) (text bytes : List UInt8) (n : ℕ) : Prop :=
  (run dict (referring place text place.allowed { old with complete := false })).map seen =
    some (place.after text bytes n)

/-- The bytes and the length for a code point and the length of its reference; without one, those of the ampersand. -/
def outcome (codepoint : UInt32) (length : ℕ) : List UInt8 × ℕ :=
  if codepoint ≠ 0 then (utf8Of codepoint, length + 1) else ([0x26], 1)

/-! ### The states before and behind the search -/

section Steps

variable (dict : Dict) (place : Place) (text : List UInt8)

theorem peek_ampersand : peek (place.before ++ 0x26 :: text) place.before.length = some (0x26, 1) := by
  rw [peek_drop drop_left]
  rfl

theorem drop_ampersand : (place.before ++ 0x26 :: text).drop (place.before.length + 1) = text :=
  drop_succ drop_left

/-- The tokeniser when the bytes are put out and `n` bytes are taken. -/
def finished (allowed : UInt8) (entity : MatchEntity) (bytes : List UInt8) (n : ℕ) : Tokeniser :=
  match place with
  | .data => ⟨.data, .data, (0x26 :: text).drop n, 0, allowed, { entity with complete := false }, bytes, []⟩
  | .value quote before =>
    ⟨quote.state, quote.state, before ++ 0x26 :: text, before.length + n, allowed, { entity with complete := false },
      [], bytes⟩

theorem seen_finished (allowed : UInt8) (entity : MatchEntity) (bytes : List UInt8) (n : ℕ) :
    seen (finished place text allowed entity bytes n) = place.after text bytes n := by
  cases place <;> rfl

theorem step_finished (allowed : UInt8) (entity : MatchEntity) (bytes : List UInt8) (n : ℕ) :
    step dict (finished place text allowed entity bytes n) = some (finished place text allowed entity bytes n) := by
  cases place with
  | data => rfl
  | value quote before => cases quote <;> rfl

theorem taken_referring (allowed : UInt8) (entity : MatchEntity) :
    taken (referring place text allowed entity) = some (outcome entity.codepoint entity.length) := by
  have amp : peek (referring place text allowed entity).input (referring place text allowed entity).pending =
      some (0x26, 1) := peek_ampersand place text
  unfold taken outcome
  rw [amp]
  by_cases char : entity.codepoint ≠ 0
  · rw [if_pos char]
    exact if_pos char
  · rw [if_neg char]
    refine (if_neg char).trans ?_
    simp [referring]

variable {entity m : MatchEntity}

theorem step_complete (allowed : UInt8) (complete : entity.complete = true) :
    step dict (referring place text allowed entity) =
      some (finished place text allowed entity (outcome entity.codepoint entity.length).1
        (outcome entity.codepoint entity.length).2) := by
  have given := taken_referring place text allowed entity
  cases place with
  | data =>
    have open_ : (referring .data text allowed entity).entity.complete ≠ false := by simp [referring, complete]
    have handled : step dict (referring .data text allowed entity) =
        handleCharacterReferenceData (referring .data text allowed entity) := rfl
    rw [handled, handleCharacterReferenceData, if_neg (by simp [referring, Place.before]), if_neg open_, given]
    rfl
  | value quote before =>
    have open_ : (referring (.value quote before) text allowed entity).entity.complete ≠ false := by
      simp [referring, complete]
    have handled : step dict (referring (.value quote before) text allowed entity) =
        handleCharacterReferenceInAttributeValue (referring (.value quote before) text allowed entity) := rfl
    rw [handled, handleCharacterReferenceInAttributeValue, if_neg open_, given]
    rfl

theorem step_incomplete (allowed : UInt8) (incomplete : entity.complete = false) :
    step dict (referring place text allowed entity) =
      consumeCharacterReference (referring place text allowed entity) := by
  cases place with
  | data =>
    have handled : step dict (referring .data text allowed entity) =
        handleCharacterReferenceData (referring .data text allowed entity) := rfl
    rw [handled, handleCharacterReferenceData, if_neg (by simp [referring, Place.before])]
    exact if_pos incomplete
  | value quote before =>
    have handled : step dict (referring (.value quote before) text allowed entity) =
        handleCharacterReferenceInAttributeValue (referring (.value quote before) text allowed entity) := rfl
    rw [handled, handleCharacterReferenceInAttributeValue]
    exact if_pos incomplete

def blank : MatchEntity := ⟨place.before.length + 1, 0, 0, false, 0, 0, .nil, false, false, place.state⟩

/-- What may follow an ampersand that is no reference whatever comes after. -/
def plain (c : UInt8) : Bool :=
  c = 0x09 ∨ c = 0x0A ∨ c = 0x0C ∨ c = 0x20 ∨ c = 0x3C ∨ c = 0x26 ∨ (place.allowed ≠ 0 ∧ c = place.allowed)

theorem consumeCharacterReference_referring (entity : MatchEntity) :
    consumeCharacterReference (referring place text place.allowed entity) =
      match text with
      | [] => some (referring place [] place.allowed { entity with complete := true, codepoint := 0 })
      | c :: s =>
        if plain place c then some (referring place (c :: s) 0 { blank place with complete := true, codepoint := 0 })
        else if c = 0x23 then
          some { referring place (c :: s) 0 { blank place with length := 1 } with state := .numberedEntity }
        else some { referring place (c :: s) 0 (blank place) with state := .namedEntity } := by
  have amp : peek (referring place text place.allowed entity).input
      (referring place text place.allowed entity).pending = some (0x26, 1) := peek_ampersand place text
  have behind := peek_drop (drop_ampersand place text)
  unfold consumeCharacterReference
  rw [amp]
  simp only [referring, behind]
  cases text with
  | nil => rfl
  | cons c s =>
    simp only [List.head?_cons, map_some]
    by_cases isPlain : plain place c = true
    · rw [if_pos isPlain]
      refine (if_pos (by simpa [plain] using isPlain)).trans ?_
      rfl
    · rw [if_neg isPlain]
      refine (if_neg (by simpa [plain] using isPlain)).trans ?_
      by_cases number : c = 0x23
      · rw [if_pos number, if_pos number, number]
        rfl
      · rw [if_neg number, if_neg number]
        rfl

theorem reads_at_once (old : MatchEntity) {allowed : UInt8} (complete : m.complete = true)
    (consumed : consumeCharacterReference (referring place text place.allowed { old with complete := false }) = some (referring place text allowed m))
    (bytes : List UInt8) (n : ℕ) :
    Reads dict old place text bytes n ↔
      place.after text (outcome m.codepoint m.length).1 (outcome m.codepoint m.length).2 =
        place.after text bytes n := by
  have first := (step_incomplete dict place text place.allowed rfl).trans consumed
  unfold Reads run
  simp only [first, bind_eq_bind, bind_some, step_complete dict place text allowed complete,
    step_finished, map_some, seen_finished, some_inj]

theorem reads_searched (old : MatchEntity) {searching : Tokeniser} (complete : m.complete = true)
    (consumed : consumeCharacterReference (referring place text place.allowed { old with complete := false }) = some searching)
    (searched : step dict searching = some (referring place text 0 m)) (bytes : List UInt8) (n : ℕ) :
    Reads dict old place text bytes n ↔
      place.after text (outcome m.codepoint m.length).1 (outcome m.codepoint m.length).2 =
        place.after text bytes n := by
  have first := (step_incomplete dict place text place.allowed rfl).trans consumed
  unfold Reads run
  simp only [first, searched, bind_eq_bind, bind_some, step_complete dict place text 0 complete,
    map_some, seen_finished, some_inj]

end Steps

/-! ### Numbers -/

/-- What stands between the number sign and the digits. -/
inductive Marker where
  | decimal
  | lower
  | upper
  deriving DecidableEq

def Marker.text : Marker → List UInt8
  | .decimal => []
  | .lower => [0x78]
  | .upper => [0x58]

def Marker.base : Marker → ℕ
  | .decimal => 10
  | .lower => 16
  | .upper => 16

theorem Marker.isBase (marker : Marker) : IsBase marker.base := by
  cases marker
  · exact Or.inl rfl
  · exact Or.inr rfl
  · exact Or.inr rfl

/-- The text of a number, up to what follows it. -/
def numberText (marker : Marker) (digits tail : List UInt8) : List UInt8 := 0x23 :: (marker.text ++ digits ++ tail)

section Number

variable (place : Place) (marker : Marker) (digits tail : List UInt8)

theorem chooseBase_marker (m : MatchEntity) (input : List UInt8) (fresh : m.base = 0)
    (behind : input.drop (m.offset + m.length) = marker.text ++ digits ++ tail)
    (unmarked : marker = .decimal → ∀ c, (digits ++ tail).head? = some c → c &&& ~~~0x20 ≠ 0x58) :
    chooseBase input m = { m with
      base := if marker = .decimal ∧ digits ++ tail = [] then 0 else marker.base,
      length := m.length + marker.text.length } := by
  unfold chooseBase
  rw [peek_drop behind]
  cases marker with
  | decimal =>
    cases rest : digits ++ tail with
    | nil =>
      cases m
      simp_all [Marker.text]
    | cons c s =>
      have other := unmarked rfl c (by rw [rest]; rfl)
      simp [Marker.text, Marker.base, rest, fresh, other]
  | lower => simp [Marker.text, Marker.base, fresh]; rfl
  | upper => simp [Marker.text, Marker.base, fresh]; rfl

def semicolonLength : ℕ := if tail.head? = some 0x3B then 1 else 0

theorem eatSemicolon_tail (m : MatchEntity) (input : List UInt8) (behind : input.drop (m.offset + m.length) = tail) :
    eatSemicolon input m = { m with length := m.length + semicolonLength tail } := by
  unfold eatSemicolon semicolonLength
  rw [peek_drop behind]
  cases tail with
  | nil => simp
  | cons c s =>
    by_cases semicolon : c = 0x3B
    · rw [semicolon]
      rfl
    · simp [semicolon]

theorem handleNumberedEntity_digits (t : Tokeniser) {m : MatchEntity} (chosen : chooseBase t.input t.entity = m)
    (codepoint : m.codepoint = 0) (overflow : m.overflow = false) (hadData : m.hadData = false)
    (behind : t.input.drop (m.offset + m.length) = digits ++ tail) (all : ∀ c ∈ digits, isDigit m.base c = true)
    (ends : ∀ c, tail.head? = some c → isDigit m.base c = false) :
    ∃ hadData overflow, handleNumberedEntity t = { t with
      state := m.returnState,
      entity := { m with
        complete := true, hadData := hadData, overflow := overflow,
        length := m.length + digits.length + semicolonLength tail,
        codepoint := if digits = [] then 0 else
          finalCodepoint (digits.foldl (nextNumber m.base) (0, false)).1
            (digits.foldl (nextNumber m.base) (0, false)).2 } } := by
  have enough : digits.length < t.input.length + 1 := by
    have lengths := congrArg List.length behind
    rw [length_drop, length_append] at lengths
    omega
  have behindDigits : t.input.drop (m.offset + (m.length + digits.length)) = tail := by
    rw [← Nat.add_assoc, ← drop_drop, behind, drop_left]
  have read := numberLoop_digits t.input digits tail (t.input.length + 1) m behind enough all ends
  have eaten := eatSemicolon_tail tail (numberLoop t.input (t.input.length + 1) m) t.input
    (by rw [read]; exact behindDigits)
  refine ⟨!digits.isEmpty, (digits.foldl (nextNumber m.base) (0, false)).2, ?_⟩
  unfold handleNumberedEntity
  rw [chosen, eaten, read, codepoint, overflow, hadData]
  cases digits with
  | nil => simp
  | cons c digits => simp

theorem handleNumberedEntity_text (all : ∀ c ∈ digits, isDigit marker.base c = true)
    (ends : ∀ c, tail.head? = some c → isDigit marker.base c = false)
    (unmarked : marker = .decimal → ∀ c, (digits ++ tail).head? = some c → c &&& ~~~0x20 ≠ 0x58) :
    ∃ m : MatchEntity, m.complete = true ∧
      handleNumberedEntity { referring place (numberText marker digits tail) 0 { blank place with length := 1 } with
        state := .numberedEntity } = referring place (numberText marker digits tail) 0 m ∧
      m.length = 1 + marker.text.length + digits.length + semicolonLength tail ∧
      m.codepoint = if digits = [] then 0 else
        finalCodepoint (digits.foldl (nextNumber marker.base) (0, false)).1
          (digits.foldl (nextNumber marker.base) (0, false)).2 := by
  have behindSign : (place.before ++ 0x26 :: numberText marker digits tail).drop (place.before.length + 1 + 1) =
      marker.text ++ digits ++ tail := drop_succ (drop_ampersand place _)
  have chosen := chooseBase_marker marker digits tail { blank place with length := 1 } _ rfl behindSign unmarked
  have behindMarker : (place.before ++ 0x26 :: numberText marker digits tail).drop
      (place.before.length + 1 + (1 + marker.text.length)) = digits ++ tail := by
    rw [← Nat.add_assoc, ← drop_drop, behindSign, append_assoc, drop_left]
  let searching : Tokeniser :=
    { referring place (numberText marker digits tail) 0 { blank place with length := 1 } with state := .numberedEntity }
  by_cases none_left : marker = .decimal ∧ digits ++ tail = []
  · rw [if_pos none_left] at chosen
    obtain ⟨rfl, rfl⟩ := append_eq_nil_iff.mp none_left.2
    have handled := handleNumberedEntity_digits [] [] searching chosen rfl rfl rfl behindMarker
    obtain ⟨_, _, handled⟩ := handled (by simp) (by simp)
    exact ⟨_, rfl, handled, rfl, rfl⟩
  · rw [if_neg none_left] at chosen
    have handled := handleNumberedEntity_digits digits tail searching chosen rfl rfl rfl behindMarker
    obtain ⟨_, _, handled⟩ := handled all ends
    exact ⟨_, rfl, handled, rfl, rfl⟩

theorem plain_sign : plain place 0x23 = false := by
  cases place with
  | data => rfl
  | value quote before => cases quote <;> rfl

theorem reads_number (dict : Dict) (old : MatchEntity) (all : ∀ c ∈ digits, isDigit marker.base c = true)
    (ends : ∀ c, tail.head? = some c → isDigit marker.base c = false)
    (unmarked : marker = .decimal → ∀ c, (digits ++ tail).head? = some c → c &&& ~~~0x20 ≠ 0x58) :
    ∃ codepoint, (codepoint = if digits = [] then 0 else
        finalCodepoint (digits.foldl (nextNumber marker.base) (0, false)).1
          (digits.foldl (nextNumber marker.base) (0, false)).2) ∧
      ∀ bytes n, Reads dict old place (numberText marker digits tail) bytes n ↔
        place.after (numberText marker digits tail)
            (outcome codepoint (1 + marker.text.length + digits.length + semicolonLength tail)).1
            (outcome codepoint (1 + marker.text.length + digits.length + semicolonLength tail)).2 =
          place.after (numberText marker digits tail) bytes n := by
  obtain ⟨m, complete, handled, length, codepoint⟩ :=
    handleNumberedEntity_text place marker digits tail all ends unmarked
  refine ⟨m.codepoint, codepoint, ?_⟩
  intro bytes n
  have consumed := consumeCharacterReference_referring place (numberText marker digits tail)
    { old with complete := false }
  rw [numberText] at consumed
  simp only [plain_sign, Bool.false_eq_true, if_false, if_true] at consumed
  rw [← length]
  refine reads_searched dict place (numberText marker digits tail) old complete consumed ?_ bytes n
  exact congrArg some handled

theorem after_bytes {text bytes bytes' : List UInt8} {n n' : ℕ}
    (same : place.after text bytes n = place.after text bytes' n') : bytes = bytes' := by
  cases place <;> simp_all [Place.after]

theorem number_read (dict : Dict) (old : MatchEntity) (some_digit : digits ≠ [])
    (all : ∀ c ∈ digits, isDigit marker.base c = true)
    (ends : ∀ c, tail.head? = some c → isDigit marker.base c = false) :
    Reads dict old place (numberText marker digits tail) (utf8Of (documented (numberOf marker.base digits)))
        (2 + marker.text.length + digits.length + semicolonLength tail) ↔
      ¬Mistaken (numberOf marker.base digits) := by
  have unmarked : marker = .decimal → ∀ c, (digits ++ tail).head? = some c → c &&& ~~~0x20 ≠ 0x58 := by
    rintro rfl c head
    have digit : isDigit 10 c = true := by
      obtain ⟨d, digits, rfl⟩ := exists_cons_of_ne_nil some_digit
      cases head
      exact all _ (by simp)
    have other := Lwc.forall_byte (p := fun c => isDigit 10 c = true → c &&& ~~~0x20 ≠ 0x58) (by decide +kernel)
    exact other c digit
  obtain ⟨codepoint, value, reads⟩ := reads_number place marker digits tail dict old all ends unmarked
  rw [if_neg some_digit] at value
  have char : codepoint ≠ 0 := by
    rw [value]
    exact finalCodepoint_ne_zero _ _
  have decoded := finalCodepoint_eq_iff (digits_shows marker.isBase digits all)
  rw [← value] at decoded
  have length : 1 + marker.text.length + digits.length + semicolonLength tail + 1 =
      2 + marker.text.length + digits.length + semicolonLength tail := by
    omega
  rw [reads, outcome, if_pos char, length, ← decoded]
  constructor
  · exact after_bytes place
  · intro same
    rw [same]

end Number

/-- The text is that of a number with a digit at least. -/
def Numbered (text : List UInt8) : Prop :=
  ∃ marker d s, isDigit (Marker.base marker) d = true ∧ text = numberText marker [d] s

theorem sign_literal (dict : Dict) (old : MatchEntity) (place : Place) (s : List UInt8)
    (other : ¬Numbered (0x23 :: s)) : Reads dict old place (0x23 :: s) [0x26] 1 := by
  have literal (marker : Marker) (tail : List UInt8) (text : s = marker.text ++ tail)
      (unmarked : marker = .decimal → ∀ c, tail.head? = some c → c &&& ~~~0x20 ≠ 0x58) :
      Reads dict old place (0x23 :: s) [0x26] 1 := by
    have ends : ∀ c, tail.head? = some c → isDigit marker.base c = false := by
      intro c head
      by_contra digit
      cases tail with
      | nil => cases head
      | cons d tail =>
        cases head
        exact other ⟨marker, c, tail, by simpa using digit, by simp [numberText, text]⟩
    obtain ⟨codepoint, value, reads⟩ := reads_number place marker [] tail dict old (by simp) ends unmarked
    have whole : 0x23 :: s = numberText marker [] tail := by simp [numberText, text]
    rw [whole, reads, value]
    rfl
  cases s with
  | nil => exact literal .decimal [] rfl (by simp)
  | cons c s =>
    have letters := Lwc.forall_byte (p := fun c => c &&& ~~~0x20 = 0x58 → c = 0x78 ∨ c = 0x58) (by decide +kernel)
    by_cases marked : c &&& ~~~0x20 = 0x58
    · rcases letters c marked with rfl | rfl
      · exact literal .lower s rfl (by simp)
      · exact literal .upper s rfl (by simp)
    · exact literal .decimal (c :: s) rfl (by rintro - d ⟨⟩; exact marked)

/-! ### Names -/

theorem nameLoop_names (dict : Dict) (input s : List UInt8) (fuel : ℕ) (m : MatchEntity)
    (behind : input.drop (m.offset + m.possLength) = s) (enough : s.length < fuel) :
    ∃ possLength context, nameLoop dict input fuel m = { m with
      length := (names dict m.context s m.possLength (m.length, m.codepoint)).1,
      codepoint := (names dict m.context s m.possLength (m.length, m.codepoint)).2,
      possLength := possLength, context := context } := by
  induction s generalizing fuel m with
  | nil =>
    obtain ⟨fuel, rfl⟩ := Nat.exists_eq_succ_of_ne_zero (by omega : fuel ≠ 0)
    refine ⟨m.possLength, m.context, ?_⟩
    rw [nameLoop, peek_drop behind]
    rfl
  | cons c s ih =>
    obtain ⟨fuel, rfl⟩ := Nat.exists_eq_succ_of_ne_zero (by omega : fuel ≠ 0)
    rw [nameLoop, peek_drop behind, names]
    simp only [List.head?_cons, map_some]
    by_cases wide : 0x7F < c
    · rw [if_pos wide, if_pos wide]
      exact ⟨m.possLength, m.context, rfl⟩
    · have later : input.drop (m.offset + (m.possLength + 1)) = s := drop_succ behind
      have short : s.length < fuel := by simpa using enough
      rw [if_neg wide, if_neg wide, single_of_ascii (UInt8.not_lt.mp wide)]
      rcases searchStep dict c m.context with ⟨_ | _ | _, cp, context⟩
      · exact ih fuel { m with
          codepoint := cp, length := m.possLength + 1, possLength := m.possLength + 1, context := context } later short
      · exact ih fuel { m with possLength := m.possLength + 1, context := context } later short
      · exact ⟨m.possLength, context, rfl⟩

section NameRead

variable (dict : Dict) (place : Place) (text : List UInt8)

def searched : ℕ × UInt32 := names dict .nil text 0 (0, 0)

/-- What the character behind a name says in an attribute value: no letter or digit follows, and something does. -/
def keptInValue (length : ℕ) : Bool :=
  match text[length]? with
  | none => false
  | some c => !isAlphanumeric c

/-- What is made of the match; nothing when there is no last character of it. -/
def matched (r : ℕ × UInt32) : Option UInt32 :=
  if r.1 = 0 then some r.2
  else text[r.1 - 1]?.map fun last =>
    if place.inValue ∧ last ≠ 0x3B ∧ keptInValue text r.1 = false then 0 else r.2

theorem inValue_iff : place.state = .characterReferenceInAttributeValue ↔ place.inValue = true := by
  cases place <;> simp [Place.state, Place.inValue]

theorem handleNamedEntity_text :
    (matched place text (searched dict text) = none ∧
      handleNamedEntity dict { referring place text 0 (blank place) with state := .namedEntity } = none) ∨
    ∃ m : MatchEntity, m.complete = true ∧
      handleNamedEntity dict { referring place text 0 (blank place) with state := .namedEntity } =
        some (referring place text 0 m) ∧
      m.length = (searched dict text).1 ∧ matched place text (searched dict text) = some m.codepoint := by
  have behind := drop_ampersand place text
  have enough : text.length < (place.before ++ 0x26 :: text).length + 1 := by
    rw [length_append, length_cons]
    omega
  obtain ⟨possLength, context, read⟩ := nameLoop_names dict (place.before ++ 0x26 :: text) text _ (blank place)
    behind enough
  have at_ (k : ℕ) : peek (place.before ++ 0x26 :: text) (place.before.length + 1 + k) =
      text[k]?.map fun c => (c, Utf8.numContinuations c + 1) := by
    rw [peek, ← List.getElem?_drop, behind]
  generalize result : searched dict text = r
  have named : names dict .nil text 0 (0, 0) = r := result
  unfold handleNamedEntity matched
  simp only [referring, read]
  simp only [blank, named]
  by_cases none_matched : r.1 = 0
  · refine Or.inr ⟨⟨place.before.length + 1, r.1, r.2, true, possLength, 0, context, false, false, place.state⟩, rfl,
      ?_, rfl, if_pos none_matched⟩
    rw [if_neg (by omega)]
  have before : place.before.length + 1 + r.1 - 1 = place.before.length + 1 + (r.1 - 1) := by
    omega
  rw [if_neg none_matched, if_pos (Nat.pos_of_ne_zero none_matched), before, at_, at_]
  cases atEnd : text[r.1 - 1]? with
  | none => exact Or.inl ⟨rfl, rfl⟩
  | some last =>
    right
    simp only [map_some, inValue_iff]
    by_cases bare : place.inValue = true ∧ last ≠ 0x3B
    · rw [if_pos bare]
      cases next : text[r.1]? with
      | none =>
        refine ⟨⟨place.before.length + 1, r.1, 0, true, possLength, 0, context, false, false, place.state⟩, rfl, rfl, rfl,
          ?_⟩
        simp [bare, keptInValue, next]
      | some c =>
        refine ⟨⟨place.before.length + 1, r.1, if isAlphanumeric c then 0 else r.2, true, possLength, 0, context, false,
          false, place.state⟩, rfl, ?_, rfl, ?_⟩
        · simp only [map_some]
          split_ifs <;> rfl
        · simp [bare, keptInValue, next]
    · refine ⟨⟨place.before.length + 1, r.1, r.2, true, possLength, 0, context, false, false, place.state⟩, rfl, ?_, rfl,
        ?_⟩
      · rw [if_neg bare]
      · rw [if_neg fun kept => bare ⟨kept.1, kept.2.1⟩]

theorem reads_name (old : MatchEntity) (c : UInt8) (s : List UInt8) (notPlain : plain place c = false)
    (noSign : c ≠ 0x23) (bytes : List UInt8) (n : ℕ) :
    Reads dict old place (c :: s) bytes n ↔
      ∃ codepoint, matched place (c :: s) (searched dict (c :: s)) = some codepoint ∧
        place.after (c :: s) (outcome codepoint (searched dict (c :: s)).1).1
          (outcome codepoint (searched dict (c :: s)).1).2 = place.after (c :: s) bytes n := by
  have consumed := consumeCharacterReference_referring place (c :: s) { old with complete := false }
  simp only [notPlain, noSign, Bool.false_eq_true, if_false] at consumed
  rcases handleNamedEntity_text dict place (c :: s) with ⟨fails, handled⟩ | ⟨m, complete, handled, length, match_⟩
  · have first := (step_incomplete dict place (c :: s) place.allowed rfl).trans consumed
    have second : step dict { referring place (c :: s) 0 (blank place) with state := .namedEntity } = none := handled
    unfold Reads run
    simp only [first, second, bind_eq_bind, bind_some, bind_none, map_none, fails]
    simp
  · rw [reads_searched dict place (c :: s) old complete consumed handled, match_, length]
    simp

theorem letter_not_plain {c : UInt8} (letter : isLetter c = true) : plain place c = false ∧ c ≠ 0x23 := by
  have other := Lwc.forall_byte (p := fun c => isLetter c = true → c ∉ [0x09, 0x0A, 0x0C, 0x20, 0x3C, 0x26, 0x22, 0x27, 0x23])
    (by decide +kernel)
  have apart := other c letter
  simp only [mem_cons, not_mem_nil, or_false, not_or] at apart
  refine ⟨?_, apart.2.2.2.2.2.2.2.2⟩
  cases place with
  | data => simp [plain, Place.allowed, apart]
  | value quote before => cases quote <;> simp [plain, Place.allowed, Quote.allowed, apart]

variable {dict text}

variable {w : List UInt8} {x : UInt32}

theorem name_letter (generated : Generated dict) (name : Name dict w x) : ∃ c w', w = c :: w' ∧ isLetter c = true := by
  obtain ⟨c, w', split, member⟩ := Word.head_mem name
  have letter := generated.letters c member
  cases w with
  | nil =>
    injection split with zero _
    rw [← zero] at letter
    exact absurd letter (by decide)
  | cons d w =>
    injection split with same _
    exact ⟨d, w, rfl, same ▸ letter⟩

theorem name_ne_zero {t : Dict} (searchable : Searchable t) (name : Name t w x) : x ≠ 0 := by
  induction w generalizing t with
  | nil =>
    have node := (find_terminated searchable.terminated ((name_nil_iff searchable x).mp name)).1
    rw [if_pos rfl] at node
    exact node.2
  | cons c w ih =>
    obtain ⟨e, y, found, rest⟩ := (name_cons_iff searchable c w x).mp name
    exact ih (find_searchable searchable found) rest

theorem searches_dict : Searches dict .nil dict := if_pos rfl

theorem trapped_iff (generated : Generated dict) (longest : Longest dict text w x) :
    Trapped dict text ↔ text[w.length]? = some 0x00 := by
  obtain ⟨name, ⟨behind, rfl⟩, most⟩ := longest
  constructor
  · rintro ⟨u, r, x', split, name'⟩
    have short := most u x' name' ⟨0x00 :: r, split.symm⟩
    rcases append_eq_append_iff.mp split with ⟨later, rfl, rest⟩ | ⟨later, rfl, rest⟩
    · have none_later : later = [] := by
        rw [length_append] at short
        exact length_eq_zero_iff.mp (by omega)
      rw [none_later, nil_append] at rest
      simp [rest]
    · cases later with
      | nil =>
        rw [nil_append] at rest
        simp [← rest]
      | cons c later =>
        injection rest with zero _
        have inside : (0x00 : UInt8) ∈ u ++ c :: later := by simp [zero]
        exact absurd inside (nul_not_mem generated.toSearchable name)
  · intro nul
    rw [List.getElem?_append_right (le_refl _), Nat.sub_self] at nul
    cases behind with
    | nil => cases nul
    | cons c r =>
      cases nul
      exact ⟨w, r, x, rfl, name⟩

/-- In an attribute value: a name without a semicolon, and a letter or a digit behind it. -/
def Excepted (text w : List UInt8) : Prop :=
  place.inValue = true ∧ w.getLast? ≠ some 0x3B ∧ text[w.length]?.any isAlphanumeric = true

/-- In an attribute value: a name without a semicolon, and the end of the input behind it. -/
def AtEnd (text w : List UInt8) : Prop :=
  place.inValue = true ∧ w.getLast? ≠ some 0x3B ∧ text[w.length]? = none

instance (text w : List UInt8) : Decidable (Excepted place text w) := by
  unfold Excepted
  infer_instance

instance (text w : List UInt8) : Decidable (AtEnd place text w) := by
  unfold AtEnd
  infer_instance

theorem name_ne_nil (generated : Generated dict) (name : Name dict w x) : w ≠ [] := by
  obtain ⟨c, w', rfl, -⟩ := name_letter generated name
  simp

theorem searched_longest (generated : Generated dict) (longest : Longest dict text w x)
    (free : text[w.length]? ≠ some 0x00) : searched dict text = (w.length, x) := by
  have free' : ¬Trapped dict text := (trapped_iff generated longest).not.mpr free
  obtain ⟨name, begins, most⟩ := longest
  rcases names_spec text searches_dict generated.toSearchable free' 0 (0, 0) with ⟨w', x', _, longest', found⟩ | ⟨none, -⟩
  · obtain ⟨name', begins', most'⟩ := longest'
    have same : w' = w := by
      have shorter := most w' x' name' begins'
      have longer := most' w x name begins
      exact (prefix_of_prefix_length_le begins' begins shorter).eq_of_length (by omega)
    rw [same] at name' found
    have value := Word.unique generated.ordered name' name
    rw [value, Nat.zero_add] at found
    exact found
  · exact absurd begins (none w x (name_ne_nil generated name) name)

theorem keptInValue_iff (length : ℕ) :
    keptInValue text length = false ↔ text[length]? = none ∨ text[length]?.any isAlphanumeric = true := by
  unfold keptInValue
  cases text[length]? <;> simp

theorem matched_longest (generated : Generated dict) (longest : Longest dict text w x) :
    matched place text (w.length, x) = some (if AtEnd place text w ∨ Excepted place text w then 0 else x) := by
  obtain ⟨name, ⟨behind, rfl⟩, -⟩ := longest
  have some_name := name_ne_nil generated name
  have long := length_pos_iff.mpr some_name
  have last : (w ++ behind)[w.length - 1]? = w.getLast? := by
    rw [List.getElem?_append_left (by omega), List.getLast?_eq_getElem?]
  obtain ⟨c, atEnd⟩ := isSome_iff_exists.mp (List.getLast?_isSome.mpr some_name)
  have dropped : AtEnd place (w ++ behind) w ∨ Excepted place (w ++ behind) w ↔
      place.inValue = true ∧ c ≠ 0x3B ∧ keptInValue (w ++ behind) w.length = false := by
    unfold AtEnd Excepted
    rw [atEnd, keptInValue_iff, ← and_or_left, ← and_or_left, Ne, some_inj]
  unfold matched
  rw [if_neg (by dsimp only; omega)]
  dsimp only
  rw [last, atEnd, map_some]
  exact congrArg some (if_congr dropped.symm rfl rfl)

theorem after_length {bytes bytes' : List UInt8} {n n' : ℕ}
    (same : place.after text bytes n = place.after text bytes' n') (inside : n' ≤ text.length ∨ place.inValue = true) :
    n = n' := by
  cases place with
  | data =>
    have short : n' ≤ text.length := by simpa [Place.inValue] using inside
    have lengths : ((0x26 :: text).drop n).length = ((0x26 :: text).drop n').length := by
      injection same with _ same
      injection same with same _
      rw [same]
    rw [length_drop, length_drop, length_cons] at lengths
    omega
  | value quote before =>
    simp only [Place.after, Prod.mk.injEq] at same
    omega

/-- A name gives its character and takes its text when no NUL comes behind it and, in an attribute value and without
a semicolon, the input does not end there. -/
theorem name_read (old : MatchEntity) (generated : Generated dict) (longest : Longest dict text w x)
    (ordinary : ¬Excepted place text w) :
    Reads dict old place text (utf8Of x) (w.length + 1) ↔ text[w.length]? ≠ some 0x00 ∧ ¬AtEnd place text w := by
  obtain ⟨name, begins, most⟩ := id longest
  obtain ⟨c, w', rfl, letter⟩ := name_letter generated name
  obtain ⟨behind, rfl⟩ := begins
  obtain ⟨notPlain, noSign⟩ := letter_not_plain place letter
  rw [cons_append, reads_name dict place old c _ notPlain noSign, ← cons_append]
  by_cases nul : (c :: w' ++ behind)[(c :: w').length]? = some 0x00
  · -- the NUL is taken too, so that too much is read
    simp only [nul, ne_eq, not_true_eq_false, false_and, iff_false]
    rintro ⟨codepoint, -, same⟩
    have inside : (c :: w').length < (c :: w' ++ behind).length := (List.getElem?_eq_some_iff.mp nul).1
    have length := after_length place same (Or.inl inside)
    have passed : (c :: w').length + 1 ≤ (searched dict (c :: w' ++ behind)).1 := by
      rw [List.getElem?_append_right (le_refl _), Nat.sub_self] at nul
      cases behind with
      | nil => cases nul
      | cons d r =>
        cases nul
        have := names_passed (c :: w') r searches_dict generated.toSearchable name 0 (0, 0)
        rwa [Nat.zero_add] at this
    unfold outcome at length
    rw [length_cons] at length passed
    split_ifs at length <;> dsimp only at length <;> omega
  · have free : (c :: w' ++ behind)[(c :: w').length]? ≠ some 0x00 := nul
    have char := name_ne_zero generated.toSearchable name
    rw [searched_longest generated longest free, matched_longest place generated longest]
    simp only [some_inj, ordinary, or_false, exists_eq_left', free, ne_eq, not_false_eq_true, true_and]
    by_cases atEnd : AtEnd place (c :: w' ++ behind) (c :: w')
    · simp only [atEnd, if_true, not_true_eq_false, iff_false]
      intro same
      have length := after_length place same (Or.inr atEnd.1)
      simp [outcome] at length
    · simp only [atEnd, if_false, not_false_eq_true, iff_true]
      rw [outcome, if_pos char]

theorem other_literal (old : MatchEntity) (generated : Generated dict) (noNumber : ¬Numbered text)
    (noName : (∀ w x, Name dict w x → ¬w <+: text) ∨ ∃ w x, Longest dict text w x ∧ Excepted place text w) :
    Reads dict old place text [0x26] 1 := by
  have consumed := consumeCharacterReference_referring place text { old with complete := false }
  cases text with
  | nil => exact (reads_at_once dict place [] old rfl consumed [0x26] 1).mpr rfl
  | cons c s =>
    cases isPlain : plain place c with
    | true =>
      simp only [isPlain, if_true] at consumed
      exact (reads_at_once dict place (c :: s) old rfl consumed [0x26] 1).mpr rfl
    | false =>
      by_cases sign : c = 0x23
      · subst sign
        exact sign_literal dict old place s noNumber
      · rw [reads_name dict place old c s isPlain sign]
        rcases noName with none_begins | ⟨w, x, longest, excepted⟩
        · have free : ¬Trapped dict (c :: s) := by
            rintro ⟨u, r, x, split, name⟩
            exact none_begins u x name ⟨0x00 :: r, split.symm⟩
          have kept := names_spec (c :: s) searches_dict generated.toSearchable free 0 (0, 0)
          rcases kept with ⟨w, x, -, ⟨name, begins, -⟩, -⟩ | ⟨-, found⟩
          · exact absurd begins (none_begins w x name)
          · have nothing : searched dict (c :: s) = (0, 0) := found
            rw [nothing]
            exact ⟨0, rfl, rfl⟩
        · have free : (c :: s)[w.length]? ≠ some 0x00 := by
            intro nul
            have alphanumeric := excepted.2.2
            rw [nul] at alphanumeric
            exact absurd alphanumeric (by decide)
          rw [searched_longest generated longest free, matched_longest place generated longest, if_pos (Or.inr excepted)]
          exact ⟨0, rfl, rfl⟩

end NameRead

/-! ### References as they are meant -/

/-- A number is decoded as it is documented unless it is above the last code point and its low 32 bits are those of a
return or of a character of Windows-1252.  The longest name is decoded unless a NUL follows it or, in an attribute
value, there is no semicolon and the input ends there.  In all other cases the ampersand is literal. -/
theorem character_references_exact {dict : Dict} (generated : Generated dict) (old : MatchEntity) (place : Place) :
    (∀ (marker : Marker) (digits tail : List UInt8), digits ≠ [] → (∀ c ∈ digits, isDigit marker.base c = true) →
      (∀ c, tail.head? = some c → isDigit marker.base c = false) →
      (Reads dict old place (numberText marker digits tail) (utf8Of (documented (numberOf marker.base digits)))
          (2 + marker.text.length + digits.length + semicolonLength tail) ↔
        ¬Mistaken (numberOf marker.base digits))) ∧
    (∀ (text w : List UInt8) (x : UInt32), Longest dict text w x → ¬Excepted place text w →
      (Reads dict old place text (utf8Of x) (w.length + 1) ↔
        text[w.length]? ≠ some 0x00 ∧ ¬AtEnd place text w)) ∧
    ∀ text : List UInt8, ¬Numbered text →
      ((∀ w x, Name dict w x → ¬w <+: text) ∨ ∃ w x, Longest dict text w x ∧ Excepted place text w) →
      Reads dict old place text [0x26] 1 :=
  ⟨fun marker digits tail => number_read place marker digits tail dict old,
    fun _ _ _ => name_read place old generated,
    fun _ => other_literal place old generated⟩

/-- The part of the dictionary for `lt` and `lt;`. -/
def lessThan : Dict :=
  .node 0x6C .nil
    (.node 0x74 .nil
      (.node 0x00 .nil .nil (.node 0x3B .nil (.node 0x00 .nil .nil .nil 0x3C) .nil 0) 0x3C)
      .nil 0)
    .nil 0

theorem lessThan_name {w : List UInt8} {x : UInt32} (name : Name lessThan w x) : w ∈ [[0x6C, 0x74], [0x6C, 0x74, 0x3B]] := by
  have words : lessThan.words = [([0x6C, 0x74, 0x00], 0x3C), ([0x6C, 0x74, 0x3B, 0x00], 0x3C)] := rfl
  have member := TernaryTree.word_iff_mem.mp name
  rw [words] at member
  simp only [mem_cons, Prod.mk.injEq, not_mem_nil, or_false] at member ⊢
  rcases member with ⟨ends, -⟩ | ⟨ends, -⟩
  · exact Or.inl ((append_left_inj [0x00]).mp ends)
  · exact Or.inr ((append_left_inj [0x00]).mp ends)

theorem lessThan_generated : Generated lessThan where
  ordered := by simp [lessThan, TernaryTree.Ordered, TernaryTree.heads]
  terminated := by simp [lessThan, Terminated, TernaryTree.heads, splitOf]
  ascii w x word := by
    have all : lessThan.words.Forall fun word => word.1.Forall (· ≤ 0x7F) := by decide
    exact forall_iff_forall_mem.mp (forall_iff_forall_mem.mp all _ (TernaryTree.word_iff_mem.mp word))
  letters := forall_iff_forall_mem.mp (by decide)

theorem lessThan_longest : Longest lessThan [0x6C, 0x74, 0x3B, 0x61] [0x6C, 0x74, 0x3B] 0x3C := by
  refine ⟨TernaryTree.word_iff_mem.mpr (by decide), by decide, ?_⟩
  intro w x name _
  have listed := lessThan_name name
  simp only [mem_cons, not_mem_nil, or_false] at listed
  rcases listed with rfl | rfl <;> decide

theorem references_of_less_than :
    (Reads lessThan (blank .data) .data (numberText .decimal [0x36, 0x35] [0x3B]) (utf8Of (documented 65)) 5 ↔ ¬Mistaken 65) ∧
    (Reads lessThan (blank .data) .data [0x6C, 0x74, 0x3B, 0x61] (utf8Of 0x3C) 4 ↔
      some (0x61 : UInt8) ≠ some 0x00 ∧ ¬AtEnd .data [0x6C, 0x74, 0x3B, 0x61] [0x6C, 0x74, 0x3B]) := by
  have exact_ := character_references_exact lessThan_generated (blank .data) .data
  exact ⟨exact_.1 .decimal [0x36, 0x35] [0x3B] (by decide)
      (forall_iff_forall_mem.mp (by decide)) fun _ head => by cases head; rfl,
    exact_.2.1 _ _ _ lessThan_longest (by decide)⟩

/-- 4294967424 is 2 ^ 32 + 0x80, and gives the euro sign. -/
theorem large_number_mistaken :
    ¬∀ (dict : Dict) (old : MatchEntity) (place : Place) (marker : Marker) (digits tail : List UInt8), digits ≠ [] →
      (∀ c ∈ digits, isDigit marker.base c = true) → (∀ c, tail.head? = some c → isDigit marker.base c = false) →
      Reads dict old place (numberText marker digits tail) (utf8Of (documented (numberOf marker.base digits)))
        (2 + marker.text.length + digits.length + semicolonLength tail) := by
  intro always
  have read := always lessThan (blank .data) .data .decimal [0x34, 0x32, 0x39, 0x34, 0x39, 0x36, 0x37, 0x34, 0x32, 0x34]
    [0x3B] (by decide) (forall_iff_forall_mem.mp (by decide)) fun _ head => by cases head; rfl
  revert read
  unfold Reads
  decide +kernel

end Besra.CharacterReference
