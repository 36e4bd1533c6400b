import Besra.TokeniserInput
import Besra.TernaryTree
import Besra.Utf8Encode

/-!
Character references in the HTML tokeniser (libhubbub, tokeniser.c and entities.c), in text and in attribute values.

The dictionary of the names is generated when the library is built and is no part of the sources, so it is given.  An
index into it stands for the tree that it leads to, and −1 for the empty tree.
-/

namespace Besra.CharacterReference

open Utf8 (fromUcs4)
open TokeniserInput (peek)

abbrev Dict := TernaryTree UInt8 UInt32

inductive SearchResult where
  | ok
  | needdata
  | invalid
  deriving DecidableEq

def splitOf : Dict → Option UInt8
  | .nil => none
  | .node split _ _ _ _ => some split

def valueOf : Dict → UInt32
  | .nil => 0
  | .node _ _ _ _ value => value

/-- `hubbub_entities_search_step`: the answer, the result and the new context. -/
def searchStep (dict : Dict) (c : UInt8) (context : Dict) : SearchResult × UInt32 × Dict :=
  let p : Dict := if context = .nil then dict else context
  match p.find c with
  | none => (.invalid, 0xFFFD, .nil)
  | some (eq, value) =>
    -- `c` is what the node splits on
    if c = 0x00 then (.ok, 0xFFFD, .nil)
    else if splitOf eq = some 0x00 then (.ok, valueOf eq, eq)
    else if value ≠ 0 then (.ok, value, eq)
    else (if eq = .nil then .invalid else .needdata, 0xFFFD, eq)

inductive State where
  | data
  | characterReferenceData
  | attributeValueDq
  | attributeValueSq
  | attributeValueUq
  | characterReferenceInAttributeValue
  | numberedEntity
  | namedEntity
  deriving DecidableEq

structure MatchEntity where
  offset : ℕ
  length : ℕ
  codepoint : UInt32
  complete : Bool
  possLength : ℕ
  base : ℕ
  context : Dict
  hadData : Bool
  overflow : Bool
  returnState : State
  deriving DecidableEq

/-- `input` is what the stream holds from its cursor on, `value` that of the last attribute of the current tag. -/
structure Tokeniser where
  state : State
  prevState : State
  input : List UInt8
  pending : ℕ
  allowedChar : UInt8
  entity : MatchEntity
  emitted : List UInt8
  value : List UInt8
  deriving DecidableEq

/-- `hubbub_tokeniser_consume_character_reference`; nothing when an assertion fails. -/
def consumeCharacterReference (t : Tokeniser) : Option Tokeniser :=
  match peek t.input t.pending with
  | some (0x26, 1) =>
    let off := t.pending + 1
    match peek t.input off with
    | none => some { t with entity := { t.entity with complete := true, codepoint := 0 } }
    | some (c, len) =>
      let entity : MatchEntity := ⟨off, 0, 0, false, 0, 0, .nil, false, false, t.state⟩
      let allowed := t.allowedChar
      let t := { t with allowedChar := 0, entity := entity }
      if c = 0x09 ∨ c = 0x0A ∨ c = 0x0C ∨ c = 0x20 ∨ c = 0x3C ∨ c = 0x26 ∨ (allowed ≠ 0 ∧ c = allowed) then
        some { t with entity := { entity with complete := true, codepoint := 0 } }
      else if c = 0x23 then some { t with entity := { entity with length := len }, state := .numberedEntity }
      else some { t with state := .namedEntity }
  | _ => none

def isDigit (base : ℕ) (c : UInt8) : Bool :=
  (base = 10 ∧ 0x30 ≤ c ∧ c ≤ 0x39) ∨
    (base = 16 ∧ ((0x30 ≤ c ∧ c ≤ 0x39) ∨ (0x41 ≤ c &&& ~~~0x20 ∧ c &&& ~~~0x20 ≤ 0x46)))

def digitValue (c : UInt8) : UInt32 :=
  if 0x30 ≤ c ∧ c ≤ 0x39 then (c - 0x30).toUInt32 else ((c &&& ~~~0x20) - 0x41 + 10).toUInt32

/-- The loop of `hubbub_tokeniser_handle_numbered_entity`; the `fuel` is more than there are digits. -/
def numberLoop (input : List UInt8) : ℕ → MatchEntity → MatchEntity
  | 0, m => m
  | fuel + 1, m =>
    match peek input (m.offset + m.length) with
    | none => m
    | some (c, len) =>
      if isDigit m.base c then
        let codepoint := m.codepoint * m.base.toUInt32 + digitValue c
        numberLoop input fuel { m with
          hadData := true, codepoint := codepoint, length := m.length + len,
          overflow := m.overflow || decide (codepoint ≥ 0x10FFFF) }
      else m

def cp1252Table : List UInt32 :=
  [0x20AC, 0xFFFD, 0x201A, 0x0192, 0x201E, 0x2026, 0x2020, 0x2021,
   0x02C6, 0x2030, 0x0160, 0x2039, 0x0152, 0xFFFD, 0x017D, 0xFFFD,
   0xFFFD, 0x2018, 0x2019, 0x201C, 0x201D, 0x2022, 0x2013, 0x2014,
   0x02DC, 0x2122, 0x0161, 0x203A, 0x0153, 0xFFFD, 0x017E, 0x0178]

def finalCodepoint (cp : UInt32) (overflow : Bool) : UInt32 :=
  if 0x80 ≤ cp ∧ cp ≤ 0x9F then cp1252Table.getD (cp - 0x80).toNat 0
  else if cp = 0x0D then 0x000A
  else if overflow ∨ cp ≤ 0x0008 ∨ cp = 0x000B ∨ (0x000E ≤ cp ∧ cp ≤ 0x001F) ∨ (0x007F ≤ cp ∧ cp ≤ 0x009F) ∨
      (0xD800 ≤ cp ∧ cp ≤ 0xDFFF) ∨ (0xFDD0 ≤ cp ∧ cp ≤ 0xFDEF) ∨ cp &&& 0xFFFE = 0xFFFE then 0xFFFD
  else cp

def chooseBase (input : List UInt8) (m : MatchEntity) : MatchEntity :=
  match peek input (m.offset + m.length) with
  | none => m
  | some (c, len) =>
    if m.base = 0 then
      if c &&& ~~~0x20 = 0x58 then { m with base := 16, length := m.length + len } else { m with base := 10 }
    else m

def eatSemicolon (input : List UInt8) (m : MatchEntity) : MatchEntity :=
  match peek input (m.offset + m.length) with
  | none => m
  | some (c, len) => if c = 0x3B then { m with length := m.length + len } else m

/-- `hubbub_tokeniser_handle_numbered_entity` -/
def handleNumberedEntity (t : Tokeniser) : Tokeniser :=
  let m := eatSemicolon t.input (numberLoop t.input (t.input.length + 1) (chooseBase t.input t.entity))
  let m := if m.hadData then { m with codepoint := finalCodepoint m.codepoint m.overflow } else m
  { t with entity := { m with complete := true }, state := m.returnState }

/-- The loop of `hubbub_tokeniser_handle_named_entity`; the `fuel` is more than there is to read. -/
def nameLoop (dict : Dict) (input : List UInt8) : ℕ → MatchEntity → MatchEntity
  | 0, m => m
  | fuel + 1, m =>
    match peek input (m.offset + m.possLength) with
    | none => m
    | some (c, len) =>
      if 0x7F < c then m
      else
        match searchStep dict c m.context with
        | (.ok, cp, context) =>
          nameLoop dict input fuel { m with
            codepoint := cp, length := m.possLength + len, possLength := m.possLength + len, context := context }
        | (.invalid, _, context) => { m with context := context }
        | (.needdata, _, context) =>
          nameLoop dict input fuel { m with possLength := m.possLength + len, context := context }

def isAlphanumeric (c : UInt8) : Bool :=
  (0x30 ≤ c ∧ c ≤ 0x39) ∨ (0x41 ≤ c ∧ c ≤ 0x5A) ∨ (0x61 ≤ c ∧ c ≤ 0x7A)

/-- `hubbub_tokeniser_handle_named_entity`; nothing when an assertion fails. -/
def handleNamedEntity (dict : Dict) (t : Tokeniser) : Option Tokeniser :=
  let m := nameLoop dict t.input (t.input.length + 1) t.entity
  let done (m : MatchEntity) : Tokeniser := { t with entity := { m with complete := true }, state := m.returnState }
  if 0 < m.length then
    match peek t.input (m.offset + m.length - 1) with
    | none => none
    | some (last, _) =>
      if m.returnState = .characterReferenceInAttributeValue ∧ last ≠ 0x3B then
        match peek t.input (m.offset + m.length) with
        | none => some (done { m with codepoint := 0 })
        | some (c, _) => some (done (if isAlphanumeric c then { m with codepoint := 0 } else m))
      else some (done m)
  else some (done m)

/-- What `parserutils_charset_utf8_from_ucs4` leaves in the six bytes that it is given. -/
def utf8Of (codepoint : UInt32) : List UInt8 :=
  match fromUcs4 codepoint 6 with
  | .ok (bytes, _) => bytes
  | .error _ => []

/-- The bytes of a complete reference and how many it takes from the stream; nothing when there is no character. -/
def taken (t : Tokeniser) : Option (List UInt8 × ℕ) :=
  if t.entity.codepoint ≠ 0 then some (utf8Of t.entity.codepoint, t.entity.length + 1)
  else (peek t.input t.pending).map fun (_, len) => ((t.input.drop t.pending).take len, len)

/-- `hubbub_tokeniser_handle_character_reference_data`; nothing when an assertion fails or the stream ends. -/
def handleCharacterReferenceData (t : Tokeniser) : Option Tokeniser :=
  if t.pending ≠ 0 then none
  else if t.entity.complete = false then consumeCharacterReference t
  else
    (taken t).map fun (bytes, n) =>
      { t with
        emitted := t.emitted ++ bytes, input := t.input.drop n,
        entity := { t.entity with complete := false }, state := .data }

/-- `hubbub_tokeniser_handle_character_reference_in_attribute_value` -/
def handleCharacterReferenceInAttributeValue (t : Tokeniser) : Option Tokeniser :=
  if t.entity.complete = false then consumeCharacterReference t
  else
    (taken t).map fun (bytes, n) =>
      { t with
        value := t.value ++ bytes, pending := t.pending + n,
        entity := { t.entity with complete := false }, state := t.prevState }

/-- One round of the loop of `hubbub_tokeniser_run`, as long as the tokeniser is in the states of a reference. -/
def step (dict : Dict) (t : Tokeniser) : Option Tokeniser :=
  match t.state with
  | .characterReferenceData => handleCharacterReferenceData t
  | .characterReferenceInAttributeValue => handleCharacterReferenceInAttributeValue t
  | .numberedEntity => some (handleNumberedEntity t)
  | .namedEntity => handleNamedEntity dict t
  | _ => some t

/-- A reference takes three rounds at most. -/
def run (dict : Dict) (t : Tokeniser) : Option Tokeniser := do
  let t ← step dict t
  let t ← step dict t
  step dict t

end Besra.CharacterReference
