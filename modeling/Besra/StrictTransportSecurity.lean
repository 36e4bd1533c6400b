import Besra.NsurlParse

/-!
The value of the Strict-Transport-Security header, from
`netsurf/utils/http/strict-transport-security.c` with the tokens of `primitives.c` and the
lists of `generics.c`. Memory is never short, so that every error is `NSERROR_NOT_FOUND`.
-/
namespace Besra.StrictTransportSecurity
open Lwc NsurlParse

/-- `http__skip_LWS` -/
def skipLws (s : List UInt8) : List UInt8 := s.dropWhile fun c => c = ch ' ' ∨ c = 0x09

/-- `http_is_token_char` -/
def isTokenChar (c : UInt8) : Bool :=
  if c ≤ ch ' ' ∨ 126 < c then false else !(lit "()<>@,;:\\\"/[]?=\x7b\x7d").contains c

/-- `http__parse_token`: the token and what follows it. -/
def parseToken (s : List UInt8) : Option (LwcString × List UInt8) :=
  match s.takeWhile isTokenChar with
  | [] => none
  | token => some (token, s.dropWhile isTokenChar)

def isQuotedChar (c : UInt8) : Bool :=
  c = 0x09 ∨ c = 0x0d ∨ c = 0x0a ∨ c = ch ' ' ∨ c = ch '!' ∨ (ch '#' ≤ c ∧ c ≤ 126) ∨ c > 127

/-- `http__parse_quoted_string` -/
def parseQuotedString : List UInt8 → Option (LwcString × List UInt8)
  | [] => none
  | quote :: s =>
    if quote ≠ ch '"' then none
    else
      match s.dropWhile isQuotedChar with
      | [] => none
      | quote :: rest => if quote = ch '"' then some (s.takeWhile isQuotedChar, rest) else none

/-- `http_directive` -/
structure Directive where
  name : LwcString
  value : Option LwcString
deriving DecidableEq

/-- `http__parse_directive` -/
def parseDirective (s : List UInt8) : Option (Directive × List UInt8) := do
  let (name, s) ← parseToken s
  let s := skipLws s
  if byteAt s 0 = ch '=' then
    let s := skipLws s.tail
    let (value, s) ← if byteAt s 0 = ch '"' then parseQuotedString s else parseToken s
    return (⟨name, some value⟩, s)
  else return (⟨name, none⟩, s)

/-- The loop of `http___item_list_parse`: new items go in front, and an item that cannot be parsed is passed over. -/
def itemListParse (separator : UInt8) : Nat → List Directive → List UInt8 → List Directive
  | 0, list, _ => list
  | _, list, [] => list
  | fuel + 1, list, c :: s =>
    if c ≠ separator then list
    else
      match parseDirective (skipLws s) with
      | some (item, rest) => itemListParse separator fuel (item :: list) (skipLws rest)
      | none => itemListParse separator fuel list (skipLws s)

/-- `http_directive_list_find_item` -/
def findItem (list : List Directive) (name : LwcString) : Option Directive :=
  list.find? fun d => caselessIsEqual name d.name

def checkDuplicates (list : List Directive) : Bool :=
  list.all fun d => list.countP (fun e => caselessIsEqual d.name e.name) = 1

/-- One digit of `parse_max_age`, whose value may have wrapped around without getting smaller. -/
def addDigit (val : UInt32) (c : UInt8) : UInt32 :=
  let nv := val * 10 + (c - ch '0').toUInt32
  if nv < val then 0xffffffff else nv

def parseMaxAge (value : LwcString) : Option UInt32 :=
  if value ≠ [] ∧ value.all (fun c => ch '0' ≤ c ∧ c ≤ ch '9') = true then some (value.foldl addDigit 0) else none

/-- `http_strict_transport_security` -/
structure Sts where
  maxAge : UInt32
  includeSubDomains : Bool
deriving DecidableEq

/-- `http_parse_strict_transport_security` -/
def parseStrictTransportSecurity (header : List UInt8) : Option Sts := do
  let (first, s) ← parseDirective (skipLws (cString header))
  let s := skipLws s
  let directives := if byteAt s 0 = ch ';' then itemListParse (ch ';') s.length [first] s else [first]
  if checkDuplicates directives then
    let maxAge ← parseMaxAge (← (← findItem directives (lit "max-age")).value)
    match findItem directives (lit "includesubdomains") with
    | none => return ⟨maxAge, false⟩
    | some d => if d.value.isSome then none else return ⟨maxAge, true⟩
  else none

example : parseStrictTransportSecurity (lit "max-age=\"100\" ; includeSubDomains") = some ⟨100, true⟩ := by decide

end Besra.StrictTransportSecurity
