import Mathlib
import Besra.Lwc

/-!
URL parsing of `netsurf/utils/nsurl/parse.c`: the markers of a URL string, the
components made from its sections, and the string made from components.

Strings are the bytes before their terminating NUL; a read at their end gives
the NUL. The scratch buffer of `nsurl__create_from_section` is a function from
offsets to bytes, since parts of it are read by the offsets of the string before
normalisation: what the section did not write there is whatever memory holds.
Allocation failures are not modelled.
-/
namespace Besra.NsurlParse
open Lwc List

/-! ### Characters -/

/-- `ascii_is_space` -/
def isSpace (c : UInt8) : Bool :=
  c == ch ' ' || c == 0x09 || c == 0x0a || c == 0x0b || c == 0x0c || c == 0x0d

/-- `ascii_is_alpha_upper` -/
def isAlphaUpper (c : UInt8) : Bool := ch 'A' ≤ c && c ≤ ch 'Z'

/-- `ascii_is_alpha` -/
def isAlpha (c : UInt8) : Bool := (ch 'a' ≤ c && c ≤ ch 'z') || isAlphaUpper c

/-- `ascii_is_digit` -/
def isDigit (c : UInt8) : Bool := ch '0' ≤ c && c ≤ ch '9'

/-- `ascii_is_alphanumerical` -/
def isAlphanumerical (c : UInt8) : Bool := isAlpha c || isDigit c

/-- `ascii_hex_to_value`, without a value where it gives a negative number. -/
def hexToValue (c : UInt8) : Option UInt8 :=
  if isDigit c then some (c - ch '0')
  else if ch 'a' ≤ c && c ≤ ch 'f' then some (c - ch 'a' + 10)
  else if ch 'A' ≤ c && c ≤ ch 'F' then some (c - ch 'A' + 10)
  else none

/-- `ascii_hex_to_value_2_chars` -/
def hexToValue2Chars (c1 c2 : UInt8) : Option UInt8 := do
  let high ← hexToValue c1
  let low ← hexToValue c2
  return 16 * high + low

def digit2uppercaseHex (digit : UInt8) : UInt8 := if digit < 10 then ch '0' + digit else ch 'A' + (digit - 10)

/-- `nsurl__is_unreserved` -/
def isUnreserved (c : UInt8) : Bool :=
  isAlphanumerical c || c == ch '-' || c == ch '.' || c == ch '_' || c == ch '~'

/-- `nsurl__is_no_escape`: the printable ASCII characters but the ones listed. -/
def isNoEscape (c : UInt8) : Bool :=
  0x20 < c && c < 0x7f && !(lit "\"%<>\\^`\x7b\x7d").contains c

/-! ### Markers -/

/-- `nsurl_scheme_type` -/
inductive SchemeType where
  | other
  | http
  | https
  | file
  | ftp
  | mailto
  | data
deriving DecidableEq

/-- The type that `nsurl__get_string_markers` gives to a scheme name. -/
def schemeTypeOf (scheme : LwcString) : SchemeType :=
  if insensitive scheme = lit "http" then .http
  else if insensitive scheme = lit "https" then .https
  else if insensitive scheme = lit "file" then .file
  else if insensitive scheme = lit "ftp" then .ftp
  else if insensitive scheme = lit "mailto" then .mailto
  else if insensitive scheme = lit "data" then .data
  else .other

/-- `url_markers` -/
structure Markers where
  start : Nat
  schemeEnd : Nat
  authority : Nat
  colonFirst : Nat
  atSign : Nat
  colonLast : Nat
  path : Nat
  query : Nat
  fragment : Nat
  stop : Nat
  schemeType : SchemeType
deriving DecidableEq

def byteAt (s : List UInt8) (pos : Nat) : UInt8 := s.getD pos 0

def slice (s : List UInt8) (start stop : Nat) : List UInt8 := (s.take stop).drop start

/-- The first position from `pos` on where the byte fails `p` or the string ends. -/
def skip (p : UInt8 → Bool) (s : List UInt8) (pos : Nat) : Nat := pos + ((s.drop pos).takeWhile p).length

def isSchemeChar (c : UInt8) : Bool := isAlphanumerical c || c == ch '+' || c == ch '-' || c == ch '.'

def Markers.authorityAt (m : Markers) (pos : Nat) : Markers :=
  { m with authority := pos, colonFirst := pos, atSign := pos, colonLast := pos, path := pos }

def getScheme (url : List UInt8) (m : Markers) (joining : Bool) : Nat × Markers × Bool :=
  if isAlpha (byteAt url m.start) then
    let pos := skip isSchemeChar url (m.start + 1)
    if byteAt url pos = ch ':' then
      let schemeType := schemeTypeOf (slice url m.start pos)
      (pos + 1, { m with schemeEnd := pos, schemeType }.authorityAt (pos + 1),
        schemeType = .http || schemeType = .https)
    else if joining then (pos, m, false)
    else (pos, { m with schemeType := .http }, true)
  else (m.start, m, false)

/-- The loop of "Need to get (or complete) the authority", over the string from `pos` on. -/
def authorityLoop (m : Markers) (pos : Nat) : List UInt8 → Nat × Markers
  | [] => (pos, m)
  | c :: rest =>
    if c = ch '/' ∨ c = ch '?' ∨ c = ch '#' then (pos, m)
    else if m.schemeType ≠ .mailto ∧ c = ch ':' ∧ m.colonFirst = m.authority then
      authorityLoop { m with colonFirst := pos } (pos + 1) rest
    else if m.schemeType ≠ .mailto ∧ c = ch ':' ∧ m.colonFirst ≠ m.authority then
      authorityLoop { m with colonLast := pos } (pos + 1) rest
    else if c = ch '@' ∧ m.atSign = m.authority then
      authorityLoop { m with atSign := pos } (pos + 1) rest
    else authorityLoop m (pos + 1) rest

def skipSlashes (url : List UInt8) (pos : Nat) (isHttp : Bool) : Nat :=
  if isHttp then skip (· == ch '/') url pos
  else if byteAt url (pos + 1) = ch '/' then pos + 2
  else pos + 1

def getAuthority (url : List UInt8) (pos : Nat) (m : Markers) (isHttp joining : Bool) : Nat × Markers :=
  if (byteAt url pos = ch '/' ∧ byteAt url (pos + 1) = ch '/') ∨
      (isHttp ∧ ((joining ∧ byteAt url pos = ch '/') ∨ (joining = false ∧ m.schemeEnd ≠ m.start))) ∨
      m.schemeType = .mailto then
    let (pos, m) :=
      if byteAt url pos = ch '/' then
        (skipSlashes url pos isHttp, m.authorityAt (skipSlashes url pos isHttp))
      else (pos, m)
    let (pos, m) := authorityLoop m pos (url.drop pos)
    (pos, { m with path := pos })
  else if (byteAt url pos = 0 ∨ byteAt url pos = ch '/') ∧ joining = false ∧ isHttp = true then
    (pos, { m with path := pos })
  else (pos, m)

/-- "Get path", "Get query" and "Get fragment": the position each of the last two starts at, and the
    position the scan ends at. -/
def getPathQueryFragment (url : List UInt8) (pos : Nat) (m : Markers) : Nat × Markers :=
  let pos :=
    if byteAt url pos = ch '/' ∨ (m.path = m.authority ∧ byteAt url pos ≠ ch '?' ∧
        byteAt url pos ≠ ch '#' ∧ byteAt url pos ≠ 0) then
      skip (fun c => c ≠ ch '?' ∧ c ≠ ch '#') url (pos + 1)
    else pos
  let m := { m with query := pos }
  let pos := if byteAt url pos = ch '?' then skip (· ≠ ch '#') url (pos + 1) else pos
  let m := { m with fragment := pos }
  let pos := if byteAt url pos = ch '#' then skip (fun _ => true) url (pos + 1) else pos
  (pos, m)

def Markers.clamp (m : Markers) : Markers :=
  { m with
    fragment := min m.fragment m.stop
    query := min m.query m.stop
    path := min m.path m.stop
    colonLast := min m.colonLast m.stop
    atSign := min m.atSign m.stop }

def trimTrailing (url : List UInt8) (pos : Nat) (m : Markers) : Markers :=
  let stop := pos - ((url.take pos).reverse.takeWhile isSpace).length
  if stop < pos then { m with stop }.clamp else { m with stop }

/-- `nsurl__get_string_markers` -/
def getStringMarkers (url : List UInt8) (joining : Bool) : Markers :=
  let start := skip isSpace url 0
  let m : Markers :=
    { start, schemeEnd := start, authority := start, colonFirst := start, atSign := start, colonLast := start,
      path := start, query := 0, fragment := 0, stop := 0, schemeType := .other }
  if byteAt url start = 0 then { m with query := start, fragment := start, stop := start }
  else
    let (pos, m, isHttp) := getScheme url m joining
    let (pos, m) := getAuthority url pos m isHttp joining
    let (pos, m) := getPathQueryFragment url pos m
    trimTrailing url pos m

/-- `nsurl__get_longest_section` -/
def getLongestSection (m : Markers) : Nat :=
  max (m.schemeEnd - m.start) (max (m.atSign - m.authority) (max (m.path - m.atSign)
    (max (m.query - m.path) (max (m.fragment - m.query) (m.stop - m.fragment)))))

/-! ### Components from sections -/

/-- `nsurl_components` -/
structure Components where
  scheme : Option LwcString
  username : Option LwcString := none
  password : Option LwcString := none
  host : Option LwcString := none
  port : Option LwcString := none
  path : Option LwcString := none
  query : Option LwcString := none
  fragment : Option LwcString := none
  schemeType : SchemeType
deriving DecidableEq

inductive NsError where
  | badUrl
  /-- The source has no defined behaviour here. -/
  | undefined
deriving DecidableEq

/-- The sections whose characters `nsurl__create_from_section` lowers and always unescapes are the
    scheme and the host. -/
inductive Section where
  | scheme
  | credentials
  | host
  | path
  | query
  | fragment
deriving DecidableEq

def Section.isName : Section → Bool
  | .scheme => true
  | .host => true
  | _ => false

def Section.bounds (url : List UInt8) (pegs : Markers) : Section → Nat × Nat
  | .scheme => (pegs.start, pegs.schemeEnd)
  | .credentials => (pegs.authority, pegs.atSign)
  | .host =>
    (if pegs.atSign = pegs.authority ∧ byteAt url pegs.atSign ≠ ch '@' then pegs.atSign else pegs.atSign + 1,
      pegs.path)
  | .path => (pegs.path, pegs.query)
  | .query => (if byteAt url pegs.query ≠ ch '?' then pegs.query else pegs.query + 1, pegs.fragment)
  | .fragment => (if byteAt url pegs.fragment ≠ ch '#' then pegs.fragment else pegs.fragment + 1, pegs.stop)

def normaliseChar (sec : Section) (c : UInt8) : List UInt8 :=
  if !sec.isName && !isNoEscape c then
    [ch '%', digit2uppercaseHex (c >>> 4), digit2uppercaseHex (c &&& 0xf)]
  else if sec.isName && isAlphaUpper c then [dolower c]
  else [c]

/-- Stage 1 of `nsurl__create_from_section`: "Normalise the required section". -/
def normalise (sec : Section) : List UInt8 → List UInt8
  | c :: a :: b :: rest =>
    if c = ch '%' then
      match hexToValue2Chars a b with
      | none => c :: normalise sec (a :: b :: rest)
      | some value =>
        if !sec.isName && !isUnreserved value then c :: a :: b :: normalise sec rest
        else value :: normalise sec rest
    else normaliseChar sec c ++ normalise sec (a :: b :: rest)
  | c :: rest => normaliseChar sec c ++ normalise sec rest
  | [] => []

/-- The scratch buffer, by the offset from its start. -/
abbrev Memory := Int → UInt8

def Memory.write (memory : Memory) (norm : List UInt8) : Memory := fun i =>
  if 0 ≤ i ∧ i < norm.length then norm.getD i.toNat 0 else if i = norm.length then 0 else memory i

/-- `lwc_intern_string` of a part of the buffer; a negative length is a `size_t` past all memory. -/
def Memory.intern (memory : Memory) (offset length : Int) : Except NsError LwcString :=
  if length < 0 then .error .undefined
  else .ok ((List.range length.toNat).map (fun k => memory (offset + k)))

/-- A difference of offsets as the `size_t` it is computed as. -/
def size (n : Int) : Int := n % 2 ^ 64

/-- Stage 2 for `URL_CREDENTIALS`; `length` is that of the normalised section. -/
def createCredentials (pegs : Markers) (memory : Memory) (length : Nat) (url : Components) :
    Except NsError Components :=
  let url := { url with username := none, password := none }
  if url.schemeType = .file then .ok url
  else if length ≠ 0 ∧ memory 0 ≠ ch ':' then
    if pegs.colonFirst ≠ pegs.authority ∧ pegs.atSign > pegs.colonFirst + 1 then do
      let password ← memory.intern (pegs.colonFirst - pegs.authority + 1) (pegs.atSign - pegs.colonFirst - 1)
      let username ← memory.intern 0 (length - (pegs.atSign - pegs.colonFirst))
      return { url with username := some username, password := some password }
    else if pegs.colonFirst ≠ pegs.authority ∧ pegs.atSign = pegs.colonFirst + 1 then do
      let username ← memory.intern 0 (length - 1)
      return { url with username := some username }
    else do
      let username ← memory.intern 0 length
      return { url with username := some username }
  else .ok url

def portColon (pegs : Markers) : Option Nat :=
  if pegs.atSign < pegs.colonFirst ∧ pegs.colonLast = pegs.authority then some pegs.colonFirst
  else if pegs.colonLast ≠ pegs.authority then some pegs.colonLast
  else none

/-- "Determine whether colon is a port separator": the bytes after offset `from` up to the end of the
    section are digits. -/
def digitsAfter (memory : Memory) (offset length : Int) : Bool :=
  (List.range (length - (offset + 1)).toNat).all (fun k => isDigit (memory (offset + 1 + k)))

/-- The host of a section of which `length` bytes are the host; `idnaEncode` is `idna_encode`. -/
def createHostName (idnaEncode : List UInt8 → Option LwcString) (memory : Memory) (length : Int) :
    Except NsError LwcString := do
  let name ← memory.intern 0 length
  return (idnaEncode name).getD name

def hostAndPort (idnaEncode : List UInt8 → Option LwcString) (pegs : Markers) (memory : Memory) (length : Nat)
    (url : Components) : Except NsError (LwcString × Option LwcString) :=
  match portColon pegs with
  | none => (createHostName idnaEncode memory length).map (·, none)
  | some colon =>
    let offset : Int := colon - pegs.atSign
    if digitsAfter memory offset length then do
      let start : Int := offset + (if pegs.atSign = pegs.authority then 1 else 0)
      let isDefault := url.scheme.isSome && url.schemeType = .http && length - start = 2 &&
        memory start = ch '8' && memory (start + 1) = ch '0'
      let port ← if isDefault ∨ length ≤ size start then pure none
        else some <$> memory.intern start (length - start)
      let host ← createHostName idnaEncode memory (offset - (if pegs.atSign = pegs.authority then 0 else 1))
      return (host, port)
    else (createHostName idnaEncode memory length).map (·, none)

/-- Stage 2 for `URL_HOST` -/
def createHost (idnaEncode : List UInt8 → Option LwcString) (pegs : Markers) (memory : Memory) (length : Nat)
    (url : Components) : Except NsError Components :=
  let url := { url with host := none, port := none }
  if url.schemeType = .file then .ok url
  else if length ≠ 0 then
    (hostAndPort idnaEncode pegs memory length url).map (fun (host, port) =>
      { url with host := some host, port := port })
  else .ok url

/-- Stage 2 for `URL_SCHEME` -/
def createScheme (norm : List UInt8) (url : Components) : Components :=
  { url with scheme := some (if norm = [] then lit "http" else norm) }

/-- Stage 2 for `URL_PATH` -/
def createPath (norm : List UInt8) (url : Components) : Components :=
  if norm ≠ [] then { url with path := some norm }
  else if (url.host.isSome ∧ url.schemeType ≠ .mailto) ∨ url.schemeType = .file then
    { url with path := some (lit "/") }
  else { url with path := none }

def nonEmpty (norm : List UInt8) : Option LwcString := if norm ≠ [] then some norm else none

def normalised (url : List UInt8) (pegs : Markers) (sec : Section) : List UInt8 :=
  let (start, stop) := sec.bounds url pegs
  normalise sec (slice url start stop)

/-- `nsurl__create_from_section` -/
def createFromSection (idnaEncode : List UInt8 → Option LwcString) (urlS : List UInt8) (sec : Section)
    (pegs : Markers) (memory : Memory) (url : Components) : Except NsError (Components × Memory) :=
  let norm := normalised urlS pegs sec
  let memory := memory.write norm
  match sec with
  | .scheme => .ok (createScheme norm url, memory)
  | .credentials => (createCredentials pegs memory norm.length url).map (·, memory)
  | .host => (createHost idnaEncode pegs memory norm.length url).map (·, memory)
  | .path => .ok (createPath norm url, memory)
  | .query => .ok ({ url with query := nonEmpty norm }, memory)
  | .fragment => .ok ({ url with fragment := nonEmpty norm }, memory)

/-! ### String from components -/

/-- `nsurl_component`, as the set of parts it names. -/
structure Parts where
  scheme : Bool
  username : Bool
  password : Bool
  host : Bool
  port : Bool
  path : Bool
  query : Bool
  fragment : Bool
deriving DecidableEq

/-- `NSURL_WITH_FRAGMENT` -/
def withFragment : Parts := ⟨true, true, true, true, true, true, true, true⟩

/-- `parts > NSURL_SCHEME`, the scheme being the lowest bit. -/
def Parts.moreThanScheme (parts : Parts) : Bool :=
  parts.username || parts.password || parts.host || parts.port || parts.path || parts.query || parts.fragment

/-- `nsurl_string_flags` -/
structure StringFlags where
  scheme : Bool
  schemePunctuation : Bool
  authorityPunctuation : Bool
  username : Bool
  password : Bool
  credentialsPunctuation : Bool
  host : Bool
  port : Bool
  path : Bool
  queryPunctuation : Bool
  query : Bool
  fragmentPunctuation : Bool
  fragment : Bool
deriving DecidableEq

/-- The flags that `nsurl__get_string_data` sets. -/
def stringFlags (url : Components) (parts : Parts) : StringFlags :=
  let scheme := url.scheme.isSome && parts.scheme
  let username := url.username.isSome && parts.username
  let password := url.password.isSome && parts.password
  let host := url.host.isSome && parts.host
  let port := url.port.isSome && parts.port
  let path := url.path.isSome && parts.path
  let query := url.query.isSome && parts.query
  let fragment := url.fragment.isSome && parts.fragment
  let schemePunctuation := scheme && parts.moreThanScheme
  let authorityPunctuation := scheme &&
    (schemePunctuation || username || password || host || port || path || query || fragment) &&
    url.path.any (fun p => byteAt p 0 == ch '/')
  let credentialsPunctuation := (username || password) && host
  let beforeQuery := scheme || schemePunctuation || authorityPunctuation || username || password ||
    credentialsPunctuation || host || port || path
  let queryPunctuation := beforeQuery && query
  let fragmentPunctuation := (beforeQuery || queryPunctuation || query) && fragment
  { scheme, schemePunctuation, authorityPunctuation, username, password, credentialsPunctuation, host, port, path,
    queryPunctuation, query, fragmentPunctuation, fragment }

def lengthOf (component : Option LwcString) : Nat := (component.getD []).length

/-- The length that `nsurl__get_string_data` computes. -/
def stringLength (url : Components) (flags : StringFlags) : Nat :=
  (if flags.scheme then lengthOf url.scheme else 0) +
  (if flags.username then lengthOf url.username else 0) +
  (if flags.password then 1 + lengthOf url.password else 0) +
  (if flags.host then lengthOf url.host else 0) +
  (if flags.port then 1 + lengthOf url.port else 0) +
  (if flags.path then lengthOf url.path else 0) +
  (if flags.query then lengthOf url.query else 0) +
  (if flags.fragment then lengthOf url.fragment else 0) +
  (if flags.schemePunctuation then 1 else 0) +
  (if flags.authorityPunctuation then 2 else 0) +
  (if flags.credentialsPunctuation then 1 else 0) +
  (if flags.queryPunctuation then 1 else 0) +
  (if flags.fragmentPunctuation then 1 else 0)

/-- `nsurl__get_string` -/
def getString (url : Components) (flags : StringFlags) : List UInt8 :=
  (if flags.scheme then url.scheme.getD [] else []) ++
  (if flags.schemePunctuation then lit ":" else []) ++
  (if flags.authorityPunctuation then lit "//" else []) ++
  (if flags.username then url.username.getD [] else []) ++
  (if flags.password then lit ":" ++ url.password.getD [] else []) ++
  (if flags.credentialsPunctuation then lit "@" else []) ++
  (if flags.host then url.host.getD [] else []) ++
  (if flags.port then lit ":" ++ url.port.getD [] else []) ++
  (if flags.path then url.path.getD [] else []) ++
  (if flags.query then (if flags.queryPunctuation then lit "?" else []) ++ url.query.getD [] else []) ++
  (if flags.fragment then (if flags.fragmentPunctuation then lit "#" else []) ++ url.fragment.getD [] else [])

/-- `nsurl__components_to_string`: the string and its length. -/
def componentsToString (components : Components) (parts : Parts) : Except NsError (List UInt8 × Nat) :=
  let flags := stringFlags components parts
  let length := stringLength components flags
  if length = 0 then .error .badUrl else .ok (getString components flags, length)

/-! ### URLs -/

/-- `nsurl`, without its reference count. -/
structure Nsurl where
  components : Components
  hash : UInt32
  length : Nat
  string : List UInt8
deriving DecidableEq

/-- `nsurl__calc_hash` -/
def calcHash (c : Components) : UInt32 :=
  [c.scheme, c.username, c.password, c.host, c.port, c.path, c.query].foldl
    (fun hash component => match component with
      | some s => hash ^^^ calculateHash s
      | none => hash) 0

/-- `nsurl__check_host_valid` -/
def checkHostValid (host : LwcString) : Bool :=
  if byteAt host 0 = ch '[' ∧ host.getLast? = some (ch ']') then
    (slice host 1 (host.length - 1)).all (fun c => (hexToValue c).isSome || c == ch ':')
  else host.all (fun c => isAlphanumerical c || c == ch '.' || c == ch '-' || c == ch '_')

/-- The string a C pointer stands for: the bytes before the first NUL. -/
def cString (text : List UInt8) : List UInt8 := text.takeWhile (· ≠ 0)

/-- Whether the offsets of a string fit in the `int` variables that hold them. -/
def fitsInt (n : Nat) : Bool := n < 2 ^ 31

/-- The URL object made from components, as at the end of `nsurl_create` and `nsurl_join`. -/
def finish (c : Components) : Except NsError Nsurl := do
  let (string, length) ← componentsToString c withFragment
  return { components := c, hash := calcHash c, length, string }

def createComponents (idnaEncode : List UInt8 → Option LwcString) (memory : Memory) (urlS : List UInt8)
    (m : Markers) : Except NsError Components := do
  let c : Components := { scheme := none, schemeType := m.schemeType }
  let (c, memory) ← createFromSection idnaEncode urlS .scheme m memory c
  let (c, memory) ← createFromSection idnaEncode urlS .credentials m memory c
  let (c, memory) ← createFromSection idnaEncode urlS .host m memory c
  let (c, memory) ← createFromSection idnaEncode urlS .path m memory c
  let (c, memory) ← createFromSection idnaEncode urlS .query m memory c
  let (c, _) ← createFromSection idnaEncode urlS .fragment m memory c
  return c

def validUrl (c : Components) : Bool :=
  if c.scheme = some (lit "http") ∨ c.scheme = some (lit "https") then c.host.any checkHostValid else true

/-- `nsurl_create`; `memory` is what the scratch buffer holds before it is written. -/
def nsurlCreate (idnaEncode : List UInt8 → Option LwcString) (memory : Memory) (text : List UInt8) :
    Except NsError Nsurl :=
  let urlS := cString text
  if fitsInt urlS.length then do
    let c ← createComponents idnaEncode memory urlS (getStringMarkers urlS false)
    if validUrl c then finish c else .error .badUrl
  else .error .undefined

/-- The loop of `nsurl__remove_dot_segments`; `output` is reversed, its last byte first. -/
def removeDotSegmentsLoop : Nat → List UInt8 → List UInt8 → List UInt8
  | 0, _, output => output
  | fuel + 1, path, output =>
    let copied :=
      let segment := path.take 1 ++ (path.drop 1).takeWhile (· ≠ ch '/')
      removeDotSegmentsLoop fuel (path.drop segment.length) (segment.reverse ++ output)
    if path = [] then output
    else if (lit "../").isPrefixOf path then removeDotSegmentsLoop fuel (path.drop 3) output
    else if (lit "./").isPrefixOf path then removeDotSegmentsLoop fuel (path.drop 2) output
    else if (lit "/./").isPrefixOf path then removeDotSegmentsLoop fuel (path.drop 2) output
    else if path = lit "/." then ch '/' :: output
    else if (lit "/../").isPrefixOf path then
      removeDotSegmentsLoop fuel (path.drop 3) ((output.dropWhile (· ≠ ch '/')).drop 1)
    else if path = lit "/.." then output.dropWhile (· ≠ ch '/')
    else copied

/-- `nsurl__remove_dot_segments`; each round of its loop takes a byte of the path at least. -/
def removeDotSegments (path : List UInt8) : List UInt8 := (removeDotSegmentsLoop path.length path []).reverse

def mergePath (base relative : List UInt8) : List UInt8 :=
  (base.reverse.dropWhile (· ≠ ch '/')).reverse ++ relative

/-- The parts that `nsurl_join` takes from the base. -/
structure BaseParts where
  scheme : Bool
  authority : Bool
  path : Bool
  mergedPath : Bool
  query : Bool
deriving DecidableEq

def joinedParts (rel : List UInt8) (m : Markers) : BaseParts :=
  let scheme : Bool := m.schemeEnd - m.start = 0
  let authority : Bool := scheme && m.path - m.authority = 0
  let path : Bool := authority && m.query - m.path = 0
  let mergedPath : Bool := authority && m.query - m.path ≠ 0 && byteAt rel m.path ≠ ch '/'
  let query : Bool := path && m.fragment - m.query = 0
  { scheme, authority, path, mergedPath, query }

def joinScheme (idnaEncode : List UInt8 → Option LwcString) (memory : Memory) (base : Components) (rel : List UInt8)
    (m : Markers) : Except NsError (Components × Memory) :=
  if (joinedParts rel m).scheme then .ok ({ scheme := base.scheme, schemeType := base.schemeType }, memory)
  else createFromSection idnaEncode rel .scheme m memory { scheme := none, schemeType := m.schemeType }

def joinAuthority (idnaEncode : List UInt8 → Option LwcString) (memory : Memory) (base : Components)
    (rel : List UInt8) (m : Markers) (c : Components) : Except NsError Components :=
  if (joinedParts rel m).authority then
    .ok { c with username := base.username, password := base.password, host := base.host, port := base.port }
  else do
    let (c, memory) ← createFromSection idnaEncode rel .credentials m memory c
    let (c, _) ← createFromSection idnaEncode rel .host m memory c
    return c

/-- The path of a joined URL; the path of a base that has none is read where a relative path is merged
    with it. -/
def joinPath (base : Components) (rel : List UInt8) (m : Markers) (c : Components) : Except NsError Components :=
  let relative := slice rel m.path m.query
  let without (path : List UInt8) := createPath (normalise .path (removeDotSegments path)) c
  if (joinedParts rel m).path then .ok { c with path := base.path }
  else if (joinedParts rel m).mergedPath then
    match base.path with
    | none => .error .undefined
    | some path => .ok (without (mergePath path relative))
  else .ok (without relative)

def nsurlJoin (idnaEncode : List UInt8 → Option LwcString) (memory : Memory) (base : Nsurl) (text : List UInt8) :
    Except NsError Nsurl :=
  let rel := cString text
  let m := getStringMarkers rel true
  if fitsInt rel.length then do
    let (c, memory) ← joinScheme idnaEncode memory base.components rel m
    let c ← joinAuthority idnaEncode memory base.components rel m c
    let c ← joinPath base.components rel m c
    let query := if (joinedParts rel m).query then base.components.query else nonEmpty (normalised rel m .query)
    finish { c with query, fragment := nonEmpty (normalised rel m .fragment) }
  else .error .undefined

/-! ### The string with all parts -/

def queryText : Option LwcString → List UInt8
  | none => []
  | some query => lit "?" ++ query

def fragmentText : Option LwcString → List UInt8
  | none => []
  | some fragment => lit "#" ++ fragment

def authorityText (c : Components) : List UInt8 :=
  (if c.path.any (fun p => byteAt p 0 == ch '/') then lit "//" else []) ++
  c.username.getD [] ++
  (match c.password with
    | none => []
    | some password => lit ":" ++ password) ++
  (if (c.username.isSome || c.password.isSome) && c.host.isSome then lit "@" else []) ++
  c.host.getD [] ++
  (match c.port with
    | none => []
    | some port => lit ":" ++ port)

/-- The string of components that have a scheme. -/
def text (scheme : LwcString) (c : Components) : List UInt8 :=
  scheme ++ lit ":" ++ authorityText c ++ c.path.getD [] ++ queryText c.query ++ fragmentText c.fragment

variable {scheme : LwcString} {length : Nat} {pegs : Markers}

private theorem getString_text {c : Components} (present : c.scheme = some scheme) :
    getString c (stringFlags c withFragment) = text scheme c := by
  have plain (o : Option LwcString) : (if o.isSome then o.getD [] else []) = o.getD [] := by cases o <;> simp
  have password : (if c.password.isSome then lit ":" ++ c.password.getD [] else []) =
      (match c.password with | none => [] | some password => lit ":" ++ password) := by
    cases c.password <;> simp
  have port : (if c.port.isSome then lit ":" ++ c.port.getD [] else []) =
      (match c.port with | none => [] | some port => lit ":" ++ port) := by
    cases c.port <;> simp
  have query : (if c.query.isSome then (if c.query.isSome then lit "?" else []) ++ c.query.getD [] else []) =
      queryText c.query := by
    cases c.query <;> simp [queryText]
  have fragment : (if c.fragment.isSome then (if c.fragment.isSome then lit "#" else []) ++ c.fragment.getD []
      else []) = fragmentText c.fragment := by
    cases c.fragment <;> simp [fragmentText]
  simp only [getString, stringFlags, withFragment, Parts.moreThanScheme, present, Option.isSome_some, Bool.and_true,
    Bool.true_and, Bool.true_or, ↓reduceIte, Option.getD_some, plain, password, port, query, fragment, text,
    authorityText, append_assoc]

private theorem stringLength_getString {c : Components} (present : c.scheme = some scheme) :
    stringLength c (stringFlags c withFragment) = (getString c (stringFlags c withFragment)).length := by
  have one (t : String) (n : Nat) (known : (lit t).length = n) : (lit t).length = n := known
  simp only [stringLength, getString, length_append, apply_ite List.length, length_nil, lengthOf,
    one ":" 1 rfl, one "//" 2 rfl, one "@" 1 rfl, one "?" 1 rfl, one "#" 1 rfl]
  have query : (stringFlags c withFragment).queryPunctuation = (stringFlags c withFragment).query := by
    simp [stringFlags, withFragment, present]
  have fragment : (stringFlags c withFragment).fragmentPunctuation = (stringFlags c withFragment).fragment := by
    simp [stringFlags, withFragment, present]
  have nested (b : Bool) (n : Nat) :
      (if b then (if b then 1 else 0) + n else 0) = (if b then 1 else 0) + (if b then n else 0) := by
    cases b <;> simp
  rw [query, fragment, nested, nested]
  ac_rfl

theorem componentsToString_text {c : Components} (present : c.scheme = some scheme) :
    componentsToString c withFragment = .ok (text scheme c, (text scheme c).length) := by
  have positive : (text scheme c).length ≠ 0 := by simp [text, lit]
  simp only [componentsToString, stringLength_getString present, getString_text present, if_neg positive]

/-! ### The scheme of a parsed string -/

private theorem authorityLoop_scheme (m : Markers) (pos : Nat) (rest : List UInt8) :
    (authorityLoop m pos rest).2.start = m.start ∧ (authorityLoop m pos rest).2.schemeEnd = m.schemeEnd ∧
      (authorityLoop m pos rest).2.schemeType = m.schemeType := by
  induction rest generalizing m pos with
  | nil => exact ⟨rfl, rfl, rfl⟩
  | cons c rest ih =>
    rw [authorityLoop]
    split_ifs
    · exact ⟨rfl, rfl, rfl⟩
    · exact ih { m with colonFirst := pos } (pos + 1)
    · exact ih { m with colonLast := pos } (pos + 1)
    · exact ih { m with atSign := pos } (pos + 1)
    · exact ih m (pos + 1)

theorem getAuthority_scheme (url : List UInt8) (pos : Nat) (m : Markers) (isHttp joining : Bool) :
    (getAuthority url pos m isHttp joining).2.start = m.start ∧
      (getAuthority url pos m isHttp joining).2.schemeEnd = m.schemeEnd ∧
      (getAuthority url pos m isHttp joining).2.schemeType = m.schemeType := by
  unfold getAuthority
  split_ifs
  · exact authorityLoop_scheme (m.authorityAt (skipSlashes url pos isHttp)) _ _
  · exact authorityLoop_scheme m _ _
  · exact ⟨rfl, rfl, rfl⟩
  · exact ⟨rfl, rfl, rfl⟩

private theorem trimTrailing_scheme (url : List UInt8) (pos : Nat) (m : Markers) :
    (trimTrailing url pos m).start = m.start ∧ (trimTrailing url pos m).schemeEnd = m.schemeEnd ∧
      (trimTrailing url pos m).schemeType = m.schemeType := by
  simp only [trimTrailing]
  split_ifs <;> exact ⟨rfl, rfl, rfl⟩

def startMarkers (url : List UInt8) : Markers :=
  let start := skip isSpace url 0
  { start, schemeEnd := start, authority := start, colonFirst := start, atSign := start, colonLast := start,
    path := start, query := 0, fragment := 0, stop := 0, schemeType := .other }

theorem getStringMarkers_scheme {url : List UInt8} (joining : Bool) (more : byteAt url (skip isSpace url 0) ≠ 0) :
    (getStringMarkers url joining).start = (getScheme url (startMarkers url) joining).2.1.start ∧
      (getStringMarkers url joining).schemeEnd = (getScheme url (startMarkers url) joining).2.1.schemeEnd ∧
      (getStringMarkers url joining).schemeType = (getScheme url (startMarkers url) joining).2.1.schemeType := by
  rcases scheme : getScheme url (startMarkers url) joining with ⟨pos, m, isHttp⟩
  have authority := getAuthority_scheme url pos m isHttp joining
  have trim := trimTrailing_scheme url
    (getPathQueryFragment url (getAuthority url pos m isHttp joining).1 (getAuthority url pos m isHttp joining).2).1
    (getPathQueryFragment url (getAuthority url pos m isHttp joining).1 (getAuthority url pos m isHttp joining).2).2
  have markers : getStringMarkers url joining = trimTrailing url
      (getPathQueryFragment url (getAuthority url pos m isHttp joining).1 (getAuthority url pos m isHttp joining).2).1
      (getPathQueryFragment url (getAuthority url pos m isHttp joining).1 (getAuthority url pos m isHttp joining).2).2 := by
    simp only [startMarkers] at scheme
    simp only [getStringMarkers, if_neg more, scheme]
  rw [markers]
  exact ⟨trim.1.trans authority.1, trim.2.1.trans authority.2.1, trim.2.2.trans authority.2.2⟩

private theorem isSchemeChar_ne_percent {c : UInt8} (valid : isSchemeChar c = true) : c ≠ ch '%' := by
  rintro rfl
  revert valid
  decide

private theorem normaliseChar_name {sec : Section} (name : sec.isName = true) (c : UInt8) :
    normaliseChar sec c = [dolower c] := by
  have same : isAlphaUpper c = true ↔ 0x41 ≤ c ∧ c ≤ 0x5a := by
    simp only [isAlphaUpper, Bool.and_eq_true, decide_eq_true_eq]
    rfl
  simp only [normaliseChar, name, Bool.not_true, Bool.false_and, Bool.false_eq_true, ↓reduceIte, Bool.true_and]
  split_ifs with upper
  · rfl
  · rw [dolower, if_neg (fun range => upper (same.mpr range))]

theorem normalise_scheme {s : List UInt8} (valid : ∀ c ∈ s, isSchemeChar c = true) :
    normalise .scheme s = insensitive s := by
  fun_induction normalise .scheme s with
  | case1 a b rest absent ih => exact absurd rfl (isSchemeChar_ne_percent (valid _ (by simp)))
  | case2 a b rest value found keep ih => exact absurd rfl (isSchemeChar_ne_percent (valid _ (by simp)))
  | case3 a b rest value found keep ih => exact absurd rfl (isSchemeChar_ne_percent (valid _ (by simp)))
  | case4 c a b rest other ih =>
    rw [ih (fun x member => valid x (mem_cons_of_mem c member)), normaliseChar_name rfl]
    rfl
  | case5 c rest short ih =>
    rw [ih (fun x member => valid x (mem_cons_of_mem c member)), normaliseChar_name rfl]
    rfl
  | case6 => rfl

theorem schemeTypeOf_insensitive (scheme : LwcString) : schemeTypeOf (insensitive scheme) = schemeTypeOf scheme := by
  simp [schemeTypeOf]

private theorem isSchemeChar_of_isAlpha {c : UInt8} (alpha : isAlpha c = true) : isSchemeChar c = true := by
  simp [isSchemeChar, isAlphanumerical, alpha]

private theorem byteAt_isAlpha {url : List UInt8} {pos : Nat} (alpha : isAlpha (byteAt url pos) = true) :
    ∃ rest, url.drop pos = byteAt url pos :: rest ∧ url.drop (pos + 1) = rest := by
  have inside : pos < url.length := by
    by_contra outside
    have ended : byteAt url pos = 0 := by simp [byteAt, Nat.le_of_not_lt outside]
    rw [ended] at alpha
    revert alpha
    decide
  refine ⟨url.drop (pos + 1), ?_, rfl⟩
  rw [drop_eq_getElem_cons inside, byteAt, getD_eq_getElem?_getD, List.getElem?_eq_getElem inside, Option.getD_some]

private theorem slice_scheme {url : List UInt8} {start : Nat} (alpha : isAlpha (byteAt url start) = true) :
    slice url start (skip isSchemeChar url (start + 1)) =
      byteAt url start :: (url.drop (start + 1)).takeWhile isSchemeChar := by
  obtain ⟨rest, here, behind⟩ := byteAt_isAlpha alpha
  have count : skip isSchemeChar url (start + 1) - start = (rest.takeWhile isSchemeChar).length + 1 := by
    rw [skip, behind]
    omega
  rw [slice, drop_take, count, here, behind, take_succ_cons]
  exact congrArg _ (prefix_iff_eq_take.mp ( takeWhile_prefix isSchemeChar)).symm

theorem getStringMarkers_cases (url : List UInt8) (joining : Bool) :
    ((getStringMarkers url joining).schemeEnd = (getStringMarkers url joining).start ∧
      (getStringMarkers url joining).schemeType =
        if isAlpha (byteAt url (skip isSpace url 0)) ∧ joining = false then .http else .other) ∨
    ((getStringMarkers url joining).start < (getStringMarkers url joining).schemeEnd ∧
      isAlpha (byteAt url (skip isSpace url 0)) = true ∧
      (∀ c ∈ slice url (getStringMarkers url joining).start (getStringMarkers url joining).schemeEnd,
        isSchemeChar c = true) ∧
      slice url (getStringMarkers url joining).start (getStringMarkers url joining).schemeEnd ≠ [] ∧
      (getStringMarkers url joining).schemeType =
        schemeTypeOf (slice url (getStringMarkers url joining).start (getStringMarkers url joining).schemeEnd)) := by
  by_cases more : byteAt url (skip isSpace url 0) = 0
  · left
    have blank : isAlpha 0 = false := by decide
    simp [getStringMarkers, more, blank]
  · obtain ⟨sameStart, sameEnd, sameType⟩ := getStringMarkers_scheme joining more
    rw [sameStart, sameEnd, sameType]
    by_cases alpha : isAlpha (byteAt url (skip isSpace url 0)) = true
    · by_cases colon : byteAt url (skip isSchemeChar url (skip isSpace url 0 + 1)) = ch ':'
      · right
        have name := slice_scheme alpha
        simp only [getScheme, startMarkers, alpha, ↓reduceIte, colon, Markers.authorityAt, name, true_and]
        have after : skip isSpace url 0 < skip isSchemeChar url (skip isSpace url 0 + 1) := by
          exact Nat.lt_of_lt_of_le (Nat.lt_succ_self _) (Nat.le_add_right _ _)
        refine ⟨after, ?_, by simp⟩
        intro c member
        rcases mem_cons.mp member with rfl | member
        · exact isSchemeChar_of_isAlpha alpha
        · exact mem_takeWhile_imp member
      · left
        cases joining <;> simp [getScheme, startMarkers, alpha, colon]
    · left
      simp [getScheme, startMarkers, alpha]

def SchemeRelative (url : List UInt8) : Prop :=
  byteAt url (skip isSpace url 0) = ch '/' ∧ byteAt url (skip isSpace url 0 + 1) = ch '/'

theorem host_empty {url : List UInt8} (alpha : isAlpha (byteAt url (skip isSpace url 0)) = false)
    (slashes : ¬ SchemeRelative url) : normalised url (getStringMarkers url false) .host = [] := by
  have same : (getStringMarkers url false).path = (getStringMarkers url false).atSign := by
    by_cases more : byteAt url (skip isSpace url 0) = 0
    · simp [getStringMarkers, more]
    · have scheme : getScheme url (startMarkers url) false = ((startMarkers url).start, startMarkers url, false) := by
        have letter : isAlpha (byteAt url (startMarkers url).start) = false := alpha
        simp [getScheme, letter]
      have authority : getAuthority url (startMarkers url).start (startMarkers url) false false =
          ((startMarkers url).start, startMarkers url) := by
        have slashes' : ¬ (byteAt url (startMarkers url).start = ch '/' ∧
            byteAt url ((startMarkers url).start + 1) = ch '/') := slashes
        have other : (startMarkers url).schemeType ≠ .mailto := by simp [startMarkers]
        simp [getAuthority, slashes', other]
      simp only [startMarkers] at scheme authority
      simp only [getStringMarkers, if_neg more, scheme, authority, getPathQueryFragment, trimTrailing]
      split_ifs <;> rfl
  have empty (start : Nat) (behind : (getStringMarkers url false).atSign ≤ start) :
      slice url start (getStringMarkers url false).path = [] := by
    rw [slice, same]
    exact drop_eq_nil_of_le ((length_take_le _ url).trans behind)
  simp only [normalised, Section.bounds]
  split_ifs
  · rw [empty _ le_rfl, normalise]
  · rw [empty _ (Nat.le_succ _), normalise]

/-! ### What the other sections leave -/

theorem bind_eq_ok {ε α β : Type} {x : Except ε α} {f : α → Except ε β} {b : β} :
    (x >>= f) = .ok b ↔ ∃ a, x = .ok a ∧ f a = .ok b := by
  cases x <;> simp [bind, Except.bind]

theorem map_eq_ok {ε α β : Type} {x : Except ε α} {f : α → β} {b : β} :
    Except.map f x = .ok b ↔ ∃ a, x = .ok a ∧ f a = b := by
  cases x <;> simp [Except.map]

private theorem createCredentials_keeps {memory : Memory} {url c : Components}
    (created : createCredentials pegs memory length url = .ok c) :
    c.scheme = url.scheme ∧ c.schemeType = url.schemeType := by
  simp only [createCredentials] at created
  split_ifs at created
  · cases created; exact ⟨rfl, rfl⟩
  · obtain ⟨password, _, created⟩ := bind_eq_ok.mp created
    obtain ⟨username, _, created⟩ := bind_eq_ok.mp created
    cases created; exact ⟨rfl, rfl⟩
  · obtain ⟨username, _, created⟩ := bind_eq_ok.mp created
    cases created; exact ⟨rfl, rfl⟩
  · obtain ⟨username, _, created⟩ := bind_eq_ok.mp created
    cases created; exact ⟨rfl, rfl⟩
  · cases created; exact ⟨rfl, rfl⟩

private theorem createHost_keeps {idnaEncode : List UInt8 → Option LwcString} {memory : Memory} {url c : Components}
    (created : createHost idnaEncode pegs memory length url = .ok c) :
    c.scheme = url.scheme ∧ c.schemeType = url.schemeType ∧ (length = 0 → c.host = none) := by
  simp only [createHost] at created
  split_ifs at created with file present
  · cases created; exact ⟨rfl, rfl, fun _ => rfl⟩
  · obtain ⟨⟨host, port⟩, _, created⟩ := map_eq_ok.mp created
    cases created; exact ⟨rfl, rfl, fun empty => absurd empty present⟩
  · cases created; exact ⟨rfl, rfl, fun _ => rfl⟩

private theorem createPath_keeps (norm : List UInt8) (url : Components) :
    (createPath norm url).scheme = url.scheme ∧ (createPath norm url).schemeType = url.schemeType ∧
      (createPath norm url).host = url.host := by
  unfold createPath
  split_ifs <;> exact ⟨rfl, rfl, rfl⟩

section
variable {idnaEncode : List UInt8 → Option LwcString} {urlS : List UInt8} {m : Markers} {memory memory' : Memory}
variable {url c : Components}

private theorem credentials_keeps
    (created : createFromSection idnaEncode urlS .credentials m memory url = .ok (c, memory')) :
    c.scheme = url.scheme ∧ c.schemeType = url.schemeType := by
  obtain ⟨_, made, same⟩ := map_eq_ok.mp created
  cases same
  exact createCredentials_keeps made

private theorem host_keeps (created : createFromSection idnaEncode urlS .host m memory url = .ok (c, memory')) :
    c.scheme = url.scheme ∧ c.schemeType = url.schemeType ∧ (normalised urlS m .host = [] → c.host = none) := by
  obtain ⟨_, made, same⟩ := map_eq_ok.mp created
  cases same
  have kept := createHost_keeps made
  exact ⟨kept.1, kept.2.1, fun empty => kept.2.2 (by rw [empty]; rfl)⟩

theorem createComponents_scheme (created : createComponents idnaEncode memory urlS m = .ok c) :
    c.scheme = some (if normalised urlS m .scheme = [] then lit "http" else normalised urlS m .scheme) ∧
      c.schemeType = m.schemeType ∧ (normalised urlS m .host = [] → c.host = none) := by
  simp only [createComponents] at created
  obtain ⟨⟨c₁, memory₁⟩, scheme, created⟩ := bind_eq_ok.mp created
  obtain ⟨⟨c₂, memory₂⟩, credentials, created⟩ := bind_eq_ok.mp created
  obtain ⟨⟨c₃, memory₃⟩, host, rest⟩ := bind_eq_ok.mp created
  have keepCredentials := credentials_keeps credentials
  have keepHost := host_keeps host
  have keepPath := createPath_keeps (normalised urlS m .path) c₃
  cases scheme
  cases rest
  refine ⟨?_, ?_, fun empty => ?_⟩
  · exact keepPath.1.trans (keepHost.1.trans keepCredentials.1)
  · exact keepPath.2.1.trans (keepHost.2.1.trans keepCredentials.2)
  · exact keepPath.2.2.trans (keepHost.2.2 empty)

theorem joinAuthority_keeps {base : Components} (joined : joinAuthority idnaEncode memory base urlS m url = .ok c) :
    c.scheme = url.scheme ∧ c.schemeType = url.schemeType := by
  unfold joinAuthority at joined
  split_ifs at joined
  · cases joined; exact ⟨rfl, rfl⟩
  · obtain ⟨⟨c₁, memory₁⟩, credentials, joined⟩ := bind_eq_ok.mp joined
    obtain ⟨⟨c₂, memory₂⟩, host, joined⟩ := bind_eq_ok.mp joined
    have keepCredentials := credentials_keeps credentials
    have keepHost := host_keeps host
    cases joined
    exact ⟨keepHost.1.trans keepCredentials.1, keepHost.2.1.trans keepCredentials.2⟩

theorem joinPath_keeps {base : Components} (joined : joinPath base urlS m url = .ok c) :
    c.scheme = url.scheme ∧ c.schemeType = url.schemeType := by
  simp only [joinPath] at joined
  split_ifs at joined
  · cases joined; exact ⟨rfl, rfl⟩
  · cases path : base.path with
    | none => simp [path] at joined
    | some p =>
      simp only [path] at joined
      cases joined
      have kept := createPath_keeps (normalise .path (removeDotSegments (mergePath p (slice urlS m.path m.query)))) url
      exact ⟨kept.1, kept.2.1⟩
  · cases joined
    have kept := createPath_keeps (normalise .path (removeDotSegments (slice urlS m.path m.query))) url
    exact ⟨kept.1, kept.2.1⟩

end

end Besra.NsurlParse
