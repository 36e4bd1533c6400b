import Besra.CText

/-!
Cookies and the parser of the `Set-Cookie` header, from `netsurf/content/urldb.c`.
A header is the bytes before its NUL; the read position is the part of it that is
left, together with the byte before it.
-/
namespace Besra.SetCookie
open Lwc NsurlParse CText

/-- What the code takes from outside the repository: the IDNA encoder and the memory of `nsurl_create`, the
    public suffix list, and the date parser of libcurl. -/
structure Env where
  idnaEncode : List UInt8 → Option LwcString
  memory : Memory
  nspslGetpublicsuffix : List UInt8 → Option (List UInt8)
  curlGetdate : List UInt8 → Int

/-- `cookie_internal_data`; the version is an unsigned enumeration. -/
structure Cookie where
  name : List UInt8
  value : List UInt8
  valueWasQuoted : Bool
  comment : Option (List UInt8)
  domainFromSet : Bool
  domain : List UInt8
  pathFromSet : Bool
  path : List UInt8
  expires : Int
  lastUsed : Int
  secure : Bool
  httpOnly : Bool
  version : Nat
  noDestroy : Bool
deriving DecidableEq

/-- The cookie that `urldb_parse_cookie` fills in; the name comes with its value and whether that was quoted. -/
structure Draft where
  pair : Option (List UInt8 × List UInt8 × Bool) := none
  comment : Option (List UInt8) := none
  domain : Option (List UInt8) := none
  path : Option (List UInt8) := none
  expires : Int := -1
  secure : Bool := false
  httpOnly : Bool := false
  version : Nat := 0
deriving DecidableEq

def isBlank (c : UInt8) : Bool := c == ch ' ' || c == 0x09

/-- "Strip whitespace from end", from the byte at `vlen` down. -/
def stripEnd (s : List UInt8) : Nat → List UInt8
  | 0 => s
  | vlen + 1 => if isBlank (byteAt s (vlen + 1)) then stripEnd (s.take (vlen + 1)) vlen else s

/-- `nsc_strntimet` -/
def strntimet (env : Env) (str : List UInt8) : Option Int :=
  if env.curlGetdate str = -1 then none else some (env.curlGetdate str)

/-- `urldb_parse_avpair` -/
def parseAvpair (env : Env) (now : Int) (c : Draft) (n v : List UInt8) (wasQuoted : Bool) : Draft :=
  let n := n.dropWhile isBlank
  let n := stripEnd n n.length
  let v := v.dropWhile isBlank
  let v := stripEnd v v.length
  if c.comment = none ∧ strcasecmp n (lit "Comment") = .eq then { c with comment := some v }
  else if c.domain = none ∧ strcasecmp n (lit "Domain") = .eq then
    if byteAt v 0 = ch '.' then { c with domain := some v } else c
  else if strcasecmp n (lit "Max-Age") = .eq then
    { c with expires := if atoi v = 0 then 0 else now + atoi v }
  else if c.path = none ∧ strcasecmp n (lit "Path") = .eq then { c with path := some v }
  else if strcasecmp n (lit "Version") = .eq then { c with version := (atoi v % 2 ^ 32).toNat }
  else if strcasecmp n (lit "Expires") = .eq then
    { c with expires := (strntimet env (v.dropWhile (!isDigit ·))).getD 0x7fffffff }
  else if strcasecmp n (lit "Secure") = .eq then { c with secure := true }
  else if strcasecmp n (lit "HttpOnly") = .eq then { c with httpOnly := true }
  else if c.pair = none then { c with pair := some (n, v, wasQuoted) }
  else c

/-- The variables of the loop of `urldb_parse_cookie`. -/
structure Scan where
  name : List UInt8 := []
  value : List UInt8 := []
  inValue : Bool := false
  hadValueData : Bool := false
  valueVerbatim : Bool := false
  quoted : Bool := false
  wasQuoted : Bool := false
  cookie : Draft := {}
deriving DecidableEq

/-- Whether a comma ends the cookie: there is an equals sign before the next semicolon. Without one the search
    stops two bytes before the end, and a comma at the end is taken to end the cookie. -/
def commaEnds (rest : List UInt8) : Bool :=
  if ch ';' ∈ rest then (rest.takeWhile (· ≠ ch ';')).contains (ch '=')
  else rest.length < 2 || (rest.take (rest.length - 2)).contains (ch '=')

def accumulate (s : Scan) (c : UInt8) : Scan :=
  if s.inValue then { s with value := if s.value.length < 4095 then s.value ++ [c] else s.value }
  else { s with name := if s.name.length < 1023 then s.name ++ [c] else s.name }

/-- What becomes of a byte: the loop goes on behind it, or ends with the read position somewhere. -/
inductive Step where
  | next (s : Scan)
  | stop (s : Scan) (cur : List UInt8)

def handle (s : Scan) (c : UInt8) (rest : List UInt8) : Step :=
  if !s.quoted && !s.inValue && c == ch '=' then .next { s with inValue := true }
  else if !s.quoted && c == ch ',' && commaEnds rest then .stop s rest
  else .next (accumulate s c)

def endPair (env : Env) (now : Int) (s : Scan) : Scan :=
  { quoted := s.quoted, cookie := parseAvpair env now s.cookie s.name s.value s.wasQuoted }

/-- The body of the loop of `urldb_parse_cookie`, for the byte `c` with `before` in front of it. -/
def scanByte (env : Env) (now : Int) (s : Scan) (before : Option UInt8) (c : UInt8) (rest : List UInt8) : Step :=
  if c = 0x0d ∧ rest.head? = some 0x0a then
    .stop { s with value := if s.quoted then [] else s.value } (c :: rest)
  else if c = 0x0d ∨ c = 0x0a then .next s
  else if s.inValue ∧ s.hadValueData = false ∧ isBlank c then .next s
  else
    let s :=
      if s.inValue ∧ s.hadValueData = false then
        { s with hadValueData := true, valueVerbatim := s.valueVerbatim || c != ch '"' }
      else s
    if s.inValue ∧ s.valueVerbatim = false ∧ c = ch '"' ∧ before ≠ some (ch '\\') then
      .next { s with wasQuoted := s.quoted, quoted := !s.quoted }
    else if s.quoted = false ∧ s.inValue = false ∧ c = ch '=' then .next { s with inValue := true }
    else if s.quoted = false ∧ (s.wasQuoted ∨ c = ch ';') then
      -- a byte other than the semicolon is processed again
      if c = ch ';' then .next (endPair env now s) else handle (endPair env now s) c rest
    else handle s c rest

/-- The loop of `urldb_parse_cookie`. -/
def scan (env : Env) (now : Int) (s : Scan) (before : Option UInt8) : List UInt8 → Scan × List UInt8
  | [] => (s, [])
  | c :: rest =>
    match scanByte env now s before c rest with
    | .next s => scan env now s (some c) rest
    | .stop s cur => (s, cur)

def directory (path : List UInt8) : List UInt8 :=
  let upTo := (path.reverse.dropWhile (· ≠ ch '/')).reverse
  if upTo = [] then path else if upTo.length = 1 then upTo else upTo.dropLast

/-- `urldb_parse_cookie`: the cookie and the position after it. A cookie without a name, which
    `urldb_set_cookie` refuses, is none here. -/
def parseCookie (env : Env) (now : Int) (url : Components) (header : List UInt8) : Option (Cookie × List UInt8) := do
  let (s, cur) := scan env now {} none header
  let c := parseAvpair env now s.cookie s.name s.value s.wasQuoted
  let domain ← c.domain <|> url.host.map cString
  let path ← c.path <|> url.path.map (fun path => directory (cString path))
  let (name, value, valueWasQuoted) ← c.pair
  return ({ name, value, valueWasQuoted, comment := c.comment, domainFromSet := c.domain.isSome, domain,
            pathFromSet := c.path.isSome, path, expires := c.expires, lastUsed := 0, secure := c.secure,
            httpOnly := c.httpOnly, version := c.version, noDestroy := false }, cur)

end Besra.SetCookie
