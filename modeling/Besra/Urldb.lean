import Besra.UrldbTree

/-!
The operations of the URL database of `netsurf/content/urldb.c` on URLs and on
cookies. An operation reads the clock once. `none` stands for a call that does not
return: an assertion fails, `nsurl_create` has no defined behaviour, or the loop of
`urldb_set_cookie` comes back to where it was.
-/
namespace Besra.Urldb
open Lwc NsurlParse CText SetCookie UrldbTree

/-- The database: the hosts, the bits that are set in the Bloom filter, once there is one, and
    `loaded_cookie_file_version`. -/
structure Db where
  hosts : Hosts := {}
  bloom : Option (List Nat) := none
  loadedCookieFileVersion : Int := 0

/-- The index that a hash has in the filter of `BLOOM_SIZE` bytes. -/
def bloomIndex (hash : UInt32) : Nat := hash.toNat % (1024 * 32 * 8)

/-- `nsurl_get` with `NSURL_PATH | NSURL_QUERY`, as a C string. -/
def pathQuery (url : Components) : Option (List UInt8) :=
  match componentsToString url ⟨false, false, false, false, false, true, true, false⟩ with
  | .ok (text, _) => some (cString text)
  | .error _ => none

/-- The host that a URL is filed under. -/
def hostStr (url : Components) : Option (List UInt8) :=
  match url.host with
  | some host => some (cString host)
  | none => if url.scheme = some (lit "file") then some (lit "localhost") else none

/-- The port as an `unsigned int`, 0 where there is none. -/
def portInt (url : Components) : Nat :=
  match url.port with
  | some port => (atoi (cString port) % 2 ^ 32).toNat
  | none => 0

/-- `urldb_add_path` at a host. -/
def addPathAt (hosts : Hosts) (name : HostName) (scheme : LwcString) (port : Nat) (path : List UInt8) (url : Nsurl) :
    Hosts :=
  hosts.modify name (fun h => { h with paths := (addPath scheme port h.paths path url).1 })

/-- `urldb_add_url` -/
def addUrl (db : Db) (url : Nsurl) : Bool × Db :=
  let db := { db with bloom := some (bloomIndex url.hash :: db.bloom.getD []) }
  match pathQuery url.components, url.components.scheme, hostStr url.components with
  | some path, some scheme, some host =>
    let (hosts, name) := addHost db.hosts host
    (true, { db with hosts := addPathAt hosts name scheme (portInt url.components) path url })
  | _, _, _ => (false, db)

/-- A node of the path tree of a host. -/
structure Place where
  host : HostName
  path : List PathKey
deriving DecidableEq

/-- `urldb_find_url`; the port is an `unsigned short` on the way to `urldb_match_path`. -/
def findUrl (db : Db) (url : Nsurl) : Option (Option Place) :=
  if db.bloom.any (fun bits => !bits.contains (bloomIndex url.hash)) then some none
  else if url.components.scheme = some (lit "mailto") then some none
  else
    match url.components.scheme, hostStr url.components with
    | some scheme, some host =>
      match searchFind (db.hosts.search (getSearchTree host)) host with
      | none => some none
      | some name =>
        match db.hosts.get name, pathQuery url.components with
        | some h, some path =>
          if byteAt path 0 ≠ ch '/' then none
          else some ((matchPath scheme (portInt url.components % 2 ^ 16) (segments path) h.paths).map (⟨name, ·⟩))
        | _, _ => some none
    | _, _ => some none

theorem findUrl_hostless {db : Db} {url : Nsurl} (hostless : hostStr url.components = none) :
    findUrl db url = some none := by
  unfold findUrl
  rw [hostless]
  split
  · rfl
  split
  · rfl
  · split
    next impossible => cases impossible
    next => rfl

/-- The end of `urldb_insert_cookie`: a cookie with the domain, the path and the name of the new one is replaced,
    or removed where the new one has expired. -/
def storeCookie (now : Int) (c : Cookie) (cookies : List Cookie) : List Cookie :=
  let same (d : Cookie) : Bool := d.domain = c.domain && d.path = c.path && d.name = c.name
  match cookies.findIdx? same with
  | some i => if c.expires ≠ -1 ∧ c.expires < now then cookies.eraseIdx i else cookies.set i c
  | none => cookies ++ [c]

def cookieHost (hosts : Hosts) (domain : List UInt8) : Hosts × HostName :=
  match searchFind (hosts.search (getSearchTree domain)) domain with
  | some name => (hosts, name)
  | none => addHost hosts domain

/-- `urldb_insert_cookie` for a domain cookie, which hangs at the root of the paths of its host. -/
def insertDomainCookie (now : Int) (hosts : Hosts) (c : Cookie) : Hosts :=
  let (hosts, name) := cookieHost hosts c.domain.tail
  hosts.modify name (fun h => { h with cookies := storeCookie now c h.cookies })

def storeAtPath (now : Int) (c : Cookie) (scheme : LwcString) (url : Nsurl) (paths : Forest PathData) :
    Forest PathData :=
  let (paths, address) := addPath scheme 0 paths c.path url
  paths.update PathData.key (fun p => { p with cookies := storeCookie now c p.cookies }) address

/-- `urldb_insert_cookie` for a cookie of one host. -/
def insertHostCookie (now : Int) (hosts : Hosts) (c : Cookie) (scheme : LwcString) (url : Nsurl) : Hosts :=
  let (hosts, name) := cookieHost hosts c.domain
  hosts.modify name (fun h => { h with paths := storeAtPath now c scheme url h.paths })

/-- `urldb_insert_cookie` -/
def insertCookie (now : Int) (hosts : Hosts) (c : Cookie) (scheme : LwcString) (url : Nsurl) : Hosts :=
  if byteAt c.domain 0 = ch '.' then insertDomainCookie now hosts c else insertHostCookie now hosts c scheme url

def commonEnd (s t : List UInt8) : List UInt8 :=
  ((s.reverse.zip t.reverse).takeWhile (fun (a, b) => a = b)).map Prod.fst |>.reverse

def refererAllowed (host rhost : LwcString) : Bool :=
  if host = rhost then true
  else if hostIsIpAddress (cString host) || hostIsIpAddress (cString rhost) then false
  else
    let rest := (cString (commonEnd host rhost)).dropWhile (· ≠ ch '.')
    let dot := rest.tail.dropWhile (· ≠ ch '.')
    rest ≠ [] && dot ≠ [] && dot.tail ≠ []

def domainAllowed (host : LwcString) (domain : List UInt8) : Bool :=
  if strcasecmp (cString host) domain = .eq then true
  else if hostIsIpAddress (cString host) then false
  else if host.length ≤ domain.length ∧ host.length + 1 ≠ domain.length then false
  else
    let domain := if host.length + 1 = domain.length then domain.tail else domain
    strcasecmp (cString (host.drop (host.length - domain.length))) domain = .eq

/-- "validate cookie"; `path` and `host` are those of the URL. -/
def cookieAllowed (env : Env) (path host : LwcString) (c : Cookie) : Bool :=
  c.path.isPrefixOf path &&
    (env.nspslGetpublicsuffix (if byteAt c.domain 0 = ch '.' then c.domain.tail else c.domain)).isSome &&
    domainAllowed host c.domain

/-- The loop of `urldb_set_cookie` over the cookies of a header. Where an iteration does not move, the next one
    does the same again. -/
def setCookieLoop (env : Env) (now : Int) (url : Nsurl) (scheme path host : LwcString) :
    Nat → Hosts → List UInt8 → Option (Bool × Hosts)
  | 0, _, _ => none
  | fuel + 1, hosts, cur =>
    match parseCookie env now url.components cur with
    | none => some (false, hosts)
    | some (c, cur') =>
      if cookieAllowed env path host c then
        let hosts := insertCookie now hosts c scheme (Nsurl.nsurlDefragment url)
        if cur'.length > 2 then setCookieLoop env now url scheme path host fuel hosts cur' else some (true, hosts)
      else some (false, hosts)

/-- `urldb_set_cookie` -/
def setCookie (env : Env) (now : Int) (db : Db) (header : List UInt8) (url : Nsurl) (referer : Option Nsurl) :
    Option (Bool × Db) :=
  match url.components.scheme, url.components.path, url.components.host with
  | some scheme, some path, some host =>
    if referer.all (fun r => r.components.host.any (refererAllowed host ·)) then do
      let header := cString header
      let (done, hosts) ← setCookieLoop env now url scheme path host (header.length + 1) db.hosts header
      return (done, { db with hosts })
    else some (false, db)
  | _, _, _ => some (false, db)

/-- The macro `FIND_T`: the text before the next tab and that after it. -/
def findT (p : List UInt8) : Option (List UInt8 × List UInt8) :=
  match p.dropWhile (· ≠ 0x09) with
  | [] => none
  | _ :: rest => some (p.takeWhile (· ≠ 0x09), rest)

/-- The macro `SKIP_T` -/
def skipT (p : List UInt8) : Option (List UInt8) :=
  let p := p.dropWhile (· = 0x09)
  if p = [] then none else some p

def textField (p : List UInt8) : Option (List UInt8 × List UInt8) := do findT (← skipT p)

def intField (p : List UInt8) : Option (Int × List UInt8) := do
  let p ← skipT p
  let (_, rest) ← findT p
  return (atoi p, rest)

def intFieldSince (since fileVersion : Int) (p : List UInt8) : Option (Int × List UInt8) :=
  if fileVersion > since then intField p else some (0, p)

def parseLine (fileVersion : Int) (s : List UInt8) : Option (Cookie × List UInt8 × List UInt8) := do
  let (version, p) ← findT s
  let (domain, p) ← textField p
  let (domainSpecified, p) ← intField p
  let (path, p) ← textField p
  let (pathSpecified, p) ← intField p
  let (secure, p) ← intField p
  let (httpOnly, p) ← intFieldSince 101 fileVersion p
  let (expires, p) ← intField p
  let (lastUsed, p) ← intField p
  let (noDestroy, p) ← intField p
  let (name, p) ← textField p
  let (value, p) ← textField p
  let (valueQuoted, p) ← intFieldSince 100 fileVersion p
  let (scheme, p) ← textField p
  let (url, p) ← textField p
  let comment := p.dropWhile (· = 0x09)
  return ({ name, value, valueWasQuoted := valueQuoted ≠ 0, comment := some comment,
            domainFromSet := domainSpecified ≠ 0, domain, pathFromSet := pathSpecified ≠ 0, path, expires, lastUsed,
            secure := secure ≠ 0, httpOnly := httpOnly ≠ 0, version := (atoi version % 2 ^ 32).toNat,
            noDestroy := noDestroy ≠ 0 }, scheme, url)

def minCookieFileVersion : Int := 100

def loadCookie (env : Env) (now : Int) (db : Db) (c : Cookie) (scheme url : List UInt8) : Option (Bool × Db) :=
  if byteAt c.domain 0 = ch '.' then some (true, { db with hosts := insertDomainCookie now db.hosts c })
  else if byteAt scheme 0 = ch 'u' then none
  else
    match nsurlCreate env.idnaEncode env.memory url with
    | .error .undefined => none
    | .error .badUrl => some (false, db)
    | .ok url =>
      some (true, { db with hosts := insertHostCookie now db.hosts c (url.components.scheme.getD []) url })

/-- The body of the loop of `urldb_load_cookies`, with whether the loop goes on. -/
def loadLine (env : Env) (now : Int) (db : Db) (line : List UInt8) : Option (Bool × Db) :=
  let line := cString line
  if line = [] ∨ byteAt line 0 = ch '#' then some (true, db)
  else
    let s := line.dropLast
    if strncasecmp s (lit "Version:") 8 = .eq then
      match findT s >>= fun (_, p) => skipT p with
      | none => some (true, db)
      | some p => some (!(atoi p < minCookieFileVersion), { db with loadedCookieFileVersion := atoi p })
    else if db.loadedCookieFileVersion = 0 then some (true, db)
    else
      match parseLine db.loadedCookieFileVersion s with
      | none => some (true, db)
      | some (c, scheme, url) => loadCookie env now db c scheme url

def loadLines (env : Env) (now : Int) (db : Db) : List (List UInt8) → Option Db
  | [] => some db
  | line :: lines =>
    match loadLine env now db line with
    | none => none
    | some (true, db) => loadLines env now db lines
    | some (false, db) => some db

/-- `urldb_load_cookies` of a file with the given contents. -/
def loadCookies (env : Env) (now : Int) (db : Db) (file : List UInt8) : Option Db :=
  loadLines env now db (fgetsAll (16 * 1024) file.length file)

/-- The buffer of `get_netscape_cookie` and `get_rfc2965_cookie`. -/
structure Buffer where
  alloc : Nat
  text : List UInt8 := []
deriving DecidableEq

def Buffer.used (buf : Buffer) : Nat := buf.text.length + 1

/-- `snprintf` to the end of the buffer; where it fills what is left, the output counts as truncated. Of a text that
    is longer than an `int` can say nothing is said here. -/
def Buffer.append (buf : Buffer) (text : List UInt8) : Option Buffer :=
  if text.length ≥ buf.alloc - buf.used then none else some { buf with text := buf.text ++ text }

def maxLen (used : Nat) (c : Cookie) : Nat :=
  used + 2 + c.name.length + 1 + c.value.length + 2 +
    (if c.pathFromSet then 8 + c.path.length + 2 else 0) + (if c.domainFromSet then 10 + c.domain.length + 2 else 0)

/-- A length as an `int`. -/
def narrow (n : Nat) : Int := (n : Int).bmod (2 ^ 32)

/-- The buffer, grown to the length that a cookie may need, which is an `int`. -/
def Buffer.reserve (buf : Buffer) (c : Cookie) : Buffer :=
  let maxLen := narrow (maxLen buf.used c)
  if maxLen ≥ buf.alloc then { buf with alloc := maxLen.toNat } else buf

def quote (text : List UInt8) : List UInt8 := lit "\"" ++ text ++ lit "\""

def separators : List UInt8 := lit "()<>@,;:\\\"/[]?=\x7b\x7d \t"

/-- `strpbrk` with the separators finds one. -/
def hasSeparator (text : List UInt8) : Bool := text.any (separators.contains ·)

def concatNetscapeCookie (buf : Buffer) (c : Cookie) : Option Buffer := do
  let buf ← (buf.reserve c).append (lit "; " ++ c.name ++ lit "=")
  buf.append (if c.valueWasQuoted then quote c.value else c.value)

def concatRfc2965Cookie (buf : Buffer) (c : Cookie) : Option Buffer := do
  let buf ← (buf.reserve c).append (lit "; " ++ c.name ++ lit "=")
  let buf ← buf.append (if c.valueWasQuoted || hasSeparator c.value then quote c.value else c.value)
  let buf ← if c.pathFromSet then
      buf.append (lit "; $Path=" ++ if hasSeparator c.path then quote c.path else c.path)
    else some buf
  if c.domainFromSet then
    buf.append (lit "; $Domain=" ++ if hasSeparator c.domain then quote c.domain else c.domain)
  else some buf

def getNetscapeCookie (cookies : List Cookie) : Option (List UInt8) := do
  let buf ← cookies.foldlM concatNetscapeCookie { alloc := 4096 }
  if buf.used ≤ 2 then none else some (buf.text.drop 2)

def getRfc2965Cookie (version : Nat) (cookies : List Cookie) : Option (List UInt8) := do
  let buf ← ({ alloc := 4096 } : Buffer).append (lit "$Version=" ++ decimal version)
  let buf ← cookies.foldlM concatRfc2965Cookie buf
  return buf.text

/-- Which of the loops of `urldb_get_cookie` looks at a cookie: that over the nodes of the exact path, over the
    entries of a directory, over the node of a path above, or over the domain cookies. -/
inductive Source where
  | exact
  | directory
  | ancestor
  | domain
deriving DecidableEq

/-- A cookie that `urldb_get_cookie` looks at, with the scheme it compares. -/
structure Visit where
  source : Source
  scheme : LwcString
  cookie : Cookie
deriving DecidableEq

def visits (source : Source) (p : PathData) : List Visit := p.cookies.map (⟨source, p.scheme, ·⟩)

def directoryVisits (children : Forest PathData) : List Visit :=
  ((children.siblings.map Prod.fst).filter (fun q => q.segment = [])).flatMap (visits .directory)

/-- The cookies of the path tree that are looked at for the node that `line` leads to, in that order. -/
def pathVisits (paths : Forest PathData) (line : List (PathData × Forest PathData)) : List Visit :=
  match line.reverse with
  | [] => []
  | (p, _) :: above =>
    let beside := (above.map Prod.snd).headD paths
    (if p.segment ≠ [] then
      ((beside.siblings.map Prod.fst).filter (fun q => q.segment = p.segment)).flatMap (visits .exact)
    else []) ++
      above.flatMap (fun (q, children) => directoryVisits children ++ visits .ancestor q) ++ directoryVisits paths

def domainVisits (scheme : LwcString) (line : List (HostPart × Forest HostPart)) : List Visit :=
  line.reverse.flatMap (fun (h, _) => h.cookies.map (⟨.domain, scheme, ·⟩))

/-- All the cookies that `urldb_get_cookie` looks at for a node. -/
def visited (hosts : Hosts) (place : Place) : List Visit :=
  match hosts.get place.host with
  | none => []
  | some h =>
    let line := h.paths.line PathData.key place.path
    pathVisits h.paths line ++
      line.getLast?.elim [] (fun (p, _) => domainVisits p.scheme (hosts.tree.line HostPart.key place.host.reverse))

/-- The macro `lwc_string_isequal`: its value is `lwc_error_ok`, and the answer goes to where its third argument
    points. -/
def lwcStringIsequal (s t : LwcString) : Nat × Bool := (0, s = t)

def secureWithheld (scheme : LwcString) (c : Cookie) : Bool :=
  let (error, isHttps) := lwcStringIsequal scheme (lit "https")
  c.secure && error ≠ 0 && isHttps = false

def expired (now : Int) (c : Cookie) : Bool := c.expires ≠ -1 && c.expires < now

def pathMatches (path : List UInt8) (c : Cookie) : Bool := strncmp c.path path c.path.length = .eq

def sends (now : Int) (path : List UInt8) (includeHttpOnly : Bool) (v : Visit) : Bool :=
  !expired now v.cookie && !secureWithheld v.scheme v.cookie &&
    match v.source with
    | .exact => !(v.cookie.httpOnly && !includeHttpOnly)
    | .directory => true
    | .ancestor => pathMatches path v.cookie
    | .domain => pathMatches path v.cookie

def touch (now : Int) (sent : Visit → Bool) (source : Source) (p : PathData) : PathData :=
  { p with cookies := p.cookies.map (fun c =>
      if sent ⟨source, p.scheme, c⟩ then { c with lastUsed := now } else c) }

def touchDirectory (now : Int) (sent : Visit → Bool) (q : PathData) : PathData :=
  if q.segment = [] then touch now sent .directory q else q

def touchPaths (now : Int) (sent : Visit → Bool) : List PathKey → Forest PathData → Forest PathData
  | [], paths => paths
  | [k], paths => paths.mapSiblings (fun q =>
      if q.segment = k.2.2 ∧ q.segment ≠ [] then touch now sent .exact q else touchDirectory now sent q)
  | k :: k' :: ks, paths =>
    ((paths.mapSiblings (touchDirectory now sent)).alter PathData.key k (touch now sent .ancestor)).under
      PathData.key k (touchPaths now sent (k' :: ks))

def touchHosts (now : Int) (sent : Visit → Bool) (scheme : LwcString) :
    List (List UInt8) → Forest HostPart → Forest HostPart
  | [], tree => tree
  | k :: ks, tree =>
    (tree.alter HostPart.key k (fun h => { h with cookies := h.cookies.map (fun c =>
      if sent ⟨.domain, scheme, c⟩ then { c with lastUsed := now } else c) })).under
      HostPart.key k (touchHosts now sent scheme ks)

/-- What `urldb_get_cookie` returns, the cookies it put there, and the database after it. -/
structure Answer where
  header : Option (List UInt8) := none
  matched : List Cookie := []
  db : Db

/-- The header for a list of cookies, in the oldest version that one of them asks for. -/
def header (cookies : List Cookie) : Option (List UInt8) :=
  let version := cookies.foldl (fun version c => min version c.version) 2
  if cookies = [] then none
  else if version = 0 then getNetscapeCookie cookies
  else getRfc2965Cookie version cookies

def answerAt (now : Int) (db : Db) (path : LwcString) (includeHttpOnly : Bool) (place : Place) : Answer :=
  let sent := sends now (cString path) includeHttpOnly
  let matched := ((visited db.hosts place).filter sent).map Visit.cookie
  let scheme := (place.path.getLast?.map Prod.fst).getD []
  let hosts := db.hosts.modify place.host (fun h => { h with paths := touchPaths now sent place.path h.paths })
  let hosts := { hosts with tree := touchHosts now sent scheme place.host.reverse hosts.tree }
  { header := header matched, matched, db := { db with hosts } }

/-- `urldb_get_cookie` -/
def getCookie (now : Int) (db : Db) (url : Nsurl) (includeHttpOnly : Bool) : Option Answer :=
  let db := (addUrl db url).2
  (findUrl db url).map (fun found =>
    match found, url.components.path with
    | some place, some path => answerAt now db path includeHttpOnly place
    | _, _ => { db })

/-- Whether a cookie is the one that `urldb_delete_cookie` looks for. -/
def called (domain path name : List UInt8) (c : Cookie) : Bool := c.domain = domain && c.path = path && c.name = name

/-- `urldb_delete_cookie_paths`: the first node of the host that has the cookie loses it. -/
def deleteFrom (p : Cookie → Bool) (h : HostPart) : HostPart :=
  if h.cookies.any p then { h with cookies := h.cookies.eraseP p }
  else
    match (h.paths.entries PathData.key).find? (fun e => e.2.cookies.any p) with
    | some (address, _) =>
      { h with paths := h.paths.update PathData.key (fun q => { q with cookies := q.cookies.eraseP p }) address }
    | none => h

/-- `urldb_delete_cookie`, which goes over all hosts. -/
def deleteCookie (db : Db) (domain path name : List UInt8) : Db :=
  let hosts := (db.hosts.tree.entries HostPart.key).foldl
    (fun hosts e => hosts.modify e.1.reverse (deleteFrom (called domain path name))) db.hosts
  { db with hosts }

inductive Op where
  | setCookie (header : List UInt8) (url : Nsurl) (referer : Option Nsurl)
  | loadCookies (file : List UInt8)
  | addUrl (url : Nsurl)
  | getCookie (url : Nsurl) (includeHttpOnly : Bool)
  | deleteCookie (domain path name : List UInt8)

/-- An operation and the time at which it is called. -/
structure Call where
  now : Int
  op : Op

def step (env : Env) (db : Db) (call : Call) : Option Db :=
  match call.op with
  | .setCookie header url referer => (setCookie env call.now db header url referer).map Prod.snd
  | .loadCookies file => loadCookies env call.now db file
  | .addUrl url => some (addUrl db url).2
  | .getCookie url includeHttpOnly => (getCookie call.now db url includeHttpOnly).map Answer.db
  | .deleteCookie domain path name => some (deleteCookie db domain path name)

/-- The database after a history, if every call of it returns. -/
def run (env : Env) (history : List Call) : Option Db := history.foldlM (step env) {}

/-- An environment in which no name is encoded, no name is a public suffix and no date is understood. -/
def plainEnv : Env where
  idnaEncode := fun _ => none
  memory := fun _ => 0
  nspslGetpublicsuffix := some
  curlGetdate := fun _ => -1

/-- The URL that a text without errors stands for. -/
def urlOf (text : List UInt8) : Nsurl :=
  match nsurlCreate plainEnv.idnaEncode plainEnv.memory text with
  | .ok url => url
  | .error _ => { components := { scheme := none, schemeType := .other }, hash := 0, length := 0, string := [] }

end Besra.Urldb
