import Besra.CookieStore
import Besra.HostNames
import Besra.Runs

/-!
Cookies and the hosts they go back to. The invariant is that every stored cookie
comes from an accepted `urldb_set_cookie` and hangs at the host that its domain
names; a request looks at the host of its URL and at the hosts above that one.
`cookies_stay_in_domain` follows for the hosts that the database files as they are:
without a NUL, and plain in the sense of `HostNames`.
-/
namespace Besra.CookieDomains
open Lwc NsurlParse CText SetCookie UrldbTree Urldb CookieStore Option List
open HostNames Runs

/-- The cookies that the loop of `urldb_set_cookie` inserts. -/
def acceptedLoop (env : Env) (now : Int) (url : Nsurl) (path host : LwcString) : Nat → List UInt8 → List Cookie
  | 0, _ => []
  | fuel + 1, cur =>
    match parseCookie env now url.components cur with
    | none => []
    | some (c, cur') =>
      if cookieAllowed env path host c then
        c :: (if cur'.length > 2 then acceptedLoop env now url path host fuel cur' else [])
      else []

/-- The cookies that a call of `urldb_set_cookie` inserts. -/
def accepted (env : Env) (now : Int) (header : List UInt8) (url : Nsurl) (referer : Option Nsurl) : List Cookie :=
  match url.components.scheme, url.components.path, url.components.host with
  | some _, some path, some host =>
    if referer.all (fun r => r.components.host.any (refererAllowed host ·)) then
      acceptedLoop env now url path host ((cString header).length + 1) (cString header)
    else []
  | _, _, _ => []

structure Accepted (env : Env) (host : LwcString) (c : Cookie) : Prop where
  notSuffix : (env.nspslGetpublicsuffix (if byteAt c.domain 0 = ch '.' then c.domain.tail else c.domain)).isSome
  allowed : domainAllowed host c.domain = true
  fromSet : c.domainFromSet = true → byteAt c.domain 0 = ch '.'
  byDefault : c.domainFromSet = false → c.domain = cString host

def Dotted (d : Draft) : Prop := ∀ domain, d.domain = some domain → byteAt domain 0 = ch '.'

variable {now : Int} {env : Env} {s : Scan} {rest cur domain : List UInt8} {c : Cookie} {host path scheme : LwcString}
  {fuel : Nat} {url : Nsurl} {hosts hosts' : Hosts} {db : Db} {call : Call}

theorem dotted_parseAvpair {d : Draft} {n v : List UInt8} {wasQuoted : Bool} (dotted : Dotted d) :
    Dotted (parseAvpair env now d n v wasQuoted) := by
  unfold parseAvpair
  dsimp only
  repeat' split
  all_goals first | exact dotted | skip
  next dot =>
    intro domain same
    cases same
    exact dot

def Step.cookie : Step → Draft
  | .next s => s.cookie
  | .stop s _ => s.cookie

theorem dotted_handle {c : UInt8} (dotted : Dotted s.cookie) : Dotted (Step.cookie (handle s c rest)) := by
  unfold handle accumulate
  repeat' split
  all_goals exact dotted

theorem dotted_scanByte {env : Env} {now : Int} {s : Scan} {before : Option UInt8} {c : UInt8} {rest : List UInt8}
    (dotted : Dotted s.cookie) : Dotted (Step.cookie (scanByte env now s before c rest)) := by
  have ended : ∀ s : Scan, Dotted s.cookie → Dotted (endPair env now s).cookie := fun _ => dotted_parseAvpair
  unfold scanByte
  dsimp only
  split
  · exact dotted
  split
  · exact dotted
  split
  · exact dotted
  split
  all_goals
    split
    · exact dotted
    split
    · exact dotted
    split
    · split
      · exact ended _ dotted
      · exact dotted_handle (ended _ dotted)
    · exact dotted_handle dotted

theorem dotted_scan {before : Option UInt8} {text : List UInt8} (dotted : Dotted s.cookie) :
    Dotted (scan env now s before text).1.cookie := by
  induction text generalizing s before with
  | nil => exact dotted
  | cons c rest ih =>
    have stepped := @dotted_scanByte env now s before c rest dotted
    rw [scan]
    split
    next same =>
      rw [same] at stepped
      exact ih stepped
    next same =>
      rw [same] at stepped
      exact stepped

theorem parseCookie_domain {url : Components} {header : List UInt8}
    (parsed : parseCookie env now url header = some (c, rest)) :
    (c.domainFromSet = true → byteAt c.domain 0 = ch '.') ∧
      (c.domainFromSet = false → ∃ host, url.host = some host ∧ c.domain = cString host) := by
  have dotted : Dotted (parseAvpair env now (scan env now {} none header).1.cookie (scan env now {} none header).1.name
      (scan env now {} none header).1.value (scan env now {} none header).1.wasQuoted) :=
    dotted_parseAvpair (dotted_scan (fun _ impossible => absurd impossible (by simp)))
  unfold parseCookie at parsed
  simp only [bind, bind_eq_some_iff, pure, Option.some.injEq, Prod.mk.injEq] at parsed
  obtain ⟨domain, given, path, -, pair, -, rfl, -⟩ := parsed
  generalize parseAvpair env now (scan env now {} none header).1.cookie (scan env now {} none header).1.name
      (scan env now {} none header).1.value (scan env now {} none header).1.wasQuoted = draft at dotted given
  rcases own : draft.domain with _ | own'
  · rw [own] at given
    obtain ⟨host, same, rfl⟩ := map_eq_some_iff.mp given
    exact ⟨fun impossible => absurd impossible (by simp), fun _ => ⟨host, same, rfl⟩⟩
  · rw [own] at given
    cases given
    exact ⟨fun _ => dotted domain own, fun impossible => absurd impossible (by simp)⟩

theorem accepted_of_parse {url : Components} {header : List UInt8}
    (parsed : parseCookie env now url header = some (c, rest)) (at' : url.host = some host)
    (allowed : cookieAllowed env path host c = true) : Accepted env host c := by
  obtain ⟨fromSet, byDefault⟩ := parseCookie_domain parsed
  simp only [cookieAllowed, Bool.and_eq_true] at allowed
  refine ⟨allowed.1.2, allowed.2, fromSet, ?_⟩
  intro default
  obtain ⟨host', same, domain⟩ := byDefault default
  rw [at', some_inj] at same
  rw [domain, same]

theorem accepted_of_mem (at' : url.components.host = some host)
    (member : c ∈ acceptedLoop env now url path host fuel cur) : Accepted env host c := by
  induction fuel generalizing cur with
  | zero => simp [acceptedLoop] at member
  | succ fuel ih =>
    rw [acceptedLoop] at member
    split at member
    · simp at member
    next d cur' parsed =>
      split at member
      next allowed =>
        rcases mem_cons.mp member with rfl | later
        · exact accepted_of_parse parsed at' allowed
        · split at later
          · exact ih later
          · simp at later
      · simp at member

theorem inetAton_dot (s : List UInt8) : inetAton (ch '.' :: s) = false := by
  have noDigit : isDigit (byteAt (ch '.' :: s) 0) = false := by
    change isDigit (ch '.') = false
    decide
  rw [inetAton, inetAtonParts.eq_def]
  dsimp only
  rw [noDigit, Bool.false_and]

theorem not_ip_of_dot {host : List UInt8} (dot : byteAt host 0 = ch '.') : hostIsIpAddress host = false := by
  rcases host with _ | ⟨c, host⟩
  · rfl
  · have first : c = ch '.' := dot
    subst first
    have sane : (ch '.' :: host).takeWhile (· ≠ ch '/') = ch '.' :: host.takeWhile (· ≠ ch '/') := rfl
    have noBracket : ∀ s, byteAt (ch '.' :: s) 0 ≠ ch '[' := by
      intro s
      change ch '.' ≠ ch '['
      decide
    unfold hostIsIpAddress
    dsimp only
    rw [sane, inetAton_dot]
    simp only [noBracket, Bool.false_eq_true, if_false, decide_false, Bool.and_false, Bool.false_and]

theorem domain_of_dot (dot : byteAt domain 0 = ch '.') : ∃ d, domain = ch '.' :: d := by
  rcases domain with _ | ⟨b, d⟩
  · exact absurd dot (by decide)
  · exact ⟨d, by rw [show b = ch '.' from dot]⟩

theorem cString_eq {s : List UInt8} (noNul : 0 ∉ s) : cString s = s := by
  rw [cString, takeWhile_eq_self_iff]
  intro c member
  simp only [decide_eq_true_eq]
  rintro rfl
  exact noNul member

theorem under_of_allowed {host d : List UInt8} (noNul : 0 ∉ host) (allowed : domainAllowed host (ch '.' :: d) = true) :
    Under d host ∧ hostIsIpAddress host = false := by
  unfold domainAllowed at allowed
  rw [cString_eq noNul] at allowed
  by_cases same : strcasecmp host (ch '.' :: d) = .eq
  · have lowered := strcasecmp_eq_iff.mp same
    refine ⟨.inr (by rw [lowered]; exact suffix_refl _), ?_⟩
    rcases host with _ | ⟨c, host⟩
    · rfl
    · refine not_ip_of_dot (dolower_dot.mp ?_)
      exact (List.cons.inj lowered).1
  · rw [if_neg same] at allowed
    by_cases ip : hostIsIpAddress host = true
    · simp [ip] at allowed
    rw [if_neg ip] at allowed
    refine ⟨?_, by simpa using ip⟩
    split at allowed
    · simp at allowed
    next far =>
      dsimp only at allowed
      have tail : ∀ k, cString (host.drop k) = host.drop k :=
        fun k => cString_eq (fun zero => noNul (mem_of_mem_drop zero))
      rw [tail] at allowed
      have lowered := strcasecmp_eq_iff.mp (of_decide_eq_true allowed)
      split at lowered
      next short =>
        have lengths : host.length = d.length := by
          rw [length_cons] at short
          omega
        rw [tail_cons, lengths, Nat.sub_self, drop_zero] at lowered
        exact .inl lowered
      · right
        refine ⟨insensitive (host.take (host.length - (ch '.' :: d).length)), ?_⟩
        have joined : insensitive (host.take (host.length - (ch '.' :: d).length)) ++
            insensitive (host.drop (host.length - (ch '.' :: d).length)) = insensitive host := by
          rw [insensitive, insensitive, insensitive, ← map_append, take_append_drop]
        rw [← joined, lowered]
        rfl

/-- A cookie with the host that set it. -/
structure Origin where
  host : LwcString
  cookie : Cookie

/-- Where a cookie belongs: at the root of the host its domain names with a dot, or at a path of the host that its
    domain is. -/
def AtHome (name : HostName) (c : Cookie) : Option (List PathKey) → Prop
  | none => byteAt c.domain 0 = ch '.' ∧ name = nameOf c.domain.tail
  | some _ => byteAt c.domain 0 ≠ ch '.' ∧ name = nameOf c.domain

/-- Every stored cookie is at home and comes from one of the origins. -/
structure Placed (origins : List Origin) (hosts : Hosts) : Prop where
  filed : Filed hosts.search
  placed : ∀ name spot c, Stored hosts name spot c →
    AtHome name c spot ∧ ∃ o ∈ origins, Reused o.cookie c

variable {origins : List Origin}

theorem Placed.mono {more : List Origin} (placed : Placed origins hosts) (subset : ∀ o ∈ origins, o ∈ more) :
    Placed more hosts := by
  refine ⟨placed.filed, ?_⟩
  intro name spot c stored
  obtain ⟨home, o, member, used⟩ := placed.placed name spot c stored
  exact ⟨home, o, subset o member, used⟩

theorem AtHome.reused {name : HostName} {d : Cookie} {spot : Option (List PathKey)} (home : AtHome name c spot)
    (used : Reused c d) : AtHome name d spot := by
  obtain ⟨_, rfl⟩ := used
  exact home

theorem Placed.of_stored (placed : Placed origins hosts) (filed : Filed hosts'.search)
    (before : ∀ name spot c, Stored hosts' name spot c → ∃ d, Stored hosts name spot d ∧ Reused d c) :
    Placed origins hosts' := by
  refine ⟨filed, ?_⟩
  intro name spot c stored
  obtain ⟨d, old, used⟩ := before name spot c stored
  obtain ⟨home, o, member, first⟩ := placed.placed name spot d old
  exact ⟨home.reused used, o, member, first.trans used⟩

theorem cookieHost_spec (filed : Filed hosts.search) (plain : Plain domain) :
    (cookieHost hosts domain).2 = nameOf domain ∧ Filed (cookieHost hosts domain).1.search := by
  unfold cookieHost
  split
  next name found => exact ⟨searchFind_eq filed found, filed⟩
  next => exact ⟨addHost_name plain, filed_addHost filed plain⟩

structure Regular (host : LwcString) : Prop where
  noNul : 0 ∉ host
  plain : Plain host

theorem placed_insertCookie (placed : Placed origins hosts) (regular : Regular host) (accepted : Accepted env host c) :
    Placed (origins ++ [⟨host, c⟩]) (insertCookie now hosts c scheme url) := by
  have known : Placed (origins ++ [⟨host, c⟩]) hosts := placed.mono (fun o => mem_append_left _)
  have own : ∃ o ∈ origins ++ [⟨host, c⟩], Reused o.cookie c :=
    ⟨⟨host, c⟩, mem_append_right _ mem_cons_self, reused_refl c⟩
  unfold insertCookie
  split
  next dot =>
    obtain ⟨d, domain⟩ := domain_of_dot dot
    have allowed := accepted.allowed
    rw [domain] at allowed
    obtain ⟨under, name⟩ := under_of_allowed regular.noNul allowed
    have plain : Plain c.domain.tail := by
      rw [domain]
      exact plain_of_under regular.plain name under
    obtain ⟨name, filed⟩ := cookieHost_spec placed.filed plain
    refine ⟨filed, ?_⟩
    intro at' spot c' stored
    rcases stored_insertDomainCookie stored with old | ⟨rfl, rfl, rfl⟩
    · exact known.placed at' spot c' old
    · exact ⟨⟨dot, name⟩, own⟩
  next noDot =>
    have default : c.domain = host := by
      rcases from' : c.domainFromSet
      · rw [accepted.byDefault from', cString_eq regular.noNul]
      · exact absurd (accepted.fromSet from') noDot
    have plain : Plain c.domain := by
      rw [default]
      exact regular.plain
    obtain ⟨name, filed⟩ := cookieHost_spec placed.filed plain
    refine ⟨filed, ?_⟩
    intro at' spot c' stored
    rcases stored_insertHostCookie stored with old | ⟨rfl, rfl, rfl⟩
    · exact known.placed at' spot c' old
    · exact ⟨⟨noDot, name⟩, own⟩

theorem placed_setCookieLoop {done : Bool} (placed : Placed origins hosts) (regular : Regular host)
    (at' : url.components.host = some host)
    (ran : setCookieLoop env now url scheme path host fuel hosts cur = some (done, hosts')) :
    Placed (origins ++ (acceptedLoop env now url path host fuel cur).map (⟨host, ·⟩)) hosts' := by
  induction fuel generalizing cur hosts origins with
  | zero => simp [setCookieLoop] at ran
  | succ fuel ih =>
    rw [setCookieLoop] at ran
    rw [acceptedLoop]
    rcases parsed : parseCookie env now url.components cur with _ | ⟨c, cur'⟩
    · rw [parsed] at ran
      cases ran
      simpa using placed
    · rw [parsed] at ran
      dsimp only at ran ⊢
      by_cases allowed : cookieAllowed env path host c = true
      · have inserted : Placed _ (insertCookie now hosts c scheme (Nsurl.nsurlDefragment url)) :=
          placed_insertCookie placed regular (accepted_of_parse parsed at' allowed)
        rw [if_pos allowed] at ran
        rw [if_pos allowed, map_cons, append_cons]
        split at ran
        next more =>
          rw [if_pos more]
          exact ih inserted ran
        next last =>
          cases ran
          rw [if_neg last]
          simpa using inserted
      · rw [if_neg allowed] at ran
        rw [if_neg allowed]
        cases ran
        simpa using placed

/-- The host of a URL; a file URL without one is on localhost. -/
def urlHost (url : Components) : Option LwcString :=
  url.host <|> if url.scheme = some (lit "file") then some (lit "localhost") else none

/-- The URLs that a history of cookie and URL operations is about have regular hosts. -/
def RegularUrl (url : Nsurl) : Prop := ∀ host, urlHost url.components = some host → Regular host

/-- The calls without `urldb_load_cookies`, with URLs of regular hosts. -/
def Fit : Op → Prop
  | .setCookie _ url _ => RegularUrl url
  | .loadCookies _ => False
  | .addUrl url => RegularUrl url
  | .getCookie url _ => RegularUrl url
  | .deleteCookie _ _ _ => True

def originsOf (env : Env) (call : Call) : List Origin :=
  match call.op with
  | .setCookie header url referer =>
    (accepted env call.now header url referer).map (⟨url.components.host.getD [], ·⟩)
  | _ => []

theorem hostStr_eq (regular : RegularUrl url) : hostStr url.components = urlHost url.components := by
  unfold hostStr
  rw [urlHost]
  rcases same : url.components.host with _ | host
  · rfl
  · have noNul := (regular host (by rw [urlHost, same]; rfl)).noNul
    dsimp only
    rw [cString_eq noNul]
    rfl

theorem filed_addUrl (filed : Filed db.hosts.search) (regular : RegularUrl url) :
    Filed (addUrl db url).2.hosts.search := by
  unfold addUrl
  dsimp only
  split
  next host _ _ there =>
    rw [hostStr_eq regular] at there
    exact filed_addHost filed (regular host there).plain
  next => exact filed

theorem placed_step {db' : Db} (placed : Placed origins db.hosts) (fit : Fit call.op)
    (stepped : step env db call = some db') : Placed (origins ++ originsOf env call) db'.hosts := by
  unfold step at stepped
  unfold originsOf
  rcases same : call.op with ⟨header, url, referer⟩ | file | url | ⟨url, includeHttpOnly⟩ | ⟨domain, path, name⟩
  · rw [same] at stepped fit
    dsimp only at stepped ⊢
    obtain ⟨⟨done, db''⟩, set, rfl⟩ := map_eq_some_iff.mp stepped
    unfold setCookie at set
    split at set
    next scheme path host scheme' path' host' =>
      have regular : Regular host := fit host (by rw [urlHost, host']; rfl)
      unfold accepted
      rw [scheme', path', host']
      dsimp only
      split at set
      next allowed =>
        obtain ⟨⟨done', hosts⟩, looped, rest⟩ := bind_eq_some_iff.mp set
        cases rest
        rw [if_pos allowed]
        exact placed_setCookieLoop placed regular host' looped
      next refused =>
        cases set
        rw [if_neg refused]
        simpa using placed
    next other =>
      cases set
      have nothing : accepted env call.now header url referer = [] := by
        unfold accepted
        split
        next scheme path host scheme' path' host' => exact (other _ _ _ scheme' path' host').elim
        next => rfl
      rw [nothing]
      simpa using placed
  · rw [same] at fit
    exact fit.elim
  · rw [same] at stepped fit
    cases stepped
    rw [append_nil]
    exact placed.of_stored (filed_addUrl placed.filed fit) (fun name spot c stored =>
      ⟨c, stored_addUrl stored, reused_refl c⟩)
  · rw [same] at stepped fit
    obtain ⟨answer, asked, rfl⟩ := map_eq_some_iff.mp stepped
    rw [append_nil]
    refine placed.of_stored ?_ (fun name spot c stored => stored_getCookie asked stored)
    rw [getCookie] at asked
    obtain ⟨found, -, rfl⟩ := map_eq_some_iff.mp asked
    have filed := filed_addUrl placed.filed fit
    split <;> exact filed
  · rw [same] at stepped
    cases stepped
    rw [append_nil]
    exact deleteCookie_induct (fun _ _ _ placed => placed.of_stored placed.filed
      (fun _ _ c stored => ⟨c, stored_deleteFrom stored, reused_refl c⟩)) placed

theorem placed_empty : Placed [] {} := by
  refine ⟨filed_empty, ?_⟩
  rintro name spot c ⟨h, member, -⟩
  simp [Forest.entries] at member

theorem placed_run {history : List Call} (fit : ∀ call ∈ history, Fit call.op) (ran : run env history = some db) :
    Placed (history.flatMap (originsOf env)) db.hosts := by
  refine run_keeps (I := fun calls (db : Db) => Placed (calls.flatMap (originsOf env)) db.hosts) ran placed_empty ?_
  intro before call after split mid s' _ placed stepped
  rw [flatMap_append, flatMap_singleton]
  exact placed_step placed (fit call (by simp [split])) stepped

theorem findUrl_host {place : Place} (filed : Filed db.hosts.search) (found : findUrl db url = some (some place)) :
    ∃ host, hostStr url.components = some host ∧ place.host = nameOf host := by
  unfold findUrl at found
  split at found
  · simp at found
  split at found
  · simp at found
  split at found
  next scheme host _ there =>
    refine ⟨host, there, ?_⟩
    split at found
    · simp at found
    next name sought =>
      split at found
      next =>
        split at found
        · simp at found
        · rw [some_inj, map_eq_some_iff] at found
          obtain ⟨path, -, rfl⟩ := found
          exact searchFind_eq filed sought
      next => simp at found
  next => simp at found

/-- A cookie that `setter` set may be sent to `host`: it has no domain of its own and the hosts are the same, or
    both lie under its domain, which is no public suffix. The cookies of an IP address go to that address. -/
structure Belongs (env : Env) (setter host : LwcString) (c : Cookie) : Prop where
  domain : (c.domainFromSet = false ∧ insensitive setter = insensitive host) ∨
    ∃ d, c.domain = ch '.' :: d ∧ Under d setter ∧ Under d host ∧ (env.nspslGetpublicsuffix d).isSome
  address : hostIsIpAddress setter = true → insensitive setter = insensitive host

theorem belongs_of_stored {setter : LwcString} (accepted : Accepted env setter c) (noNul : 0 ∉ setter)
    (home : (∃ address, AtHome (nameOf host) c (some address)) ∨ ∃ name, name <:+ nameOf host ∧ AtHome name c none) :
    Belongs env setter host c := by
  rcases home with ⟨-, noDot, same⟩ | ⟨name, ends, dot, rfl⟩
  · have own : c.domainFromSet = false := by
      by_contra fromSet
      exact noDot (accepted.fromSet (by simpa using fromSet))
    rw [accepted.byDefault own, cString_eq noNul] at same
    have equal := (insensitive_of_nameOf same).symm
    exact ⟨.inl ⟨own, equal⟩, fun _ => equal⟩
  · obtain ⟨d, domain⟩ : ∃ d, c.domain = ch '.' :: d := by
      rcases same : c.domain with _ | ⟨b, d⟩
      · rw [same] at dot
        exact absurd dot (by decide)
      · rw [same] at dot
        exact ⟨d, by rw [show b = ch '.' from dot]⟩
    have allowed := accepted.allowed
    have notSuffix := accepted.notSuffix
    rw [if_pos dot, domain, tail_cons] at notSuffix
    rw [domain] at allowed ends
    obtain ⟨under, name⟩ := under_of_allowed noNul allowed
    refine ⟨.inr ⟨d, domain, under, under_of_suffix ends, notSuffix⟩, ?_⟩
    intro ip
    rw [name] at ip
    cases ip

theorem mem_originsOf {o : Origin} (member : o ∈ originsOf env call) :
    ∃ header s referer, call.op = .setCookie header s referer ∧ s.components.host = some o.host ∧
      o.cookie ∈ accepted env call.now header s referer ∧ Accepted env o.host o.cookie := by
  unfold originsOf at member
  split at member
  next header s referer same =>
    obtain ⟨d, set, rfl⟩ := List.mem_map.mp member
    refine ⟨header, s, referer, same, ?_⟩
    have again := set
    unfold accepted at again
    split at again
    next scheme path setter scheme' path' setter' =>
      split at again
      next allowed =>
        rw [setter']
        exact ⟨rfl, set, accepted_of_mem setter' again⟩
      next => simp at again
    next => simp at again
  next => simp at member

/-- In every history whose URLs have regular hosts, every cookie sent with a request was set by a call for a URL whose
    host lets it go there. -/
theorem cookies_stay_in_domain (env : Env) (history : List Call) (fit : ∀ call ∈ history, Fit call.op) (db : Db)
    (ran : run env history = some db) (now : Int) (url : Nsurl) (regular : RegularUrl url) (includeHttpOnly : Bool)
    (answer : Answer) (asked : getCookie now db url includeHttpOnly = some answer) (c : Cookie)
    (sent : c ∈ answer.matched) :
    ∃ host, urlHost url.components = some host ∧
      ∃ call ∈ history, ∃ header s referer setter d, call.op = .setCookie header s referer ∧
        s.components.host = some setter ∧ d ∈ accepted env call.now header s referer ∧ Reused d c ∧
          Belongs env setter host c := by
  have placed := placed_run fit ran
  have filed := filed_addUrl placed.filed regular
  obtain ⟨place, found, v, looked, rfl⟩ := visited_of_matched asked sent
  obtain ⟨host, there, name⟩ := findUrl_host filed found
  rw [hostStr_eq regular] at there
  -- wherever the cookie hangs, the invariant gives its origin and that it is at home there
  have home : ∃ o ∈ history.flatMap (originsOf env), Reused o.cookie v.cookie ∧
      ((∃ address, AtHome (nameOf host) v.cookie (some address)) ∨
        ∃ name, name <:+ nameOf host ∧ AtHome name v.cookie none) := by
    rcases mem_visited looked with ⟨address, stored⟩ | ⟨above, ends, stored⟩
    · obtain ⟨home, o, member, used⟩ := placed.placed _ _ _ (stored_addUrl stored)
      rw [name] at home
      exact ⟨o, member, used, .inl ⟨address, home⟩⟩
    · obtain ⟨home, o, member, used⟩ := placed.placed _ _ _ (stored_addUrl stored)
      rw [name] at ends
      exact ⟨o, member, used, .inr ⟨above, ends, home⟩⟩
  obtain ⟨o, member, used, home⟩ := home
  obtain ⟨call, called, origin⟩ := mem_flatMap.mp member
  obtain ⟨header, s, referer, same, setter, set, good⟩ := mem_originsOf origin
  refine ⟨host, there, call, called, header, s, referer, o.host, o.cookie, same, setter, set, used, ?_⟩
  have accepted : Accepted env o.host v.cookie := by
    obtain ⟨_, again⟩ := used
    rw [again]
    exact ⟨good.notSuffix, good.allowed, good.fromSet, good.byDefault⟩
  have fits := fit call called
  rw [same] at fits
  have regularSetter := fits o.host (by rw [urlHost, setter]; rfl)
  exact belongs_of_stored accepted regularSetter.noNul home

/-- A call that sets one cookie for a domain. -/
def domainCall : Call :=
  ⟨0, .setCookie (lit "n=v; Domain=.example.org; Path=/\x0d\x0a") (urlOf (lit "http://www.example.org/")) none⟩

/-- The cookie of `.example.org` that `www.example.org` set goes to `example.org`. -/
theorem cookies_stay_in_example_org :
    ∃ db answer c, run plainEnv [domainCall] = some db ∧
      getCookie 0 db (urlOf (lit "http://example.org/")) true = some answer ∧ c ∈ answer.matched ∧
      ∃ host, urlHost (urlOf (lit "http://example.org/")).components = some host ∧
        ∃ call ∈ [domainCall], ∃ header s referer setter d, call.op = .setCookie header s referer ∧
          s.components.host = some setter ∧ d ∈ accepted plainEnv call.now header s referer ∧ Reused d c ∧
            Belongs plainEnv setter host c := by
  have returns : ((run plainEnv [domainCall]).bind (fun db =>
      (getCookie 0 db (urlOf (lit "http://example.org/")) true).map (fun answer => answer.matched.length))) = some 1 := by
    decide +kernel
  obtain ⟨db, ran, returns⟩ := bind_eq_some_iff.mp returns
  obtain ⟨answer, asked, one⟩ := map_eq_some_iff.mp returns
  obtain ⟨c, only⟩ := length_eq_one_iff.mp one
  have sent : c ∈ answer.matched := by simp [only]
  have setter : RegularUrl (urlOf (lit "http://www.example.org/")) := by
    intro host same
    rw [show urlHost (urlOf (lit "http://www.example.org/")).components = some (lit "www.example.org") by decide +kernel,
      some_inj] at same
    rw [← same]
    exact ⟨by decide +kernel, fun _ => ⟨by decide +kernel, by decide +kernel⟩⟩
  have regular : RegularUrl (urlOf (lit "http://example.org/")) := by
    intro host same
    rw [show urlHost (urlOf (lit "http://example.org/")).components = some (lit "example.org") by decide +kernel,
      some_inj] at same
    rw [← same]
    exact ⟨by decide +kernel, fun _ => ⟨by decide +kernel, by decide +kernel⟩⟩
  refine ⟨db, answer, c, ran, asked, sent, cookies_stay_in_domain plainEnv _ ?_ db ran 0 _ regular true answer asked c sent⟩
  intro call member
  rw [mem_singleton.mp member]
  exact setter

/-- What `nspsl_getpublicsuffix` gives where all public suffixes are single labels: the last two labels. -/
def registrable (host : List UInt8) : Option (List UInt8) :=
  match (host.splitOn (ch '.')).reverse with
  | suffix :: label :: _ => some (label ++ ch '.' :: suffix)
  | _ => none

/-- The URL of a host of 252 bytes `a`, a dot and a suffix. -/
def longUrl (suffix : LwcString) : Nsurl :=
  let host := List.replicate 252 (ch 'a') ++ ch '.' :: suffix
  let c : Components := { scheme := some (lit "http"), host := some host, path := some (lit "/"), schemeType := .http }
  { components := c, hash := calcHash c, length := host.length + 8, string := lit "http://" ++ host ++ lit "/" }

/-- The cookie of a host of 256 bytes goes to the host of its first 255 bytes. -/
theorem cookie_crosses_at_255 :
    nsurlCreate plainEnv.idnaEncode plainEnv.memory (longUrl (lit "org")).string = .ok (longUrl (lit "org")) ∧
      urlHost (longUrl (lit "org")).components ≠ urlHost (longUrl (lit "or")).components ∧
      ((run { plainEnv with nspslGetpublicsuffix := registrable }
          [⟨0, .setCookie (lit "n=v\x0d\x0a") (longUrl (lit "org")) none⟩]).bind (fun db =>
        getCookie 0 db (longUrl (lit "or")) true)).any (fun answer =>
          answer.header = some (lit "n=v") && answer.matched.all (fun c => c.domainFromSet = false)) = true := by
  decide +kernel

end Besra.CookieDomains
