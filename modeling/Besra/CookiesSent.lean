import Besra.CookieJar
import Besra.CookieFlags

/-!
Which of the stored cookies go with a request. They should be the unexpired ones whose domain, path and Secure flag
fit (`applies`), each of them once.
-/
namespace Besra.CookiesSent
open Lwc NsurlParse CText SetCookie UrldbTree Urldb CookieStore List
open CookieFlags HostNames CookieDomains UrldbFind UrldbRun CookieJar

/-- What `urldb_get_cookie` reads of a URL. -/
structure Request where
  scheme : LwcString
  host : List UInt8
  port : Nat
  path : List UInt8
  query : Option (List UInt8)
deriving DecidableEq

def requestOf (url : Components) : Option Request := do
  let scheme ← url.scheme
  let host ← hostStr url
  let path ← url.path
  return { scheme, host, port := portInt url, path, query := url.query }

def domainMatches (host : List UInt8) (c : Cookie) : Bool :=
  if byteAt c.domain 0 = ch '.' then
    insensitive c.domain.tail = insensitive host ||
      (!hostIsIpAddress host && (insensitive c.domain).isSuffixOf (insensitive host))
  else insensitive c.domain = insensitive host

def onPath (path cookiePath : List UInt8) : Bool :=
  cookiePath = path ||
    (cookiePath.isPrefixOf path && (cookiePath.getLast? = some (ch '/') || path[cookiePath.length]? = some (ch '/')))

def applies (now : Int) (r : Request) (c : Cookie) : Bool :=
  !expired now c && domainMatches r.host c && onPath r.path c.path && (!c.secure || r.scheme = lit "https")

/-- A request that the database can file under its host and its path. -/
structure Askable (r : Request) : Prop where
  notMailto : r.scheme ≠ lit "mailto"
  plain : Plain r.host
  absolute : byteAt r.path 0 = ch '/'
  noNul : 0 ∉ r.path ++ queryText r.query
  portFits : r.port < 2 ^ 16

def isDirectory (path : List UInt8) : Prop := path = [] ∨ path.getLast? = some (ch '/')

instance {path : List UInt8} : Decidable (isDirectory path) := inferInstanceAs (Decidable (_ ∨ _))

/-- The path of a cookie that was filed under a scheme is found once if the request is on it. In the tree of the
    request, a directory is found twice where an empty segment comes next, and the path itself is not found with a
    query. From elsewhere only the first level is seen. -/
def PathClear (r : Request) (scheme : LwcString) (path : List UInt8) : Prop :=
  (path = [] ∨ byteAt path 0 = ch '/') ∧ ch '?' ∉ path ∧
    if scheme = r.scheme ∧ r.port = 0 then
      (isDirectory path → ¬ ch '/' :: path.tail ++ [ch '/'] <+: r.path) ∧
        (¬ isDirectory path → path = r.path → r.query = none)
    else onPath r.path path = true →
      path.tail = [] ∨ (path = r.path ∧ r.query = none ∧ ch '/' ∉ path.tail)

/-- The path of a domain cookie comes before that of a request at a slash only, and the domain of a cookie is that
    of a name. -/
def DomainClear (r : Request) (c : Cookie) : Prop :=
  (c.path <+: r.path → onPath r.path c.path = true) ∧
    (hostIsIpAddress c.domain.tail = true → domainMatches r.host c = true →
      insensitive c.domain.tail = insensitive r.host)

def Item.filedUnder (i : Item) : Option LwcString := i.spot.bind (fun address => address.head?.map Prod.fst)

/-- A stored cookie about which the code decides as it should for a request. -/
def Clear (now : Int) (r : Request) (i : Item) : Prop :=
  expired now i.cookie = false → domainMatches r.host i.cookie = true →
    (match Item.filedUnder i with
      | some scheme => PathClear r scheme i.cookie.path
      | none => DomainClear r i.cookie) ∧
    (i.cookie.secure = true → onPath r.path i.cookie.path = true → r.scheme = lit "https")

variable {t s path cookiePath : List UInt8} {port : Nat} {ss ts : List (List UInt8)} {scheme : LwcString}
  {query : Option (List UInt8)} {r : Request} {c : Cookie} {url : Nsurl}

theorem splitOn_injective (same : s.splitOn (ch '/') = t.splitOn (ch '/')) : s = t := by
  have joined := congrArg [ch '/'].intercalate same
  rwa [intercalate_splitOn, intercalate_splitOn] at joined

theorem intercalate_append' {as bs : List (List UInt8)} (first : as ≠ []) (second : bs ≠ []) :
    [ch '/'].intercalate (as ++ bs) = [ch '/'].intercalate as ++ ch '/' :: [ch '/'].intercalate bs := by
  induction as with
  | nil => exact absurd rfl first
  | cons a as ih =>
    rw [cons_append, intercalate_cons_of_ne_nil (by simp [second])]
    rcases as with _ | ⟨b, as⟩
    · simp [List.intercalate]
    · have more : b :: as ≠ [] := by simp
      rw [ih more, intercalate_cons_of_ne_nil more, append_assoc, append_assoc, append_assoc]

theorem splitOn_before : s.splitOn (ch '/') <+: (t.splitOn (ch '/')).dropLast ↔ s ++ [ch '/'] <+: t := by
  constructor
  · rintro ⟨rest, same⟩
    have whole := dropLast_append_getLast (splitOn_ne_nil (ch '/') t)
    rw [← same, append_assoc] at whole
    have joined := congrArg [ch '/'].intercalate whole
    rw [intercalate_splitOn, intercalate_append' (splitOn_ne_nil _ _) (by simp),
      intercalate_splitOn, ← singleton_append, ← append_assoc] at joined
    exact ⟨_, joined⟩
  · rintro ⟨rest, rfl⟩
    rw [append_assoc, singleton_append, splitOn_append_cons_self, dropLast_append_of_ne_nil (splitOn_ne_nil _ _)]
    exact prefix_append _ _

theorem getLast_splitOn : (s.splitOn (ch '/')).getLast? = some [] ↔ isDirectory s := by
  constructor
  · intro last
    obtain ⟨front, whole⟩ := List.getLast?_eq_some_iff.mp last
    have joined := congrArg [ch '/'].intercalate whole
    rw [intercalate_splitOn] at joined
    rcases front with _ | ⟨a, front⟩
    · left
      rw [joined]
      simp [List.intercalate]
    · right
      rw [joined, intercalate_append' (by simp) (by simp)]
      simp [List.intercalate]
  · rintro (rfl | slash)
    · rfl
    · obtain ⟨front, rfl⟩ := List.getLast?_eq_some_iff.mp slash
      rw [splitOn_append_cons_self, splitOn_nil]
      simp

theorem splitOn_directory (directory : isDirectory s) :
    (s.splitOn (ch '/')).dropLast <+: (t.splitOn (ch '/')).dropLast ↔ s <+: t := by
  rcases directory with rfl | slash
  · simp [splitOn_nil]
  · obtain ⟨front, rfl⟩ := List.getLast?_eq_some_iff.mp slash
    rw [splitOn_append_cons_self, splitOn_nil, dropLast_concat, splitOn_before]

theorem sources_same (place : ss ≠ []) (address : ts ≠ []) :
    sources (pathKeys scheme port ss) (pathKeys scheme port ts) =
      (if ss = ts ∧ ss.getLast? ≠ some [] then [.exact] else []) ++ (if ts <+: ss.dropLast then [.ancestor] else []) ++
        if ts.getLast? = some [] ∧ ts.dropLast <+: ss.dropLast then [.directory] else [] := by
  induction ss generalizing ts with
  | nil => exact absurd rfl place
  | cons s ss ih =>
    rcases ts with _ | ⟨t, ts⟩
    · exact absurd rfl address
    rcases ss with _ | ⟨s', ss⟩ <;> rcases ts with _ | ⟨t', ts⟩
    · simp only [pathKeys, map_cons, map_nil, sources]
      by_cases same : t = s
      · subst same
        by_cases empty : t = [] <;> simp [empty]
      · simp [same, Ne.symm same]
    · simp [pathKeys, sources]
    · simp only [pathKeys, map_cons, map_nil, sources]
      by_cases same : t = s <;> simp [same]
    · have deeper := @ih (t' :: ts) (by simp) (by simp)
      simp only [pathKeys, map_cons, sources] at deeper ⊢
      by_cases same : t = s
      · subst same
        rw [if_pos rfl, deeper]
        simp
      · rw [if_neg (by simpa using same)]
        simp [same, Ne.symm same]

theorem sources_apart {scheme' : LwcString} {port' : Nat} (place : ss ≠ [])
    (apart : ¬ (scheme' = scheme ∧ port' = port)) :
    sources (pathKeys scheme port ss) (pathKeys scheme' port' ts) =
      (if ss = ts ∧ ss.length = 1 ∧ ss ≠ [[]] then [.exact] else []) ++ if ts = [[]] then [.directory] else [] := by
  rcases ss with _ | ⟨s, _ | ⟨s', ss⟩⟩
  · exact absurd rfl place
  all_goals rcases ts with _ | ⟨t, _ | ⟨t', ts⟩⟩
  · simp [pathKeys, sources]
  · simp only [pathKeys, map_cons, map_nil, sources]
    by_cases same : t = s
    · subst same
      by_cases empty : t = [] <;> simp [empty]
    · simp [same, Ne.symm same]
  · simp [pathKeys, sources]
  · simp [pathKeys, sources]
  · simp only [pathKeys, map_cons, map_nil, sources, Prod.mk.injEq]
    simp only [← and_assoc, apart, false_and, if_false]
    simp
  · simp only [pathKeys, map_cons, sources, Prod.mk.injEq]
    simp only [← and_assoc, apart, false_and, if_false]
    simp

theorem before_query (plain : ch '?' ∉ s) : s <+: path ++ queryText query ↔ s <+: path := by
  refine ⟨fun start => ?_, fun start => start.trans (prefix_append _ _)⟩
  rcases prefix_or_prefix_of_prefix start (prefix_append path (queryText query)) with inside | ⟨more, rfl⟩
  · exact inside
  · rw [prefix_append_right_inj] at start
    rcases more with _ | ⟨c, more⟩
    · rw [append_nil]
    · rcases query with _ | query
      · simp [queryText] at start
      · have first : c = ch '?' := (cons_prefix_cons.mp start).1
        exact absurd (by simp [first]) plain

theorem eq_with_query (plain : ch '?' ∉ s) : s = path ++ queryText query ↔ s = path ∧ query = none := by
  rcases query with _ | query
  · simp [queryText]
  · simp only [reduceCtorEq, and_false, iff_false]
    rintro rfl
    exact plain (mem_append_right _ mem_cons_self)

theorem onPath_file (file : ¬ isDirectory cookiePath) :
    onPath path cookiePath = true ↔ cookiePath = path ∨ cookiePath ++ [ch '/'] <+: path := by
  have noSlash : cookiePath.getLast? ≠ some (ch '/') := fun slash => file (.inr slash)
  simp only [onPath, noSlash, decide_false, Bool.false_or, Bool.or_eq_true, decide_eq_true_eq, Bool.and_eq_true,
    isPrefixOf_iff_prefix]
  refine or_congr_right ⟨?_, ?_⟩
  · rintro ⟨⟨rest, rfl⟩, next⟩
    rw [List.getElem?_append_right (Nat.le_refl _), Nat.sub_self] at next
    rcases rest with _ | ⟨c, rest⟩
    · cases next
    · cases next
      exact ⟨rest, by simp⟩
  · rintro ⟨rest, rfl⟩
    simp

theorem onPath_directory (directory : isDirectory cookiePath) (absolute : byteAt path 0 = ch '/') :
    onPath path cookiePath = true ↔ cookiePath <+: path := by
  simp only [onPath, Bool.or_eq_true, decide_eq_true_eq, Bool.and_eq_true, isPrefixOf_iff_prefix]
  constructor
  · rintro (rfl | ⟨start, -⟩)
    · exact prefix_refl _
    · exact start
  · intro start
    refine .inr ⟨start, ?_⟩
    rcases directory with rfl | slash
    · right
      rcases path with _ | ⟨c, path⟩
      · exact absurd absolute (by decide)
      · exact congrArg some absolute
    · exact .inl slash

theorem prefix_of_onPath (on : onPath path cookiePath = true) : cookiePath <+: path := by
  simp only [onPath, Bool.or_eq_true, decide_eq_true_eq, Bool.and_eq_true, isPrefixOf_iff_prefix] at on
  rcases on with rfl | ⟨start, -⟩
  · exact prefix_refl _
  · exact start

theorem segments_absolute (absolute : path = [] ∨ byteAt path 0 = ch '/') :
    segments path = path.tail.splitOn (ch '/') := by
  unfold segments
  rcases absolute with rfl | slash
  · rfl
  · rw [if_pos slash]

theorem isDirectory_tail (absolute : path = [] ∨ byteAt path 0 = ch '/') :
    isDirectory path.tail ↔ isDirectory path := by
  rcases absolute with rfl | slash
  · rfl
  · rcases path with _ | ⟨c, path⟩
    · rfl
    · have first : c = ch '/' := slash
      subst first
      rcases path with _ | ⟨d, path⟩
      · simp [isDirectory]
      · simp [isDirectory, List.getLast?_cons_cons]

/-- Under the condition, the node of a cookie is looked at once if its path applies, and else not at all. -/
theorem sources_clear (absolute : byteAt r.path 0 = ch '/') (clear : PathClear r scheme path) :
    ∃ source, sources (pathKeys r.scheme r.port (segments (r.path ++ queryText r.query)))
      (pathKeys scheme 0 (segments path)) = if onPath r.path path = true then [source] else [] := by
  obtain ⟨from', plain, seen⟩ := clear
  obtain ⟨p, start⟩ : ∃ p, r.path = ch '/' :: p := by
    rcases whole : r.path with _ | ⟨c, p⟩
    · rw [whole] at absolute
      exact absurd absolute (by decide)
    · rw [whole] at absolute
      exact ⟨p, by rw [show c = ch '/' from absolute]⟩
  have tailPlain : ch '?' ∉ path.tail := fun inside => plain (mem_of_mem_tail inside)
  have wider : ch '?' ∉ path.tail ++ [ch '/'] := by
    rw [mem_append, not_or, mem_singleton]
    exact ⟨tailPlain, by decide⟩
  have requested : segments (r.path ++ queryText r.query) = (p ++ queryText r.query).splitOn (ch '/') := by
    rw [segments_absolute (by right; rw [start]; rfl), start]
    rfl
  rw [requested, segments_absolute from']
  have nonempty : ∀ s : List UInt8, s.splitOn (ch '/') ≠ [] := fun s => splitOn_ne_nil _ _
  have equal : (p ++ queryText r.query).splitOn (ch '/') = path.tail.splitOn (ch '/') ↔
      path.tail = p ∧ r.query = none := by
    rw [← eq_with_query tailPlain]
    exact ⟨fun same => (splitOn_injective same).symm, fun same => by rw [same]⟩
  by_cases own : scheme = r.scheme ∧ r.port = 0
  · rw [if_pos own] at seen
    obtain ⟨rfl, zero⟩ := own
    rw [zero, sources_same (nonempty _) (nonempty _)]
    simp only [splitOn_before, before_query wider, getLast_splitOn, ne_eq]
    by_cases directory : isDirectory path
    · have tailDirectory := (isDirectory_tail from').mpr directory
      refine ⟨.directory, ?_⟩
      have notExact : ¬ ((p ++ queryText r.query).splitOn (ch '/') = path.tail.splitOn (ch '/') ∧
          ¬ isDirectory (p ++ queryText r.query)) := by
        rintro ⟨same, last⟩
        rw [← splitOn_injective same.symm] at last
        exact last tailDirectory
      have notAbove : ¬ path.tail ++ [ch '/'] <+: p := by
        intro above
        have empty := seen.1 directory
        rw [start] at empty
        exact empty (cons_prefix_cons.mpr ⟨rfl, above⟩)
      have inside : path.tail <+: p ↔ onPath r.path path = true := by
        rw [onPath_directory directory absolute, start]
        rcases from' with rfl | slash
        · simp
        · rcases path with _ | ⟨c, path⟩
          · simp
          · rw [show c = ch '/' from slash, tail_cons, cons_prefix_cons]
            simp
      rw [if_neg notExact, if_neg notAbove, nil_append, nil_append]
      simp only [tailDirectory, true_and, splitOn_directory tailDirectory, before_query tailPlain, inside]
    · have tailFile : ¬ isDirectory path.tail := fun tail => directory ((isDirectory_tail from').mp tail)
      have absolutePath : path = ch '/' :: path.tail := by
        rcases from' with rfl | slash
        · exact absurd (.inl rfl) directory
        · rcases path with _ | ⟨c, path⟩
          · exact absurd (.inl rfl) directory
          · rw [show c = ch '/' from slash, tail_cons]
      have on : onPath r.path path = true ↔ path.tail = p ∨ path.tail ++ [ch '/'] <+: p := by
        rw [onPath_file directory, start, absolutePath, tail_cons, cons_append, cons_prefix_cons]
        simp
      simp only [tailFile, false_and, if_false, append_nil]
      by_cases whole : path.tail = p
      · -- the path itself: the request has no query
        have query := seen.2 directory (by rw [start, ← whole, ← absolutePath])
        refine ⟨.exact, ?_⟩
        have notAbove : ¬ path.tail ++ [ch '/'] <+: p := by
          intro above
          have long := above.length_le
          rw [whole, length_append] at long
          simp at long
        rw [if_pos, if_neg notAbove, if_pos (on.mpr (.inl whole)), append_nil]
        refine ⟨equal.mpr ⟨whole, query⟩, ?_⟩
        rw [← splitOn_injective (equal.mpr ⟨whole, query⟩).symm]
        exact tailFile
      · refine ⟨.ancestor, ?_⟩
        rw [if_neg (fun both => whole (equal.mp both.1).1), nil_append]
        simp only [on, whole, false_or]
  · rw [if_neg own] at seen
    have apart : ¬ (scheme = r.scheme ∧ 0 = r.port) := fun both => own ⟨both.1, both.2.symm⟩
    rw [sources_apart (nonempty _) apart]
    by_cases top : path.tail = []
    · refine ⟨.directory, ?_⟩
      have on : onPath r.path path = true := by
        rw [onPath_directory ((isDirectory_tail from').mp (.inl top)) absolute, start]
        rcases path with _ | ⟨c, path⟩
        · exact nil_prefix
        · rcases from' with impossible | slash
          · cases impossible
          · rw [show c = ch '/' from slash, show path = [] from top, cons_prefix_cons]
            exact ⟨rfl, nil_prefix⟩
      rw [top, splitOn_nil, if_pos rfl, if_pos on, if_neg]
      · rfl
      · rintro ⟨same, -, other⟩
        exact other same
    · refine ⟨.exact, ?_⟩
      have notTop : path.tail.splitOn (ch '/') ≠ [[]] := fun same => top (splitOn_injective same)
      rw [if_neg notTop, append_nil]
      congr 1
      rw [eq_iff_iff]
      constructor
      · rintro ⟨same, -, -⟩
        obtain ⟨whole, -⟩ := equal.mp same
        have absolutePath : path = r.path := by
          rcases path with _ | ⟨c, path⟩
          · exact absurd rfl top
          · rcases from' with impossible | slash
            · cases impossible
            · rw [start, show c = ch '/' from slash, ← whole, tail_cons]
        simp [onPath, absolutePath]
      · intro on
        rcases seen on with empty | ⟨same, query, single⟩
        · exact absurd empty top
        · have whole : path.tail = p := by rw [same, start, tail_cons]
          rw [equal.mpr ⟨whole, query⟩, splitOn_eq_singleton single]
          exact ⟨rfl, rfl, by simpa using top⟩

theorem suffix_iff_domainMatches (dot : byteAt c.domain 0 = ch '.')
    (address : hostIsIpAddress c.domain.tail = true → domainMatches r.host c = true → insensitive c.domain.tail = insensitive r.host) :
    nameOf c.domain.tail <:+ nameOf r.host ↔ domainMatches r.host c = true := by
  obtain ⟨d, domain⟩ := domain_of_dot dot
  have lowered : insensitive c.domain = ch '.' :: insensitive d := by
    rw [domain]
    rfl
  have means : domainMatches r.host c = true ↔ insensitive d = insensitive r.host ∨
      (hostIsIpAddress r.host = false ∧ ch '.' :: insensitive d <:+ insensitive r.host) := by
    rw [domainMatches, if_pos dot, lowered, domain, tail_cons]
    simp
  rw [domain, tail_cons] at address ⊢
  rw [means] at address ⊢
  constructor
  · intro ends
    rcases under_of_suffix ends with same | below
    · exact .inl same.symm
    · by_cases ip : hostIsIpAddress r.host = true
      · left
        -- the name of an IP address has one part
        obtain ⟨before, same⟩ := ends
        have whole : nameOf d = nameOf r.host := by
          rcases before with _ | ⟨a, before⟩
          · exact same
          · have lengths := congrArg List.length same
            have one : (nameOf r.host).length = 1 := by simp [nameOf, ip]
            rw [one, length_append, length_cons] at lengths
            exact absurd (length_eq_zero_iff.mp (by omega)) (nameOf_ne_nil d)
        exact insensitive_of_nameOf whole
      · exact .inr ⟨by simpa using ip, below⟩
  · rintro (same | ⟨name, below⟩)
    · rw [nameOf_congr same]
    · by_cases ip : hostIsIpAddress d = true
      · rw [nameOf_congr (address ip (.inr ⟨name, below⟩))]
      · obtain ⟨before, same⟩ := below
        unfold nameOf
        rw [name, if_neg ip, if_neg (by simp), ← parts_insensitive, ← parts_insensitive, ← same, parts, parts,
          splitOn_append_cons_self]
        exact suffix_append _ _

theorem pathMatches_iff : pathMatches path c = true ↔ c.path <+: path := by
  rw [pathMatches, decide_eq_true_eq, strncmp_eq_iff]

theorem fileable_of_request (request : requestOf url.components = some r) (askable : Askable r) :
    Fileable url r.scheme r.host (r.path ++ queryText r.query) ∧
      url.components.path = some r.path ∧ portInt url.components = r.port := by
  obtain ⟨scheme, scheme', request⟩ := Option.bind_eq_some_iff.mp request
  obtain ⟨host, host', request⟩ := Option.bind_eq_some_iff.mp request
  obtain ⟨path, path', request⟩ := Option.bind_eq_some_iff.mp request
  cases request
  obtain ⟨notMailto, plain, absolute, noNul, portFits⟩ := askable
  dsimp only at notMailto plain absolute noNul portFits ⊢
  have nonempty : path ≠ [] := by
    rintro rfl
    exact absurd absolute (by decide)
  refine ⟨⟨scheme', notMailto, host', plain, ?_, ?_, portFits⟩, path', rfl⟩
  · have text : getString url.components
        (stringFlags url.components ⟨false, false, false, false, false, true, true, false⟩) =
          path ++ queryText url.components.query := by
      rcases query : url.components.query with _ | query' <;>
        simp [getString, stringFlags, path', query, queryText, Parts.moreThanScheme]
    have length : stringLength url.components
        (stringFlags url.components ⟨false, false, false, false, false, true, true, false⟩) ≠ 0 := by
      simp [stringLength, stringFlags, lengthOf, path', nonempty]
    unfold pathQuery componentsToString
    dsimp only
    rw [if_neg length, text]
    dsimp only
    rw [cString_eq noNul]
  · rcases path with _ | ⟨c, path⟩
    · exact absurd rfl nonempty
    · exact absolute

theorem homed_addUrl {db : Db} {scheme host : List UInt8} (homed : Homed db.hosts)
    (fileable : Fileable url scheme host path) : Homed (addUrl db url).2.hosts := by
  rw [hosts_addUrl fileable]
  exact homed_kept.addPathAt (homed_kept.addHost homed fileable.plain)

theorem taken_sources {now : Int} {filed : LwcString} (absolute : byteAt r.path 0 = ch '/')
    (live : expired now c = false) (clear : PathClear r filed c.path) :
    taken (sends now r.path true) ((sources (pathKeys r.scheme r.port (segments (r.path ++ queryText r.query)))
      (pathKeys filed 0 (segments c.path))).map (⟨·, scheme, c⟩)) = if onPath r.path c.path = true then [c] else [] := by
  obtain ⟨source, looked⟩ := sources_clear absolute clear
  rw [looked]
  split
  next on =>
    have sent : sends now r.path true ⟨source, scheme, c⟩ = true := by
      have start := pathMatches_iff.mpr (prefix_of_onPath on)
      rcases source <;> simp [sends, live, secureWithheld_eq_false, start]
    simp [taken, sent]
  next => rfl

/-- After every history of regular calls, a request whose host the database can file sends exactly the stored cookies
    that apply, each of them once, if the stored cookies are clear. -/
theorem applicable_cookies_sent_once (env : Env) (history : List Call) (regular : ∀ call ∈ history, RegularOp call.op)
    (db : Db) (ran : run env history = some db) (now : Int) (url : Nsurl)
    (askable : (hostStr url.components).isSome → ∃ r, requestOf url.components = some r ∧ Askable r)
    (clear : ∀ r, requestOf url.components = some r → ∀ i ∈ jar db.hosts, Clear now r i) :
    ∃ answer, getCookie now db url true = some answer ∧ answer.matched.Perm
      (((jar db.hosts).map Item.cookie).filter (fun c => (requestOf url.components).any (applies now · c))) := by
  have homed : Homed db.hosts := kept_run homed_kept homed_empty regular ran
  rcases there : hostStr url.components with _ | host
  · have nothing : requestOf url.components = none := by
      simp [requestOf, there]
    refine ⟨{ db := (addUrl db url).2 }, ?_, ?_⟩
    · rw [getCookie, findUrl_hostless there]
      rfl
    · rw [nothing]
      simp
  obtain ⟨r, request, askable⟩ := askable (by rw [there]; rfl)
  have clear := clear r request
  obtain ⟨fileable, path, port⟩ := fileable_of_request request askable
  have noNul : 0 ∉ r.path := fun zero => askable.noNul (mem_append_left _ zero)
  obtain ⟨h, found, at'⟩ := get_addUrl homed.wf fileable
  have homed' := homed_addUrl homed fileable
  refine ⟨answerAt now (addUrl db url).2 r.path true (placeOf url r.scheme r.host (r.path ++ queryText r.query)), ?_, ?_⟩
  · rw [getCookie, findUrl_addUrl homed.wf fileable, path]
    rfl
  rw [request]
  have matched : (answerAt now (addUrl db url).2 r.path true
      (placeOf url r.scheme r.host (r.path ++ queryText r.query))).matched = taken (sends now r.path true)
        (visited (addUrl db url).2.hosts (placeOf url r.scheme r.host (r.path ++ queryText r.query))) := by
    unfold answerAt
    dsimp only
    rw [cString_eq noNul]
    rfl
  have filed : ∀ i ∈ jar (addUrl db url).2.hosts, Home i.name i.cookie i.spot ∧ Clear now r i := by
    intro i member
    exact ⟨homed'.home _ _ _ (mem_jar.mp member), clear i (by rwa [jar_addUrl] at member)⟩
  have selected := @taken_visited _ homed'.wf (placeOf url r.scheme r.host (r.path ++ queryText r.query)) h
    (sends now r.path true) (fun i => applies now r i.cookie) found at' ?_ ?_ ?_
  · rw [matched, filter_map]
    refine selected.trans (List.Perm.of_eq ?_)
    rw [jar_addUrl]
    rfl
  · intro i member same scheme address spot
    obtain ⟨home, clear⟩ := filed i member
    rw [spot] at home
    obtain ⟨noDot, name, filed, rfl⟩ := home
    have matches' : domainMatches r.host i.cookie = true := by
      rw [domainMatches, if_neg noDot, decide_eq_true_eq]
      exact insensitive_of_nameOf (name.symm.trans same)
    rcases live : expired now i.cookie
    · obtain ⟨onTree, secure⟩ := clear live matches'
      have under : Item.filedUnder i = some filed := by
        rcases some' : segments i.cookie.path with _ | ⟨segment, more⟩
        · exact absurd some' (segments_ne_nil _)
        · rw [Item.filedUnder, spot, some']
          rfl
      rw [under] at onTree
      rw [placeOf, port, taken_sources askable.absolute live onTree]
      congr 1
      rw [eq_iff_iff, applies, live, matches']
      rcases flag : i.cookie.secure
      · simp
      · have https := secure flag
        simp only [Bool.not_false, Bool.true_and, Bool.not_true, Bool.false_or, Bool.and_eq_true, decide_eq_true_eq]
        exact ⟨fun on => ⟨on, https on⟩, fun both => both.1⟩
    · have dead : applies now r i.cookie = false := by simp [applies, live]
      rw [dead, if_neg (by simp), taken, map_eq_nil_iff, filter_eq_nil_iff]
      intro v looked
      obtain ⟨source, -, rfl⟩ := mem_map.mp looked
      simp [sends, live]
  · intro i member other spot
    obtain ⟨home, -⟩ := filed i member
    obtain ⟨address, spot⟩ := Option.ne_none_iff_exists'.mp spot
    rw [spot] at home
    obtain ⟨noDot, name, -⟩ := home
    have differs : domainMatches r.host i.cookie = false := by
      rw [domainMatches, if_neg noDot, decide_eq_false_iff_not]
      exact fun same => other (name.trans (nameOf_congr same))
    simp [applies, differs]
  · intro i member scheme spot
    obtain ⟨home, clear⟩ := filed i member
    have under : Item.filedUnder i = none := by
      rw [Item.filedUnder, spot]
      rfl
    rw [spot] at home
    obtain ⟨dot, name⟩ := home
    rcases live : expired now i.cookie
    · rw [applies, live]
      rcases matches' : domainMatches r.host i.cookie
      · have away : ¬ i.name <:+ nameOf r.host := by
          rw [name, suffix_iff_domainMatches dot (fun _ both => absurd both (by rw [matches']; simp)), matches']
          simp
        rw [placeOf, decide_eq_false away]
        simp
      · obtain ⟨onTree, secure⟩ := clear live matches'
        rw [under] at onTree
        obtain ⟨boundary, address⟩ := onTree
        have near : i.name <:+ nameOf r.host := by
          rw [name, suffix_iff_domainMatches dot address, matches']
        have on : pathMatches r.path i.cookie = onPath r.path i.cookie.path := by
          rw [Bool.eq_iff_iff, pathMatches_iff]
          exact ⟨boundary, prefix_of_onPath⟩
        rw [placeOf, decide_eq_true near]
        simp only [sends, live, secureWithheld_eq_false, on, Bool.not_false, Bool.true_and]
        rcases flag : i.cookie.secure
        · simp
        · rcases onTree : onPath r.path i.cookie.path
          · rfl
          · simp [secure flag onTree]
    · simp [applies, sends, live]

/-- A call that sets one cookie for a path of its host. -/
def pathCall (path : List UInt8) : Call :=
  ⟨0, .setCookie (lit "n=v; Path=" ++ path ++ lit "\x0d\x0a") (urlOf (lit "http://www.example.org/a/b")) none⟩

def pathItem : Item where
  name := [lit "www", lit "example", lit "org"]
  spot := some [(lit "http", 0, lit "a")]
  cookie := {
    name := lit "n", value := lit "v", valueWasQuoted := false, comment := none, domainFromSet := false,
    domain := lit "www.example.org", pathFromSet := true, path := lit "/a", expires := -1, lastUsed := 0,
    secure := false, httpOnly := false, version := 0, noDestroy := false }

/-- The cookie of `/a` is sent with `/a/c`. -/
theorem applicable_cookie_sent_below :
    ∃ db answer, run plainEnv [pathCall (lit "/a")] = some db ∧
      getCookie 0 db (urlOf (lit "http://www.example.org/a/c")) true = some answer ∧ answer.matched.Perm
        (((jar db.hosts).map Item.cookie).filter (fun c =>
          (requestOf (urlOf (lit "http://www.example.org/a/c")).components).any (applies 0 · c))) := by
  have returns : (run plainEnv [pathCall (lit "/a")]).map (fun db => jar db.hosts) = some [pathItem] := by
    decide +kernel
  obtain ⟨db, ran, stored⟩ := Option.map_eq_some_iff.mp returns
  have setter : RegularUrl (urlOf (lit "http://www.example.org/a/b")) := by
    intro host same
    rw [show urlHost (urlOf (lit "http://www.example.org/a/b")).components = some (lit "www.example.org") by
      decide +kernel, Option.some_inj] at same
    rw [← same]
    exact ⟨by decide +kernel, fun _ => ⟨by decide +kernel, by decide +kernel⟩⟩
  have request : requestOf (urlOf (lit "http://www.example.org/a/c")).components =
      some ⟨lit "http", lit "www.example.org", 0, lit "/a/c", none⟩ := by decide +kernel
  have askable : Askable ⟨lit "http", lit "www.example.org", 0, lit "/a/c", none⟩ :=
    ⟨by decide +kernel, fun _ => ⟨by decide +kernel, by decide +kernel⟩, by decide +kernel, by decide +kernel,
      by decide +kernel⟩
  have clear : Clear 0 ⟨lit "http", lit "www.example.org", 0, lit "/a/c", none⟩ pathItem := by
    refine fun _ _ => ⟨⟨.inr (by decide +kernel), by decide +kernel, ?_⟩, ?_⟩
    · rw [if_pos (by decide +kernel)]
      exact ⟨by decide +kernel, by decide +kernel⟩
    · intro secure
      exact absurd secure (by decide +kernel)
  obtain ⟨answer, asked, sent⟩ := applicable_cookies_sent_once plainEnv [pathCall (lit "/a")]
    (fun call member => by rw [mem_singleton.mp member]; exact setter) db ran 0
    (urlOf (lit "http://www.example.org/a/c")) (fun _ => ⟨_, request, askable⟩)
    (by
      intro r same i member
      rw [request, Option.some_inj] at same
      rw [stored, mem_singleton] at member
      rw [← same, member]
      exact clear)
  exact ⟨db, answer, ran, asked, sent⟩

def sentAndApplicable (history : List Call) (url : Nsurl) : Option (Nat × Nat) := do
  let db ← run plainEnv history
  let answer ← getCookie 0 db url true
  let due := ((jar db.hosts).map Item.cookie).filter (fun c => (requestOf url.components).any (applies 0 · c))
  return (answer.matched.length, due.length)

/-- The cookie of `/a/b` is not sent with `/a/b?q`. -/
theorem cookie_missed_with_query :
    ∃ db answer, run plainEnv [pathCall (lit "/a/b")] = some db ∧
      getCookie 0 db (urlOf (lit "http://www.example.org/a/b?q")) true = some answer ∧ ¬ answer.matched.Perm
        (((jar db.hosts).map Item.cookie).filter (fun c =>
          (requestOf (urlOf (lit "http://www.example.org/a/b?q")).components).any (applies 0 · c))) := by
  have counted : sentAndApplicable [pathCall (lit "/a/b")] (urlOf (lit "http://www.example.org/a/b?q")) = some (0, 1) := by
    decide +kernel
  rw [sentAndApplicable] at counted
  obtain ⟨db, ran, counted⟩ := Option.bind_eq_some_iff.mp counted
  obtain ⟨answer, asked, counted⟩ := Option.bind_eq_some_iff.mp counted
  refine ⟨db, answer, ran, asked, ?_⟩
  intro same
  have lengths := same.length_eq
  simp only [pure, Option.some.injEq, Prod.mk.injEq] at counted
  rw [counted.1, counted.2] at lengths
  cases lengths

end Besra.CookiesSent
