import Besra.UrldbFind
import Besra.CookieDomains

/-!
Invariants of the hosts over whole histories. What the empty database has and every way of changing the hosts keeps
(`Kept`) holds after every history whose hosts are regular (`kept_run`).
-/
namespace Besra.UrldbRun
open Lwc NsurlParse CText SetCookie UrldbTree Urldb CookieStore Option Forest
open HostNames CookieDomains UrldbFind Runs

def RegularDomain (c : Cookie) : Prop := Plain (if byteAt c.domain 0 = ch '.' then c.domain.tail else c.domain)

def RegularFile (file : List UInt8) : Prop :=
  ∀ line ∈ fgetsAll (16 * 1024) file.length file, ∀ fileVersion c scheme url,
    parseLine fileVersion (cString line).dropLast = some (c, scheme, url) → RegularDomain c

def RegularOp : Op → Prop
  | .setCookie _ url _ => RegularUrl url
  | .loadCookies file => RegularFile file
  | .addUrl url => RegularUrl url
  | .getCookie url _ => RegularUrl url
  | .deleteCookie _ _ _ => True

/-- A property of the hosts that every way of changing them keeps, for the names and the cookies that fit. -/
structure KeptWhere (Host : List UInt8 → Prop) (Domain : Cookie → Prop) (I : Hosts → Prop) : Prop where
  addHost : ∀ {hosts host}, I hosts → Host host → I (addHost hosts host).1
  addPathAt : ∀ {hosts name scheme port path url}, I hosts → I (addPathAt hosts name scheme port path url)
  insertCookie : ∀ {now hosts c scheme url}, I hosts → Domain c → I (insertCookie now hosts c scheme url)
  answerAt : ∀ {now db path includeHttpOnly place}, I db.hosts →
    I (answerAt now db path includeHttpOnly place).db.hosts
  deleteFrom : ∀ {hosts name p}, I hosts → I (hosts.modify name (deleteFrom p))

/-- A property of the hosts that every way of changing them keeps. -/
structure Kept (I : Hosts → Prop) : Prop where
  addHost : ∀ {hosts host}, I hosts → Plain host → I (addHost hosts host).1
  addPathAt : ∀ {hosts name scheme port path url}, I hosts → I (addPathAt hosts name scheme port path url)
  insertCookie : ∀ {now hosts c scheme url}, I hosts → RegularDomain c → I (insertCookie now hosts c scheme url)
  answerAt : ∀ {now db path includeHttpOnly place}, I db.hosts →
    I (answerAt now db path includeHttpOnly place).db.hosts
  deleteFrom : ∀ {hosts name p}, I hosts → I (hosts.modify name (deleteFrom p))

theorem Kept.where' {I : Hosts → Prop} (kept : Kept I) : KeptWhere Plain RegularDomain I :=
  ⟨kept.addHost, kept.addPathAt, kept.insertCookie, kept.answerAt, kept.deleteFrom⟩

def FitsUrl (Host : List UInt8 → Prop) (url : Nsurl) : Prop := ∀ host, hostStr url.components = some host → Host host

def FitsOp (env : Env) (Host : List UInt8 → Prop) (Domain : Cookie → Prop) : Op → Prop
  | .setCookie _ url _ => ∀ host, url.components.host = some host → ∀ c, Accepted env host c → Domain c
  | .loadCookies file => ∀ line ∈ fgetsAll (16 * 1024) file.length file, ∀ fileVersion c scheme url,
      parseLine fileVersion (cString line).dropLast = some (c, scheme, url) → Domain c
  | .addUrl url => FitsUrl Host url
  | .getCookie url _ => FitsUrl Host url
  | .deleteCookie _ _ _ => True

variable {c : Cookie} {env : Env} {url : Nsurl} {db : Db} {sent : Visit → Bool} {now : Int} {scheme : LwcString}
  {tree : Forest HostPart} {ks : List (List UInt8)} {hosts : Hosts}

theorem regularDomain_of_accepted {host : LwcString} (accepted : Accepted env host c) (regular : Regular host) :
    RegularDomain c := by
  unfold RegularDomain
  split
  next dot =>
    obtain ⟨d, domain⟩ := domain_of_dot dot
    have allowed := accepted.allowed
    rw [domain] at allowed
    obtain ⟨under, name⟩ := under_of_allowed regular.noNul allowed
    rw [domain]
    exact plain_of_under regular.plain name under
  next noDot =>
    rcases from' : c.domainFromSet
    · rw [accepted.byDefault from', cString_eq regular.noNul]
      exact regular.plain
    · exact absurd (accepted.fromSet from') noDot

theorem fits_of_regularUrl (regular : RegularUrl url) : FitsUrl Plain url := by
  intro host there
  rw [hostStr_eq regular] at there
  exact (regular host there).plain

theorem fits_of_regular {op : Op} (regular : RegularOp op) : FitsOp env Plain RegularDomain op := by
  rcases op with ⟨header, url, referer⟩ | file | url | ⟨url, includeHttpOnly⟩ | ⟨domain, path, name⟩
  · intro host at' c accepted
    exact regularDomain_of_accepted accepted (regular host (by rw [urlHost, at']; rfl))
  · exact regular
  · exact fits_of_regularUrl regular
  · exact fits_of_regularUrl regular
  · trivial

section
variable {Host : List UInt8 → Prop} {Domain : Cookie → Prop} {I : Hosts → Prop} (kept : KeptWhere Host Domain I)

include kept

variable {url : Nsurl} {done more : Bool} {env : Env} {now : Int} {db' db : Db}

theorem kept_setCookieLoop {scheme path host : LwcString} {fuel : Nat} {cur : List UInt8} {hosts hosts' : Hosts}
    (before : I hosts) (fits : ∀ c, Accepted env host c → Domain c) (at' : url.components.host = some host)
    (ran : setCookieLoop env now url scheme path host fuel hosts cur = some (done, hosts')) : I hosts' := by
  induction fuel generalizing cur hosts with
  | zero => simp [setCookieLoop] at ran
  | succ fuel ih =>
    rw [setCookieLoop] at ran
    split at ran
    · cases ran
      exact before
    next c cur' parsed =>
      split at ran
      next allowed =>
        have domain := fits c (accepted_of_parse parsed at' allowed)
        have inserted : I (insertCookie now hosts c scheme (Nsurl.nsurlDefragment url)) :=
          kept.insertCookie before domain
        dsimp only at ran
        split at ran
        · exact ih inserted ran
        · cases ran
          exact inserted
      · cases ran
        exact before

theorem kept_setCookie {header : List UInt8} {referer : Option Nsurl} (before : I db.hosts)
    (fits : FitsOp env Host Domain (.setCookie header url referer))
    (set : setCookie env now db header url referer = some (done, db')) : I db'.hosts := by
  unfold setCookie at set
  split at set
  next scheme path host _ _ host' =>
    split at set
    · obtain ⟨⟨done', hosts⟩, looped, rest⟩ := bind_eq_some_iff.mp set
      cases rest
      exact kept_setCookieLoop kept before (fits host host') host' looped
    · cases set
      exact before
  · cases set
    exact before

theorem kept_addUrl (before : I db.hosts) (fits : FitsUrl Host url) : I (addUrl db url).2.hosts := by
  unfold addUrl
  dsimp only
  split
  next host _ _ there => exact kept.addPathAt (kept.addHost before (fits host there))
  · exact before

theorem kept_loadCookie {c : Cookie} {scheme url : List UInt8} (before : I db.hosts) (fits : Domain c)
    (loaded : loadCookie env now db c scheme url = some (more, db')) : I db'.hosts := by
  have inserted : ∀ scheme url, I (insertCookie now db.hosts c scheme url) :=
    fun _ _ => kept.insertCookie before fits
  unfold loadCookie at loaded
  unfold insertCookie at inserted
  split at loaded
  next dot =>
    cases loaded
    simpa only [dot, if_true] using inserted [] (urlOf [])
  next noDot =>
    split at loaded
    · cases loaded
    split at loaded
    · cases loaded
    · cases loaded
      exact before
    next url' _ =>
      cases loaded
      simpa only [noDot, if_false] using inserted (url'.components.scheme.getD []) url'

theorem kept_loadLine {line : List UInt8} (before : I db.hosts)
    (fits : ∀ fileVersion c scheme url, parseLine fileVersion (cString line).dropLast = some (c, scheme, url) → Domain c)
    (loaded : loadLine env now db line = some (more, db')) : I db'.hosts := by
  unfold loadLine at loaded
  dsimp only at loaded
  split at loaded
  · cases loaded
    exact before
  split at loaded
  · split at loaded <;> cases loaded <;> exact before
  split at loaded
  · cases loaded
    exact before
  split at loaded
  · cases loaded
    exact before
  next c scheme url parsed => exact kept_loadCookie kept before (fits _ c scheme url parsed) loaded

theorem kept_loadLines {lines : List (List UInt8)} (before : I db.hosts)
    (fits : ∀ line ∈ lines, ∀ fileVersion c scheme url, parseLine fileVersion (cString line).dropLast = some (c, scheme, url) → Domain c)
    (loaded : loadLines env now db lines = some db') : I db'.hosts := by
  induction lines generalizing db with
  | nil =>
    cases loaded
    exact before
  | cons line lines ih =>
    rw [loadLines] at loaded
    have first := fits line List.mem_cons_self
    split at loaded
    · cases loaded
    next next _ this =>
      exact ih (kept_loadLine kept before first this) (fun l member => fits l (List.mem_cons_of_mem _ member)) loaded
    next last this =>
      cases loaded
      exact kept_loadLine kept before first this

theorem kept_step {env : Env} {db db' : Db} {call : Call} (before : I db.hosts)
    (fits : FitsOp env Host Domain call.op) (stepped : step env db call = some db') : I db'.hosts := by
  unfold step at stepped
  rcases same : call.op with ⟨header, url, referer⟩ | file | url | ⟨url, includeHttpOnly⟩ | ⟨domain, path, name⟩
  · rw [same] at stepped fits
    obtain ⟨⟨done, db''⟩, set, rfl⟩ := map_eq_some_iff.mp stepped
    exact kept_setCookie kept before fits set
  · rw [same] at stepped fits
    exact kept_loadLines kept before fits stepped
  · rw [same] at stepped fits
    cases stepped
    exact kept_addUrl kept before fits
  · rw [same] at stepped fits
    obtain ⟨answer, asked, rfl⟩ := map_eq_some_iff.mp stepped
    rw [getCookie] at asked
    obtain ⟨found, -, rfl⟩ := map_eq_some_iff.mp asked
    have added := kept_addUrl kept before fits
    split
    · exact kept.answerAt added
    · exact added
  · rw [same] at stepped
    cases stepped
    exact deleteCookie_induct (fun _ _ _ kept' => kept.deleteFrom kept') before

theorem keptWhere_run {history : List Call} (empty : I {}) (fits : ∀ call ∈ history, FitsOp env Host Domain call.op)
    (ran : run env history = some db) : I db.hosts :=
  run_stays (P := fun (db : Db) => I db.hosts) ran empty
    (fun call member _ _ before stepped => kept_step kept before (fits call member) stepped)

end

theorem kept_run {I : Hosts → Prop} (kept : Kept I) {history : List Call} (empty : I {})
    (regular : ∀ call ∈ history, RegularOp call.op) (ran : run env history = some db) : I db.hosts :=
  keptWhere_run kept.where' empty (fun call member => fits_of_regular (regular call member)) ran

theorem ordered_touchPaths {ks : List PathKey} {paths : Forest PathData}
    (ordered : paths.Ordered PathData.key PathOrder) :
    (touchPaths now sent ks paths).Ordered PathData.key PathOrder := by
  induction ks generalizing paths with
  | nil => exact ordered
  | cons k ks ih =>
    rcases ks with _ | ⟨k', ks⟩
    · refine ordered_mapSiblings ordered ?_
      intro q
      split
      · rfl
      · exact key_touchDirectory now sent q
    · exact ordered_under (ordered_alter
        (ordered_mapSiblings ordered (key_touchDirectory now sent)) (fun _ => rfl)) (fun _ below => ih below)

theorem ordered_touchHosts (ordered : tree.Ordered HostPart.key (· ≠ ·)) :
    (touchHosts now sent scheme ks tree).Ordered HostPart.key (· ≠ ·) := by
  induction ks generalizing tree with
  | nil => exact ordered
  | cons k ks ih =>
    exact ordered_under (ordered_alter ordered (fun _ => rfl)) (fun _ below => ih below)

theorem keys_touchHosts : (touchHosts now sent scheme ks tree).keys HostPart.key = tree.keys HostPart.key := by
  rcases ks with _ | ⟨k, ks⟩
  · rfl
  · rw [touchHosts, keys_under]
    exact keys_alter (fun _ => rfl)

theorem lookup_touchHosts {ks' : List (List UInt8)} (there : (tree.lookup HostPart.key ks').isSome) :
    ((touchHosts now sent scheme ks tree).lookup HostPart.key ks').isSome := by
  induction ks generalizing tree ks' with
  | nil => exact there
  | cons k ks ih =>
    rcases ks' with _ | ⟨k', ks'⟩
    · simp [Forest.lookup] at there
    rw [lookup_cons] at there
    obtain ⟨h, found⟩ := isSome_iff_exists.mp there
    obtain ⟨⟨h', hs⟩, first, rest⟩ := bind_eq_some_iff.mp found
    rw [touchHosts, lookup_cons, find_under, find_alter, find_alter, if_pos rfl]
    rotate_left
    · exact fun _ => rfl
    · exact fun _ => rfl
    by_cases same : k = k'
    · subst same
      rw [if_pos rfl, first]
      simp only [map_some, bind_some]
      split
      · rfl
      next more =>
        rw [if_neg more] at rest
        exact ih (by rw [rest]; rfl)
    · rw [if_neg same, if_neg same, first, bind_some]
      rw [rest]
      rfl

theorem wellFormed_answerAt {path : LwcString} {includeHttpOnly : Bool} {place : Place} (wf : WellFormed db.hosts) :
    WellFormed (answerAt now db path includeHttpOnly place).db.hosts := by
  have touched : WellFormed (db.hosts.modify place.host (fun h =>
      { h with paths := touchPaths now (sends now (cString path) includeHttpOnly) place.path h.paths })) :=
    wellFormed_modify wf (fun _ => rfl) (fun _ ordered => ordered_touchPaths ordered)
  refine ⟨touched.filed, ordered_touchHosts touched.distinct, ?_, ?_, ?_⟩
  · intro a h member
    obtain ⟨h', inside, paths, -⟩ := mem_touchHosts member
    rw [paths]
    exact touched.paths a h' inside
  · intro i name member
    exact lookup_touchHosts (touched.indexed i name member)
  · intro k member
    exact touched.top k (by rwa [← keys_touchHosts])

theorem wellFormed_cookieHost (wf : WellFormed hosts) {domain : List UInt8} (plain : Plain domain) :
    WellFormed (cookieHost hosts domain).1 := by
  unfold cookieHost
  split
  · exact wf
  · exact wellFormed_addHost wf plain

theorem wellFormed_insertCookie (wf : WellFormed hosts) (regular : RegularDomain c) :
    WellFormed (insertCookie now hosts c scheme url) := by
  unfold insertCookie
  unfold RegularDomain at regular
  split
  next dot =>
    rw [if_pos dot] at regular
    exact wellFormed_modify (wellFormed_cookieHost wf regular) (fun _ => rfl) (fun _ ordered => ordered)
  next noDot =>
    rw [if_neg noDot] at regular
    refine wellFormed_modify (wellFormed_cookieHost wf regular) (fun _ => rfl) (fun _ ordered => ?_)
    exact ordered_update (ordered_addPath ordered) (fun _ => rfl)

theorem wellFormed_deleteFrom {name : HostName} {p : Cookie → Bool} (wf : WellFormed hosts) :
    WellFormed (hosts.modify name (deleteFrom p)) := by
  refine wellFormed_modify wf (part_deleteFrom p) fun h ordered => ?_
  unfold deleteFrom
  split
  · exact ordered
  split
  · exact ordered_update ordered (fun _ => rfl)
  · exact ordered

theorem wellFormed_kept : Kept WellFormed where
  addHost := fun wf plain => wellFormed_addHost wf plain
  addPathAt := fun wf => wellFormed_addPathAt wf
  insertCookie := fun wf regular => wellFormed_insertCookie wf regular
  answerAt := fun wf => wellFormed_answerAt wf
  deleteFrom := wellFormed_deleteFrom

/-- Where a cookie is: at the root of the host that its domain names with a dot, or at its path, under some scheme and
    no port, at the host that its domain is. -/
def Home (name : HostName) (c : Cookie) : Option (List PathKey) → Prop
  | none => byteAt c.domain 0 = ch '.' ∧ name = nameOf c.domain.tail
  | some address => byteAt c.domain 0 ≠ ch '.' ∧ name = nameOf c.domain ∧
    ∃ scheme, address = pathKeys scheme 0 (segments c.path)

structure Homed (hosts : Hosts) : Prop where
  wf : WellFormed hosts
  home : ∀ name spot c, Stored hosts name spot c → Home name c spot

theorem Home.reused {name : HostName} {d : Cookie} {spot : Option (List PathKey)} (home : Home name c spot)
    (used : Reused c d) : Home name d spot := by
  obtain ⟨_, rfl⟩ := used
  exact home

theorem homed_insertCookie (homed : Homed hosts) (regular : RegularDomain c) :
    Homed (insertCookie now hosts c scheme url) := by
  refine ⟨wellFormed_insertCookie homed.wf regular, ?_⟩
  intro name spot d stored
  unfold insertCookie at stored
  unfold RegularDomain at regular
  split at stored
  next dot =>
    rw [if_pos dot] at regular
    rcases stored_insertDomainCookie stored with old | ⟨rfl, rfl, rfl⟩
    · exact homed.home name spot d old
    · exact ⟨dot, (cookieHost_spec homed.wf.filed regular).1⟩
  next noDot =>
    rw [if_neg noDot] at regular
    rcases stored_insertHostCookie stored with old | ⟨rfl, rfl, rfl⟩
    · exact homed.home name spot d old
    · refine ⟨noDot, (cookieHost_spec homed.wf.filed regular).1, scheme, ?_⟩
      rw [pathNodes, List.map_map]
      rfl

theorem homed_empty : Homed {} := by
  refine ⟨wellFormed_empty, ?_⟩
  rintro name spot c ⟨h, member, -⟩
  simp [Forest.entries] at member

theorem homed_kept : Kept Homed where
  addHost := fun homed plain =>
    ⟨wellFormed_addHost homed.wf plain, fun name spot c stored => homed.home name spot c (stored_addHost stored)⟩
  addPathAt := fun homed =>
    ⟨wellFormed_addPathAt homed.wf, fun name spot c stored => homed.home name spot c (stored_addPathAt stored)⟩
  insertCookie := fun homed regular => homed_insertCookie homed regular
  answerAt := by
    intro now db path includeHttpOnly place homed
    refine ⟨wellFormed_answerAt homed.wf, ?_⟩
    intro name spot c stored
    obtain ⟨d, old, used⟩ := stored_answerAt stored
    exact (homed.home name spot d old).reused used
  deleteFrom := fun homed =>
    ⟨wellFormed_deleteFrom homed.wf, fun name spot c stored => homed.home name spot c (stored_deleteFrom stored)⟩

end Besra.UrldbRun
