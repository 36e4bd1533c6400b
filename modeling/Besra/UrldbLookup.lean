import Besra.UrldbData
import Besra.UrldbRun

/-!
The database as a map from URLs to nodes. A URL that was added is found at its own node; what is done to other URLs
leaves the data of that node as they are; and where no stored path begins like that of a URL, none is found for it.
-/
namespace Besra.UrldbLookup
open Lwc NsurlParse CText SetCookie UrldbTree Urldb UrldbData Option
open CookieStore HostNames CookieDomains UrldbFind UrldbRun

/-- What the database knows of the URL of a node. -/
def data (p : PathData) : Option Nsurl × Bool × UrlData := (p.url, p.persistent, p.urld)

variable {place : Place} {hosts : Hosts} {name : HostName} {f : PathData → PathData} {host path scheme : List UInt8}
  {p : PathData} {port : Nat} {url : Nsurl} {now : Int} {sent : Visit → Bool} {paths : Forest PathData}
  {address : List PathKey} {db db' : Db} {call : UrlCall} {env : Env} {I : Hosts → Prop} {history : List UrlCall}

theorem node_eq : node hosts place =
    ((hosts.get place.host).map HostPart.paths).bind (fun paths => paths.lookup PathData.key place.path) := by
  rw [node]
  rcases hosts.get place.host with _ | h <;> rfl

theorem node_modify {f : HostPart → HostPart} (keeps : ∀ h, (f h).part = h.part)
    (same : ∀ h, ((f h).paths.lookup PathData.key place.path).map data = (h.paths.lookup PathData.key place.path).map data) :
    (node (hosts.modify name f) place).map data = (node hosts place).map data := by
  rw [node, node, get_modify keeps]
  split
  · rcases hosts.get place.host with _ | h
    · rfl
    · exact same h
  · rfl

theorem node_modifyNode {place' : Place} (keeps : ∀ p, (f p).key = p.key) :
    node (modifyNode hosts place' f) place = if place = place' then (node hosts place).map f else node hosts place := by
  obtain ⟨name, path⟩ := place
  obtain ⟨name', path'⟩ := place'
  rw [node, modifyNode, get_modify (by exact fun _ => rfl), node]
  by_cases host : name = name'
  · subst host
    rw [if_pos rfl]
    rcases hosts.get name with _ | h
    · simp
    · simp only [map_some, Option.bind_some, Place.mk.injEq, true_and]
      exact Forest.lookup_update keeps
  · rw [if_neg host, if_neg (by simp [host])]

theorem get_addHost {h : HostPart} (found : hosts.get name = some h) : (addHost hosts host).1.get name = some h := by
  unfold addHost
  split
  · dsimp only
    split
    · exact found
    · exact Forest.lookup_extend_of_some found
  · exact Forest.lookup_extend_of_some found

theorem node_addHost (found : node hosts place = some p) : node (addHost hosts host).1 place = some p := by
  rw [node] at found ⊢
  obtain ⟨h, there, rest⟩ := Option.bind_eq_some_iff.mp found
  rw [get_addHost there]
  exact rest

theorem lookup_addPath {scheme : LwcString} {port : Nat} {paths : Forest PathData} {path : List UInt8} {url : Nsurl}
    {address : List PathKey} {p : PathData} (found : paths.lookup PathData.key address = some p) (claimed : p.url.isSome) :
    (addPath scheme port paths path url).1.lookup PathData.key address = some p := by
  rw [addPath]
  dsimp only
  rw [Forest.lookup_update (key_claim url), Forest.lookup_extend_of_some found]
  split
  · rw [map_some, PathData.claim, if_pos claimed]
  · rfl

theorem node_addPathAt {scheme : LwcString} (found : node hosts place = some p) (claimed : p.url.isSome) :
    node (addPathAt hosts name scheme port path url) place = some p := by
  rw [node] at found ⊢
  obtain ⟨h, there, rest⟩ := Option.bind_eq_some_iff.mp found
  rw [addPathAt, get_modify (by exact fun _ => rfl), there]
  split
  · exact lookup_addPath rest claimed
  · exact rest

theorem data_touchPaths {ks : List PathKey} :
    ((touchPaths now sent ks paths).lookup PathData.key address).map data =
      (paths.lookup PathData.key address).map data := by
  have directory : ∀ p, data (touchDirectory now sent p) = data p := by
    intro p
    unfold touchDirectory
    split <;> rfl
  induction ks generalizing paths address with
  | nil => rfl
  | cons k ks ih =>
    rcases ks with _ | ⟨k', ks⟩
    · refine Forest.view_mapSiblings ?_ ?_
      · intro q
        split
        · rfl
        · exact key_touchDirectory now sent q
      · intro q
        split
        · rfl
        · exact directory q
    · refine Eq.trans (Forest.view_under (fun _ _ => ih)) ?_
      refine Eq.trans (Forest.view_alter (fun _ => rfl) (fun _ => rfl)) ?_
      exact Forest.view_mapSiblings (key_touchDirectory now sent) directory

theorem paths_touchHosts {scheme : LwcString} {ks address : List (List UInt8)} {tree : Forest HostPart} :
    ((touchHosts now sent scheme ks tree).lookup HostPart.key address).map HostPart.paths =
      (tree.lookup HostPart.key address).map HostPart.paths := by
  induction ks generalizing tree address with
  | nil => rfl
  | cons k ks ih =>
    refine Eq.trans (Forest.view_under (fun _ _ => ih)) ?_
    exact Forest.view_alter (fun _ => rfl) (fun _ => rfl)

theorem settled_kept {place : Place} {d : Option Nsurl × Bool × UrlData} (claimed : d.1.isSome) :
    Kept (fun hosts => (node hosts place).map data = some d) := by
  have added : ∀ {hosts : Hosts} {host : List UInt8}, (node hosts place).map data = some d →
      (node (addHost hosts host).1 place).map data = some d := by
    intro hosts host settled
    obtain ⟨p, found, same⟩ := Option.map_eq_some_iff.mp settled
    rw [node_addHost found, map_some, same]
  refine ⟨fun settled _ => added settled, ?_, ?_, ?_, ?_⟩
  · intro hosts name scheme port path url settled
    obtain ⟨p, found, rfl⟩ := Option.map_eq_some_iff.mp settled
    rw [node_addPathAt found claimed, map_some]
  · intro now hosts c scheme url settled _
    have hosted : ∀ domain, (node (cookieHost hosts domain).1 place).map data = some d := by
      intro domain
      unfold cookieHost
      split
      · exact settled
      · exact added settled
    unfold insertCookie
    split
    · refine (node_modify ?_ ?_).trans (hosted c.domain.tail)
      · exact fun _ => rfl
      · exact fun _ => rfl
    · obtain ⟨p, found, rfl⟩ := Option.map_eq_some_iff.mp (hosted c.domain)
      rw [node] at found ⊢
      obtain ⟨h, there, rest⟩ := Option.bind_eq_some_iff.mp found
      unfold insertHostCookie
      dsimp only
      rw [get_modify (by exact fun _ => rfl), there]
      split
      · rw [map_some, Option.bind_some, storeAtPath]
        dsimp only
        have stored := @lookup_addPath scheme 0 h.paths c.path url place.path p rest claimed
        refine Eq.trans (Forest.view_update ?_ ?_) ?_
        · exact fun _ => rfl
        · exact fun _ => rfl
        · rw [stored, map_some]
      · rw [Option.bind_some, rest, map_some]
  · intro now db path includeHttpOnly at' settled
    have touched : ∀ hosts : Hosts, (node { hosts with
        tree := touchHosts now (sends now (cString path) includeHttpOnly)
          ((at'.path.getLast?.map Prod.fst).getD []) at'.host.reverse hosts.tree } place).map data =
            (node hosts place).map data := by
      intro hosts
      rw [node_eq, node_eq, Hosts.get, paths_touchHosts]
      rfl
    refine (touched _).trans ((node_modify ?_ ?_).trans settled)
    · exact fun _ => rfl
    · exact fun _ => data_touchPaths
  · refine fun settled => (node_modify (part_deleteFrom _) fun h => ?_).trans settled
    unfold deleteFrom
    split
    · rfl
    split
    · exact Forest.view_update (fun _ => rfl) (fun _ => rfl)
    · rfl

def Begun (scheme : LwcString) (port : Nat) (segments : List (List UInt8)) (paths : Forest PathData) : Prop :=
  ∃ address p, (address, p) ∈ paths.entries PathData.key ∧
    List.Forall₂ (fun segment k => segment <+: k.2.2 ∧ k.1 = scheme ∧ k.2.1 = port) segments address

theorem begun_of_matchPath {scheme : LwcString} {segments : List (List UInt8)}
    (found : matchPath scheme port segments paths = some address) : Begun scheme port segments paths := by
  induction paths generalizing segments address with
  | null => rcases segments with _ | ⟨segment, more⟩ <;> simp [matchPath] at found
  | node p children next ihc ihn =>
    rcases segments with _ | ⟨segment, more⟩
    · simp [matchPath] at found
    rw [matchPath] at found
    split at found
    next here =>
      obtain ⟨start, scheme', port'⟩ := here
      have first : segment <+: p.key.2.2 ∧ p.key.1 = scheme ∧ p.key.2.1 = port := by
        refine ⟨?_, scheme', port'⟩
        rw [strncmp, strcmp_eq_iff, List.take_length] at start
        rw [← start]
        exact List.take_prefix _ _
      split at found
      next last =>
        subst last
        exact ⟨[p.key], p, (Forest.mem_entries_node _).mpr (.inl ⟨rfl, rfl⟩), .cons first .nil⟩
      next =>
        obtain ⟨below, deeper, -⟩ := Option.map_eq_some_iff.mp found
        obtain ⟨b, q, inside, rest⟩ := ihc deeper
        exact ⟨p.key :: b, q, (Forest.mem_entries_node _).mpr (.inr (.inl ⟨b, rfl, inside⟩)), .cons first rest⟩
    next =>
      obtain ⟨b, q, inside, rest⟩ := ihn found
      exact ⟨b, q, (Forest.mem_entries_node _).mpr (.inr (.inr inside)), rest⟩

theorem findUrl_cases (wf : WellFormed db.hosts) (fileable : Fileable url scheme host path) :
    findUrl db url = some none ∨ ∃ h, db.hosts.get (nameOf host) = some h ∧
      findUrl db url = some ((matchPath scheme (portInt url.components) (segments path) h.paths).map (⟨nameOf host, ·⟩)) := by
  unfold findUrl
  rw [fileable.schemeIs, fileable.hostIs, fileable.pathIs]
  simp only [some_inj, fileable.notMailto, if_false, Nat.mod_eq_of_lt fileable.portFits]
  split
  · exact .inl rfl
  rcases sought : searchFind (db.hosts.search (getSearchTree host)) host with _ | name
  · exact .inl rfl
  · have same := searchFind_eq wf.filed sought
    subst same
    dsimp only
    rcases db.hosts.get (nameOf host) with _ | h
    · exact .inl rfl
    · refine .inr ⟨h, rfl, ?_⟩
      dsimp only
      rw [if_neg (not_not_intro fileable.absolute)]

theorem findUrl_exact (wf : WellFormed db.hosts) (fileable : Fileable url scheme host path)
    (there : (node db.hosts (placeOf url scheme host path)).isSome) :
    findUrl db url = some none ∨ findUrl db url = some (some (placeOf url scheme host path)) := by
  rcases findUrl_cases wf fileable with none | ⟨h, found, looked⟩
  · exact .inl none
  · right
    rw [node, placeOf, found, Option.bind_some] at there
    have inside := Forest.mem_entries_of_lookup HostPart.key found
    rw [looked, matchPath_eq (wf.paths _ _ inside) there]
    rfl

/-- Nothing on the host of a URL begins like its path. -/
def Unbegun (hosts : Hosts) (url : Nsurl) (scheme host path : List UInt8) : Prop :=
  ∀ h, hosts.get (nameOf host) = some h → ¬ Begun scheme (portInt url.components) (segments path) h.paths

theorem findUrl_unbegun (wf : WellFormed db.hosts) (fileable : Fileable url scheme host path)
    (unbegun : Unbegun db.hosts url scheme host path) : findUrl db url = some none := by
  rcases findUrl_cases wf fileable with none | ⟨h, found, looked⟩
  · exact none
  · rw [looked]
    rcases sought : matchPath scheme (portInt url.components) (segments path) h.paths with _ | address
    · rfl
    · exact absurd (begun_of_matchPath sought) (unbegun h found)

/-- A node at a place has the scheme, the host, the port and the path with the query of a URL. -/
structure NodeOf (url : Nsurl) (scheme host path : List UInt8) (place : Place) (p : PathData) : Prop where
  schemeIs : p.scheme = scheme
  hostIs : [ch '.'].intercalate place.host = insensitive host
  portIs : p.port = portInt url.components
  pathIs : ch '/' :: [ch '/'].intercalate (place.path.map (fun k => k.2.2)) = path

theorem nodeOf_placeOf (found : node hosts (placeOf url scheme host path) = some p)
    (absolute : byteAt path 0 = ch '/') : NodeOf url scheme host path (placeOf url scheme host path) p := by
  have spelt : ch '/' :: [ch '/'].intercalate ((placeOf url scheme host path).path.map (fun k => k.2.2)) = path := by
    rcases path with _ | ⟨c, path⟩
    · exact absurd absolute (by decide)
    · have first : c = ch '/' := absolute
      subst first
      have names : (placeOf url scheme host (ch '/' :: path)).path.map (fun k => k.2.2) = path.splitOn (ch '/') := by
        rw [placeOf, pathKeys, List.map_map]
        exact List.map_id _
      rw [names, List.intercalate_splitOn]
  rw [node] at found
  obtain ⟨h, -, there⟩ := Option.bind_eq_some_iff.mp found
  have last := Forest.last_of_mem_entries (Forest.mem_entries_of_lookup PathData.key there)
  have keyed : p.key ∈ (placeOf url scheme host path).path := List.mem_of_getLast? last
  obtain ⟨segment, -, same⟩ := List.mem_map.mp keyed
  exact ⟨(congrArg Prod.fst same).symm, intercalate_nameOf host, (congrArg (fun k => k.2.1) same).symm, spelt⟩

def RegularUrlOp : UrlOp → Prop
  | .cookies op => RegularOp op
  | .addMissing url => RegularUrl url
  | .setHstsPolicy url _ => RegularUrl url
  | _ => True

theorem changeFound_hosts {done : Bool} (changed : changeFound db url f = some (done, db')) :
    db' = db ∨ ∃ place, findUrl db url = some (some place) ∧ db'.hosts = modifyNode db.hosts place f := by
  obtain ⟨found, sought, same⟩ := Option.map_eq_some_iff.mp changed
  rcases found with _ | place
  · left
    cases same
    rfl
  · right
    cases same
    exact ⟨place, sought, rfl⟩

/-- The change that a call makes to the node of its URL. -/
def changeOf (now : Int) : UrlOp → Option (Nsurl × (PathData → PathData))
  | .setUrlPersistence url persist => some (url, fun p => { p with persistent := persist })
  | .setUrlTitle url title => some (url, fun p => { p with urld := { p.urld with title } })
  | .setUrlContentType url type => some (url, fun p => { p with urld := { p.urld with type } })
  | .updateUrlVisitData url => some (url, fun p =>
      { p with urld := { p.urld with lastVisit := now, visits := (p.urld.visits + 1) % 2 ^ 32 } })
  | .resetUrlVisitData url => some (url, fun p => { p with urld := { p.urld with lastVisit := 0, visits := 0 } })
  | .cookies _ | .addMissing _ | .setHstsPolicy _ _ => none

theorem urlStep_of_change (change : changeOf call.now call.op = some (url, f))
    (stepped : urlStep env db call = some db') :
    (∀ p, (f p).key = p.key) ∧
      (db' = db ∨ ∃ place, findUrl db url = some (some place) ∧ db'.hosts = modifyNode db.hosts place f) := by
  unfold urlStep at stepped
  obtain ⟨now, op⟩ := call
  rcases op with op | ⟨url', persist⟩ | ⟨url', title⟩ | ⟨url', type⟩ | url' | url' | url' | ⟨url', policy⟩ <;> cases change
  all_goals
    obtain ⟨⟨done, db''⟩, changed, rfl⟩ := Option.map_eq_some_iff.mp stepped
    exact ⟨fun _ => rfl, changeFound_hosts changed⟩

def FitsUrlOp (env : Env) (Host : List UInt8 → Prop) (Domain : Cookie → Prop) : UrlOp → Prop
  | .cookies op => FitsOp env Host Domain op
  | .addMissing url => FitsUrl Host url
  | .setHstsPolicy url _ => FitsUrl Host url
  | _ => True

theorem fits_of_regularOp {op : UrlOp} (regular : RegularUrlOp op) : FitsUrlOp env Plain RegularDomain op := by
  cases op with
  | cookies op => exact fits_of_regular regular
  | addMissing url => exact fits_of_regularUrl regular
  | setHstsPolicy url change => exact fits_of_regularUrl regular
  | _ => trivial

theorem kept_urlStep {Host : List UInt8 → Prop} {Domain : Cookie → Prop} (kept : KeptWhere Host Domain I)
    (policy : ∀ {hosts : Hosts} {name : HostName} {change : HstsData → HstsData}, I hosts → I (hosts.modify name (fun h => { h with hsts := change h.hsts })))
    (before : I db.hosts) (fits : FitsUrlOp env Host Domain call.op) (other : changeOf call.now call.op = none)
    (stepped : urlStep env db call = some db') : I db'.hosts := by
  obtain ⟨now, op⟩ := call
  cases op with
  | cookies op => exact @kept_step _ _ _ kept env db db' ⟨now, op⟩ before fits stepped
  | addMissing url =>
    obtain ⟨found, -, rfl⟩ := Option.map_eq_some_iff.mp stepped
    exact kept_addUrl kept before fits
  | setHstsPolicy url change =>
    simp only [urlStep, setHstsPolicy] at stepped
    split at stepped
    · cases stepped
      exact before
    split at stepped
    · cases stepped
      exact before
    · obtain ⟨found, -, rfl⟩ := Option.map_eq_some_iff.mp stepped
      have added := kept_addUrl kept before fits
      rcases found with _ | place
      · exact added
      · exact policy added
  | _ => cases other

theorem wellFormed_urlStep (wf : WellFormed db.hosts) (regular : RegularUrlOp call.op)
    (stepped : urlStep env db call = some db') : WellFormed db'.hosts := by
  rcases change : changeOf call.now call.op with _ | ⟨url, f⟩
  · exact kept_urlStep wellFormed_kept.where' (fun wf => wellFormed_modify wf (fun _ => rfl) (fun _ ordered => ordered))
      wf (fits_of_regularOp regular) change stepped
  · obtain ⟨keeps, rfl | ⟨place, -, same⟩⟩ := urlStep_of_change change stepped
    · exact wf
    · rw [same]
      exact wellFormed_modify wf (fun _ => rfl) (fun _ ordered => Forest.ordered_update ordered keeps)

theorem urlRun_induct (empty : I {})
    (keeps : ∀ call ∈ history, ∀ db db', I db.hosts → urlStep env db call = some db' → I db'.hosts)
    (ran : urlRun env history = some db) : I db.hosts :=
  Runs.run_stays (P := fun (db : Db) => I db.hosts) ran empty keeps

theorem wellFormed_urlRun (regular : ∀ call ∈ history, RegularUrlOp call.op) (ran : urlRun env history = some db) :
    WellFormed db.hosts :=
  urlRun_induct wellFormed_empty (fun call member _ _ wf stepped => wellFormed_urlStep wf (regular call member) stepped)
    ran

/-- A URL is not found at a place: it has no host, or its own node is there and is another, or nothing begins like it. -/
def Apart (db : Db) (place : Place) (url : Nsurl) : Prop :=
  hostStr url.components = none ∨ ∃ scheme host path, Fileable url scheme host path ∧
    ((placeOf url scheme host path ≠ place ∧ (node db.hosts (placeOf url scheme host path)).isSome) ∨
      Unbegun db.hosts url scheme host path)

theorem findUrl_apart (wf : WellFormed db.hosts) (apart : Apart db place url) : findUrl db url ≠ some (some place) := by
  rcases apart with hostless | ⟨scheme, host, path, fileable, ⟨other, there⟩ | unbegun⟩
  · simp [findUrl_hostless hostless]
  · rcases findUrl_exact wf fileable there with nothing | own
    · simp [nothing]
    · simpa [own] using other
  · simp [findUrl_unbegun wf fileable unbegun]

theorem addUrl_of_fileable (fileable : Fileable url scheme host path) : (addUrl db url).1 = true := by
  unfold addUrl
  dsimp only
  rw [fileable.pathIs, fileable.schemeIs, fileable.hostIs]

theorem node_of_addHost {hosts : Hosts} {host : List UInt8} {place : Place} {p : PathData} (wf : WellFormed hosts)
    (found : node (addHost hosts host).1 place = some p) : node hosts place = some p := by
  have grown : ∀ labels search, node ⟨hosts.grow labels, search⟩ place = some p → node hosts place = some p := by
    intro labels search found
    rw [node] at found ⊢
    obtain ⟨h, there, rest⟩ := Option.bind_eq_some_iff.mp found
    rcases Forest.mem_entries_extend (Forest.mem_entries_of_lookup HostPart.key there) with old | ⟨_, ⟨_, on⟩, -⟩
    · have again := Forest.lookup_of_mem_entries wf.distinct (fun _ => not_not_intro rfl) old
      rw [Hosts.get, again]
      exact rest
    · have new : h ∈ hostNodes labels := by
        rw [← on]
        simp
      obtain ⟨part, -, rfl⟩ := List.mem_map.mp new
      rcases path : place.path with _ | ⟨k, ks⟩ <;> simp [path, Forest.lookup, Forest.find] at rest
  unfold addHost at found
  split at found
  · dsimp only at found
    split at found
    · exact found
    · exact grown _ _ found
  · exact grown _ _ found

theorem node_addUrl (wf : WellFormed db.hosts) (fileable : Fileable url scheme host path)
    (found : node (addUrl db url).2.hosts (placeOf url scheme host path) = some p) :
    ∃ q : PathData, p = q.claim url ∧ (q.url = none ∨ node db.hosts (placeOf url scheme host path) = some q) := by
  rw [hosts_addUrl fileable] at found
  have wf' := wellFormed_addHost wf fileable.plain
  rw [node, placeOf, addPathAt] at found
  rw [get_modify (by exact fun _ => rfl), if_pos rfl] at found
  obtain ⟨h', there, rest⟩ := Option.bind_eq_some_iff.mp found
  obtain ⟨h, known, rfl⟩ := Option.map_eq_some_iff.mp there
  have keys : pathKeys scheme (portInt url.components) (segments path) =
      (pathNodes scheme (portInt url.components) path).map PathData.key := by
    rw [pathNodes, List.map_map]
    rfl
  dsimp only at rest
  rw [keys, addPath] at rest
  dsimp only at rest
  rw [Forest.lookup_update (key_claim url), if_pos rfl] at rest
  obtain ⟨q, extended, rfl⟩ := Option.map_eq_some_iff.mp rest
  refine ⟨q, rfl, ?_⟩
  rcases Forest.mem_entries_extend (Forest.mem_entries_of_lookup PathData.key extended) with old | ⟨_, ⟨_, on⟩, -⟩
  · right
    have ordered := wf'.paths _ _ (Forest.mem_entries_of_lookup HostPart.key known)
    have again := Forest.lookup_of_mem_entries ordered pathOrder_irrefl old
    refine @node_of_addHost db.hosts host _ _ wf ?_
    rw [node, placeOf, known, Option.bind_some, keys]
    exact again
  · left
    have new : q ∈ pathNodes scheme (portInt url.components) path := by
      rw [← on]
      simp
    obtain ⟨segment, -, rfl⟩ := List.mem_map.mp new
    rfl

/-- The node of a URL, if it is there, has no URL yet or has this one. -/
def Unclaimed (hosts : Hosts) (place : Place) (url : Nsurl) : Prop :=
  ∀ p, node hosts place = some p → ∀ known, p.url = some known → known = Nsurl.nsurlDefragment url

/-- After every history of regular calls: a URL that is added is found at its own node, with itself as the URL of the
    node; the calls for URLs apart from it leave the data of its node as they are; and a URL that nothing stored begins
    like is not found. -/
theorem lookup_exact (env : Env) (history : List UrlCall) (regular : ∀ call ∈ history, RegularUrlOp call.op) (db : Db)
    (ran : urlRun env history = some db) (url : Nsurl) (scheme host path : List UInt8)
    (fileable : Fileable url scheme host path) :
    (Unclaimed db.hosts (placeOf url scheme host path) url →
      (addUrl db url).1 = true ∧ ∃ place p, findUrl (addUrl db url).2 url = some (some place) ∧
        node (addUrl db url).2.hosts place = some p ∧ NodeOf url scheme host path place p ∧
          p.url = some (Nsurl.nsurlDefragment url)) ∧
    (∀ p, node db.hosts (placeOf url scheme host path) = some p → p.url.isSome →
      ∀ call, RegularUrlOp call.op →
        (∀ other f, changeOf call.now call.op = some (other, f) → Apart db (placeOf url scheme host path) other) →
          ∀ db', urlStep env db call = some db' →
            (node db'.hosts (placeOf url scheme host path)).map data = some (data p)) ∧
    (Unbegun db.hosts url scheme host path → findUrl db url = some none) := by
  have wf := wellFormed_urlRun regular ran
  refine ⟨?_, ?_, fun unbegun => findUrl_unbegun wf fileable unbegun⟩
  · intro unclaimed
    obtain ⟨h, found, there⟩ := get_addUrl wf fileable
    obtain ⟨p, at'⟩ := isSome_iff_exists.mp there
    have inside : node (addUrl db url).2.hosts (placeOf url scheme host path) = some p := by
      rw [node, placeOf, found, Option.bind_some, at']
    refine ⟨addUrl_of_fileable fileable, placeOf url scheme host path, p, findUrl_addUrl wf fileable, inside,
      nodeOf_placeOf inside fileable.absolute, ?_⟩
    obtain ⟨q, rfl, before⟩ := node_addUrl wf fileable inside
    rcases known : q.url with _ | w
    · rw [PathData.claim, if_neg (by simp [known])]
    · rcases before with none | old
      · rw [none] at known
        cases known
      · rw [PathData.claim, if_pos (by simp [known]), known, unclaimed q old w known]
  · intro p found claimed call regular' apart db' stepped
    rcases change : changeOf call.now call.op with _ | ⟨other, f⟩
    · have settled := @settled_kept (placeOf url scheme host path) (data p) claimed
      refine kept_urlStep settled.where' ?_ (by rw [found, map_some]) (fits_of_regularOp regular') change stepped
      intro hosts name policy settled
      refine (node_modify ?_ ?_).trans settled
      · exact fun _ => rfl
      · exact fun _ => rfl
    · obtain ⟨keeps, rfl | ⟨place, sought, same⟩⟩ := urlStep_of_change change stepped
      · rw [found, map_some]
      · have differs : placeOf url scheme host path ≠ place := by
          rintro rfl
          exact findUrl_apart wf (apart other f change) sought
        rw [same, node_modifyNode keeps, if_neg differs, found, map_some]

/-- A history that adds two URLs of one host. -/
def twoUrls : List UrlCall :=
  [⟨0, .cookies (.addUrl (urlOf (lit "http://www.example.org/a/b")))⟩,
    ⟨0, .cookies (.addUrl (urlOf (lit "http://www.example.org/c")))⟩]

theorem fileable_example (schemeIs : url.components.scheme = some (lit "http"))
    (hostIs : hostStr url.components = some (lit "www.example.org")) (pathIs : pathQuery url.components = some path)
    (absolute : byteAt path 0 = ch '/') (portIs : url.components.port = none) :
    Fileable url (lit "http") (lit "www.example.org") path := by
  refine ⟨schemeIs, by decide +kernel, hostIs, fun _ => ⟨by decide +kernel, by decide +kernel⟩, pathIs, absolute, ?_⟩
  rw [portInt, portIs]
  decide

/-- The first of two URLs is found at its own node, and a visit to the second does not change it. -/
theorem lookup_exact_of_two : ∃ db place p db', urlRun plainEnv twoUrls = some db ∧
    findUrl (addUrl db (urlOf (lit "http://www.example.org/a/b"))).2 (urlOf (lit "http://www.example.org/a/b")) =
      some (some place) ∧
    p.url = some (Nsurl.nsurlDefragment (urlOf (lit "http://www.example.org/a/b"))) ∧
    urlStep plainEnv db ⟨1, .updateUrlVisitData (urlOf (lit "http://www.example.org/c"))⟩ = some db' ∧
    (node db'.hosts place).map data = some (data p) := by
  have first : Fileable (urlOf (lit "http://www.example.org/a/b")) (lit "http") (lit "www.example.org") (lit "/a/b") :=
    fileable_example (by decide +kernel) (by decide +kernel) (by decide +kernel) (by decide +kernel) (by decide +kernel)
  have second : Fileable (urlOf (lit "http://www.example.org/c")) (lit "http") (lit "www.example.org") (lit "/c") :=
    fileable_example (by decide +kernel) (by decide +kernel) (by decide +kernel) (by decide +kernel) (by decide +kernel)
  have regular : ∀ call ∈ twoUrls, RegularUrlOp call.op := by
    have host : ∀ url : Nsurl, urlHost url.components = some (lit "www.example.org") → RegularUrl url := by
      intro url known host same
      rw [known, some_inj] at same
      rw [← same]
      exact ⟨by decide +kernel, fun _ => ⟨by decide +kernel, by decide +kernel⟩⟩
    intro call member
    rcases List.mem_cons.mp member with rfl | member
    · exact host _ (by decide +kernel)
    · rw [List.mem_singleton.mp member]
      exact host _ (by decide +kernel)
  have returns : (urlRun plainEnv twoUrls).bind (fun db =>
      (urlStep plainEnv db ⟨1, .updateUrlVisitData (urlOf (lit "http://www.example.org/c"))⟩).map (fun _ =>
        ((node db.hosts (placeOf (urlOf (lit "http://www.example.org/a/b")) (lit "http") (lit "www.example.org")
          (lit "/a/b"))).map PathData.url,
        (node db.hosts (placeOf (urlOf (lit "http://www.example.org/c")) (lit "http") (lit "www.example.org")
          (lit "/c"))).isSome))) =
      some (some (some (Nsurl.nsurlDefragment (urlOf (lit "http://www.example.org/a/b")))), true) := by
    decide +kernel
  obtain ⟨db, ran, returns⟩ := Option.bind_eq_some_iff.mp returns
  obtain ⟨db', stepped, returns⟩ := Option.map_eq_some_iff.mp returns
  obtain ⟨known, there⟩ := Prod.mk.inj returns
  obtain ⟨p, found, url⟩ := Option.map_eq_some_iff.mp known
  have exact := lookup_exact plainEnv twoUrls regular db ran (urlOf (lit "http://www.example.org/a/b")) (lit "http")
    (lit "www.example.org") (lit "/a/b") first
  have settled := exact.2.1 p found (by rw [url]; rfl)
    ⟨1, .updateUrlVisitData (urlOf (lit "http://www.example.org/c"))⟩ trivial
    (by
      intro other f change
      cases change
      refine .inr ⟨_, _, _, second, .inl ⟨?_, there⟩⟩
      decide +kernel) db' stepped
  exact ⟨db, _, p, db', ran, findUrl_addUrl (wellFormed_urlRun regular ran) first, url, stepped, settled⟩

/-- A node that a cookie was filed at has the URL that set the cookie; and a URL that was never added finds the node of
    another, which comes after it and has the same bits in the Bloom filter. -/
theorem lookup_inexact :
    ((urlRun plainEnv [⟨0, .cookies (.setCookie (lit "n=v; Path=/\x0d\x0a")
      (urlOf (lit "http://www.example.org/a/b")) none)⟩]).any (fun db =>
        (addUrl db (urlOf (lit "http://www.example.org/"))).1 &&
          (findUrl (addUrl db (urlOf (lit "http://www.example.org/"))).2
            (urlOf (lit "http://www.example.org/"))).any (fun found => found.any (fun place =>
              (node (addUrl db (urlOf (lit "http://www.example.org/"))).2.hosts place).any (fun p =>
                p.url = some (Nsurl.nsurlDefragment (urlOf (lit "http://www.example.org/a/b")))))))) = true ∧
    ((urlRun plainEnv [⟨0, .cookies (.addUrl (urlOf (lit "http://h/ax/b?/ax/b")))⟩]).any (fun db =>
      (findUrl db (urlOf (lit "http://h/a/b?/a/b"))).any Option.isSome)) = true := by
  decide +kernel

end Besra.UrldbLookup
