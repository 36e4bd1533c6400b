import Besra.CookieLists
import Besra.TreeWalk

/-!
`urldb_delete_cookie` of `netsurf/content/urldb.c`. It goes over all hosts, and over the nodes of the paths of each,
root first. At the first node of a host that has the cookie it takes it out and leaves that host.
`Urldb.deleteFrom` says the same of the trees that hold their cookies themselves (`listsOf_deleteFrom`).
-/
namespace Besra.CookieDelete
open Lwc NsurlParse CText SetCookie UrldbTree Urldb UrldbFind List
open PointerChain DoublyLinked CookieLists TreeWalk

/-- The trees and the cookies of their nodes; the lists in the nodes of the model of the trees stay empty. -/
structure Store where
  hosts : Hosts := {}
  heap : Heap := {}

/-- `urldb_insert_cookie` -/
def insertCookie (s : Store) (now : Int) (c : Cookie) (scheme : LwcString) (url : Nsurl) : Option Store :=
  if byteAt c.domain 0 = ch '.' then
    let (hosts, name) := cookieHost s.hosts c.domain.tail
    (s.heap.insert now c ⟨name, none⟩).map (fun heap => { hosts, heap })
  else
    let (hosts, name) := cookieHost s.hosts c.domain
    let address := (pathNodes scheme 0 c.path).map PathData.key
    (s.heap.insert now c ⟨name, some address⟩).map (fun heap =>
      { hosts := addPathAt hosts name scheme 0 c.path url, heap })

def spotted (name : HostName) : List PathKey → Forest PathData → Forest Spot
  | _, .null => .null
  | above, .node p children next =>
    .node ⟨name, some (above ++ [p.key])⟩ (spotted name (above ++ [p.key]) children) (spotted name above next)

/-- What `urldb_delete_cookie_paths` does at a node. -/
def deleteAt (p : Cookie → Bool) (spot : Spot) (_ : Bool) (m : Heap) : Option (Heap × Bool) :=
  (seek m p m.allocated (m.chains.first spot)).map (fun found =>
    match found with
    | some c => ({ m with chains := m.chains.unlink spot c }.free c, false)
    | none => (m, true))

/-- `urldb_delete_cookie_paths` -/
def deleteCookiePaths (p : Cookie → Bool) (name : HostName) (paths : Forest PathData) (m : Heap) : Option Heap :=
  let children := spotted name [] paths
  (TreeWalk.walk (deleteAt p) (nodes (.node ⟨name, none⟩ children .null)).length ⟨⟨name, none⟩, children, .null, []⟩
    m).map Prod.fst

/-- `urldb_delete_cookie_hosts`, for the children of a host and those after them. -/
def deleteCookieHosts (p : Cookie → Bool) : HostName → Forest HostPart → Heap → Option Heap
  | _, .null, m => some m
  | above, .node h children next, m => do
    let m ← deleteCookiePaths p (h.key :: above) h.paths m
    let m ← deleteCookieHosts p (h.key :: above) children m
    deleteCookieHosts p above next m

/-- `urldb_delete_cookie`, which begins with `db_root`. -/
def deleteCookie (s : Store) (domain path name : List UInt8) : Option Store := do
  let m ← deleteCookiePaths (called domain path name) [] .null s.heap
  let m ← deleteCookieHosts (called domain path name) [] s.hosts.tree m
  return { s with heap := m }

/-- "last_used", which `urldb_get_cookie` writes. -/
def Heap.use (m : Heap) (now : Int) (used : Ptr → Bool) : Heap :=
  { m with cookie := fun n => (m.cookie n).map (fun c => if used n then { c with lastUsed := now } else c) }

/-- What the operations on cookies do to the trees and to the lists: `urldb_set_cookie` and `urldb_load_cookies` insert
    one cookie after another, `urldb_get_cookie` adds the URL and uses cookies. -/
inductive Op where
  | insertCookie (now : Int) (c : Cookie) (scheme : LwcString) (url : Nsurl)
  | deleteCookie (domain path name : List UInt8)
  | addUrl (url : Nsurl)
  | use (now : Int) (used : Ptr → Bool)

def step (s : Store) : Op → Option Store
  | .insertCookie now c scheme url => insertCookie s now c scheme url
  | .deleteCookie domain path name => deleteCookie s domain path name
  | .addUrl url => some { s with hosts := (addUrl { hosts := s.hosts } url).2.hosts }
  | .use now used => some { s with heap := Heap.use s.heap now used }

def run (history : List Op) : Option Store := history.foldlM step {}

def spotsOf (name : HostName) (paths : Forest PathData) : List Spot := ⟨name, none⟩ :: values (spotted name [] paths)

def hostSpots : HostName → Forest HostPart → List (List Spot)
  | _, .null => []
  | above, .node h children next =>
    spotsOf (h.key :: above) h.paths :: (hostSpots (h.key :: above) children ++ hostSpots above next)

def allSpots (hosts : Hosts) : List (List Spot) := spotsOf [] .null :: hostSpots [] hosts.tree

variable {name above : HostName} {paths : Forest PathData} {spot : Spot} {t : Forest HostPart} {url : Nsurl}
  {s : Store}

theorem host_of_spotted {above : List PathKey} (member : spot ∈ values (spotted name above paths)) :
    spot.host = name := by
  induction paths generalizing above with
  | null => exact absurd member not_mem_nil
  | node p children next ihc ihn =>
    rw [spotted, values, mem_cons, mem_append] at member
    rcases member with rfl | below | later
    · rfl
    · exact ihc below
    · exact ihn later

theorem host_of_spotsOf (member : spot ∈ spotsOf name paths) : spot.host = name := by
  rcases mem_cons.mp member with rfl | inside
  · rfl
  · exact host_of_spotted inside

theorem host_of_hostSpots {spots : List Spot} (listed : spots ∈ hostSpots above t) (member : spot ∈ spots) :
    ∃ k ∈ t.keys HostPart.key, k :: above <:+ spot.host := by
  induction t generalizing above with
  | null => exact absurd listed not_mem_nil
  | node h children next ihc ihn =>
    rw [hostSpots, mem_cons, mem_append] at listed
    rw [Forest.keys]
    rcases listed with rfl | below | later
    · exact ⟨h.key, mem_cons_self, by rw [host_of_spotsOf member]⟩
    · obtain ⟨k, -, ends⟩ := ihc below
      exact ⟨h.key, mem_cons_self, (suffix_cons k _).trans ends⟩
    · obtain ⟨k, inside, ends⟩ := ihn later
      exact ⟨k, mem_cons_of_mem _ inside, ends⟩

theorem part_unique {k k' : List UInt8} (ends : k :: above <:+ name) (ends' : k' :: above <:+ name) : k = k' :=
  (List.cons.inj ((suffix_of_suffix_length_le ends ends' le_rfl).eq_of_length rfl)).1

theorem hostSpots_apart (distinct : t.Ordered HostPart.key (· ≠ ·)) : (hostSpots above t).Pairwise List.Disjoint := by
  induction t generalizing above with
  | null => exact List.Pairwise.nil
  | node h children next ihc ihn =>
    obtain ⟨others, inner, later⟩ := distinct
    rw [hostSpots, pairwise_cons, pairwise_append]
    refine ⟨?_, ihc inner, ihn later, ?_⟩
    · intro spots listed spot own member
      rw [mem_append] at listed
      rcases listed with below | after
      · obtain ⟨k, -, ends⟩ := host_of_hostSpots below member
        have longer := ends.length_le
        rw [host_of_spotsOf own, length_cons] at longer
        exact Nat.not_succ_le_self _ longer
      · obtain ⟨k, inside, ends⟩ := host_of_hostSpots after member
        rw [host_of_spotsOf own] at ends
        exact others k inside (part_unique (suffix_refl _) ends)
    · intro spots below spots' after spot member member'
      obtain ⟨k, -, ends⟩ := host_of_hostSpots below member
      obtain ⟨k', inside, ends'⟩ := host_of_hostSpots after member'
      exact others k' inside (part_unique ((suffix_cons k _).trans ends) ends')

theorem allSpots_apart {hosts : Hosts} (distinct : hosts.tree.Ordered HostPart.key (· ≠ ·)) :
    (allSpots hosts).Pairwise List.Disjoint := by
  rw [allSpots, pairwise_cons]
  refine ⟨?_, hostSpots_apart distinct⟩
  intro spots listed spot own member
  obtain ⟨k, -, ends⟩ := host_of_hostSpots listed member
  rw [host_of_spotsOf own] at ends
  exact absurd ends.length_le (by simp)

section Delete
variable (p : Cookie → Bool)

def deleteIn (f : Spot → List Cookie) (spots : List Spot) : Spot → List Cookie :=
  (spots.find? (fun spot => (f spot).any p)).elim f (fun spot => Function.update f spot ((f spot).eraseP p))

variable {p} {f : Spot → List Cookie} {spots : List Spot}

theorem deleteIn_of_notMem {spot : Spot} (out : spot ∉ spots) : deleteIn p f spots spot = f spot := by
  rw [deleteIn]
  rcases found : spots.find? (fun spot => (f spot).any p) with _ | first
  · rfl
  · rw [Option.elim_some, Function.update_of_ne]
    rintro rfl
    exact out (List.mem_of_find?_eq_some found)

theorem deleteIn_congr {g : Spot → List Cookie} (same : ∀ spot ∈ spots, g spot = f spot) {spot : Spot}
    (member : spot ∈ spots) : deleteIn p g spots spot = deleteIn p f spots spot := by
  have sought : spots.find? (fun spot => (g spot).any p) = spots.find? (fun spot => (f spot).any p) :=
    List.find?_congr (fun spot member => by rw [same spot member])
  rw [deleteIn, deleteIn, sought]
  rcases found : spots.find? (fun spot => (f spot).any p) with _ | first
  · exact same spot member
  · rw [Option.elim_some, Option.elim_some, Function.update_apply, Function.update_apply, same spot member,
      same first (List.mem_of_find?_eq_some found)]

theorem filter_eraseP (l : List Cookie) : (l.eraseP p).filter (fun c => !p c) = l.filter (fun c => !p c) := by
  induction l with
  | nil => rfl
  | cons c l ih =>
    rw [eraseP_cons]
    rcases holds : p c
    · simp [holds, ih]
    · simp [holds]

theorem deleteIn_others (spot : Spot) :
    (deleteIn p f spots spot).filter (fun c => !p c) = (f spot).filter (fun c => !p c) := by
  rw [deleteIn]
  rcases spots.find? (fun spot => (f spot).any p) with _ | first
  · rfl
  · rw [Option.elim_some, Function.update_apply]
    split
    next here => rw [here, filter_eraseP]
    next => rfl

theorem deleteIn_clear_iff (single : ∀ spot, ((f spot).filter p).length ≤ 1) :
    (∀ spot ∈ spots, ∀ c ∈ deleteIn p f spots spot, p c = false) ↔
      ∀ spot ∈ spots, ∀ spot' ∈ spots, (f spot).any p → (f spot').any p → spot = spot' := by
  rw [deleteIn]
  rcases found : spots.find? (fun spot => (f spot).any p) with _ | first
  · have absent := List.find?_eq_none.mp found
    constructor
    · intro _ spot member _ _ holds
      exact absurd holds (absent spot member)
    · intro _ spot member c inside
      by_contra holds
      exact absent spot member (any_eq_true.mpr ⟨c, inside, by simpa using holds⟩)
  · rw [Option.elim_some]
    have has := List.find?_some found
    constructor
    · intro clear
      have only : ∀ spot ∈ spots, (f spot).any p → spot = first := by
        intro spot member holds
        by_contra other
        obtain ⟨c, inside, good⟩ := any_eq_true.mp holds
        have bad := clear spot member c (by rwa [Function.update_of_ne other])
        rw [good] at bad
        cases bad
      intro spot member spot' member' holds holds'
      rw [only spot member holds, only spot' member' holds']
    · intro one spot member c inside
      by_cases here : spot = first
      · subst here
        rw [Function.update_self] at inside
        by_contra holds
        have left : c ∈ ((f spot).eraseP p).filter p := mem_filter.mpr ⟨inside, by simpa using holds⟩
        obtain ⟨d, good, split⟩ : ∃ d, p d = true ∧ ((f spot).filter p) = d :: ((f spot).eraseP p).filter p := by
          obtain ⟨a, l, r, before, good, whole, erased⟩ := exists_of_eraseP (any_eq_true.mp has).choose_spec.1
            (any_eq_true.mp has).choose_spec.2
          refine ⟨a, good, ?_⟩
          have none' : l.filter p = [] := filter_eq_nil_iff.mpr (fun e member => by simpa using before e member)
          rw [erased, whole, filter_append, filter_append, none', filter_cons_of_pos good]
          rfl
        have short := single spot
        rw [split, length_cons] at short
        rw [length_eq_zero_iff.mp (Nat.le_zero.mp (Nat.le_of_succ_le_succ short))] at left
        exact absurd left not_mem_nil
      · rw [Function.update_of_ne here] at inside
        by_contra holds
        have any : (f spot).any p := any_eq_true.mpr ⟨c, inside, by simpa using holds⟩
        exact here (one spot member first (List.mem_of_find?_eq_some found) any has)

variable {hosts : List (List Spot)}

theorem foldl_of_notMem {spot : Spot} (out : ∀ spots ∈ hosts, spot ∉ spots) :
    hosts.foldl (deleteIn p) f spot = f spot := by
  induction hosts generalizing f with
  | nil => rfl
  | cons spots hosts ih =>
    rw [foldl_cons, ih (fun spots member => out spots (mem_cons_of_mem _ member)),
      deleteIn_of_notMem (out spots mem_cons_self)]

theorem foldl_at {spot : Spot} (apart : hosts.Pairwise List.Disjoint) (listed : spots ∈ hosts)
    (member : spot ∈ spots) : hosts.foldl (deleteIn p) f spot = deleteIn p f spots spot := by
  induction hosts generalizing f with
  | nil => exact absurd listed not_mem_nil
  | cons first hosts ih =>
    obtain ⟨here, later⟩ := pairwise_cons.mp apart
    rw [foldl_cons]
    rcases mem_cons.mp listed with rfl | after
    · exact foldl_of_notMem (fun other listed inside => here other listed member inside)
    · rw [ih later after]
      exact deleteIn_congr (fun spot' inside => deleteIn_of_notMem (fun own => here spots after own inside)) member

theorem foldl_others (spot : Spot) :
    (hosts.foldl (deleteIn p) f spot).filter (fun c => !p c) = (f spot).filter (fun c => !p c) := by
  induction hosts generalizing f with
  | nil => rfl
  | cons spots hosts ih => rw [foldl_cons, ih, deleteIn_others]

/-- The cookies in a node of a host of the database. -/
def listsOf (h : HostPart) : Option (List PathKey) → List Cookie
  | none => h.cookies
  | some address => (h.paths.lookup PathData.key address).elim [] PathData.cookies

theorem values_spotted (name : HostName) (above : List PathKey) (paths : Forest PathData) :
    values (spotted name above paths) = (paths.entries PathData.key).map (fun e => ⟨name, some (above ++ e.1)⟩) := by
  induction paths generalizing above with
  | null => rfl
  | node p children next ihc ihn =>
    rw [spotted, values, Forest.entries, ihc, ihn]
    simp

/-- `Urldb.deleteFrom` does to a host of the database what the walk over its nodes does to their lists. -/
theorem listsOf_deleteFrom {h : HostPart} (ordered : h.paths.Ordered PathData.key PathOrder)
    (name : HostName) (path : Option (List PathKey)) :
    listsOf (deleteFrom p h) path = deleteIn p (listsOf h ·.path) (spotsOf name h.paths) ⟨name, path⟩ := by
  have stored : ∀ e ∈ h.paths.entries PathData.key, listsOf h (some e.1) = e.2.cookies := by
    intro e member
    rw [listsOf, Forest.lookup_of_mem_entries ordered pathOrder_irrefl member]
    rfl
  have sought : (values (spotted name [] h.paths)).find? (fun spot => (listsOf h spot.path).any p) =
      ((h.paths.entries PathData.key).find? (fun e => e.2.cookies.any p)).map (fun e => ⟨name, some e.1⟩) := by
    rw [values_spotted, find?_map]
    exact congrArg _ (List.find?_congr fun e member => congrArg (List.any · p) (stored e member))
  have root : listsOf h none = h.cookies := rfl
  rw [deleteIn, spotsOf, find?_cons, sought, deleteFrom, root]
  by_cases here : h.cookies.any p = true
  · rw [if_pos here, here, Option.elim_some]
    cases path with
    | none => rw [Function.update_self, root, listsOf]
    | some address =>
      rw [Function.update_of_ne (by simp)]
      rfl
  · rw [if_neg here, Bool.eq_false_iff.mpr here]
    rcases found : (h.paths.entries PathData.key).find? (fun e => e.2.cookies.any p) with _ | ⟨first, node⟩
    · simp only [found]
      rfl
    · simp only [found, Option.map_some, Option.elim_some]
      cases path with
      | none =>
        rw [Function.update_of_ne (by simp)]
        rfl
      | some address =>
        rw [listsOf, Forest.lookup_update (by intro v; rfl), Function.update_apply]
        by_cases same : address = first
        · subst same
          rw [if_pos rfl, if_pos rfl, listsOf]
          rcases h.paths.lookup PathData.key address with _ | _ <;> rfl
        · rw [if_neg same, if_neg (by simpa using same)]
          rfl

end Delete

section Walks
variable {p : Cookie → Bool} {m : Heap} {lists : Spot → List Ptr}

theorem visit_deleteAt (tidy : Tidy m lists) (l : List (Spot × Bool)) :
    ∃ m' lists' more, visit (deleteAt p) l m = some (m', more) ∧ Tidy m' lists' ∧
      m'.cookiesAt = deleteIn p m.cookiesAt (l.map Prod.fst) := by
  induction l with
  | nil => exact ⟨m, lists, true, rfl, tidy, rfl⟩
  | cons e l ih =>
    obtain ⟨spot, leaf⟩ := e
    have sought := @seek_eq m p _ _ _ (tidy.linked.leads spot) (tidy.alive spot) (tidy.length_le spot)
    rw [visit, deleteAt, sought, Option.map_some, map_cons]
    rcases found : (lists spot).find? (fun n => (m.cookie n).any p) with _ | d
    · have absent : (m.cookiesAt spot).any p = false := by
        rw [tidy.cookiesAt, any_eq_false]
        intro c member
        simp [absent_all found c member]
      obtain ⟨m', lists', more, visited, settled, stored⟩ := ih
      refine ⟨m', lists', more, visited, settled, ?_⟩
      rw [stored, deleteIn, deleteIn, List.find?_cons, absent]
    · obtain ⟨left, right, c, is, here, holds, split, before⟩ := found_split found
      obtain ⟨settled, stored⟩ := tidy.removed is
      refine ⟨_, _, false, rfl, settled, ?_⟩
      have has : (m.cookiesAt spot).any p = true := by
        rw [tidy.cookiesAt, split, any_append, any_cons, holds]
        simp
      have erased : (m.cookiesAt spot).eraseP p = m.contents (left ++ right) := by
        rw [tidy.cookiesAt, split, eraseP_append_right _ (fun e member => by simp [before e member]),
          eraseP_cons_of_pos holds, contents_append]
      rw [stored, deleteIn, List.find?_cons, has, Option.elim_some, erased]

theorem deleteCookiePaths_spec (tidy : Tidy m lists) (name : HostName) (paths : Forest PathData) :
    ∃ m' lists', deleteCookiePaths p name paths m = some m' ∧ Tidy m' lists' ∧
      m'.cookiesAt = deleteIn p m.cookiesAt (spotsOf name paths) := by
  obtain ⟨m', lists', more, visited, settled, stored⟩ :=
    @visit_deleteAt p m lists tidy (nodes (.node ⟨name, none⟩ (spotted name [] paths) .null))
  refine ⟨m', lists', ?_, settled, ?_⟩
  · rw [deleteCookiePaths, walk_from _ _ _ _ _ le_rfl, visited]
    rfl
  · rw [stored, values_nodes, values, values, append_nil]
    rfl

theorem deleteCookieHosts_spec (tidy : Tidy m lists) (above : HostName) (t : Forest HostPart) :
    ∃ m' lists', deleteCookieHosts p above t m = some m' ∧ Tidy m' lists' ∧
      m'.cookiesAt = (hostSpots above t).foldl (deleteIn p) m.cookiesAt := by
  induction t generalizing above m lists with
  | null => exact ⟨m, lists, rfl, tidy, rfl⟩
  | node h children next ihc ihn =>
    obtain ⟨m₁, lists₁, own, tidy₁, stored₁⟩ := @deleteCookiePaths_spec p m lists tidy (h.key :: above) h.paths
    obtain ⟨m₂, lists₂, below, tidy₂, stored₂⟩ := ihc tidy₁ (h.key :: above)
    obtain ⟨m₃, lists₃, after, tidy₃, stored₃⟩ := ihn tidy₂ above
    refine ⟨m₃, lists₃, ?_, tidy₃, ?_⟩
    · rw [deleteCookieHosts, own, Option.bind_eq_bind, Option.bind_some, below, Option.bind_some, after]
    · rw [stored₃, stored₂, stored₁, hostSpots, foldl_cons, foldl_append]

theorem deleteCookie_spec {s : Store} (tidy : Tidy s.heap lists) (domain path name : List UInt8) :
    ∃ s' lists', deleteCookie s domain path name = some s' ∧ s'.hosts = s.hosts ∧ Tidy s'.heap lists' ∧
      s'.heap.cookiesAt = (allSpots s.hosts).foldl (deleteIn (called domain path name)) s.heap.cookiesAt := by
  obtain ⟨m₁, lists₁, root, tidy₁, stored₁⟩ :=
    @deleteCookiePaths_spec (called domain path name) s.heap lists tidy [] .null
  obtain ⟨m₂, lists₂, hosts, tidy₂, stored₂⟩ :=
    @deleteCookieHosts_spec (called domain path name) m₁ lists₁ tidy₁ [] s.hosts.tree
  refine ⟨{ s with heap := m₂ }, lists₂, ?_, rfl, tidy₂, ?_⟩
  · rw [deleteCookie, root, Option.bind_eq_bind, Option.bind_some, hosts]
    rfl
  · rw [stored₂, stored₁, allSpots, foldl_cons]

end Walks

/-- Siblings of the trees have different keys. -/
structure Distinct (hosts : Hosts) : Prop where
  tree : hosts.tree.Ordered HostPart.key (· ≠ ·)
  paths : ∀ a h, (a, h) ∈ hosts.tree.entries HostPart.key → h.paths.Ordered PathData.key PathOrder

theorem distinct_modify {hosts : Hosts} {f : HostPart → HostPart} (distinct : Distinct hosts)
    (keeps : ∀ h, (f h).key = h.key)
    (paths : ∀ h : HostPart, h.paths.Ordered PathData.key PathOrder → (f h).paths.Ordered PathData.key PathOrder) :
    Distinct (hosts.modify name f) := by
  refine ⟨Forest.ordered_update distinct.tree keeps, fun a h member => ?_⟩
  rcases Forest.mem_entries_update member keeps with old | ⟨-, h', old, rfl⟩
  · exact distinct.paths a h old
  · exact paths h' (distinct.paths a h' old)

theorem distinct_grow {hosts : Hosts} {labels : List (List UInt8)} {search : Nat → AaTree HostName}
    (distinct : Distinct hosts) : Distinct { tree := hosts.grow labels, search } := by
  refine ⟨ordered_grow distinct.tree labels, fun a h member => ?_⟩
  rcases Forest.mem_entries_extend member with old | ⟨before, ⟨after, on⟩, -⟩
  · exact distinct.paths a h old
  · have new : h ∈ hostNodes labels := by
      rw [← on]
      simp
    obtain ⟨part, -, rfl⟩ := mem_map.mp new
    exact trivial

theorem distinct_addHost {hosts : Hosts} {host : List UInt8} (distinct : Distinct hosts) :
    Distinct (addHost hosts host).1 := by
  unfold addHost
  split
  · dsimp only
    split
    · exact distinct
    · exact distinct_grow distinct
  · exact distinct_grow distinct

theorem distinct_cookieHost {hosts : Hosts} {domain : List UInt8} (distinct : Distinct hosts) :
    Distinct (cookieHost hosts domain).1 := by
  unfold cookieHost
  split
  · exact distinct
  · exact distinct_addHost distinct

theorem distinct_addPathAt {hosts : Hosts} {scheme : LwcString} {port : Nat} {path : List UInt8}
    (distinct : Distinct hosts) : Distinct (addPathAt hosts name scheme port path url) :=
  distinct_modify distinct (fun _ => rfl) (fun _ ordered => ordered_addPath ordered)

theorem distinct_addUrl {db : Db} (distinct : Distinct db.hosts) : Distinct (addUrl db url).2.hosts := by
  unfold addUrl
  dsimp only
  split
  · exact distinct_addPathAt (distinct_addHost distinct)
  · exact distinct

theorem cookie_use (m : Heap) (now : Int) (used : Ptr → Bool) (n : Ptr) : (Heap.use m now used).cookie n =
    (m.cookie n).map (fun c => if used n then { c with lastUsed := now } else c) := rfl

theorem tidy_use {m : Heap} {lists : Spot → List Ptr} (tidy : Tidy m lists) (now : Int) (used : Ptr → Bool) :
    Tidy (Heap.use m now used) lists := by
  refine ⟨tidy.linked, fun spot n member => ?_, fun n beyond => ?_, fun spot => ?_⟩
  · rw [cookie_use, Option.isSome_map]
    exact tidy.alive spot n member
  · rw [cookie_use, tidy.later n beyond]
    rfl
  · have same : ((Heap.use m now used).contents (lists spot)).map triple = (m.contents (lists spot)).map triple := by
      rw [Heap.contents, Heap.contents, map_filterMap, map_filterMap]
      refine filterMap_congr (fun n _ => ?_)
      rw [cookie_use, Option.map_map]
      refine congrFun (congrArg Option.map (funext fun c => ?_)) _
      rw [Function.comp_apply]
      split <;> rfl
    rw [same]
    exact tidy.single spot

/-- What holds after every history. -/
structure Sound (s : Store) : Prop where
  tidy : ∃ lists, Tidy s.heap lists
  distinct : Distinct s.hosts

theorem sound_insertCookie (sound : Sound s) (now : Int) (c : Cookie) (scheme : LwcString) (url : Nsurl) :
    ∃ s', insertCookie s now c scheme url = some s' ∧ Sound s' := by
  obtain ⟨⟨lists, tidy⟩, distinct⟩ := sound
  unfold insertCookie
  split
  · obtain ⟨m', lists', inserted, settled, -⟩ := insert_spec tidy now c ⟨(cookieHost s.hosts c.domain.tail).2, none⟩
    refine ⟨{ hosts := (cookieHost s.hosts c.domain.tail).1, heap := m' }, ?_, ⟨lists', settled⟩,
      distinct_cookieHost distinct⟩
    dsimp only
    rw [inserted]
    rfl
  · obtain ⟨m', lists', inserted, settled, -⟩ := insert_spec tidy now c
      ⟨(cookieHost s.hosts c.domain).2, some ((pathNodes scheme 0 c.path).map PathData.key)⟩
    refine ⟨⟨addPathAt (cookieHost s.hosts c.domain).1 (cookieHost s.hosts c.domain).2 scheme 0 c.path url, m'⟩, ?_,
      ⟨lists', settled⟩, distinct_addPathAt (distinct_cookieHost distinct)⟩
    dsimp only
    rw [inserted]
    rfl

theorem sound_step (sound : Sound s) (op : Op) : ∃ s', step s op = some s' ∧ Sound s' := by
  cases op with
  | insertCookie now c scheme url => exact sound_insertCookie sound now c scheme url
  | deleteCookie domain path name =>
    obtain ⟨lists, tidy⟩ := sound.tidy
    obtain ⟨s', lists', deleted, same, settled, -⟩ := deleteCookie_spec tidy domain path name
    exact ⟨s', deleted, ⟨lists', settled⟩, by rw [same]; exact sound.distinct⟩
  | addUrl url => exact ⟨_, rfl, sound.tidy, distinct_addUrl sound.distinct⟩
  | use now used =>
    obtain ⟨lists, tidy⟩ := sound.tidy
    exact ⟨_, rfl, ⟨lists, tidy_use tidy now used⟩, sound.distinct⟩

theorem sound_empty : Sound {} := by
  refine ⟨⟨fun _ => [], ?_⟩, ?_⟩
  · exact ⟨⟨fun _ => trivial, fun _ => rfl, fun _ => rfl, fun _ _ _ inside => absurd inside not_mem_nil⟩,
      fun _ _ inside => absurd inside not_mem_nil, fun _ _ => rfl, fun _ => nodup_nil⟩
  · exact ⟨trivial, fun _ _ member => absurd member not_mem_nil⟩

theorem sound_run (history : List Op) : ∃ s, run history = some s ∧ Sound s := by
  have from' : ∀ {start : Store}, Sound start → ∃ s, history.foldlM step start = some s ∧ Sound s := by
    intro start sound
    induction history generalizing start with
    | nil => exact ⟨start, rfl, sound⟩
    | cons op history ih =>
      obtain ⟨next, stepped, sound'⟩ := sound_step sound op
      rw [foldlM_cons, stepped]
      exact ih sound'
  exact from' sound_empty

/-- Every list is linked in both directions between the pointers of its node, over cookies that are not freed. -/
def WellLinked (m : Heap) : Prop :=
  ∃ lists, Linked m.chains lists ∧ ∀ spot, ∀ n ∈ lists spot, (m.cookie n).isSome

/-- No node of any host has the cookie, and the other cookies are where they were. -/
structure Deleted (s s' : Store) (domain path name : List UInt8) : Prop where
  linked : WellLinked s'.heap
  gone : ∀ spots ∈ allSpots s'.hosts, ∀ spot ∈ spots, ∀ c ∈ s'.heap.cookiesAt spot, called domain path name c = false
  others : ∀ spot, (s'.heap.cookiesAt spot).filter (fun c => !called domain path name c) =
    (s.heap.cookiesAt spot).filter (fun c => !called domain path name c)

/-- No host has the cookie at two nodes. -/
def OneNode (s : Store) (domain path name : List UInt8) : Prop :=
  ∀ spots ∈ allSpots s.hosts, ∀ spot ∈ spots, ∀ spot' ∈ spots, (s.heap.cookiesAt spot).any (called domain path name) →
    (s.heap.cookiesAt spot').any (called domain path name) → spot = spot'

theorem wellLinked_of_tidy {m : Heap} {lists : Spot → List Ptr} (tidy : Tidy m lists) : WellLinked m :=
  ⟨lists, tidy.linked, tidy.alive⟩

theorem single_called {l : List Cookie} (single : (l.map triple).Nodup) (domain path name : List UInt8) :
    (l.filter (called domain path name)).length ≤ 1 := by
  have all : (l.filter (called domain path name)).map triple =
      List.replicate (l.filter (called domain path name)).length (domain, path, name) := by
    refine eq_replicate_iff.mpr ⟨length_map _, fun t member => ?_⟩
    obtain ⟨c, inside, rfl⟩ := mem_map.mp member
    exact called_iff.mp (mem_filter.mp inside).2
  have nodup : ((l.filter (called domain path name)).map triple).Nodup := (filter_sublist.map triple).nodup single
  rw [all] at nodup
  exact nodup_replicate.mp nodup

/-- After every history the lists are well linked. To delete a cookie leaves them so and leaves the other cookies; it
    deletes the cookie everywhere if and only if no host has it at two nodes. -/
theorem deleted_iff (history : List Op) (domain path name : List UInt8) :
    ∃ s, run history = some s ∧ WellLinked s.heap ∧ ∃ s', deleteCookie s domain path name = some s' ∧
      (Deleted s s' domain path name ↔ OneNode s domain path name) := by
  obtain ⟨s, ran, ⟨lists, tidy⟩, distinct⟩ := sound_run history
  obtain ⟨s', lists', deleted, same, settled, stored⟩ := deleteCookie_spec tidy domain path name
  have apart := allSpots_apart distinct.tree
  have single : ∀ spot, ((s.heap.cookiesAt spot).filter (called domain path name)).length ≤ 1 := by
    intro spot
    rw [tidy.cookiesAt]
    exact single_called (tidy.single spot) domain path name
  have gone : (∀ spots ∈ allSpots s'.hosts, ∀ spot ∈ spots, ∀ c ∈ s'.heap.cookiesAt spot,
      called domain path name c = false) ↔ OneNode s domain path name := by
    rw [same, stored]
    refine forall₂_congr (fun spots listed => ?_)
    rw [← deleteIn_clear_iff single]
    exact forall₂_congr (fun spot member => by rw [foldl_at apart listed member])
  refine ⟨s, ran, wellLinked_of_tidy tidy, s', deleted, fun all => gone.mp all.gone, fun one => ?_⟩
  refine ⟨wellLinked_of_tidy settled, gone.mpr one, fun spot => ?_⟩
  rw [stored, foldl_others]

def hostCookie : Cookie where
  name := lit "n"
  value := lit "v"
  valueWasQuoted := false
  comment := none
  domainFromSet := false
  domain := lit "h"
  pathFromSet := false
  path := lit "/p"
  expires := -1
  lastUsed := 0
  secure := false
  httpOnly := false
  version := 0
  noDestroy := false

/-- A cookie that was set under two schemes is deleted under one. -/
theorem both_schemes_one_deleted : ∃ s s',
    run [.insertCookie 0 hostCookie (lit "http") (urlOf (lit "http://h/p")),
      .insertCookie 0 hostCookie (lit "https") (urlOf (lit "https://h/p"))] = some s ∧
    deleteCookie s (lit "h") (lit "/p") (lit "n") = some s' ∧ ¬Deleted s s' (lit "h") (lit "/p") (lit "n") := by
  have left : ((run [.insertCookie 0 hostCookie (lit "http") (urlOf (lit "http://h/p")),
      .insertCookie 0 hostCookie (lit "https") (urlOf (lit "https://h/p"))]).bind (fun s =>
        (deleteCookie s (lit "h") (lit "/p") (lit "n")).map (fun s' => (allSpots s'.hosts).any (fun spots =>
          spots.any (fun spot => (s'.heap.cookiesAt spot).any (called (lit "h") (lit "/p") (lit "n"))))))) =
      some true := by
    decide +kernel
  obtain ⟨s, ran, rest⟩ := Option.bind_eq_some_iff.mp left
  obtain ⟨s', deleted, holds⟩ := Option.map_eq_some_iff.mp rest
  refine ⟨s, s', ran, deleted, fun all => ?_⟩
  obtain ⟨spots, listed, inside⟩ := any_eq_true.mp holds
  obtain ⟨spot, member, has⟩ := any_eq_true.mp inside
  obtain ⟨c, there, is⟩ := any_eq_true.mp has
  rw [all.gone spots listed spot member c there] at is
  cases is

end Besra.CookieDelete
