import Besra.CookieStore
import Besra.HostNames

/-!
A URL that was added to the database is found, at its own node. This rests on an invariant of the trees: siblings have
different keys, path nodes are in the order of their segments, and the search trees hold the hosts that were added.
-/
namespace Besra.UrldbFind
open Lwc NsurlParse CText SetCookie UrldbTree Urldb CookieStore Forest List
open HostNames

def PathOrder (k k' : PathKey) : Prop := k ≠ k' ∧ (strcmp k.2.2 k'.2.2).isLE

theorem pathOrder_irrefl (k : PathKey) : ¬ PathOrder k k := fun related => related.1 rfl

variable {path host : List UInt8} {port : Nat} {scheme : LwcString} {url : Nsurl} {paths : Forest PathData}
  {hosts : Hosts} {name : HostName} {f : HostPart → HostPart} {db : Db}

theorem ordered_addPath (ordered : paths.Ordered PathData.key PathOrder) :
    (addPath scheme port paths path url).1.Ordered PathData.key PathOrder := by
  refine ordered_update (ordered_extend ordered ?_) (key_claim url)
  intro v _ t inside absent
  refine ordered_insertBefore inside ?_ ?_
  · intro w member no
    refine ⟨fun same => absent (same ▸ member), ?_⟩
    rcases side : strcmp w.segment v.segment
    · rw [show strcmp w.key.2.2 v.key.2.2 = .lt from side]
      rfl
    · rw [show strcmp w.key.2.2 v.key.2.2 = .eq from side]
      rfl
    · simp [side] at no
  · intro w k member member' yes related
    have less : strcmp v.segment w.segment = .lt := Std.OrientedCmp.lt_of_gt (of_decide_eq_true yes)
    refine ⟨fun same => absent (same ▸ member'), ?_⟩
    rcases related with rfl | ⟨-, le⟩
    · rw [show strcmp v.key.2.2 w.key.2.2 = .lt from less]
      rfl
    · have lt : strcmp v.key.2.2 k.2.2 = .lt := Std.TransCmp.lt_of_lt_of_isLE less le
      rw [lt]
      rfl

theorem compare_of_extension {s t : List UInt8} (start : s <+: t) : (strcmp s t).isLE := by
  obtain ⟨rest, rfl⟩ := start
  induction s with
  | nil => rcases rest with _ | ⟨c, rest⟩ <;> rfl
  | cons c s ih =>
    rw [strcmp, cons_append, List.compare_cons_cons, Std.ReflOrd.compare_self, Ordering.eq_then]
    exact ih

def pathKeys (scheme : LwcString) (port : Nat) (segments : List (List UInt8)) : List PathKey :=
  segments.map (fun segment => (scheme, port, segment))

theorem matchPath_eq {segments : List (List UInt8)} (ordered : paths.Ordered PathData.key PathOrder)
    (there : (paths.lookup PathData.key (pathKeys scheme port segments)).isSome) :
    matchPath scheme port segments paths = some (pathKeys scheme port segments) := by
  induction paths generalizing segments with
  | null => rcases segments with _ | ⟨segment, more⟩ <;> simp [pathKeys, Forest.lookup, Forest.find] at there
  | node p children next ihc ihn =>
    obtain ⟨here, below, later⟩ := ordered
    rcases segments with _ | ⟨segment, more⟩
    · simp [pathKeys, Forest.lookup] at there
    rw [pathKeys, map_cons, ← pathKeys, Forest.lookup_cons, Forest.find] at there
    rw [matchPath]
    by_cases own : p.key = (scheme, port, segment)
    · obtain ⟨rfl, rest⟩ := Prod.mk.inj own
      obtain ⟨rfl, rfl⟩ := Prod.mk.inj rest
      have whole : strncmp p.segment p.segment p.segment.length = .eq := strncmp_eq_iff.mpr (prefix_refl _)
      rw [if_pos ⟨whole, rfl, rfl⟩]
      rw [if_pos own, Option.bind_some] at there
      split
      next last =>
        rw [last]
        rfl
      next deeper =>
        rw [if_neg (by simpa [pathKeys] using deeper)] at there
        rw [ihc below there]
        rfl
    · rw [if_neg own] at there
      have behind : (scheme, port, segment) ∈ next.keys PathData.key := by
        by_contra absent
        rw [find_eq_none_iff.mpr absent] at there
        simp at there
      have order := here _ behind
      have noMatch : ¬ (strncmp p.segment segment segment.length = .eq ∧ p.scheme = scheme ∧ p.port = port) := by
        rintro ⟨start, rfl, rfl⟩
        have prefixed : segment <+: p.segment := by
          rw [strncmp, strcmp_eq_iff, take_length] at start
          rw [← start]
          exact take_prefix _ _
        have same : p.segment = segment := by
          have le : (strcmp p.segment segment).isLE := order.2
          exact strcmp_eq_iff.mp (Std.OrientedCmp.isLE_antisymm le (compare_of_extension prefixed))
        exact own (by rw [PathData.key, same])
      rw [if_neg noMatch]
      refine ihn later ?_
      rw [pathKeys, map_cons, ← pathKeys, Forest.lookup_cons]
      exact there

/-- The invariant of the trees. A top node is that of an IP address in its search tree, or of a last part that is
    none. -/
structure WellFormed (hosts : Hosts) : Prop where
  filed : Filed hosts.search
  distinct : hosts.tree.Ordered HostPart.key (· ≠ ·)
  paths : ∀ a h, (a, h) ∈ hosts.tree.entries HostPart.key → h.paths.Ordered PathData.key PathOrder
  indexed : ∀ i, ∀ name ∈ (hosts.search i).toList, (hosts.get name).isSome
  top : ∀ k ∈ hosts.tree.keys HostPart.key, [k] ∈ (hosts.search 0).toList ∨
    ∃ label, ch '.' ∉ label ∧ hostIsIpAddress label = false ∧ k = insensitive label

theorem wellFormed_empty : WellFormed {} where
  filed := filed_empty
  distinct := trivial
  paths := fun _ _ member => absurd member (by simp [Forest.entries])
  indexed := fun _ _ member => absurd member (by simp [AaTree.toList])
  top := fun _ member => absurd member (by simp [Forest.keys])

theorem keys_hostNodes (labels : List (List UInt8)) :
    (hostNodes labels).map HostPart.key = (labels.map insensitive).reverse := by
  rw [hostNodes, map_map, ← map_reverse]
  rfl

theorem ordered_grow (distinct : hosts.tree.Ordered HostPart.key (· ≠ ·)) (labels : List (List UInt8)) :
    (hosts.grow labels).Ordered HostPart.key (· ≠ ·) := by
  refine ordered_extend distinct ?_
  intro v _ t ordered absent
  refine ordered_insertBefore ordered (fun _ _ no => absurd no (by simp)) ?_
  intro w k _ member _ _ same
  exact absent (same ▸ member)

theorem paths_grow (wf : WellFormed hosts) (labels : List (List UInt8)) {a : List (List UInt8)} {h : HostPart}
    (member : (a, h) ∈ (hosts.grow labels).entries HostPart.key) : h.paths.Ordered PathData.key PathOrder := by
  rcases mem_entries_extend member with old | ⟨before, ⟨after, on⟩, -⟩
  · exact wf.paths a h old
  · have new : h ∈ hostNodes labels := by
      rw [← on]
      simp
    obtain ⟨part, -, rfl⟩ := mem_map.mp new
    exact trivial

theorem wellFormed_grow (wf : WellFormed hosts) {labels : List (List UInt8)} {i : Nat} (nonempty : labels ≠ [])
    (single : i = 0 → ∃ part, labels.map insensitive = [part])
    (top : ∀ last, labels.getLast? = some last → [insensitive last] ∈ (hosts.index i (labels.map insensitive) 0).toList ∨ ch '.' ∉ last ∧ hostIsIpAddress last = false) :
    WellFormed { tree := hosts.grow labels, search := hosts.index i (labels.map insensitive) } := by
  have lower : (labels.map insensitive).map insensitive = labels.map insensitive := by
    rw [map_map]
    exact map_congr_left (fun part _ => insensitive_idem part)
  have older : ∀ j, ∀ name ∈ (hosts.search j).toList, name ∈ (hosts.index i (labels.map insensitive) j).toList := by
    intro j name member
    unfold Hosts.index
    by_cases same : j = i
    · subst same
      rw [Function.update_self]
      exact AaTree.mem_insert.mpr (.inr member)
    · rw [Function.update_of_ne same]
      exact member
  refine ⟨filed_index wf.filed lower single, ordered_grow wf.distinct labels, fun a h => paths_grow wf labels, ?_, ?_⟩
  · intro j name member
    have cases' : name = labels.map insensitive ∨ name ∈ (hosts.search j).toList := by
      unfold Hosts.index at member
      by_cases same : j = i
      · subst same
        dsimp only at member
        rw [Function.update_self] at member
        exact AaTree.mem_insert.mp member
      · dsimp only at member
        rw [Function.update_of_ne same] at member
        exact .inr member
    rw [Hosts.get]
    rcases cases' with rfl | old
    · rw [← keys_hostNodes]
      exact lookup_extend (by simpa [hostNodes] using nonempty)
    · obtain ⟨h, found⟩ := Option.isSome_iff_exists.mp (wf.indexed j name old)
      rw [Hosts.get] at found
      rw [Hosts.grow, lookup_extend_of_some found]
      rfl
  · intro k member
    rcases ends : labels.reverse with _ | ⟨last, before⟩
    · exact absurd (reverse_eq_nil_iff.mp ends) nonempty
    · rw [Hosts.grow, hostNodes, ends, map_cons] at member
      have final : labels.getLast? = some last := by
        rw [List.getLast?_eq_head?_reverse, ends]
        rfl
      rcases mem_keys_extend member with rfl | old
      · rcases top last final with there | ⟨noDot, noIp⟩
        · exact .inl there
        · exact .inr ⟨last, noDot, noIp, rfl⟩
      · rcases wf.top k old with there | name
        · exact .inl (older 0 _ there)
        · exact .inr name

theorem wellFormed_addHost (wf : WellFormed hosts) (plain : Plain host) : WellFormed (addHost hosts host).1 := by
  unfold addHost
  by_cases ip : hostIsIpAddress host = true
  · rw [if_pos ip]
    dsimp only
    split
    · exact wf
    · refine wellFormed_grow wf (by simp) (fun _ => ⟨_, rfl⟩) ?_
      intro last same
      rw [List.getLast?_singleton, Option.some_inj] at same
      subst same
      left
      unfold Hosts.index
      rw [Function.update_self]
      exact AaTree.mem_insert.mpr (.inl rfl)
  · rw [if_neg ip]
    obtain ⟨short, noIp⟩ := plain (by simpa using ip)
    rw [take_of_length_le (by unfold hostBuffer at short ⊢; omega)]
    refine wellFormed_grow wf (parts_ne_nil host) ?_ ?_
    · intro zero
      exact absurd zero (getSearchTree_ne_zero (noIp _ (headD_mem_parts host)))
    · intro last same
      have member : last ∈ parts host := List.mem_of_getLast? same
      exact .inr ⟨dot_notMem_part member, noIp last member⟩

theorem get_modify (keeps : ∀ h, (f h).part = h.part) (other : HostName) :
    (hosts.modify name f).get other = if other = name then (hosts.get other).map f else hosts.get other := by
  have keys : ∀ h, (f h).key = h.key := by
    intro h
    rw [HostPart.key, HostPart.key, keeps]
  rw [Hosts.get, Hosts.modify, lookup_update keys, Hosts.get]
  simp only [reverse_inj]

theorem wellFormed_modify (wf : WellFormed hosts) (keeps : ∀ h, (f h).part = h.part)
    (paths : ∀ h, h.paths.Ordered PathData.key PathOrder → (f h).paths.Ordered PathData.key PathOrder) :
    WellFormed (hosts.modify name f) := by
  have keys : ∀ h, (f h).key = h.key := by
    intro h
    rw [HostPart.key, HostPart.key, keeps]
  refine ⟨wf.filed, ordered_update wf.distinct keys, ?_, ?_, ?_⟩
  · intro a h member
    rcases mem_entries_update member keys with old | ⟨-, h', old, rfl⟩
    · exact wf.paths a h old
    · exact paths h' (wf.paths a h' old)
  · intro i other member
    have found := wf.indexed i other member
    rw [get_modify keeps]
    split
    · rw [Option.isSome_map]
      exact found
    · exact found
  · intro k member
    refine wf.top k ?_
    rw [Hosts.modify] at member
    dsimp only at member
    rwa [keys_update keys] at member

theorem getSearchTree_first (name : hostIsIpAddress host = false) (plain : Plain host) :
    getSearchTree ((parts host).headD []) = getSearchTree host := by
  have noIp := (plain name).2 _ (headD_mem_parts host)
  unfold getSearchTree
  rw [name, noIp]
  have first : isAlpha (byteAt ((parts host).headD []) 0) = isAlpha (byteAt host 0) ∧
      (isAlpha (byteAt host 0) = true → byteAt ((parts host).headD []) 0 = byteAt host 0) := by
    rcases host with _ | ⟨c, host⟩
    · exact ⟨rfl, fun _ => rfl⟩
    · rw [parts, splitOn_cons_eq_if_modifyHead]
      by_cases dot : c = ch '.'
      · subst dot
        refine ⟨rfl, fun impossible => absurd impossible ?_⟩
        change ¬ isAlpha (ch '.') = true
        decide
      · rw [if_neg (by simp [dot])]
        rcases split : host.splitOn (ch '.') with _ | ⟨part, more⟩
        · exact absurd split (splitOn_ne_nil _ _)
        · exact ⟨rfl, fun _ => rfl⟩
  rw [first.1]
  by_cases letter : isAlpha (byteAt host 0) = true
  · rw [first.2 letter]
  · rw [if_neg letter, if_neg letter]

theorem mem_search_addHost (wf : WellFormed hosts) (plain : Plain host) :
    nameOf host ∈ ((addHost hosts host).1.search (getSearchTree host)).toList := by
  unfold addHost nameOf
  by_cases ip : hostIsIpAddress host = true
  · have zero : getSearchTree host = 0 := by simp [getSearchTree, ip]
    rw [if_pos ip, if_pos ip, zero]
    dsimp only
    split
    next known =>
      have member : insensitive host ∈ hosts.tree.keys HostPart.key := by
        by_contra absent
        rw [find_eq_none_iff.mpr absent] at known
        simp at known
      rcases wf.top _ member with there | ⟨label, noDot, noIp, same⟩
      · exact there
      · -- a part that is no address is not an address in another case
        rw [hostIsIpAddress_congr same, noIp] at ip
        cases ip
    next =>
      unfold Hosts.index
      dsimp only
      rw [Function.update_self]
      exact AaTree.mem_insert.mpr (.inl rfl)
  · have name : hostIsIpAddress host = false := by simpa using ip
    rw [if_neg ip, if_neg ip]
    obtain ⟨short, -⟩ := plain name
    rw [take_of_length_le (by unfold hostBuffer at short ⊢; omega)]
    dsimp only
    rw [getSearchTree_first name plain, Hosts.index, Function.update_self]
    exact AaTree.mem_insert.mpr (.inl rfl)

theorem segments_ne_nil (path : List UInt8) : segments path ≠ [] := splitOn_ne_nil _ _

/-- A URL that the database can file: it has a plain host, a path from a slash on, and a port of 16 bits. -/
structure Fileable (url : Nsurl) (scheme host path : List UInt8) : Prop where
  schemeIs : url.components.scheme = some scheme
  notMailto : scheme ≠ lit "mailto"
  hostIs : hostStr url.components = some host
  plain : Plain host
  pathIs : pathQuery url.components = some path
  absolute : byteAt path 0 = ch '/'
  portFits : portInt url.components < 2 ^ 16

def placeOf (url : Nsurl) (scheme host path : List UInt8) : Place :=
  ⟨nameOf host, pathKeys scheme (portInt url.components) (segments path)⟩

theorem hosts_addUrl {scheme : List UInt8} (fileable : Fileable url scheme host path) :
    (addUrl db url).2.hosts =
      addPathAt (addHost db.hosts host).1 (nameOf host) scheme (portInt url.components) path url := by
  unfold addUrl
  dsimp only
  rw [fileable.pathIs, fileable.schemeIs, fileable.hostIs]
  dsimp only
  rw [addHost_name fileable.plain]

theorem wellFormed_addPathAt (wf : WellFormed hosts) : WellFormed (addPathAt hosts name scheme port path url) :=
  wellFormed_modify wf (fun _ => rfl) (fun _ ordered => ordered_addPath ordered)

theorem get_addUrl {scheme : List UInt8} (wf : WellFormed db.hosts) (fileable : Fileable url scheme host path) :
    ∃ h, (addUrl db url).2.hosts.get (nameOf host) = some h ∧
      (h.paths.lookup PathData.key (pathKeys scheme (portInt url.components) (segments path))).isSome := by
  rw [hosts_addUrl fileable]
  obtain ⟨h, found⟩ := Option.isSome_iff_exists.mp
    ((wellFormed_addHost wf fileable.plain).indexed _ _ (mem_search_addHost wf fileable.plain))
  rw [addPathAt, get_modify, if_pos rfl, found]
  swap
  · exact fun _ => rfl
  refine ⟨_, rfl, ?_⟩
  have keys : pathKeys scheme (portInt url.components) (segments path) =
      (pathNodes scheme (portInt url.components) path).map PathData.key := by
    rw [pathNodes, map_map]
    rfl
  dsimp only
  rw [keys, addPath]
  dsimp only
  rw [lookup_update (key_claim url), if_pos rfl, Option.isSome_map]
  exact lookup_extend (by simpa [pathNodes] using segments_ne_nil path)

theorem findUrl_addUrl {scheme : List UInt8} (wf : WellFormed db.hosts) (fileable : Fileable url scheme host path) :
    findUrl (addUrl db url).2 url = some (some (placeOf url scheme host path)) := by
  have wf' : WellFormed (addUrl db url).2.hosts := by
    rw [hosts_addUrl fileable]
    exact wellFormed_addPathAt (wellFormed_addHost wf fileable.plain)
  obtain ⟨h, found, there⟩ := get_addUrl wf fileable
  have known : (addUrl db url).2.bloom = some (bloomIndex url.hash :: db.bloom.getD []) := by
    unfold addUrl
    dsimp only
    split <;> rfl
  have sought : searchFind ((addUrl db url).2.hosts.search (getSearchTree host)) host = some (nameOf host) := by
    refine searchFind_of_mem wf'.filed ?_
    rw [hosts_addUrl fileable]
    exact mem_search_addHost wf fileable.plain
  have inside := mem_entries_of_lookup HostPart.key found
  have same := matchPath_eq (wf'.paths _ _ inside) there
  unfold findUrl
  rw [known, fileable.schemeIs, fileable.hostIs, fileable.pathIs]
  simp only [Option.any_some, contains_cons, BEq.rfl, Bool.true_or, Bool.not_true, Bool.false_eq_true, if_false,
    Option.some_inj, fileable.notMailto, sought, found, fileable.absolute, ne_eq, not_true_eq_false,
    Nat.mod_eq_of_lt fileable.portFits, same, Option.map_some, placeOf]

end Besra.UrldbFind
