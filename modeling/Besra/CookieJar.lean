import Besra.UrldbRun
import Mathlib.Data.List.Perm.Basic

/-!
The stored cookies as one list, and what a request looks at as a selection from it. A
node of the path tree is looked at once for each of its `sources`: these depend on its
address and on that of the node of the request only.
-/
namespace Besra.CookieJar
open Lwc NsurlParse CText SetCookie UrldbTree Urldb CookieStore List Forest
open UrldbFind UrldbRun

/-- A stored cookie, with its host and the address of its path node. -/
structure Item where
  name : HostName
  spot : Option (List PathKey)
  cookie : Cookie
deriving DecidableEq

def heldOnPaths (name : HostName) (h : HostPart) : List Item :=
  (h.paths.entries PathData.key).flatMap (fun e => e.2.cookies.map (⟨name, some e.1, ·⟩))

def held (name : HostName) (h : HostPart) : List Item := h.cookies.map (⟨name, none, ·⟩) ++ heldOnPaths name h

def jar (hosts : Hosts) : List Item := (hosts.tree.entries HostPart.key).flatMap (fun e => held e.1.reverse e.2)

variable {name : HostName} {i : Item} {scheme : LwcString} {path : List UInt8} {port : Nat} {url : Nsurl}
  {paths : Forest PathData} {p : PathData}

theorem mem_held {h : HostPart} : i ∈ held name h ↔ i.name = name ∧ Hangs h i.spot i.cookie := by
  obtain ⟨n, spot, c⟩ := i
  rw [held, mem_append, mem_map, heldOnPaths, mem_flatMap]
  constructor
  · rintro (⟨d, member, same⟩ | ⟨⟨address, p⟩, inside, member⟩)
    · cases same
      exact ⟨rfl, member⟩
    · obtain ⟨d, has, same⟩ := mem_map.mp member
      cases same
      exact ⟨rfl, p, inside, has⟩
  · rintro ⟨rfl, hangs⟩
    rcases spot with _ | address
    · exact .inl ⟨c, hangs, rfl⟩
    · obtain ⟨p, inside, has⟩ := hangs
      exact .inr ⟨(address, p), inside, mem_map.mpr ⟨c, has, rfl⟩⟩

theorem of_mem_heldOnPaths {h : HostPart} (member : i ∈ heldOnPaths name h) :
    i.name = name ∧ Hangs h i.spot i.cookie ∧ i.spot ≠ none := by
  obtain ⟨same, hangs⟩ := mem_held.mp (mem_append_right (h.cookies.map (⟨name, none, ·⟩)) member)
  refine ⟨same, hangs, ?_⟩
  obtain ⟨e, -, has⟩ := mem_flatMap.mp member
  obtain ⟨c, -, rfl⟩ := mem_map.mp has
  simp

theorem mem_jar {hosts : Hosts} : i ∈ jar hosts ↔ Stored hosts i.name i.spot i.cookie := by
  rw [jar, mem_flatMap]
  constructor
  · rintro ⟨⟨a, h⟩, inside, member⟩
    obtain ⟨same, hangs⟩ := mem_held.mp member
    rw [same]
    exact ⟨h, by rwa [reverse_reverse], hangs⟩
  · rintro ⟨h, inside, hangs⟩
    exact ⟨_, inside, mem_held.mpr ⟨(reverse_reverse _).symm, hangs⟩⟩

theorem held_addPath {h : HostPart} :
    held name { h with paths := (addPath scheme port h.paths path url).1 } = held name h := by
  have paths : heldOnPaths name { h with paths := (addPath scheme port h.paths path url).1 } = heldOnPaths name h := by
    rw [heldOnPaths, heldOnPaths, addPath]
    dsimp only
    rw [flatMap_update (key_claim url) (fun a p => by dsimp only; rw [cookies_claim]), flatMap_extend]
    intro p new a
    dsimp only
    rw [cookies_pathNodes new]
    rfl
  rw [held, held, paths]

theorem jar_addPathAt {hosts : Hosts} : jar (addPathAt hosts name scheme port path url) = jar hosts :=
  flatMap_update (fun _ => rfl) (fun _ _ => held_addPath)

theorem jar_grow {hosts : Hosts} {labels : List (List UInt8)} {search : Nat → AaTree HostName} :
    jar ⟨hosts.grow labels, search⟩ = jar hosts := by
  refine flatMap_extend ?_
  intro h new a
  obtain ⟨part, -, rfl⟩ := mem_map.mp new
  rfl

theorem jar_addHost {hosts : Hosts} {host : List UInt8} : jar (addHost hosts host).1 = jar hosts := by
  unfold addHost
  split
  · dsimp only
    split
    · rfl
    · exact jar_grow
  · exact jar_grow

theorem jar_addUrl {db : Db} : jar (addUrl db url).2.hosts = jar db.hosts := by
  unfold addUrl
  dsimp only
  split
  · exact jar_addPathAt.trans jar_addHost
  · rfl

/-- The loops that look at the node at an address, for a request at the node at `place`. -/
def sources : (place address : List PathKey) → List Source
  | [k], [q] =>
    (if k.2.2 ≠ [] ∧ q.2.2 = k.2.2 then [.exact] else []) ++ if q.2.2 = [] then [.directory] else []
  | k :: _ :: _, [q] => (if q = k then [.ancestor] else []) ++ if q.2.2 = [] then [.directory] else []
  | k :: k' :: ks, q :: q' :: qs => if q = k then sources (k' :: ks) (q' :: qs) else []
  | _, _ => []

theorem flatMap_filter {α β : Type} {l : List α} {p : α → Bool} {g : α → List β} :
    (l.filter p).flatMap g = l.flatMap (fun x => if p x then g x else []) := by
  induction l with
  | nil => rfl
  | cons x l ih =>
    rw [filter_cons, flatMap_cons, ← ih]
    split
    · rw [flatMap_cons]
    · rfl

def atTop (source : Source) (p : PathData → Bool) (e : List PathKey × PathData) : List Visit :=
  if e.1.length = 1 ∧ p e.2 then visits source e.2 else []

theorem siblings_visits {source : Source} {p : PathData → Bool} :
    ((paths.siblings.map Prod.fst).filter p).flatMap (visits source) =
      (paths.entries PathData.key).flatMap (atTop source p) := by
  have listed := @flatMap_siblings _ _ PathData.key _ (fun q => if p q then visits source q else []) paths
  rw [flatMap_filter, flatMap_map, ← listed]
  refine flatMap_congr (fun e _ => ?_)
  rw [atTop, ite_and]

theorem pathVisits_cons {cs : Forest PathData} {line : List (PathData × Forest PathData)} (more : line ≠ []) :
    pathVisits paths ((p, cs) :: line) = pathVisits cs line ++ visits .ancestor p ++ directoryVisits paths := by
  unfold pathVisits
  rw [reverse_cons]
  rcases last : line.reverse with _ | ⟨⟨q, qs⟩, above⟩
  · exact absurd (reverse_eq_nil_iff.mp last) more
  · rw [cons_append]
    dsimp only
    have beside : ((above ++ [(p, cs)]).map Prod.snd).headD paths = (above.map Prod.snd).headD cs := by
      rcases above with _ | ⟨first, above⟩ <;> rfl
    rw [beside, flatMap_append, flatMap_singleton]
    simp only [append_assoc]

/-- Every node is looked at once for each of its sources. -/
theorem pathVisits_perm {place : List PathKey} (ordered : paths.Ordered PathData.key PathOrder)
    (there : (paths.lookup PathData.key place).isSome) :
    (pathVisits paths (paths.line PathData.key place)).Perm
      ((paths.entries PathData.key).flatMap (fun e => (sources place e.1).flatMap (visits · e.2))) := by
  have single : ∀ {t : Forest PathData} {q : PathKey} {p : PathData}, ([q], p) ∈ t.entries PathData.key → q = p.key := by
    intro t q p inside
    exact Option.some_inj.mp (last_of_mem_entries inside)
  induction place generalizing paths with
  | nil => simp [Forest.lookup] at there
  | cons k place ih =>
    rw [Forest.lookup_cons] at there
    obtain ⟨v, found⟩ := Option.isSome_iff_exists.mp there
    obtain ⟨⟨p, cs⟩, first, rest⟩ := Option.bind_eq_some_iff.mp found
    obtain ⟨own, -⟩ := key_of_find PathData.key first
    have line : paths.line PathData.key (k :: place) = (p, cs) :: cs.line PathData.key place := by
      rw [Forest.line, first]
    rw [line]
    have directory : directoryVisits paths = (paths.entries PathData.key).flatMap (atTop .directory (·.segment = [])) :=
      siblings_visits
    rcases place with _ | ⟨k', ks⟩
    · -- the last level: the nodes of the same segment and the entries of the directory
      have segment : p.segment = k.2.2 := by
        rw [← own]
        rfl
      have exact : pathVisits paths [(p, cs)] =
          (paths.entries PathData.key).flatMap (atTop .exact (fun q => p.segment ≠ [] && q.segment = p.segment)) ++
            directoryVisits paths := by
        rw [← siblings_visits, pathVisits]
        by_cases empty : p.segment = [] <;> simp [empty]
      have split : ∀ e ∈ paths.entries PathData.key, (sources [k] e.1).flatMap (visits · e.2) =
          atTop .exact (fun q => p.segment ≠ [] && q.segment = p.segment) e ++
            atTop .directory (·.segment = []) e := by
        rintro ⟨a, q⟩ inside
        rcases a with _ | ⟨q', _ | ⟨q'', qs⟩⟩
        · exact absurd inside (ne_nil_of_mem_entries PathData.key)
        · obtain rfl := single inside
          have own : q.key.2.2 = q.segment := rfl
          by_cases empty : q.segment = [] <;> by_cases same : q.segment = k.2.2 <;> by_cases top : k.2.2 = [] <;>
            simp_all [sources, atTop]
        · simp [sources, atTop]
      rw [Forest.line, exact, directory, flatMap_congr split]
      exact flatMap_append_perm _ _ _
    · rw [if_neg (by simp)] at rest
      have below : cs.line PathData.key (k' :: ks) ≠ [] := line_ne_nil (by rw [rest]; rfl)
      have deeper := ih (ordered_of_find ordered first) (by rw [rest]; rfl)
      -- at the top of the way: the node itself and what is under it, and the entries of the directory
      have split : ∀ e ∈ paths.entries PathData.key, (sources (k :: k' :: ks) e.1).flatMap (visits · e.2) =
          (if e.1 = [k] then visits .ancestor e.2
            else if e.1.head? = some k then (sources (k' :: ks) e.1.tail).flatMap (visits · e.2) else []) ++
            atTop .directory (·.segment = []) e := by
        rintro ⟨a, q⟩ inside
        rcases a with _ | ⟨q', _ | ⟨q'', qs⟩⟩
        · exact absurd inside (ne_nil_of_mem_entries PathData.key)
        · obtain rfl := single inside
          have own : q.key.2.2 = q.segment := rfl
          by_cases empty : q.segment = [] <;> by_cases same : q.key = k <;> simp_all [sources, atTop]
        · by_cases same : q' = k <;> simp [sources, atTop, same]
      rw [pathVisits_cons below, directory, flatMap_congr split]
      refine List.Perm.trans (List.Perm.append_right _ ?_) (flatMap_append_perm _ _ _)
      rw [flatMap_of_silent ordered pathOrder_irrefl (k := k), first, Option.elim_some]
      · have inside : ∀ e ∈ cs.entries PathData.key, e.1 ≠ [] := by
          rintro ⟨a, q⟩ inside rfl
          exact ne_nil_of_mem_entries PathData.key inside
        rw [if_pos rfl]
        refine perm_append_comm.trans (List.Perm.append_left _ (deeper.trans (List.Perm.of_eq ?_)))
        refine flatMap_congr (fun e member => ?_)
        rw [if_neg (by simpa using inside e member), List.head?_cons, if_pos rfl, tail_cons]
      · intro q' a q other
        simp [other]

/-- The cookies of the visits that are sent. -/
def taken (sent : Visit → Bool) (vs : List Visit) : List Cookie := (vs.filter sent).map Visit.cookie

theorem taken_append {sent : Visit → Bool} {vs ws : List Visit} :
    taken sent (vs ++ ws) = taken sent vs ++ taken sent ws := by
  rw [taken, filter_append, map_append]
  rfl

theorem taken_flatMap {α : Type} {sent : Visit → Bool} {l : List α} {f : α → List Visit} :
    taken sent (l.flatMap f) = l.flatMap (fun x => taken sent (f x)) := by
  rw [taken, filter_flatMap, map_flatMap]
  rfl

theorem visits_perm {ss : List Source} :
    (ss.flatMap (visits · p)).Perm (p.cookies.flatMap (fun c => ss.map (⟨·, p.scheme, c⟩))) := by
  induction ss with
  | nil => simp
  | cons s ss ih =>
    rw [flatMap_cons]
    refine (List.Perm.append_left _ ih).trans ?_
    have first : visits s p = p.cookies.flatMap (fun c => [(⟨s, p.scheme, c⟩ : Visit)]) := by
      rw [visits, ← map_eq_flatMap]
    rw [first]
    exact flatMap_append_perm _ _ _

section
variable {hosts : Hosts} (wf : WellFormed hosts) {place : Place} {h : HostPart} {sent : Visit → Bool}
  {applies : Item → Bool}

include wf

theorem taken_pathVisits (found : hosts.get place.host = some h)
    (there : (h.paths.lookup PathData.key place.path).isSome)
    (once : ∀ i ∈ heldOnPaths place.host h, ∀ scheme address, i.spot = some address →
      taken sent ((sources place.path address).map (⟨·, scheme, i.cookie⟩)) = if applies i then [i.cookie] else []) :
    (taken sent (pathVisits h.paths (h.paths.line PathData.key place.path))).Perm
      (((heldOnPaths place.host h).filter applies).map Item.cookie) := by
  have inside := mem_entries_of_lookup HostPart.key found
  have looked := pathVisits_perm (wf.paths _ _ inside) there
  refine ((looked.filter sent).map Visit.cookie).trans ?_
  change (taken sent _).Perm _
  rw [taken_flatMap, heldOnPaths, filter_flatMap, map_flatMap]
  refine List.Perm.flatMap_left _ ?_
  rintro ⟨address, p⟩ member
  refine ((visits_perm.filter sent).map Visit.cookie).trans ?_
  change (taken sent _).Perm _
  rw [taken_flatMap, filter_map, map_map]
  refine List.Perm.of_eq ?_
  have each : ∀ c ∈ p.cookies, taken sent ((sources place.path address).map (⟨·, p.scheme, c⟩)) =
      if applies ⟨place.host, some address, c⟩ then [c] else [] := by
    intro c has
    refine once ⟨place.host, some address, c⟩ ?_ p.scheme address rfl
    exact mem_flatMap.mpr ⟨(address, p), member, mem_map.mpr ⟨c, has, rfl⟩⟩
  rw [flatMap_congr each, ← flatMap_filter, ← map_eq_flatMap]
  exact (map_id _).trans (map_id _).symm

theorem taken_domainVisits {scheme : LwcString}
    (exact : ∀ i ∈ jar hosts, i.spot = none →
      (decide (i.name <:+ place.host) && sent ⟨.domain, scheme, i.cookie⟩) = applies i) :
    (taken sent (domainVisits scheme (hosts.tree.line HostPart.key place.host.reverse))).Perm
      ((hosts.tree.entries HostPart.key).flatMap (fun e =>
        ((e.2.cookies.map (⟨e.1.reverse, none, ·⟩)).filter applies).map Item.cookie)) := by
  have upward : (domainVisits scheme (hosts.tree.line HostPart.key place.host.reverse)).Perm
      ((hosts.tree.line HostPart.key place.host.reverse).flatMap (fun n => n.1.cookies.map (⟨.domain, scheme, ·⟩))) :=
    List.Perm.flatMap_right _ (reverse_perm _)
  refine ((upward.filter sent).map Visit.cookie).trans (List.Perm.of_eq ?_)
  change taken sent _ = _
  have onLine := @flatMap_line _ _ HostPart.key _ (· ≠ ·) _ hosts.tree wf.distinct (fun _ => not_not_intro rfl)
    place.host.reverse (fun h => taken sent (h.cookies.map (⟨.domain, scheme, ·⟩)))
  rw [taken_flatMap, ← onLine]
  refine flatMap_congr ?_
  rintro ⟨a, h'⟩ member
  dsimp only
  have each : ∀ c ∈ h'.cookies, (decide (a.reverse <:+ place.host) && sent ⟨.domain, scheme, c⟩) =
      applies ⟨a.reverse, none, c⟩ := by
    intro c has
    refine exact ⟨a.reverse, none, c⟩ (mem_jar.mpr ⟨h', ?_, has⟩) rfl
    dsimp only
    rwa [reverse_reverse]
  have above : a <+: place.host.reverse ↔ a.reverse <:+ place.host := by
    rw [← reverse_suffix, reverse_reverse]
  rw [taken, filter_map, filter_map, map_map, map_map]
  split
  next on =>
    refine congrArg _ (filter_congr (fun c has => ?_))
    have this := each c has
    rw [decide_eq_true (above.mp on), Bool.true_and] at this
    exact this
  next off =>
    symm
    rw [map_eq_nil_iff, filter_eq_nil_iff]
    intro c has
    have this := each c has
    rw [decide_eq_false (fun on => off (above.mpr on)), Bool.false_and] at this
    simp [← this]

theorem taken_visited (found : hosts.get place.host = some h)
    (there : (h.paths.lookup PathData.key place.path).isSome)
    (once : ∀ i ∈ jar hosts, i.name = place.host → ∀ scheme address, i.spot = some address →
      taken sent ((sources place.path address).map (⟨·, scheme, i.cookie⟩)) = if applies i then [i.cookie] else [])
    (elsewhere : ∀ i ∈ jar hosts, i.name ≠ place.host → i.spot ≠ none → applies i = false)
    (exact : ∀ i ∈ jar hosts, ∀ scheme, i.spot = none →
      (decide (i.name <:+ place.host) && sent ⟨.domain, scheme, i.cookie⟩) = applies i) :
    (taken sent (visited hosts place)).Perm (((jar hosts).filter applies).map Item.cookie) := by
  have inside := mem_entries_of_lookup HostPart.key found
  obtain ⟨⟨p, cs⟩, last⟩ : ∃ n, (h.paths.line PathData.key place.path).getLast? = some n :=
    ⟨_, List.getLast?_eq_some_getLast (line_ne_nil there)⟩
  have apart : ((jar hosts).filter applies).map Item.cookie = (hosts.tree.entries HostPart.key).flatMap (fun e =>
      ((e.2.cookies.map (⟨e.1.reverse, none, ·⟩)).filter applies).map Item.cookie ++
        ((heldOnPaths e.1.reverse e.2).filter applies).map Item.cookie) := by
    rw [jar, filter_flatMap, map_flatMap]
    refine flatMap_congr (fun e _ => ?_)
    rw [held, filter_append, map_append]
  -- of the other hosts nothing on a path applies
  have one : (hosts.tree.entries HostPart.key).flatMap (fun e =>
      ((heldOnPaths e.1.reverse e.2).filter applies).map Item.cookie) =
        ((heldOnPaths place.host h).filter applies).map Item.cookie := by
    have only : ∀ e ∈ hosts.tree.entries HostPart.key, ((heldOnPaths e.1.reverse e.2).filter applies).map Item.cookie =
        if e.1 = place.host.reverse then ((heldOnPaths e.1.reverse e.2).filter applies).map Item.cookie else [] := by
      rintro e member
      split
      · rfl
      next other =>
        rw [map_eq_nil_iff, filter_eq_nil_iff]
        intro i has
        obtain ⟨name, -, spot⟩ := of_mem_heldOnPaths has
        have stored : i ∈ jar hosts := mem_flatMap.mpr ⟨e, member, mem_append_right _ has⟩
        have away : i.name ≠ place.host := by
          rw [name]
          intro same
          exact other (by rw [← same, reverse_reverse])
        rw [elsewhere i stored away spot]
        simp
    rw [flatMap_congr only, flatMap_lookup wf.distinct (fun _ => not_not_intro rfl) found]
    · rw [if_pos rfl, reverse_reverse]
    · intro a w other
      rw [if_neg other]
  unfold visited
  rw [found, apart]
  dsimp only
  rw [last, Option.elim_some, taken_append]
  refine List.Perm.trans ?_ (flatMap_append_perm _ _ _)
  rw [one]
  refine perm_append_comm.trans (List.Perm.append ?_ ?_)
  · exact taken_domainVisits wf (fun i member none => exact i member p.scheme none)
  · refine taken_pathVisits wf found there ?_
    intro i has scheme address spot
    refine once i ?_ (of_mem_heldOnPaths has).1 scheme address spot
    refine mem_flatMap.mpr ⟨_, inside, mem_append_right _ ?_⟩
    rwa [reverse_reverse]

end

end Besra.CookieJar
