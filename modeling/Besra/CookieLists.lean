import Besra.DoublyLinked
import Besra.UrldbRun

/-!
The cookies of `netsurf/content/urldb.c` in memory. A node of the paths of a host has pointers to its first and to its
last cookie, and the cookies are linked in both directions.
-/
namespace Besra.CookieLists
open Lwc NsurlParse CText SetCookie UrldbTree Urldb Function List
open PointerChain DoublyLinked

abbrev Ptr := Nat

/-- A node of the paths of a host: the root, or one with an address. -/
structure Spot where
  host : HostName
  path : Option (List PathKey)
deriving DecidableEq

/-- The cookies that are allocated and not freed, with their links and those of the nodes. -/
structure Heap where
  cookie : Ptr → Option Cookie := fun _ => none
  chains : Chains Spot Ptr := ⟨fun _ => none, fun _ => none, fun _ => none, fun _ => none⟩
  allocated : Nat := 0

/-- The first cookie with a property, from a pointer on; the cookies that are read must not be freed. -/
def seek (m : Heap) (p : Cookie → Bool) : Nat → Option Ptr → Option (Option Ptr)
  | _, none => some none
  | 0, some _ => none
  | fuel + 1, some d =>
    match m.cookie d with
    | none => none
    | some c => if p c then some (some d) else seek m p fuel (m.chains.next d)

/-- `urldb_free_cookie` -/
def Heap.free (m : Heap) (d : Ptr) : Heap := { m with cookie := update m.cookie d none }

/-- "add cookie", as `urldb_insert_cookie` ends, for a cookie that was allocated. -/
def Heap.insert (m : Heap) (now : Int) (c : Cookie) (spot : Spot) : Option Heap :=
  let new := m.allocated
  let m := { m with cookie := update m.cookie new (some c), allocated := new + 1 }
  (seek m (called c.domain c.path c.name) m.allocated (m.chains.first spot)).map (fun found =>
    match found with
    | some d =>
      if c.expires ≠ -1 ∧ c.expires < now then ({ m with chains := m.chains.unlinkBack spot d }.free d).free new
      else { m with chains := m.chains.replace spot d new }.free d
    | none => { m with chains := m.chains.append spot new })

theorem cookie_free (m : Heap) (d n : Ptr) : (m.free d).cookie n = if n = d then none else m.cookie n :=
  update_apply m.cookie d none n

def triple (c : Cookie) : List UInt8 × List UInt8 × List UInt8 := (c.domain, c.path, c.name)

def Heap.contents (m : Heap) (ns : List Ptr) : List Cookie := ns.filterMap m.cookie

def Heap.cookiesAt (m : Heap) (spot : Spot) : List Cookie :=
  m.contents ((walk m.chains.next m.allocated (m.chains.first spot)).getD [])

/-- The lists are linked, their cookies are not freed, and no list has two with one domain, path and name. -/
structure Tidy (m : Heap) (lists : Spot → List Ptr) : Prop where
  linked : Linked m.chains lists
  alive : ∀ spot, ∀ n ∈ lists spot, (m.cookie n).isSome
  later : ∀ n, m.allocated ≤ n → m.cookie n = none
  single : ∀ spot, ((m.contents (lists spot)).map triple).Nodup

variable {m : Heap} {lists : Spot → List Ptr}

variable {c : Cookie} {n d : Ptr} {spot : Spot} {m' : Heap} {ns r : List Ptr} {p : Cookie → Bool} {now : Int}

theorem called_iff {domain path name : List UInt8} :
    called domain path name c = true ↔ triple c = (domain, path, name) := by
  simp [called, triple, and_assoc]

theorem Tidy.lt (tidy : Tidy m lists) (member : n ∈ lists spot) : n < m.allocated := by
  by_contra beyond
  have alive := tidy.alive spot n member
  rw [tidy.later n (Nat.le_of_not_lt beyond)] at alive
  cases alive

theorem Tidy.length_le (tidy : Tidy m lists) (spot : Spot) : (lists spot).length ≤ m.allocated := by
  have inside : lists spot ⊆ List.range m.allocated := fun n member => mem_range.mpr (tidy.lt member)
  have bounded := ((tidy.linked.nodup spot).subperm inside).length_le
  rwa [length_range] at bounded

theorem Tidy.cookiesAt (tidy : Tidy m lists) (spot : Spot) : m.cookiesAt spot = m.contents (lists spot) := by
  rw [Heap.cookiesAt, walk_eq (tidy.linked.leads spot) (tidy.length_le spot), Option.getD_some]

theorem seek_eq {p : Cookie → Bool} {fuel : Nat} {start : Option Ptr} {ns : List Ptr}
    (leads : Leads m.chains.next start ns none) (alive : ∀ n ∈ ns, (m.cookie n).isSome) (enough : ns.length ≤ fuel) :
    seek m p fuel start = some (ns.find? (fun n => (m.cookie n).any p)) := by
  induction ns generalizing start fuel with
  | nil =>
    rw [show start = none from leads]
    rcases fuel with _ | fuel <;> rfl
  | cons n ns ih =>
    obtain ⟨rfl, rest⟩ := leads
    rcases fuel with _ | fuel
    · simp at enough
    · obtain ⟨c, here⟩ := Option.isSome_iff_exists.mp (alive n mem_cons_self)
      have step : seek m p (fuel + 1) (some n) =
          if p c = true then some (some n) else seek m p fuel (m.chains.next n) := by
        rw [seek, here]
      rw [step, List.find?_cons, here, Option.any_some]
      rcases p c
      · exact ih rest (fun k member => alive k (mem_cons_of_mem _ member)) (by simpa using enough)
      · rfl

theorem contents_append (l r : List Ptr) : m.contents (l ++ r) = m.contents l ++ m.contents r := filterMap_append

theorem contents_cons (here : m.cookie n = some c) (ns : List Ptr) :
    m.contents (n :: ns) = c :: m.contents ns := filterMap_cons_some here

theorem contents_congr (cookies : ∀ n ∈ ns, m'.cookie n = m.cookie n) :
    m'.contents ns = m.contents ns := filterMap_congr cookies

theorem mem_contents : c ∈ m.contents ns ↔ ∃ n ∈ ns, m.cookie n = some c :=
  mem_filterMap

theorem found_split (found : ns.find? (fun n => (m.cookie n).any p) = some d) :
    ∃ l r c, ns = l ++ d :: r ∧ m.cookie d = some c ∧ p c = true ∧ (m.contents ns) = m.contents l ++ c :: m.contents r ∧
      ∀ e ∈ m.contents l, p e = false := by
  obtain ⟨has, l, r, rfl, before⟩ := List.find?_eq_some_iff_append.mp found
  obtain ⟨c, here, holds⟩ := (Option.any_eq_true _ _).mp has
  refine ⟨l, r, c, rfl, here, holds, ?_, ?_⟩
  · rw [contents_append, contents_cons here]
  · intro e member
    obtain ⟨n, inside, is⟩ := mem_contents.mp member
    have no := before n inside
    rw [is] at no
    simpa using no

theorem absent_all (none' : ns.find? (fun n => (m.cookie n).any p) = none) : ∀ e ∈ m.contents ns, p e = false := by
  intro e member
  obtain ⟨n, inside, is⟩ := mem_contents.mp member
  have no := List.find?_eq_none.mp none' n inside
  rw [is] at no
  simpa using no

theorem storeCookie_found {d : Cookie} {l r : List Cookie} (has : called c.domain c.path c.name d = true)
    (before : ∀ e ∈ l, called c.domain c.path c.name e = false) :
    storeCookie now c (l ++ d :: r) = if c.expires ≠ -1 ∧ c.expires < now then l ++ r else l ++ c :: r := by
  have index : (l ++ d :: r).findIdx? (called c.domain c.path c.name) = some l.length := by
    rw [List.findIdx?_append, List.findIdx?_eq_none_iff.mpr before, List.findIdx?_cons, has]
    simp
  unfold called at index
  rw [storeCookie, index]
  dsimp only
  rw [eraseIdx_append_of_length_le le_rfl, set_append_right _ _ le_rfl, Nat.sub_self, eraseIdx_cons_zero, set_cons_zero]

theorem storeCookie_absent {l : List Cookie} (none' : ∀ e ∈ l, called c.domain c.path c.name e = false) :
    storeCookie now c l = l ++ [c] := by
  have missing : l.findIdx? (called c.domain c.path c.name) = none := List.findIdx?_eq_none_iff.mpr none'
  unfold called at missing
  rw [storeCookie, missing]

theorem Tidy.changed (tidy : Tidy m lists) (linked : Linked m'.chains (update lists spot ns))
    (alive : ∀ n ∈ ns, (m'.cookie n).isSome) (later : ∀ n, m'.allocated ≤ n → m'.cookie n = none)
    (others : ∀ i, i ≠ spot → ∀ n ∈ lists i, m'.cookie n = m.cookie n) (single : ((m'.contents ns).map triple).Nodup) :
    Tidy m' (update lists spot ns) ∧
      m'.cookiesAt = update m.cookiesAt spot (m'.contents ns) := by
  have settled : Tidy m' (update lists spot ns) := by
    refine ⟨linked, ?_, later, ?_⟩
    · intro i n member
      by_cases here : i = spot
      · subst here
        rw [update_self] at member
        exact alive n member
      · rw [update_of_ne here] at member
        rw [others i here n member]
        exact tidy.alive i n member
    · intro i
      by_cases here : i = spot
      · subst here
        rwa [update_self]
      · rw [update_of_ne here, contents_congr (others i here)]
        exact tidy.single i
  refine ⟨settled, funext fun i => ?_⟩
  rw [settled.cookiesAt]
  by_cases here : i = spot
  · subst here
    rw [update_self, update_self]
  · rw [update_of_ne here, update_of_ne here, tidy.cookiesAt, contents_congr (others i here)]

theorem not_mem_of_split {l : List Ptr} (tidy : Tidy m lists) (is : lists spot = l ++ d :: r) : d ∉ l ++ r := by
  have nodup := tidy.linked.nodup spot
  rw [is] at nodup
  exact (nodup_cons.mp (nodup_middle.mp nodup)).1

theorem Tidy.removed {spot : Spot} {l r : List Ptr} {d : Ptr} (tidy : Tidy m lists) (is : lists spot = l ++ d :: r) :
    Tidy ({ m with chains := m.chains.unlink spot d }.free d) (update lists spot (l ++ r)) ∧
      ({ m with chains := m.chains.unlink spot d }.free d).cookiesAt =
        update m.cookiesAt spot (m.contents (l ++ r)) := by
  have out := not_mem_of_split tidy is
  have unchanged : ∀ n, n ≠ d → ({ m with chains := m.chains.unlink spot d }.free d).cookie n = m.cookie n := by
    intro n other
    rw [cookie_free, if_neg other]
  have kept : ({ m with chains := m.chains.unlink spot d }.free d).contents (l ++ r) = m.contents (l ++ r) :=
    contents_congr (fun n member => unchanged n (fun same => out (same ▸ member)))
  have part : (l ++ r).Sublist (lists spot) := by
    rw [is]
    exact (List.Sublist.refl l).append (sublist_cons_self d r)
  rw [← kept]
  refine tidy.changed (tidy.linked.unlink is) ?_ ?_ ?_ ?_
  · intro n member
    rw [unchanged n (fun same => out (same ▸ member))]
    exact tidy.alive spot n (part.subset member)
  · intro n beyond
    rw [cookie_free]
    split
    · rfl
    · exact tidy.later n beyond
  · intro i other n member
    refine unchanged n (fun same => other (tidy.linked.apart i spot n member ?_))
    rw [is, same]
    simp
  · rw [kept]
    exact ((part.filterMap m.cookie).map triple).nodup (tidy.single spot)

def Heap.allocate (m : Heap) (c : Cookie) : Heap :=
  { m with cookie := update m.cookie m.allocated (some c), allocated := m.allocated + 1 }

theorem cookie_allocate (m : Heap) (c : Cookie) (n : Ptr) :
    (m.allocate c).cookie n = if n = m.allocated then some c else m.cookie n :=
  update_apply m.cookie m.allocated (some c) n

theorem Tidy.allocated (tidy : Tidy m lists) (c : Cookie) :
    Tidy (m.allocate c) lists ∧ (m.allocate c).cookiesAt = m.cookiesAt ∧
      ∀ spot, (m.allocate c).contents (lists spot) = m.contents (lists spot) := by
  have old : ∀ spot, ∀ n ∈ lists spot, (m.allocate c).cookie n = m.cookie n := by
    intro spot n member
    rw [cookie_allocate, if_neg (tidy.lt member).ne]
  have same : ∀ spot, (m.allocate c).contents (lists spot) = m.contents (lists spot) := fun spot =>
    contents_congr (old spot)
  have settled : Tidy (m.allocate c) lists := by
    refine ⟨tidy.linked, fun spot n member => ?_, fun n beyond => ?_, fun spot => ?_⟩
    · rw [old spot n member]
      exact tidy.alive spot n member
    · have further : m.allocated + 1 ≤ n := beyond
      rw [cookie_allocate, if_neg (Nat.lt_of_succ_le further).ne']
      exact tidy.later n (Nat.le_of_succ_le further)
    · rw [same spot]
      exact tidy.single spot
  refine ⟨settled, funext fun spot => ?_, same⟩
  rw [settled.cookiesAt, tidy.cookiesAt, same spot]

theorem Tidy.replaced {e : Cookie} {l : List Ptr} (tidy : Tidy m lists) (is : lists spot = l ++ d :: r)
    (here : m.cookie d = some e) (named : triple e = triple c) :
    ∃ lists', Tidy ({ m.allocate c with chains := m.chains.replace spot d m.allocated }.free d) lists' ∧
      ({ m.allocate c with chains := m.chains.replace spot d m.allocated }.free d).cookiesAt =
        update m.cookiesAt spot (m.contents l ++ c :: m.contents r) := by
  have out := not_mem_of_split tidy is
  have new : ∀ i, m.allocated ∉ lists i := fun i member => (tidy.lt member).ne rfl
  have inside : d ∈ lists spot := by
    rw [is]
    simp
  have cookies : ∀ n, ({ m.allocate c with chains := m.chains.replace spot d m.allocated }.free d).cookie n =
      if n = d then none else if n = m.allocated then some c else m.cookie n := by
    intro n
    rw [cookie_free, ← cookie_allocate]
  have kept : ∀ n ∈ l ++ r, ({ m.allocate c with chains := m.chains.replace spot d m.allocated }.free d).cookie n =
      m.cookie n := by
    intro n member
    have listed : n ∈ lists spot := by
      rw [is]
      rcases mem_append.mp member with left | right
      · simp [left]
      · simp [right]
    have other : n ≠ d := fun same => out (same ▸ member)
    rw [cookies, if_neg other, if_neg (tidy.lt listed).ne]
  have own : ({ m.allocate c with chains := m.chains.replace spot d m.allocated }.free d).cookie m.allocated =
      some c := by
    rw [cookies, if_neg (tidy.lt inside).ne', if_pos rfl]
  have contents : ({ m.allocate c with chains := m.chains.replace spot d m.allocated }.free d).contents
      (l ++ m.allocated :: r) = m.contents l ++ c :: m.contents r := by
    rw [contents_append, contents_cons own, contents_congr (fun n member => kept n (mem_append_left _ member)),
      contents_congr (fun n member => kept n (mem_append_right _ member))]
  rw [← contents]
  refine ⟨_, tidy.changed (tidy.linked.replace is new) ?_ ?_ ?_ ?_⟩
  · intro n member
    rcases mem_append.mp member with left | right
    · rw [kept n (mem_append_left _ left)]
      exact tidy.alive spot n (by rw [is]; simp [left])
    · rcases mem_cons.mp right with rfl | right
      · rw [own]
        rfl
      · rw [kept n (mem_append_right _ right)]
        exact tidy.alive spot n (by rw [is]; simp [right])
  · intro n beyond
    have further : m.allocated + 1 ≤ n := beyond
    rw [cookies, if_neg (Nat.lt_of_succ_le further).ne']
    split
    · rfl
    · exact tidy.later n (Nat.le_of_succ_le further)
  · intro i other n member
    have elsewhere : n ≠ d := by
      rintro rfl
      exact other (tidy.linked.apart i spot n member inside)
    rw [cookies, if_neg elsewhere, if_neg (tidy.lt member).ne]
  · have single := tidy.single spot
    rw [is, contents_append, contents_cons here] at single
    rw [contents]
    simpa [named] using single

theorem Tidy.appended {c : Cookie} {spot : Spot} (tidy : Tidy m lists)
    (absent : ∀ e ∈ m.contents (lists spot), called c.domain c.path c.name e ≠ true) :
    ∃ lists', Tidy { m.allocate c with chains := m.chains.append spot m.allocated } lists' ∧
      Heap.cookiesAt { m.allocate c with chains := m.chains.append spot m.allocated } =
        update m.cookiesAt spot (m.contents (lists spot) ++ [c]) := by
  have new : ∀ i, m.allocated ∉ lists i := fun i member => (tidy.lt member).ne rfl
  have own : (m.allocate c).cookie m.allocated = some c := by
    rw [cookie_allocate, if_pos rfl]
  have kept : ∀ i, ∀ n ∈ lists i, (m.allocate c).cookie n = m.cookie n := by
    intro i n member
    rw [cookie_allocate, if_neg (tidy.lt member).ne]
  have contents : Heap.contents { m.allocate c with chains := m.chains.append spot m.allocated }
      (lists spot ++ [m.allocated]) = m.contents (lists spot) ++ [c] := by
    have first : Heap.contents { m.allocate c with chains := m.chains.append spot m.allocated } (lists spot) =
        m.contents (lists spot) := contents_congr (kept spot)
    have last : Heap.contents { m.allocate c with chains := m.chains.append spot m.allocated } [m.allocated] =
        [c] := contents_cons own []
    rw [contents_append, first, last]
  rw [← contents]
  refine ⟨_, tidy.changed (tidy.linked.append new) ?_ ?_ ?_ ?_⟩
  · intro n member
    rcases mem_append.mp member with old | added
    · exact (congrArg Option.isSome (kept spot n old)).trans (tidy.alive spot n old)
    · rw [mem_singleton.mp added]
      exact congrArg Option.isSome own
  · intro n beyond
    exact (tidy.allocated c).1.later n beyond
  · intro i _ n member
    exact kept i n member
  · rw [contents, map_append, nodup_append]
    refine ⟨tidy.single spot, nodup_singleton _, ?_⟩
    intro t left t' right
    obtain ⟨e, member, rfl⟩ := mem_map.mp left
    rw [mem_singleton.mp right]
    exact fun named => absent e member (called_iff.mpr named)

theorem Tidy.freed (tidy : Tidy m lists) (unlisted : ∀ spot, n ∉ lists spot) :
    Tidy (m.free n) lists ∧ (m.free n).cookiesAt = m.cookiesAt := by
  have old : ∀ spot, ∀ k ∈ lists spot, (m.free n).cookie k = m.cookie k := by
    intro spot k member
    rw [cookie_free, if_neg]
    rintro rfl
    exact unlisted spot member
  have settled : Tidy (m.free n) lists := by
    refine ⟨tidy.linked, fun spot k member => ?_, fun k beyond => ?_, fun spot => ?_⟩
    · rw [old spot k member]
      exact tidy.alive spot k member
    · rw [cookie_free]
      split
      · rfl
      · exact tidy.later k beyond
    · rw [contents_congr (old spot)]
      exact tidy.single spot
  exact ⟨settled, funext fun spot => by rw [settled.cookiesAt, tidy.cookiesAt, contents_congr (old spot)]⟩

/-- `urldb_insert_cookie` ends with every list as it should be, and what is stored is what `storeCookie` says. -/
theorem insert_spec (tidy : Tidy m lists) (now : Int) (c : Cookie) (spot : Spot) :
    ∃ m' lists', m.insert now c spot = some m' ∧ Tidy m' lists' ∧
      m'.cookiesAt = update m.cookiesAt spot (storeCookie now c (m.cookiesAt spot)) := by
  obtain ⟨grown, unchanged, contents⟩ := tidy.allocated c
  have sought := seek_eq (p := called c.domain c.path c.name) (grown.linked.leads spot) (grown.alive spot)
    (grown.length_le spot)
  have inserted : m.insert now c spot = (seek (m.allocate c) (called c.domain c.path c.name) (m.allocate c).allocated
      ((m.allocate c).chains.first spot)).map (fun found =>
        match found with
        | some d =>
          if c.expires ≠ -1 ∧ c.expires < now then
            ({ m.allocate c with chains := m.chains.unlinkBack spot d }.free d).free m.allocated
          else { m.allocate c with chains := m.chains.replace spot d m.allocated }.free d
        | none => { m.allocate c with chains := m.chains.append spot m.allocated }) := rfl
  rw [inserted, sought, Option.map_some, tidy.cookiesAt]
  rcases found : (lists spot).find? (fun n => ((m.allocate c).cookie n).any (called c.domain c.path c.name)) with _ | d
  · have absent := absent_all found
    rw [contents] at absent
    obtain ⟨lists', settled, stored⟩ := @Tidy.appended m lists c spot tidy (by
      intro e member named
      rw [absent e member] at named
      cases named)
    exact ⟨_, lists', rfl, settled, by rw [storeCookie_absent absent]; exact stored⟩
  · obtain ⟨l, r, e, is, here, has, split, before⟩ := found_split found
    have listed : ∀ n ∈ l ++ r, n ∈ lists spot := by
      intro n member
      rw [is]
      rcases mem_append.mp member with left | right
      · simp [left]
      · simp [right]
    have old : ∀ n ∈ lists spot, (m.allocate c).cookie n = m.cookie n := by
      intro n member
      rw [cookie_allocate, if_neg (tidy.lt member).ne]
    have left : (m.allocate c).contents l = m.contents l :=
      contents_congr (fun n member => old n (listed n (mem_append_left _ member)))
    have right : (m.allocate c).contents r = m.contents r :=
      contents_congr (fun n member => old n (listed n (mem_append_right _ member)))
    rw [contents, left, right] at split
    rw [left] at before
    rw [split, storeCookie_found has before]
    by_cases expired : c.expires ≠ -1 ∧ c.expires < now
    · obtain ⟨settled, stored⟩ := grown.removed is
      have unlisted : ∀ i, m.allocated ∉ update lists spot (l ++ r) i := by
        intro i member
        by_cases own : i = spot
        · rw [own, update_self] at member
          exact (tidy.lt (listed _ member)).ne rfl
        · rw [update_of_ne own] at member
          exact (tidy.lt member).ne rfl
      obtain ⟨settled', stored'⟩ := settled.freed unlisted
      rw [stored, contents_append, left, right, unchanged] at stored'
      have back : m.chains.unlinkBack spot d = m.chains.unlink spot d := unlinkBack_eq tidy.linked is
      refine ⟨_, update lists spot (l ++ r), rfl, ?_, ?_⟩
      · dsimp only
        rw [if_pos expired, back]
        exact settled'
      · dsimp only
        rw [if_pos expired, if_pos expired, back]
        exact stored'
    · have inside : d ∈ lists spot := by
        rw [is]
        simp
      rw [old d inside] at here
      obtain ⟨lists', settled, stored⟩ := tidy.replaced is here (called_iff.mp has)
      refine ⟨_, lists', rfl, ?_, ?_⟩
      · dsimp only
        rw [if_neg expired]
        exact settled
      · dsimp only
        rw [if_neg expired, if_neg expired]
        exact stored

end Besra.CookieLists
