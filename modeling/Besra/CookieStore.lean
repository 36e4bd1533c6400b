import Besra.Urldb

/-!
Where the cookies of the database are: at the root of the paths of a host, or at a
path of it. For every operation there is one lemma that says which cookies can be
there afterwards; those of `urldb_get_cookie` say so up to the time of last use.
-/
namespace Besra.CookieStore
open Lwc NsurlParse CText SetCookie UrldbTree Urldb List Forest

def Hangs (h : HostPart) : Option (List PathKey) → Cookie → Prop
  | none, c => c ∈ h.cookies
  | some address, c => ∃ p, (address, p) ∈ h.paths.entries PathData.key ∧ c ∈ p.cookies

def Stored (hosts : Hosts) (name : HostName) (spot : Option (List PathKey)) (c : Cookie) : Prop :=
  ∃ h, (name.reverse, h) ∈ hosts.tree.entries HostPart.key ∧ Hangs h spot c

/-- The same cookie, used at another time. -/
def Reused (c d : Cookie) : Prop := ∃ lastUsed, d = { c with lastUsed }

theorem reused_refl (c : Cookie) : Reused c c := ⟨c.lastUsed, rfl⟩

variable {d c new : Cookie} {scheme : LwcString} {port : Nat} {path : List UInt8} {p : PathData} {url : Nsurl}
  {paths : Forest PathData} {address ks : List PathKey} {now : Int} {name at' : HostName}
  {spot : Option (List PathKey)} {hosts : Hosts} {db : Db} {sent : Visit → Bool} {includeHttpOnly : Bool}
  {place : Place} {answer : Answer} {v : Visit}

theorem Reused.trans {e : Cookie} (first : Reused c d) (second : Reused d e) : Reused c e := by
  obtain ⟨_, rfl⟩ := first
  obtain ⟨lastUsed, rfl⟩ := second
  exact ⟨lastUsed, rfl⟩

theorem key_claim (url : Nsurl) (p : PathData) : (p.claim url).key = p.key := by
  unfold PathData.claim
  split <;> rfl

theorem cookies_claim (url : Nsurl) (p : PathData) : (p.claim url).cookies = p.cookies := by
  unfold PathData.claim
  split <;> rfl

theorem cookies_pathNodes (member : p ∈ pathNodes scheme port path) : p.cookies = [] := by
  obtain ⟨segment, -, rfl⟩ := mem_map.mp member
  rfl

theorem mem_addPath (member : (address, p) ∈ (addPath scheme port paths path url).1.entries PathData.key)
    (has : c ∈ p.cookies) : ∃ q, (address, q) ∈ paths.entries PathData.key ∧ c ∈ q.cookies := by
  have extended : ∀ {q}, (address, q) ∈ (paths.extend PathData.key (fun d e => strcmp e.segment d.segment = .gt)
      (pathNodes scheme port path)).entries PathData.key → c ∈ q.cookies →
      ∃ q, (address, q) ∈ paths.entries PathData.key ∧ c ∈ q.cookies := by
    intro q inside has
    rcases mem_entries_extend inside with old | ⟨before, ⟨after, on⟩, -⟩
    · exact ⟨q, old, has⟩
    · have new : q ∈ pathNodes scheme port path := by
        rw [← on]
        simp
      rw [cookies_pathNodes new] at has
      simp at has
  rcases mem_entries_update member (key_claim url) with old | ⟨-, q, old, rfl⟩
  · exact extended old has
  · rw [cookies_claim] at has
    exact extended old has

theorem mem_storeCookie {cookies : List Cookie} (member : d ∈ storeCookie now c cookies) : d ∈ cookies ∨ d = c := by
  unfold storeCookie at member
  dsimp only at member
  split at member
  · split at member
    · exact .inl (mem_of_mem_eraseIdx member)
    · exact (mem_or_eq_of_mem_set member)
  · rcases mem_append.mp member with old | new
    · exact .inl old
    · exact .inr (mem_singleton.mp new)

theorem stored_modify {f : HostPart → HostPart} (stored : Stored (hosts.modify at' f) name spot c)
    (keeps : ∀ h, (f h).part = h.part) :
    Stored hosts name spot c ∨ name = at' ∧ ∃ h, (name.reverse, h) ∈ hosts.tree.entries HostPart.key ∧
      Hangs (f h) spot c := by
  obtain ⟨h, member, hangs⟩ := stored
  have keys : ∀ h, (f h).key = h.key := by
    intro h
    rw [HostPart.key, HostPart.key, keeps]
  rcases mem_entries_update member keys with old | ⟨same, h', old, rfl⟩
  · exact .inl ⟨h, old, hangs⟩
  · exact .inr ⟨reverse_injective same, h', old, hangs⟩

theorem part_deleteFrom (p : Cookie → Bool) (h : HostPart) : (deleteFrom p h).part = h.part := by
  unfold deleteFrom
  split
  · rfl
  split <;> rfl

theorem hangs_deleteFrom {p : Cookie → Bool} {h : HostPart} (hangs : Hangs (deleteFrom p h) spot c) : Hangs h spot c := by
  unfold deleteFrom at hangs
  split at hangs
  · rcases spot with _ | address
    · exact mem_of_mem_eraseP hangs
    · exact hangs
  split at hangs
  · rcases spot with _ | address
    · exact hangs
    obtain ⟨q, member, inside⟩ := hangs
    rcases mem_entries_update member (fun _ => rfl) with old | ⟨-, q', old, rfl⟩
    · exact ⟨q, old, inside⟩
    · exact ⟨q', old, mem_of_mem_eraseP inside⟩
  · exact hangs

/-- What every step of `urldb_delete_cookie` keeps. -/
theorem deleteCookie_induct {I : Hosts → Prop} {domain path word : List UInt8}
    (keeps : ∀ hosts name p, I hosts → I (hosts.modify name (deleteFrom p))) (before : I db.hosts) :
    I (deleteCookie db domain path word).hosts :=
  foldlRecOn _ _ before fun hosts kept e _ => keeps hosts e.1.reverse _ kept

theorem stored_deleteFrom {p : Cookie → Bool} (stored : Stored (hosts.modify at' (deleteFrom p)) name spot c) :
    Stored hosts name spot c := by
  rcases stored_modify stored (part_deleteFrom p) with old | ⟨rfl, h, member, hangs⟩
  · exact old
  · exact ⟨h, member, hangs_deleteFrom hangs⟩

theorem stored_grow {labels : List (List UInt8)} {search : Nat → AaTree HostName}
    (stored : Stored ⟨hosts.grow labels, search⟩ name spot c) : Stored hosts name spot c := by
  obtain ⟨h, member, hangs⟩ := stored
  rcases mem_entries_extend member with old | ⟨before, ⟨after, on⟩, -⟩
  · exact ⟨h, old, hangs⟩
  · have new : h ∈ hostNodes labels := by
      rw [← on]
      simp
    obtain ⟨part, -, rfl⟩ := mem_map.mp new
    cases spot <;> simp [Hangs, Forest.entries] at hangs

theorem stored_addHost {host : List UInt8} (stored : Stored (addHost hosts host).1 name spot c) :
    Stored hosts name spot c := by
  unfold addHost at stored
  split at stored
  · dsimp only at stored
    split at stored
    · exact stored
    · exact stored_grow stored
  · exact stored_grow stored

theorem stored_cookieHost {domain : List UInt8} (stored : Stored (cookieHost hosts domain).1 name spot c) :
    Stored hosts name spot c := by
  unfold cookieHost at stored
  split at stored
  · exact stored
  · exact stored_addHost stored

theorem stored_addPathAt (stored : Stored (addPathAt hosts at' scheme port path url) name spot c) :
    Stored hosts name spot c := by
  unfold addPathAt at stored
  rcases stored_modify stored (fun _ => rfl) with old | ⟨-, h, member, hangs⟩
  · exact old
  · refine ⟨h, member, ?_⟩
    rcases spot with _ | address
    · exact hangs
    · obtain ⟨p, inside, has⟩ := hangs
      exact mem_addPath inside has

theorem stored_addUrl (stored : Stored (addUrl db url).2.hosts name spot c) : Stored db.hosts name spot c := by
  unfold addUrl at stored
  dsimp only at stored
  split at stored
  · exact stored_addHost (stored_addPathAt stored)
  · exact stored

theorem stored_insertDomainCookie (stored : Stored (insertDomainCookie now hosts new) name spot c) :
    Stored hosts name spot c ∨ name = (cookieHost hosts new.domain.tail).2 ∧ spot = none ∧ c = new := by
  rcases stored_modify stored (fun _ => rfl) with old | ⟨rfl, h, member, hangs⟩
  · exact .inl (stored_cookieHost old)
  · rcases spot with _ | address
    · rcases mem_storeCookie hangs with old | same
      · exact .inl (stored_cookieHost ⟨h, member, old⟩)
      · exact .inr ⟨rfl, rfl, same⟩
    · exact .inl (stored_cookieHost ⟨h, member, hangs⟩)

theorem stored_insertHostCookie (stored : Stored (insertHostCookie now hosts new scheme url) name spot c) :
    Stored hosts name spot c ∨ name = (cookieHost hosts new.domain).2 ∧
      spot = some ((pathNodes scheme 0 new.path).map PathData.key) ∧ c = new := by
  rcases stored_modify stored (fun _ => rfl) with old | ⟨rfl, h, member, hangs⟩
  · exact .inl (stored_cookieHost old)
  · rcases spot with _ | address
    · exact .inl (stored_cookieHost ⟨h, member, hangs⟩)
    · obtain ⟨p, inside, has⟩ := hangs
      dsimp only [storeAtPath] at inside
      rcases mem_entries_update inside (fun _ => rfl) with old | ⟨same, q, old, rfl⟩
      · obtain ⟨q, inside, has⟩ := mem_addPath old has
        exact .inl (stored_cookieHost ⟨h, member, q, inside, has⟩)
      · rcases mem_storeCookie has with older | rfl
        · obtain ⟨q, inside, has⟩ := mem_addPath old older
          exact .inl (stored_cookieHost ⟨h, member, q, inside, has⟩)
        · exact .inr ⟨rfl, by rw [same]; rfl, rfl⟩

def Aged (q p : PathData) : Prop := ∀ c ∈ p.cookies, ∃ d ∈ q.cookies, Reused d c

theorem aged_refl (p : PathData) : Aged p p := fun c member => ⟨c, member, reused_refl c⟩

theorem Aged.trans {q r : PathData} (first : Aged r q) (second : Aged q p) : Aged r p := by
  intro c member
  obtain ⟨d, inside, used⟩ := second c member
  obtain ⟨e, there, before⟩ := first d inside
  exact ⟨e, there, before.trans used⟩

theorem mem_touched {now : Int} {sent : Cookie → Bool} {c : Cookie} {cookies : List Cookie}
    (member : c ∈ cookies.map (fun c => if sent c then { c with lastUsed := now } else c)) :
    ∃ d ∈ cookies, Reused d c := by
  obtain ⟨d, inside, rfl⟩ := mem_map.mp member
  refine ⟨d, inside, ?_⟩
  split
  · exact ⟨now, rfl⟩
  · exact reused_refl d

theorem aged_touch (now : Int) (sent : Visit → Bool) (source : Source) (p : PathData) :
    Aged p (touch now sent source p) := fun _ member => mem_touched member

theorem aged_touchDirectory (now : Int) (sent : Visit → Bool) (p : PathData) : Aged p (touchDirectory now sent p) := by
  unfold touchDirectory
  split
  · exact aged_touch now sent .directory p
  · exact aged_refl p

theorem key_touchDirectory (now : Int) (sent : Visit → Bool) (p : PathData) :
    (touchDirectory now sent p).key = p.key := by
  unfold touchDirectory
  split <;> rfl

theorem mem_mapSiblings_aged {f : PathData → PathData} (aged : ∀ q, Aged q (f q)) (keeps : ∀ q, (f q).key = q.key)
    (member : (address, p) ∈ (paths.mapSiblings f).entries PathData.key) :
    ∃ q, (address, q) ∈ paths.entries PathData.key ∧ Aged q p := by
  rcases mem_entries_mapSiblings member keeps with old | ⟨q, old, rfl⟩
  · exact ⟨p, old, aged_refl p⟩
  · exact ⟨q, old, aged q⟩

theorem mem_touchPaths (member : (address, p) ∈ (touchPaths now sent ks paths).entries PathData.key) :
    ∃ q, (address, q) ∈ paths.entries PathData.key ∧ Aged q p := by
  induction ks generalizing paths address with
  | nil => exact ⟨p, member, aged_refl p⟩
  | cons k ks ih =>
    rcases ks with _ | ⟨k', ks⟩
    · refine mem_mapSiblings_aged ?_ ?_ member
      · intro q
        split
        · exact aged_touch now sent .exact q
        · exact aged_touchDirectory now sent q
      · intro q
        split
        · rfl
        · exact key_touchDirectory now sent q
    · have here : ∀ {b q}, (b, q) ∈ ((paths.mapSiblings (touchDirectory now sent)).alter PathData.key k
          (touch now sent .ancestor)).entries PathData.key →
          ∃ r, (b, r) ∈ paths.entries PathData.key ∧ Aged r q := by
        intro b q inside
        rcases mem_entries_alter inside (fun _ => rfl) with old | ⟨-, q', old, rfl⟩
        · exact mem_mapSiblings_aged (aged_touchDirectory now sent) (key_touchDirectory now sent) old
        · obtain ⟨r, older, aged⟩ :=
            mem_mapSiblings_aged (aged_touchDirectory now sent) (key_touchDirectory now sent) old
          exact ⟨r, older, aged.trans (aged_touch now sent .ancestor q')⟩
      rcases mem_entries_under member with old | ⟨u, us, found, b, rfl, below⟩
      · exact here old
      · obtain ⟨rfl, sibling⟩ := key_of_find PathData.key found
        obtain ⟨q, inside, aged⟩ := ih below
        obtain ⟨r, older, before⟩ := here ((mem_entries_of_sibling PathData.key sibling).2 b q inside)
        exact ⟨r, older, before.trans aged⟩

theorem mem_touchHosts {ks : List (List UInt8)} {address : List (List UInt8)} {h : HostPart} {tree : Forest HostPart}
    (member : (address, h) ∈ (touchHosts now sent scheme ks tree).entries HostPart.key) :
    ∃ h', (address, h') ∈ tree.entries HostPart.key ∧ h.paths = h'.paths ∧
      ∀ c ∈ h.cookies, ∃ d ∈ h'.cookies, Reused d c := by
  induction ks generalizing tree address with
  | nil => exact ⟨h, member, rfl, fun c member => ⟨c, member, reused_refl c⟩⟩
  | cons k ks ih =>
    have here : ∀ {b h}, (b, h) ∈ (tree.alter HostPart.key k (fun h => { h with cookies := h.cookies.map (fun c =>
          if sent ⟨.domain, scheme, c⟩ then { c with lastUsed := now } else c) })).entries HostPart.key →
        ∃ h', (b, h') ∈ tree.entries HostPart.key ∧ h.paths = h'.paths ∧
          ∀ c ∈ h.cookies, ∃ d ∈ h'.cookies, Reused d c := by
      intro b h inside
      rcases mem_entries_alter inside (fun _ => rfl) with old | ⟨-, h', old, rfl⟩
      · exact ⟨h, old, rfl, fun c member => ⟨c, member, reused_refl c⟩⟩
      · exact ⟨h', old, rfl, fun c member => @mem_touched now (fun c => sent ⟨.domain, scheme, c⟩) _ _ member⟩
    rcases mem_entries_under member with old | ⟨u, us, found, b, rfl, below⟩
    · exact here old
    · obtain ⟨rfl, sibling⟩ := key_of_find HostPart.key found
      obtain ⟨h', inside, paths, aged⟩ := ih below
      obtain ⟨h'', older, paths', before⟩ := here ((mem_entries_of_sibling HostPart.key sibling).2 b h' inside)
      refine ⟨h'', older, paths.trans paths', ?_⟩
      intro c has
      obtain ⟨d, inside, used⟩ := aged c has
      obtain ⟨e, there, earlier⟩ := before d inside
      exact ⟨e, there, earlier.trans used⟩

theorem stored_answerAt {path : LwcString}
    (stored : Stored (answerAt now db path includeHttpOnly place).db.hosts name spot c) :
    ∃ d, Stored db.hosts name spot d ∧ Reused d c := by
  obtain ⟨h, member, hangs⟩ := stored
  obtain ⟨h', inside, paths, aged⟩ := mem_touchHosts member
  have before : ∃ d, Hangs h' spot d ∧ Reused d c := by
    rcases spot with _ | address
    · exact aged c hangs
    · obtain ⟨p, there, has⟩ := hangs
      rw [paths] at there
      exact ⟨c, ⟨p, there, has⟩, reused_refl c⟩
  obtain ⟨d, hangs, used⟩ := before
  rcases stored_modify ⟨h', inside, hangs⟩ (fun _ => rfl) with old | ⟨-, h'', older, hangs⟩
  · exact ⟨d, old, used⟩
  · rcases spot with _ | address
    · exact ⟨d, ⟨h'', older, hangs⟩, used⟩
    · obtain ⟨p, there, has⟩ := hangs
      obtain ⟨q, earlier, aged⟩ := mem_touchPaths there
      obtain ⟨e, has, older'⟩ := aged d has
      exact ⟨e, ⟨h'', older, q, earlier, has⟩, older'.trans used⟩

theorem stored_getCookie (asked : getCookie now db url includeHttpOnly = some answer)
    (stored : Stored answer.db.hosts name spot c) : ∃ d, Stored db.hosts name spot d ∧ Reused d c := by
  rw [getCookie] at asked
  obtain ⟨found, -, rfl⟩ := Option.map_eq_some_iff.mp asked
  split at stored
  · obtain ⟨d, old, used⟩ := stored_answerAt stored
    exact ⟨d, stored_addUrl old, used⟩
  · exact ⟨c, stored_addUrl stored, reused_refl c⟩

theorem mem_directoryVisits {children : Forest PathData} (member : v ∈ directoryVisits children) :
    ∃ q cs, (q, cs) ∈ children.siblings ∧ q.segment = [] ∧ v.cookie ∈ q.cookies ∧ v.source = .directory := by
  obtain ⟨q, inside, here⟩ := mem_flatMap.mp member
  obtain ⟨listed, empty⟩ := mem_filter.mp inside
  obtain ⟨⟨_, cs⟩, sibling, rfl⟩ := mem_map.mp listed
  obtain ⟨c, has, rfl⟩ := mem_map.mp here
  exact ⟨_, cs, sibling, of_decide_eq_true empty, has, rfl⟩

theorem mem_pathVisits (member : v ∈ pathVisits paths (paths.line PathData.key ks)) :
    ∃ address p, (address, p) ∈ paths.entries PathData.key ∧ v.cookie ∈ p.cookies := by
  have below : ∀ {q cs w ws}, (q, cs) ∈ paths.line PathData.key ks → (w, ws) ∈ cs.siblings →
      ∃ address, (address, w) ∈ paths.entries PathData.key := by
    intro q cs w ws on sibling
    obtain ⟨before, -, -, deeper⟩ := mem_entries_of_line PathData.key on
    exact ⟨_, deeper _ _ (mem_entries_of_sibling PathData.key sibling).1⟩
  unfold pathVisits at member
  split at member
  · simp at member
  next p cs above same =>
    have higher : ∀ {q qs}, (q, qs) ∈ above → (q, qs) ∈ paths.line PathData.key ks := by
      intro q qs inside
      rw [← mem_reverse, same]
      exact mem_cons_of_mem _ inside
    simp only [mem_append] at member
    rcases member with (exact | between) | top
    · split at exact
      · obtain ⟨q, inside, here⟩ := mem_flatMap.mp exact
        obtain ⟨⟨_, qs⟩, sibling, rfl⟩ := mem_map.mp (mem_filter.mp inside).1
        obtain ⟨c, has, rfl⟩ := mem_map.mp here
        rcases above with _ | ⟨⟨u, us⟩, above⟩
        · exact ⟨_, _, (mem_entries_of_sibling PathData.key sibling).1, has⟩
        · obtain ⟨address, inside⟩ := below (higher mem_cons_self) sibling
          exact ⟨address, _, inside, has⟩
      · simp at exact
    · obtain ⟨⟨q, qs⟩, inside, here⟩ := mem_flatMap.mp between
      rcases mem_append.mp here with directory | ancestor
      · obtain ⟨w, ws, sibling, -, has, -⟩ := mem_directoryVisits directory
        obtain ⟨address, there⟩ := below (higher inside) sibling
        exact ⟨address, w, there, has⟩
      · obtain ⟨c, has, rfl⟩ := mem_map.mp ancestor
        obtain ⟨before, -, there, -⟩ := mem_entries_of_line PathData.key (higher inside)
        exact ⟨_, q, there, has⟩
    · obtain ⟨w, ws, sibling, -, has, -⟩ := mem_directoryVisits top
      exact ⟨_, w, (mem_entries_of_sibling PathData.key sibling).1, has⟩

theorem mem_visited (member : v ∈ visited hosts place) :
    (∃ address, Stored hosts place.host (some address) v.cookie) ∨
      ∃ name, name <:+ place.host ∧ Stored hosts name none v.cookie := by
  unfold visited at member
  split at member
  · simp at member
  next h found =>
    have there := mem_entries_of_lookup HostPart.key found
    rcases mem_append.mp member with path | domain
    · obtain ⟨address, p, inside, has⟩ := mem_pathVisits path
      exact .inl ⟨address, h, there, p, inside, has⟩
    · right
      rcases last : (h.paths.line PathData.key place.path).getLast? with _ | ⟨p, cs⟩
      · simp [last] at domain
      · rw [last] at domain
        obtain ⟨⟨h', hs⟩, on, here⟩ := mem_flatMap.mp domain
        obtain ⟨c, has, rfl⟩ := mem_map.mp here
        obtain ⟨before, ⟨after, along⟩, inside, -⟩ :=
          mem_entries_of_line HostPart.key (mem_reverse.mp on)
        refine ⟨(before ++ [h'.key]).reverse, ⟨after.reverse, ?_⟩, h', ?_, has⟩
        · rw [← reverse_append, along, reverse_reverse]
        · rw [reverse_reverse]
          exact inside

theorem visited_of_matched (asked : getCookie now db url includeHttpOnly = some answer) (sent : c ∈ answer.matched) :
    ∃ place, findUrl (addUrl db url).2 url = some (some place) ∧
      ∃ v ∈ visited (addUrl db url).2.hosts place, v.cookie = c := by
  rw [getCookie] at asked
  obtain ⟨found, place, rfl⟩ := Option.map_eq_some_iff.mp asked
  split at sent
  next place' path _ =>
    obtain ⟨v, inside, same⟩ := mem_map.mp sent
    exact ⟨place', place, v, (mem_filter.mp inside).1, same⟩
  next => simp at sent

end Besra.CookieStore
