import Besra.PointerChain
import Besra.SelectorHash

/-!
The chains of the selector hash in memory: the head of a chain is inline in its slot, the
other entries are allocated one by one, and `_insert_into_chain` and `_remove_from_chain`
of `libcss/src/select/hash.c` move what is in the head. What the lists of `SelectorHash`
say of a chain is what the pointers lead over (`Shows`), and every call keeps it so.
-/
namespace Besra.HashChain
open Selector Bloom Merge SelectorHash PointerChain Option Function List

/-- Where a `hash_entry` is: inline as the head of a chain, or at an address of its own. -/
inductive Ptr where
  | head (place : Place)
  | entry (address : Nat)
deriving DecidableEq

/-- `hash_entry`, whose `sel` is NULL in the head of an empty chain. -/
structure Node (σ : Type) where
  sel : Option σ
  selChainBloom : CssBloom
  next : Option Ptr

/-- `css_selector_hash`, with the memory that the entries are in and the addresses in use. -/
structure Hash (σ : Type) where
  node : Ptr → Node σ
  allocated : List Nat
  hashSize : Nat

/-- `malloc`: an address that is not in use, or NULL. -/
structure Malloc where
  malloc : List Nat → Option Nat
  fresh : ∀ inUse a, malloc inUse = some a → a ∉ inUse

/-- Memory at one address, while that is not in use. -/
def memory (a : Nat) : Malloc where
  malloc inUse := if a ∈ inUse then none else some a
  fresh inUse b given := by
    split at given
    · cases given
    next free => exact some_inj.mp given ▸ free

inductive CssError where
  | ok
  | nomem
  | invalid
deriving DecidableEq

/-- `sizeof(hash_entry)`, with pointers of 8 bytes. -/
def sizeofHashEntry : Nat := 32

/-- The size of a new hash: `sizeof(css_selector_hash)` and the slots of three tables. -/
def baseSize : Nat := 88 + 64 * sizeofHashEntry + 64 * sizeofHashEntry + 64 * sizeofHashEntry

/-- `css__selector_hash_create`, whose memory is all zero. -/
def create {σ : Type} : Hash σ := ⟨fun _ => ⟨none, init, none⟩, [], baseSize⟩

def Hash.set {σ : Type} (hash : Hash σ) (ptr : Ptr) (entry : Node σ) : Hash σ :=
  { hash with node := update hash.node ptr entry }

def link {σ : Type} (hash : Hash σ) (ptr : Ptr) : Option Ptr := (hash.node ptr).next

section
variable {σ δ : Type} (heap : σ → CssSelector δ)

/-- The loop of `_insert_into_chain`: the entry that the new one goes behind, if it does not go in
front of the head. Without a value where a NULL selector is read. -/
def findPlace (hash : Hash σ) (p : σ) : Nat → Option Ptr → Ptr → Option (Option Ptr)
  | 0, _, _ => none
  | fuel + 1, prev, search =>
    match (hash.node search).sel with
    | none => none
    | some q =>
      if lessSpecific (heap p) (heap q) then some prev
      else
        match (hash.node search).next with
        | none => some (some search)
        | some next => findPlace hash p fuel (some search) next

def insertIntoChain (hash : Hash σ) (place : Place) (p : σ) (mem : Malloc) : Option (Hash σ × CssError) :=
  match (hash.node (.head place)).sel with
  | none => some (hash.set (.head place) ⟨some p, chainBloomGenerate (heap p).chain, none⟩, .ok)
  | some _ =>
    match mem.malloc hash.allocated with
    | none => some (hash, .nomem)
    | some a =>
      (findPlace heap hash p (hash.allocated.length + 1) none (.head place)).map fun prev =>
        let linked := match prev with
          | none => (hash.set (.entry a) (hash.node (.head place))).set (.head place)
              ⟨some p, chainBloomGenerate (heap p).chain, some (.entry a)⟩
          | some q => (hash.set (.entry a) ⟨some p, chainBloomGenerate (heap p).chain, (hash.node q).next⟩).set q
              { hash.node q with next := some (.entry a) }
        ({ linked with allocated := a :: hash.allocated, hashSize := hash.hashSize + sizeofHashEntry }, .ok)

variable [DecidableEq σ]

/-- The loop of `_remove_from_chain`: the entry of the selector and the one in front of it. -/
def findSelector (hash : Hash σ) (p : σ) : Nat → Option Ptr → Ptr → Option (Option (Option Ptr × Ptr))
  | 0, _, _ => none
  | fuel + 1, prev, search =>
    if (hash.node search).sel = some p then some (some (prev, search))
    else
      match (hash.node search).next with
      | none => some none
      | some next => findSelector hash p fuel (some search) next

/-- What `_remove_from_chain` does with the entry it has found. The head takes over the selector of the
entry behind it, which is not freed. -/
def unlinkEntry (hash : Hash σ) : Option Ptr → Ptr → Hash σ
  | none, head =>
    match (hash.node head).next with
    | some next => hash.set head { hash.node head with sel := (hash.node next).sel, next := (hash.node next).next }
    | none => hash.set head { hash.node head with sel := none, next := none }
  | some prev, search =>
    let unlinked := hash.set prev { hash.node prev with next := (hash.node search).next }
    match search with
    | .entry a => { unlinked with allocated := hash.allocated.erase a, hashSize := hash.hashSize - sizeofHashEntry }
    | .head _ => unlinked

def removeFromChain (hash : Hash σ) (place : Place) (p : σ) : Option (Hash σ × CssError) :=
  match (hash.node (.head place)).sel with
  | none => some (hash, .invalid)
  | some _ =>
    (findSelector hash p (hash.allocated.length + 1) none (.head place)).map fun
      | none => (hash, .invalid)
      | some (prev, search) => (unlinkEntry hash prev search, .ok)

def first (hash : Hash σ) (place : Place) : Option Ptr :=
  if (hash.node (.head place)).sel.isSome then some (.head place) else none

def content (hash : Hash σ) (ptr : Ptr) : Option σ × CssBloom :=
  ((hash.node ptr).sel, (hash.node ptr).selChainBloom)

def shown (e : HashEntry σ) : Option σ × CssBloom := (some e.sel, e.selChainBloom)

/-- In memory the hash is what the lists say, with these entries in each chain. -/
structure Shows (hash : Hash σ) (lists : CssSelectorHash σ) (own : Place → List Ptr) : Prop where
  leads : ∀ place, Leads (link hash) (first hash place) (own place) none
  contents : ∀ place, (own place).map (content hash) = (lists place).map shown
  inUse : ∀ place, ∀ ptr ∈ own place, ptr = .head place ∨ ∃ a ∈ hash.allocated, ptr = .entry a
  apart : ∀ place place', place ≠ place' → ∀ ptr ∈ own place, ptr ∉ own place'

omit [DecidableEq σ] in
theorem shows_create : Shows (create (σ := σ)) selectorHashCreate fun _ => [] where
  leads _ := rfl
  contents _ := rfl
  inUse _ _ among := absurd among not_mem_nil
  apart _ _ _ _ among := absurd among not_mem_nil

variable {heap} {hash hash' : Hash σ} {lists : CssSelectorHash σ} {own : Place → List Ptr}

omit [DecidableEq σ] in
theorem Shows.head_eq (shows : Shows hash lists own) {place : Place} {ptr : Ptr} {r : List Ptr}
    (chain : own place = ptr :: r) : ptr = .head place ∧ (hash.node (.head place)).sel.isSome := by
  have leads := shows.leads place
  rw [chain, first] at leads
  obtain ⟨start, -⟩ := leads
  split at start
  next some => exact ⟨(some_inj.mp start).symm, some⟩
  next => cases start

omit [DecidableEq σ] in
theorem Shows.empty_iff (shows : Shows hash lists own) (place : Place) :
    (hash.node (.head place)).sel = none ↔ own place = [] := by
  constructor
  · intro null
    rcases chain : own place with _ | ⟨ptr, r⟩
    · rfl
    · have some := (shows.head_eq chain).2
      rw [null] at some
      cases some
  · intro chain
    have leads := shows.leads place
    rw [chain, first] at leads
    split at leads
    next => cases leads
    next null => simpa using null

omit [DecidableEq σ] in
theorem Shows.head_apart (shows : Shows hash lists own) {place here : Place} (other : place ≠ here) :
    .head here ∉ own place := by
  intro among
  rcases shows.inUse place _ among with same | ⟨a, -, same⟩
  · exact other (Ptr.head.inj same).symm
  · cases same

omit [DecidableEq σ] in
/-- A chain changed in memory and in the lists, and the others as they were. -/
theorem Shows.change (shows : Shows hash lists own) {here : Place} {ps : List Ptr} {entries : List (HashEntry σ)}
    (leads : Leads (link hash') (first hash' here) ps none) (contents : ps.map (content hash') = entries.map shown)
    (members : ∀ ptr ∈ ps, ptr = .head here ∨
      ∃ a ∈ hash'.allocated, ptr = .entry a ∧ (a ∈ hash.allocated → ptr ∈ own here))
    (kept : ∀ ptr, ptr ∉ own here → ptr ≠ .head here → (∀ a, ptr = .entry a → a ∈ hash.allocated) →
      hash'.node ptr = hash.node ptr)
    (stillInUse : ∀ a ∈ hash.allocated, .entry a ∉ own here → a ∈ hash'.allocated) :
    Shows hash' (update lists here entries) (update own here ps) := by
  have elsewhere : ∀ place ≠ here, ∀ ptr ∈ own place, hash'.node ptr = hash.node ptr := by
    intro place other ptr among
    refine kept ptr (shows.apart place here other ptr among) ?_ ?_
    · rintro rfl
      exact shows.head_apart other among
    · rintro a rfl
      rcases shows.inUse place _ among with same | ⟨b, allocated, same⟩
      · cases same
      · exact Ptr.entry.inj same ▸ allocated
  have apart : ∀ ptr ∈ ps, ∀ place ≠ here, ptr ∉ own place := by
    intro ptr among place other among'
    rcases members ptr among with rfl | ⟨a, -, rfl, old⟩
    · exact shows.head_apart other among'
    · rcases shows.inUse place _ among' with same | ⟨b, allocated, same⟩
      · cases same
      · exact shows.apart place here other _ among' (old (Ptr.entry.inj same ▸ allocated))
  constructor
  · intro place
    by_cases same : place = here
    · subst same
      rw [update_self]
      exact leads
    · rw [update_of_ne same, first, kept (.head place) (shows.head_apart (Ne.symm same))
        (fun heads => same (Ptr.head.inj heads)) (fun a heads => by cases heads)]
      refine leads_congr (shows.leads place) fun ptr among => ?_
      rw [link, elsewhere place same ptr among, link]
  · intro place
    by_cases same : place = here
    · subst same
      rw [update_self, update_self]
      exact contents
    · rw [update_of_ne same, update_of_ne same, ← shows.contents place]
      refine map_congr_left fun ptr among => ?_
      rw [content, elsewhere place same ptr among, content]
  · intro place ptr among
    by_cases same : place = here
    · subst same
      rw [update_self] at among
      exact (members ptr among).imp id fun ⟨a, allocated, is, _⟩ => ⟨a, allocated, is⟩
    · rw [update_of_ne same] at among
      rcases shows.inUse place ptr among with head | ⟨a, allocated, rfl⟩
      · exact .inl head
      · exact .inr ⟨a, stillInUse a allocated (shows.apart place here same _ among), rfl⟩
  · intro place place' other ptr among among'
    by_cases same : place = here
    · subst same
      rw [update_self] at among
      rw [update_of_ne other.symm] at among'
      exact apart ptr among place' other.symm among'
    · rw [update_of_ne same] at among
      by_cases same' : place' = here
      · subst same'
        rw [update_self] at among'
        exact apart ptr among' place same among
      · rw [update_of_ne same'] at among'
        exact shows.apart place place' other ptr among among'

omit [DecidableEq σ] in
theorem Shows.member (shows : Shows hash lists own) {place : Place} {ptr : Ptr} (among : ptr ∈ own place)
    (stays : ∀ a, ptr = .entry a → a ∈ hash.allocated → a ∈ hash'.allocated) :
    ptr = .head place ∨ ∃ a ∈ hash'.allocated, ptr = .entry a ∧ (a ∈ hash.allocated → ptr ∈ own place) := by
  rcases shows.inUse place ptr among with head | ⟨a, allocated, is⟩
  · exact .inl head
  · exact .inr ⟨a, stays a is allocated, is, fun _ => among⟩

omit [DecidableEq σ] in
theorem Shows.lists_nil (shows : Shows hash lists own) {place : Place} (chain : own place = []) : lists place = [] := by
  have contents := shows.contents place
  rw [chain] at contents
  exact map_eq_nil_iff.mp contents.symm

omit [DecidableEq σ] in
theorem Shows.length_le (shows : Shows hash lists own) (place : Place) :
    (own place).length ≤ hash.allocated.length + 1 := by
  have within : own place ⊆ .head place :: hash.allocated.map .entry := by
    intro ptr among
    rcases shows.inUse place ptr among with rfl | ⟨a, allocated, rfl⟩
    · simp
    · simp [allocated]
  have short := (subperm_of_subset (leads_nodup (shows.leads place)) within).length_le
  simpa using short

omit [DecidableEq σ] in
theorem findPlace_eq (heap : σ → CssSelector δ) (p : σ) {fuel : Nat} (prev : Option Ptr) {search : Ptr} {ps : List Ptr}
    {entries : List (HashEntry σ)} (leads : Leads (link hash) (some search) ps none)
    (contents : ps.map (content hash) = entries.map shown) (enough : ps.length ≤ fuel) :
    ∃ l r el er, ps = l ++ r ∧ entries = el ++ er ∧ l.map (content hash) = el.map shown ∧
      r.map (content hash) = er.map shown ∧ findPlace heap hash p fuel prev search = some (l.getLast?.or prev) ∧
      SelectorHash.insertIntoChain heap p entries = el ++ newEntry heap p :: er := by
  induction ps generalizing fuel prev search entries with
  | nil => cases leads
  | cons ptr ps ih =>
    obtain ⟨same, rest⟩ := leads
    obtain rfl := some_inj.mp same
    rcases entries with _ | ⟨e, entries⟩
    · cases contents
    rcases fuel with _ | fuel
    · simp at enough
    obtain ⟨here, later⟩ := List.cons.inj contents
    have sel : (hash.node search).sel = some e.sel := congrArg Prod.fst here
    rw [findPlace, sel, SelectorHash.insertIntoChain]
    dsimp only
    by_cases less : lessSpecific (heap p) (heap e.sel) = true
    · rw [if_pos less, if_pos less]
      exact ⟨[], search :: ps, [], e :: entries, rfl, rfl, rfl, contents, rfl, rfl⟩
    rw [if_neg less, if_neg less]
    rcases next : (hash.node search).next with _ | following
    · rw [link, next] at rest
      rcases ps with _ | ⟨_, ps⟩
      · obtain rfl : entries = [] := map_eq_nil_iff.mp later.symm
        exact ⟨[search], [], [e], [], rfl, rfl, contents, rfl, rfl, rfl⟩
      · cases rest.1
    · rw [link, next] at rest
      obtain ⟨l, r, el, er, rfl, rfl, left, right, found, inserted⟩ := ih (some search) rest later (by simpa using enough)
      refine ⟨search :: l, r, e :: el, er, rfl, rfl, by simp [here, left], right, ?_, ?_⟩
      · dsimp only
        rw [found, List.getLast?_cons]
        rcases l.getLast? with _ | _ <;> rfl
      · rw [inserted, cons_append]

variable {entries el er : List (HashEntry σ)} {r l : List Ptr} {here : Place} {q : Ptr} {a : Nat}

theorem findSelector_eq {p : σ} {fuel : Nat} (prev : Option Ptr) {search : Ptr} {ps : List Ptr}
    (leads : Leads (link hash) (some search) ps none) (contents : ps.map (content hash) = entries.map shown)
    (enough : ps.length ≤ fuel) :
    findSelector hash p fuel prev search = some none ∧ p ∉ entries.map (·.sel) ∨
      ∃ l ptr r el e er, ps = l ++ ptr :: r ∧ entries = el ++ e :: er ∧ l.map (content hash) = el.map shown ∧
        content hash ptr = shown e ∧ r.map (content hash) = er.map shown ∧
        findSelector hash p fuel prev search = some (some (l.getLast?.or prev, ptr)) ∧ e.sel = p ∧
        p ∉ el.map (·.sel) := by
  induction ps generalizing fuel prev search entries with
  | nil => cases leads
  | cons ptr ps ih =>
    obtain ⟨same, rest⟩ := leads
    obtain rfl := some_inj.mp same
    rcases entries with _ | ⟨e, entries⟩
    · cases contents
    rcases fuel with _ | fuel
    · simp at enough
    obtain ⟨here, later⟩ := List.cons.inj contents
    have sel : (hash.node search).sel = some e.sel := congrArg Prod.fst here
    rw [findSelector, sel]
    by_cases found : e.sel = p
    · rw [if_pos (by rw [found])]
      exact .inr ⟨[], search, ps, [], e, entries, rfl, rfl, rfl, here, later, rfl, found, by simp⟩
    rw [if_neg (by simpa using found)]
    have notHere : p ≠ e.sel := fun same => found same.symm
    rcases next : (hash.node search).next with _ | following
    · rw [link, next] at rest
      rcases ps with _ | ⟨_, ps⟩
      · obtain rfl : entries = [] := map_eq_nil_iff.mp later.symm
        exact .inl ⟨rfl, by simpa using notHere⟩
      · cases rest.1
    · rw [link, next] at rest
      dsimp only
      rcases ih (some search) rest later (by simpa using enough) with
        ⟨none, absent⟩ | ⟨l, ptr, r, el, e', er, rfl, rfl, left, middle, right, result, is, absent⟩
      · exact .inl ⟨none, by simpa using ⟨notHere, by simpa using absent⟩⟩
      · refine .inr ⟨search :: l, ptr, r, e :: el, e', er, rfl, rfl, by simp [here, left], middle, right, ?_, is, ?_⟩
        · rw [result, List.getLast?_cons]
          rcases l.getLast? with _ | _ <;> rfl
        · simpa using ⟨notHere, by simpa using absent⟩

omit [DecidableEq σ] in
@[simp] theorem node_set (ptr ptr' : Ptr) (entry : Node σ) :
    (hash.set ptr entry).node ptr' = if ptr' = ptr then entry else hash.node ptr' := by
  simp [Hash.set, update_apply]

omit [DecidableEq σ] in
theorem Shows.fill (shows : Shows hash lists own) (here : Place) (e : HashEntry σ) :
    Shows (hash.set (.head here) ⟨some e.sel, e.selChainBloom, none⟩) (update lists here [e])
      (update own here [.head here]) := by
  refine shows.change ⟨by simp [first], by simp [link, Leads]⟩ (by simp [content, shown]) ?_ ?_ ?_
  · exact fun ptr among => .inl (mem_singleton.mp among)
  · intro ptr _ notHead _
    rw [node_set, if_neg notHead]
  · exact fun a allocated _ => allocated

omit [DecidableEq σ] in
/-- A chain in which the entries behind one of them are others, and that entry may be too. -/
theorem Shows.relink (shows : Shows hash lists own) (between between' : List Ptr)
    (chain : own here = l ++ q :: (between ++ r)) (begins : first hash' here = first hash here)
    (links : Leads (link hash') (link hash' q) between' r.head?)
    (contents : l.map (content hash) ++ content hash' q :: (between'.map (content hash') ++ r.map (content hash)) = entries.map shown)
    (new : ∀ ptr ∈ between', ptr ∈ own here ∨ ∃ a ∈ hash'.allocated, ptr = .entry a ∧ a ∉ hash.allocated)
    (kept : ∀ ptr ≠ q, ptr ∉ between → (∀ a, ptr = .entry a → a ∈ hash.allocated) → hash'.node ptr = hash.node ptr)
    (stillInUse : ∀ a ∈ hash.allocated, .entry a ∉ between → a ∈ hash'.allocated)
    (apart : ∀ ptr ∈ between', ptr ∉ between) :
    Shows hash' (update lists here entries) (update own here (l ++ q :: (between' ++ r))) := by
  have leads := shows.leads here
  have nodup := leads_nodup leads
  rw [chain] at leads nodup
  have allocated : ∀ a, .entry a ∈ own here → a ∈ hash.allocated := by
    intro a among
    rcases shows.inUse here _ among with same | ⟨b, allocated, same⟩
    · cases same
    · exact Ptr.entry.inj same ▸ allocated
  have outside : ∀ ptr ∈ l ++ r, ptr ∈ own here ∧ ptr ≠ q ∧ ptr ∉ between := by
    intro ptr among
    have moved : (l ++ q :: (between ++ r)).Perm (q :: (between ++ (l ++ r))) :=
      perm_middle.trans (List.Perm.cons q (perm_append_comm_assoc l between r))
    have nodup' := moved.nodup_iff.mp nodup
    rw [nodup_cons, nodup_append'] at nodup'
    refine ⟨?_, ?_, fun among' => nodup'.2.2.2 among' among⟩
    · rw [chain, moved.mem_iff]
      exact mem_cons_of_mem _ (mem_append_right _ among)
    · rintro rfl
      exact nodup'.1 (mem_append_right _ among)
  have same : ∀ ptr ∈ l ++ r, hash'.node ptr = hash.node ptr := by
    intro ptr among
    obtain ⟨inChain, notLinked, notBetween⟩ := outside ptr among
    exact kept ptr notLinked notBetween fun a is => allocated a (is ▸ inChain)
  have left : ∀ ptr ∈ l, hash'.node ptr = hash.node ptr := fun ptr among => same ptr (mem_append_left r among)
  have right : ∀ ptr ∈ r, hash'.node ptr = hash.node ptr := fun ptr among => same ptr (mem_append_right l among)
  refine shows.change ?_ ?_ ?_ ?_ ?_
  · rw [begins]
    refine leads_relink leads (fun ptr among => ?_) (fun ptr among => ?_) (by rwa [or_none])
    · rw [link, left ptr among, link]
    · rw [link, right ptr among, link]
  · rw [← contents, map_append, map_cons, map_append]
    congr 1
    · exact map_congr_left fun ptr among => by rw [content, left ptr among, content]
    · congr 2
      exact map_congr_left fun ptr among => by rw [content, right ptr among, content]
  · intro ptr among
    have stays : ∀ ptr ∈ own here, ptr ∉ between →
        ptr = .head here ∨ ∃ a ∈ hash'.allocated, ptr = .entry a ∧ (a ∈ hash.allocated → ptr ∈ own here) := by
      intro ptr inChain notBetween
      refine shows.member inChain ?_
      rintro a rfl allocated
      exact stillInUse a allocated notBetween
    simp only [mem_append, mem_cons] at among
    rcases among with among | rfl | among | among
    · obtain ⟨inChain, -, notBetween⟩ := outside ptr (mem_append_left r among)
      exact stays ptr inChain notBetween
    · refine stays ptr (chain ▸ mem_append_right l mem_cons_self) fun among => ?_
      rw [nodup_append', nodup_cons] at nodup
      exact nodup.2.1.1 (mem_append_left r among)
    · rcases new ptr among with inChain | ⟨a, inUse, rfl, fresh⟩
      · exact stays ptr inChain (apart ptr among)
      · exact .inr ⟨a, inUse, rfl, fun old => absurd old fresh⟩
    · obtain ⟨inChain, -, notBetween⟩ := outside ptr (mem_append_right l among)
      exact stays ptr inChain notBetween
  · intro ptr notOwn _ inUse
    rw [chain] at notOwn
    refine kept ptr ?_ ?_ inUse
    · rintro rfl
      exact notOwn (by simp)
    · exact fun among => notOwn (by simp [among])
  · intro a inUse notOwn
    exact stillInUse a inUse fun among => notOwn (chain ▸ by simp [among])

omit [DecidableEq σ] in
theorem Shows.push (shows : Shows hash lists own) {here : Place} {r : List Ptr} (chain : own here = .head here :: r)
    {a : Nat} (fresh : a ∉ hash.allocated) (e : HashEntry σ) (size : Nat) :
    Shows { (hash.set (.entry a) (hash.node (.head here))).set (.head here)
        ⟨some e.sel, e.selChainBloom, some (.entry a)⟩ with allocated := a :: hash.allocated, hashSize := size }
      (update lists here (e :: lists here)) (update own here (.head here :: .entry a :: r)) := by
  have leads := shows.leads here
  rw [chain] at leads
  obtain ⟨-, rest⟩ := leads
  have head : first hash here = some (.head here) := if_pos (shows.head_eq chain).2
  have contents := shows.contents here
  rw [chain, map_cons] at contents
  refine shows.relink (l := []) [] [.entry a] (r := r) (q := .head here) chain ?_ ?_ ?_ ?_ ?_ ?_ ?_
  · rw [head]
    simp [first]
  · have start := leads_start rest
    rw [or_none, link] at start
    simp [link, Leads, start]
  · have mapped : (e :: lists here).map shown = shown e :: (lists here).map shown := rfl
    rw [mapped, ← contents]
    simp [content, shown]
  · exact fun ptr among => .inr ⟨a, mem_cons_self, mem_singleton.mp among, fresh⟩
  · intro ptr notHead _ inUse
    have old : ptr ≠ .entry a := fun is => fresh (inUse a is)
    simp [notHead, old]
  · exact fun b inUse _ => mem_cons_of_mem a inUse
  · exact fun ptr _ => not_mem_nil

omit [DecidableEq σ] in
theorem Shows.insertBehind (shows : Shows hash lists own) (chain : own here = l ++ q :: r)
    (fresh : a ∉ hash.allocated) (e : HashEntry σ) (size : Nat) (left : (l ++ [q]).map (content hash) = el.map shown)
    (right : r.map (content hash) = er.map shown) :
    Shows { (hash.set (.entry a) ⟨some e.sel, e.selChainBloom, (hash.node q).next⟩).set q
        { hash.node q with next := some (.entry a) } with allocated := a :: hash.allocated, hashSize := size }
      (update lists here (el ++ e :: er)) (update own here (l ++ q :: .entry a :: r)) := by
  have leads := shows.leads here
  rw [chain] at leads
  obtain ⟨_, -, -, rest⟩ := leads_append.mp leads
  have old : q ≠ .entry a := by
    rintro rfl
    rcases shows.inUse here (.entry a) (chain ▸ by simp) with same | ⟨b, allocated, same⟩
    · cases same
    · exact fresh (Ptr.entry.inj same ▸ allocated)
  refine shows.relink [] [.entry a] chain ?_ ?_ ?_ ?_ ?_ ?_ ?_
  · simp only [first, node_set]
    rw [if_neg (show Ptr.head here ≠ .entry a by simp)]
    split
    next same => simp only [same]
    next => rfl
  · have start := leads_start rest
    rw [or_none, link] at start
    simp [link, Leads, start, old.symm]
  · have mapped : (el ++ e :: er).map shown = (l ++ [q]).map (content hash) ++ shown e :: r.map (content hash) := by
      rw [map_append, map_cons, left, right]
    rw [mapped]
    simp [content, shown, old.symm]
  · exact fun ptr among => .inr ⟨a, mem_cons_self, mem_singleton.mp among, fresh⟩
  · intro ptr notLinked _ inUse
    have notNew : ptr ≠ .entry a := fun is => fresh (inUse a is)
    simp [notLinked, notNew]
  · exact fun b inUse _ => mem_cons_of_mem a inUse
  · exact fun ptr _ => not_mem_nil

omit [DecidableEq σ] in
theorem Shows.clear (shows : Shows hash lists own) (here : Place) :
    Shows (hash.set (.head here) { hash.node (.head here) with sel := none, next := none })
      (update lists here []) (update own here []) := by
  refine shows.change (by simp [first, Leads]) rfl (fun ptr among => absurd among not_mem_nil) ?_ ?_
  · intro ptr _ notHead _
    rw [node_set, if_neg notHead]
  · exact fun a allocated _ => allocated

omit [DecidableEq σ] in
theorem Shows.pull (shows : Shows hash lists own) {here : Place} {next : Ptr} {r : List Ptr}
    (chain : own here = .head here :: next :: r) {e n : HashEntry σ} {er : List (HashEntry σ)}
    (entries : lists here = e :: n :: er) :
    Shows (hash.set (.head here) { hash.node (.head here) with sel := (hash.node next).sel, next := (hash.node next).next })
      (update lists here ({ e with sel := n.sel } :: er)) (update own here (.head here :: r)) := by
  have leads := shows.leads here
  have contents := shows.contents here
  rw [chain, entries] at contents
  rw [chain] at leads
  obtain ⟨-, second, rest⟩ := leads
  simp only [map_cons, List.cons.injEq, content, shown, Prod.mk.injEq] at contents
  obtain ⟨⟨-, bloom⟩, ⟨sel, -⟩, others⟩ := contents
  have head : first hash here = some (.head here) := if_pos (shows.head_eq chain).2
  refine shows.relink (l := []) [next] [] (r := r) (q := .head here) chain ?_ ?_ ?_ ?_ ?_ ?_ ?_
  · rw [head]
    simp [first, sel]
  · have start := leads_start rest
    rw [or_none, link] at start
    simp [link, Leads, start]
  · have later : r.map (content hash) = er.map shown := others
    simp [content, shown, sel, bloom, ← later]
  · exact fun ptr among => absurd among not_mem_nil
  · intro ptr notHead _ _
    rw [node_set, if_neg notHead]
  · exact fun a inUse _ => inUse
  · exact fun ptr among => absurd among not_mem_nil

omit [DecidableEq σ] in
theorem Shows.dropBehind (shows : Shows hash lists own) (chain : own here = l ++ q :: .entry a :: r) (size : Nat)
    (left : (l ++ [q]).map (content hash) = el.map shown) (right : r.map (content hash) = er.map shown) :
    Shows { hash.set q { hash.node q with next := (hash.node (.entry a)).next } with
        allocated := hash.allocated.erase a, hashSize := size }
      (update lists here (el ++ er)) (update own here (l ++ q :: r)) := by
  have leads := shows.leads here
  rw [chain] at leads
  obtain ⟨_, -, -, second, rest⟩ := leads_append.mp leads
  refine shows.relink [.entry a] [] chain ?_ ?_ ?_ ?_ ?_ ?_ ?_
  · simp only [first, node_set]
    split
    next same => simp only [same]
    next => rfl
  · have start := leads_start rest
    rw [or_none, link] at start
    simp [link, Leads, start]
  · rw [map_append, ← left, ← right]
    simp [content]
  · exact fun ptr among => absurd among not_mem_nil
  · intro ptr notLinked _ _
    simp [notLinked]
  · intro b inUse notFreed
    have other : b ≠ a := fun same => notFreed (by simp [same])
    exact (mem_erase_of_ne other).mpr inUse
  · exact fun ptr among => absurd among not_mem_nil

omit [DecidableEq σ] in
theorem insertIntoChain_shows (heap : σ → CssSelector δ) (shows : Shows hash lists own) (here : Place) (p : σ) (mem : Malloc) :
    insertIntoChain heap hash here p mem = some (hash, .nomem) ∧ mem.malloc hash.allocated = none ∨
      ∃ hash' ps, insertIntoChain heap hash here p mem = some (hash', .ok) ∧
        Shows hash' (update lists here (SelectorHash.insertIntoChain heap p (lists here)))
          (update own here ps) ∧ (∀ ptr ∈ own here, ptr ∈ ps) ∧
        (hash'.allocated = hash.allocated ∧ hash'.hashSize = hash.hashSize ∨
          ∃ a, a ∉ hash.allocated ∧ .entry a ∈ ps ∧ hash'.allocated = a :: hash.allocated ∧
            hash'.hashSize = hash.hashSize + sizeofHashEntry) := by
  unfold insertIntoChain
  rcases empty : (hash.node (.head here)).sel with _ | q
  · have chain := (shows.empty_iff here).mp empty
    have filled := shows.fill here (newEntry heap p)
    rw [shows.lists_nil chain, SelectorHash.insertIntoChain]
    exact .inr ⟨_, _, rfl, filled, by simp [chain], .inl ⟨rfl, rfl⟩⟩
  dsimp only
  rcases given : mem.malloc hash.allocated with _ | a
  · exact .inl ⟨rfl, rfl⟩
  have fresh := mem.fresh _ a given
  have leads := shows.leads here
  have begins : first hash here = some (.head here) := if_pos (by rw [empty]; rfl)
  rw [begins] at leads
  obtain ⟨l, r, el, er, chain, entries, left, right, found, inserted⟩ :=
    findPlace_eq heap p none leads (shows.contents here) (shows.length_le here)
  dsimp only
  rw [found, inserted, map_some, or_none]
  rcases eq_nil_or_concat l with rfl | ⟨before, q', rfl⟩
  · obtain rfl := map_eq_nil_iff.mp left.symm
    rcases r with _ | ⟨ptr, r⟩
    · rw [chain] at leads
      cases leads
    obtain ⟨rfl, -⟩ := shows.head_eq chain
    have pushed := shows.push chain fresh (newEntry heap p) (hash.hashSize + sizeofHashEntry)
    rw [show lists here = er from entries] at pushed
    refine .inr ⟨_, _, rfl, pushed, ?_, .inr ⟨a, fresh, by simp, rfl, rfl⟩⟩
    intro ptr among
    rw [chain] at among
    rcases mem_cons.mp among with rfl | later
    · exact mem_cons_self
    · exact mem_cons_of_mem _ (mem_cons_of_mem _ later)
  · rw [concat_eq_append, append_assoc, singleton_append] at chain
    rw [concat_eq_append] at left
    have behind := shows.insertBehind chain fresh (newEntry heap p) (hash.hashSize + sizeofHashEntry) left right
    rw [concat_eq_append, List.getLast?_append, List.getLast?_singleton, some_or]
    refine .inr ⟨_, _, rfl, behind, ?_, .inr ⟨a, fresh, by simp, rfl, rfl⟩⟩
    intro ptr among
    rw [chain] at among
    simp only [mem_append, mem_cons] at among ⊢
    tauto

theorem removeFromChain_behind {p : σ} {el er : List (HashEntry σ)} {e : HashEntry σ} (found : e.sel = p)
    (absent : p ∉ el.map (·.sel)) (behind : el ≠ []) :
    SelectorHash.removeFromChain p (el ++ e :: er) = some (el ++ er) := by
  have unlinked : ∀ el : List (HashEntry σ), p ∉ el.map (·.sel) → unlink p (el ++ e :: er) = some (el ++ er) := by
    intro el absent
    induction el with
    | nil => simp [unlink, found]
    | cons x el ih =>
      simp only [map_cons, mem_cons, not_or] at absent
      rw [cons_append, unlink, if_neg (Ne.symm absent.1), ih absent.2]
      rfl
  rcases el with _ | ⟨x, el⟩
  · exact absurd rfl behind
  simp only [map_cons, mem_cons, not_or] at absent
  have rest := unlinked el absent.2
  rcases shape : el ++ e :: er with _ | ⟨next, others⟩
  · simp at shape
  rw [cons_append, shape, SelectorHash.removeFromChain, if_neg (Ne.symm absent.1), ← shape, rest]
  rfl

/-- The ways in which a chain loses a selector: its only entry goes, or the head takes over the selector behind it, or
an entry behind the head is freed. -/
inductive Removal (hash hash' : Hash σ) (here : Place) (p : σ) (chain ps : List Ptr) : Prop
  | alone (single : chain = [.head here]) (allocated : hash'.allocated = hash.allocated)
      (size : hash'.hashSize = hash.hashSize)
  | head {next : Ptr} {r : List Ptr} (found : (hash.node (.head here)).sel = some p)
      (before : chain = .head here :: next :: r) (after : ps = .head here :: r)
      (allocated : hash'.allocated = hash.allocated) (size : hash'.hashSize = hash.hashSize)
  | behind {a : Nat} (notHead : (hash.node (.head here)).sel ≠ some p) (inUse : a ∈ hash.allocated)
      (allocated : hash'.allocated = hash.allocated.erase a) (size : hash'.hashSize = hash.hashSize - sizeofHashEntry)
      (stay : ∀ ptr ∈ chain, ptr ≠ .entry a → ptr ∈ ps)

theorem removeFromChain_shows (shows : Shows hash lists own) (here : Place) (p : σ) :
    removeFromChain hash here p = some (hash, .invalid) ∧ p ∉ (lists here).map (·.sel) ∨
      ∃ hash' ps entries, removeFromChain hash here p = some (hash', .ok) ∧
        SelectorHash.removeFromChain p (lists here) = some entries ∧
        Shows hash' (update lists here entries) (update own here ps) ∧
        Removal hash hash' here p (own here) ps := by
  unfold removeFromChain
  rcases empty : (hash.node (.head here)).sel with _ | q
  · have chain := (shows.empty_iff here).mp empty
    exact .inl ⟨rfl, by simp [shows.lists_nil chain]⟩
  have leads := shows.leads here
  have begins : first hash here = some (.head here) := if_pos (by rw [empty]; rfl)
  rw [begins] at leads
  dsimp only
  rcases findSelector_eq none leads (shows.contents here) (shows.length_le here) with
    ⟨none, absent⟩ | ⟨l, ptr, r, el, e, er, chain, entries, left, middle, right, found, is, absent⟩
  · rw [none]
    exact .inl ⟨rfl, absent⟩
  rw [found, map_some, or_none, entries]
  right
  rcases eq_nil_or_concat l with rfl | ⟨before, q', rfl⟩
  · obtain rfl := map_eq_nil_iff.mp left.symm
    obtain ⟨rfl, -⟩ := shows.head_eq chain
    rw [content, empty] at middle
    have same : q = p := by
      rw [← is]
      exact some_inj.mp (congrArg Prod.fst middle)
    rw [chain] at leads
    obtain ⟨-, rest⟩ := leads
    have next := leads_start rest
    rw [or_none, link] at next
    rcases r with _ | ⟨next', r⟩
    · obtain rfl := map_eq_nil_iff.mp right.symm
      rw [List.head?_nil] at next
      simp only [List.getLast?_nil, unlinkEntry, next]
      exact ⟨_, _, [], rfl, by simp [SelectorHash.removeFromChain, is], shows.clear here, .alone chain rfl rfl⟩
    · rcases er with _ | ⟨n, er⟩
      · cases right
      rw [List.head?_cons] at next
      simp only [List.getLast?_nil, unlinkEntry, next]
      exact ⟨_, _, _, rfl, by simp [SelectorHash.removeFromChain, is], shows.pull chain entries,
        .head (empty.trans (congrArg some same)) chain rfl rfl rfl⟩
  · rw [concat_eq_append, append_assoc, singleton_append] at chain
    rw [concat_eq_append] at left
    have nodup := leads_nodup leads
    have behind : el ≠ [] := by
      rintro rfl
      simp at left
    have notHead : (hash.node (.head here)).sel ≠ some p := by
      intro head
      rcases el with _ | ⟨x, el⟩
      · exact behind rfl
      have contents := shows.contents here
      rcases shape : own here with _ | ⟨first', others⟩
      · rw [shape, entries] at contents
        cases contents
      obtain ⟨rfl, -⟩ := shows.head_eq shape
      rw [shape, entries, cons_append, map_cons, map_cons] at contents
      have sel : some p = some x.sel := head.symm.trans (congrArg Prod.fst (List.cons.inj contents).1)
      exact absent (by simp [some_inj.mp sel])
    rcases shows.inUse here ptr (by simp [chain]) with rfl | ⟨a, inUse, rfl⟩
    · rcases shape : own here with _ | ⟨first', others⟩
      · simp [shape] at chain
      obtain ⟨rfl, -⟩ := shows.head_eq shape
      exact absurd (by rw [← is]; exact (congrArg Prod.fst middle)) notHead
    have dropped := shows.dropBehind chain (hash.hashSize - sizeofHashEntry) left right
    rw [concat_eq_append, List.getLast?_append, List.getLast?_singleton, some_or]
    refine ⟨_, _, el ++ er, rfl, removeFromChain_behind is absent behind, dropped,
      .behind notHead inUse rfl rfl ?_⟩
    intro ptr among other
    rw [chain] at among
    simp only [mem_append, mem_cons] at among ⊢
    tauto

end

end Besra.HashChain
