import Mathlib.Data.List.Basic
import Mathlib.Data.List.Nodup
import Mathlib.Data.List.Perm.Subperm
import Mathlib.Logic.Function.Basic
import Besra.BackPointers

/-!
The hash map of `netsurf/utils/hashmap.c`. An entry is in the chain of its bucket and knows the pointer at it, so that
it is taken out without a search. Keys are cloned and values allocated as entries are made or replaced, each of which
may fail. `none` stands for a pointer that leads nowhere.
-/
namespace Besra.HashMap
open PointerChain BackPointers Function Option List

/-! ### The map -/

/-- `DEFAULT_HASHMAP_BUCKETS` -/
def bucketCount : ℕ := 4091

variable {K V : Type}

/-- `hashmap_parameters_t`: an equality of keys, and a hash that equal keys share. -/
structure Parameters (K : Type) where
  keyHash : K → UInt32
  keyEq : K → K → Bool
  refl : ∀ k, keyEq k k = true
  symm : ∀ k l, keyEq k l = true → keyEq l k = true
  trans : ∀ k l m, keyEq k l = true → keyEq l m = true → keyEq k m = true
  hash : ∀ k l, keyEq k l = true → keyHash k = keyHash l

structure Content (K V : Type) where
  key : K
  value : V
  keyHash : UInt32
deriving DecidableEq

/-- `hashmap_entry_t` -/
structure Entry (K V : Type) extends Content K V where
  prevptr : Place ℕ ℕ
  next : Option ℕ
deriving DecidableEq

/-- `hashmap_t`, with the entries that are allocated. -/
structure Hashmap (K V : Type) where
  buckets : ℕ → Option ℕ
  heap : ℕ → Option (Entry K V)
  entryCount : ℕ

/-- What memory, `key_clone` and `value_alloc` do during a call; each may fail. -/
structure During (params : Parameters K) (V : Type) where
  malloc : (ℕ → Option (Entry K V)) → Option ℕ
  fresh : ∀ heap a, malloc heap = some a → heap a = none
  keyClone : K → Option K
  clone : ∀ k l, keyClone k = some l → params.keyEq k l = true
  valueAlloc : K → Option V

/-- `hashmap_create`, when there is memory. -/
def create : Hashmap K V := ⟨fun _ => none, fun _ => none, 0⟩

namespace Hashmap

/-- What the entry at an address holds. -/
def content (map : Hashmap K V) (a : ℕ) : Option (Content K V) := (map.heap a).map Entry.toContent

/-- The `next` of an entry. -/
def next (map : Hashmap K V) (a : ℕ) : Option ℕ := (map.heap a).bind Entry.next

/-- The `prevptr` of an entry. -/
def back (map : Hashmap K V) (a : ℕ) : Option (Place ℕ ℕ) := (map.heap a).map Entry.prevptr

def slot (map : Hashmap K V) : Place ℕ ℕ → Option ℕ
  | .top bucket => map.buckets bucket
  | .inside a => map.next a

def valid (map : Hashmap K V) : Place ℕ ℕ → Bool
  | .top bucket => bucket < bucketCount
  | .inside a => (map.heap a).isSome

def store (map : Hashmap K V) (place : Place ℕ ℕ) (dest : Option ℕ) : Option (Hashmap K V) :=
  if map.valid place then
    some { map with
      buckets := fun bucket => if place = .top bucket then dest else map.buckets bucket
      heap := fun a => if place = .inside a then (map.heap a).map fun e => { e with next := dest } else map.heap a }
  else none

/-- The `prevptr` of the entry behind a pointer written, if there is one. -/
def hook (map : Hashmap K V) (next : Option ℕ) (place : Place ℕ ℕ) : Option (Hashmap K V) :=
  if next.all fun a => (map.heap a).isSome then
    some { map with
      heap := fun a => if next = some a then (map.heap a).map fun e => { e with prevptr := place } else map.heap a }
  else none

def put (map : Hashmap K V) (a : ℕ) (e : Option (Entry K V)) : Hashmap K V :=
  { map with heap := Function.update map.heap a e }

end Hashmap

/-! ### The functions -/

def bucketOf (hash : UInt32) : ℕ := hash.toNat % bucketCount

def search (map : Hashmap K V) (p : Content K V → Bool) : ℕ → Option ℕ → Option (Option ℕ)
  | _, none => some none
  | 0, some _ => none
  | fuel + 1, some a => (map.heap a).bind fun e => if p e.toContent then some (some a) else search map p fuel e.next

section
variable (params : Parameters K)

def find (map : Hashmap K V) (key : K) : Option (Option ℕ) :=
  let hash := params.keyHash key
  search map (fun e => e.keyHash == hash && params.keyEq key e.key) map.entryCount (map.buckets (bucketOf hash))

/-- `hashmap_lookup` -/
def lookup (map : Hashmap K V) (key : K) : Option (Option V) := do
  match ← find params map key with
  | none => some none
  | some a => (map.heap a).map fun e => some e.value

/-- `hashmap_insert`: the value, or none where something fails. -/
def insert (during : During params V) (map : Hashmap K V) (key : K) : Option (Hashmap K V × Option V) := do
  match ← find params map key with
  | some a =>
    let e ← map.heap a
    match during.keyClone key with
    | none => some (map, none)
    | some newKey =>
      match during.valueAlloc e.key with
      | none => some (map, none)
      | some newValue => some (map.put a (some { e with key := newKey, value := newValue }), some newValue)
  | none =>
    match during.malloc map.heap with
    | none => some (map, none)
    | some a =>
      match during.keyClone key with
      | none => some (map, none)
      | some newKey =>
        match during.valueAlloc newKey with
        | none => some (map, none)
        | some newValue =>
          let bucket := bucketOf (params.keyHash key)
          let next := map.buckets bucket
          let map ← (map.put a (some ⟨⟨newKey, newValue, params.keyHash key⟩, .top bucket, next⟩)).hook next (.inside a)
          let map ← map.store (.top bucket) (some a)
          some ({ map with entryCount := map.entryCount + 1 }, some newValue)

/-- `hashmap_remove`: whether there was an entry. -/
def remove (map : Hashmap K V) (key : K) : Option (Hashmap K V × Bool) := do
  match ← find params map key with
  | none => some (map, false)
  | some a =>
    let e ← map.heap a
    let map ← map.hook e.next e.prevptr
    let map ← map.store e.prevptr e.next
    let map := map.put a none
    some ({ map with entryCount := map.entryCount - 1 }, true)

end

/-- The inner loop of `hashmap_iterate`: the context after the calls, and whether the callback stopped it. -/
def iterateChain {σ : Type} (map : Hashmap K V) (cb : K → V → σ → σ × Bool) : ℕ → Option ℕ → σ → Option (σ × Bool)
  | _, none, ctx => some (ctx, false)
  | 0, some _, _ => none
  | fuel + 1, some a, ctx => do
    let e ← map.heap a
    let (ctx, stop) := cb e.key e.value ctx
    if stop then some (ctx, true) else iterateChain map cb fuel e.next ctx

/-- The outer loop of `hashmap_iterate`, over buckets. -/
def iterateBuckets {σ : Type} (map : Hashmap K V) (cb : K → V → σ → σ × Bool) : List ℕ → σ → Option (σ × Bool)
  | [], ctx => some (ctx, false)
  | bucket :: buckets, ctx => do
    let (ctx, stop) ← iterateChain map cb map.entryCount (map.buckets bucket) ctx
    if stop then some (ctx, true) else iterateBuckets map cb buckets ctx

/-- `hashmap_iterate` -/
def iterate {σ : Type} (map : Hashmap K V) (cb : K → V → σ → σ × Bool) (ctx : σ) : Option (σ × Bool) :=
  iterateBuckets map cb (List.range bucketCount) ctx

/-- `hashmap_count` -/
def count (map : Hashmap K V) : ℕ := map.entryCount

/-! ### Histories -/

/-- A map after calls, and the value that each key should have: that of the latest insert of an equal key that
succeeded, unless one was removed since. -/
inductive After (params : Parameters K) : Hashmap K V → (K → Option V) → Prop
  | create : After params create fun _ => none
  | inserted {map map' : Hashmap K V} {values : K → Option V} {key : K} {value : V} (during : During params V)
      (before : After params map values) (run : insert params during map key = some (map', some value)) :
      After params map' fun k => if params.keyEq k key then some value else values k
  | failed {map map' : Hashmap K V} {values : K → Option V} {key : K} (during : During params V)
      (before : After params map values) (run : insert params during map key = some (map', none)) :
      After params map' values
  | removed {map map' : Hashmap K V} {values : K → Option V} {key : K} {found : Bool} (before : After params map values)
      (run : remove params map key = some (map', found)) :
      After params map' fun k => if params.keyEq k key then none else values k

/-- What a callback makes of pairs, until it stops. -/
def visit {σ : Type} (cb : K → V → σ → σ × Bool) : List (K × V) → σ → σ × Bool
  | [], ctx => (ctx, false)
  | (key, value) :: pairs, ctx =>
    let (ctx, stop) := cb key value ctx
    if stop then (ctx, true) else visit cb pairs ctx

/-! ### What entries say -/

/-- The entries hold the values of a map, one entry for the keys that are equal. -/
structure Represents (params : Parameters K) (content : ℕ → Option (Content K V)) (values : K → Option V) : Prop where
  hash : ∀ a c, content a = some c → c.keyHash = params.keyHash c.key
  distinct : ∀ a b c d, content a = some c → content b = some d → params.keyEq c.key d.key = true → a = b
  values : ∀ key value, values key = some value ↔
    ∃ a c, content a = some c ∧ params.keyEq key c.key = true ∧ c.value = value

section
variable {params : Parameters K}

theorem represents_nothing : Represents params (fun _ => (none : Option (Content K V))) fun _ => none := by
  constructor <;> simp

variable {key : K} {a fuel : ℕ} {ns : List ℕ} {start : Option ℕ} {e : Entry K V}

theorem Represents.update {content : ℕ → Option (Content K V)} {values : K → Option V}
    (represents : Represents params content values) {new : Option (Content K V)}
    (old : ∀ c, content a = some c → params.keyEq key c.key = true)
    (others : ∀ b c, b ≠ a → content b = some c → params.keyEq key c.key = false)
    (equal : ∀ c, new = some c → params.keyEq key c.key = true ∧ c.keyHash = params.keyHash c.key) :
    Represents params (Function.update content a new)
      fun k => if params.keyEq k key then new.map Content.value else values k := by
  have cases : ∀ {b c}, Function.update content a new b = some c → b = a ∧ new = some c ∨ b ≠ a ∧ content b = some c := by
    intro b c there
    by_cases here : b = a
    · subst here
      rw [update_self] at there
      exact .inl ⟨rfl, there⟩
    · rw [update_of_ne here] at there
      exact .inr ⟨here, there⟩
  have apart : ∀ {b c d}, new = some c → b ≠ a → content b = some d → params.keyEq c.key d.key = false := by
    intro b c d changed away there
    have not := others b d away there
    by_contra same
    rw [params.trans _ _ _ (equal c changed).1 (by simpa using same)] at not
    cases not
  refine ⟨fun b c there => ?_, fun b b' c d one two same => ?_, fun k value => ?_⟩
  · rcases cases there with ⟨-, changed⟩ | ⟨-, kept⟩
    · exact (equal c changed).2
    · exact represents.hash b c kept
  · rcases cases one with ⟨rfl, changed⟩ | ⟨away, kept⟩ <;> rcases cases two with ⟨rfl, changed'⟩ | ⟨away', kept'⟩
    · rfl
    · rw [apart changed away' kept'] at same
      cases same
    · have swapped := params.symm _ _ same
      rw [apart changed' away kept] at swapped
      cases swapped
    · exact represents.distinct b b' c d kept kept' same
  · split
    next same =>
      constructor
      · intro found
        obtain ⟨c, changed, rfl⟩ := map_eq_some_iff.mp found
        exact ⟨a, c, by rw [update_self, changed], params.trans _ _ _ same (equal c changed).1, rfl⟩
      · rintro ⟨b, c, there, equals, rfl⟩
        rcases cases there with ⟨-, changed⟩ | ⟨away, kept⟩
        · rw [changed]
          rfl
        · have not := others b c away kept
          rw [params.trans _ _ _ (params.symm _ _ same) equals] at not
          cases not
    next differs =>
      rw [represents.values]
      constructor
      · rintro ⟨b, c, there, equals, rfl⟩
        have away : b ≠ a := by
          rintro rfl
          exact differs (params.trans _ _ _ equals (params.symm _ _ (old c there)))
        exact ⟨b, c, by rw [update_of_ne away, there], equals, rfl⟩
      · rintro ⟨b, c, there, equals, rfl⟩
        rcases cases there with ⟨-, changed⟩ | ⟨-, kept⟩
        · exact absurd (params.trans _ _ _ equals (params.symm _ _ (equal c changed).1)) differs
        · exact ⟨b, c, kept, equals, rfl⟩

/-! ### What the links lead to -/

/-- The chains of the buckets lead to every entry, and their number is kept. -/
structure Holds (params : Parameters K) (map : Hashmap K V) (values : K → Option V) (chains : ℕ → List ℕ) : Prop where
  represents : Represents params map.content values
  hung : Hung map.next map.back map.buckets chains
  chained : ∀ i a, a ∈ chains i ↔ ∃ c, map.content a = some c ∧ bucketOf c.keyHash = i
  counted : ∃ members : List ℕ, members.Nodup ∧ (∀ a, a ∈ members ↔ (map.content a).isSome) ∧
    map.entryCount = members.length

namespace Hashmap
variable {map : Hashmap K V}

theorem content_eq_some {a : ℕ} {c : Content K V} (there : map.content a = some c) :
    ∃ e, map.heap a = some e ∧ e.toContent = c := map_eq_some_iff.mp there

theorem isSome_content (a : ℕ) : (map.content a).isSome = (map.heap a).isSome := isSome_map

theorem content_put (a : ℕ) (e : Option (Entry K V)) :
    (map.put a e).content = Function.update map.content a (e.map Entry.toContent) := by
  funext x
  by_cases here : x = a
  · subst here
    simp [put, content]
  · simp [put, content, here]

theorem next_put (a : ℕ) (e : Option (Entry K V)) (x : ℕ) :
    (map.put a e).next x = if x = a then e.bind Entry.next else map.next x := by
  by_cases here : x = a
  · subst here
    simp [put, next]
  · simp [put, next, here]

theorem back_put (a : ℕ) (e : Option (Entry K V)) (x : ℕ) :
    (map.put a e).back x = if x = a then e.map Entry.prevptr else map.back x := by
  by_cases here : x = a
  · subst here
    simp [put, back]
  · simp [put, back, here]

theorem hook_eq {next : Option ℕ} (there : ∀ a, next = some a → (map.heap a).isSome) (place : Place ℕ ℕ) :
    ∃ map', map.hook next place = some map' ∧ map'.content = map.content ∧ map'.buckets = map.buckets ∧
      map'.entryCount = map.entryCount ∧ map'.next = map.next ∧
      (∀ x, map'.back x = if next = some x then some place else map.back x) ∧
      ∀ p, map'.valid p = map.valid p := by
  have all : next.all (fun a => (map.heap a).isSome) = true := by
    rcases next with _ | a
    · rfl
    · exact there a rfl
  refine ⟨_, if_pos all, ?_, rfl, rfl, ?_, fun x => ?_, fun p => ?_⟩
  · funext x
    simp only [content]
    split
    · cases map.heap x <;> rfl
    · rfl
  · funext x
    simp only [Hashmap.next]
    split
    · cases map.heap x <;> rfl
    · rfl
  · simp only [back]
    split
    next here =>
      obtain ⟨e, found⟩ := isSome_iff_exists.mp (there x here)
      rw [found]
      rfl
    next => rfl
  · rcases p with i | x
    · rfl
    · simp only [valid]
      split
      · exact isSome_map
      · rfl

theorem store_eq {place : Place ℕ ℕ} (there : map.valid place = true) (dest : Option ℕ) :
    ∃ map', map.store place dest = some map' ∧ map'.content = map.content ∧
      (∀ i, map'.buckets i = if place = .top i then dest else map.buckets i) ∧ map'.entryCount = map.entryCount ∧
      (∀ x, map'.next x = if place = .inside x then dest else map.next x) ∧ map'.back = map.back := by
  refine ⟨_, if_pos there, ?_, fun _ => rfl, rfl, fun x => ?_, ?_⟩
  · funext x
    simp only [content]
    split
    · cases map.heap x <;> rfl
    · rfl
  · simp only [next]
    split
    next here =>
      subst here
      obtain ⟨e, found⟩ := isSome_iff_exists.mp there
      rw [found]
      rfl
    next => rfl
  · funext x
    simp only [back]
    split
    · cases map.heap x <;> rfl
    · rfl

end Hashmap

open Hashmap

variable {map : Hashmap K V} {values : K → Option V} {chains : ℕ → List ℕ}

theorem bucketOf_lt (hash : UInt32) : bucketOf hash < bucketCount := Nat.mod_lt _ (by decide)

theorem holds_create : Holds params (create : Hashmap K V) (fun _ => none) fun _ => [] :=
  ⟨represents_nothing, ⟨fun _ => rfl, by simp⟩, by simp [create, content], [], nodup_nil, by simp [create, content], rfl⟩

theorem Holds.there (holds : Holds params map values chains) {i : ℕ} (member : a ∈ chains i) :
    (map.heap a).isSome = true := by
  obtain ⟨c, found, -⟩ := (holds.chained i a).mp member
  rw [← isSome_content, found]
  rfl

theorem Holds.length_le (holds : Holds params map values chains) (i : ℕ) : (chains i).length ≤ map.entryCount := by
  obtain ⟨members, -, all, counted⟩ := holds.counted
  rw [counted]
  refine ((holds.hung.nodup i).subperm fun a member => (all a).mpr ?_).length_le
  rw [isSome_content]
  exact holds.there member

theorem search_eq (p : Content K V → Bool) (leads : Leads map.next start ns none) (enough : ns.length ≤ fuel)
    (there : ∀ n ∈ ns, (map.heap n).isSome = true) :
    search map p fuel start = some (ns.find? fun a => (map.content a).any p) := by
  induction ns generalizing start fuel with
  | nil =>
    obtain rfl : start = none := leads
    rcases fuel with _ | fuel <;> rfl
  | cons n ns ih =>
    obtain ⟨rfl, rest⟩ := leads
    obtain ⟨e, found⟩ := isSome_iff_exists.mp (there n mem_cons_self)
    rcases fuel with _ | fuel
    · simp at enough
    · rw [search, found, bind_some, List.find?_cons, content, found, map_some, any_some]
      rcases p e.toContent
      · rw [if_neg Bool.false_ne_true]
        refine ih ?_ (Nat.le_of_succ_le_succ enough) fun m member => there m (mem_cons_of_mem _ member)
        rwa [Hashmap.next, found] at rest
      · rfl

theorem Holds.find_cases (holds : Holds params map values chains) (key : K) :
    find params map key = some none ∧ (∀ a c, map.content a = some c → params.keyEq key c.key = false) ∨
      ∃ a c, find params map key = some (some a) ∧ map.content a = some c ∧ params.keyEq key c.key = true := by
  have found := search_eq (fun e => e.keyHash == params.keyHash key && params.keyEq key e.key)
    (holds.hung.hooked (bucketOf (params.keyHash key))).leads (holds.length_le _) fun n => holds.there
  rcases result : (chains (bucketOf (params.keyHash key))).find? _ with _ | a
  · refine .inl ⟨found.trans (congrArg some result), fun a c there => ?_⟩
    by_contra equal
    replace equal : params.keyEq key c.key = true := by simpa using equal
    have hash := (holds.represents.hash a c there).trans (params.hash _ _ equal).symm
    have member := (holds.chained _ a).mpr ⟨c, there, congrArg bucketOf hash⟩
    exact List.find?_eq_none.mp result a member (by simp [there, hash, equal])
  · have holding := List.find?_some result
    rw [Option.any_eq_true] at holding
    obtain ⟨c, there, equal⟩ := holding
    exact .inr ⟨a, c, found.trans (congrArg some result), there, (Bool.and_eq_true_iff.mp equal).2⟩

theorem Holds.prevptr (holds : Holds params map values chains) (found : map.heap a = some e) :
    map.valid e.prevptr = true ∧ map.slot e.prevptr = some a ∧ ∀ b, e.next = some b → (map.heap b).isSome = true := by
  have there : map.content a = some e.toContent := by rw [content, found, map_some]
  have member := (holds.chained _ a).mpr ⟨e.toContent, there, rfl⟩
  have hooked := holds.hung.hooked (bucketOf e.keyHash)
  have own : map.back a = some e.prevptr := by rw [back, found, map_some]
  refine ⟨?_, ?_, fun b link => ?_⟩
  · rcases hooked.back_among member with top | ⟨m, listed, inside⟩
    · obtain same := Option.some.inj (own.symm.trans top)
      rw [same]
      exact decide_eq_true (bucketOf_lt _)
    · obtain same := Option.some.inj (own.symm.trans inside)
      rw [same]
      exact holds.there listed
  · rcases hooked.points member with ⟨top, first⟩ | ⟨m, -, inside, link⟩
    · rw [Option.some.inj (own.symm.trans top)]
      exact first
    · rw [Option.some.inj (own.symm.trans inside)]
      exact link
  · have step : map.next a = some b := by rw [Hashmap.next, found, bind_some, link]
    exact holds.there (leads_closed hooked.leads member step)

/-! ### What a call keeps -/

def changed (params : Parameters K) (values : K → Option V) (key : K) (value : Option V) : K → Option V :=
  fun k => if params.keyEq k key then value else values k

theorem Holds.replace (holds : Holds params map values chains) {newKey : K} {value : V} (found : map.heap a = some e)
    (equal : params.keyEq key e.key = true) (clone : params.keyEq key newKey = true) :
    Holds params (map.put a (some { e with key := newKey, value := value })) (changed params values key (some value))
      chains := by
  have there : map.content a = some e.toContent := by rw [content, found, map_some]
  have hash := holds.represents.hash a _ there
  have only : ∀ b c, b ≠ a → map.content b = some c → params.keyEq key c.key = false := by
    intro b c away other
    by_contra same
    refine away (holds.represents.distinct b a c _ other there ?_)
    exact params.trans _ _ _ (params.symm _ _ (by simpa using same)) equal
  have hash' : e.keyHash = params.keyHash newKey := hash.trans ((params.hash _ _ equal).symm.trans (params.hash _ _ clone))
  have represents : Represents params (Function.update map.content a (some ⟨newKey, value, e.keyHash⟩))
      (changed params values key (some value)) := by
    refine holds.represents.update (fun c same => ?_) only fun c same => ?_
    · rw [there] at same
      exact Option.some.inj same ▸ equal
    · exact Option.some.inj same ▸ ⟨clone, hash'⟩
  have kept : ∀ b, ((Function.update map.content a (some ⟨newKey, value, e.keyHash⟩)) b).isSome = (map.content b).isSome := by
    intro b
    by_cases here : b = a
    · subst here
      rw [update_self, there]
      rfl
    · rw [update_of_ne here]
  refine ⟨?_, ?_, fun i b => ?_, ?_⟩
  · rw [content_put]
    exact represents
  · refine holds.hung.congr (fun _ => rfl) (fun i n _ => ?_) fun i n _ => ?_
    · rw [next_put]
      split
      next here => rw [here, Hashmap.next, found]; rfl
      next => rfl
    · rw [back_put]
      split
      next here => rw [here, back, found]; rfl
      next => rfl
  · rw [holds.chained, content_put]
    by_cases here : b = a
    · subst here
      rw [update_self, there]
      simp
    · rw [map_some, update_of_ne here]
  · obtain ⟨members, nodup, all, counted⟩ := holds.counted
    refine ⟨members, nodup, fun b => ?_, counted⟩
    rw [content_put, all]
    exact (congrArg (· = true) (kept b)).symm.to_iff

/-- A new entry at the top of the chain of its bucket. -/
theorem Holds.add (holds : Holds params map values chains) {key newKey : K} {value : V} {a : ℕ} (fresh : map.heap a = none)
    (none_ : ∀ b c, map.content b = some c → params.keyEq key c.key = false) (clone : params.keyEq key newKey = true) :
    let bucket := bucketOf (params.keyHash key)
    let next := map.buckets bucket
    ∃ map₁ map₂, (map.put a (some ⟨⟨newKey, value, params.keyHash key⟩, .top bucket, next⟩)).hook next (.inside a) =
      some map₁ ∧ map₁.store (.top bucket) (some a) = some map₂ ∧
      Holds params { map₂ with entryCount := map₂.entryCount + 1 } (changed params values key (some value))
        fun i => if i = bucket then a :: chains bucket else chains i := by
  intro bucket next
  have absent : ∀ i, a ∉ chains i := by
    intro i member
    have there := holds.there member
    rw [fresh] at there
    cases there
  have elsewhere : next ≠ some a := fun same => absent bucket (holds.hung.top_mem same)
  have nothing : map.content a = none := by rw [content, fresh, map_none]
  let e : Entry K V := ⟨⟨newKey, value, params.keyHash key⟩, .top bucket, next⟩
  have there : ∀ b, next = some b → ((map.put a (some e)).heap b).isSome = true := by
    intro b first
    rw [← isSome_content, content_put, update_of_ne, isSome_content]
    · exact holds.there (holds.hung.top_mem first)
    · rintro rfl
      exact elsewhere first
  obtain ⟨map₁, hooked, content₁, buckets₁, count₁, next₁, back₁, valid₁⟩ := hook_eq there (.inside a)
  have valid : map₁.valid (.top bucket) = true := decide_eq_true (bucketOf_lt _)
  obtain ⟨map₂, stored, content₂, buckets₂, count₂, next₂, back₂⟩ := store_eq valid (some a)
  have contents : map₂.content = Function.update map.content a (some e.toContent) := by
    rw [content₂, content₁, content_put, map_some]
  refine ⟨map₁, map₂, hooked, stored, ?_, ?_, fun i b => ?_, ?_⟩
  · show Represents params map₂.content _
    rw [contents]
    refine holds.represents.update (fun c same => ?_) (fun b c _ => none_ b c) fun c same => ?_
    · rw [nothing] at same
      cases same
    · rw [← Option.some.inj same]
      exact ⟨clone, params.hash _ _ clone⟩
  · refine holds.hung.push absent (fun i => ?_) ?_ ?_ (fun m away => ?_) fun m away => ?_
    · rw [buckets₂, buckets₁]
      simp only [Place.top.injEq, eq_comm (a := bucket)]
      rfl
    · show map₂.next a = _
      rw [next₂, if_neg (by simp), next₁, next_put, if_pos rfl]
      rfl
    · show map₂.back a = _
      rw [back₂, back₁, if_neg elsewhere, back_put, if_pos rfl]
      rfl
    · show map₂.next m = _
      rw [next₂, if_neg (by simp), next₁, next_put, if_neg away]
    · show map₂.back m = _
      rw [back₂, back₁, back_put, if_neg away]
  · show _ ↔ ∃ c, map₂.content b = some c ∧ _
    rw [contents]
    by_cases here : b = a
    · subst here
      rw [update_self]
      split
      next same => simp [same, e, bucket]
      next other => exact iff_of_false (absent i) (by rintro ⟨c, same, rfl⟩; exact other (Option.some.inj same ▸ rfl))
    · rw [update_of_ne here, ← holds.chained]
      split
      next same => rw [same, mem_cons, or_iff_right here]
      next => rfl
  · obtain ⟨members, nodup, all, counted⟩ := holds.counted
    refine ⟨a :: members, nodup_cons.mpr ⟨?_, nodup⟩, fun b => ?_, ?_⟩
    · rw [all, nothing]
      simp
    · show _ ↔ (map₂.content b).isSome = true
      rw [contents]
      by_cases here : b = a
      · subst here
        simp
      · rw [update_of_ne here, mem_cons, or_iff_right here, all]
    · show map₂.entryCount + 1 = _
      rw [count₂, count₁, length_cons, ← counted]
      rfl

theorem Holds.drop (holds : Holds params map values chains) (found : map.heap a = some e)
    (equal : params.keyEq key e.key = true) :
    ∃ map₁ map₂, map.hook e.next e.prevptr = some map₁ ∧ map₁.store e.prevptr e.next = some map₂ ∧
      Holds params { map₂.put a none with entryCount := map₂.entryCount - 1 } (changed params values key none)
        fun i => (chains i).filter (· ≠ a) := by
  have there : map.content a = some e.toContent := by rw [content, found, map_some]
  have member := (holds.chained _ a).mpr ⟨e.toContent, there, rfl⟩
  have own : map.back a = some e.prevptr := by rw [back, found, map_some]
  have link : map.next a = e.next := by rw [Hashmap.next, found, bind_some]
  obtain ⟨place, -, after⟩ := holds.prevptr found
  obtain ⟨map₁, hooked, content₁, buckets₁, count₁, next₁, back₁, valid₁⟩ := hook_eq after e.prevptr
  obtain ⟨map₂, stored, content₂, buckets₂, count₂, next₂, back₂⟩ := store_eq ((valid₁ _).trans place) e.next
  have contents : (map₂.put a none).content = Function.update map.content a none := by
    rw [content_put, content₂, content₁, map_none]
  refine ⟨map₁, map₂, hooked, stored, ?_, ?_, fun i b => ?_, ?_⟩
  · show Represents params (map₂.put a none).content _
    rw [contents]
    refine holds.represents.update (fun c same => ?_) (fun b c away other => ?_) fun c same => by cases same
    · rw [there] at same
      exact Option.some.inj same ▸ equal
    · by_contra same
      refine away (holds.represents.distinct b a c _ other there ?_)
      exact params.trans _ _ _ (params.symm _ _ (by simpa using same)) equal
  · refine holds.hung.remove member own (fun i => ?_) (fun m away => ?_) fun m away => ?_
    · show map₂.buckets i = _
      rw [buckets₂, buckets₁, link]
    · show (map₂.put a none).next m = _
      rw [next_put, if_neg away, next₂, next₁, link]
    · show (map₂.put a none).back m = _
      rw [back_put, if_neg away, back₂, back₁, link]
  · show _ ↔ ∃ c, (map₂.put a none).content b = some c ∧ _
    rw [contents, mem_filter, holds.chained]
    by_cases here : b = a
    · subst here
      simp
    · simp [here]
  · obtain ⟨members, nodup, all, counted⟩ := holds.counted
    have among : a ∈ members := (all a).mpr (by rw [there]; rfl)
    refine ⟨members.erase a, nodup.erase a, fun b => ?_, ?_⟩
    · show _ ↔ ((map₂.put a none).content b).isSome = true
      rw [contents, nodup.mem_erase_iff, all]
      by_cases here : b = a
      · subst here
        simp
      · simp [here]
    · show map₂.entryCount - 1 = _
      rw [count₂, count₁, counted, length_erase_of_mem among]

theorem Holds.insert_cases (holds : Holds params map values chains) (during : During params V) (key : K) :
    insert params during map key = some (map, none) ∨
      ∃ map' value chains', insert params during map key = some (map', some value) ∧
        Holds params map' (changed params values key (some value)) chains' := by
  rw [HashMap.insert]
  rcases holds.find_cases key with ⟨search, none_⟩ | ⟨a, c, search, there, equal⟩
  · rw [search]
    simp only [bind_eq_bind, bind_some]
    rcases memory : during.malloc map.heap with _ | a
    · exact .inl rfl
    · rcases cloned : during.keyClone key with _ | newKey
      · exact .inl rfl
      · rcases allocated : during.valueAlloc newKey with _ | value
        · simp [allocated]
        · obtain ⟨map₁, map₂, hooked, stored, holds'⟩ :=
            @Holds.add _ _ _ _ _ _ holds key newKey value a (during.fresh _ a memory) none_ (during.clone _ _ cloned)
          refine .inr ⟨_, value, _, ?_, holds'⟩
          simp [allocated, hooked, stored]
  · obtain ⟨e, found, rfl⟩ := content_eq_some there
    rw [search]
    simp only [bind_eq_bind, bind_some, found]
    rcases cloned : during.keyClone key with _ | newKey
    · exact .inl rfl
    · rcases allocated : during.valueAlloc e.key with _ | value
      · simp
      · exact .inr ⟨_, value, chains, by simp, holds.replace found equal (during.clone _ _ cloned)⟩

theorem Holds.remove_cases (holds : Holds params map values chains) (key : K) :
    ∃ map' chains', remove params map key = some (map', (values key).isSome) ∧
      Holds params map' (changed params values key none) chains' := by
  rw [remove]
  rcases holds.find_cases key with ⟨search, none_⟩ | ⟨a, c, search, there, equal⟩
  · have nothing : ∀ k, params.keyEq k key = true → values k = none := by
      intro k same
      by_contra some_
      obtain ⟨value, holding⟩ := ne_none_iff_exists'.mp some_
      obtain ⟨a, c, there, equal, -⟩ := (holds.represents.values k value).mp holding
      have not := none_ a c there
      rw [params.trans _ _ _ (params.symm _ _ same) equal] at not
      cases not
    have same : changed params values key none = values := by
      funext k
      rw [changed]
      split
      next equal => exact (nothing k equal).symm
      next => rfl
    rw [search, same, nothing key (params.refl key)]
    exact ⟨map, chains, rfl, holds⟩
  · obtain ⟨e, found, rfl⟩ := content_eq_some there
    obtain ⟨map₁, map₂, hooked, stored, holds'⟩ := holds.drop found equal
    have some_ : values key = some e.value := (holds.represents.values key e.value).mpr ⟨a, _, there, equal, rfl⟩
    refine ⟨_, _, ?_, holds'⟩
    rw [search, some_]
    simp [found, hooked, stored, Hashmap.put]

theorem Holds.lookup_eq (holds : Holds params map values chains) (key : K) : lookup params map key = some (values key) := by
  rw [lookup]
  rcases holds.find_cases key with ⟨search, none_⟩ | ⟨a, c, search, there, equal⟩
  · rw [search]
    refine congrArg some (Eq.symm ?_)
    by_contra some_
    obtain ⟨value, holding⟩ := ne_none_iff_exists'.mp some_
    obtain ⟨a, c, there, equal, -⟩ := (holds.represents.values key value).mp holding
    rw [none_ a c there] at equal
    cases equal
  · obtain ⟨e, found, rfl⟩ := content_eq_some there
    have some_ : values key = some e.value := (holds.represents.values key e.value).mpr ⟨a, _, there, equal, rfl⟩
    rw [search, some_]
    simp [found]

theorem After.holds (after : After params map values) : ∃ chains, Holds params map values chains := by
  induction after with
  | create => exact ⟨_, holds_create⟩
  | @inserted map map' values key value during _ run ih =>
    obtain ⟨chains, holds⟩ := ih
    rcases holds.insert_cases during key with fails | ⟨map'', value', chains', succeeds, holds'⟩
    · rw [run] at fails
      cases fails
    · obtain ⟨rfl, same⟩ := Prod.mk.inj (Option.some.inj (run.symm.trans succeeds))
      obtain rfl := Option.some.inj same
      exact ⟨chains', holds'⟩
  | @failed map map' values key during _ run ih =>
    obtain ⟨chains, holds⟩ := ih
    rcases holds.insert_cases during key with fails | ⟨map'', value', chains', succeeds, -⟩
    · obtain ⟨rfl, -⟩ := Prod.mk.inj (Option.some.inj (run.symm.trans fails))
      exact ⟨chains, holds⟩
    · rw [run] at succeeds
      cases succeeds
  | @removed map map' values key found _ run ih =>
    obtain ⟨chains, holds⟩ := ih
    obtain ⟨map'', chains', removed, holds'⟩ := holds.remove_cases key
    obtain ⟨rfl, -⟩ := Prod.mk.inj (Option.some.inj (run.symm.trans removed))
    exact ⟨chains', holds'⟩

/-! ### Iteration -/

def pairs (map : Hashmap K V) (ns : List ℕ) : List (K × V) :=
  ns.filterMap fun a => (map.content a).map fun c => (c.key, c.value)

theorem visit_append {σ : Type} (cb : K → V → σ → σ × Bool) (l r : List (K × V)) (ctx : σ) :
    visit cb (l ++ r) ctx = if (visit cb l ctx).2 then visit cb l ctx else visit cb r (visit cb l ctx).1 := by
  induction l generalizing ctx with
  | nil => rfl
  | cons p l ih =>
    obtain ⟨key, value⟩ := p
    rw [cons_append, visit, visit]
    rcases cb key value ctx with ⟨ctx', stop⟩
    cases stop
    · exact ih ctx'
    · rfl

theorem iterateChain_eq {σ : Type} (cb : K → V → σ → σ × Bool) (leads : Leads map.next start ns none)
    (enough : ns.length ≤ fuel) (there : ∀ n ∈ ns, (map.heap n).isSome = true) (ctx : σ) :
    iterateChain map cb fuel start ctx = some (visit cb (pairs map ns) ctx) := by
  induction ns generalizing start fuel ctx with
  | nil =>
    obtain rfl : start = none := leads
    rcases fuel with _ | fuel <;> rfl
  | cons n ns ih =>
    obtain ⟨rfl, rest⟩ := leads
    obtain ⟨e, found⟩ := isSome_iff_exists.mp (there n mem_cons_self)
    rcases fuel with _ | fuel
    · simp at enough
    · have first : pairs map (n :: ns) = (e.key, e.value) :: pairs map ns := by simp [pairs, content, found]
      rw [Hashmap.next, found] at rest
      have later := ih rest (Nat.le_of_succ_le_succ enough) (fun m member => there m (mem_cons_of_mem _ member))
      rw [iterateChain, found, first, visit]
      simp only [bind_eq_bind, bind_some]
      rcases cb e.key e.value ctx with ⟨ctx', stop⟩
      cases stop
      · exact later ctx'
      · rfl

theorem Holds.iterateBuckets_eq {σ : Type} (holds : Holds params map values chains) (cb : K → V → σ → σ × Bool)
    (buckets : List ℕ) (ctx : σ) :
    iterateBuckets map cb buckets ctx = some (visit cb (pairs map (buckets.flatMap chains)) ctx) := by
  induction buckets generalizing ctx with
  | nil => rfl
  | cons bucket buckets ih =>
    have chain := iterateChain_eq cb (holds.hung.hooked bucket).leads (holds.length_le bucket) (fun n => holds.there) ctx
    have split : pairs map ((bucket :: buckets).flatMap chains) =
        pairs map (chains bucket) ++ pairs map (buckets.flatMap chains) := by
      rw [flatMap_cons, pairs, filterMap_append, pairs, pairs]
    rw [iterateBuckets, chain, split, visit_append]
    simp only [bind_eq_bind, bind_some]
    rw [ih]
    rcases visit cb (pairs map (chains bucket)) ctx with ⟨ctx', stop⟩
    cases stop <;> rfl

theorem Holds.all (holds : Holds params map values chains) : ((List.range bucketCount).flatMap chains).Nodup ∧
    ∀ a, a ∈ (List.range bucketCount).flatMap chains ↔ (map.content a).isSome = true := by
  refine ⟨nodup_flatMap.mpr ⟨fun i _ => holds.hung.nodup i, ?_⟩, fun a => ?_⟩
  · refine nodup_range.imp fun {i j} apart => ?_
    exact disjoint_left.mpr fun a one two => apart (holds.hung.apart i j a one two)
  · rw [mem_flatMap]
    constructor
    · rintro ⟨i, -, member⟩
      rw [isSome_content]
      exact holds.there member
    · intro some_
      obtain ⟨c, there⟩ := isSome_iff_exists.mp some_
      exact ⟨_, mem_range.mpr (bucketOf_lt _), (holds.chained _ a).mpr ⟨c, there, rfl⟩⟩

theorem mem_pairs {p : K × V} : p ∈ pairs map ns ↔ ∃ a ∈ ns, ∃ c, map.content a = some c ∧ (c.key, c.value) = p := by
  simp only [pairs, mem_filterMap, map_eq_some_iff]

theorem Holds.pairs_length (holds : Holds params map values chains) :
    (pairs map ((List.range bucketCount).flatMap chains)).length = map.entryCount := by
  obtain ⟨nodup, every⟩ := holds.all
  obtain ⟨members, nodup', all, counted⟩ := holds.counted
  have same := (perm_ext_iff_of_nodup nodup nodup').mpr fun a => (every a).trans (all a).symm
  rw [counted, ← same.length_eq, pairs, length_filterMap_eq_countP, countP_eq_length]
  intro a member
  rw [isSome_map]
  exact (every a).mp member

theorem Holds.pairs_distinct (holds : Holds params map values chains) :
    (pairs map ((List.range bucketCount).flatMap chains)).Pairwise fun p q => params.keyEq p.1 q.1 = false := by
  rw [pairs, pairwise_filterMap]
  refine holds.all.1.imp fun {a b} apart p one q two => ?_
  obtain ⟨c, there, rfl⟩ := map_eq_some_iff.mp one
  obtain ⟨d, there', rfl⟩ := map_eq_some_iff.mp two
  by_contra same
  exact apart (holds.represents.distinct a b c d there there' (by simpa using same))

theorem Holds.pairs_values (holds : Holds params map values chains) (key : K) (value : V) :
    values key = some value ↔
      ∃ p ∈ pairs map ((List.range bucketCount).flatMap chains), params.keyEq key p.1 = true ∧ p.2 = value := by
  rw [holds.represents.values]
  constructor
  · rintro ⟨a, c, there, equal, rfl⟩
    exact ⟨_, mem_pairs.mpr ⟨a, (holds.all.2 a).mpr (by rw [there]; rfl), c, there, rfl⟩, equal, rfl⟩
  · rintro ⟨p, member, equal, rfl⟩
    obtain ⟨a, -, c, there, rfl⟩ := mem_pairs.mp member
    exact ⟨a, c, there, equal, rfl⟩

/-- After any calls the map says what they made of it: each key has the value it should have, and the pairs that
`hashmap_iterate` visits are those of the keys with a value, as many as `hashmap_count` says. A failed insert changes
nothing, a remove finds what there is, and an entry's `prevptr` is the place of the pointer at it. -/
theorem hashmap_refines_map (after : After params map values) :
    (∀ key, lookup params map key = some (values key)) ∧
    (∃ visited : List (K × V), visited.Pairwise (fun p q => params.keyEq p.1 q.1 = false) ∧
      (∀ key value, values key = some value ↔ ∃ p ∈ visited, params.keyEq key p.1 = true ∧ p.2 = value) ∧
      count map = visited.length ∧
      ∀ (σ : Type) (cb : K → V → σ → σ × Bool) (ctx : σ), iterate map cb ctx = some (visit cb visited ctx)) ∧
    (∀ (during : During params V) key, insert params during map key = some (map, none) ∨
      ∃ map' value, insert params during map key = some (map', some value)) ∧
    (∀ key, ∃ map', remove params map key = some (map', (values key).isSome)) ∧
    ∀ a e, map.heap a = some e → map.slot e.prevptr = some a := by
  obtain ⟨chains, holds⟩ := after.holds
  refine ⟨holds.lookup_eq, ⟨_, holds.pairs_distinct, holds.pairs_values, holds.pairs_length.symm, fun σ cb ctx => ?_⟩,
    fun during key => ?_, fun key => ?_, fun a e found => (holds.prevptr found).2.1⟩
  · exact holds.iterateBuckets_eq cb _ ctx
  · rcases holds.insert_cases during key with fails | ⟨map', value, -, succeeds, -⟩
    · exact .inl fails
    · exact .inr ⟨map', value, succeeds⟩
  · obtain ⟨map', -, removed, -⟩ := holds.remove_cases key
    exact ⟨map', removed⟩

end

/-- Keys that are equal when they are the same, with hashes that all share a bucket. -/
def naturals : Parameters ℕ where
  keyHash _ := 7
  keyEq k l := k == l
  refl := by simp
  symm := by simp
  trans := by simp
  hash := by simp

/-- A call in which there is memory for two entries, and the value of a key is that many above it. -/
def supplied (above : ℕ) : During naturals ℕ where
  malloc heap := (List.range 2).find? fun a => (heap a).isNone
  fresh heap a memory := by simpa using List.find?_some memory
  keyClone := some
  clone := by simp [naturals]
  valueAlloc key := some (key + above)

/-- Two keys in one bucket, the first of which is given another value before the second is removed. -/
theorem hashmap_refines_map_inserted : ∃ one two three four,
    insert naturals (supplied 0) create 5 = some (one, some 5) ∧ insert naturals (supplied 0) one 8 = some (two, some 8) ∧
    insert naturals (supplied 1) two 5 = some (three, some 6) ∧ remove naturals three 8 = some (four, true) ∧
    lookup naturals four 5 = some (some 6) ∧ lookup naturals four 8 = some none ∧ count four = 1 := by
  obtain ⟨one, insert₅⟩ : ∃ map, insert naturals (supplied 0) create 5 = some (map, some 5) := ⟨_, rfl⟩
  obtain ⟨two, insert₈⟩ : ∃ map, insert naturals (supplied 0) one 8 = some (map, some 8) := by cases insert₅; exact ⟨_, rfl⟩
  obtain ⟨three, replaced⟩ : ∃ map, insert naturals (supplied 1) two 5 = some (map, some 6) := by
    cases insert₅; cases insert₈; exact ⟨_, rfl⟩
  obtain ⟨four, removed, left⟩ : ∃ map, remove naturals three 8 = some (map, true) ∧ count map = 1 := by
    cases insert₅; cases insert₈; cases replaced; exact ⟨_, rfl, rfl⟩
  have after := hashmap_refines_map <|
    .removed (.inserted (supplied 1) (.inserted _ (.inserted _ .create insert₅) insert₈) replaced) removed
  exact ⟨one, two, three, four, insert₅, insert₈, replaced, removed, after.1 5, after.1 8, left⟩

end Besra.HashMap
