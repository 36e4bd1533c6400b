import Mathlib
import Besra.BackPointers
import Besra.InternNeeds

/-!
The interned strings of `libwapcaplet/src/libwapcaplet.c` as they are linked in memory. A
string is in the chain of its bucket and knows the pointer at it (`prevptr`). Memory shows a table
(`Shows`) when the chain of a bucket lists the table's strings with a hash for that bucket, and each
function does in memory what it does to the table. Memory can run out.
-/
namespace Besra.InternLinks
open Lwc Intern InternNeeds PointerChain BackPointers
open List (mem_map map_congr_left mem_filter filter_map filter_congr mem_cons_self length_map filter_filter)
open Option (bind_some bind_eq_bind)

/-! ### Memory -/

/-- `lwc_string` with its links. -/
structure Cell extends Str where
  prevptr : Place UInt32 Nat
  next : Option Nat
deriving DecidableEq

/-- `lwc_context`, and the strings that are allocated, the newest first. -/
structure Memory where
  buckets : Option (UInt32 → Option Nat) := none
  heap : List Cell := []

/-- `NR_BUCKETS_DEFAULT`, the `bucketcount` of the context. -/
def bucketcount : UInt32 := 4091

/-- `malloc` during a call: whether there is memory for the context, and the address for a string. -/
structure Malloc where
  context : Bool
  string : List Nat → Option Nat
  fresh : ∀ used a, string used = some a → a ∉ used

namespace Memory

def strings (mem : Memory) : Table := mem.heap.map Cell.toStr

def load (mem : Memory) (a : Nat) : Option Cell := mem.heap.find? (·.address == a)

def change (mem : Memory) (a : Nat) (f : Cell → Cell) : Memory :=
  { mem with heap := mem.heap.map fun c => if c.address = a then f c else c }

/-- A pointer written, into the buckets or into a string; none where these are not there. -/
def store (mem : Memory) (place : Place UInt32 Nat) (dest : Option Nat) : Option Memory :=
  match place with
  | .top i => mem.buckets.map fun buckets => { mem with buckets := some fun j => if j = i then dest else buckets j }
  | .inside a => (mem.load a).map fun _ => mem.change a fun c => { c with next := dest }

/-- The `prevptr` of the string behind a pointer written, if there is one. -/
def hook (mem : Memory) (next : Option Nat) (place : Place UInt32 Nat) : Option Memory :=
  match next with
  | none => some mem
  | some a => (mem.load a).map fun _ => mem.change a fun c => { c with prevptr := place }

def free (mem : Memory) (a : Nat) : Memory := { mem with heap := mem.heap.filter (·.address != a) }

end Memory

/-! ### Interning -/

/-- `lwc__initialise`; none where there is no memory for the context. -/
def initialise (malloc : Malloc) (mem : Memory) : Option Memory :=
  if mem.buckets.isSome then some mem
  else if malloc.context then some { mem with buckets := some fun _ => none }
  else none

def search (mem : Memory) (p : Str → Bool) : Nat → Option Nat → Option (Option Nat)
  | _, none => some none
  | 0, some _ => none
  | fuel + 1, some a => (mem.load a).bind fun c => if p c.toStr then some (some a) else search mem p fuel c.next

/-- `lwc__intern`: the string, or none for `lwc_error_oom`. -/
def intern (malloc : Malloc) (hasher : LwcString → UInt32) (compare : LwcString → LwcString → Bool)
    (copy : LwcString → LwcString) (mem : Memory) (s : LwcString) : Option (Memory × Option Nat) :=
  match initialise malloc mem with
  | none => some (mem, none)
  | some mem => do
    let h := hasher s
    let bucket := h % bucketcount
    let buckets ← mem.buckets
    let found ← search mem (fun o => o.hash == h && o.bytes.length == s.length && compare o.bytes s) (mem.heap.length + 1)
      (buckets bucket)
    match found with
    | some a => some (mem.change a fun c => { c with refcnt := c.refcnt + 1 }, some a)
    | none =>
      match malloc.string (addresses mem.strings) with
      | none => some (mem, none)
      | some a =>
        let next := buckets bucket
        let mem ← mem.hook next (.inside a)
        let mem ← { mem with heap := ⟨⟨a, copy s, h, 1, none⟩, .top bucket, next⟩ :: mem.heap }.store (.top bucket) (some a)
        some (mem, some a)

/-- `lwc_intern_string` -/
def internString (malloc : Malloc) (mem : Memory) (s : LwcString) : Option (Memory × Option Nat) :=
  intern malloc calculateHash strncmp id mem s

/-- `lwc__intern_caseless_string`: whether there was memory. -/
def internCaselessString (malloc : Malloc) (mem : Memory) (a : Nat) : Option (Memory × Bool) := do
  let c ← mem.load a
  let (mem, b) ← intern malloc calculateLcaseHash lcaseStrncmp insensitive mem c.bytes
  some (mem.change a fun c => { c with insensitive := b }, b.isSome)

def ensureCaseless (malloc : Malloc) (mem : Memory) (a : Nat) : Option (Memory × Bool) := do
  let c ← mem.load a
  if c.insensitive = none then internCaselessString malloc mem a else some (mem, true)

/-! ### The last reference -/

/-- `lwc_string_destroy`, with what it does to give the caseless copy back. -/
def destroy (unref : Memory → Nat → Option Memory) (mem : Memory) (a : Nat) : Option Memory := do
  let c ← mem.load a
  let mem ← mem.store c.prevptr c.next
  let mem ← mem.hook c.next c.prevptr
  let mem ← match c.insensitive with
    | some b => if c.refcnt = 0 then unref mem b else some mem
    | none => some mem
  some (mem.free a)

def Cell.drop (c : Cell) : Cell := { c with refcnt := c.refcnt - 1 }

/-- `lwc_string_unref`, for at most so many strings. -/
def unref : Nat → Memory → Nat → Option Memory
  | 0, _, _ => none
  | fuel + 1, mem, a => do
    let mem := mem.change a Cell.drop
    let c ← mem.load a
    if c.refcnt = 0 ∨ c.refcnt = 1 ∧ c.insensitive = some a then destroy (unref fuel) mem a else some mem

/-! ### What memory holds -/

namespace Memory

def top (mem : Memory) (i : UInt32) : Option Nat := mem.buckets.bind fun buckets => buckets i

/-- The `next` of a string. -/
def next (mem : Memory) (a : Nat) : Option Nat := (mem.load a).bind (·.next)

/-- The `prevptr` of a string. -/
def back (mem : Memory) (a : Nat) : Option (Place UInt32 Nat) := (mem.load a).map (·.prevptr)

theorem get_strings (mem : Memory) (a : Nat) : get mem.strings a = (mem.load a).map Cell.toStr := by
  rw [Intern.get, strings, List.find?_map]
  rfl

variable {mem : Memory} {a : Nat} {f : Cell → Cell}

theorem of_load {c : Cell} (found : mem.load a = some c) : c ∈ mem.heap ∧ c.address = a :=
  ⟨List.mem_of_find?_eq_some found, by simpa using List.find?_some found⟩

theorem load_of_mem {o : Str} (among : o ∈ mem.strings) : ∃ c, mem.load o.address = some c := by
  obtain ⟨c, listed, rfl⟩ := mem_map.mp among
  refine Option.isSome_iff_exists.mp ?_
  rw [load, List.find?_isSome]
  exact ⟨c, listed, by simp⟩

theorem load_change (address : ∀ c, (f c).address = c.address) (x : Nat) :
    (mem.change a f).load x = if x = a then (mem.load x).map f else mem.load x := by
  have same : ((fun c : Cell => c.address == x) ∘ fun c => if c.address = a then f c else c) = fun c => c.address == x := by
    funext c
    simp only [Function.comp_apply]
    split
    · rw [address]
    · rfl
  rw [load, change, List.find?_map, same, ← load]
  rcases found : mem.load x with _ | c
  · simp
  · obtain ⟨-, here⟩ := of_load found
    by_cases target : x = a
    · simp [here, target]
    · simp [here, target]

theorem strings_change {g : Str → Str} (same : ∀ c, (f c).toStr = g c.toStr) :
    (mem.change a f).strings = modify mem.strings a g := by
  rw [strings, strings, change, Intern.modify, List.map_map, List.map_map]
  refine map_congr_left fun c _ => ?_
  simp only [Function.comp_apply]
  split
  · exact same c
  · rfl

theorem strings_relinked (same : ∀ c, (f c).toStr = c.toStr) : (mem.change a f).strings = mem.strings := by
  rw [strings_change (g := id) same, Intern.modify]
  refine (map_congr_left fun o _ => ?_).trans (List.map_id _)
  split <;> rfl

end Memory

structure Stored (mem mem' : Memory) (place : Place UInt32 Nat) (dest : Option Nat) : Prop where
  strings : mem'.strings = mem.strings
  top : ∀ i, mem'.top i = if place = .top i then dest else mem.top i
  next : ∀ x, mem'.next x = if place = .inside x then dest else mem.next x
  back : ∀ x, mem'.back x = mem.back x
  context : mem'.buckets = none ↔ mem.buckets = none

variable {buckets : UInt32 → Option Nat} {mem mem' : Memory} {a fuel n : Nat} {c : Cell} {i : UInt32}
  {dying : List Nat} {o : Str} {g f : Str → Str} {p : Str → Bool} {table' : Table}

theorem stored_top (there : mem.buckets = some buckets) (i : UInt32) (dest : Option Nat) :
    ∃ mem', mem.store (.top i) dest = some mem' ∧ Stored mem mem' (.top i) dest := by
  refine ⟨{ mem with buckets := some fun j => if j = i then dest else buckets j }, by rw [Memory.store, there]; rfl, rfl,
    fun j => ?_, fun _ => ?_, fun _ => rfl, by simp [there]⟩
  · simp only [Memory.top, there, bind_some, Place.top.injEq, eq_comm (a := i)]
  · rw [if_neg (by simp)]
    rfl

theorem stored_inside (there : mem.load a = some c) (dest : Option Nat) :
    ∃ mem', mem.store (.inside a) dest = some mem' ∧ Stored mem mem' (.inside a) dest := by
  refine ⟨mem.change a fun c => { c with next := dest }, by rw [Memory.store, there]; rfl,
    Memory.strings_relinked fun _ => rfl, fun j => ?_, fun x => ?_, fun x => ?_, Iff.rfl⟩
  · rw [if_neg (by simp)]
    rfl
  · rw [Memory.next, Memory.load_change fun _ => by rfl]
    by_cases here : x = a
    · simp [here, there]
    · simp [here, Ne.symm here, Memory.next]
  · rw [Memory.back, Memory.load_change fun _ => by rfl]
    by_cases here : x = a
    · simp [here, there, Memory.back]
    · simp [here, Memory.back]

/-- A `prevptr` written. -/
structure Rehooked (mem mem' : Memory) (after : Option Nat) (place : Place UInt32 Nat) : Prop where
  strings : mem'.strings = mem.strings
  top : ∀ i, mem'.top i = mem.top i
  next : ∀ x, mem'.next x = mem.next x
  back : ∀ x, mem'.back x = if after = some x then some place else mem.back x
  context : mem'.buckets = none ↔ mem.buckets = none

theorem rehooked {next : Option Nat} (there : ∀ a, next = some a → ∃ c, mem.load a = some c)
    (place : Place UInt32 Nat) : ∃ mem', mem.hook next place = some mem' ∧ Rehooked mem mem' next place := by
  rcases next with _ | a
  · exact ⟨mem, rfl, rfl, fun _ => rfl, fun _ => rfl, by simp, Iff.rfl⟩
  · obtain ⟨c, found⟩ := there a rfl
    refine ⟨mem.change a fun c => { c with prevptr := place }, by rw [Memory.hook, found]; rfl,
      Memory.strings_relinked fun _ => rfl, fun _ => rfl, fun x => ?_, fun x => ?_, Iff.rfl⟩
    · rw [Memory.next, Memory.load_change fun _ => by rfl]
      by_cases here : x = a
      · simp [here, found, Memory.next]
      · simp [here, Memory.next]
    · rw [Memory.back, Memory.load_change fun _ => by rfl]
      by_cases here : x = a
      · simp [here, found]
      · simp [here, Ne.symm here, Memory.back]

/-! ### Memory and the table -/

/-- The strings of a table that are in one bucket. -/
def chain (table : Table) (i : UInt32) : List Nat := (table.filter fun o => o.hash % bucketcount == i).map (·.address)

theorem mem_chain {table : Table} : a ∈ chain table i ↔ ∃ o ∈ table, o.address = a ∧ o.hash % bucketcount = i := by
  rw [chain, mem_map]
  constructor
  · rintro ⟨o, member, here⟩
    obtain ⟨among, bucket⟩ := mem_filter.mp member
    exact ⟨o, among, here, by simpa using bucket⟩
  · rintro ⟨o, among, here, bucket⟩
    exact ⟨o, mem_filter.mpr ⟨among, by simpa using bucket⟩, here⟩

/-- Memory holds the strings of a table, linked in their buckets, and perhaps some that are about to be freed. -/
structure Shows (dying : List Nat) (mem : Memory) (table : Table) : Prop where
  distinct : (addresses mem.strings).Nodup
  strings : mem.strings.filter (fun o => o.address ∉ dying) = table
  hung : Hung mem.next mem.back mem.top (chain table)

theorem Shows.table_distinct {table : Table} (shows_ : Shows dying mem table) : (addresses table).Nodup := by
  rw [← shows_.strings]
  exact shows_.distinct.sublist (List.filter_sublist.map _)

theorem Shows.mem_strings {table : Table} (shows_ : Shows dying mem table) (among : o ∈ table) : o ∈ mem.strings := by
  rw [← shows_.strings] at among
  exact List.mem_of_mem_filter among

theorem Shows.load {table : Table} (shows_ : Shows dying mem table) (among : o ∈ table) :
    ∃ c, mem.load o.address = some c ∧ c.toStr = o := by
  have found := get_of_mem shows_.distinct (shows_.mem_strings among)
  rw [Memory.get_strings, Option.map_eq_some_iff] at found
  exact found

theorem Shows.whole {mem : Memory} {table : Table} (shows_ : Shows [] mem table) : mem.strings = table := by
  have strings := shows_.strings
  rwa [List.filter_eq_self.mpr (by simp)] at strings

theorem Shows.relinked {table : Table} (shows_ : Shows dying mem table) (strings : mem'.strings = mem.strings)
    (hung : Hung mem'.next mem'.back mem'.top (chain table)) : Shows dying mem' table :=
  ⟨by rw [strings]; exact shows_.distinct, by rw [strings]; exact shows_.strings, hung⟩

theorem filter_modify {table : Table} {f : Str → Bool} (keeps : ∀ o, f (g o) = f o) :
    (Intern.modify table a g).filter f = Intern.modify (table.filter f) a g := by
  rw [Intern.modify, filter_map, Intern.modify]
  refine congrArg _ (filter_congr fun o _ => ?_)
  simp only [Function.comp_apply]
  split
  · exact keeps o
  · rfl

theorem Shows.change {table : Table} (shows_ : Shows dying mem table) {f : Cell → Cell}
    (same : ∀ c, (f c).toStr = g c.toStr) (address : ∀ o, (g o).address = o.address) (hash : ∀ o, (g o).hash = o.hash)
    (next : ∀ c, (f c).next = c.next) (prevptr : ∀ c, (f c).prevptr = c.prevptr) :
    Shows dying (mem.change a f) (Intern.modify table a g) := by
  have address' : ∀ c, (f c).address = c.address := fun c => by rw [same, address]
  have nexts : (mem.change a f).next = mem.next := by
    funext x
    rw [Memory.next, Memory.next, Memory.load_change address']
    split
    · rcases mem.load x with _ | c
      · rfl
      · exact next c
    · rfl
  have backs : (mem.change a f).back = mem.back := by
    funext x
    rw [Memory.back, Memory.back, Memory.load_change address']
    split
    · rcases mem.load x with _ | c
      · rfl
      · exact congrArg some (prevptr c)
    · rfl
  have chains : chain (Intern.modify table a g) = chain table := by
    funext i
    rw [chain, chain, filter_modify fun o => by rw [hash], map_modify address]
  refine ⟨?_, ?_, ?_⟩
  · rw [Memory.strings_change same, addresses, map_modify address]
    exact shows_.distinct
  · rw [Memory.strings_change same, filter_modify fun o => by rw [address], shows_.strings]
  · rw [nexts, backs, chains]
    exact shows_.hung

theorem search_eq {first : Option Nat} {os : List Str} (leads : Leads mem.next first (os.map (·.address)) none)
    (loads : ∀ o ∈ os, ∃ c, mem.load o.address = some c ∧ c.toStr = o) (enough : os.length ≤ fuel) :
    search mem p fuel first = some ((os.find? p).map (·.address)) := by
  induction os generalizing fuel first with
  | nil =>
    rw [show first = none from leads]
    rcases fuel with _ | fuel <;> rfl
  | cons o os ih =>
    obtain ⟨rfl, rest⟩ := leads
    obtain ⟨c, found, same⟩ := loads o mem_cons_self
    rcases fuel with _ | fuel
    · simp at enough
    · rw [search, found, bind_some, same, List.find?_cons]
      rcases matched : p o with _ | _
      · simp only [Bool.false_eq_true, if_false]
        rw [Memory.next, found] at rest
        exact ih rest (fun q listed => loads q (List.mem_cons_of_mem _ listed)) (by simpa using enough)
      · rfl

theorem Shows.search {table : Table} (shows_ : Shows dying mem table)
    (bucket : ∀ o, p o = true → o.hash % bucketcount = i) :
    search mem p (mem.heap.length + 1) (mem.top i) = some ((table.find? p).map (·.address)) := by
  have leads := (shows_.hung.hooked i).leads
  have fewer : (table.filter fun o => o.hash % bucketcount == i).length ≤ mem.heap.length + 1 := by
    have inTable := List.length_filter_le (fun o => o.hash % bucketcount == i) table
    have inMemory := List.length_filter_le (fun o => o.address ∉ dying) mem.strings
    rw [shows_.strings, Memory.strings, length_map] at inMemory
    omega
  rw [chain] at leads
  rw [search_eq leads (fun o member => shows_.load (List.mem_of_mem_filter member)) fewer, List.find?_filter]
  refine congrArg (fun found => some (Option.map _ found)) (List.find?_congr fun o _ => ?_)
  rcases matched : p o with _ | _
  · simp
  · simpa using bucket o matched

theorem Shows.load_chain {table : Table} (shows_ : Shows dying mem table) (member : a ∈ chain table i) :
    ∃ c, mem.load a = some c := by
  obtain ⟨o, among, rfl, -⟩ := mem_chain.mp member
  obtain ⟨c, found, -⟩ := shows_.load among
  exact ⟨c, found⟩

theorem shows_initialise {malloc : Malloc} {table : Table} (shows_ : Shows dying mem table)
    (ready : initialise malloc mem = some mem') : Shows dying mem' table ∧ ∃ buckets, mem'.buckets = some buckets := by
  rw [initialise] at ready
  rcases there : mem.buckets with _ | buckets
  · rw [there, if_neg (by simp)] at ready
    by_cases context : malloc.context
    · rw [if_pos context] at ready
      obtain rfl := Option.some.inj ready
      have tops : mem.top = fun _ => none := by
        funext i
        rw [Memory.top, there]
        rfl
      refine ⟨shows_.relinked rfl ?_, _, rfl⟩
      have hung := shows_.hung
      rw [tops] at hung
      exact hung
    · rw [if_neg context] at ready
      cases ready
  · rw [there, if_pos (by simp)] at ready
    obtain rfl := Option.some.inj ready
    exact ⟨shows_, buckets, there⟩

theorem load_cons (x : Nat) :
    ({ mem with heap := c :: mem.heap } : Memory).load x = if x = c.address then some c else mem.load x := by
  rw [Memory.load, List.find?_cons]
  by_cases here : x = c.address
  · rw [if_pos here, here, beq_self_eq_true]
  · rw [if_neg here, beq_false_of_ne (Ne.symm here), Memory.load]

theorem chain_cons (o : Str) (table : Table) (j : UInt32) :
    chain (o :: table) j =
      if j = o.hash % bucketcount then o.address :: chain table (o.hash % bucketcount) else chain table j := by
  rw [chain, List.filter_cons]
  by_cases here : j = o.hash % bucketcount
  · rw [if_pos here, if_pos (by simp [here]), here]
    rfl
  · rw [if_neg here, if_neg (by simpa using Ne.symm here)]
    rfl

theorem shows_push {table : Table} (shows_ : Shows [] mem table) (there : mem.buckets = some buckets)
    (fresh : o.address ∉ addresses mem.strings) :
    ∃ mem₁ mem₂, mem.hook (buckets (o.hash % bucketcount)) (.inside o.address) = some mem₁ ∧
      ({ mem₁ with heap := ⟨o, .top (o.hash % bucketcount), buckets (o.hash % bucketcount)⟩ :: mem₁.heap } : Memory).store
        (.top (o.hash % bucketcount)) (some o.address) = some mem₂ ∧ Shows [] mem₂ (o :: table) := by
  generalize bucketed : o.hash % bucketcount = bucket
  have top : mem.top bucket = buckets bucket := by rw [Memory.top, there]; rfl
  obtain ⟨mem₁, hooked, first⟩ : ∃ mem₁, mem.hook (buckets bucket) (.inside o.address) = some mem₁ ∧
      Rehooked mem mem₁ (buckets bucket) (.inside o.address) :=
    rehooked (fun a head => shows_.load_chain (shows_.hung.top_mem (top.trans head))) (.inside o.address)
  generalize made : (⟨o, .top bucket, buckets bucket⟩ : Cell) = c
  have own : c.address = o.address := by rw [← made]
  obtain ⟨buckets', there'⟩ := Option.ne_none_iff_exists'.mp (mt first.context.mp (by simp [there]))
  let mem' : Memory := { mem₁ with heap := c :: mem₁.heap }
  obtain ⟨mem₂, stored, second⟩ : ∃ mem₂, mem'.store (.top bucket) (some o.address) = some mem₂ ∧
      Stored mem' mem₂ (.top bucket) (some o.address) :=
    stored_top (show mem'.buckets = some buckets' from there') bucket (some o.address)
  have strings : mem₂.strings = o :: mem.strings := by
    rw [second.strings, ← first.strings, show mem'.strings = c.toStr :: mem₁.strings from rfl, ← made]
  refine ⟨mem₁, mem₂, hooked, stored, ?_, ?_, ?_⟩
  · rw [strings]
    exact List.nodup_cons.mpr ⟨fresh, shows_.distinct⟩
  · rw [strings, List.filter_cons_of_pos (by simp), shows_.strings]
  · have absent : ∀ j, o.address ∉ chain table j := by
      intro j member
      obtain ⟨p, among, here, -⟩ := mem_chain.mp member
      exact fresh (mem_addresses.mpr ⟨p, shows_.mem_strings among, here⟩)
    have chains : chain (o :: table) = fun j => if j = bucket then o.address :: chain table bucket else chain table j := by
      funext j
      rw [chain_cons, bucketed]
    rw [chains]
    refine shows_.hung.push absent (fun j => ?_) ?_ ?_ (fun m other => ?_) fun m other => ?_
    · rw [second.top, ← first.top]
      simp only [Place.top.injEq, eq_comm (a := j)]
      rfl
    · rw [second.next, if_neg (by simp), Memory.next, load_cons, if_pos own.symm, ← made, top]
      rfl
    · rw [second.back, Memory.back, load_cons, if_pos own.symm, ← made]
      rfl
    · rw [second.next, if_neg (by simp), Memory.next, load_cons, if_neg (own ▸ other), ← first.next]
      rfl
    · rw [second.back, Memory.back, load_cons, if_neg (own ▸ other), top, ← first.back]
      rfl

def Malloc.allocator (malloc : Malloc) : Allocator where
  malloc used := (malloc.string used).getD (bump.malloc used)
  unused used := by
    rcases given : malloc.string used with _ | a
    · exact bump.unused used
    · exact malloc.fresh used a given

theorem shows_intern {table : Table} (shows_ : Shows [] mem table) (malloc : Malloc) (hasher : LwcString → UInt32)
    (compare : LwcString → LwcString → Bool) (copy : LwcString → LwcString) (s : LwcString) :
    ∃ mem' answer, intern malloc hasher compare copy mem s = some (mem', answer) ∧
      (answer = none ∧ Shows [] mem' table ∨
        answer = some (Intern.intern malloc.allocator hasher compare copy table s).2 ∧
          Shows [] mem' (Intern.intern malloc.allocator hasher compare copy table s).1) := by
  rw [intern]
  rcases ready : initialise malloc mem with _ | mem
  · exact ⟨_, _, rfl, .inl ⟨rfl, shows_⟩⟩
  · obtain ⟨shows_, buckets, there⟩ := shows_initialise shows_ ready
    have same := shows_.whole
    have top : mem.top (hasher s % bucketcount) = buckets (hasher s % bucketcount) := by
      rw [Memory.top, there]
      rfl
    have found := shows_.search (p := fun o => o.hash == hasher s && o.bytes.length == s.length && compare o.bytes s)
      (i := hasher s % bucketcount) fun o matched => by
        simp only [Bool.and_eq_true, beq_iff_eq] at matched
        rw [matched.1.1]
    rw [top] at found
    simp only [there, bind_eq_bind, bind_some, found]
    rw [Intern.intern]
    rcases searched : table.find? (fun o => o.hash == hasher s && o.bytes.length == s.length && compare o.bytes s) with _ | o
    · simp only [searched, Option.map_none]
      rcases given : malloc.string (addresses mem.strings) with _ | a
      · exact ⟨_, _, rfl, .inl ⟨rfl, shows_⟩⟩
      · obtain ⟨mem₁, mem₂, hooked, stored, after⟩ := shows_push shows_ there (o := ⟨a, copy s, hasher s, 1, none⟩)
          (malloc.fresh _ _ given)
        have allocated : malloc.allocator.malloc (addresses table) = a := by
          rw [← same]
          simp only [Malloc.allocator, given, Option.getD_some]
        rw [allocated]
        refine ⟨mem₂, some a, ?_, .inr ⟨rfl, after⟩⟩
        simp only at hooked stored ⊢
        rw [hooked, bind_some, stored]
        rfl
    · simp only [searched, Option.map_some]
      refine ⟨_, _, rfl, .inr ⟨rfl, ?_⟩⟩
      exact shows_.change (fun _ => rfl) (fun _ => rfl) (fun _ => rfl) (fun _ => rfl) fun _ => rfl

theorem modify_congr {table : Table} (same : ∀ o ∈ table, o.address = a → f o = g o) :
    Intern.modify table a f = Intern.modify table a g := by
  refine map_congr_left fun o among => ?_
  split
  · exact same o among ‹_›
  · rfl

theorem modify_self {table : Table} (same : ∀ o ∈ table, o.address = a → f o = o) :
    Intern.modify table a f = table := by
  refine (modify_congr (g := id) same).trans ((map_congr_left fun o _ => ?_).trans (List.map_id _))
  split <;> rfl

theorem shows_ensureCaseless {table : Table} (shows_ : Shows [] mem table) (malloc : Malloc) (among : o ∈ table) :
    ∃ mem' ok, ensureCaseless malloc mem o.address = some (mem', ok) ∧
      (ok = false ∧ Shows [] mem' table ∨ ok = true ∧ Shows [] mem' (Intern.ensureCaseless malloc.allocator table o)) := by
  obtain ⟨c, found, same⟩ := shows_.load among
  have caseless : c.insensitive = o.insensitive := by rw [← same]
  have bytes : c.bytes = o.bytes := by rw [← same]
  rw [ensureCaseless, Intern.ensureCaseless]
  simp only [found, caseless, bind_eq_bind, bind_some]
  by_cases unset : o.insensitive = none
  · rw [if_pos unset, if_pos unset, internCaselessString, Intern.internCaselessString]
    obtain ⟨mem', answer, interned, outcome⟩ :=
      shows_intern shows_ malloc calculateLcaseHash lcaseStrncmp insensitive o.bytes
    simp only [found, bytes, interned, bind_eq_bind, bind_some]
    refine ⟨_, _, rfl, ?_⟩
    rcases outcome with ⟨rfl, after⟩ | ⟨rfl, after⟩
    · refine .inl ⟨rfl, ?_⟩
      have changed := after.change (a := o.address) (f := fun c => { c with insensitive := none })
        (g := fun p => { p with insensitive := none }) (fun _ => rfl) (fun _ => rfl) (fun _ => rfl) (fun _ => rfl) fun _ => rfl
      rwa [modify_self] at changed
      intro p listed here
      obtain rfl := List.inj_on_of_nodup_map shows_.table_distinct listed among here
      rw [← unset]
    · exact .inr ⟨rfl, after.change (fun _ => rfl) (fun _ => rfl) (fun _ => rfl) (fun _ => rfl) fun _ => rfl⟩
  · rw [if_neg unset, if_neg unset]
    exact ⟨mem, true, rfl, .inr ⟨rfl, shows_⟩⟩

/-! ### Strings destroyed -/

theorem chain_without (table : Table) (a : Nat) (j : UInt32) :
    chain (table.filter (·.address != a)) j = (chain table j).filter (· ≠ a) := by
  rw [chain, chain, filter_map, filter_filter, filter_filter]
  refine congrArg _ (filter_congr fun o _ => ?_)
  by_cases here : o.address = a <;> simp [here]

theorem shows_unlink {table : Table} (shows_ : Shows dying mem table) (among : o ∈ table)
    (found : mem.load o.address = some c) :
    ∃ mem₁ mem₂, mem.store c.prevptr c.next = some mem₁ ∧ mem₁.hook c.next c.prevptr = some mem₂ ∧
      Shows (o.address :: dying) mem₂ (table.filter (·.address != o.address)) := by
  have member : o.address ∈ chain table (o.hash % bucketcount) := mem_chain.mpr ⟨o, among, rfl, rfl⟩
  have own : mem.back o.address = some c.prevptr := by rw [Memory.back, found]; rfl
  have link : mem.next o.address = c.next := by rw [Memory.next, found]; rfl
  have hooked := shows_.hung.hooked (o.hash % bucketcount)
  obtain ⟨mem₁, stored, first⟩ : ∃ mem₁, mem.store c.prevptr c.next = some mem₁ ∧ Stored mem mem₁ c.prevptr c.next := by
    rcases hooked.back_among member with top | ⟨m, listed, inside⟩
    · rw [Option.some.inj (own.symm.trans top)]
      obtain ⟨n, first⟩ := Option.ne_none_iff_exists'.mp (hooked.first_ne_none member)
      obtain ⟨buckets, there, -⟩ := Option.bind_eq_some_iff.mp first
      exact stored_top there _ _
    · rw [Option.some.inj (own.symm.trans inside)]
      obtain ⟨d, there⟩ := shows_.load_chain listed
      exact stored_inside there _
  obtain ⟨mem₂, rehooked_, second⟩ : ∃ mem₂, mem₁.hook c.next c.prevptr = some mem₂ ∧ Rehooked mem₁ mem₂ c.next c.prevptr := by
    refine rehooked (fun a after => ?_) _
    obtain ⟨p, listed, rfl, -⟩ := mem_chain.mp (leads_closed hooked.leads member (link.trans after))
    exact Memory.load_of_mem (first.strings ▸ shows_.mem_strings listed)
  have strings : mem₂.strings = mem.strings := second.strings.trans first.strings
  refine ⟨mem₁, mem₂, stored, rehooked_, ?_, ?_, ?_⟩
  · rw [strings]
    exact shows_.distinct
  · rw [strings, ← shows_.strings, filter_filter]
    refine filter_congr fun p _ => ?_
    by_cases here : p.address = o.address <;> simp [here]
  · have chains : chain (table.filter (·.address != o.address)) = fun j => (chain table j).filter (· ≠ o.address) :=
      funext (chain_without table o.address)
    rw [chains]
    refine shows_.hung.remove member own (fun j => ?_) (fun m _ => ?_) fun m _ => ?_
    · rw [second.top, first.top, link]
    · rw [second.next, first.next, link]
    · rw [second.back, first.back, link]

theorem load_free (x : Nat) : (mem.free a).load x = if x = a then none else mem.load x := by
  rw [Memory.load, Memory.free, List.find?_filter]
  by_cases here : x = a
  · rw [if_pos here, List.find?_eq_none]
    intro c _
    simp [here]
  · rw [if_neg here, Memory.load]
    refine List.find?_congr fun c _ => ?_
    by_cases same : c.address = x <;> simp [same, here]

theorem shows_free {table : Table} (shows_ : Shows (a :: dying) mem table) : Shows dying (mem.free a) table := by
  have strings : (mem.free a).strings = mem.strings.filter (·.address != a) := by
    rw [Memory.strings, Memory.strings, Memory.free, filter_map]
    rfl
  have other : ∀ i, ∀ n ∈ chain table i, n ≠ a := by
    rintro i n member rfl
    obtain ⟨o, among, here, -⟩ := mem_chain.mp member
    rw [← shows_.strings] at among
    have absent := (mem_filter.mp among).2
    simp [here] at absent
  refine ⟨?_, ?_, ?_⟩
  · rw [strings]
    exact shows_.distinct.sublist (List.filter_sublist.map _)
  · rw [strings, ← shows_.strings, filter_filter]
    refine filter_congr fun o _ => ?_
    by_cases here : o.address = a <;> simp [here]
  · refine shows_.hung.congr (fun i => rfl) (fun i n member => ?_) fun i n member => ?_
    · rw [Memory.next, load_free, if_neg (other i n member)]
      rfl
    · rw [Memory.back, load_free, if_neg (other i n member)]
      rfl

theorem filter_modify_same (table : Table) (address : ∀ o, (f o).address = o.address) :
    (Intern.modify table a f).filter (·.address != a) = table.filter (·.address != a) := by
  rw [filter_modify fun o => by rw [address]]
  refine modify_self fun o member here => ?_
  simp [here] at member

def dropped (o : Str) : Str := { o with refcnt := o.refcnt - 1 }

theorem shows_unref {table : Table} {held : Nat → Nat} (shows_ : Shows dying mem table)
    (good : Good table (give held a)) (enough : table.length < fuel) :
    ∃ mem', unref fuel mem a = some mem' ∧ Shows dying mem' (Intern.unref fuel table a) := by
  induction fuel generalizing dying mem table held a with
  | zero => omega
  | succ fuel ih =>
    obtain ⟨o, among, rfl⟩ := mem_addresses.mp (good.live a (by simp [give]))
    obtain ⟨c, found, same⟩ := shows_.load among
    have refcnt : c.refcnt = o.refcnt := by rw [← same]
    have caseless : c.insensitive = o.insensitive := by rw [← same]
    have after : Shows dying (mem.change o.address Cell.drop) (Intern.modify table o.address dropped) :=
      shows_.change (fun _ => rfl) (fun _ => rfl) (fun _ => rfl) (fun _ => rfl) fun _ => rfl
    have found' : (mem.change o.address Cell.drop).load o.address = some c.drop := by
      rw [Memory.load_change fun _ => by rfl, if_pos rfl, found]
      rfl
    have changed : dropped o ∈ Intern.modify table o.address dropped := mem_modify.mpr ⟨o, among, if_pos rfl⟩
    have count : c.drop.refcnt = o.refcnt - 1 := by rw [← refcnt]; rfl
    have copy : c.drop.insensitive = o.insensitive := by rw [← caseless]; rfl
    rw [unref, Intern.unref, get_of_mem good.addresses among]
    simp only [found', count, copy, bind_eq_bind, bind_some]
    by_cases last : Last o
    · obtain ⟨unheld, unpointed, zero⟩ := unneeded_of_last good among last
      obtain ⟨mem₁, mem₂, stored, hooked, unlinked⟩ := shows_unlink after changed found'
      rw [show (dropped o).address = o.address from rfl, filter_modify_same table fun _ => by rfl] at unlinked
      have last' : o.refcnt - 1 = 0 ∨ o.refcnt - 1 = 1 ∧ o.insensitive = some o.address := last
      rw [if_pos last', if_pos last', destroy]
      simp only [found', stored, hooked, count, copy, bind_eq_bind, bind_some]
      rcases pointed : o.insensitive with _ | b
      · exact ⟨_, rfl, shows_free unlinked⟩
      · by_cases none_left : o.refcnt - 1 = 0
        · have apart : b ≠ o.address := fun self => zero.mp none_left (pointed.trans (congrArg some self))
          have shorter := length_without among
          obtain ⟨mem₃, given, left⟩ := ih unlinked (good_passed good among unpointed unheld apart pointed) (by omega)
          simp only [if_pos none_left, given, bind_some]
          exact ⟨_, rfl, shows_free left⟩
        · simp only [if_neg none_left]
          exact ⟨_, rfl, shows_free unlinked⟩
    · have more : ¬ (o.refcnt - 1 = 0 ∨ o.refcnt - 1 = 1 ∧ o.insensitive = some o.address) := last
      rw [if_neg more, if_neg more]
      refine ⟨_, rfl, ?_⟩
      rwa [modify_congr] at after
      intro p listed here
      rw [List.inj_on_of_nodup_map good.addresses listed among here]
      rfl

/-! ### Clients -/

/-- `lwc_iterate_strings`: the strings, and the context freed where there are none. -/
def iterateStrings (mem : Memory) : Option (Memory × List Str) :=
  match mem.buckets with
  | none => some (mem, [])
  | some buckets => do
    let found ← ((List.range bucketcount.toNat).map UInt32.ofNat).mapM fun i =>
      walk mem.next (mem.heap.length + 1) (buckets i)
    let cells ← found.flatten.mapM mem.load
    some (if cells = [] then { mem with buckets := none } else mem, cells.map Cell.toStr)

/-- What there is in memory, and the references that clients hold. -/
structure State where
  mem : Memory := {}
  clients : List Nat := []

/-- A call of a client. -/
inductive Call where
  | internString (s : LwcString)
  | internSubstring (a : Nat) (offset len : UInt64)
  | tolower (a : Nat)
  | ref (a : Nat)
  | unref (a : Nat)
  | caselessIsEqual (a b : Nat)
  | caselessHashValue (a : Nat)
  | iterateStrings
deriving DecidableEq

/-- What a call gives back. -/
inductive Answer where
  | string (a : Nat)
  | range
  | oom
  | truth (b : Bool)
  | hash (h : UInt32)
  | strings (os : List Str)
  | done
deriving DecidableEq

/-- A string interned for a client, or no memory for it. -/
def State.given (st : State) : Memory × Option Nat → State × Answer
  | (mem, some a) => (⟨mem, a :: st.clients⟩, .string a)
  | (mem, none) => (⟨mem, st.clients⟩, .oom)

def Cell.more (c : Cell) : Cell := { c with refcnt := c.refcnt + 1 }

/-- A call; none where a pointer leads nowhere or a string is read behind its end. -/
def step (malloc : Malloc) (st : State) : Call → Option (State × Answer)
  | .internString s => (internString malloc st.mem s).map st.given
  | .internSubstring a offset len => do
    let c ← st.mem.load a
    match ← substring c.bytes offset len with
    | .error _ => some (st, .range)
    | .ok s => (internString malloc st.mem s).map st.given
  | .tolower a => do
    let (mem, ok) ← ensureCaseless malloc st.mem a
    if ok then
      let c ← mem.load a
      let b ← c.insensitive
      let _ ← mem.load b
      some (⟨mem.change b Cell.more, b :: st.clients⟩, .string b)
    else some (⟨mem, st.clients⟩, .oom)
  | .ref a => do
    let _ ← st.mem.load a
    some (⟨st.mem.change a Cell.more, a :: st.clients⟩, .string a)
  | .unref a => do
    let mem ← unref (st.mem.heap.length + 1) st.mem a
    some (⟨mem, st.clients.erase a⟩, .done)
  | .caselessIsEqual a b => do
    let (mem, ok) ← ensureCaseless malloc st.mem a
    let (mem, ok) ← if ok then ensureCaseless malloc mem b else some (mem, ok)
    if ok then
      let c ← mem.load a
      let d ← mem.load b
      some (⟨mem, st.clients⟩, .truth (c.insensitive == d.insensitive))
    else some (⟨mem, st.clients⟩, .oom)
  | .caselessHashValue a => do
    let (mem, ok) ← ensureCaseless malloc st.mem a
    if ok then
      let c ← mem.load a
      let b ← c.insensitive
      let d ← mem.load b
      some (⟨mem, st.clients⟩, .hash d.hash)
    else some (⟨mem, st.clients⟩, .oom)
  | .iterateStrings => do
    let (mem, os) ← iterateStrings st.mem
    some (⟨mem, st.clients⟩, .strings os)

/-- A call that passes only strings that clients hold a reference to. -/
def Permitted (st : State) : Call → Prop
  | .internString _ | .iterateStrings => True
  | .internSubstring a _ _ | .tolower a | .ref a | .unref a | .caselessHashValue a => a ∈ st.clients
  | .caselessIsEqual a b => a ∈ st.clients ∧ b ∈ st.clients

/-- A substring whose end wraps around, so that it lies behind the end of the string. -/
def ReadsBehind (st : State) (call : Call) : Prop :=
  ∃ a offset len o, call = .internSubstring a offset len ∧ o ∈ st.mem.strings ∧ o.address = a ∧
    substring o.bytes offset len = none

/-- A state that permitted calls lead to while clients hold fewer references than so many. -/
inductive Reached (limit : Nat) : State → Prop where
  | start : Reached limit {}
  | call {st st' : State} {answer : Answer} (malloc : Malloc) (call : Call) :
      Reached limit st → Permitted st call → step malloc st call = some (st', answer) → st'.clients.length < limit →
      Reached limit st'

/-- What a call leaves: memory that shows a table in which every string is needed. -/
structure Left (table : Table) (st' : State) (table' : Table) : Prop where
  shows_ : Shows [] st'.mem table'
  alive : st'.clients.length + 1 < 2 ^ 32 → Alive table' st'.clients ∧ Persists table table'

variable {st : State} {table : Table}

theorem left_same (shows_ : Shows [] mem table) (alive : Alive table st.clients) : Left table ⟨mem, st.clients⟩ table :=
  ⟨shows_, fun _ => ⟨alive, persists_of_grows alive.good fun o among => ⟨o, among, rfl, rfl⟩⟩⟩

theorem given_left (shows_ : Shows [] st.mem table) (alive : Alive table st.clients) (malloc : Malloc) (s : LwcString) :
    ∃ result table', (internString malloc st.mem s).map st.given = some result ∧ Left table result.1 table' := by
  obtain ⟨mem, answer, interned, outcome⟩ := shows_intern shows_ malloc calculateHash strncmp id s
  rw [internString, interned]
  rcases outcome with ⟨rfl, after⟩ | ⟨rfl, after⟩
  · exact ⟨_, table, rfl, left_same after alive⟩
  · refine ⟨_, _, rfl, after, fun few => ?_⟩
    have alive' := alive_internString malloc.allocator alive s few
    exact ⟨alive', persists_of_grows alive'.good (grows_of_keeps (keeps_intern malloc.allocator _ _ _ _ _))⟩

theorem more_left (shows_ : Shows [] mem table') (alive : Alive table' st.clients) (grows : Grows table table')
    (live : a ∈ addresses table') : Left table ⟨mem.change a Cell.more, a :: st.clients⟩ (Intern.ref table' a) := by
  refine ⟨shows_.change (fun _ => rfl) (fun _ => rfl) (fun _ => rfl) (fun _ => rfl) fun _ => rfl, fun few => ?_⟩
  have alive' := alive_ref alive live few
  exact ⟨alive', persists_of_grows alive'.good (grows.trans (grows_of_keeps (keeps_ref table' a)))⟩

theorem unref_left (shows_ : Shows [] st.mem table) (alive : Alive table st.clients) (held : a ∈ st.clients) :
    ∃ mem table', unref (st.mem.heap.length + 1) st.mem a = some mem ∧ Left table ⟨mem, st.clients.erase a⟩ table' := by
  have same : Alive table (a :: st.clients.erase a) := alive.perm (List.perm_cons_erase held)
  have enough : table.length < st.mem.heap.length + 1 := by
    rw [← shows_.whole, Memory.strings, length_map]
    exact Nat.lt_succ_self _
  have good := same.good
  rw [heldBy_cons] at good
  obtain ⟨mem, given, after⟩ := shows_unref shows_ good enough
  refine ⟨mem, _, given, after, fun _ => ⟨alive_unref same enough, ?_⟩⟩
  exact persists_of_shrinks alive.good (unref_spec good enough).2

theorem live_of_held (alive : Alive table st.clients) (held : a ∈ st.clients) : ∃ o ∈ table, o.address = a :=
  mem_addresses.mp (alive.good.live a (heldBy_pos.mpr held))

theorem load_of_held (shows_ : Shows [] mem table') (alive : Alive table' st.clients) (held : a ∈ st.clients) :
    ∃ c, mem.load a = some c := by
  obtain ⟨o, among, rfl⟩ := live_of_held alive held
  obtain ⟨c, found, -⟩ := shows_.load among
  exact ⟨c, found⟩

theorem ensured (shows_ : Shows [] mem table) (alive : Alive table st.clients) (malloc : Malloc)
    (held : a ∈ st.clients) (few : st.clients.length + 1 < 2 ^ 32) :
    ∃ mem' ok table', ensureCaseless malloc mem a = some (mem', ok) ∧ Shows [] mem' table' ∧ Alive table' st.clients ∧
      Grows table table' ∧
      (ok = true → ∃ c d, mem'.load a = some c ∧ ∃ q ∈ table', c.insensitive = some q.address ∧ mem'.load q.address = some d) := by
  obtain ⟨o, among, rfl⟩ := live_of_held alive held
  obtain ⟨mem', ok, made, ⟨rfl, after⟩ | ⟨rfl, after⟩⟩ := shows_ensureCaseless shows_ malloc among
  · exact ⟨mem', false, table, made, after, alive, fun p listed => ⟨p, listed, rfl, rfl⟩, by simp⟩
  · have alive' := alive_ensureCaseless malloc.allocator alive among held few
    refine ⟨mem', true, _, made, after, alive', grows_ensureCaseless malloc.allocator table o, fun _ => ?_⟩
    obtain ⟨p, listed, here, b, points⟩ := caseless_set malloc.allocator among
    obtain ⟨q, target, rfl, -⟩ := alive'.good.lowered p listed b points
    obtain ⟨c, found, same⟩ := after.load listed
    obtain ⟨d, found', -⟩ := after.load target
    exact ⟨c, d, here ▸ found, q, target, by rw [← points, ← same], found'⟩

theorem mapM_eq {α β : Type} {l : List α} {f : α → Option β} {g : α → β} (each : ∀ x ∈ l, f x = some (g x)) :
    l.mapM f = some (l.map g) := by
  induction l with
  | nil => rfl
  | cons x l ih =>
    rw [List.mapM_cons, each x mem_cons_self, ih fun y member => each y (List.mem_cons_of_mem _ member)]
    rfl

theorem mem_buckets (h : UInt32) : h % bucketcount ∈ (List.range bucketcount.toNat).map UInt32.ofNat := by
  refine mem_map.mpr ⟨(h % bucketcount).toNat, List.mem_range.mpr ?_, UInt32.ofNat_toNat⟩
  rw [UInt32.toNat_mod]
  exact Nat.mod_lt _ (by decide)

theorem iterate_left (shows_ : Shows [] st.mem table) (alive : Alive table st.clients) :
    ∃ result, iterateStrings st.mem = some result ∧ Left table ⟨result.1, st.clients⟩ table := by
  rw [iterateStrings]
  rcases there : st.mem.buckets with _ | buckets
  · exact ⟨_, rfl, left_same shows_ alive⟩
  · have walked : ∀ i ∈ (List.range bucketcount.toNat).map UInt32.ofNat,
        walk st.mem.next (st.mem.heap.length + 1) (buckets i) = some (chain table i) := by
      intro i _
      have leads := (shows_.hung.hooked i).leads
      rw [show st.mem.top i = buckets i by rw [Memory.top, there]; rfl] at leads
      refine walk_eq leads ?_
      have fewer := List.length_filter_le (fun o : Str => o.hash % bucketcount == i) table
      have all : table.length = st.mem.heap.length := by rw [← shows_.whole, Memory.strings, length_map]
      rw [chain, length_map]
      omega
    generalize visited : (((List.range bucketcount.toNat).map UInt32.ofNat).map (chain table)).flatten = as
    have loaded : ∀ a ∈ as, ∃ c, st.mem.load a = some c := by
      intro a member
      rw [← visited] at member
      obtain ⟨as, listed, member⟩ := List.mem_flatten.mp member
      obtain ⟨i, -, rfl⟩ := mem_map.mp listed
      exact shows_.load_chain member
    have : Nonempty Cell := ⟨⟨⟨0, [], 0, 0, none⟩, .inside 0, none⟩⟩
    choose! cell load using loaded
    simp only [mapM_eq walked, visited, mapM_eq load, bind_eq_bind, bind_some]
    refine ⟨_, rfl, left_same ?_ alive⟩
    by_cases empty : as.map cell = []
    · have none_left : table = [] := by
        refine List.eq_nil_iff_forall_not_mem.mpr fun o among => ?_
        have member : o.address ∈ as := by
          rw [← visited]
          refine List.mem_flatten.mpr ⟨_, mem_map.mpr ⟨_, mem_buckets o.hash, rfl⟩, ?_⟩
          exact mem_chain.mpr ⟨o, among, rfl, rfl⟩
        rw [List.map_eq_nil_iff] at empty
        simp [empty] at member
      rw [if_pos empty]
      refine shows_.relinked rfl ?_
      subst none_left
      exact ⟨fun _ => rfl, shows_.hung.apart⟩
    · rw [if_neg empty]
      exact shows_

/-- A call goes through, unless it reads behind a string, and leaves the strings that are needed. -/
theorem step_left (shows_ : Shows [] st.mem table) (alive : Alive table st.clients) (few : st.clients.length + 1 < 2 ^ 32)
    (malloc : Malloc) {call : Call} (permitted : Permitted st call) :
    ReadsBehind st call ∧ step malloc st call = none ∨
      ∃ st' answer table', step malloc st call = some (st', answer) ∧ Left table st' table' := by
  cases call with
  | internString s =>
    obtain ⟨⟨st', answer⟩, table', made, left⟩ := given_left shows_ alive malloc s
    exact .inr ⟨st', answer, table', made, left⟩
  | internSubstring a offset len =>
    obtain ⟨o, among, rfl⟩ := live_of_held alive permitted
    obtain ⟨c, found, same⟩ := shows_.load among
    have bytes : c.bytes = o.bytes := by rw [← same]
    simp only [step, found, bytes, bind_eq_bind, bind_some]
    rcases read : substring o.bytes offset len with _ | ⟨_ | s⟩
    · exact .inl ⟨⟨_, _, _, o, rfl, shows_.mem_strings among, rfl, read⟩, rfl⟩
    · exact .inr ⟨_, _, table, rfl, left_same shows_ alive⟩
    · obtain ⟨⟨st', answer⟩, table', made, left⟩ := given_left shows_ alive malloc s
      exact .inr ⟨st', answer, table', made, left⟩
  | tolower a =>
    obtain ⟨mem, ok, table', made, after, alive', grows, set⟩ := ensured shows_ alive malloc permitted few
    refine .inr ?_
    simp only [step, made, bind_eq_bind, bind_some]
    cases ok with
    | false => exact ⟨_, _, table', rfl, after, fun _ => ⟨alive', persists_of_grows alive'.good grows⟩⟩
    | true =>
      obtain ⟨c, d, found, q, target, points, found'⟩ := set rfl
      simp only [found, points, found', if_true, bind_some]
      exact ⟨_, _, _, rfl, more_left after alive' grows (mem_addresses.mpr ⟨q, target, rfl⟩)⟩
  | ref a =>
    obtain ⟨c, found⟩ := load_of_held shows_ alive permitted
    obtain ⟨o, among, here⟩ := live_of_held alive permitted
    simp only [step, found, bind_eq_bind, bind_some]
    refine .inr ⟨_, _, _, rfl, more_left shows_ alive (fun p listed => ⟨p, listed, rfl, rfl⟩) ?_⟩
    exact mem_addresses.mpr ⟨o, among, here⟩
  | unref a =>
    obtain ⟨mem, table', given, left⟩ := unref_left shows_ alive permitted
    simp only [step, given, bind_eq_bind, bind_some]
    exact .inr ⟨_, _, table', rfl, left⟩
  | caselessIsEqual a b =>
    obtain ⟨mem, ok, table', made, after, alive', grows, -⟩ := ensured shows_ alive malloc permitted.1 few
    refine .inr ?_
    simp only [step, made, bind_eq_bind, bind_some]
    cases ok with
    | false => exact ⟨_, _, table', rfl, after, fun _ => ⟨alive', persists_of_grows alive'.good grows⟩⟩
    | true =>
      obtain ⟨mem', ok, table'', made', after', alive'', grows', -⟩ := ensured after alive' malloc permitted.2 few
      simp only [made', if_true, bind_some]
      have kept : Persists table table'' := persists_of_grows alive''.good (grows.trans grows')
      cases ok with
      | false => exact ⟨_, _, table'', rfl, after', fun _ => ⟨alive'', kept⟩⟩
      | true =>
        obtain ⟨c, found⟩ := load_of_held after' alive'' permitted.1
        obtain ⟨d, found'⟩ := load_of_held after' alive'' permitted.2
        simp only [found, found', if_true, bind_some]
        exact ⟨_, _, table'', rfl, after', fun _ => ⟨alive'', kept⟩⟩
  | caselessHashValue a =>
    obtain ⟨mem, ok, table', made, after, alive', grows, set⟩ := ensured shows_ alive malloc permitted few
    refine .inr ?_
    simp only [step, made, bind_eq_bind, bind_some]
    cases ok with
    | false => exact ⟨_, _, table', rfl, after, fun _ => ⟨alive', persists_of_grows alive'.good grows⟩⟩
    | true =>
      obtain ⟨c, d, found, q, target, points, found'⟩ := set rfl
      simp only [found, points, found', if_true, bind_some]
      exact ⟨_, _, table', rfl, after, fun _ => ⟨alive', persists_of_grows alive'.good grows⟩⟩
  | iterateStrings =>
    obtain ⟨⟨mem, os⟩, made, left⟩ := iterate_left shows_ alive
    simp only [step, made, bind_eq_bind, bind_some]
    exact .inr ⟨_, _, table, rfl, left⟩

/-! ### Every run -/

/-- Every string that is there is needed and counts its references, what is referred to is there, and
every string is in the chain of its bucket, linked in both directions. -/
structure Sound (st : State) : Prop where
  counted : ∀ o ∈ st.mem.strings, o.refcnt.toNat =
    st.clients.count o.address + st.mem.strings.countP fun p => p.insensitive == some o.address
  held : ∀ a ∈ st.clients, ∃ o ∈ st.mem.strings, o.address = a
  pointed : ∀ o ∈ st.mem.strings, ∀ b, o.insensitive = some b → ∃ p ∈ st.mem.strings, p.address = b
  needed : ∀ o ∈ st.mem.strings, o.address ∈ st.clients ∨
    ∃ p ∈ st.mem.strings, p.address ≠ o.address ∧ p.insensitive = some o.address
  linked : ∃ chains : UInt32 → List Nat, Hung st.mem.next st.mem.back st.mem.top chains ∧
    ∀ i a, a ∈ chains i ↔ ∃ o ∈ st.mem.strings, o.address = a ∧ o.hash % bucketcount = i

/-- A string stays as it is, or nothing refers to it any more. -/
def Kept (st st' : State) : Prop :=
  ∀ o ∈ st.mem.strings, (∃ p ∈ st'.mem.strings, p.address = o.address ∧ p.bytes = o.bytes) ∨
    o.address ∉ st'.clients ∧ ∀ p ∈ st'.mem.strings, p.insensitive ≠ some o.address

theorem sound_of_shown (shows_ : Shows [] st.mem table) (alive : Alive table st.clients) : Sound st := by
  obtain rfl := shows_.whole
  refine ⟨alive.good.counted, fun a held => live_of_held alive held, fun o among b points => ?_, alive.needed, ?_⟩
  · obtain ⟨p, among', here, -⟩ := alive.good.lowered o among b points
    exact ⟨p, among', here⟩
  · exact ⟨_, shows_.hung, fun i a => mem_chain⟩

theorem shows_start : Shows [] {} [] := ⟨.nil, rfl, fun _ => rfl, by simp [chain]⟩

theorem shown_of_reached {st : State} (reached : Reached (2 ^ 32 - 1) st) :
    st.clients.length + 1 < 2 ^ 32 ∧ ∃ table, Shows [] st.mem table ∧ Alive table st.clients := by
  induction reached with
  | start => exact ⟨by decide, [], shows_start, alive_empty⟩
  | @call st st' answer malloc call _ permitted stepped few ih =>
    obtain ⟨room, table, shows_, alive⟩ := ih
    have few' : st'.clients.length + 1 < 2 ^ 32 := by omega
    rcases step_left shows_ alive room malloc permitted with ⟨-, stuck⟩ | ⟨st'', answer', table', made, left⟩
    · rw [stuck] at stepped
      cases stepped
    · obtain ⟨rfl, rfl⟩ := Prod.mk.inj (Option.some.inj (made.symm.trans stepped))
      exact ⟨few', table', left.shows_, (left.alive few').1⟩

/-- In every state that the calls of clients lead to while they hold fewer than 2^32 - 1 references, each
string counts its references, is there as long as it is referred to and no longer, and is linked in its
bucket. A call that does not read behind a string goes through, and destroys no string that is still
referred to. -/
theorem lives_as_needed {st : State} (reached : Reached (2 ^ 32 - 1) st) :
    Sound st ∧ ∀ malloc call, Permitted st call →
      ReadsBehind st call ∧ step malloc st call = none ∨
        ∃ st' answer, step malloc st call = some (st', answer) ∧ (st'.clients.length < 2 ^ 32 - 1 → Kept st st') := by
  obtain ⟨room, table, shows_, alive⟩ := shown_of_reached reached
  refine ⟨sound_of_shown shows_ alive, fun malloc call permitted => ?_⟩
  rcases step_left shows_ alive room malloc permitted with stuck | ⟨st', answer, table', made, left⟩
  · exact .inl stuck
  · refine .inr ⟨st', answer, made, fun few o among => ?_⟩
    obtain ⟨alive', persists⟩ := left.alive (by omega)
    obtain rfl := shows_.whole
    obtain rfl := left.shows_.whole
    by_cases there : o.address ∈ addresses st'.mem.strings
    · obtain ⟨p, listed, here⟩ := mem_addresses.mp there
      exact .inl ⟨p, listed, here, (persists o among p listed here.symm).symm⟩
    · refine .inr ⟨fun held => there (alive'.good.live _ (heldBy_pos.mpr held)), fun p listed points => there ?_⟩
      obtain ⟨q, target, here, -⟩ := alive'.good.lowered p listed _ points
      exact mem_addresses.mpr ⟨q, target, here⟩

/-- There are at most twice as many strings as references of clients, and none once all of these are given back. -/
theorem strings_le_references {st : State} (reached : Reached (2 ^ 32 - 1) st) :
    st.mem.heap.length ≤ 2 * st.clients.length := by
  obtain ⟨-, table, shows_, alive⟩ := shown_of_reached reached
  obtain rfl := shows_.whole
  -- a string that no client holds is the copy of one that a client holds
  let copy (a : Nat) : Option Nat := (get st.mem.strings a).bind (·.insensitive)
  have within : addresses st.mem.strings ⊆ st.clients ++ st.clients.filterMap copy := by
    intro a there
    obtain ⟨o, among, rfl⟩ := mem_addresses.mp there
    rw [List.mem_append, List.mem_filterMap]
    rcases alive.needed o among with held | ⟨p, among', other, points⟩
    · exact .inl held
    · refine .inr ⟨p.address, alive.held_of_points among among' other points, ?_⟩
      rw [← points]
      exact congrArg (·.bind (·.insensitive)) (get_of_mem alive.good.addresses among')
  have fewer := (alive.good.addresses.subperm within).length_le
  have copies := List.length_filterMap_le copy st.clients
  rw [addresses, Memory.strings, length_map, length_map, List.length_append] at fewer
  omega

/-! ### One reference too many -/

def plenty : Malloc where
  context := true
  string used := some (bump.malloc used)
  fresh used a given := by
    obtain rfl := Option.some.inj given
    exact bump.unused used

/-- A string of one letter, the only one, with so many references of clients. -/
def lone (refcnt : UInt32) (insensitive : Option Nat) (clients : Nat) : State :=
  let h := calculateHash (lit "a")
  ⟨⟨some fun j => if j = h % bucketcount then some 1 else none,
    [⟨⟨1, lit "a", h, refcnt, insensitive⟩, .top (h % bucketcount), none⟩]⟩, List.replicate clients 1⟩

theorem reached_lone (few : n + 1 < 2 ^ 32) : Reached (2 ^ 32) (lone (UInt32.ofNat (n + 1)) none (n + 1)) := by
  induction n with
  | zero => exact .call plenty (.internString (lit "a")) .start trivial rfl (by decide)
  | succ n ih =>
    have before := ih (by omega)
    have stepped : step plenty (lone (UInt32.ofNat (n + 1)) none (n + 1)) (.ref 1) =
        some (lone (UInt32.ofNat (n + 1) + 1) none (n + 2), .string 1) := rfl
    rw [← UInt32.ofNat_one, ← UInt32.ofNat_add] at stepped
    exact .call plenty (.ref 1) before mem_cons_self stepped (by simpa [lone] using few)

theorem lone_caseless (refcnt : UInt32) (n : Nat) :
    ensureCaseless plenty (lone refcnt none n).mem 1 = some ((lone (refcnt + 1) (some 1) n).mem, true) := by
  have interned : intern plenty calculateLcaseHash lcaseStrncmp insensitive (lone refcnt none n).mem (lit "a") =
      some ((lone (refcnt + 1) none n).mem, some 1) := rfl
  have found : (lone refcnt none n).mem.load 1 = some (⟨⟨1, lit "a", calculateHash (lit "a"), refcnt, none⟩,
      .top (calculateHash (lit "a") % bucketcount), none⟩) := rfl
  rw [ensureCaseless, found]
  simp only [bind_eq_bind, bind_some, if_true]
  rw [internCaselessString, found]
  simp only [bind_eq_bind, bind_some, interned]
  rfl

theorem reached_caseless (few : n + 1 < 2 ^ 32) :
    Reached (2 ^ 32) (lone (UInt32.ofNat (n + 1) + 1) (some 1) (n + 1)) := by
  have stepped : step plenty (lone (UInt32.ofNat (n + 1)) none (n + 1)) (.caselessIsEqual 1 1) =
      some (lone (UInt32.ofNat (n + 1) + 1) (some 1) (n + 1), .truth true) := by
    have set : ∀ refcnt, ensureCaseless plenty (lone refcnt (some 1) (n + 1)).mem 1 =
        some ((lone refcnt (some 1) (n + 1)).mem, true) := fun _ => rfl
    rw [step, lone_caseless]
    simp only [bind_eq_bind, bind_some, if_true, set]
    rfl
  refine .call plenty (.caselessIsEqual 1 1) (reached_lone few) ?_ stepped (by simpa [lone] using few)
  exact ⟨mem_cons_self, mem_cons_self⟩

theorem clients_le_of_sound {refcnt : UInt32} {insensitive : Option Nat} (sound : Sound (lone refcnt insensitive n)) :
    n ≤ refcnt.toNat := by
  have counted := sound.counted _ mem_cons_self
  simp only [lone, List.count_replicate_self] at counted
  omega

/-- With 2^32 - 1 references of clients, the reference of a string to itself makes its count 0. -/
theorem count_wraps_to_zero : ∃ st, Reached (2 ^ 32) st ∧ ¬ Sound st := by
  refine ⟨_, reached_caseless (n := 2 ^ 32 - 2) (by decide), fun sound => ?_⟩
  exact absurd (clients_le_of_sound sound) (by decide)

/-- A capital letter for a client, and its small letter, which no client holds. -/
def capital : State := ((step plenty {} (.internString (lit "A"))).map Prod.fst).getD {}
def lowered : State := ((step plenty capital (.caselessHashValue 1)).map Prod.fst).getD {}

theorem reached_lowered : Reached (2 ^ 32 - 1) lowered := by
  have first : Reached (2 ^ 32 - 1) capital := .call plenty (.internString (lit "A")) .start trivial rfl (by decide)
  exact .call plenty (.caselessHashValue 1) first (show 1 ∈ capital.clients by decide) rfl (by decide)

theorem lives_as_needed_lowered :
    lowered.mem.heap.map (fun c => (c.bytes, c.refcnt, c.insensitive)) = [(lit "a", 1, none), (lit "A", 1, some 2)] ∧
    Sound lowered ∧ ∀ malloc call, Permitted lowered call →
      ReadsBehind lowered call ∧ step malloc lowered call = none ∨
        ∃ st' answer, step malloc lowered call = some (st', answer) ∧
          (st'.clients.length < 2 ^ 32 - 1 → Kept lowered st') :=
  ⟨rfl, lives_as_needed reached_lowered⟩

theorem strings_le_references_lowered :
    lowered.clients.length = 1 ∧ lowered.mem.heap.length = 2 ∧ lowered.mem.heap.length ≤ 2 * lowered.clients.length :=
  ⟨rfl, rfl, strings_le_references reached_lowered⟩

end Besra.InternLinks
