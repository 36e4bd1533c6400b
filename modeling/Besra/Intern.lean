import Mathlib
import Besra.Lwc

/-!
The table of interned strings of `libwapcaplet/src/libwapcaplet.c` and what its
clients can do with it. `lwc__intern` looks for a string with one of two hashers
and comparers; a string keeps a reference to its caseless copy, which may be
itself, and is destroyed with its last reference.

A string is compared only with strings of its own hash, which are in one hash
chain, so one list of all strings, the newest first, stands for the chains.
-/
namespace Besra.Intern
open Lwc List Option

/-! ### The table -/

/-- `lwc_string`, with its address. -/
structure Str where
  address : Nat
  bytes : LwcString
  hash : UInt32
  refcnt : UInt32
  insensitive : Option Nat
deriving DecidableEq

/-- The strings of the table, the newest first. -/
abbrev Table := List Str

def addresses (table : Table) : List Nat := table.map (·.address)

/-- `malloc`, which never fails and returns an address that is not in use. -/
structure Allocator where
  malloc : List Nat → Nat
  unused : ∀ used, malloc used ∉ used

def get (table : Table) (a : Nat) : Option Str := table.find? (·.address == a)

def modify (table : Table) (a : Nat) (f : Str → Str) : Table := table.map fun o => if o.address = a then f o else o

/-- `lwc_string_ref` -/
def ref (table : Table) (a : Nat) : Table := modify table a fun o => { o with refcnt := o.refcnt + 1 }

/-- `strncmp` on as many bytes as both strings have: whether it returns 0. It stops at a NUL byte. -/
def strncmp : LwcString → LwcString → Bool
  | c :: s, d :: t => c == d && (c == 0 || strncmp s t)
  | _, _ => true

/-- `lwc__lcase_strncmp`: whether it returns 0. -/
def lcaseStrncmp : LwcString → LwcString → Bool
  | c :: s, d :: t => c == dolower d && lcaseStrncmp s t
  | _, _ => true

/-- `lwc__calculate_lcase_hash` -/
def calculateLcaseHash (s : LwcString) : UInt32 :=
  s.foldl (fun z c => (z * 0x01000193) ^^^ widen (dolower c)) 0x811c9dc5

variable (alloc : Allocator)

/-- `lwc__intern`: the table and the string returned. -/
def intern (hasher : LwcString → UInt32) (compare : LwcString → LwcString → Bool) (copy : LwcString → LwcString)
    (table : Table) (s : LwcString) : Table × Nat :=
  match table.find? fun o => o.hash == hasher s && o.bytes.length == s.length && compare o.bytes s with
  | some o => (ref table o.address, o.address)
  | none =>
    let a := alloc.malloc (addresses table)
    (⟨a, copy s, hasher s, 1, none⟩ :: table, a)

/-- `lwc_intern_string` -/
def internString (table : Table) (s : LwcString) : Table × Nat := intern alloc calculateHash strncmp id table s

def Str.pointTo (b : Nat) (o : Str) : Str := { o with insensitive := some b }

/-- `lwc__intern_caseless_string` for a string that has no caseless copy yet. -/
def internCaselessString (table : Table) (o : Str) : Table :=
  let (table, b) := intern alloc calculateLcaseHash lcaseStrncmp insensitive table o.bytes
  modify table o.address (Str.pointTo b)

def ensureCaseless (table : Table) (o : Str) : Table :=
  if o.insensitive = none then internCaselessString alloc table o else table

/-- `lwc_string_unref` and `lwc_string_destroy`, for at most so many strings. -/
def unref : Nat → Table → Nat → Table
  | 0, table, _ => table
  | fuel + 1, table, a =>
    match get table a with
    | none => table
    | some o =>
      let refcnt := o.refcnt - 1
      if refcnt = 0 ∨ (refcnt = 1 ∧ o.insensitive = some a) then
        let table := table.filter (·.address != a)
        match o.insensitive with
        | some b => if refcnt = 0 then unref fuel table b else table
        | none => table
      else modify table a fun o => { o with refcnt := refcnt }

/-! ### Clients -/

/-- The table, and the number of references to a string that clients hold. -/
structure State where
  table : Table := []
  held : Nat → Nat := fun _ => 0

/-- A call of a client. -/
inductive Call where
  | internString (s : LwcString)
  | internSubstring (a : Nat) (offset len : UInt64)
  | tolower (a : Nat)
  | ref (a : Nat)
  | unref (a : Nat)
  | caselessIsEqual (a b : Nat)
deriving DecidableEq

/-- What a call gives back. -/
inductive Answer where
  | string (a : Nat)
  | range
  | truth (b : Bool)
  | done
deriving DecidableEq

def give (held : Nat → Nat) (a : Nat) : Nat → Nat := fun x => if x = a then held x + 1 else held x

def take (held : Nat → Nat) (a : Nat) : Nat → Nat := fun x => if x = a then held x - 1 else held x

/-- The part of a string that `lwc_intern_substring` interns; an error for `lwc_error_range`, and none
where it reads behind the string, as the sum of offset and length has wrapped around. -/
def substring (s : LwcString) (offset len : UInt64) : Option (Except Unit LwcString) :=
  if s.length ≤ offset.toNat then some (.error ())
  else if s.length < (offset + len).toNat then some (.error ())
  else if s.length < offset.toNat + len.toNat then none
  else some (.ok ((s.drop offset.toNat).take len.toNat))

/-- A call; none where it is passed a string that does not exist or reads behind one. -/
def step (st : State) : Call → Option (State × Answer)
  | .internString s =>
    let (table, a) := internString alloc st.table s
    some (⟨table, give st.held a⟩, .string a)
  | .internSubstring a offset len => do
    let o ← get st.table a
    match ← substring o.bytes offset len with
    | .error _ => some (st, .range)
    | .ok s =>
      let (table, b) := internString alloc st.table s
      some (⟨table, give st.held b⟩, .string b)
  | .tolower a => do
    let o ← get st.table a
    let table := ensureCaseless alloc st.table o
    let o ← get table a
    let b ← o.insensitive
    some (⟨ref table b, give st.held b⟩, .string b)
  | .ref a => do
    let _ ← get st.table a
    some (⟨ref st.table a, give st.held a⟩, .string a)
  | .unref a => do
    let _ ← get st.table a
    some (⟨unref (st.table.length + 1) st.table a, take st.held a⟩, .done)
  | .caselessIsEqual a b => do
    let o ← get st.table a
    let table := ensureCaseless alloc st.table o
    let p ← get table b
    let table := ensureCaseless alloc table p
    let o ← get table a
    let p ← get table b
    some (⟨table, st.held⟩, .truth (o.insensitive == p.insensitive))

/-! ### The invariant -/

def pointers (table : Table) (a : Nat) : Nat := table.countP fun o => o.insensitive == some a

/-- No two strings have the same address or the same bytes, the caseless copy of a string has its bytes
in lower case, and a string has as many references as clients and strings refer to it. -/
structure Good (table : Table) (held : Nat → Nat) : Prop where
  addresses : (addresses table).Nodup
  contents : (table.map (·.bytes)).Nodup
  hashed : ∀ o ∈ table, o.hash = calculateHash o.bytes
  lowered : ∀ o ∈ table, ∀ b, o.insensitive = some b → ∃ p ∈ table, p.address = b ∧ p.bytes = insensitive o.bytes
  counted : ∀ o ∈ table, o.refcnt.toNat = held o.address + pointers table o.address
  live : ∀ a, 0 < held a → a ∈ Intern.addresses table

theorem good_empty : Good [] fun _ => 0 := ⟨.nil, .nil, by simp, by simp, by simp, by simp⟩

variable {table table' : Table} {a room b : Nat} {o : Str} {f : Str → Str} {held' held : Nat → Nat} {n : UInt32}
  {bytes s : LwcString} {hasher : LwcString → UInt32} {copy : LwcString → LwcString}
  {compare : LwcString → LwcString → Bool} {st : State} {calls : List Call}

theorem mem_addresses : a ∈ addresses table ↔ ∃ o ∈ table, o.address = a := List.mem_map

theorem of_get (found : get table a = some o) : o ∈ table ∧ o.address = a := by
  rw [get] at found
  exact ⟨List.mem_of_find?_eq_some found, by simpa using List.find?_some found⟩

theorem get_of_mem (distinct : (addresses table).Nodup) (among : o ∈ table) : get table o.address = some o := by
  rcases found : get table o.address with _ | p
  · rw [get, List.find?_eq_none] at found
    simpa using found o among
  · obtain ⟨among', same⟩ := of_get found
    rw [inj_on_of_nodup_map distinct among' among same]

/-! ### Strings changed -/

theorem mem_modify : o ∈ modify table a f ↔ ∃ p ∈ table, (if p.address = a then f p else p) = o := List.mem_map

theorem map_modify {β : Type} {g : Str → β} (keeps : ∀ o, g (f o) = g o) : (modify table a f).map g = table.map g := by
  rw [modify, List.map_map]
  refine map_congr_left fun o _ => ?_
  simp only [Function.comp_apply]
  split
  · exact keeps o
  · rfl

theorem pointers_modify (keeps : ∀ o, (f o).insensitive = o.insensitive) (x : Nat) :
    pointers (modify table a f) x = pointers table x := by
  rw [pointers, pointers, modify, countP_map]
  refine countP_congr fun o _ => ?_
  simp only [Function.comp_apply]
  split
  · rw [keeps]
  · rfl

theorem good_recount (good : Good table held) (address : ∀ o, (f o).address = o.address)
    (bytes : ∀ o, (f o).bytes = o.bytes) (hash : ∀ o, (f o).hash = o.hash)
    (caseless : ∀ o, (f o).insensitive = o.insensitive)
    (counted : ∀ o ∈ table, (if o.address = a then f o else o).refcnt.toNat = held' o.address + pointers table o.address)
    (live : ∀ x, 0 < held' x → x ∈ addresses table) : Good (modify table a f) held' := by
  have kept : ∀ {β : Type} (g : Str → β), (∀ o, g (f o) = g o) → ∀ o, g (if o.address = a then f o else o) = g o := by
    intro β g keeps o
    split
    · exact keeps o
    · rfl
  refine ⟨?_, ?_, ?_, ?_, ?_, ?_⟩
  · rw [addresses, map_modify address]
    exact good.addresses
  · rw [map_modify bytes]
    exact good.contents
  · intro o among
    obtain ⟨p, listed, rfl⟩ := mem_modify.mp among
    rw [kept _ hash, kept _ bytes]
    exact good.hashed p listed
  · intro o among b pointed
    obtain ⟨p, listed, rfl⟩ := mem_modify.mp among
    rw [kept _ caseless] at pointed
    obtain ⟨q, listed', here, lower⟩ := good.lowered p listed b pointed
    refine ⟨_, mem_modify.mpr ⟨q, listed', rfl⟩, ?_, ?_⟩
    · rw [kept _ address, here]
    · rw [kept _ bytes, kept _ bytes, lower]
  · intro o among
    obtain ⟨p, listed, rfl⟩ := mem_modify.mp among
    rw [pointers_modify caseless, kept _ address]
    exact counted p listed
  · rw [addresses, map_modify address]
    exact live

def Roomy (room : Nat) (table : Table) : Prop := ∀ o ∈ table, o.refcnt.toNat + room < 2 ^ 32

theorem toNat_succ (room : n.toNat + 1 < 2 ^ 32) : (n + 1).toNat = n.toNat + 1 := by
  rw [UInt32.toNat_add]
  exact Nat.mod_eq_of_lt room

theorem good_ref (good : Good table held) (room : ∀ o ∈ table, o.address = a → o.refcnt.toNat + 1 < 2 ^ 32)
    (live : a ∈ addresses table) : Good (ref table a) (give held a) := by
  refine good_recount good (fun _ => rfl) (fun _ => rfl) (fun _ => rfl) (fun _ => rfl) ?_ ?_
  · intro o among
    have counted := good.counted o among
    by_cases here : o.address = a
    · rw [if_pos here]
      simp only [give, here, if_true, toNat_succ (room o among here)]
      rw [here] at counted
      omega
    · simp only [give, here, if_false]
      exact counted
  · intro x positive
    by_cases here : x = a
    · exact here ▸ live
    · exact good.live x (by simpa [give, here] using positive)

theorem roomy_ref (roomy : Roomy (room + 1) table) : Roomy room (ref table a) := by
  intro o among
  obtain ⟨p, listed, rfl⟩ := mem_modify.mp among
  have before := roomy p listed
  by_cases here : p.address = a
  · rw [if_pos here]
    simp only [toNat_succ (show p.refcnt.toNat + 1 < 2 ^ 32 by omega)]
    omega
  · rw [if_neg here]
    omega

def Grows (table table' : Table) : Prop := ∀ o ∈ table, ∃ p ∈ table', p.address = o.address ∧ p.bytes = o.bytes

theorem Grows.trans {table'' : Table} (first : Grows table table') (second : Grows table' table'') :
    Grows table table'' := by
  intro o among
  obtain ⟨p, among', address, bytes⟩ := first o among
  obtain ⟨q, among'', address', bytes'⟩ := second p among'
  exact ⟨q, among'', address'.trans address, bytes'.trans bytes⟩

theorem grows_modify (address : ∀ o, (f o).address = o.address) (bytes : ∀ o, (f o).bytes = o.bytes) :
    Grows table (modify table a f) := by
  intro o among
  refine ⟨_, mem_modify.mpr ⟨o, among, rfl⟩, ?_, ?_⟩
  · split
    · exact address o
    · rfl
  · split
    · exact bytes o
    · rfl

/-! ### Interning -/

/-- A string that `lwc__intern` takes for another one. -/
def Matches (hasher : LwcString → UInt32) (compare : LwcString → LwcString → Bool) (s : LwcString) (o : Str) : Prop :=
  o.hash = hasher s ∧ o.bytes.length = s.length ∧ compare o.bytes s = true

theorem intern_cases (hasher : LwcString → UInt32) (compare : LwcString → LwcString → Bool)
    (copy : LwcString → LwcString) (table : Table) (s : LwcString) :
    (∃ o ∈ table, Matches hasher compare s o ∧
      intern alloc hasher compare copy table s = (ref table o.address, o.address)) ∨
    ((∀ o ∈ table, ¬ Matches hasher compare s o) ∧ intern alloc hasher compare copy table s =
      (⟨alloc.malloc (addresses table), copy s, hasher s, 1, none⟩ :: table, alloc.malloc (addresses table))) := by
  rcases searched : table.find? (fun o => o.hash == hasher s && o.bytes.length == s.length && compare o.bytes s) with _ | o
  · refine .inr ⟨fun o among matched => ?_, by rw [intern, searched]⟩
    rw [List.find?_eq_none] at searched
    refine searched o among ?_
    simp [matched.1, matched.2.1, matched.2.2]
  · refine .inl ⟨o, List.mem_of_find?_eq_some searched, ?_, by rw [intern, searched]⟩
    have matched := List.find?_some searched
    simp only [Bool.and_eq_true, beq_iff_eq] at matched
    exact ⟨matched.1.1, matched.1.2, matched.2⟩

theorem good_new (good : Good table held) {hash : UInt32} (fresh : a ∉ addresses table)
    (hashed : hash = calculateHash bytes) (absent : ∀ o ∈ table, o.bytes ≠ bytes) :
    Good (⟨a, bytes, hash, 1, none⟩ :: table) (give held a) := by
  have unheld : held a = 0 := by
    by_contra positive
    exact fresh (good.live a (Nat.pos_of_ne_zero positive))
  have unpointed : pointers table a = 0 := by
    rw [pointers, countP_eq_zero]
    intro o among pointed
    obtain ⟨p, among', here, -⟩ := good.lowered o among a (by simpa using pointed)
    exact fresh (mem_addresses.mpr ⟨p, among', here⟩)
  have counts : ∀ x, pointers (⟨a, bytes, hash, 1, none⟩ :: table) x = pointers table x := by
    intro x
    simp [pointers]
  refine ⟨?_, ?_, ?_, ?_, ?_, ?_⟩
  · exact nodup_cons.mpr ⟨fresh, good.addresses⟩
  · refine nodup_cons.mpr ⟨?_, good.contents⟩
    intro among
    obtain ⟨o, listed, same⟩ := List.mem_map.mp among
    exact absent o listed same
  · intro o among
    rcases mem_cons.mp among with rfl | listed
    · exact hashed
    · exact good.hashed o listed
  · intro o among b pointed
    rcases mem_cons.mp among with rfl | listed
    · cases pointed
    · obtain ⟨p, among', here, lower⟩ := good.lowered o listed b pointed
      exact ⟨p, mem_cons_of_mem _ among', here, lower⟩
  · intro o among
    rw [counts]
    rcases mem_cons.mp among with rfl | listed
    · simp [give, unheld, unpointed]
    · have other : o.address ≠ a := fun same => fresh (mem_addresses.mpr ⟨o, listed, same⟩)
      simp only [give, other, if_false]
      exact good.counted o listed
  · intro x positive
    by_cases here : x = a
    · exact here ▸ mem_cons_self ..
    · exact mem_cons_of_mem _ (good.live x (by simpa [give, here] using positive))

def Keeps (table table' : Table) : Prop :=
  ∀ o ∈ table, ∃ p ∈ table', p.address = o.address ∧ p.bytes = o.bytes ∧ p.insensitive = o.insensitive

theorem keeps_ref (table : Table) (a : Nat) : Keeps table (ref table a) := by
  intro p listed
  refine ⟨_, mem_modify.mpr ⟨p, listed, rfl⟩, ?_⟩
  split <;> exact ⟨rfl, rfl, rfl⟩

theorem keeps_cons (table : Table) (o : Str) : Keeps table (o :: table) :=
  fun p listed => ⟨p, mem_cons_of_mem _ listed, rfl, rfl, rfl⟩

/-- What `lwc__intern` does with a hasher, a comparer and a copier that belong together. -/
structure Interned (table : Table) (held : Nat → Nat) (room : Nat) (bytes : LwcString) (result : Table × Nat) : Prop where
  good : Good result.1 (give held result.2)
  roomy : Roomy room result.1
  kept : Keeps table result.1
  found : ∃ o ∈ result.1, o.address = result.2 ∧ o.bytes = bytes

theorem Interned.grows {result : Table × Nat} (interned : Interned table held room bytes result) :
    Grows table result.1 := by
  intro o among
  obtain ⟨p, among', address, same, -⟩ := interned.kept o among
  exact ⟨p, among', address, same⟩

theorem absent_of_unmatched (good : Good table held) (hash : hasher s = calculateHash (copy s))
    (length : (copy s).length = s.length) (equal : compare (copy s) s = true)
    (unmatched : ∀ o ∈ table, ¬ Matches hasher compare s o) : ∀ o ∈ table, o.bytes ≠ copy s := by
  intro o among same
  refine unmatched o among ⟨?_, ?_, ?_⟩
  · rw [good.hashed o among, same, hash]
  · rw [same, length]
  · rw [same, equal]

theorem intern_spec (good : Good table held) (roomy : Roomy (room + 1) table) (small : room + 1 < 2 ^ 32)
    (hash : hasher s = calculateHash (copy s)) (length : (copy s).length = s.length)
    (equal : compare (copy s) s = true) (exact_ : ∀ o ∈ table, Matches hasher compare s o → o.bytes = copy s) :
    Interned table held room (copy s) (intern alloc hasher compare copy table s) := by
  rcases intern_cases alloc hasher compare copy table s with ⟨o, among, matched, result⟩ | ⟨unmatched, result⟩
  · have live : o.address ∈ addresses table := mem_addresses.mpr ⟨o, among, rfl⟩
    have room : ∀ p ∈ table, p.address = o.address → p.refcnt.toNat + 1 < 2 ^ 32 := by
      intro p listed _
      have before := roomy p listed
      omega
    rw [result]
    refine ⟨good_ref good room live, roomy_ref roomy, keeps_ref table o.address, ?_⟩
    obtain ⟨p, among', address, same, -⟩ := keeps_ref table o.address o among
    exact ⟨p, among', address, same.trans (exact_ o among matched)⟩
  · rw [result]
    refine ⟨?_, ?_, keeps_cons _ _, ⟨_, mem_cons_self .., rfl, rfl⟩⟩
    · exact good_new good (alloc.unused _) hash (absent_of_unmatched good hash length equal unmatched)
    · intro o among
      rcases mem_cons.mp among with rfl | listed
      · simp only [UInt32.toNat_one]
        omega
      · have before := roomy o listed
        omega

theorem strncmp_refl (s : LwcString) : strncmp s s = true := by
  induction s with
  | nil => rfl
  | cons c s ih => simp [strncmp, ih]

/-- `lwc_intern_string` on the contents of the strings that are alive: those after it, and those of the string
returned. -/
def internBytes (live : List LwcString) (s : LwcString) : List LwcString × LwcString :=
  match live.find? fun o => calculateHash o == calculateHash s && o.length == s.length && strncmp o s with
  | some o => (live, o)
  | none => (s :: live, s)

theorem internString_bytes (good : Good table held) (s : LwcString) :
    (internString alloc table s).1.map (·.bytes) = (internBytes (table.map (·.bytes)) s).1 ∧
      ∃ o ∈ (internString alloc table s).1, o.address = (internString alloc table s).2 ∧
        o.bytes = (internBytes (table.map (·.bytes)) s).2 := by
  have search : (table.map (·.bytes)).find?
        (fun o => calculateHash o == calculateHash s && o.length == s.length && strncmp o s) =
      (table.find? fun o => o.hash == calculateHash s && o.bytes.length == s.length && strncmp o.bytes s).map
        (·.bytes) := by
    rw [List.find?_map]
    congr 1
    refine List.find?_congr fun o among => ?_
    rw [Function.comp_apply, good.hashed o among]
  rw [internString, internBytes, search]
  rcases found : table.find? (fun o => o.hash == calculateHash s && o.bytes.length == s.length && strncmp o.bytes s)
    with _ | o
  · rw [intern, found]
    exact ⟨rfl, _, mem_cons_self, rfl, rfl⟩
  · rw [intern, found]
    refine ⟨map_modify fun _ => rfl, { o with refcnt := o.refcnt + 1 }, ?_, rfl, rfl⟩
    exact mem_modify.mpr ⟨o, List.mem_of_find?_eq_some found, if_pos rfl⟩

theorem lcaseStrncmp_iff {t : LwcString} (same : s.length = t.length) :
    lcaseStrncmp s t = true ↔ s = insensitive t := by
  induction s generalizing t with
  | nil =>
    rw [length_nil, eq_comm, length_eq_zero_iff] at same
    simp [lcaseStrncmp, insensitive, same]
  | cons c s ih =>
    cases t with
    | nil => cases same
    | cons d t =>
      have shorter : s.length = t.length := by simpa using same
      simp [lcaseStrncmp, ih shorter, insensitive]

theorem calculateLcaseHash_eq (s : LwcString) : calculateLcaseHash s = calculateHash (insensitive s) := by
  rw [calculateLcaseHash, calculateHash, insensitive, foldl_map]

/-- A string of the table that `strncmp` takes for another one, as they agree up to a NUL byte. -/
def Clashes (table : Table) (s : LwcString) : Prop :=
  ∃ o ∈ table, o.hash = calculateHash s ∧ o.bytes.length = s.length ∧ strncmp o.bytes s = true ∧ o.bytes ≠ s

theorem internString_spec (good : Good table held) (roomy : Roomy (room + 1) table) (small : room + 1 < 2 ^ 32)
    (clear : ¬ Clashes table s) : Interned table held room s (internString alloc table s) := by
  have exact_ : ∀ o ∈ table, Matches calculateHash strncmp s o → o.bytes = s := by
    intro o among matched
    by_contra different
    exact clear ⟨o, among, matched.1, matched.2.1, matched.2.2, different⟩
  have spec : Interned table held room (id s) (internString alloc table s) :=
    intern_spec alloc good roomy small rfl rfl (strncmp_refl s) exact_
  exact spec

/-- The caseless copy of a string set: the reference to it is now the string's. -/
theorem good_setCaseless {p : Str} (good : Good table (give held p.address)) (among : o ∈ table) (among' : p ∈ table)
    (unset : o.insensitive = none) (lower : p.bytes = insensitive o.bytes) :
    Good (modify table o.address (Str.pointTo p.address)) held := by
  have self : ∀ q ∈ table, q.address = o.address → q = o :=
    fun q listed same => inj_on_of_nodup_map good.addresses listed among same
  have counts : ∀ x, pointers (modify table o.address (Str.pointTo p.address)) x =
      pointers table x + if x = p.address then 1 else 0 := by
    intro x
    have distinct := good.addresses
    clear good among' lower
    induction table with
    | nil => cases among
    | cons q table ih =>
      obtain ⟨apart, distinct⟩ := nodup_cons.mp distinct
      by_cases here : q.address = o.address
      · have same := self q (by simp) here
        subst same
        have rest : modify table q.address (Str.pointTo p.address) = table := by
          refine (map_congr_left fun r listed => if_neg fun equal => ?_).trans (List.map_id _)
          exact apart (mem_addresses.mpr ⟨r, listed, equal⟩)
        rw [modify, map_cons, if_pos rfl, ← modify, rest, pointers, pointers, countP_cons, countP_cons, unset]
        by_cases target : x = p.address
        · simp [Str.pointTo, target]
        · simp [Str.pointTo, target, Ne.symm target]
      · have listed : o ∈ table := (mem_cons.mp among).resolve_left fun equal => here (by rw [equal])
        have rest := ih listed (fun r member => self r (mem_cons_of_mem _ member)) distinct
        rw [modify, map_cons, if_neg here, ← modify, pointers, pointers, countP_cons, countP_cons, ← pointers,
          ← pointers, rest]
        omega
  refine ⟨?_, ?_, ?_, ?_, ?_, ?_⟩
  · rw [addresses, map_modify (f := Str.pointTo p.address) fun _ => rfl]
    exact good.addresses
  · rw [map_modify (f := Str.pointTo p.address) fun _ => rfl]
    exact good.contents
  · intro q member
    obtain ⟨r, listed, rfl⟩ := mem_modify.mp member
    have hashed := good.hashed r listed
    split
    · exact hashed
    · exact hashed
  · intro q member b pointed
    obtain ⟨r, listed, rfl⟩ := mem_modify.mp member
    have grows : Grows table (modify table o.address (Str.pointTo p.address)) :=
      grows_modify (fun _ => rfl) fun _ => rfl
    by_cases here : r.address = o.address
    · rw [if_pos here] at pointed ⊢
      obtain rfl := self r listed here
      obtain rfl := Option.some.inj pointed
      obtain ⟨p', member', address, bytes⟩ := grows p among'
      exact ⟨p', member', address, bytes.trans lower⟩
    · rw [if_neg here] at pointed ⊢
      obtain ⟨t, target, address, bytes⟩ := good.lowered r listed b pointed
      obtain ⟨t', member', address', bytes'⟩ := grows t target
      exact ⟨t', member', address'.trans address, bytes'.trans bytes⟩
  · intro q member
    obtain ⟨r, listed, rfl⟩ := mem_modify.mp member
    have counted := good.counted r listed
    have kept : (if r.address = o.address then r.pointTo p.address else r).refcnt = r.refcnt ∧
        (if r.address = o.address then r.pointTo p.address else r).address = r.address := by
      split <;> exact ⟨rfl, rfl⟩
    rw [counts, kept.1, kept.2, counted]
    by_cases target : r.address = p.address
    · simp only [give, target, if_true]
      omega
    · simp only [give, target, if_false]
      omega
  · intro x positive
    rw [addresses, map_modify (f := Str.pointTo p.address) fun _ => rfl]
    refine good.live x ?_
    rw [give]
    split
    · omega
    · exact positive

/-- What `ensureCaseless` does with a string of the table. -/
structure Lowered (table : Table) (held : Nat → Nat) (room : Nat) (o : Str) (result : Table) : Prop where
  good : Good result held
  roomy : Roomy room result
  kept : ∀ q ∈ table, ∃ r ∈ result, r.address = q.address ∧ r.bytes = q.bytes ∧ (q.insensitive ≠ none → r.insensitive ≠ none)
  found : ∃ p q, get result o.address = some p ∧ p.bytes = o.bytes ∧ p.insensitive = some q.address ∧ q ∈ result ∧
    q.bytes = insensitive o.bytes

theorem Lowered.grows {result : Table} (lowered : Lowered table held room o result) : Grows table result := by
  intro q among
  obtain ⟨r, among', address, bytes, -⟩ := lowered.kept q among
  exact ⟨r, among', address, bytes⟩

theorem lowered_of_set (good : Good table held) (among : o ∈ table) (set : o.insensitive = some b) :
    ∃ p q, get table o.address = some p ∧ p.bytes = o.bytes ∧ p.insensitive = some q.address ∧ q ∈ table ∧
      q.bytes = insensitive o.bytes := by
  obtain ⟨q, among', address, bytes⟩ := good.lowered o among b set
  exact ⟨o, q, get_of_mem good.addresses among, rfl, by rw [set, address], among', bytes⟩

theorem ensureCaseless_spec (good : Good table held) (roomy : Roomy (room + 1) table) (small : room + 1 < 2 ^ 32)
    (among : o ∈ table) : Lowered table held room o (ensureCaseless alloc table o) := by
  rw [ensureCaseless]
  split
  · rename_i unset
    have spec : Interned table held room (insensitive o.bytes)
        (intern alloc calculateLcaseHash lcaseStrncmp insensitive table o.bytes) := by
      have length : (insensitive o.bytes).length = o.bytes.length := by simp [insensitive]
      refine intern_spec alloc good roomy small (calculateLcaseHash_eq _) length ?_ ?_
      · exact (lcaseStrncmp_iff length).mpr rfl
      · exact fun p _ matched => (lcaseStrncmp_iff matched.2.1).mp matched.2.2
    rw [internCaselessString]
    generalize intern alloc calculateLcaseHash lcaseStrncmp insensitive table o.bytes = result at spec
    obtain ⟨middle, b⟩ := result
    obtain ⟨q, among', address, bytes⟩ := spec.found
    obtain ⟨p, among'', here, same, still⟩ := spec.kept o among
    have good' : Good (modify middle p.address (Str.pointTo q.address)) held :=
      good_setCaseless (by rw [address]; exact spec.good) among'' among' (by rw [still, unset]) (by rw [bytes, same])
    have grows : Grows middle (modify middle p.address (Str.pointTo q.address)) :=
      grows_modify (fun _ => rfl) fun _ => rfl
    have changed : p.pointTo q.address ∈ modify middle p.address (Str.pointTo q.address) :=
      mem_modify.mpr ⟨p, among'', if_pos rfl⟩
    obtain ⟨q', target, address', bytes'⟩ := grows q among'
    have target' : b = q.address := address.symm
    rw [target', ← here]
    refine ⟨good', ?_, ?_, p.pointTo q.address, q', ?_, same, ?_, target, bytes'.trans bytes⟩
    · intro r member
      obtain ⟨r', listed, rfl⟩ := mem_modify.mp member
      have before := spec.roomy r' listed
      split
      · exact before
      · exact before
    · intro r listed
      obtain ⟨r', listed', address'', bytes'', still'⟩ := spec.kept r listed
      refine ⟨_, mem_modify.mpr ⟨r', listed', rfl⟩, ?_⟩
      split
      · exact ⟨address'', bytes'', fun _ => by simp [Str.pointTo]⟩
      · exact ⟨address'', bytes'', fun set => still' ▸ set⟩
    · rw [← here]
      exact get_of_mem good'.addresses changed
    · rw [address']
      rfl
  · rename_i set
    obtain ⟨b, set⟩ := ne_none_iff_exists'.mp set
    refine ⟨good, fun p listed => ?_, fun p listed => ⟨p, listed, rfl, rfl, id⟩, lowered_of_set good among set⟩
    have before := roomy p listed
    omega

/-! ### The last reference -/

theorem pointers_filter (distinct : (addresses table).Nodup) (among : o ∈ table) (x : Nat) :
    pointers table x =
      pointers (table.filter (·.address != o.address)) x + if o.insensitive = some x then 1 else 0 := by
  induction table with
  | nil => cases among
  | cons q table ih =>
    obtain ⟨apart, distinct'⟩ := nodup_cons.mp distinct
    by_cases here : q.address = o.address
    · obtain rfl := inj_on_of_nodup_map distinct (mem_cons_self ..) among here
      have rest : table.filter (·.address != q.address) = table := by
        refine filter_eq_self.mpr fun r listed => ?_
        simp only [bne_iff_ne, ne_eq]
        exact fun equal => apart (mem_addresses.mpr ⟨r, listed, equal⟩)
      rw [filter_cons_of_neg (by simp), rest, pointers, countP_cons, ← pointers]
      by_cases target : q.insensitive = some x <;> simp [target]
    · have listed : o ∈ table := (mem_cons.mp among).resolve_left fun equal => here (by rw [equal])
      have rest := ih distinct' listed
      rw [filter_cons_of_pos (by simpa using here), pointers, countP_cons, ← pointers, rest]
      simp only [pointers, countP_cons]
      omega

theorem good_remove (good : Good table held) (among : o ∈ table)
    (unpointed : pointers (table.filter (·.address != o.address)) o.address = 0)
    (counted : ∀ x, x ≠ o.address → held' x = held x + if o.insensitive = some x then 1 else 0)
    (unheld : held' o.address = 0) : Good (table.filter (·.address != o.address)) held' := by
  have member : ∀ {p : Str}, p ∈ table.filter (·.address != o.address) ↔ p ∈ table ∧ p.address ≠ o.address := by
    intro p
    simp
  refine ⟨?_, ?_, ?_, ?_, ?_, ?_⟩
  · exact good.addresses.sublist (filter_sublist.map _)
  · exact good.contents.sublist (filter_sublist.map _)
  · exact fun p listed => good.hashed p (member.mp listed).1
  · intro p listed b pointed
    obtain ⟨q, among', address, bytes⟩ := good.lowered p (member.mp listed).1 b pointed
    refine ⟨q, member.mpr ⟨among', ?_⟩, address, bytes⟩
    intro same
    rw [pointers, countP_eq_zero] at unpointed
    exact unpointed p listed (by simp [pointed, ← address, same])
  · intro p listed
    obtain ⟨listed', other⟩ := member.mp listed
    rw [good.counted p listed', counted _ other, pointers_filter good.addresses among]
    omega
  · intro x positive
    have other : x ≠ o.address := by
      rintro rfl
      omega
    rw [counted x other] at positive
    rw [mem_addresses]
    by_cases target : o.insensitive = some x
    · obtain ⟨q, among', address, -⟩ := good.lowered o among x target
      exact ⟨q, member.mpr ⟨among', address ▸ other⟩, address⟩
    · obtain ⟨q, among', address⟩ := mem_addresses.mp (good.live x (by simpa [target] using positive))
      exact ⟨q, member.mpr ⟨among', address ▸ other⟩, address⟩

theorem toNat_pred (positive : 0 < n.toNat) : (n - 1).toNat = n.toNat - 1 := by
  rw [UInt32.toNat_sub_of_le]
  · rfl
  · exact UInt32.le_iff_toNat_le.mpr positive

def Shrinks (table table' : Table) : Prop := ∀ o ∈ table', ∃ p ∈ table, p.address = o.address ∧ p.bytes = o.bytes

theorem shrinks_filter (table : Table) (f : Str → Bool) : Shrinks table (table.filter f) :=
  fun o among => ⟨o, mem_of_mem_filter among, rfl, rfl⟩

def Last (o : Str) : Prop := o.refcnt - 1 = 0 ∨ o.refcnt - 1 = 1 ∧ o.insensitive = some o.address

theorem eq_zero_iff : n = 0 ↔ n.toNat = 0 := by
  rw [← UInt32.toNat_inj]
  rfl

theorem eq_one_iff : n = 1 ↔ n.toNat = 1 := by
  rw [← UInt32.toNat_inj]
  rfl

theorem unneeded_of_last (good : Good table (give held o.address)) (among : o ∈ table) (last : Last o) :
    held o.address = 0 ∧ pointers (table.filter (·.address != o.address)) o.address = 0 ∧
      (o.refcnt - 1 = 0 ↔ o.insensitive ≠ some o.address) := by
  have counted := good.counted o among
  have split := pointers_filter good.addresses among o.address
  simp only [give, if_true] at counted
  have less := toNat_pred (n := o.refcnt) (by omega)
  rw [Last, eq_zero_iff, eq_one_iff] at last
  rw [eq_zero_iff]
  by_cases self : o.insensitive = some o.address
  · rw [if_pos self] at split
    exact ⟨by omega, by omega, by simp only [self, ne_eq, not_true_eq_false, iff_false]; omega⟩
  · have zero := last.resolve_right fun both => self both.2
    exact ⟨by omega, by omega, by simp only [self, ne_eq, not_false_eq_true, iff_true]; omega⟩

theorem needed_of_not_last (good : Good table (give held o.address)) (among : o ∈ table) (more : ¬ Last o) :
    0 < held o.address + pointers (table.filter (·.address != o.address)) o.address := by
  have counted := good.counted o among
  have split := pointers_filter good.addresses among o.address
  simp only [give, if_true] at counted
  have less := toNat_pred (n := o.refcnt) (by omega)
  rw [Last, eq_zero_iff, eq_one_iff, not_or] at more
  by_cases self : o.insensitive = some o.address
  · have two : (o.refcnt - 1).toNat ≠ 1 := fun one => more.2 ⟨one, self⟩
    rw [if_pos self] at split
    omega
  · rw [if_neg self] at split
    omega

/-- A reference given back: where nothing else refers to the string it is taken out, and what it held on
another string is given back in turn; else it has one reference less. -/
theorem unref_cases (good : Good table (give held o.address)) (among : o ∈ table) (fuel : Nat) :
    (held o.address = 0 ∧ pointers (table.filter (·.address != o.address)) o.address = 0 ∧
      ((o.insensitive = none ∨ o.insensitive = some o.address) ∧
          unref (fuel + 1) table o.address = table.filter (·.address != o.address) ∨
        ∃ b, b ≠ o.address ∧ o.insensitive = some b ∧
          unref (fuel + 1) table o.address = unref fuel (table.filter (·.address != o.address)) b)) ∨
    (0 < held o.address + pointers (table.filter (·.address != o.address)) o.address ∧
      unref (fuel + 1) table o.address = modify table o.address fun p => { p with refcnt := o.refcnt - 1 }) := by
  rw [unref, get_of_mem good.addresses among]
  simp only
  by_cases last : Last o
  · obtain ⟨unheld, unpointed, zero⟩ := unneeded_of_last good among last
    refine .inl ⟨unheld, unpointed, ?_⟩
    rw [if_pos (show o.refcnt - 1 = 0 ∨ _ from last)]
    rcases caseless : o.insensitive with _ | b
    · exact .inl ⟨.inl rfl, rfl⟩
    · rw [caseless] at zero
      by_cases self : b = o.address
      · -- it is its own caseless copy, and that is the only reference left
        have one : o.refcnt - 1 ≠ 0 := fun none_left => zero.mp none_left (congrArg some self)
        exact .inl ⟨.inr (congrArg some self), if_neg one⟩
      · exact .inr ⟨b, self, rfl, if_pos (zero.mpr fun equal => self (Option.some.inj equal))⟩
  · exact .inr ⟨needed_of_not_last good among last, if_neg last⟩

theorem length_without (among : o ∈ table) : (table.filter (·.address != o.address)).length < table.length :=
  length_filter_lt_length_iff_exists.mpr ⟨o, among, by simp⟩

theorem good_passed (good : Good table (give held o.address)) (among : o ∈ table)
    (unpointed : pointers (table.filter (·.address != o.address)) o.address = 0) (unheld : held o.address = 0)
    (apart : b ≠ o.address) (caseless : o.insensitive = some b) :
    Good (table.filter (·.address != o.address)) (give held b) := by
  refine good_remove good among unpointed ?_ ?_
  · intro x other
    simp only [give, other, caseless, if_false, Option.some.injEq, eq_comm (a := b)]
    split <;> rfl
  · rw [give, if_neg (Ne.symm apart)]
    exact unheld

theorem unref_spec {fuel : Nat} (good : Good table (give held a)) (enough : table.length < fuel) :
    Good (unref fuel table a) held ∧ Shrinks table (unref fuel table a) := by
  induction fuel generalizing table held a with
  | zero => omega
  | succ fuel ih =>
    obtain ⟨o, among, rfl⟩ := mem_addresses.mp (good.live a (by simp [give]))
    rcases unref_cases good among fuel with
      ⟨unheld, unpointed, ⟨alone, result⟩ | ⟨b, apart, caseless, result⟩⟩ | ⟨needed, result⟩
    · rw [result]
      refine ⟨good_remove good among unpointed ?_ unheld, shrinks_filter _ _⟩
      intro x other
      rcases alone with none_ | self
      · simp [give, other, none_]
      · simp [give, other, self, Ne.symm other]
    · have shorter := length_without among
      obtain ⟨kept, shrinks⟩ := ih (good_passed good among unpointed unheld apart caseless) (by omega)
      rw [result]
      refine ⟨kept, fun p listed => ?_⟩
      obtain ⟨q, among', address, bytes⟩ := shrinks p listed
      exact ⟨q, mem_of_mem_filter among', address, bytes⟩
    · rw [result]
      refine ⟨good_recount good (fun _ => rfl) (fun _ => rfl) (fun _ => rfl) (fun _ => rfl) ?_ ?_, ?_⟩
      · intro p listed
        by_cases here : p.address = o.address
        · obtain rfl := inj_on_of_nodup_map good.addresses listed among here
          have counted := good.counted p among
          simp only [give, if_true] at counted
          have less := toNat_pred (n := p.refcnt) (by omega)
          simp only [if_true]
          omega
        · have other := good.counted p listed
          simp only [give, here, if_false] at other ⊢
          exact other
      · intro x positive
        refine good.live x ?_
        rw [give]
        split
        · omega
        · exact positive
      · intro p listed
        obtain ⟨q, among', rfl⟩ := mem_modify.mp listed
        refine ⟨q, among', ?_⟩
        split <;> exact ⟨rfl, rfl⟩

/-! ### Runs -/

/-- A call that passes only strings that the client holds a reference to. -/
def Permitted (st : State) : Call → Prop
  | .internString _ => True
  | .internSubstring a _ _ | .tolower a | .ref a | .unref a => 0 < st.held a
  | .caselessIsEqual a b => 0 < st.held a ∧ 0 < st.held b

/-- No string is at the limit of its references, what is interned is not taken for another string that
agrees with it up to a NUL byte, and the end of a substring does not wrap around. -/
structure Careful (st : State) (call : Call) : Prop where
  roomy : Roomy 2 st.table
  string : ∀ s, call = .internString s → ¬ Clashes st.table s
  substring : ∀ a offset len, call = .internSubstring a offset len → ∀ o, get st.table a = some o →
    offset.toNat + len.toNat < 2 ^ 64 ∧ ¬ Clashes st.table ((o.bytes.drop offset.toNat).take len.toNat)

/-- A string at an address, with these bytes. -/
def Holds (table : Table) (a : Nat) (bytes : LwcString) : Prop := ∃ o ∈ table, o.address = a ∧ o.bytes = bytes

def Right (st : State) (table : Table) : Call → Answer → Prop
  | .internString s, .string a => Holds table a s
  | .internSubstring a offset len, .string b =>
    ∃ s, Holds st.table a s ∧ offset.toNat + len.toNat ≤ s.length ∧ Holds table b ((s.drop offset.toNat).take len.toNat)
  | .internSubstring a offset len, .range =>
    ∃ s, Holds st.table a s ∧ (s.length ≤ offset.toNat ∨ s.length < offset.toNat + len.toNat)
  | .tolower a, .string b => ∃ s, Holds st.table a s ∧ Holds table b (insensitive s)
  | .ref a, .string b => b = a
  | .unref _, .done => True
  | .caselessIsEqual a b, .truth answer =>
    ∃ s t, Holds st.table a s ∧ Holds st.table b t ∧ (answer = true ↔ insensitive s = insensitive t)
  | _, _ => False

/-- Two strings are the same object exactly when they have the same bytes, and what clients refer to exists. -/
structure Canonical (st : State) : Prop where
  same : ∀ o ∈ st.table, ∀ p ∈ st.table, o.address = p.address ↔ o.bytes = p.bytes
  live : ∀ a, 0 < st.held a → ∃ o ∈ st.table, o.address = a

/-- A string that is there before and after has the same bytes. -/
def Persists (table table' : Table) : Prop := ∀ o ∈ table, ∀ p ∈ table', o.address = p.address → o.bytes = p.bytes

theorem canonical_of_good (good : Good st.table st.held) : Canonical st where
  same o among p among' :=
    ⟨fun address => by rw [inj_on_of_nodup_map good.addresses among among' address],
      fun bytes => by rw [inj_on_of_nodup_map good.contents among among' bytes]⟩
  live a positive := mem_addresses.mp (good.live a positive)

theorem persists_of_grows (good : Good table' held) (grows : Grows table table') : Persists table table' := by
  intro o among p among' same
  obtain ⟨q, listed, address, bytes⟩ := grows o among
  rw [← bytes, inj_on_of_nodup_map good.addresses listed among' (address.trans same)]

theorem persists_of_shrinks (good : Good table held) (shrinks : Shrinks table table') : Persists table table' := by
  intro o among p among' same
  obtain ⟨q, listed, address, bytes⟩ := shrinks p among'
  rw [← bytes, inj_on_of_nodup_map good.addresses among listed (same.trans address.symm)]

theorem get_of_held (good : Good st.table st.held) (positive : 0 < st.held a) :
    ∃ o, get st.table a = some o ∧ o ∈ st.table ∧ o.address = a := by
  obtain ⟨o, among, rfl⟩ := mem_addresses.mp (good.live a positive)
  exact ⟨o, get_of_mem good.addresses among, among, rfl⟩

theorem give_take (positive : 0 < held a) : give (take held a) a = held := by
  funext x
  simp only [give, take]
  split
  · rename_i here
    rw [here]
    omega
  · rfl

structure Done (st : State) (call : Call) (result : State × Answer) : Prop where
  good : Good result.1.table result.1.held
  persists : Persists st.table result.1.table
  right : Right st result.1.table call result.2

theorem step_internString (good : Good st.table st.held) (careful : Careful st (.internString s)) :
    ∃ result, step alloc st (.internString s) = some result ∧ Done st (.internString s) result := by
  have spec : Interned st.table st.held 1 s (internString alloc st.table s) :=
    internString_spec alloc good careful.roomy (by omega) (careful.string s rfl)
  exact ⟨_, rfl, spec.good, persists_of_grows spec.good spec.grows, spec.found⟩

theorem step_internSubstring (good : Good st.table st.held) {offset len : UInt64}
    (permitted : Permitted st (.internSubstring a offset len)) (careful : Careful st (.internSubstring a offset len)) :
    ∃ result, step alloc st (.internSubstring a offset len) = some result ∧ Done st (.internSubstring a offset len) result := by
  obtain ⟨o, found, among, here⟩ := get_of_held good permitted
  obtain ⟨wraps, clear⟩ := careful.substring a offset len rfl o found
  have sum : (offset + len).toNat = offset.toNat + len.toNat := by
    rw [UInt64.toNat_add]
    exact Nat.mod_eq_of_lt wraps
  have same : Persists st.table st.table := persists_of_grows good fun o among => ⟨o, among, rfl, rfl⟩
  by_cases start : o.bytes.length ≤ offset.toNat
  · refine ⟨(st, .range), by simp [step, found, Intern.substring, start], good, same, o.bytes, ⟨o, among, here, rfl⟩, .inl start⟩
  · by_cases stop : o.bytes.length < offset.toNat + len.toNat
    · refine ⟨(st, .range), by simp [step, found, Intern.substring, start, sum, stop], good, same, o.bytes,
        ⟨o, among, here, rfl⟩, .inr stop⟩
    · let s := (o.bytes.drop offset.toNat).take len.toNat
      have spec : Interned st.table st.held 1 s (internString alloc st.table s) :=
        internString_spec alloc good careful.roomy (by omega) clear
      let result : State × Answer :=
        (⟨(internString alloc st.table s).1, give st.held (internString alloc st.table s).2⟩,
          .string (internString alloc st.table s).2)
      have stepped : step alloc st (.internSubstring a offset len) = some result := by
        simp only [step, found, Intern.substring, start, sum, stop, if_false, bind_eq_bind, bind_some]
        rfl
      exact ⟨result, stepped, spec.good, persists_of_grows spec.good spec.grows, o.bytes, ⟨o, among, here, rfl⟩, by omega,
        spec.found⟩

theorem step_tolower (good : Good st.table st.held) (permitted : Permitted st (.tolower a))
    (careful : Careful st (.tolower a)) :
    ∃ result, step alloc st (.tolower a) = some result ∧ Done st (.tolower a) result := by
  obtain ⟨o, found, among, rfl⟩ := get_of_held good permitted
  have spec : Lowered st.table st.held 1 o (ensureCaseless alloc st.table o) :=
    ensureCaseless_spec alloc good careful.roomy (by omega) among
  obtain ⟨p, q, found', -, caseless, target, lower⟩ := spec.found
  have grows : Grows (ensureCaseless alloc st.table o) (ref (ensureCaseless alloc st.table o) q.address) :=
    grows_modify (fun _ => rfl) fun _ => rfl
  have good' := good_ref spec.good (fun p listed _ => spec.roomy p listed) (mem_addresses.mpr ⟨q, target, rfl⟩)
  let result : State × Answer :=
    (⟨ref (ensureCaseless alloc st.table o) q.address, give st.held q.address⟩, .string q.address)
  have stepped : step alloc st (.tolower o.address) = some result := by
    simp only [step, found, found', caseless, bind_eq_bind, bind_some]
    rfl
  obtain ⟨q', target', address, bytes⟩ := grows q target
  exact ⟨result, stepped, good', persists_of_grows good' (spec.grows.trans grows), o.bytes, ⟨o, among, rfl, rfl⟩,
    q', target', address, bytes.trans lower⟩

theorem step_ref (good : Good st.table st.held) (permitted : Permitted st (.ref a)) (careful : Careful st (.ref a)) :
    ∃ result, step alloc st (.ref a) = some result ∧ Done st (.ref a) result := by
  obtain ⟨o, found, among, rfl⟩ := get_of_held good permitted
  have room : ∀ p ∈ st.table, p.address = o.address → p.refcnt.toNat + 1 < 2 ^ 32 := fun p listed _ => by
    have before := careful.roomy p listed
    omega
  have good' := good_ref good room (mem_addresses.mpr ⟨o, among, rfl⟩)
  let result : State × Answer := (⟨ref st.table o.address, give st.held o.address⟩, .string o.address)
  have stepped : step alloc st (.ref o.address) = some result := by
    simp only [step, found, bind_eq_bind, bind_some]
    rfl
  exact ⟨result, stepped, good', persists_of_grows good' (grows_modify (fun _ => rfl) fun _ => rfl), rfl⟩

theorem step_unref (good : Good st.table st.held) (permitted : Permitted st (.unref a)) :
    ∃ result, step alloc st (.unref a) = some result ∧ Done st (.unref a) result := by
  obtain ⟨o, found, -, rfl⟩ := get_of_held good permitted
  have pending : Good st.table (give (take st.held o.address) o.address) := by
    rw [give_take permitted]
    exact good
  obtain ⟨good', shrinks⟩ := unref_spec pending (Nat.lt_succ_self _)
  let result : State × Answer := (⟨unref (st.table.length + 1) st.table o.address, take st.held o.address⟩, .done)
  have stepped : step alloc st (.unref o.address) = some result := by
    simp only [step, found, bind_eq_bind, bind_some]
    rfl
  exact ⟨result, stepped, good', persists_of_shrinks good shrinks, trivial⟩

theorem step_caselessIsEqual (good : Good st.table st.held) (permitted : Permitted st (.caselessIsEqual a b))
    (careful : Careful st (.caselessIsEqual a b)) :
    ∃ result, step alloc st (.caselessIsEqual a b) = some result ∧ Done st (.caselessIsEqual a b) result := by
  obtain ⟨o, found, among, rfl⟩ := get_of_held good permitted.1
  obtain ⟨p, -, among', rfl⟩ := get_of_held good permitted.2
  have first : Lowered st.table st.held 1 o (ensureCaseless alloc st.table o) :=
    ensureCaseless_spec alloc good careful.roomy (by omega) among
  obtain ⟨p', listed, here, bytes⟩ := first.grows p among'
  have found' : get (ensureCaseless alloc st.table o) p.address = some p' := by
    rw [← here]
    exact get_of_mem first.good.addresses listed
  have second : Lowered (ensureCaseless alloc st.table o) st.held 0 p' (ensureCaseless alloc (ensureCaseless alloc st.table o) p') :=
    ensureCaseless_spec alloc first.good first.roomy (by omega) listed
  -- both have their caseless copies in the table that is left
  obtain ⟨o', _, ofO, bytesO, setO, -, -⟩ := first.found
  obtain ⟨listedO, hereO⟩ := of_get ofO
  obtain ⟨o'', listedO', hereO', bytesO', stillO⟩ := second.kept o' listedO
  obtain ⟨x, caselessO⟩ := ne_none_iff_exists'.mp (stillO (by simp [setO]))
  obtain ⟨xs, amongX, addressX, bytesX⟩ := second.good.lowered o'' listedO' x caselessO
  obtain ⟨p'', y, ofP, bytesP, caselessP, amongY, bytesY⟩ := second.found
  rw [here] at ofP
  have ofO' := get_of_mem second.good.addresses listedO'
  rw [hereO', hereO] at ofO'
  let table := ensureCaseless alloc (ensureCaseless alloc st.table o) p'
  let result : State × Answer := (⟨table, st.held⟩, .truth (o''.insensitive == p''.insensitive))
  have stepped : step alloc st (.caselessIsEqual o.address p.address) = some result := by
    simp only [step, found, found', ofO', ofP, bind_eq_bind, bind_some]
    rfl
  have left : Canonical ⟨table, st.held⟩ := canonical_of_good second.good
  have canonical := left.same xs amongX y amongY
  rw [addressX, bytesX, bytesY, bytesO', bytesO, bytes] at canonical
  refine ⟨result, stepped, second.good, persists_of_grows second.good (first.grows.trans second.grows), o.bytes, p.bytes,
    ⟨o, among, rfl, rfl⟩, ⟨p, among', rfl, rfl⟩, ?_⟩
  rw [caselessO, caselessP, beq_iff_eq, Option.some.injEq]
  exact canonical

theorem step_spec (good : Good st.table st.held) {call : Call} (permitted : Permitted st call)
    (careful : Careful st call) : ∃ result, step alloc st call = some result ∧ Done st call result := by
  cases call with
  | internString s => exact step_internString alloc good careful
  | internSubstring a offset len => exact step_internSubstring alloc good permitted careful
  | tolower a => exact step_tolower alloc good permitted careful
  | ref a => exact step_ref alloc good permitted careful
  | unref a => exact step_unref alloc good permitted
  | caselessIsEqual a b => exact step_caselessIsEqual alloc good permitted careful

def run (st : State) (calls : List Call) : Option State := calls.foldlM (fun st call => (step alloc st call).map Prod.fst) st

/-- Every call of a run is permitted and careful where it is made. -/
def Orderly : State → List Call → Prop
  | _, [] => True
  | st, call :: calls => Permitted st call ∧ Careful st call ∧ ∀ st' answer, step alloc st call = some (st', answer) → Orderly st' calls

theorem good_run (good : Good st.table st.held) (orderly : Orderly alloc st calls) :
    ∃ st', run alloc st calls = some st' ∧ Good st'.table st'.held := by
  induction calls generalizing st with
  | nil => exact ⟨st, rfl, good⟩
  | cons call calls ih =>
    obtain ⟨permitted, careful, later⟩ := orderly
    obtain ⟨⟨next, answer⟩, stepped, done⟩ := step_spec alloc good permitted careful
    obtain ⟨st', reached, good'⟩ := ih done.good (later next answer stepped)
    refine ⟨st', ?_, good'⟩
    rw [run, foldlM_cons, stepped]
    exact reached

/-- After every orderly run of calls, strings are the same object exactly when they have the same bytes,
and the next call answers right and changes the bytes of no string. -/
theorem interning_canonical (orderly : Orderly alloc {} calls) :
    ∃ st, run alloc {} calls = some st ∧ Canonical st ∧
      ∀ call, Permitted st call → Careful st call → ∃ st' answer, step alloc st call = some (st', answer) ∧
        Canonical st' ∧ Persists st.table st'.table ∧ Right st st'.table call answer := by
  obtain ⟨st, reached, good⟩ := good_run alloc good_empty orderly
  refine ⟨st, reached, canonical_of_good good, fun call permitted careful => ?_⟩
  obtain ⟨⟨st', answer⟩, stepped, done⟩ := step_spec alloc good permitted careful
  exact ⟨st', answer, stepped, canonical_of_good done.good, done.persists, done.right⟩

/-! ### Two strings with a NUL byte -/

/-- An allocator that returns the address behind those in use. -/
def bump : Allocator where
  malloc used := used.foldr max 0 + 1
  unused used among := by
    have bound : ∀ a ∈ used, a ≤ used.foldr max 0 := by
      clear among
      intro a listed
      induction used with
      | nil => cases listed
      | cons b used ih => grind
    have least := bound _ among
    omega

def nulAnd (letters : String) : LwcString := 0 :: lit letters

/-- The strings have the same hash, so the second is taken for the first: what is returned for it has
other bytes. -/
theorem nul_strings_merged :
    ∃ st, run bump {} [.internString (nulAnd "oeeva")] = some st ∧ Permitted st (.internString (nulAnd "qzfxs")) ∧
      ∃ st' answer, step bump st (.internString (nulAnd "qzfxs")) = some (st', answer) ∧
        ¬ Right st st'.table (.internString (nulAnd "qzfxs")) answer := by
  refine ⟨_, rfl, trivial, _, _, rfl, ?_⟩
  rintro ⟨o, among, -, bytes⟩
  have only : ∀ o ∈ (internString bump (internString bump [] (nulAnd "oeeva")).1 (nulAnd "qzfxs")).1,
      o.bytes = nulAnd "oeeva" := by decide
  have same := (only o among).symm.trans bytes
  revert same
  decide

/-- A string in two cases. -/
theorem interning_canonical_of_case :
    ∃ st, run bump {} [.internString (lit "Ab"), .internString (lit "aB")] = some st ∧ Canonical st ∧
      ∀ call, Permitted st call → Careful st call → ∃ st' answer, step bump st call = some (st', answer) ∧
        Canonical st' ∧ Persists st.table st'.table ∧ Right st st'.table call answer := by
  refine interning_canonical bump ⟨trivial, ⟨by simp [Roomy], ?_, by simp⟩, ?_⟩
  · rintro s -
    simp [Clashes]
  · rintro st' answer stepped
    obtain ⟨rfl, -⟩ := Prod.mk.inj (Option.some.inj stepped)
    refine ⟨trivial, ⟨?_, ?_, by simp⟩, fun _ _ _ => trivial⟩
    · unfold Roomy
      decide
    · rintro s same
      cases same
      unfold Clashes
      decide

end Besra.Intern
