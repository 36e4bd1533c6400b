import Mathlib.Data.Finset.Basic
import Besra.BackingStore

/-!
The calls of `netsurf/content/fs_backing_store.c` where what they ask of the system may fail: memory, the names of
files, reading and writing. The contents of the files are left out, and so are the statistics and the flags that say what
is to be made persistent. Memory is handed over as blocks, each with a number.
-/
namespace Besra.StoreFaults
open BackingStore (ElemIdx UseMap blockPlace freePlace blockUseMapSize log2BlockSize)

inductive Nserror where
  | ok
  | nomem
  | notFound
  | permission
  | saveFailed
deriving DecidableEq

/-- `struct store_entry_element`, where `heap` is `ENTRY_ELEM_FLAG_HEAP` and 0 is `NULL`. -/
structure Element where
  data : Nat := 0
  size : UInt32 := 0
  block : Nat := 0
  ref : UInt8 := 0
  heap : Bool := false
deriving DecidableEq

/-- `struct store_entry`, without its URL. -/
structure Entry where
  lastUsed : Int := 0
  useCount : UInt16 := 0
  invalid : Bool := false
  elem : ElemIdx → Element := fun _ => {}

/-- `struct store_state`, with the blocks of memory that were handed to the store or made by it and not freed.
A block that is not one of them is freed where `misfreed`. -/
structure Store (Url : Type) where
  limit : UInt64
  hysteresis : UInt64
  entries : AList (fun _ : Url => Entry) := ∅
  useMap : UseMap := fun _ _ _ => 0
  totalAlloc : UInt64 := 0
  memory : Finset Nat := ∅
  misfreed : Bool := false

/-- What the system answers during a call; where it is not asked, it does as it is asked. -/
structure Answers (Url : Type) where
  /-- `time` -/
  time : Int := 0
  /-- There is memory for the list of `store_evict`. -/
  listed : Bool := true
  /-- There is memory for the name of the file of an element that is to be removed. -/
  named : Url → ElemIdx → Bool := fun _ _ => true
  /-- There is memory for a new entry. -/
  inserted : Bool := true
  /-- The block that `malloc` makes. -/
  malloc : Option Nat := none
  /-- The file of the element is opened, and written or read in full. -/
  done : Bool := true

variable {Url : Type} [DecidableEq Url]

def Entry.setElem (ent : Entry) (elemIdx : ElemIdx) (elem : Element) : Entry :=
  { ent with elem := Function.update ent.elem elemIdx elem }

/-- An element has an allocation: `ENTRY_ELEM_FLAG_HEAP` or `ENTRY_ELEM_FLAG_MMAP`, of which only the first is ever set. -/
def Entry.held (ent : Entry) : Bool := (ent.elem .data).heap || (ent.elem .metadata).heap

def Store.setEntry (s : Store Url) (url : Url) (ent : Entry) : Store Url := { s with entries := s.entries.insert url ent }

def Store.free (s : Store Url) (block : Nat) : Store Url :=
  { s with memory := s.memory.erase block, misfreed := s.misfreed || decide (block ∉ s.memory) }

def invalidateElement (a : Answers Url) (s : Store Url) (url : Url) (elem : Element) (elemIdx : ElemIdx) :
    Nserror × Store Url :=
  if elem.block ≠ 0 then
    let (bf, bi) := blockPlace elem.block
    (.ok, { s with
      useMap := s.useMap.set elemIdx bf (bi >>> 3) (s.useMap elemIdx bf (bi >>> 3) &&& ~~~(1#8 <<< (bi &&& 7)))
      totalAlloc := s.totalAlloc - elem.size.toUInt64 })
  else if a.named url elemIdx then (.ok, { s with totalAlloc := s.totalAlloc - elem.size.toUInt64 })
  else (.nomem, s)

/-- `invalidate_entry`, which returns `NSERROR_OK` always. -/
def invalidateEntry (a : Answers Url) (s : Store Url) (url : Url) : Store Url :=
  match s.entries.lookup url with
  | none => s
  | some bse =>
    let s := s.setEntry url { bse with invalid := true }
    if bse.held then s
    else
      let (_, s) := invalidateElement a s url (bse.elem .metadata) .metadata
      let (_, s) := invalidateElement a s url (bse.elem .data) .data
      { s with entries := s.entries.erase url }

def compar (a b : Entry) : Int :=
  if (a.elem .data).heap = false ∧ (b.elem .data).heap = true then -1
  else if (a.elem .data).heap = true ∧ (b.elem .data).heap = false then 1
  else if (a.elem .metadata).heap = false ∧ (b.elem .metadata).heap = true then -1
  else if (a.elem .metadata).heap = true ∧ (b.elem .metadata).heap = false then 1
  else if a.useCount < b.useCount then -1
  else if a.useCount > b.useCount then 1
  else if a.lastUsed < b.lastUsed then -1
  else if a.lastUsed > b.lastUsed then 1
  else 0

/-- `qsort` with `compar`: what it does with entries that compare equal is its own. -/
structure Qsort (Url : Type) where
  sort : List (Sigma fun _ : Url => Entry) → List (Sigma fun _ : Url => Entry)
  perm : ∀ elist, (sort elist).Perm elist
  sorted : ∀ elist, (sort elist).Pairwise (fun a b => compar a.2 b.2 ≤ 0)

/-- The loop of `store_evict` over the sorted entries. -/
def evictLoop (a : Answers Url) : List Url → UInt64 → Store Url → Store Url
  | [], _, s => s
  | url :: elist, removed, s =>
    let bse := (s.entries.lookup url).getD {}
    let removed := removed + (bse.elem .data).size.toUInt64
    let removed := removed + (bse.elem .metadata).size.toUInt64
    let s := invalidateEntry a s url
    if removed > s.hysteresis then s else evictLoop a elist removed s

/-- `store_evict`. The list has every entry once, so that its length is never wrong. -/
def storeEvict (q : Qsort Url) (a : Answers Url) (s : Store Url) : Nserror × Store Url :=
  if s.totalAlloc < s.limit then (.ok, s)
  else if a.listed = false then (.nomem, s)
  else (.ok, evictLoop a ((q.sort s.entries.entries).map Sigma.fst) 0 s)

def getStoreEntry (a : Answers Url) (s : Store Url) (url : Url) : Option (Entry × Store Url) :=
  match s.entries.lookup url with
  | none => none
  | some ent =>
    let ent := { ent with lastUsed := a.time, useCount := ent.useCount + 1 }
    some (ent, s.setEntry url ent)

def allocBlock (s : Store Url) (elemIdx : ElemIdx) : Store Url × Nat :=
  match freePlace (s.useMap elemIdx) with
  | none => (s, 0)
  | some (bf, idx, bit) =>
    ({ s with useMap := s.useMap.set elemIdx bf idx (s.useMap elemIdx bf idx ||| (1#8 <<< bit)) },
      (bf * blockUseMapSize + idx) * 8 + bit)

/-- The part of `set_store_entry` that sets the element of an entry up, where it has no allocation. -/
def setElement (a : Answers Url) (s : Store Url) (url : Url) (elemIdx : ElemIdx) (data datalen : Nat) (se : Entry) :
    Store Url :=
  let elem := se.elem elemIdx
  let size := UInt32.ofNat datalen
  let s := { s with
    memory := insert data s.memory
    totalAlloc := s.totalAlloc - elem.size.toUInt64 + size.toUInt64 }
  let (s, block) := if size.toNat ≤ 1 <<< log2BlockSize elemIdx then allocBlock s elemIdx else (s, elem.block)
  let se := { se with useCount := 1, lastUsed := a.time }
  s.setEntry url (se.setElem elemIdx { data, size, block, ref := 1, heap := true })

def setStoreEntry (q : Qsort Url) (a : Answers Url) (s : Store Url) (url : Url) (elemIdx : ElemIdx) (data datalen : Nat) :
    Nserror × Store Url :=
  match storeEvict q a s with
  | (.ok, s) =>
    match s.entries.lookup url with
    | none => if a.inserted then (.ok, setElement a (s.setEntry url {}) url elemIdx data datalen {}) else (.nomem, s)
    | some se => if (se.elem elemIdx).heap then (.permission, s) else (.ok, setElement a s url elemIdx data datalen se)
  | (ret, s) => (ret, s)

/-- `entry_release_alloc` of an element of an entry. -/
def entryReleaseAlloc (s : Store Url) (url : Url) (bse : Entry) (elemIdx : ElemIdx) : Store Url :=
  let elem := bse.elem elemIdx
  if elem.heap then
    let ref := elem.ref - 1
    if ref = 0 then (s.free elem.data).setEntry url (bse.setElem elemIdx { elem with ref, heap := false })
    else s.setEntry url (bse.setElem elemIdx { elem with ref })
  else s

/-- `gui_llcache_store`, with `store_write_block` and `store_write_file`. -/
def guiLlcacheStore (q : Qsort Url) (a : Answers Url) (s : Store Url) (url : Url) (elemIdx : ElemIdx) (data datalen : Nat) :
    Nserror × Store Url :=
  match setStoreEntry q a s url elemIdx data datalen with
  | (.ok, s) => (if a.done then .ok else .saveFailed, s)
  | (ret, s) => (ret, s)

/-- `gui_llcache_fetch`, with the block that is returned, `store_read_block` and `store_read_file`. -/
def guiLlcacheFetch (a : Answers Url) (s : Store Url) (url : Url) (elemIdx : ElemIdx) : Nserror × Store Url × Nat :=
  match getStoreEntry a s url with
  | none => (.notFound, s, 0)
  | some (bse, s) =>
    let elem := bse.elem elemIdx
    if elem.heap then
      -- the existing allocation is used
      (.ok, s.setEntry url (bse.setElem elemIdx { elem with ref := elem.ref + 1 }), elem.data)
    else
      match a.malloc with
      | none => (.nomem, s.setEntry url (bse.setElem elemIdx { elem with data := 0 }), 0)
      | some data =>
        let s := { s with memory := insert data s.memory }
        let bse := bse.setElem elemIdx { elem with data, ref := 1, heap := true }
        let s := s.setEntry url bse
        if a.done then (.ok, s, data)
        else (if elem.block ≠ 0 then .saveFailed else .notFound, entryReleaseAlloc s url bse elemIdx, 0)

def guiLlcacheRelease (a : Answers Url) (s : Store Url) (url : Url) (elemIdx : ElemIdx) : Nserror × Store Url :=
  match getStoreEntry a s url with
  | none => (.notFound, s)
  | some (bse, s) =>
    let s := entryReleaseAlloc s url bse elemIdx
    (.ok, if bse.invalid then invalidateEntry a s url else s)

def guiLlcacheInvalidate (a : Answers Url) (s : Store Url) (url : Url) : Nserror × Store Url :=
  match getStoreEntry a s url with
  | none => (.notFound, s)
  | some (_, s) => (.ok, invalidateEntry a s url)

/-- What `read_entries` makes of an entry: nothing of it is in memory. -/
def Entry.unheld (ent : Entry) : Entry := { ent with elem := fun elemIdx => { ent.elem elemIdx with heap := false } }

/-- `read_entries` of a file with these entries. -/
def readEntries (s : Store Url) (file : List (Url × Entry)) : Store Url :=
  file.foldl (fun s (url, ent) =>
    { s.setEntry url ent.unheld with
      totalAlloc := s.totalAlloc + (ent.elem .data).size.toUInt64 + (ent.elem .metadata).size.toUInt64 }) s

/-- `gui_llcache_initialise`, where the files of the store are read. -/
def guiLlcacheInitialise (limit hysteresis : UInt64) (useMap : UseMap) (file : List (Url × Entry)) : Store Url :=
  readEntries { limit, hysteresis, useMap } file

end Besra.StoreFaults
