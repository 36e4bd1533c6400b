import Mathlib.Data.List.AList

/-!
The block files of the store of `netsurf/content/fs_backing_store.c`: the places of blocks in them and the maps of the
places in use.
-/
namespace Besra.BackingStore

/-- `BLOCK_ENTRY_COUNT`, a logarithm -/
def blockEntryCount : Nat := 10

/-- `BLOCK_FILE_COUNT`, said to be a logarithm too -/
def blockFileCount : Nat := 16 - blockEntryCount

def blockUseMapSize : Nat := 1 <<< (blockEntryCount - 3)

/-- `store_entry_elem_idx` -/
inductive ElemIdx where
  | data
  | metadata
deriving DecidableEq

def log2BlockSize : ElemIdx → Nat
  | .data => 13
  | .metadata => 13

/-- The bytes of the use maps: of an element, a block file and an index. -/
abbrev UseMap := ElemIdx → Nat → Nat → BitVec 8

def UseMap.set (m : UseMap) (elemIdx : ElemIdx) (bf idx : Nat) (byte : BitVec 8) : UseMap :=
  Function.update m elemIdx (Function.update (m elemIdx) bf (Function.update (m elemIdx bf) idx byte))

def blockPlace (block : Nat) : Nat × Nat :=
  ((block >>> blockEntryCount) &&& ((1 <<< blockFileCount) - 1), block &&& ((1 <<< blockEntryCount) - 1))

def freeBit (byte : BitVec 8) : Option Nat :=
  if byte ≠ 0xff then (List.range 8).find? fun bit => byte &&& (1#8 <<< bit) = 0 else none

def freePlace (m : Nat → Nat → BitVec 8) : Option (Nat × Nat × Nat) :=
  (List.range blockFileCount).findSome? fun bf =>
    (List.range blockUseMapSize).findSome? fun idx => (freeBit (m bf idx)).map fun bit => (bf, idx, bit)

end Besra.BackingStore
