import Mathlib.Logic.Function.Basic
import Besra.Dom

/-!
The bloom filters of `libcss/src/select/bloom.h`: four words, of which a hash sets
one bit. A filter is inside another when the other has all its bits, and so the
filter of what a selector asks of the ancestors is inside that of an element whose
ancestors have it all.
-/
namespace Besra.Bloom
open Lwc Trail Dom

/-- `css_bloom [CSS_BLOOM_SIZE]` -/
abbrev CssBloom := Fin 4 → UInt32

/-- `css_bloom_init` -/
def init : CssBloom := fun _ => 0

def index (hash : UInt32) : Fin 4 := Fin.ofNat 4 (hash >>> 5).toNat

def mask (hash : UInt32) : UInt32 := 1 <<< (hash &&& 0x1f)

/-- `css_bloom_add_hash` -/
def addHash (bloom : CssBloom) (hash : UInt32) : CssBloom :=
  Function.update bloom (index hash) (bloom (index hash) ||| mask hash)

/-- `css_bloom_has_hash` -/
def hasHash (bloom : CssBloom) (hash : UInt32) : Bool := bloom (index hash) &&& mask hash != 0

/-- `css_bloom_in_bloom` -/
def inBloom (a b : CssBloom) : Bool := decide (∀ i, a i &&& b i = a i)

/-- `css_bloom_merge` -/
def merge (a b : CssBloom) : CssBloom := fun i => b i ||| a i

variable {b a : CssBloom} {hash : UInt32} {hashes : List UInt32}

theorem inBloom_iff : inBloom a b = true ↔ ∀ i, a i &&& b i = a i := by simp [inBloom]

theorem inBloom_refl (a : CssBloom) : inBloom a a = true := inBloom_iff.mpr fun _ => UInt32.and_self

theorem init_inBloom (b : CssBloom) : inBloom init b = true := inBloom_iff.mpr fun _ => UInt32.zero_and

theorem inBloom_trans {c : CssBloom} (first : inBloom a b = true) (second : inBloom b c = true) :
    inBloom a c = true := by
  rw [inBloom_iff] at *
  intro i
  rw [← first i, UInt32.and_assoc, second i]

theorem mask_single (hash : UInt32) : ∃ k < 32, (mask hash).toBitVec = BitVec.twoPow 32 k := by
  refine ⟨((hash &&& 0x1f).toBitVec % 32).toNat, ?_, ?_⟩
  · rw [BitVec.toNat_umod]
    exact Nat.mod_lt _ (by decide)
  · rw [mask, UInt32.toBitVec_shiftLeft, BitVec.twoPow_eq]
    rfl

theorem mask_and {word : UInt32} (met : word &&& mask hash ≠ 0) : mask hash &&& word = mask hash := by
  obtain ⟨k, -, single⟩ := mask_single hash
  have had : word.toBitVec.getLsbD k = true := by
    by_contra other
    apply met
    rw [← UInt32.toBitVec_inj, UInt32.toBitVec_and, single, BitVec.and_twoPow, if_neg other]
    rfl
  rw [← UInt32.toBitVec_inj, UInt32.toBitVec_and, single, BitVec.and_comm, BitVec.and_twoPow, if_pos had]

theorem or_and_eq {a m b : UInt32} : (a ||| m) &&& b = a ||| m ↔ a &&& b = a ∧ m &&& b = m := by
  simp only [← UInt32.toBitVec_inj, UInt32.toBitVec_and, UInt32.toBitVec_or, BitVec.eq_of_getLsbD_eq_iff,
    BitVec.getLsbD_and, BitVec.getLsbD_or]
  constructor
  · intro both
    refine ⟨fun i bound => ?_, fun i bound => ?_⟩ <;> have bit := both i bound <;> revert bit <;>
      cases a.toBitVec.getLsbD i <;> cases m.toBitVec.getLsbD i <;> simp
  · rintro ⟨first, second⟩ i bound
    rw [Bool.and_or_distrib_right, first i bound, second i bound]

theorem addHash_inBloom (inside : inBloom a b = true) (had : hasHash b hash = true) :
    inBloom (addHash a hash) b = true := by
  rw [inBloom_iff] at *
  intro i
  by_cases here : i = index hash
  · subst here
    rw [addHash, Function.update_self]
    exact or_and_eq.mpr ⟨inside _, mask_and (by simpa [hasHash] using had)⟩
  · rw [addHash, Function.update_of_ne here]
    exact inside i

theorem hasHash_iff : hasHash b hash = true ↔ mask hash &&& b (index hash) = mask hash := by
  constructor
  · intro had
    exact mask_and (by simpa [hasHash] using had)
  · intro same
    obtain ⟨k, bound, single⟩ := mask_single hash
    have some_bit : (mask hash).toBitVec.getLsbD k = true := by simp [single, bound]
    have nonzero : mask hash ≠ 0 := by
      intro zero
      simp [zero] at some_bit
    rw [hasHash, UInt32.and_comm, same]
    simpa using nonzero

theorem hasHash_mono (inside : inBloom a b = true) (had : hasHash a hash = true) : hasHash b hash = true := by
  rw [hasHash_iff] at *
  rw [← had, UInt32.and_assoc, inBloom_iff.mp inside]

theorem hasHash_addHash (b : CssBloom) (hash : UInt32) : hasHash (addHash b hash) hash = true := by
  rw [hasHash_iff, addHash, Function.update_self]
  exact (or_and_eq.mp UInt32.and_self).2

theorem inBloom_addHash (b : CssBloom) (hash : UInt32) : inBloom b (addHash b hash) = true := by
  rw [inBloom_iff]
  intro i
  by_cases here : i = index hash
  · subst here
    rw [addHash, Function.update_self]
    exact (or_and_eq.mp UInt32.and_self).1
  · rw [addHash, Function.update_of_ne here, UInt32.and_self]

theorem inBloom_merge_left (a b : CssBloom) : inBloom a (merge a b) = true :=
  inBloom_iff.mpr fun _ => (or_and_eq.mp UInt32.and_self).2

theorem inBloom_merge_right (a b : CssBloom) : inBloom b (merge a b) = true :=
  inBloom_iff.mpr fun _ => (or_and_eq.mp UInt32.and_self).1

def addHashes (bloom : CssBloom) (hashes : List UInt32) : CssBloom := hashes.foldl addHash bloom

theorem inBloom_addHashes (b : CssBloom) (hashes : List UInt32) : inBloom b (addHashes b hashes) = true := by
  induction hashes generalizing b with
  | nil => exact inBloom_refl b
  | cons hash hashes ih => exact inBloom_trans (inBloom_addHash b hash) (ih (addHash b hash))

theorem hasHash_addHashes (among : hash ∈ hashes) : hasHash (addHashes b hashes) hash = true := by
  induction hashes generalizing b with
  | nil => cases among
  | cons other hashes ih =>
    rcases List.mem_cons.mp among with rfl | later
    · exact hasHash_mono (inBloom_addHashes _ hashes) (hasHash_addHash b hash)
    · exact ih later

theorem addHashes_inBloom (inside : inBloom a b = true) (had : ∀ hash ∈ hashes, hasHash b hash = true) :
    inBloom (addHashes a hashes) b = true := by
  induction hashes generalizing a with
  | nil => exact inside
  | cons hash hashes ih =>
    exact ih (addHash_inBloom inside (had hash (by simp))) fun h among => had h (by simp [among])

variable {ν : Type} (client : Client ν)

/-- The hashes that `css__create_node_bloom` adds for an element. -/
def nodeHashes (n : ν) : List UInt32 :=
  caselessHashValue (client.nodeName n).name ::
    ((client.nodeId n).toList.map caselessHashValue ++ (client.nodeClasses n).map caselessHashValue)

/-- `css__create_node_bloom`: what the children of an element are selected with, from what the element
itself is selected with. -/
def createNodeBloom (bloom : CssBloom) (n : ν) : CssBloom := merge bloom (addHashes init (nodeHashes client n))

/-- The filter has the names, classes and ids of all the ancestors of an element. -/
def Covers (bloom : CssBloom) (n : ν) : Prop :=
  ∀ k, client.parents.Reaches n k → ∀ hash ∈ nodeHashes client k, hasHash bloom hash = true

theorem covers_root {n : ν} (root : client.parent n = none) : Covers client init n := by
  intro k reached
  obtain ⟨m, first, -⟩ := Relation.TransGen.head'_iff.mp reached
  exact absurd (root.symm.trans first) (by simp)

theorem covers_child {bloom : CssBloom} {n m : ν} (covers : Covers client bloom n) (child : client.parent m = some n) :
    Covers client (createNodeBloom client bloom n) m := by
  intro k reached hash among
  obtain ⟨j, first, further⟩ := Relation.TransGen.head'_iff.mp reached
  obtain rfl : n = j := Option.some.inj (child.symm.trans first)
  rcases Relation.reflTransGen_iff_eq_or_transGen.mp further with rfl | later
  · exact hasHash_mono (inBloom_merge_right _ _) (hasHash_addHashes among)
  · exact hasHash_mono (inBloom_merge_left _ _) (covers k later hash among)

theorem covers_of_created {bloom : ν → CssBloom} (root : ∀ n, client.parent n = none → bloom n = init)
    (child : ∀ n m, client.parent m = some n → bloom m = createNodeBloom client (bloom n) n) (n : ν) :
    Covers client (bloom n) n := by
  induction n using Links.induct client.parents with
  | step n ih =>
    rcases linked : client.parent n with _ | m
    · rw [root n linked]
      exact covers_root client linked
    · rw [child m n linked]
      exact covers_child client (ih m linked) linked

end Besra.Bloom
