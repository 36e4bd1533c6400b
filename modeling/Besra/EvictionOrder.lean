import Mathlib.Data.Prod.Lex
import Mathlib.Order.BooleanAlgebra.Basic
import Besra.StoreFaults

/-!
The order in which `store_evict` takes the entries of the backing store: those without an allocation come first, then
those of the fewest uses, then those that were used the longest ago.
-/
namespace Besra.EvictionOrder
open BackingStore (ElemIdx)
open StoreFaults

/-- What `compar` orders entries by, first to last. -/
def rank (ent : Entry) : Bool ×ₗ Bool ×ₗ Nat ×ₗ Int :=
  toLex ((ent.elem .data).heap, toLex ((ent.elem .metadata).heap, toLex (ent.useCount.toNat, ent.lastUsed)))

theorem compar_le_iff (a b : Entry) : compar a b ≤ 0 ↔ rank a ≤ rank b := by
  simp only [rank, Prod.Lex.toLex_le_toLex, compar, UInt16.lt_iff_toNat_lt, gt_iff_lt]
  cases (a.elem .data).heap <;> cases (b.elem .data).heap <;> cases (a.elem .metadata).heap <;>
    cases (b.elem .metadata).heap <;> simp
  all_goals grind

/-- A merge sort in the place of `qsort`. -/
def mergeSort (Url : Type) : Qsort Url where
  sort elist := elist.mergeSort (fun a b => decide (compar a.2 b.2 ≤ 0))
  perm elist := List.mergeSort_perm elist _
  sorted elist := by
    refine (List.pairwise_mergeSort (fun a b c first second => ?_) (fun a b => ?_) elist).imp of_decide_eq_true
    · simp only [decide_eq_true_eq, compar_le_iff] at first second ⊢
      exact first.trans second
    · simp only [Bool.or_eq_true, decide_eq_true_eq, compar_le_iff]
      exact le_total _ _

end Besra.EvictionOrder
