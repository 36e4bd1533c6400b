import Mathlib.Algebra.BigOperators.Group.List.Lemmas
import Mathlib.Algebra.Order.BigOperators.Group.List
import Mathlib.Tactic.Ring
import Mathlib.Tactic.Linarith

/-!
Dividing an amount in proportion to weights: ratios on a scale that are cut to whole numbers, and what is lost by it.
-/
namespace Besra.Apportion

variable (scale total : Int)

def lost (weights : List Int) : Int := (weights.map fun weight => (scale * weight).tmod total).sum

theorem total_mul_sum (weights : List Int) :
    total * (weights.map fun weight => (scale * weight).tdiv total).sum + lost scale total weights =
      scale * weights.sum := by
  induction weights with
  | nil => simp [lost]
  | cons weight rest ih =>
    have division := Int.mul_tdiv_add_tmod (scale * weight) total
    simp only [lost, List.map_cons, List.sum_cons] at ih ⊢
    linarith

variable {scale total}

theorem lost_nonneg {weights : List Int} (positive : 0 ≤ scale) (nonneg : ∀ weight ∈ weights, 0 ≤ weight) :
    0 ≤ lost scale total weights := by
  apply List.sum_nonneg
  intro part isPart
  obtain ⟨weight, isWeight, rfl⟩ := List.mem_map.mp isPart
  exact Int.tmod_nonneg _ (Int.mul_nonneg positive (nonneg weight isWeight))

theorem lost_eq_zero_iff {weights : List Int} (positive : 0 ≤ scale) (nonneg : ∀ weight ∈ weights, 0 ≤ weight) :
    lost scale total weights = 0 ↔ ∀ weight ∈ weights, total ∣ scale * weight := by
  induction weights with
  | nil => simp [lost]
  | cons weight rest ih =>
    have head := nonneg weight (by simp)
    have tail : ∀ weight ∈ rest, 0 ≤ weight := fun weight isWeight => nonneg weight (by simp [isWeight])
    have here := Int.tmod_nonneg total (Int.mul_nonneg positive head)
    have others := @lost_nonneg scale total rest positive tail
    have split : lost scale total (weight :: rest) = (scale * weight).tmod total + lost scale total rest := by
      simp [lost]
    rw [List.forall_mem_cons, ← ih tail, split, Int.dvd_iff_tmod_eq_zero]
    omega

theorem sum_tdiv_le {weights : List Int} (positive : 0 ≤ scale) (nonneg : ∀ weight ∈ weights, 0 ≤ weight)
    (sum : weights.sum = total) (some : 0 < total) :
    (weights.map fun weight => (scale * weight).tdiv total).sum ≤ scale := by
  have division := total_mul_sum scale total weights
  have rest := @lost_nonneg scale total weights positive nonneg
  rw [sum, Int.mul_comm scale total] at division
  exact Int.le_of_mul_le_mul_left (by linarith) some

theorem sum_tdiv_eq_iff {weights : List Int} (positive : 0 ≤ scale) (nonneg : ∀ weight ∈ weights, 0 ≤ weight)
    (sum : weights.sum = total) (some : 0 < total) :
    (weights.map fun weight => (scale * weight).tdiv total).sum = scale ↔
      ∀ weight ∈ weights, total ∣ scale * weight := by
  have division := total_mul_sum scale total weights
  rw [← lost_eq_zero_iff positive nonneg]
  rw [sum] at division
  constructor
  · intro whole
    rw [whole] at division
    linarith
  · intro none
    rw [none, Int.add_zero, Int.mul_comm scale total] at division
    exact Int.eq_of_mul_eq_mul_left some.ne' division

end Besra.Apportion
