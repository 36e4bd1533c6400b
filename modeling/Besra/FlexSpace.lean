import Besra.Flex
import Besra.Apportion

/-!
Whether the free space of flex lines is given away exactly (`free_space_exact`). Space along a line goes to the items
by ratios that are cut to 1024ths before they are used; each `AUTO` margin gets the whole remainder of the division, and
each line one less of it than the line before.
-/
namespace Besra.FlexSpace
open FixedPoint Flex Apportion List

def shares (remaining total : Int) (weights : List Int) : List Int :=
  weights.map fun weight => fmul (intToFix remaining) (fdiv weight total)

/-- How often the sum of a share and the fraction carried to it wraps around. -/
def overflows : Int → List Int → Nat
  | _, [] => 0
  | carry, share :: rest => (if 2 ^ 31 ≤ share + carry then 1 else 0) + overflows ((share + carry) % 1024) rest

/-- The whole pixels of all shares, with the fractions carried on in 32 bits. -/
def handedOut (remaining total : Int) (weights : List Int) : Int :=
  (shares remaining total weights).sum / 1024 - 2 ^ 22 * overflows 0 (shares remaining total weights)

variable {carry n weight total remaining sign : Int} {item : FlexItem} {after line : FlexLine} {ctx : FlexCtx}

theorem overflows_eq_zero {shares : List Int} (nonneg : ∀ share ∈ shares, 0 ≤ share) (carried : 0 ≤ carry)
    (fits : carry + shares.sum < 2 ^ 31) : overflows carry shares = 0 := by
  induction shares generalizing carry with
  | nil => rfl
  | cons share rest ih =>
    obtain ⟨first, others⟩ := forall_mem_cons.mp nonneg
    have total := sum_nonneg others
    rw [sum_cons] at fits
    rw [overflows, if_neg (by omega), ih others (by omega) (by omega)]

theorem overflows_of_nonpos {shares : List Int} (nonpos : ∀ share ∈ shares, share ≤ 0) (small : carry < 1024) :
    overflows carry shares = 0 := by
  induction shares generalizing carry with
  | nil => rfl
  | cons share rest ih =>
    obtain ⟨first, others⟩ := forall_mem_cons.mp nonpos
    rw [overflows, if_neg (by omega), ih others (by omega)]

theorem clamp_nonneg (nonneg : 0 ≤ n) : 0 ≤ clamp n := by
  unfold clamp
  omega

theorem share_nonneg (amount : 0 ≤ remaining) (part : 0 ≤ weight) (whole : 0 ≤ total) :
    0 ≤ fmul (intToFix remaining) (fdiv weight total) := by
  have scaled : 0 ≤ intToFix remaining := clamp_nonneg (by omega)
  have ratio : 0 ≤ fdiv weight total := clamp_nonneg (Int.tdiv_nonneg (by omega) whole)
  exact clamp_nonneg (Int.ediv_nonneg (Int.mul_nonneg scaled ratio) (by omega))

theorem fdiv_part (nonneg : 0 ≤ weight) (part : weight ≤ total) (some : 0 < total) :
    fdiv weight total = (1024 * weight).tdiv total ∧ 0 ≤ fdiv weight total ∧ fdiv weight total ≤ 1024 := by
  have floor : (1024 * weight).tdiv total = 1024 * weight / total := Int.tdiv_eq_ediv_of_nonneg (by omega)
  have lower : 0 ≤ 1024 * weight / total := Int.ediv_nonneg (by omega) some.le
  have upper : 1024 * weight / total ≤ 1024 :=
    Int.ediv_le_of_le_mul some (Int.mul_le_mul_of_nonneg_left part (by omega))
  have exact : fdiv weight total = (1024 * weight).tdiv total := by
    rw [fdiv, floor]
    exact clamp_of_fits ⟨by omega, by omega⟩
  rw [exact, floor]
  exact ⟨rfl, lower, upper⟩

theorem fmul_ratio {ratio : Int} (fits : Fits (1024 * remaining)) (nonneg : 0 ≤ ratio) (le_one : ratio ≤ 1024) :
    fmul (intToFix remaining) ratio = remaining * ratio := by
  have scaled : 1024 * remaining * ratio / 1024 = remaining * ratio := by
    rw [Int.mul_assoc]
    exact Int.mul_ediv_cancel_left _ (by omega)
  rw [fmul, intToFix, clamp_of_fits fits, scaled]
  apply clamp_of_fits
  obtain ⟨lower, upper⟩ := fits
  constructor <;> nlinarith

section Shares
variable {weights : List Int} (nonneg : ∀ weight ∈ weights, 0 ≤ weight) (some : 0 < weights.sum)
include nonneg some

theorem ratio_of_mem {weight : Int} (isWeight : weight ∈ weights) :
    fdiv weight weights.sum = (1024 * weight).tdiv weights.sum ∧ 0 ≤ fdiv weight weights.sum ∧
      fdiv weight weights.sum ≤ 1024 :=
  fdiv_part (nonneg weight isWeight) (single_le_sum nonneg weight isWeight) some

theorem sum_ratios_le : (weights.map fun weight => fdiv weight weights.sum).sum ≤ 1024 := by
  rw [map_congr_left fun weight isWeight => (ratio_of_mem nonneg some isWeight).1]
  exact sum_tdiv_le (by omega) nonneg rfl some

variable {remaining : Int}

theorem sum_shares (fits : Fits (1024 * remaining)) :
    (shares remaining weights.sum weights).sum =
      remaining * (weights.map fun weight => (1024 * weight).tdiv weights.sum).sum := by
  rw [← sum_map_mul_left, shares]
  congr 1
  apply map_congr_left
  intro weight isWeight
  obtain ⟨exact, lower, upper⟩ := ratio_of_mem nonneg some isWeight
  rw [fmul_ratio fits lower upper, exact]

theorem sum_shares_le (amount : 0 ≤ remaining) : (shares remaining weights.sum weights).sum ≤ intToFix remaining := by
  have scaled : 0 ≤ intToFix remaining := clamp_nonneg (by omega)
  have each : ∀ weight ∈ weights,
      1024 * fmul (intToFix remaining) (fdiv weight weights.sum) ≤ intToFix remaining * fdiv weight weights.sum := by
    intro weight isWeight
    obtain ⟨-, lower, -⟩ := ratio_of_mem nonneg some isWeight
    have product := Int.mul_nonneg scaled lower
    rw [fmul]
    unfold clamp
    omega
  have bounds := sum_le_sum each
  rw [sum_map_mul_left, sum_map_mul_left] at bounds
  have ratios := Int.mul_le_mul_of_nonneg_left (sum_ratios_le nonneg some) scaled
  unfold shares
  omega

theorem sum_shares_of_large (large : 2 ^ 31 ≤ 1024 * remaining) :
    (shares remaining weights.sum weights).sum < 1024 * remaining := by
  have le := sum_shares_le nonneg some (show 0 ≤ remaining by omega)
  have limited : intToFix remaining = 2 ^ 31 - 1 := by
    unfold intToFix clamp
    omega
  omega

theorem no_overflows (remaining : Int) : overflows 0 (shares remaining weights.sum weights) = 0 := by
  rcases le_total 0 remaining with amount | deficit
  · refine overflows_eq_zero ?_ le_rfl ?_
    · refine forall_mem_map.mpr fun weight isWeight => ?_
      exact share_nonneg amount (nonneg weight isWeight) some.le
    · have le := sum_shares_le nonneg some amount
      have limited : intToFix remaining < 2 ^ 31 := by
        unfold intToFix clamp
        omega
      omega
  · refine overflows_of_nonpos (forall_mem_map.mpr fun weight isWeight => ?_) (by omega)
    obtain ⟨-, lower, -⟩ := ratio_of_mem nonneg some isWeight
    have scaled : intToFix remaining ≤ 0 := by
      unfold intToFix clamp
      omega
    have product := Int.mul_nonpos_of_nonpos_of_nonneg scaled lower
    rw [fmul]
    unfold clamp
    omega

theorem sum_shares_of_small (small : 1024 * remaining < -2 ^ 31) :
    1024 * remaining + 1024 ≤ (shares remaining weights.sum weights).sum := by
  have limited : intToFix remaining = -2 ^ 31 := by
    unfold intToFix clamp
    omega
  have each : ∀ weight ∈ weights,
      -2 ^ 21 * fdiv weight weights.sum ≤ fmul (intToFix remaining) (fdiv weight weights.sum) := by
    intro weight isWeight
    obtain ⟨-, lower, upper⟩ := ratio_of_mem nonneg some isWeight
    rw [limited, fmul]
    unfold clamp
    omega
  have bounds := sum_le_sum each
  rw [sum_map_mul_left] at bounds
  have ratios := sum_ratios_le nonneg some
  unfold shares
  omega

end Shares

/-- When whole pixels of an amount are given away exactly by weights that are not negative: nothing is lost of what is
added, and less than a pixel of what is taken away by ratios that round up. -/
def Even (weights : List Int) (remaining : Int) : Prop :=
  remaining = 0 ∨ Fits (1024 * remaining) ∧ 0 < weights.sum ∧
    (if 0 < remaining then ∀ weight ∈ weights, weights.sum ∣ 1024 * weight
      else -remaining * lost 1024 weights.sum weights < 1024 * weights.sum)

instance (weights : List Int) (remaining : Int) : Decidable (Even weights remaining) :=
  inferInstanceAs (Decidable (_ ∨ _ ∧ _ ∧ _))

theorem shares_zero (total : Int) (weights : List Int) : (shares 0 total weights).sum = 0 := by
  apply sum_eq_zero
  intro share isShare
  obtain ⟨weight, -, rfl⟩ := mem_map.mp isShare
  simp [fmul, intToFix, clamp]

theorem handedOut_iff {weights : List Int} (nonneg : ∀ weight ∈ weights, 0 ≤ weight) (some : 0 < weights.sum)
    (remaining : Int) : handedOut remaining weights.sum weights = remaining ↔ Even weights remaining := by
  rw [handedOut, no_overflows nonneg some, Nat.cast_zero, Int.mul_zero, Int.sub_zero]
  by_cases zero : remaining = 0
  · subst zero
    simp [shares_zero, Even]
  by_cases fits : Fits (1024 * remaining)
  · have parts := total_mul_sum 1024 weights.sum weights
    have le_scale := @sum_tdiv_le 1024 weights.sum weights (by omega) nonneg rfl some
    have even := @sum_tdiv_eq_iff 1024 weights.sum weights (by omega) nonneg rfl some
    rw [sum_shares nonneg some fits]
    simp only [Even, zero, fits, some, true_and, false_or]
    generalize (weights.map fun weight => (1024 * weight).tdiv weights.sum).sum = ratios at *
    split
    · next positive =>
      rw [← even, Int.ediv_eq_iff_of_pos (by omega)]
      constructor
      · rintro ⟨lower, -⟩
        nlinarith
      · rintro rfl
        constructor <;> linarith
    · next negative =>
      have missing : lost 1024 weights.sum weights = weights.sum * (1024 - ratios) := by linarith
      have scaled : -remaining * lost 1024 weights.sum weights = weights.sum * (-remaining * (1024 - ratios)) := by
        rw [missing]
        ring
      rw [scaled, Int.mul_comm 1024, Int.mul_lt_mul_left some, Int.ediv_eq_iff_of_pos (by omega)]
      constructor
      · rintro ⟨-, upper⟩
        linarith
      · intro less
        constructor <;> nlinarith
  · simp only [Even, zero, fits, false_and, or_false, iff_false]
    have outside : 1024 * remaining < -2 ^ 31 ∨ 2 ^ 31 ≤ 1024 * remaining := by
      unfold Fits at fits
      omega
    rcases outside with small | large
    · have := sum_shares_of_small nonneg some small
      omega
    · have := sum_shares_of_large nonneg some large
      omega

/-- What the items that were not frozen got on top of their base sizes. -/
def handed (items after : List FlexItem) : Int :=
  (List.zipWith (fun item given => if item.freeze then 0 else wrapped (given.targetMainSize - item.baseSize))
    items after).sum

theorem wrapped_of_fits (fits : Fits n) : wrapped n = n := by
  unfold Fits at fits
  exact Int.bmod_eq_of_le (by omega) (by omega)

/-- What is added to a size in 32 bits is the difference that it makes. -/
theorem wrapped_add_sub (size : Int) {added : Int} (fits : Fits added) : wrapped (wrapped (size + added) - size) = added := by
  have both : wrapped (wrapped (size + added) - size) = wrapped added := by
    rw [wrapped, wrapped, Int.bmod_sub_bmod, add_sub_cancel_left, wrapped]
  rw [both, wrapped_of_fits fits]

theorem wrapped_result {result : Int} (lower : -2 ^ 31 ≤ result) (upper : result < 2 ^ 31 + 1024) :
    fixToInt (wrapped result) = result / 1024 - 2 ^ 22 * (if 2 ^ 31 ≤ result then 1 else 0) ∧
      fixFrac (wrapped result) = result % 1024 := by
  rw [wrapped, fixToInt, fixFrac]
  rcases bmod_cases (n := result) (by omega) (by omega) with ⟨below, -⟩ | ⟨⟨-, fits⟩, same⟩ | ⟨above, less⟩
  · omega
  · rw [same, if_neg (by omega)]
    omega
  · rw [less, if_pos above]
    omega

theorem handed_cons (item given : FlexItem) (items after : List FlexItem) :
    handed (item :: items) (given :: after) =
      (if item.freeze then 0 else wrapped (given.targetMainSize - item.baseSize)) + handed items after := rfl

theorem unfrozen_frozen (frozen : item.freeze = true) (items : List FlexItem) :
    unfrozen (item :: items) = unfrozen items := filter_cons_of_neg (by simp [frozen])

theorem unfrozen_free (free : item.freeze = false) (items : List FlexItem) :
    unfrozen (item :: items) = item :: unfrozen items := filter_cons_of_pos (by simp [free])

theorem handed_allot {share : FlexItem → Int} (fits : ∀ item, Fits (share item)) (one : sign = 1 ∨ sign = -1)
    (items : List FlexItem) (nonneg : 0 ≤ carry) (small : carry < 1024) :
    handed items (each (allot share sign) carry items).2 =
      sign * ((((unfrozen items).map share).sum + carry) / 1024 - 2 ^ 22 * overflows carry ((unfrozen items).map share)) := by
  induction items generalizing carry with
  | nil => simp [handed, each, unfrozen, overflows, Int.ediv_eq_zero_of_lt nonneg small]
  | cons item rest ih =>
    rw [each, handed_cons]
    cases frozen : item.freeze with
    | true =>
      rw [if_pos rfl, Int.zero_add, unfrozen_frozen frozen, allot, if_pos frozen]
      exact ih nonneg small
    | false =>
      obtain ⟨lower, upper⟩ := fits item
      obtain ⟨whole, fraction⟩ := @wrapped_result (share item + carry) (by omega) (by omega)
      have amount : Fits (sign * fixToInt (wrapped (share item + carry))) := by
        rw [whole]
        unfold Fits
        rcases one with rfl | rfl <;> split <;> omega
      have visited : allot share sign carry item = (fixFrac (wrapped (share item + carry)),
          { item with targetMainSize := wrapped (item.baseSize + sign * fixToInt (wrapped (share item + carry))) }) := by
        rw [allot, if_neg (by simp [frozen])]
      have next := @ih ((share item + carry) % 1024) (by omega) (by omega)
      rw [visited, fraction, if_neg (by simp), next, unfrozen_free frozen, map_cons, sum_cons, overflows]
      dsimp only
      rw [wrapped_add_sub _ amount, whole]
      generalize ((unfrozen rest).map share).sum = total
      have together : (share item + total + carry) / 1024 =
          (share item + carry) / 1024 + (total + (share item + carry) % 1024) / 1024 := by omega
      rw [together]
      split <;> push_cast <;> ring

theorem handed_shares (items : List FlexItem) (weight : FlexItem → Int) (amount total : Int)
    (one : sign = 1 ∨ sign = -1) :
    handed items (each (allot (fun item => fmul (intToFix amount) (fdiv (weight item) total)) sign) 0 items).2 =
      sign * handedOut amount total ((unfrozen items).map weight) := by
  have fits (item : FlexItem) : Fits (fmul (intToFix amount) (fdiv (weight item) total)) := by
    unfold Fits fmul clamp
    omega
  rw [handed_allot fits one items le_rfl (by omega), Int.add_zero, handedOut, shares, map_map]
  rfl

theorem handed_settled (items : List FlexItem) (line : FlexLine) :
    handed items (each settleItem line items).2 =
      ((unfrozen items).map fun item => wrapped (item.mainSize - item.baseSize)).sum := by
  induction items generalizing line with
  | nil => rfl
  | cons item rest ih =>
    rw [each, handed_cons, ih]
    cases frozen : item.freeze with
    | true => rw [if_pos rfl, Int.zero_add, unfrozen_frozen frozen]
    | false =>
      have target : (settleItem line item).2.targetMainSize = item.mainSize := by
        simp [settleItem, frozen, itemFreeze]
      rw [if_neg (by simp), unfrozen_free frozen, map_cons, sum_cons, target]

def factors (line : FlexLine) (grow : Bool) : List Int := (unfrozen line.items).map (factor grow)

def scaledFactors (line : FlexLine) : List Int := (unfrozen line.items).map scaledShrinkFactor

/-- When the free space is given exactly. To shrink there has to be something to take away, and the scaled factors
have to be even; without any, the limits have to make up for it. Factors whose sum wraps around, and scaled factors of
both signs, give ratios that may leave 32 bits. -/
def Distributes (line : FlexLine) (remaining : Int) (grow : Bool) : Prop :=
  if grow then
    if wrapped (factors line true).sum = 0 then unfrozen line.items = [] ∧ remaining = 0
    else if Fits (factors line true).sum then Even (factors line true) remaining
    else handedOut remaining (wrapped (factors line true).sum) (factors line true) = remaining
  else if wrapped (scaledFactors line).sum = 0 then
    ((unfrozen line.items).map fun item => wrapped (item.mainSize - item.baseSize)).sum = remaining
  else if (∀ factor ∈ scaledFactors line, 0 ≤ factor) ∧ Fits (scaledFactors line).sum then
    remaining ≤ 0 ∧ Even (scaledFactors line) (-remaining)
  else handedOut |remaining| (wrapped (scaledFactors line).sum) (scaledFactors line) = -remaining

/-- The items get a sum of amounts: the line can be given its space, and they get so much on top of their base sizes. -/
def Hands (line : FlexLine) (remaining amount : Int) (grow : Bool) : Prop :=
  ∃ after, distributeFreeMain line (unfrozenFactorSum grow line.items) remaining grow = some after ∧
    handed line.items after.items = amount

theorem hands_of_eq {amount : Int} {grow : Bool}
    (given : distributeFreeMain line (unfrozenFactorSum grow line.items) remaining grow = some after) :
    Hands line remaining amount grow ↔ handed line.items after.items = amount := by
  rw [Hands, given]
  simp

theorem handed_frozen {items : List FlexItem} (frozen : unfrozen items = []) (share : FlexItem → Int) (sign carry : Int) :
    handed items (each (allot share sign) carry items).2 = 0 := by
  induction items generalizing carry with
  | nil => rfl
  | cons item rest ih =>
    cases flag : item.freeze with
    | true =>
      rw [unfrozen_frozen flag] at frozen
      rw [each, handed_cons, if_pos flag, ih frozen, Int.add_zero]
    | false =>
      rw [unfrozen_free flag] at frozen
      cases frozen

theorem hands_grow (line : FlexLine) (remaining : Int) : Hands line remaining remaining true ↔
    Distributes line remaining true := by
  have nonneg : ∀ weight ∈ factors line true, 0 ≤ weight := by
    refine forall_mem_map.mpr fun item _ => ?_
    simp [factor]
  have sum : unfrozenFactorSum true line.items = wrapped (factors line true).sum := rfl
  rw [Distributes, if_pos rfl]
  by_cases stuck : wrapped (factors line true).sum = 0 ∧ unfrozen line.items ≠ []
  · have none_ : distributeFreeMain line (unfrozenFactorSum true line.items) remaining true = none := by
      rw [distributeFreeMain, if_pos rfl, sum, if_pos stuck]
    rw [Hands, none_, if_pos stuck.1]
    simp [stuck.2]
  · have given : distributeFreeMain line (unfrozenFactorSum true line.items) remaining true = some { line with
        items := (each (allot (fun item => fmul (intToFix remaining)
          (fdiv item.grow (wrapped (factors line true).sum))) 1) 0 line.items).2 } := by
      rw [distributeFreeMain, if_pos rfl, sum, if_neg stuck]
    rw [hands_of_eq given]
    split
    next zero =>
      have empty : unfrozen line.items = [] := by
        by_contra some
        exact stuck ⟨zero, some⟩
      dsimp only
      rw [handed_frozen empty]
      simp [empty, eq_comm]
    next nonzero =>
      dsimp only
      rw [handed_shares line.items (fun item => item.grow) remaining _ (.inl rfl), Int.one_mul]
      change handedOut remaining _ (factors line true) = remaining ↔ _
      split
      next fits =>
        have same := wrapped_of_fits fits
        rw [same] at nonzero ⊢
        have total := sum_nonneg nonneg
        exact handedOut_iff nonneg (by omega) remaining
      · rfl

theorem hands_shrink (line : FlexLine) (remaining : Int) : Hands line remaining remaining false ↔
    Distributes line remaining false := by
  rw [Distributes, if_neg (by simp)]
  by_cases zero : wrapped (scaledFactors line).sum = 0
  · have given : distributeFreeMain line (unfrozenFactorSum false line.items) remaining false =
        some { (each settleItem line line.items).1 with items := (each settleItem line line.items).2 } := by
      rw [distributeFreeMain, if_neg (by simp)]
      exact if_pos zero
    rw [hands_of_eq given, if_pos zero]
    dsimp only
    rw [handed_settled]
  · have given : distributeFreeMain line (unfrozenFactorSum false line.items) remaining false = some { line with
        items := (each (allot (fun item => fmul (intToFix |remaining|)
          (fdiv (scaledShrinkFactor item) (wrapped (scaledFactors line).sum))) (-1)) 0 line.items).2 } := by
      rw [distributeFreeMain, if_neg (by simp)]
      exact if_neg zero
    rw [hands_of_eq given, if_neg zero]
    dsimp only
    rw [handed_shares line.items scaledShrinkFactor |remaining| _ (.inr rfl)]
    change -1 * handedOut |remaining| _ (scaledFactors line) = remaining ↔ _
    split
    next plain =>
      obtain ⟨nonneg, fits⟩ := plain
      rw [wrapped_of_fits fits] at zero ⊢
      have total := sum_nonneg nonneg
      have some : 0 < (scaledFactors line).sum := by omega
      have even := handedOut_iff nonneg some |remaining|
      rcases le_or_gt remaining 0 with negative | positive
      · rw [abs_of_nonpos negative] at even ⊢
        rw [← even]
        omega
      · have upward : 0 ≤ handedOut |remaining| (scaledFactors line).sum (scaledFactors line) := by
          rw [handedOut, no_overflows nonneg some]
          have sum : 0 ≤ (shares |remaining| (scaledFactors line).sum (scaledFactors line)).sum :=
            sum_nonneg (forall_mem_map.mpr fun weight isWeight =>
              share_nonneg (abs_nonneg _) (nonneg weight isWeight) total)
          omega
        omega
    · omega

/-- The count of a line is that of its items, as it was built. -/
def Built (line : FlexLine) : Prop := line.mainAutoMarginCount = (lineOf line.items).mainAutoMarginCount

theorem built_lineOf (items : List FlexItem) : Built (lineOf items) := rfl

theorem settleBox_keeps {box : FlexBox} (settled : settleBox ctx item = some box) :
    box.absolute = item.box.absolute ∧ (box.along.marginStart = auto ↔ item.box.along.marginStart = auto) ∧
      (box.along.marginEnd = auto ↔ item.box.along.marginEnd = auto) := by
  unfold settleBox at settled
  split at settled
  · have kept := ctx.layout.keeps settled
    exact kept
  · cases settled
    exact ⟨rfl, Iff.rfl, Iff.rfl⟩

theorem placeItems_extra {extra : Int} :
    ∀ {items : List FlexItem} {mainPos crossSize end' : Int} {placed : List PlacedItem},
      placeItems ctx extra mainPos crossSize items = some (placed, end') →
      (placed.map fun item => item.extraPre + item.extraPost).sum =
        (lineOf items).mainAutoMarginCount * extra := by
  intro items
  induction items with
  | nil =>
    rintro mainPos crossSize end' placed ⟨⟩
    simp [lineOf]
  | cons item rest ih =>
    intro mainPos crossSize end' placed given
    rw [placeItems] at given
    split at given
    · cases given
    · next box settled =>
      obtain ⟨absolute, start, stop⟩ := settleBox_keeps settled
      simp only [absolute, start, stop] at given
      split at given
      · cases given
      · next others crossSize' placedOthers =>
        cases given
        have next := ih placedOthers
        simp only [lineOf] at next ⊢
        simp only [map_cons, sum_cons, next, filter_cons]
        cases item.box.absolute with
        | true => simp
        | false =>
          simp only [Bool.not_false, true_and, if_true, map_cons, sum_cons, Sides.autoMargins]
          push_cast
          split <;> split <;> ring

/-- When the `AUTO` margins take exactly the free space: it is known, and it divides among them. -/
def MarginsDivide (ctx : FlexCtx) (line : FlexLine) : Prop :=
  ctx.availableMain = line.usedMainSize ∨
    ctx.availableMain ≠ auto ∧ ctx.availableMain ≠ unknownWidth ∧ line.usedMainSize < ctx.availableMain ∧
      (line.mainAutoMarginCount : Int) ∣ ctx.availableMain - line.usedMainSize

theorem margins_divide {space count : Int} (free : 0 < space) (some : 0 < count) :
    count * (space.tdiv count + space.tmod count) = space ↔ count ∣ space := by
  have division := Int.mul_tdiv_add_tmod space count
  have nonneg := Int.tmod_nonneg count free.le
  have small := Int.tmod_lt_of_pos space some
  rw [Int.dvd_iff_tmod_eq_zero, Int.mul_add]
  constructor
  · intro exact
    by_contra rest
    have one : count * space.tmod count = 1 * space.tmod count := by linarith
    have single := Int.eq_of_mul_eq_mul_right rest one
    omega
  · intro none
    rw [none] at division ⊢
    omega

theorem margins_iff {mainPos : Int} {placed : List PlacedItem} (built : Built line)
    (counted : 0 < line.mainAutoMarginCount) (given : placeLineItemsMain ctx mainPos line = some (placed, after)) :
    (placed.map fun item => item.extraPre + item.extraPost).sum = ctx.availableMain - line.usedMainSize ↔
      MarginsDivide ctx line := by
  have extra : (placed.map fun item => item.extraPre + item.extraPost).sum =
      line.mainAutoMarginCount * marginExtra ctx line := by
    unfold placeLineItemsMain at given
    split at given
    · cases given
    · next others =>
      cases given
      rw [placeItems_extra others, ← built]
  rw [extra, marginExtra, MarginsDivide]
  split
  · next free =>
    obtain ⟨known, width, less, -⟩ := free
    rw [margins_divide (by omega) (by omega)]
    have : ctx.availableMain ≠ line.usedMainSize := by omega
    simp [known, width, less, this]
  · next none =>
    rw [Int.mul_zero]
    constructor
    · intro equal
      exact Or.inl (by omega)
    · rintro (equal | ⟨known, width, less, -⟩)
      · omega
      · exact absurd ⟨known, width, less, counted⟩ none

/-- When the lines take exactly the free cross space: there is at most one pixel over. -/
def LinesDivide (ctx : FlexCtx) (crossSize : Int) (count : Nat) : Prop :=
  ctx.availableCross = crossSize ∨
    ctx.availableCross ≠ auto ∧ crossSize < ctx.availableCross ∧ 0 < count ∧
      (ctx.availableCross - crossSize).tmod count ≤ 1

theorem sum_placeEach (reversed : Bool) (extra : Int) (lines : List FlexLine) :
    ∀ (linePos : Int) (remainder : Nat), remainder ≤ lines.length →
      2 * ((placeEach reversed extra linePos remainder lines).map PlacedLine.extra).sum =
        2 * lines.length * extra + remainder * (remainder + 1) := by
  induction lines with
  | nil =>
    intro linePos remainder le
    have zero : remainder = 0 := by simpa using le
    subst zero
    simp [placeEach]
  | cons line rest ih =>
    intro linePos remainder le
    cases remainder with
    | zero =>
      have next := fun linePos => ih linePos 0 (Nat.zero_le _)
      simp only [Nat.cast_zero] at next
      simp only [placeEach, Nat.cast_zero, lt_irrefl, if_false, map_cons, sum_cons, Int.mul_add, next, length_cons]
      push_cast
      ring
    | succ fewer =>
      have next := fun linePos => ih linePos fewer (by simpa using le)
      have positive : (0 : Int) < (fewer + 1 : Nat) := by omega
      have less : ((fewer + 1 : Nat) : Int) - 1 = fewer := by omega
      simp only [placeEach, positive, if_true, less, map_cons, sum_cons, Int.mul_add, next, length_cons]
      push_cast
      ring

theorem lines_iff (ctx : FlexCtx) (reversed : Bool) (crossSize : Int) (lines : List FlexLine) :
    ((placeLines ctx reversed crossSize lines).map PlacedLine.extra).sum = ctx.availableCross - crossSize ↔
      LinesDivide ctx crossSize lines.length := by
  simp only [placeLines, LinesDivide]
  split
  · next free =>
    obtain ⟨known, less, some⟩ := free
    have count : (0 : Int) < lines.length := by omega
    generalize isSpace : ctx.availableCross - crossSize = space
    have division := Int.mul_tdiv_add_tmod space lines.length
    have nonneg := Int.tmod_nonneg (lines.length : Int) (show 0 ≤ space by omega)
    have small := Int.tmod_lt_of_pos space count
    obtain ⟨remainder, isRemainder⟩ := Int.eq_ofNat_of_zero_le nonneg
    have sum := sum_placeEach reversed (space.tdiv lines.length) lines (if reversed then crossSize else 0) remainder
      (by omega)
    rw [isRemainder] at division ⊢
    have apart : ctx.availableCross ≠ crossSize := by omega
    simp only [apart, false_or, known, ne_eq, not_false_eq_true, less, some, true_and]
    constructor
    · intro exact
      rw [exact] at sum
      nlinarith
    · intro one
      have : remainder = 0 ∨ remainder = 1 := by omega
      rcases this with rfl | rfl
      · push_cast at sum division ⊢
        linarith
      · push_cast at sum division ⊢
        linarith
  · next none =>
    have sum := sum_placeEach reversed 0 lines (if reversed then crossSize else 0) 0 (Nat.zero_le _)
    simp only [Nat.cast_zero, Int.mul_zero, Int.zero_mul, Int.add_zero] at sum
    constructor
    · intro equal
      exact Or.inl (by omega)
    · rintro (equal | ⟨known, less, some, -⟩)
      · omega
      · exact absurd ⟨known, less, some⟩ none

/-- A box of 10 pixels whose margins along the line are as given. -/
def plainBox (marginStart marginEnd : Int) : FlexBox where
  main := 10
  cross := 10
  along := { marginStart, marginEnd, paddingStart := 0, paddingEnd := 0, borderStart := 0, borderEnd := 0 }
  across := { marginStart := 0, marginEnd := 0, paddingStart := 0, paddingEnd := 0, borderStart := 0, borderEnd := 0 }
  minWidth := 10
  maxWidth := 10
  absolute := false
  pos := 0

/-- An item with `flex-grow: 1`. -/
def plainItem (box : FlexBox) : FlexItem where
  box := box
  grow := 1024
  shrink := 1024
  minMain := 0
  maxMain := -1
  targetMainSize := 10
  baseSize := 10
  mainSize := 10
  freeze := false
  minViolation := false
  maxViolation := false

/-- A row of a number of pixels whose items keep their boxes. -/
def plainRow (available : Int) : FlexCtx where
  horizontal := true
  mainReversed := false
  availableMain := available
  availableCross := available
  layout := { run := some, keeps := by rintro box laid ⟨⟩; exact ⟨rfl, Iff.rfl, Iff.rfl⟩ }

def plainLine (count : Nat) (box : FlexBox) : FlexLine := lineOf (List.replicate count (plainItem box))

end Besra.FlexSpace
