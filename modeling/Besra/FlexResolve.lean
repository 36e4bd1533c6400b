import Besra.Flex

/-!
How `layout_flex.c` puts the items of a container on lines, and finds the sizes of the items of a line, pass by pass.
A pass gives the free space away and freezes the items that break a limit, all of one kind or all of them. Sums of sizes
and of factors wrap around; unless that makes a divisor 0 or hides on which side the limits are broken, each pass
freezes an item (`passOf_freezes`).
-/
namespace Besra.FlexResolve
open Flex List
open FixedPoint (Fits)

/-! ### The functions -/

def space (item : FlexItem) : Int := if item.freeze then item.targetMainSize else item.baseSize

/-- `layout_flex__remaining_free_main` -/
def remainingFreeMain (grow : Bool) (initial available : Int) (items : List FlexItem) : Int :=
  let remaining := wrapped (available - (items.map space).sum)
  let sum := unfrozenFactorSum grow items
  let freeSpace := fixToInt (fmul (intToFix initial) sum)
  if sum < 1024 ∧ freeSpace < remaining then freeSpace else remaining

def lower (item : FlexItem) : FlexItem :=
  if 0 < item.maxMain ∧ item.maxMain < item.targetMainSize then
    { item with targetMainSize := item.maxMain, maxViolation := true }
  else item

def raise (limit : Int) (item : FlexItem) : FlexItem :=
  if item.targetMainSize < limit then { item with targetMainSize := limit, minViolation := true } else item

/-- The limits that `layout_flex__get_min_max_violations` applies to an item, with the flags that it sets. -/
def clampItem (item : FlexItem) : FlexItem := raise 0 (raise item.box.minWidth (raise item.minMain (lower item)))

def violation (item : FlexItem) : Int :=
  if item.freeze then 0 else (clampItem item).targetMainSize - item.targetMainSize

/-- The `total_violation` of items. -/
def totalViolation (items : List FlexItem) : Int := wrapped (items.map violation).sum

/-- `layout_flex__get_min_max_violations`: the items after it. -/
def clampItems (items : List FlexItem) : List FlexItem :=
  items.map fun item => if item.freeze then item else clampItem item

def freezes (total : Int) (item : FlexItem) : Bool :=
  total = 0 ∨ (0 < total ∧ item.minViolation) ∨ (total < 0 ∧ item.maxViolation)

def freezeViolating (total : Int) (line : FlexLine) (item : FlexItem) : FlexLine × FlexItem :=
  if item.freeze then (line, item) else if freezes total item then itemFreeze line item else (line, item)

def eachOf (step : FlexLine → FlexItem → FlexLine × FlexItem) (line : FlexLine) : FlexLine :=
  let visited := each step line line.items
  { visited.1 with items := visited.2 }

/-- The first half of a pass of the loop of `layout_flex__resolve_line`. -/
def giveSpace (grow : Bool) (initial available : Int) (line : FlexLine) : Option FlexLine :=
  let remaining := remainingFreeMain grow initial available line.items
  if remaining = 0 then some line
  else distributeFreeMain line (unfrozenFactorSum grow line.items) remaining grow

/-- The second half. -/
def settleLimits (line : FlexLine) : FlexLine :=
  eachOf (freezeViolating (totalViolation line.items)) { line with items := clampItems line.items }

def pass (grow : Bool) (initial available : Int) (line : FlexLine) : Option FlexLine :=
  (giveSpace grow initial available line).map settleLimits

def inflexible (grow : Bool) (item : FlexItem) : Bool :=
  if grow then item.grow = 0 ∨ item.mainSize < item.baseSize else item.shrink = 0 ∨ item.baseSize < item.mainSize

def sizeInflexible (grow : Bool) (line : FlexLine) (item : FlexItem) : FlexLine × FlexItem :=
  if inflexible grow item then itemFreeze line { item with targetMainSize := item.mainSize } else (line, item)

def passes (grow : Bool) (initial available : Int) : Nat → FlexLine → Option FlexLine
  | 0, line => if line.frozen < line.items.length then none else some line
  | fuel + 1, line =>
    if line.frozen < line.items.length then (pass grow initial available line).bind (passes grow initial available fuel)
    else some line

def lineSpace (availableMain : Int) : Int := if availableMain = auto then unknownWidth else availableMain

def grows (availableMain : Int) (line : FlexLine) : Bool := line.mainSize < lineSpace availableMain

def sized (availableMain : Int) (line : FlexLine) : FlexLine := eachOf (sizeInflexible (grows availableMain line)) line

def initialFree (availableMain : Int) (line : FlexLine) : Int :=
  wrapped (lineSpace availableMain - ((sized availableMain line).items.map space).sum)

def giveSpaceOf (availableMain : Int) (line : FlexLine) : FlexLine → Option FlexLine :=
  giveSpace (grows availableMain line) (initialFree availableMain line) (lineSpace availableMain)

def passOf (availableMain : Int) (line : FlexLine) : FlexLine → Option FlexLine :=
  pass (grows availableMain line) (initialFree availableMain line) (lineSpace availableMain)

/-- `layout_flex__resolve_line`, in at most as many passes as there are items. -/
def resolveLine (availableMain : Int) (line : FlexLine) : Option FlexLine :=
  passes (grows availableMain line) (initialFree availableMain line) (lineSpace availableMain) line.items.length
    (sized availableMain line)

/-- The lines that `layout_flex__collect_items_into_lines` builds, at most so many. -/
def collectItemsIntoLines (horizontal nowrap : Bool) (availableMain : Int) : Nat → List FlexItem → Option (List FlexLine)
  | _, [] => some []
  | 0, _ => none
  | fuel + 1, items =>
    let built := buildLine horizontal nowrap availableMain items
    (collectItemsIntoLines horizontal nowrap availableMain fuel built.2).map (built.1 :: ·)

/-! ### Counting frozen items -/

def frozenCount (items : List FlexItem) : Nat := items.countP FlexItem.freeze

def Counts (step : FlexLine → FlexItem → FlexLine × FlexItem) (item : FlexItem) : Prop :=
  ∀ line, (step line item).1.frozen + item.freeze.toNat = line.frozen + (step line item).2.freeze.toNat

theorem frozenCount_cons (item : FlexItem) (items : List FlexItem) :
    frozenCount (item :: items) = item.freeze.toNat + frozenCount items := by
  rw [frozenCount, countP_cons, frozenCount]
  cases item.freeze <;> simp [Nat.add_comm]

variable {items : List FlexItem} {f : FlexItem → FlexItem} {n fuel : Nat} {line given start : FlexLine}
  {item : FlexItem} {grow : Bool} {availableMain : Int}

theorem each_counts {step : FlexLine → FlexItem → FlexLine × FlexItem} (counts : ∀ item ∈ items, Counts step item)
    (line : FlexLine) :
    (each step line items).1.frozen + frozenCount items = line.frozen + frozenCount (each step line items).2 := by
  induction items generalizing line with
  | nil => rfl
  | cons item items ih =>
    have first := counts item mem_cons_self line
    have rest := ih (fun other member => counts other (mem_cons_of_mem _ member)) (step line item).1
    rw [each, frozenCount_cons, frozenCount_cons]
    dsimp only
    omega

theorem each_map {σ : Type} {step : σ → FlexItem → σ × FlexItem} (same : ∀ state item, (step state item).2 = f item)
    (items : List FlexItem) (state : σ) : (each step state items).2 = items.map f := by
  induction items generalizing state with
  | nil => rfl
  | cons item items ih => rw [each, map_cons, same, ih]

theorem length_each {σ : Type} (step : σ → FlexItem → σ × FlexItem) (state : σ) (items : List FlexItem) :
    (each step state items).2.length = items.length := by
  induction items generalizing state with
  | nil => rfl
  | cons item items ih => rw [each, length_cons, length_cons, ih]

theorem each_flags {σ : Type} {step : σ → FlexItem → σ × FlexItem}
    (same : ∀ state item, (step state item).2.freeze = item.freeze) (items : List FlexItem) (state : σ) :
    (each step state items).2.map FlexItem.freeze = items.map FlexItem.freeze := by
  induction items generalizing state with
  | nil => rfl
  | cons item items ih => rw [each, map_cons, map_cons, same, ih]

theorem frozenCount_map (items : List FlexItem) : frozenCount items = (items.map FlexItem.freeze).countP id := by
  rw [frozenCount, countP_map]
  rfl

/-- The count of a line is right, and it has so many items. -/
def Counted (n : Nat) (line : FlexLine) : Prop := line.frozen = frozenCount line.items ∧ line.items.length = n

/-- A loop that keeps count keeps the number of items too. -/
theorem counted_eachOf {step : FlexLine → FlexItem → FlexLine × FlexItem} (counted : Counted n line)
    (counts : ∀ item ∈ line.items, Counts step item) : Counted n (eachOf step line) := by
  obtain ⟨count, size⟩ := counted
  have kept := each_counts counts line
  refine ⟨?_, (length_each step line line.items).trans size⟩
  show (each step line line.items).1.frozen = frozenCount (each step line line.items).2
  omega

theorem counts_settleItem (item : FlexItem) : Counts settleItem item := by
  intro line
  rw [settleItem]
  cases frozen : item.freeze <;> simp [itemFreeze, frozen]

theorem counts_freezeViolating (total : Int) (item : FlexItem) : Counts (freezeViolating total) item := by
  intro line
  rw [freezeViolating]
  cases frozen : item.freeze
  · cases freezes total item <;> simp [itemFreeze, frozen]
  · simp [frozen]

theorem counts_sizeInflexible (grow : Bool) (free : item.freeze = false) : Counts (sizeInflexible grow) item := by
  intro line
  rw [sizeInflexible]
  split <;> simp [itemFreeze, free]

/-- Only a line with all items frozen has as many frozen items as items. -/
theorem exists_unfrozen {items : List FlexItem} (fewer : frozenCount items < items.length) :
    ∃ item ∈ items, item.freeze = false := by
  by_contra all
  push Not at all
  refine absurd (countP_eq_length.mpr fun item member => ?_) (Nat.ne_of_lt fewer)
  simpa using all item member

/-! ### What a pass does -/

theorem lower_spec (item : FlexItem) : (lower item).freeze = item.freeze ∧
    (lower item).targetMainSize ≤ item.targetMainSize ∧
    ((lower item).targetMainSize < item.targetMainSize → (lower item).maxViolation = true) := by
  rw [lower]
  split
  next over_ => exact ⟨rfl, over_.2.le, fun _ => rfl⟩
  next => exact ⟨rfl, Int.le_refl _, fun less => absurd less (Int.lt_irrefl _)⟩

theorem raise_spec (limit : Int) (item : FlexItem) : (raise limit item).freeze = item.freeze ∧
    (raise limit item).maxViolation = item.maxViolation ∧ item.targetMainSize ≤ (raise limit item).targetMainSize ∧
    (item.minViolation = true ∨ item.targetMainSize < (raise limit item).targetMainSize →
      (raise limit item).minViolation = true) := by
  rw [raise]
  split
  next under => exact ⟨rfl, rfl, under.le, fun _ => rfl⟩
  next => exact ⟨rfl, rfl, Int.le_refl _, fun flag => flag.resolve_right (Int.lt_irrefl _)⟩

theorem clampItem_freeze (item : FlexItem) : (clampItem item).freeze = item.freeze := by
  rw [clampItem, (raise_spec _ _).1, (raise_spec _ _).1, (raise_spec _ _).1, (lower_spec _).1]

/-- A size that grows breaks a lower limit, and one that shrinks the upper one. -/
theorem clampItem_flags (item : FlexItem) :
    (item.targetMainSize < (clampItem item).targetMainSize → (clampItem item).minViolation = true) ∧
      ((clampItem item).targetMainSize < item.targetMainSize → (clampItem item).maxViolation = true) := by
  obtain ⟨-, least, upper⟩ := lower_spec item
  obtain ⟨-, max₁, more₁, flag₁⟩ := raise_spec item.minMain (lower item)
  obtain ⟨-, max₂, more₂, flag₂⟩ := raise_spec item.box.minWidth (raise item.minMain (lower item))
  obtain ⟨-, max₃, more₃, flag₃⟩ := raise_spec 0 (raise item.box.minWidth (raise item.minMain (lower item)))
  rw [← clampItem] at max₃ more₃ flag₃
  constructor
  · intro moved
    -- one of the three limits has moved it, and the flag stays
    by_cases first : (lower item).targetMainSize < (raise item.minMain (lower item)).targetMainSize
    · exact flag₃ (.inl (flag₂ (.inl (flag₁ (.inr first)))))
    · by_cases second : (raise item.minMain (lower item)).targetMainSize <
          (raise item.box.minWidth (raise item.minMain (lower item))).targetMainSize
      · exact flag₃ (.inl (flag₂ (.inr second)))
      · exact flag₃ (.inr (by omega))
  · intro moved
    rw [max₃, max₂, max₁]
    exact upper (by omega)

def settled (total : Int) (item : FlexItem) : FlexItem :=
  if item.freeze then item else { clampItem item with freeze := freezes total (clampItem item) }

theorem settled_freeze {total : Int} (frozen : item.freeze = true) : settled total item = item :=
  if_pos frozen

/-- Limits moved the sizes by more than 32 bits hold, and no item that is left breaks one on the side that the sum is
on in 32 bits. -/
def Stuck (items : List FlexItem) : Prop :=
  ¬ Fits (items.map violation).sum ∧ totalViolation items ≠ 0 ∧
    ∀ item ∈ unfrozen items, freezes (totalViolation items) (clampItem item) = false

theorem violation_moves (moves : violation item ≠ 0) : item.freeze = false := by
  by_contra frozen
  exact moves (if_pos (by simpa using frozen))

/-- Within 32 bits an item breaks the limits the way that all together do. -/
theorem exists_freezes (fits : Fits (items.map violation).sum) (apart : totalViolation items ≠ 0) :
    ∃ item ∈ unfrozen items, freezes (totalViolation items) (clampItem item) = true := by
  have same : totalViolation items = (items.map violation).sum := Int.bmod_eq_of_le (by have := fits.1; omega)
    (by have := fits.2; omega)
  rw [same] at apart ⊢
  have among {item : FlexItem} (member : item ∈ items) (free : item.freeze = false) : item ∈ unfrozen items :=
    mem_filter.mpr ⟨member, by simp [free]⟩
  have zero : (items.map fun _ => (0 : Int)).sum = 0 := by simp
  rcases Int.lt_or_gt_of_ne apart with less | more
  · obtain ⟨item, member, moved⟩ := exists_lt_of_sum_lt violation (fun _ => (0 : Int)) (less.trans_eq zero.symm)
    have free := violation_moves moved.ne
    rw [violation, if_neg (by simp [free])] at moved
    have flag := (clampItem_flags item).2 (by omega)
    exact ⟨item, among member free, by simp [freezes, flag, less]⟩
  · obtain ⟨item, member, moved⟩ := exists_lt_of_sum_lt (fun _ => (0 : Int)) violation (zero.trans_lt more)
    have free := violation_moves moved.ne'
    rw [violation, if_neg (by simp [free])] at moved
    have flag := (clampItem_flags item).1 (by omega)
    exact ⟨item, among member free, by simp [freezes, flag, more]⟩

/-- An item that is not frozen is frozen by the limits, if they are not stuck. -/
theorem exists_settled (some : ∃ item ∈ items, item.freeze = false) (free : ¬ Stuck items) :
    ∃ item ∈ items, item.freeze = false ∧ (settled (totalViolation items) item).freeze = true := by
  by_cases zero : totalViolation items = 0
  · obtain ⟨item, member, unfrozen⟩ := some
    exact ⟨item, member, unfrozen, by simp [settled, unfrozen, freezes, zero]⟩
  · have flagged : ∃ item ∈ unfrozen items, freezes (totalViolation items) (clampItem item) = true := by
      by_cases fits : Fits (items.map violation).sum
      · exact exists_freezes fits zero
      · by_contra none_
        push Not at none_
        exact free ⟨fits, zero, fun item among => by simpa using none_ item among⟩
    obtain ⟨item, among, flag⟩ := flagged
    obtain ⟨member, unfrozen⟩ := mem_filter.mp among
    have unfrozen : item.freeze = false := by simpa using unfrozen
    refine ⟨item, member, unfrozen, ?_⟩
    rw [settled, if_neg (by simp [unfrozen])]
    exact flag

/-- Where the limits are stuck nothing is frozen. -/
theorem settled_stuck (stuck : Stuck items) :
    ∀ item ∈ items, (settled (totalViolation items) item).freeze = item.freeze := by
  intro item member
  rw [settled]
  cases frozen : item.freeze
  · rw [if_neg (by simp)]
    exact stuck.2.2 item (mem_filter.mpr ⟨member, by simp [frozen]⟩)
  · simp [frozen]

/-- Items stay frozen when they are. -/
theorem frozenCount_le (keeps : ∀ item, item.freeze = true → f item = item) (items : List FlexItem) :
    frozenCount items ≤ frozenCount (items.map f) := by
  rw [frozenCount, frozenCount, countP_map]
  exact countP_mono_left fun item _ frozen => by rw [Function.comp_apply, keeps item frozen, frozen]

theorem frozenCount_lt (keeps : ∀ item, item.freeze = true → f item = item)
    (some : ∃ item ∈ items, item.freeze = false ∧ (f item).freeze = true) :
    frozenCount items < frozenCount (items.map f) := by
  obtain ⟨item, member, unfrozen, frozen⟩ := some
  obtain ⟨l, r, rfl⟩ := append_of_mem member
  have left := frozenCount_le keeps l
  have right := frozenCount_le keeps r
  rw [map_append, map_cons, frozenCount, frozenCount, countP_append, countP_append,
    ← frozenCount, ← frozenCount, ← frozenCount, ← frozenCount, frozenCount_cons, frozenCount_cons, unfrozen, frozen]
  simp only [Bool.toNat_false, Bool.toNat_true]
  omega

theorem settle_items (line : FlexLine) :
    (settleLimits line).items = line.items.map (settled (totalViolation line.items)) := by
  generalize total_ : totalViolation line.items = total
  have step : ∀ line item, (freezeViolating total line item).2 =
      if item.freeze then item else { item with freeze := freezes total item } := by
    intro line item
    rw [freezeViolating]
    cases frozen : item.freeze
    · cases cause : freezes total item
      · rw [if_neg (by simp), if_neg (by simp), if_neg (by simp), ← frozen]
      · rfl
    · rfl
  rw [settleLimits, total_]
  show (each (freezeViolating total) _ (clampItems line.items)).2 = _
  rw [each_map step, clampItems, map_map]
  refine map_congr_left fun item _ => ?_
  rw [Function.comp_apply, settled]
  cases frozen : item.freeze
  · simp [clampItem_freeze, frozen]
  · simp [frozen]

theorem Counted.settle (counted : Counted n line) : Counted n (settleLimits line) := by
  refine counted_eachOf ⟨?_, ?_⟩ fun item _ => counts_freezeViolating _ item
  · show line.frozen = frozenCount (clampItems line.items)
    rw [counted.1, frozenCount_map, frozenCount_map, clampItems, map_map]
    congr 1
    refine map_congr_left fun item _ => ?_
    rw [Function.comp_apply]
    split
    · rfl
    · exact (clampItem_freeze item).symm
  · show (clampItems line.items).length = n
    rw [clampItems, length_map, counted.2]

theorem allot_freeze (share : FlexItem → Int) (sign remainder : Int) (item : FlexItem) :
    (allot share sign remainder item).2.freeze = item.freeze := by
  rw [allot]
  split <;> rfl

/-- Space given away freezes nothing. -/
theorem Counted.allotted (counted : Counted n line) (share : FlexItem → Int) (sign : Int) :
    Counted n { line with items := (each (allot share sign) 0 line.items).2 } := by
  refine ⟨?_, (length_each _ _ _).trans counted.2⟩
  show line.frozen = frozenCount (each (allot share sign) 0 line.items).2
  rw [frozenCount_map, each_flags (allot_freeze share sign), ← frozenCount_map, counted.1]

/-- Where nothing can shrink, all items are frozen. -/
theorem settled_all (line : FlexLine) : frozenCount (eachOf settleItem line).items = line.items.length := by
  have step : ∀ line item, (settleItem line item).2 =
      if item.freeze then item else { item with targetMainSize := item.mainSize, freeze := true } := by
    intro line item
    rw [settleItem]
    split <;> rfl
  show frozenCount (each settleItem line line.items).2 = _
  rw [each_map step, frozenCount, countP_map, countP_eq_length.mpr]
  intro item _
  rw [Function.comp_apply]
  split
  next frozen => exact frozen
  next => rfl

theorem distribute_counted {sum remaining : Int} (counted : Counted n line)
    (distributed : distributeFreeMain line sum remaining grow = some given) :
    Counted n given ∧ (given.frozen = line.frozen ∨ frozenCount given.items = n) := by
  rw [distributeFreeMain] at distributed
  split at distributed
  next growing =>
    split at distributed
    · cases distributed
    · obtain rfl := Option.some.inj distributed
      exact ⟨counted.allotted _ 1, .inl rfl⟩
  next =>
    dsimp only at distributed
    split at distributed
    · obtain rfl := Option.some.inj distributed
      exact ⟨counted_eachOf counted fun item _ => counts_settleItem item, .inr ((settled_all line).trans counted.2)⟩
    · obtain rfl := Option.some.inj distributed
      exact ⟨counted.allotted _ (-1), .inl rfl⟩

theorem giveSpace_counted {initial available : Int} (counted : Counted n line)
    (gave : giveSpace grow initial available line = some given) :
    Counted n given ∧ (given.frozen = line.frozen ∨ frozenCount given.items = n) := by
  rw [giveSpace] at gave
  split at gave
  · obtain rfl := Option.some.inj gave
    exact ⟨counted, .inl rfl⟩
  · exact distribute_counted counted gave

theorem not_stuck_of_all (all : frozenCount items = items.length) : ¬ Stuck items := by
  rintro ⟨-, apart, -⟩
  refine apart ?_
  have none_ : items.map violation = items.map fun _ => 0 := map_congr_left fun item member =>
    if_pos (countP_eq_length.mp all item member)
  rw [totalViolation, none_]
  simp [wrapped]

/-- The second half of a pass freezes an item, unless the limits are stuck: then it freezes none. -/
theorem settle_freezes (counted : Counted n given) (gave : given.frozen = line.frozen ∨ frozenCount given.items = n)
    (more : line.frozen < n) : line.frozen < (settleLimits given).frozen ↔ ¬ Stuck given.items := by
  have count := counted.settle.1
  rw [settle_items] at count
  constructor
  · intro progress stuck
    have same : given.frozen = line.frozen := gave.resolve_right fun all =>
      not_stuck_of_all (all.trans counted.2.symm) stuck
    have kept : frozenCount (given.items.map (settled (totalViolation given.items))) = frozenCount given.items := by
      rw [frozenCount_map, frozenCount_map, map_map]
      exact congrArg _ (map_congr_left fun item member => settled_stuck stuck item member)
    rw [count, kept, ← counted.1, same] at progress
    exact Nat.lt_irrefl _ progress
  · intro free
    rw [count]
    rcases gave with same | all
    · have unfrozen := @exists_unfrozen given.items (by rw [← counted.1, counted.2, same]; exact more)
      rw [← same, counted.1]
      exact frozenCount_lt (fun item frozen => settled_freeze frozen) (exists_settled unfrozen free)
    · exact Nat.lt_of_lt_of_le more (all ▸ frozenCount_le (fun item frozen => settled_freeze frozen) given.items)

/-- A growing line whose factors wrap around to 0 while there is space to take back. -/
def Overdrawn (availableMain : Int) (start line : FlexLine) : Prop :=
  grows availableMain start = true ∧ (2 ^ 32 : Int) ∣ ((unfrozen line.items).map (factor true)).sum ∧
    wrapped (lineSpace availableMain - (line.items.map space).sum) < 0

/-- A line whose limits are stuck once the free space is given away. -/
def Stalled (availableMain : Int) (start line : FlexLine) : Prop :=
  ∃ given, giveSpaceOf availableMain start line = some given ∧ Stuck given.items

theorem fmul_zero (x : Int) : fmul x 0 = 0 := by
  rw [fmul, Int.mul_zero]
  decide

/-- A pass divides by 0 in an overdrawn line only. -/
theorem giveSpaceOf_eq_none (some_ : ∃ item ∈ line.items, item.freeze = false) :
    giveSpaceOf availableMain start line = none ↔ Overdrawn availableMain start line := by
  have unfrozen_ : unfrozen line.items ≠ [] := by
    obtain ⟨item, member, free⟩ := some_
    exact ne_nil_of_mem (mem_filter.mpr ⟨member, by simp [free]⟩)
  have divides : (2 ^ 32 : Int) ∣ ((unfrozen line.items).map (factor true)).sum ↔
      ((unfrozen line.items).map (factor true)).sum.bmod (2 ^ 32) = 0 := @Int.dvd_iff_bmod_eq_zero (2 ^ 32) _
  rw [giveSpaceOf, giveSpace, Overdrawn, divides]
  cases growing : grows availableMain start
  · simp only [distributeFreeMain, Bool.false_eq_true, if_false, false_and, iff_false]
    split_ifs <;> simp
  · have distributed : ∀ sum remaining, distributeFreeMain line sum remaining true = none ↔ sum = 0 := by
      intro sum remaining
      rw [distributeFreeMain, if_pos rfl]
      split_ifs with zero
      · exact iff_of_true rfl zero.1
      · exact iff_of_false (by simp) fun same => zero ⟨same, unfrozen_⟩
    by_cases sum : unfrozenFactorSum true line.items = 0
    · have remaining : remainingFreeMain true (initialFree availableMain start) (lineSpace availableMain) line.items = 0 ↔
          ¬ wrapped (lineSpace availableMain - (line.items.map space).sum) < 0 := by
        rw [remainingFreeMain, sum, fmul_zero, show fixToInt 0 = 0 from rfl]
        split_ifs <;> omega
      rw [unfrozenFactorSum, wrapped] at sum
      split_ifs with none_
      · exact iff_of_false (by simp) fun overdrawn => remaining.mp none_ overdrawn.2.2
      · rw [distributed]
        exact ⟨fun zero => ⟨rfl, sum, by rwa [remaining, not_not] at none_⟩, fun overdrawn => overdrawn.2.1⟩
    · have away : ¬ (((unfrozen line.items).map (factor true)).sum.bmod (2 ^ 32) = 0) := sum
      split_ifs
      · exact iff_of_false (by simp) fun overdrawn => away overdrawn.2.1
      · rw [distributed]
        exact iff_of_false sum fun overdrawn => away overdrawn.2.1

/-- A pass keeps count of the items that are frozen, and freezes one unless the line is overdrawn or stalled. -/
theorem passOf_freezes (counted : Counted n line) (more : line.frozen < n) :
    (∃ next, passOf availableMain start line = some next ∧ line.frozen < next.frozen) ↔
      ¬ Overdrawn availableMain start line ∧ ¬ Stalled availableMain start line := by
  have free := @exists_unfrozen line.items (by rw [← counted.1, counted.2]; exact more)
  rw [passOf, pass, ← giveSpaceOf_eq_none free, Stalled]
  change (∃ next, (giveSpaceOf availableMain start line).map settleLimits = some next ∧ _) ↔ _
  rcases gave : giveSpaceOf availableMain start line with _ | given
  · simp
  · obtain ⟨counted', kept⟩ := giveSpace_counted counted gave
    have progress := settle_freezes counted' kept more
    simp [progress]

theorem passOf_counted {next : FlexLine} (counted : Counted n line)
    (passed : passOf availableMain start line = some next) : Counted n next := by
  obtain ⟨given, gave, rfl⟩ := Option.map_eq_some_iff.mp passed
  exact (giveSpace_counted counted gave).1.settle

/-! ### All passes -/

/-- A line between the passes. -/
inductive Reached (availableMain : Int) (start : FlexLine) : FlexLine → Prop
  | sized : Reached availableMain start (sized availableMain start)
  | pass {before after : FlexLine} (reached : Reached availableMain start before)
      (more : before.frozen < before.items.length) (passed : passOf availableMain start before = some after) :
      Reached availableMain start after

/-- Each pass has a result and freezes an item, the frozen ones are counted, and all are frozen after at most as many
passes as there are items. -/
def Resolves (availableMain : Int) (start : FlexLine) : Prop :=
  (∀ line, Reached availableMain start line → line.frozen = frozenCount line.items ∧
    (line.frozen < line.items.length → ∃ next, passOf availableMain start line = some next ∧
      frozenCount line.items < frozenCount next.items)) ∧
  ∃ done, resolveLine availableMain start = some done ∧ done.frozen = start.items.length

def Unsized (line : FlexLine) : Prop := line.frozen = 0 ∧ ∀ item ∈ line.items, item.freeze = false

theorem Unsized.counted (unsized : Unsized line) : Counted line.items.length line := by
  refine ⟨?_, rfl⟩
  rw [unsized.1, frozenCount, eq_comm, countP_eq_zero]
  intro item member
  simp [unsized.2 item member]

theorem Reached.counted (unsized : Unsized start) (reached : Reached availableMain start line) :
    Counted start.items.length line := by
  induction reached with
  | sized => exact counted_eachOf unsized.counted fun item member => counts_sizeInflexible _ (unsized.2 item member)
  | pass _ _ passed ih => exact passOf_counted ih passed

/-- Neither a division by zero nor limits that are stuck lie ahead of a line. -/
def Clear (availableMain : Int) (start line : FlexLine) : Prop :=
  ¬ Overdrawn availableMain start line ∧ ¬ Stalled availableMain start line

/-- Passes through lines that are clear come to an end. -/
theorem passes_end (unsized : Unsized start)
    (clear : ∀ line, Reached availableMain start line → line.frozen < line.items.length → Clear availableMain start line)
    (reached : Reached availableMain start line) (enough : start.items.length ≤ line.frozen + fuel) :
    ∃ done, passes (grows availableMain start) (initialFree availableMain start) (lineSpace availableMain) fuel line =
      some done ∧ done.frozen = start.items.length := by
  have counted := reached.counted unsized
  have most : line.frozen ≤ line.items.length := counted.1 ▸ countP_le_length
  induction fuel generalizing line with
  | zero => exact ⟨line, if_neg (by rw [counted.2]; omega), by rw [counted.2] at most; omega⟩
  | succ fuel ih =>
    rw [passes]
    split
    next more =>
      obtain ⟨next, passed, progress⟩ := (passOf_freezes counted (counted.2 ▸ more)).mpr (clear line reached more)
      have counted' := passOf_counted counted passed
      have reached' := reached.pass more passed
      rw [show pass _ _ _ line = some next from passed, Option.bind_some]
      exact ih reached' (by omega) counted' (counted'.1 ▸ countP_le_length)
    next all => exact ⟨line, rfl, by rw [counted.2] at all most; omega⟩

theorem resolves_iff (unsized : Unsized start) :
    Resolves availableMain start ↔ ∀ line, Reached availableMain start line → line.frozen < line.items.length →
      Clear availableMain start line := by
  have freezes {line : FlexLine} (reached : Reached availableMain start line) (more : line.frozen < line.items.length) :
      (∃ next, passOf availableMain start line = some next ∧ frozenCount line.items < frozenCount next.items) ↔
        Clear availableMain start line := by
    have counted := reached.counted unsized
    rw [Clear, ← passOf_freezes counted (counted.2 ▸ more)]
    refine exists_congr fun next => and_congr_right fun passed => ?_
    rw [← counted.1, ← (passOf_counted counted passed).1]
  constructor
  · rintro ⟨each_, -⟩ line reached more
    exact (freezes reached more).mp ((each_ line reached).2 more)
  · intro clear
    exact ⟨fun line reached => ⟨(reached.counted unsized).1, fun more => (freezes reached more).mpr (clear line reached more)⟩,
      passes_end unsized clear .sized (Nat.le_add_left _ _)⟩

/-! ### Lower limits -/

def Meets (item : FlexItem) : Prop :=
  0 ≤ item.targetMainSize ∧ item.minMain ≤ item.targetMainSize ∧ item.box.minWidth ≤ item.targetMainSize

/-- An item is frozen with the size it was laid out for, or with one within its lower limits. -/
def Fit (item : FlexItem) : Prop := item.freeze = true → item.targetMainSize = item.mainSize ∨ Meets item

theorem clampItem_meets (item : FlexItem) : Meets (clampItem item) := by
  unfold Meets clampItem raise lower
  split_ifs <;> first | omega | (dsimp only at *; omega)

theorem each_fit {σ : Type} {step : σ → FlexItem → σ × FlexItem} {state : σ}
    (keeps : ∀ state item, Fit item → Fit (step state item).2) (fit : ∀ item ∈ items, Fit item) :
    ∀ item ∈ (each step state items).2, Fit item := by
  induction items generalizing state with
  | nil => exact fun _ member => absurd member not_mem_nil
  | cons item rest ih =>
    obtain ⟨first, others⟩ := forall_mem_cons.mp fit
    rw [each]
    exact forall_mem_cons.mpr ⟨keeps state item first, ih others⟩

theorem Reached.fit (unsized : Unsized start) (reached : Reached availableMain start line) :
    ∀ item ∈ line.items, Fit item := by
  have given (share : FlexItem → Int) (sign remainder : Int) (item : FlexItem) (fit : Fit item) :
      Fit (allot share sign remainder item).2 := by
    rw [allot]
    split
    next => exact fit
    next free => exact fun frozen => absurd frozen free
  have settles (line : FlexLine) (item : FlexItem) (fit : Fit item) : Fit (settleItem line item).2 := by
    rw [settleItem]
    split
    next => exact fit
    next => exact fun _ => .inl rfl
  induction reached with
  | sized =>
    refine each_fit (fun line item fit => ?_) fun item member frozen => ?_
    · rw [sizeInflexible]
      split
      next => exact fun _ => .inl rfl
      next => exact fit
    · rw [unsized.2 item member] at frozen
      cases frozen
  | @pass before after _ _ passed ih =>
    obtain ⟨line, gave, rfl⟩ := Option.map_eq_some_iff.mp passed
    have fit : ∀ item ∈ line.items, Fit item := by
      rw [giveSpace, distributeFreeMain] at gave
      dsimp only at gave
      split_ifs at gave <;> cases gave
      all_goals first | exact ih | exact each_fit (given _ _) ih | exact each_fit settles ih
    rw [settle_items]
    refine forall_mem_map.mpr fun item member => ?_
    rw [settled]
    split
    next => exact fit item member
    next => exact fun _ => .inr (clampItem_meets item)

/-- In a line that is resolved every item has the size it was laid out for, or one within its lower limits. -/
theorem sizes_meet_limits {done : FlexLine} (unsized : Unsized start)
    (resolved : resolveLine availableMain start = some done) :
    ∀ item ∈ done.items, item.targetMainSize = item.mainSize ∨ Meets item := by
  have ended : ∀ {fuel line}, Reached availableMain start line → passes (grows availableMain start)
      (initialFree availableMain start) (lineSpace availableMain) fuel line = some done →
        Reached availableMain start done ∧ done.items.length ≤ done.frozen := by
    intro fuel
    induction fuel with
    | zero =>
      intro line reached ran
      rw [passes] at ran
      split at ran <;> cases ran
      exact ⟨reached, by omega⟩
    | succ fuel ih =>
      intro line reached ran
      rw [passes] at ran
      split at ran
      next more =>
        obtain ⟨next, passed, ran⟩ := Option.bind_eq_some_iff.mp ran
        exact ih (reached.pass more passed) ran
      next =>
        cases ran
        exact ⟨reached, by omega⟩
  obtain ⟨reached, all⟩ := ended .sized resolved
  rw [(reached.counted unsized).1] at all
  have frozen := countP_eq_length.mp (Nat.le_antisymm countP_le_length all)
  exact fun item member => reached.fit unsized item member (frozen item member)

/-! ### Lines -/

theorem takeItems_append (nowrap : Bool) (availableMain : Int) (size : FlexItem → Int) (usedMain : Int)
    (taken items : List FlexItem) :
    (takeItems nowrap availableMain size usedMain taken items).1 ++
      (takeItems nowrap availableMain size usedMain taken items).2 = taken ++ items := by
  induction items generalizing usedMain taken with
  | nil => rfl
  | cons item items ih =>
    rw [takeItems]
    split
    · rw [ih, append_assoc, singleton_append]
    · rfl

theorem takeItems_some (nowrap : Bool) (availableMain : Int) (size : FlexItem → Int) (usedMain : Int)
    (taken items : List FlexItem) (some_ : taken ≠ [] ∨ items ≠ []) :
    (takeItems nowrap availableMain size usedMain taken items).1 ≠ [] := by
  induction items generalizing usedMain taken with
  | nil => exact some_.resolve_right (by simp)
  | cons item items ih =>
    rw [takeItems]
    split
    · exact ih _ _ (.inl (by simp))
    next not => exact fun none_ => not (.inr (.inr (.inr (.inr (.inl none_)))))

theorem buildLine_eq (horizontal nowrap : Bool) (availableMain : Int) (some_ : items ≠ []) :
    ∃ taken rest, buildLine horizontal nowrap availableMain items = (lineOf taken, rest) ∧ taken ++ rest = items ∧
      taken ≠ [] :=
  ⟨_, _, rfl, takeItems_append .., takeItems_some _ _ _ _ _ _ (.inr some_)⟩

/-- Every item is on one line, in order. -/
theorem collect_lines (horizontal nowrap : Bool) (availableMain : Int) (enough : items.length ≤ fuel)
    (fresh : ∀ item ∈ items, item.freeze = false) :
    ∃ lines, collectItemsIntoLines horizontal nowrap availableMain fuel items = some lines ∧
      lines.flatMap FlexLine.items = items ∧ ∀ line ∈ lines, line.items ≠ [] ∧ Unsized line := by
  induction fuel generalizing items with
  | zero =>
    obtain rfl := length_eq_zero_iff.mp (Nat.le_zero.mp enough)
    exact ⟨[], rfl, rfl, by simp⟩
  | succ fuel ih =>
    rcases items with _ | ⟨item, items⟩
    · exact ⟨[], rfl, rfl, by simp⟩
    · obtain ⟨taken, rest, built, whole, some_⟩ :=
        buildLine_eq horizontal nowrap availableMain (cons_ne_nil item items)
      have shorter := congrArg List.length whole
      have first := length_pos_iff.mpr some_
      rw [length_append] at shorter
      rw [← whole] at fresh
      obtain ⟨lines, collected, all, each_⟩ := @ih rest (by omega) fun other member =>
        fresh other (mem_append_right _ member)
      refine ⟨lineOf taken :: lines, ?_, ?_, ?_⟩
      · rw [collectItemsIntoLines, built, collected, Option.map_some]
        simp
      · rw [flatMap_cons, all]
        exact whole
      · intro line member
        rcases mem_cons.mp member with rfl | later
        · exact ⟨some_, rfl, fun other among => fresh other (mem_append_left _ among)⟩
        · exact each_ line later

/-- Every item is put on one line, in order, and every line is resolved. -/
def ResolvesAll (horizontal nowrap : Bool) (availableMain : Int) (items : List FlexItem) : Prop :=
  ∃ lines, collectItemsIntoLines horizontal nowrap availableMain items.length items = some lines ∧
    lines.flatMap FlexLine.items = items ∧ ∀ line ∈ lines, line.items ≠ [] ∧ Resolves availableMain line

/-- The items of a container get their lines and sizes in so many passes unless, in a pass of a line that grows, the
factors of the items that are not frozen add up to a multiple of `2 ^ 32` while the items take more than there is, or
the limits of a line move its sizes by more than 32 bits hold. -/
theorem resolution_ends_iff (horizontal nowrap : Bool) (availableMain : Int)
    (fresh : ∀ item ∈ items, item.freeze = false) :
    ResolvesAll horizontal nowrap availableMain items ↔
      ∀ lines, collectItemsIntoLines horizontal nowrap availableMain items.length items = some lines →
        ∀ start ∈ lines, ∀ line, Reached availableMain start line → line.frozen < line.items.length →
          Clear availableMain start line := by
  obtain ⟨lines, collected, all, each_⟩ := collect_lines horizontal nowrap availableMain (Nat.le_refl _) fresh
  constructor
  · rintro ⟨lines', collected', -, resolves⟩ lines'' collected'' start member
    obtain rfl := Option.some.inj (collected'.symm.trans collected'')
    obtain rfl := Option.some.inj (collected.symm.trans collected')
    exact (resolves_iff (each_ start member).2).mp (resolves start member).2
  · intro sound
    refine ⟨lines, collected, all, fun start member => ⟨(each_ start member).1, ?_⟩⟩
    exact (resolves_iff (each_ start member).2).mpr (sound lines collected start member)

/-- An item of no size of its own, with a factor in 1024ths to grow by and a least width of its content. -/
def growingItem (grow : Nat) (minWidth : Int) : FlexItem where
  box := ⟨0, 0, ⟨0, 0, 0, 0, 0, 0⟩, ⟨0, 0, 0, 0, 0, 0⟩, minWidth, -1, false, 0⟩
  grow := grow
  shrink := 1024
  minMain := 0
  maxMain := -1
  targetMainSize := 0
  baseSize := 0
  mainSize := 0
  freeze := false
  minViolation := false
  maxViolation := false

/-- Items whose factors add up to 4194304 and 1048576, the last of them with a content of 300 pixels. -/
def wrappingItems : List FlexItem :=
  [growingItem (2 ^ 31 - 1) 0, growingItem (2 ^ 31 - 1) 0, growingItem 2 0, growingItem (2 ^ 30) 300]

/-- Three items that take 100 pixels in two passes: the first one freezes the last item at 80. -/
def limitedItems : List FlexItem := [growingItem 1024 0, growingItem 3072 0, growingItem 1024 80]

theorem sizes_meet_limits_of_three :
    ((resolveLine 100 (lineOf limitedItems)).map fun done => done.items.map FlexItem.targetMainSize) = some [5, 15, 80] ∧
    ∀ item ∈ ((resolveLine 100 (lineOf limitedItems)).getD (lineOf [])).items,
      item.targetMainSize = item.mainSize ∨ Meets item := by
  have sizes : ((resolveLine 100 (lineOf limitedItems)).map fun done => done.items.map FlexItem.targetMainSize) =
      some [5, 15, 80] := by decide +kernel
  obtain ⟨done, settled, -⟩ := Option.map_eq_some_iff.mp sizes
  refine ⟨sizes, ?_⟩
  rw [settled, Option.getD_some]
  exact sizes_meet_limits ⟨rfl, by decide⟩ settled

theorem resolution_ends_iff_wrapping : (∀ item ∈ wrappingItems, item.freeze = false) ∧
    (ResolvesAll true true 100 wrappingItems ↔
      ∀ lines, collectItemsIntoLines true true 100 wrappingItems.length wrappingItems = some lines →
        ∀ start ∈ lines, ∀ line, Reached 100 start line → line.frozen < line.items.length → Clear 100 start line) :=
  ⟨by decide, resolution_ends_iff true true 100 (by decide)⟩

/-- In a row of 100 pixels the first pass freezes the last item at 300, and the second one divides by 0. -/
theorem wrapping_divides_by_zero : resolveLine 100 (lineOf wrappingItems) = none ∧
    ¬ ResolvesAll true true 100 wrappingItems := by
  have none_ : resolveLine 100 (lineOf wrappingItems) = none := by decide +kernel
  refine ⟨none_, ?_⟩
  rintro ⟨lines, collected, -, resolves⟩
  obtain rfl : lines = [lineOf wrappingItems] := by
    rw [show collectItemsIntoLines true true 100 wrappingItems.length wrappingItems = some [lineOf wrappingItems] from rfl]
      at collected
    exact (Option.some.inj collected).symm
  obtain ⟨-, done, resolved, -⟩ := (resolves _ (mem_singleton_self _)).2
  rw [none_] at resolved
  cases resolved

end Besra.FlexResolve
