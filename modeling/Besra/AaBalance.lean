import Besra.AaTree

/-!
The level rules of AA trees, and what an insertion does where two data can be equal in
the order without being the same. `balanced_insert`: the two rotations after an insertion
keep the rules. A level rises by one at most, and only where the right child was on it.
-/
namespace Besra.AaTree

variable {κ : Type}

def right : AaTree κ → AaTree κ
  | .empty => .empty
  | .node _ _ _ r => r

/-- The left child is one level below, the right child is on the level or one below, and the right grandchild is
    below. -/
def Balanced : AaTree κ → Prop
  | .empty => True
  | .node lv l _ r =>
    l.level + 1 = lv ∧ (r.level = lv ∨ r.level + 1 = lv) ∧ r.right.level < lv ∧ Balanced l ∧ Balanced r

variable {d : κ} {l r t : AaTree κ} {lv : Nat}

theorem Balanced.pos (balanced : Balanced (.node lv l d r)) : 0 < lv := by
  have below := balanced.1
  omega

theorem Balanced.right_le (balanced : t.Balanced) : t.right.level ≤ t.level := by
  rcases t with _ | ⟨lv, l, d, r⟩
  · exact Nat.le_refl _
  · obtain ⟨-, near, -⟩ := balanced
    change r.level ≤ lv
    omega

theorem two_pow_level_le (balanced : t.Balanced) : 2 ^ t.level ≤ t.toList.length + 1 := by
  induction t with
  | empty => exact Nat.le_refl _
  | node lv l d r ihl ihr =>
    obtain ⟨below, near, -, left, right⟩ := balanced
    have atLeft := ihl left
    have atRight := ihr right
    have least : 2 ^ l.level ≤ 2 ^ r.level := Nat.pow_le_pow_right (by decide) (by omega)
    rw [level, ← below, toList, List.length_append, List.length_cons, Nat.pow_succ]
    omega

def height : AaTree κ → Nat
  | .empty => 0
  | .node _ l _ r => max l.height r.height + 1

theorem height_le_length (t : AaTree κ) : t.height ≤ t.toList.length := by
  induction t with
  | empty => exact Nat.le_refl 0
  | node lv l d r ihl ihr =>
    rw [height, toList, List.length_append, List.length_cons]
    omega

/-- A way down takes two nodes of a level at most. -/
theorem height_le (balanced : t.Balanced) :
    t.height ≤ 2 * t.level ∧ (t.right.level < t.level → t.height < 2 * t.level) := by
  induction t with
  | empty => exact ⟨Nat.le_refl _, fun below => absurd below (Nat.lt_irrefl _)⟩
  | node lv l d r ihl ihr =>
    obtain ⟨below, near, far, left, right⟩ := balanced
    have atLeft := (ihl left).1
    obtain ⟨atRight, less⟩ := ihr right
    constructor
    · change max l.height r.height + 1 ≤ 2 * lv
      rcases near with flat | under
      · have lower := less (flat ▸ far)
        omega
      · omega
    · intro lower
      change r.level < lv at lower
      change max l.height r.height + 1 < 2 * lv
      omega

def Grown (t t' : AaTree κ) : Prop :=
  t'.level = t.level ∨ (t'.level = t.level + 1 ∧ t'.right.level = t.level ∧ (t.level = 0 ∨ t.right.level = t.level))

theorem rebalance_left {l' : AaTree κ} (balanced : Balanced (.node lv l d r)) (left : l'.Balanced)
    (grown : Grown l l') :
    (split (skew (.node lv l' d r))).Balanced ∧ Grown (.node lv l d r) (split (skew (.node lv l' d r))) := by
  obtain ⟨below, near, far, -, right⟩ := balanced
  rcases grown with same | ⟨up, inner, -⟩
  · -- nothing turns
    have still : split (skew (.node lv l' d r)) = .node lv l' d r := by
      have first : skew (.node lv l' d r) = .node lv l' d r := by
        rcases l' with _ | ⟨lv', a, x, b⟩
        · rfl
        · rw [skew, if_neg]
          rw [level] at same
          omega
      rw [first]
      rcases r with _ | ⟨lv', b, y, c⟩
      · rfl
      · have apart : ¬c.level = lv := fun equal => absurd (equal ▸ far) (Nat.lt_irrefl _)
        rw [split, if_neg apart]
    rw [still]
    exact ⟨⟨by omega, near, far, left, right⟩, .inl rfl⟩
  · rcases l' with _ | ⟨lv', a, x, b⟩
    · simp [level] at up
    · obtain ⟨belowA, -, -, leftA, leftB⟩ := left
      rw [level] at up
      have turn : skew (.node lv (.node lv' a x b) d r) = .node lv' a x (.node lv b d r) := by
        rw [skew, if_pos]
        omega
      have levels : lv' = lv ∧ b.level + 1 = lv := by
        change b.level = l.level at inner
        omega
      obtain ⟨rfl, belowB⟩ := levels
      rw [turn, split]
      rcases near with flat | lower
      · -- the right child was on the level: the root goes up
        rw [if_pos flat]
        refine ⟨⟨rfl, .inr (by omega), ?_, ?_, right⟩, .inr ⟨rfl, flat, .inr flat⟩⟩
        · have inside := right.right_le
          omega
        · exact ⟨belowA, .inr belowB, by have inside := leftB.right_le; omega, leftA, leftB⟩
      · rw [if_neg (by omega)]
        refine ⟨⟨belowA, .inl rfl, ?_, leftA, ?_⟩, .inl rfl⟩
        · change r.level < _
          omega
        · exact ⟨belowB, .inr lower, far, leftB, right⟩

theorem rebalance_right {r' : AaTree κ} (balanced : Balanced (.node lv l d r)) (right : r'.Balanced)
    (grown : Grown r r') :
    (split (skew (.node lv l d r'))).Balanced ∧ Grown (.node lv l d r) (split (skew (.node lv l d r'))) := by
  have positive := balanced.pos
  obtain ⟨below, near, far, left, -⟩ := balanced
  have first : skew (.node lv l d r') = .node lv l d r' := by
    rcases l with _ | ⟨lv', a, x, b⟩
    · rfl
    · rw [skew, if_neg]
      rw [level] at below
      omega
  rw [first]
  rcases r' with _ | ⟨lv', b, y, c⟩
  · have none' : (empty : AaTree κ).level = 0 := rfl
    rcases grown with same | ⟨up, -⟩
    · exact ⟨⟨below, by omega, positive, left, right⟩, .inl rfl⟩
    · rw [none'] at up
      omega
  · rw [split]
    have here : (node lv' b y c).level = lv' := rfl
    obtain ⟨belowB, nearC, farC, leftB, rightC⟩ := right
    by_cases long : c.level = lv
    · -- two on the level to the right: the middle one goes up
      rw [if_pos long]
      have top : lv' = lv ∧ r.level = lv := by
        rcases grown with same | ⟨up, inner, reason⟩
        · omega
        · change c.level = r.level at inner
          omega
      obtain ⟨rfl, flat⟩ := top
      refine ⟨⟨rfl, .inr (by omega), by omega, ?_, rightC⟩, .inr ⟨rfl, long, .inr flat⟩⟩
      exact ⟨below, .inr belowB, by have inside := leftB.right_le; omega, left, leftB⟩
    · rw [if_neg long]
      refine ⟨⟨below, ?_, ?_, left, belowB, nearC, farC, leftB, rightC⟩, .inl rfl⟩
      · rcases grown with same | ⟨up, inner, reason⟩
        · omega
        · omega
      · change c.level < lv
        rcases grown with same | ⟨up, inner, reason⟩
        · omega
        · change c.level = r.level at inner
          omega

variable [Ord κ]

theorem balanced_insert {n : κ} (balanced : t.Balanced) : (t.insert n).Balanced ∧ Grown t (t.insert n) := by
  induction t with
  | empty => exact ⟨⟨rfl, .inr rfl, Nat.zero_lt_one, trivial, trivial⟩, .inr ⟨rfl, rfl, .inl rfl⟩⟩
  | node lv l d r ihl ihr =>
    rw [insert]
    split
    · obtain ⟨left, grown⟩ := ihl balanced.2.2.2.1
      exact rebalance_left balanced left grown
    · obtain ⟨right, grown⟩ := ihr balanced.2.2.2.2
      exact rebalance_right balanced right grown
    · exact ⟨balanced, .inl rfl⟩

end Besra.AaTree
