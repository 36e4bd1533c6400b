import Mathlib

/-!
AA trees: search trees that are kept balanced by a level in every node, with two rotations after an insertion.
-/
namespace Besra
open List

inductive AaTree (κ : Type) where
  | empty
  | node (level : Nat) (left : AaTree κ) (data : κ) (right : AaTree κ)
deriving DecidableEq

namespace AaTree

variable {κ : Type}

def level : AaTree κ → Nat
  | .empty => 0
  | .node level _ _ _ => level

def skew : AaTree κ → AaTree κ
  | .node lv (.node lv' a x b) y c =>
    if lv' = lv then .node lv' a x (.node lv b y c) else .node lv (.node lv' a x b) y c
  | t => t

/-- A rotation to the left, where the right grandchild is on the level of the root; the level goes up. -/
def split : AaTree κ → AaTree κ
  | .node lv a x (.node lv' b y c) =>
    if c.level = lv then .node (lv' + 1) (.node lv a x b) y c else .node lv a x (.node lv' b y c)
  | t => t

/-- The datum that `seek` says is the one, where `.gt` leads to the left and `.lt` to the right. -/
def find (seek : κ → Ordering) : AaTree κ → Option κ
  | .empty => none
  | .node _ l d r =>
    match seek d with
    | .gt => find seek l
    | .lt => find seek r
    | .eq => some d

def toList : AaTree κ → List κ
  | .empty => []
  | .node _ l d r => toList l ++ d :: toList r

theorem toList_skew (t : AaTree κ) : t.skew.toList = t.toList := by
  unfold skew
  split
  · split <;> simp [toList]
  · rfl

theorem toList_split (t : AaTree κ) : t.split.toList = t.toList := by
  unfold split
  split
  · split <;> simp [toList]
  · rfl

variable {d n : κ} {seek : κ → Ordering} {t : AaTree κ}

theorem find_eq_some (found : t.find seek = some d) : d ∈ t.toList ∧ seek d = .eq := by
  induction t with
  | empty => simp [find] at found
  | node lv l e r ihl ihr =>
    rw [find] at found
    rw [toList, mem_append, mem_cons]
    split at found
    · exact ⟨.inl (ihl found).1, (ihl found).2⟩
    · exact ⟨.inr (.inr (ihr found).1), (ihr found).2⟩
    next here =>
      cases found
      exact ⟨.inr (.inl rfl), here⟩

variable [Ord κ]

def insert (n : κ) : AaTree κ → AaTree κ
  | .empty => .node 1 .empty n .empty
  | .node lv l d r =>
    match compare d n with
    | .gt => split (skew (.node lv (insert n l) d r))
    | .lt => split (skew (.node lv l d (insert n r)))
    | .eq => .node lv l d r

def Ordered (t : AaTree κ) : Prop := t.toList.Pairwise (fun d e => compare d e = .lt)

theorem ordered_empty : Ordered (.empty : AaTree κ) := List.Pairwise.nil

theorem toList_insert (n : κ) (t : AaTree κ) : (t.insert n).toList = t.toList ∨
    ∃ l r, t.toList = l ++ r ∧ (t.insert n).toList = l ++ n :: r := by
  induction t with
  | empty => exact .inr ⟨[], [], rfl, rfl⟩
  | node lv a e b iha ihb =>
    rw [insert]
    split
    · rw [toList_split, toList_skew, toList, toList]
      rcases iha with same | ⟨l, r, whole, put⟩
      · exact .inl (by rw [same])
      · exact .inr ⟨l, r ++ e :: b.toList, by rw [whole, append_assoc], by rw [put]; simp⟩
    · rw [toList_split, toList_skew, toList, toList]
      rcases ihb with same | ⟨l, r, whole, put⟩
      · exact .inl (by rw [same])
      · exact .inr ⟨a.toList ++ e :: l, r, by rw [whole]; simp, by rw [put]; simp⟩
    · exact .inl rfl

theorem mem_of_mem_insert (member : d ∈ (t.insert n).toList) : d = n ∨ d ∈ t.toList := by
  rcases toList_insert n t with same | ⟨l, r, whole, put⟩
  · exact .inr (same ▸ member)
  · rw [put, mem_append, mem_cons] at member
    rw [whole, mem_append]
    tauto

theorem mem_insert_of_mem (member : d ∈ t.toList) : d ∈ (t.insert n).toList := by
  rcases toList_insert n t with same | ⟨l, r, whole, put⟩
  · rwa [same]
  · rw [whole, mem_append] at member
    rw [put, mem_append, mem_cons]
    tauto

variable [Std.TransOrd κ]

theorem ordered_insert (ordered : t.Ordered) : (t.insert n).Ordered := by
  induction t with
  | empty => exact pairwise_singleton _ _
  | node lv l e r ihl ihr =>
    rw [Ordered, toList, pairwise_append, pairwise_cons] at ordered
    obtain ⟨left, ⟨above, right⟩, across⟩ := ordered
    rw [insert]
    split
    next less =>
      rw [Ordered, toList_split, toList_skew, toList, pairwise_append, pairwise_cons]
      refine ⟨ihl left, ⟨above, right⟩, ?_⟩
      intro a inside b later
      rcases mem_of_mem_insert inside with rfl | old
      · have below := Std.OrientedCmp.lt_of_gt less
        rcases mem_cons.mp later with rfl | later
        · exact below
        · exact Std.TransCmp.lt_trans below (above b later)
      · exact across a old b later
    next greater =>
      rw [Ordered, toList_split, toList_skew, toList, pairwise_append, pairwise_cons]
      refine ⟨left, ⟨?_, ihr right⟩, ?_⟩
      · intro b later
        rcases mem_of_mem_insert later with rfl | old
        · exact greater
        · exact above b old
      · intro a inside b later
        rcases mem_cons.mp later with rfl | later
        · exact across a inside b mem_cons_self
        · rcases mem_of_mem_insert later with rfl | old
          · exact Std.TransCmp.lt_trans (across a inside e mem_cons_self) greater
          · exact across a inside b (mem_cons_of_mem _ old)
    · rw [Ordered, toList, pairwise_append, pairwise_cons]
      exact ⟨left, ⟨above, right⟩, across⟩

theorem find_of_mem (ordered : t.Ordered) (member : d ∈ t.toList) (agrees : ∀ e ∈ t.toList, seek e = compare e d) :
    t.find seek = some d := by
  induction t with
  | empty => simp [toList] at member
  | node lv l e r ihl ihr =>
    rw [Ordered, toList, pairwise_append, pairwise_cons] at ordered
    obtain ⟨left, ⟨above, right⟩, across⟩ := ordered
    rw [toList, mem_append, mem_cons] at member
    have agreesLeft : ∀ e' ∈ l.toList, seek e' = compare e' d := by
      intro e' inside
      exact agrees e' (by rw [toList]; exact mem_append_left _ inside)
    have agreesRight : ∀ e' ∈ r.toList, seek e' = compare e' d := by
      intro e' inside
      exact agrees e' (by rw [toList]; exact mem_append_right _ (mem_cons_of_mem _ inside))
    rw [find, agrees e (by rw [toList]; exact mem_append_right _ mem_cons_self)]
    rcases member with before | rfl | after
    · rw [Std.OrientedCmp.gt_of_lt (across d before e mem_cons_self)]
      exact ihl left before agreesLeft
    · rw [Std.ReflOrd.compare_self]
    · rw [above d after]
      exact ihr right after agreesRight

theorem exists_eq_of_insert (n : κ) (t : AaTree κ) : ∃ e ∈ (t.insert n).toList, compare e n = .eq := by
  induction t with
  | empty => exact ⟨n, mem_singleton_self n, Std.ReflOrd.compare_self⟩
  | node lv l d r ihl ihr =>
    rw [insert]
    split
    · obtain ⟨e, inside, equal⟩ := ihl
      refine ⟨e, ?_, equal⟩
      rw [toList_split, toList_skew, toList]
      exact mem_append_left _ inside
    · obtain ⟨e, inside, equal⟩ := ihr
      refine ⟨e, ?_, equal⟩
      rw [toList_split, toList_skew, toList]
      exact mem_append_right _ (mem_cons_of_mem _ inside)
    next equal => exact ⟨d, by rw [toList]; exact mem_append_right _ mem_cons_self, equal⟩

theorem eq_of_compare {e : κ} (ordered : t.Ordered) (inside : d ∈ t.toList) (there : e ∈ t.toList)
    (equal : compare d e = .eq) : d = e := by
  have apart : t.toList.Pairwise (fun d e => compare d e = .eq → d = e) := by
    refine ordered.imp (fun less equal => ?_)
    rw [less] at equal
    cases equal
  have back : t.toList.Pairwise (flip (fun d e => compare d e = .eq → d = e)) :=
    apart.imp (fun same equal => (same (Std.OrientedCmp.eq_symm equal)).symm)
  exact List.Pairwise.forall_of_forall_of_flip (fun _ _ _ => rfl) apart back inside there equal

omit [Std.TransOrd κ] in
theorem find_isSome (ordered : t.Ordered)
    (monotone : ∀ d e, compare d e = .lt → (seek d = .gt → seek e = .gt) ∧ (seek e = .lt → seek d = .lt))
    (there : ∃ e ∈ t.toList, seek e = .eq) : (t.find seek).isSome := by
  induction t with
  | empty =>
    obtain ⟨e, inside, -⟩ := there
    exact absurd inside not_mem_nil
  | node lv l d r ihl ihr =>
    rw [Ordered, toList, pairwise_append, pairwise_cons] at ordered
    obtain ⟨left, ⟨above, right⟩, across⟩ := ordered
    obtain ⟨e, inside, equal⟩ := there
    rw [toList, mem_append, mem_cons] at inside
    rw [find]
    split
    next greater =>
      rcases inside with before | rfl | after
      · exact ihl left ⟨e, before, equal⟩
      · rw [greater] at equal
        cases equal
      · rw [(monotone d e (above e after)).1 greater] at equal
        cases equal
    next less =>
      rcases inside with before | rfl | after
      · rw [(monotone e d (across e before d mem_cons_self)).2 less] at equal
        cases equal
      · rw [less] at equal
        cases equal
      · exact ihr right ⟨e, after, equal⟩
    next => rfl

variable [Std.LawfulEqOrd κ]

omit [Std.TransOrd κ] in
theorem mem_insert : d ∈ (t.insert n).toList ↔ d = n ∨ d ∈ t.toList := by
  induction t with
  | empty => simp [insert, toList]
  | node lv l e r ihl ihr =>
    rw [insert]
    split
    · rw [toList_split, toList_skew, toList, toList, mem_append, mem_append, ihl]
      tauto
    · rw [toList_split, toList_skew, toList, toList, mem_append, mem_append, mem_cons, mem_cons, ihr]
      tauto
    next same =>
      rw [Std.LawfulEqOrd.compare_eq_iff_eq] at same
      rw [same, toList, mem_append, mem_cons]
      tauto

end AaTree

end Besra
