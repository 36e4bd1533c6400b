import Mathlib.Data.List.Sort

/-!
Several lists merged into one. Each round takes the least of the heads, of the first
list that has it, so what comes out is a permutation of the lists; when they are in
ascending order, so is the result.
-/
namespace Besra.Merge
open List

variable {α : Type} (lt : α → α → Bool)

def pick : List (List α) → Option (α × List (List α))
  | [] => none
  | [] :: lists => (pick lists).map fun (b, rest) => (b, [] :: rest)
  | (a :: as) :: lists =>
    match pick lists with
    | none => some (a, as :: lists)
    | some (b, rest) => if lt b a then some (b, (a :: as) :: rest) else some (a, as :: lists)

def rounds : Nat → List (List α) → List α
  | 0, _ => []
  | k + 1, lists =>
    match pick lt lists with
    | none => []
    | some (a, rest) => a :: rounds k rest

def merge (lists : List (List α)) : List α := rounds lt lists.flatten.length lists

variable {lt}

variable {lists rest : List (List α)} {a : α} {k : Nat}

theorem pick_none (none_left : pick lt lists = none) : lists.flatten = [] := by
  induction lists with
  | nil => rfl
  | cons list lists ih =>
    cases list with
    | nil =>
      rw [pick, Option.map_eq_none_iff] at none_left
      simpa using ih none_left
    | cons a as =>
      rw [pick] at none_left
      split at none_left
      · cases none_left
      · split at none_left <;> cases none_left

theorem pick_perm (picked : pick lt lists = some (a, rest)) : lists.flatten.Perm (a :: rest.flatten) := by
  induction lists generalizing a rest with
  | nil => cases picked
  | cons list lists ih =>
    cases list with
    | nil =>
      rw [pick, Option.map_eq_some_iff] at picked
      obtain ⟨⟨b, others⟩, found, same⟩ := picked
      cases same
      simpa using ih found
    | cons x xs =>
      rw [pick] at picked
      split at picked
      · cases picked
        simp
      · rename_i b others found
        split at picked
        · cases picked
          have moved := (ih found).append_left (x :: xs)
          exact moved.trans perm_middle
        · cases picked
          simp

theorem rounds_perm (enough : lists.flatten.length ≤ k) : (rounds lt k lists).Perm lists.flatten := by
  induction k generalizing lists with
  | zero => rw [rounds, eq_nil_of_length_eq_zero (Nat.le_zero.mp enough)]
  | succ k ih =>
    rw [rounds]
    split
    · rename_i none_left
      rw [pick_none none_left]
    · rename_i a rest picked
      have moved := pick_perm picked
      have fewer := moved.length_eq
      simp only [length_cons] at fewer
      exact ((ih (by omega)).cons a).trans moved.symm

theorem merge_perm (lists : List (List α)) : (merge lt lists).Perm lists.flatten := rounds_perm (Nat.le_refl _)

theorem mem_merge : a ∈ merge lt lists ↔ ∃ list ∈ lists, a ∈ list := by
  rw [(merge_perm lists).mem_iff, mem_flatten]

/-- An order in which neither of two elements may be less, and where this is as good as being equal. -/
structure Weak (lt : α → α → Bool) : Prop where
  asymm : ∀ {a b}, lt a b = true → lt b a = false
  trans : ∀ {a b c}, lt b a = false → lt c b = false → lt c a = false

def Ascending (lt : α → α → Bool) (list : List α) : Prop := list.Pairwise fun a b => lt b a = false

theorem Weak.irrefl (weak : Weak lt) (a : α) : lt a a = false := by
  by_contra less
  have less : lt a a = true := by simpa using less
  simp [weak.asymm less] at less

theorem ascending_orderedInsert (weak : Weak lt) (a : α) {list : List α} (sorted : Ascending lt list) :
    Ascending lt (list.orderedInsert (lt · · = true) a) := by
  induction list with
  | nil => exact pairwise_singleton _ a
  | cons b list ih =>
    obtain ⟨least, tail_sorted⟩ := pairwise_cons.mp sorted
    rw [List.orderedInsert]
    split
    · rename_i less
      refine pairwise_cons.mpr ⟨fun c among => ?_, sorted⟩
      rcases mem_cons.mp among with rfl | later
      · exact weak.asymm less
      · exact weak.trans (weak.asymm less) (least c later)
    · rename_i not_less
      refine pairwise_cons.mpr ⟨fun c among => ?_, ih tail_sorted⟩
      rcases (mem_orderedInsert _).mp among with rfl | later
      · simpa using not_less
      · exact least c later

theorem pick_least (weak : Weak lt) (picked : pick lt lists = some (a, rest))
    (sorted : ∀ list ∈ lists, Ascending lt list) :
    (∀ b ∈ lists.flatten, lt b a = false) ∧ ∀ list ∈ rest, Ascending lt list := by
  induction lists generalizing a rest with
  | nil => cases picked
  | cons list lists ih =>
    have others_sorted : ∀ list ∈ lists, Ascending lt list := fun list among => sorted list (by simp [among])
    cases list with
    | nil =>
      rw [pick, Option.map_eq_some_iff] at picked
      obtain ⟨⟨b, others⟩, found, same⟩ := picked
      cases same
      obtain ⟨least, stay⟩ := ih found others_sorted
      exact ⟨by simpa using least, by simpa [Ascending] using stay⟩
    | cons x xs =>
      have head_sorted := pairwise_cons.mp (sorted (x :: xs) (by simp))
      have head_least : ∀ b ∈ x :: xs, lt b x = false := by
        intro b among
        rcases mem_cons.mp among with rfl | later
        · exact weak.irrefl b
        · exact head_sorted.1 b later
      have kept : ∀ list ∈ xs :: lists, Ascending lt list := by
        intro list among
        rcases mem_cons.mp among with rfl | later
        · exact head_sorted.2
        · exact others_sorted list later
      rw [pick] at picked
      split at picked
      · rename_i none_left
        cases picked
        refine ⟨?_, kept⟩
        simpa [pick_none none_left] using head_least
      · rename_i b others found
        obtain ⟨least, stay⟩ := ih found others_sorted
        split at picked
        · rename_i less
          cases picked
          refine ⟨?_, ?_⟩
          · intro c among
            rcases mem_append.mp among with first | later
            · exact weak.trans (weak.asymm less) (head_least c first)
            · exact least c later
          · intro list among
            rcases mem_cons.mp among with rfl | later
            · exact sorted _ (by simp)
            · exact stay list later
        · rename_i not_less
          cases picked
          refine ⟨?_, kept⟩
          intro c among
          rcases mem_append.mp among with first | later
          · exact head_least c first
          · exact weak.trans (by simpa using not_less) (least c later)

theorem rounds_ascending (weak : Weak lt) (enough : lists.flatten.length ≤ k)
    (sorted : ∀ list ∈ lists, Ascending lt list) : Ascending lt (rounds lt k lists) := by
  induction k generalizing lists with
  | zero => exact List.Pairwise.nil
  | succ k ih =>
    rw [rounds]
    split
    · exact List.Pairwise.nil
    · rename_i a rest picked
      have moved := pick_perm picked
      have fewer := moved.length_eq
      simp only [length_cons] at fewer
      obtain ⟨least, stay⟩ := pick_least weak picked sorted
      refine pairwise_cons.mpr ⟨fun b among => least b ?_, ih (by omega) stay⟩
      exact moved.mem_iff.mpr (mem_cons_of_mem a ((rounds_perm (by omega)).mem_iff.mp among))

theorem merge_ascending (weak : Weak lt) (sorted : ∀ list ∈ lists, Ascending lt list) : Ascending lt (merge lt lists) :=
  rounds_ascending weak (Nat.le_refl _) sorted

end Besra.Merge
