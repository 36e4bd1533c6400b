import Mathlib.Data.List.Basic
import Mathlib.Tactic.Common

/-!
Reading a string piece by piece, over any alphabet and any kind of piece. A reader looks at what is left of the string
and says how long the next piece is and what it stands for, or that it cannot tell.
-/

namespace Besra.Reading

universe u v

/-- What is taken off the front of a string: the length of the next piece and the piece, if it is known. -/
structure Reader (α : Type u) (β : Type v) where
  next : List α → Option (ℕ × β)
  advances : ∀ {s : List α} {n : ℕ} {piece : β}, next s = some (n, piece) → 0 < n ∧ n ≤ s.length

namespace Reader

variable {α : Type u} {β : Type v} (r : Reader α β)

def readAll : ℕ → List α → List β × List α
  | 0, s => ([], s)
  | fuel + 1, s =>
    match r.next s with
    | none => ([], s)
    | some (n, piece) =>
      let later := readAll fuel (s.drop n)
      (piece :: later.1, later.2)

def reading (s : List α) : List β :=
  (r.readAll s.length s).1

def residue (s : List α) : List α :=
  (r.readAll s.length s).2

theorem next_nil : r.next [] = none := by
  rcases found : r.next [] with _ | ⟨n, piece⟩
  · rfl
  · have bounds := r.advances found
    simp only [List.length_nil] at bounds
    omega

variable {piece : β} {n : ℕ} {s : List α}

theorem length_drop_lt (found : r.next s = some (n, piece)) : (s.drop n).length < s.length := by
  have bounds := r.advances found
  rw [List.length_drop]
  omega

theorem readAll_enough (fuel : ℕ) (s : List α) (enough : s.length ≤ fuel) :
    r.readAll fuel s = r.readAll s.length s := by
  induction fuel using Nat.strongRecOn generalizing s with
  | _ fuel ih =>
    rcases s with _ | ⟨a, s⟩
    · cases fuel with
      | zero => rfl
      | succ fuel => simp only [readAll, r.next_nil, List.length_nil]
    · obtain ⟨fuel, rfl⟩ : ∃ k, fuel = k + 1 := ⟨fuel - 1, by rw [List.length_cons] at enough; omega⟩
      rw [List.length_cons, readAll, readAll]
      rcases found : r.next (a :: s) with _ | ⟨n, piece⟩
      · rfl
      · have shorter := r.length_drop_lt found
        rw [List.length_cons] at shorter enough
        simp only
        rw [ih fuel (by omega) _ (by omega)]
        by_cases same : s.length = fuel
        · rw [same, ih fuel (by omega) _ (by omega)]
        · rw [ih s.length (by omega) _ (by omega)]

theorem readAll_some (found : r.next s = some (n, piece)) :
    r.readAll s.length s = (piece :: r.reading (s.drop n), r.residue (s.drop n)) := by
  have shorter := r.length_drop_lt found
  obtain ⟨k, length⟩ : ∃ k, s.length = k + 1 := ⟨s.length - 1, by omega⟩
  rw [length, readAll, found]
  simp only [reading, residue]
  rw [r.readAll_enough k _ (by omega)]

theorem reading_some (found : r.next s = some (n, piece)) : r.reading s = piece :: r.reading (s.drop n) := by
  rw [reading, r.readAll_some found]

theorem residue_some (found : r.next s = some (n, piece)) : r.residue s = r.residue (s.drop n) := by
  rw [residue, r.readAll_some found]

theorem readAll_none (stuck : r.next s = none) (fuel : ℕ) : r.readAll fuel s = ([], s) := by
  cases fuel with
  | zero => rfl
  | succ fuel => rw [readAll, stuck]

theorem reading_none (stuck : r.next s = none) : r.reading s = [] := by
  rw [reading, r.readAll_none stuck]

theorem residue_none (stuck : r.next s = none) : r.residue s = s := by
  rw [residue, r.readAll_none stuck]

theorem piecewise {motive : List α → Prop} (stuck : ∀ s, r.next s = none → motive s)
    (step : ∀ s n piece, r.next s = some (n, piece) → motive (s.drop n) → motive s) (s : List α) : motive s := by
  induction size : s.length using Nat.strongRecOn generalizing s with
  | _ size ih =>
    rcases found : r.next s with _ | ⟨n, piece⟩
    · exact stuck s found
    · have shorter := r.length_drop_lt found
      exact step s n piece found (ih _ (by omega) _ rfl)

def Settled : Prop :=
  ∀ (s t : List α) (n : ℕ) (piece : β), r.next s = some (n, piece) → r.next (s ++ t) = some (n, piece)

section Parts

variable {r} (settled : r.Settled)
include settled

theorem reading_append (s t : List α) : r.reading (s ++ t) = r.reading s ++ r.reading (r.residue s ++ t) := by
  induction s using r.piecewise with
  | stuck s stuck => rw [r.reading_none stuck, r.residue_none stuck, List.nil_append]
  | step s n piece found ih =>
    have bounds := r.advances found
    rw [r.reading_some (settled s t n piece found), r.reading_some found, r.residue_some found,
      List.drop_append_of_le_length bounds.2, ih, List.cons_append]

theorem residue_append (s t : List α) : r.residue (s ++ t) = r.residue (r.residue s ++ t) := by
  induction s using r.piecewise with
  | stuck s stuck => rw [r.residue_none stuck]
  | step s n piece found ih =>
    have bounds := r.advances found
    rw [r.residue_some (settled s t n piece found), r.residue_some found, List.drop_append_of_le_length bounds.2, ih]

end Parts

end Reader

end Besra.Reading
