import Mathlib.Order.Defs.Unbundled
import Mathlib.Tactic.Common

/-!
Ternary search trees. A node compares one symbol: with a smaller or a greater one the search goes on for the same
symbol, with an equal one for the next.
-/

namespace Besra

universe u v

inductive TernaryTree (α : Type u) (β : Type v) where
  | nil
  | node (split : α) (lt eq gt : TernaryTree α β) (value : β)
  deriving DecidableEq

namespace TernaryTree

variable {α : Type u} {β : Type v}

def heads : TernaryTree α β → List α
  | nil => []
  | node split lt _ gt _ => lt.heads ++ split :: gt.heads

inductive Word : TernaryTree α β → List α → β → Prop
  | last (split : α) (lt gt : TernaryTree α β) (value : β) : Word (node split lt nil gt value) [split] value
  | eq (split : α) (lt gt : TernaryTree α β) (value : β) {below : TernaryTree α β} {w : List α} {x : β} :
      Word below w x → Word (node split lt below gt value) (split :: w) x
  | lt (split : α) (eq gt : TernaryTree α β) (value : β) {below : TernaryTree α β} {w : List α} {x : β} :
      Word below w x → Word (node split below eq gt value) w x
  | gt (split : α) (lt eq : TernaryTree α β) (value : β) {below : TernaryTree α β} {w : List α} {x : β} :
      Word below w x → Word (node split lt eq below value) w x

variable {t : TernaryTree α β} {w : List α} {x : β}

theorem Word.head_mem (word : Word t w x) : ∃ c w', w = c :: w' ∧ c ∈ t.heads := by
  induction word with
  | last split lt gt value => exact ⟨split, [], rfl, by simp [heads]⟩
  | eq split lt gt value below ih => exact ⟨split, _, rfl, by simp [heads]⟩
  | lt split eq gt value below ih =>
    obtain ⟨c, w', rfl, member⟩ := ih
    exact ⟨c, w', rfl, by simp [heads, member]⟩
  | gt split lt eq value below ih =>
    obtain ⟨c, w', rfl, member⟩ := ih
    exact ⟨c, w', rfl, by simp [heads, member]⟩

theorem not_word_nil : ¬Word (nil : TernaryTree α β) w x := nofun

theorem not_word_empty : ¬Word t [] x := by
  intro word
  obtain ⟨c, w, none, -⟩ := word.head_mem
  cases none

def ending (split : α) (value : β) : TernaryTree α β → List (List α × β)
  | nil => [([split], value)]
  | node _ _ _ _ _ => []

def words : TernaryTree α β → List (List α × β)
  | nil => []
  | node split lt eq gt value =>
    lt.words ++ (ending split value eq ++ eq.words.map fun w => (split :: w.1, w.2)) ++ gt.words

theorem mem_ending {split : α} {value : β} : (w, x) ∈ ending split value t ↔ t = nil ∧ w = [split] ∧ x = value := by
  cases t <;> simp [ending]

theorem word_iff_mem : Word t w x ↔ (w, x) ∈ t.words := by
  constructor
  · intro word
    induction word with
    | last split lt gt value => simp [words, ending]
    | eq split lt gt value below ih => simp [words, ih]
    | lt split eq gt value below ih => simp [words, ih]
    | gt split lt eq value below ih => simp [words, ih]
  · intro member
    induction t generalizing w with
    | nil => cases member
    | node split lt eq gt value ihLt ihEq ihGt =>
      simp only [words, List.mem_append, mem_ending, List.mem_map, Prod.mk.injEq] at member
      rcases member with (below | ⟨rfl, rfl, rfl⟩ | ⟨⟨w', x'⟩, below, rfl, rfl⟩) | below
      · exact .lt _ _ _ _ (ihLt below)
      · exact .last _ _ _ _
      · exact .eq _ _ _ _ (ihEq below)
      · exact .gt _ _ _ _ (ihGt below)

section Search

variable [LT α] [DecidableLT α] [DecidableEq α]

/-- Smaller symbols are below `lt`, greater ones below `gt`. -/
def Ordered : TernaryTree α β → Prop
  | nil => True
  | node split lt eq gt _ =>
    (∀ c ∈ lt.heads, c < split) ∧ (∀ c ∈ gt.heads, split < c) ∧ lt.Ordered ∧ eq.Ordered ∧ gt.Ordered

def find (c : α) : TernaryTree α β → Option (TernaryTree α β × β)
  | nil => none
  | node split lt eq gt value =>
    if c < split then lt.find c
    else if c = split then some (eq, value)
    else gt.find c

variable [IsStrictOrder α (· < ·)]

variable {t : TernaryTree α β} {y : β}

theorem find_isSome (ordered : t.Ordered) (c : α) : (t.find c).isSome ↔ c ∈ t.heads := by
  induction t with
  | nil => simp [find, heads]
  | node split lt eq gt value ihLt _ ihGt =>
    obtain ⟨small, great, orderedLt, -, orderedGt⟩ := ordered
    simp only [find, heads, List.mem_append, List.mem_cons]
    split_ifs with less equal
    · rw [ihLt orderedLt]
      constructor
      · exact Or.inl
      · rintro (member | rfl | member)
        · exact member
        · exact absurd less (irrefl_of (· < ·) _)
        · exact absurd (trans_of (· < ·) less (great c member)) (irrefl_of (· < ·) _)
    · simp [equal]
    · rw [ihGt orderedGt]
      constructor
      · exact fun member => Or.inr (Or.inr member)
      · rintro (member | same | member)
        · exact absurd (small c member) less
        · exact absurd same equal
        · exact member

theorem word_cons_iff (ordered : t.Ordered) (c : α) (w : List α) (x : β) :
    Word t (c :: w) x ↔ ∃ e y, t.find c = some (e, y) ∧ (e = nil ∧ w = [] ∧ x = y ∨ Word e w x) := by
  induction t with
  | nil => simp [find, not_word_nil]
  | node split lt eq gt value ihLt _ ihGt =>
    obtain ⟨small, great, orderedLt, -, orderedGt⟩ := ordered
    rw [find]
    constructor
    · intro word
      cases word with
      | last => exact ⟨nil, x, by rw [if_neg (irrefl_of (· < ·) c), if_pos rfl], Or.inl ⟨rfl, rfl, rfl⟩⟩
      | eq _ _ _ _ below => exact ⟨eq, value, by rw [if_neg (irrefl_of (· < ·) c), if_pos rfl], Or.inr below⟩
      | lt _ _ _ _ below =>
        obtain ⟨d, w', same, member⟩ := below.head_mem
        injection same with head _
        rw [if_pos (head ▸ small d member)]
        exact (ihLt orderedLt).mp below
      | gt _ _ _ _ below =>
        obtain ⟨d, w', same, member⟩ := below.head_mem
        injection same with head _
        have greater : split < c := head ▸ great d member
        have other : c ≠ split := fun same => irrefl_of (· < ·) split (by rwa [same] at greater)
        rw [if_neg (asymm_of (· < ·) greater), if_neg other]
        exact (ihGt orderedGt).mp below
    · split_ifs with less equal
      · exact fun found => .lt _ _ _ _ ((ihLt orderedLt).mpr found)
      · rintro ⟨e, y, found, atEnd | below⟩
        · obtain ⟨rfl, rfl, rfl⟩ := atEnd
          cases found
          rw [equal]
          exact .last _ _ _ _
        · cases found
          rw [equal]
          exact .eq _ _ _ _ below
      · exact fun found => .gt _ _ _ _ ((ihGt orderedGt).mpr found)

omit [IsStrictOrder α (· < ·)] in
theorem find_ordered {e : TernaryTree α β} {c : α} (ordered : t.Ordered) (found : t.find c = some (e, y)) :
    e.Ordered := by
  induction t with
  | nil => cases found
  | node split lt eq gt value ihLt _ ihGt =>
    obtain ⟨-, -, orderedLt, orderedEq, orderedGt⟩ := ordered
    rw [find] at found
    split_ifs at found
    · exact ihLt orderedLt found
    · cases found
      exact orderedEq
    · exact ihGt orderedGt found

theorem Word.unique (ordered : t.Ordered) {w : List α} {x : β} (first : Word t w x) (second : Word t w y) : x = y := by
  induction w generalizing t with
  | nil => exact absurd first not_word_empty
  | cons c w ih =>
    obtain ⟨e, z, found, one⟩ := (word_cons_iff ordered c w x).mp first
    obtain ⟨e', z', found', other⟩ := (word_cons_iff ordered c w y).mp second
    rw [found] at found'
    cases found'
    rcases one with ⟨rfl, rfl, rfl⟩ | one
    · rcases other with ⟨-, -, rfl⟩ | other
      · rfl
      · exact absurd other not_word_nil
    · rcases other with ⟨rfl, -, -⟩ | other
      · exact absurd one not_word_nil
      · exact ih (find_ordered ordered found) one other

end Search

end TernaryTree

end Besra
