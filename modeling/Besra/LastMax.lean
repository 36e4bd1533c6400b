import Mathlib

/-!
The last maximum of a list. A challenger replaces the holder when it weighs as much
or more, so the holder at the end is the last of the heaviest elements.
-/
namespace Besra.LastMax
open List

variable {α β : Type}

def challenge (beats : α → α → Bool) (holder : Option α) (a : α) : Option α :=
  match holder with
  | none => some a
  | some b => if beats b a then some a else some b

def hold (beats : α → α → Bool) (holder : Option α) (list : List α) : Option α := list.foldl (challenge beats) holder

theorem hold_cons (beats : α → α → Bool) (holder : Option α) (a : α) (list : List α) :
    hold beats holder (a :: list) = hold beats (challenge beats holder a) list := rfl

theorem hold_append (beats : α → α → Bool) (holder : Option α) (xs ys : List α) :
    hold beats holder (xs ++ ys) = hold beats (hold beats holder xs) ys := foldl_append

variable {list : List α} {beats beats' : α → α → Bool} {b m x : α} {f : α → Bool}

theorem hold_some : ∃ m, hold beats (some b) list = some m := by
  induction list generalizing b with
  | nil => exact ⟨b, rfl⟩
  | cons a list ih =>
    rw [hold_cons, challenge]
    split
    · exact ih
    · exact ih

theorem hold_none : hold beats none list = none ↔ list = [] := by
  cases list with
  | nil => simp [hold]
  | cons a list =>
    obtain ⟨m, held⟩ : ∃ m, hold beats none (a :: list) = some m := hold_some
    simp [held]

theorem hold_map {γ : Type} {beats : γ → γ → Bool} {f : α → γ} {holder : Option α} {list : List α} :
    hold beats (holder.map f) (list.map f) = (hold (fun b a => beats (f b) (f a)) holder list).map f := by
  induction list generalizing holder with
  | nil => rfl
  | cons a list ih =>
    rw [map_cons, hold_cons, hold_cons, ← ih]
    congr 1
    cases holder with
    | none => rfl
    | some b =>
      simp only [challenge, Option.map_some]
      split <;> rfl

theorem hold_congr_some (first : ∀ a ∈ list, beats b a = beats' b a)
    (agree : list.Pairwise fun b a => beats b a = beats' b a) :
    hold beats (some b) list = hold beats' (some b) list := by
  induction list generalizing b with
  | nil => rfl
  | cons a list ih =>
    obtain ⟨next, later⟩ := pairwise_cons.mp agree
    rw [hold_cons, hold_cons, challenge, challenge, first a (by simp)]
    split
    · exact ih next later
    · exact ih (fun c among => first c (by simp [among])) later

theorem hold_congr (agree : list.Pairwise fun b a => beats b a = beats' b a) :
    hold beats none list = hold beats' none list := by
  cases list with
  | nil => rfl
  | cons a list =>
    obtain ⟨next, later⟩ := pairwise_cons.mp agree
    exact hold_congr_some next later

variable [LinearOrder β] (weight : α → β)

def heavier (b a : α) : Bool := decide (weight b ≤ weight a)

/-- An element of a list that is no lighter than those before it and heavier than those after it. -/
def LastHeaviest (list : List α) (m : α) : Prop :=
  ∃ before after, list = before ++ m :: after ∧ (∀ a ∈ before, weight a ≤ weight m) ∧ ∀ a ∈ after, weight a < weight m

variable {weight}

theorem LastHeaviest.mem (heaviest : LastHeaviest weight list m) : m ∈ list := by
  obtain ⟨before, after, rfl, -, -⟩ := heaviest
  simp

theorem LastHeaviest.le {a : α} (heaviest : LastHeaviest weight list m) (among : a ∈ list) : weight a ≤ weight m := by
  obtain ⟨before, after, rfl, front, back⟩ := heaviest
  rcases mem_append.mp among with first | rest
  · exact front a first
  · rcases mem_cons.mp rest with rfl | later
    · exact le_refl _
    · exact (back a later).le

theorem hold_some_spec (held : hold (heavier weight) (some b) list = some m) :
    (m = b ∧ ∀ a ∈ list, weight a < weight b) ∨ (weight b ≤ weight m ∧ LastHeaviest weight list m) := by
  induction list generalizing b with
  | nil => exact .inl ⟨(Option.some.inj held).symm, by simp⟩
  | cons a list ih =>
    rw [hold_cons, challenge, heavier] at held
    split at held
    · rename_i heavy
      have heavy : weight b ≤ weight a := of_decide_eq_true heavy
      rcases ih held with ⟨rfl, lighter⟩ | ⟨grows, before, after, rfl, front, back⟩
      · exact .inr ⟨heavy, [], list, rfl, by simp, lighter⟩
      · refine .inr ⟨heavy.trans grows, a :: before, after, rfl, ?_, back⟩
        intro c among
        rcases mem_cons.mp among with rfl | later
        · exact grows
        · exact front c later
    · rename_i light
      have light : weight a < weight b := not_le.mp fun heavy => light (decide_eq_true heavy)
      rcases ih held with ⟨rfl, lighter⟩ | ⟨grows, before, after, rfl, front, back⟩
      · refine .inl ⟨rfl, ?_⟩
        intro c among
        rcases mem_cons.mp among with rfl | later
        · exact light
        · exact lighter c later
      · refine .inr ⟨grows, a :: before, after, rfl, ?_, back⟩
        intro c among
        rcases mem_cons.mp among with rfl | later
        · exact light.le.trans grows
        · exact front c later

theorem hold_none_spec (held : hold (heavier weight) none list = some m) : LastHeaviest weight list m := by
  cases list with
  | nil => cases held
  | cons a list =>
    rcases hold_some_spec held with ⟨rfl, lighter⟩ | ⟨grows, before, after, rfl, front, back⟩
    · exact ⟨[], list, rfl, by simp, lighter⟩
    · refine ⟨a :: before, after, rfl, ?_, back⟩
      intro c among
      rcases mem_cons.mp among with rfl | later
      · exact grows
      · exact front c later

theorem split_cases {before after front back : List α} (same : before ++ m :: after = front ++ x :: back) :
    (∃ between, front = before ++ m :: between ∧ after = between ++ x :: back) ∨
      (before = front ∧ m = x ∧ after = back) ∨ ∃ between, before = front ++ x :: between ∧ back = between ++ m :: after := by
  rcases append_eq_append_iff.mp same with ⟨between, rfl, rest⟩ | ⟨between, rfl, rest⟩
  · cases between with
    | nil =>
      obtain ⟨rfl, rfl⟩ := List.cons.inj rest
      exact .inr (.inl ⟨by simp, rfl, rfl⟩)
    | cons a between =>
      obtain ⟨rfl, rfl⟩ := List.cons.inj rest
      exact .inl ⟨between, rfl, rfl⟩
  · cases between with
    | nil =>
      obtain ⟨rfl, rfl⟩ := List.cons.inj rest
      exact .inr (.inl ⟨by simp, rfl, rfl⟩)
    | cons a between =>
      obtain ⟨rfl, rfl⟩ := List.cons.inj rest
      exact .inr (.inr ⟨between, rfl, rfl⟩)

theorem LastHeaviest.unique (heaviest : LastHeaviest weight list m) (heaviest' : LastHeaviest weight list x) :
    m = x := by
  obtain ⟨before, after, rfl, first, last⟩ := heaviest
  obtain ⟨front, back, same, first', last'⟩ := heaviest'
  rcases split_cases same with ⟨between, rfl, rfl⟩ | ⟨-, rfl, -⟩ | ⟨between, rfl, rfl⟩
  · exact absurd (first' m (by simp)) (not_le.mpr (last x (by simp)))
  · rfl
  · exact absurd (first x (by simp)) (not_le.mpr (last' m (by simp)))

theorem LastHeaviest.held (heaviest : LastHeaviest weight list m) : hold (heavier weight) none list = some m := by
  rcases held : hold (heavier weight) none list with _ | x
  · rw [hold_none.mp held] at heaviest
    cases heaviest.mem
  · rw [(hold_none_spec held).unique heaviest]

theorem LastHeaviest.filter (heaviest : LastHeaviest weight list m) (kept : f m = true) :
    LastHeaviest weight (list.filter f) m := by
  obtain ⟨before, after, rfl, first, last⟩ := heaviest
  refine ⟨before.filter f, after.filter f, by simp [kept], ?_, ?_⟩
  · exact fun a among => first a (mem_of_mem_filter among)
  · exact fun a among => last a (mem_of_mem_filter among)

theorem hold_filter (held : hold (heavier weight) none list = some m) (kept : f m = true) :
    hold (heavier weight) none (list.filter f) = some m :=
  ((hold_none_spec held).filter kept).held

variable {γ : Type} (weight) (own : α → Bool) (state : α → γ)

/-- The last of the heaviest elements that are set apart gives way to one of the others, or finds
that the last of the heaviest others has left the same state. -/
def GivesWay (list : List α) : Prop :=
  ∀ before m after, list = before ++ m :: after → own m = true →
    (∀ a ∈ before, own a = true → weight a ≤ weight m) → (∀ a ∈ after, own a = true → weight a < weight m) →
    (∃ o ∈ before, own o = false ∧ weight m < weight o) ∨ (∃ o ∈ after, own o = false ∧ weight m ≤ weight o) ∨
      ∃ front o back, before = front ++ o :: back ∧ own o = false ∧ state o = state m ∧
        ∀ a ∈ back, own a = false → weight a < weight o

variable {weight own state}

theorem hold_of_givesWay (weighed : ∀ a b, state a = state b → weight a = weight b)
    (gives : GivesWay weight own state list) :
    (hold (heavier weight) none list).map state =
      (hold (heavier weight) none (list.filter fun a => !own a)).map state := by
  rcases held : hold (heavier weight) none list with _ | m
  · rw [hold_none.mp held]
    rfl
  · cases mine : own m with
    | false => rw [hold_filter held (by simp [mine])]
    | true =>
      obtain ⟨before, after, rfl, first, last⟩ := hold_none_spec held
      rcases gives before m after rfl mine (fun a among _ => first a among) (fun a among _ => last a among) with
        ⟨o, among, -, heavy⟩ | ⟨o, among, -, heavy⟩ | ⟨front, o, back, rfl, other, same, lighter⟩
      · exact absurd (first o among) (not_le.mpr heavy)
      · exact absurd heavy (not_le.mpr (last o among))
      · have level := weighed o m same
        have heaviest : LastHeaviest weight ((front ++ o :: back ++ m :: after).filter fun a => !own a) o := by
          refine ⟨front.filter fun a => !own a, back.filter (fun a => !own a) ++ after.filter fun a => !own a,
            by simp [other, mine], ?_, ?_⟩
          · intro a among
            exact level ▸ first a (by simp [mem_of_mem_filter among])
          · intro a among
            rcases mem_append.mp among with near | far
            · obtain ⟨near, plain⟩ := mem_filter.mp near
              exact lighter a near (by simpa using plain)
            · exact level ▸ last a (mem_of_mem_filter far)
        rw [heaviest.held, Option.map_some, Option.map_some, same]

theorem givesWay_of_hold (weighed : ∀ a b, state a = state b → weight a = weight b)
    (same : (hold (heavier weight) none list).map state = (hold (heavier weight) none (list.filter fun a => !own a)).map state) :
    GivesWay weight own state list := by
  rintro before m after rfl mine first last
  obtain ⟨x, held⟩ : ∃ x, hold (heavier weight) none (before ++ m :: after) = some x :=
    Option.ne_none_iff_exists'.mp fun nothing => by simpa using hold_none.mp nothing
  obtain ⟨front, back, split, first', last'⟩ := hold_none_spec held
  rcases split_cases split with ⟨between, rfl, rfl⟩ | ⟨rfl, rfl, rfl⟩ | ⟨between, rfl, rfl⟩
  · -- the holder comes later and is as heavy, so it is one of the others
    cases other : own x with
    | false => exact .inr (.inl ⟨x, by simp, other, first' m (by simp)⟩)
    | true => exact absurd (first' m (by simp)) (not_le.mpr (last x (by simp) other))
  · rw [held, Option.map_some] at same
    obtain ⟨o, left, level⟩ := Option.map_eq_some_iff.mp same.symm
    have even := weighed o m level
    obtain ⟨fore, aft, parts, -, lighter⟩ := hold_none_spec left
    rw [filter_append, filter_cons_of_neg (by simp [mine])] at parts
    rcases append_eq_append_iff.mp parts with ⟨between, -, behind⟩ | ⟨between, ahead, rest⟩
    · -- then it would stand behind the holder
      have among : o ∈ after := mem_of_mem_filter (behind ▸ mem_append_right _ (by simp))
      exact absurd even (last' o among).ne
    · cases between with
      | nil =>
        have among : o ∈ after := mem_of_mem_filter (rest ▸ mem_cons_self ..)
        exact absurd even (last' o among).ne
      | cons a between =>
        obtain ⟨rfl, rfl⟩ := List.cons.inj rest
        obtain ⟨front, tail, rfl, -, tailed⟩ := filter_eq_append_iff.mp ahead
        obtain ⟨skipped, back, rfl, plain, other, backed⟩ := filter_eq_cons_iff.mp tailed
        refine .inr (.inr ⟨front ++ skipped, o, back, by simp, by simpa using other, level, ?_⟩)
        intro a among plain
        refine lighter a (mem_append_left _ ?_)
        rw [← backed]
        exact mem_filter.mpr ⟨among, by simp [plain]⟩
  · cases other : own x with
    | false => exact .inl ⟨x, by simp, other, last' m (by simp)⟩
    | true => exact absurd (last' m (by simp)) (not_lt.mpr (first x (by simp) other))

theorem givesWay_of_lighter (lighter : ∀ m ∈ list, own m = true → ∃ o ∈ list, own o = false ∧ weight m < weight o) :
    GivesWay weight own state list := by
  rintro before m after rfl mine - -
  obtain ⟨o, among, other, heavy⟩ := lighter m (by simp) mine
  rcases mem_append.mp among with first | rest
  · exact .inl ⟨o, first, other, heavy⟩
  · rcases mem_cons.mp rest with rfl | later
    · exact absurd heavy (lt_irrefl _)
    · exact .inr (.inl ⟨o, later, other, heavy.le⟩)

end Besra.LastMax
