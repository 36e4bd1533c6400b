import Mathlib.Data.List.Basic
import Besra.Forest

/-!
Trees of texts and other nodes, and what the normalization of `libdom` makes of them: it joins each text with those
right behind it, and goes down into every child but the first.
-/
namespace Besra.AdjacentText

/-- A node, with its text if it is one. -/
structure Item where
  ptr : Nat
  text : Option (List UInt8) := none
deriving DecidableEq

namespace Item

def both (v w : Item) : Bool := v.text.isSome && w.text.isSome

def join (v w : Item) : Item := { v with text := some (v.text.getD [] ++ w.text.getD []) }

def pieces (v : Item) : List (UInt8 ⊕ Nat) :=
  match v.text with
  | some text => text.map .inl
  | none => [.inr v.ptr]

end Item

def ptrs : Forest Item → List Nat
  | .null => []
  | .node v cs next => v.ptr :: ptrs cs ++ ptrs next

def firstText : Forest Item → Bool
  | .null => false
  | .node v _ _ => v.text.isSome

def Childless : Forest Item → Prop
  | .null => True
  | .node v cs next => (v.text.isSome = true → cs = .null) ∧ Childless cs ∧ Childless next

/-- No two texts are adjacent, on any level. -/
def Separate : Forest Item → Prop
  | .null => True
  | .node v cs next => ¬(v.text.isSome = true ∧ firstText next = true) ∧ Separate cs ∧ Separate next

/-- The texts of siblings joined together, and the other nodes in between. -/
def stream : Forest Item → List (UInt8 ⊕ Nat)
  | .null => []
  | .node v _ next => v.pieces ++ stream next

/-- Each node but the texts, with what its children are. -/
def content : Forest Item → List (Nat × List (UInt8 ⊕ Nat))
  | .null => []
  | .node v cs next => (if v.text.isSome then [] else (v.ptr, stream cs) :: content cs) ++ content next

mutual
def normal : Forest Item → Forest Item
  | .null => .null
  | .node v cs next => normalFrom v cs next

def normalFrom (v : Item) (cs : Forest Item) : Forest Item → Forest Item
  | .null => .node v cs .null
  | .node w ds next =>
    if v.both w then normalFrom (v.join w) cs next
    else .node v cs (normalFrom w (if w.text.isSome then ds else normal ds) next)
end

mutual
/-- No two texts are adjacent below a first child. -/
def FirstsSeparate : Forest Item → Prop
  | .null => True
  | .node _ cs next => Separate cs ∧ OthersSeparate next

def OthersSeparate : Forest Item → Prop
  | .null => True
  | .node _ ds next => FirstsSeparate ds ∧ OthersSeparate next
end

mutual
def Settled : Forest Item → Prop
  | .null => True
  | .node v _ next => SettledFrom v next

def SettledFrom (v : Item) : Forest Item → Prop
  | .null => True
  | .node w ds next => v.both w = false ∧ (w.text = none → Settled ds) ∧ SettledFrom w next
end

/-- An element with two texts in it stays as it is where it is the first child, and is normalized where it is not. -/
example : normal (.node ⟨1, none⟩ (.node ⟨2, some [1]⟩ .null (.node ⟨3, some [2]⟩ .null .null))
      (.node ⟨4, none⟩ (.node ⟨5, some [3]⟩ .null (.node ⟨6, some [4]⟩ .null .null)) .null)) =
    .node ⟨1, none⟩ (.node ⟨2, some [1]⟩ .null (.node ⟨3, some [2]⟩ .null .null))
      (.node ⟨4, none⟩ (.node ⟨5, some [3, 4]⟩ .null .null) .null) := by decide

theorem isSome_join (v w : Item) : (v.join w).text.isSome = true := rfl

theorem pieces_join {v w : Item} (both : v.both w = true) : (v.join w).pieces = v.pieces ++ w.pieces := by
  obtain ⟨p, _ | s⟩ := v
  · cases both
  · obtain ⟨q, _ | t⟩ := w
    · cases both
    · exact List.map_append

theorem firstText_normalFrom (v : Item) (cs next : Forest Item) : firstText (normalFrom v cs next) = v.text.isSome := by
  induction next generalizing v with
  | null => rfl
  | node w ds next _ ih =>
    rw [normalFrom]
    split
    next both =>
      rw [ih, isSome_join]
      rw [Item.both, Bool.and_eq_true] at both
      exact both.1.symm
    next => rfl

theorem content_normalFrom (t : Forest Item) (childless : Childless t) :
    (stream (normal t) = stream t ∧ content (normal t) = content t) ∧
      ∀ v cs, stream (normalFrom v cs t) = stream (.node v cs t) ∧ content (normalFrom v cs t) = content (.node v cs t) := by
  induction t with
  | null => exact ⟨⟨rfl, rfl⟩, fun v cs => ⟨rfl, rfl⟩⟩
  | node w ds next below later =>
    obtain ⟨lone, childless, childless'⟩ := childless
    obtain ⟨⟨sameStream, sameContent⟩, -⟩ := below childless
    obtain ⟨-, from'⟩ := later childless'
    refine ⟨from' w ds, fun v cs => ?_⟩
    rw [normalFrom]
    split
    next both =>
      obtain ⟨streams, contents⟩ := from' (v.join w) cs
      have texts := both
      rw [Item.both, Bool.and_eq_true] at texts
      rw [streams, contents]
      constructor
      · rw [stream, stream, stream, pieces_join both, List.append_assoc]
      · rw [content, content, content, isSome_join, texts.1, texts.2]
        rfl
    next apart =>
      obtain ⟨streams, contents⟩ := from' w (if w.text.isSome = true then ds else normal ds)
      constructor
      · rw [stream, streams]
        rfl
      · rw [content, contents, content, content, content]
        by_cases text : w.text.isSome = true
        · rw [if_pos text, if_pos text]
        · rw [if_neg text, if_neg text, if_neg text, sameStream, sameContent]

theorem content_normal {t : Forest Item} (childless : Childless t) :
    stream (normal t) = stream t ∧ content (normal t) = content t := (content_normalFrom t childless).1

theorem separate_normalFrom (t : Forest Item) (childless : Childless t) :
    (Separate (normal t) ↔ FirstsSeparate t) ∧
      ∀ v cs, Separate (normalFrom v cs t) ↔ Separate cs ∧ OthersSeparate t := by
  induction t with
  | null =>
    refine ⟨Iff.rfl, fun v cs => ?_⟩
    rw [normalFrom, Separate, firstText, Separate, OthersSeparate]
    simp
  | node w ds next below later =>
    obtain ⟨lone, childless, childless'⟩ := childless
    obtain ⟨separate, -⟩ := below childless
    obtain ⟨-, from'⟩ := later childless'
    refine ⟨from' w ds, fun v cs => ?_⟩
    rw [normalFrom, OthersSeparate]
    split
    next both =>
      rw [Item.both, Bool.and_eq_true] at both
      rw [from', lone both.2, FirstsSeparate, true_and]
    next apart =>
      rw [Separate, firstText_normalFrom, from']
      have adjacent : ¬(v.text.isSome = true ∧ w.text.isSome = true) := by
        rwa [Item.both, Bool.and_eq_true] at apart
      have inside : Separate (if w.text.isSome = true then ds else normal ds) ↔ FirstsSeparate ds := by
        by_cases text : w.text.isSome = true
        · rw [if_pos text, lone text, Separate, FirstsSeparate]
        · rw [if_neg text]
          exact separate
      rw [inside]
      exact ⟨fun ⟨_, own, rest⟩ => ⟨own, rest⟩, fun ⟨own, rest⟩ => ⟨adjacent, own, rest⟩⟩

theorem separate_normal {t : Forest Item} (childless : Childless t) : Separate (normal t) ↔ FirstsSeparate t :=
  (separate_normalFrom t childless).1

theorem settled_normalFrom (t : Forest Item) :
    Settled (normal t) ∧ (∀ v cs, Settled (normalFrom v cs t)) ∧
      ∀ u v cs, u.both v = false → (v.text = none → Settled cs) → SettledFrom u (normalFrom v cs t) := by
  induction t with
  | null => exact ⟨trivial, fun v cs => trivial, fun u v cs apart settled => ⟨apart, settled, trivial⟩⟩
  | node w ds next below later =>
    obtain ⟨-, first, from'⟩ := later
    have inside : w.text = none → Settled (if w.text.isSome = true then ds else normal ds) := by
      intro none'
      rw [none']
      exact below.1
    refine ⟨first w ds, fun v cs => ?_, fun u v cs apart settled => ?_⟩
    · rw [normalFrom]
      split
      · exact first (v.join w) cs
      next other => exact from' v w _ (Bool.eq_false_iff.mpr other) inside
    · rw [normalFrom]
      split
      next both =>
        apply from'
        · rw [Item.both, Bool.and_eq_true] at both
          rw [Item.both, both.1, Bool.and_true] at apart
          rw [Item.both, apart, Bool.false_and]
        · exact fun none' => nomatch none'
      next other => exact ⟨apart, settled, from' v w _ (Bool.eq_false_iff.mpr other) inside⟩

theorem settled_normal (t : Forest Item) : Settled (normal t) := (settled_normalFrom t).1

theorem ptrs_normalFrom (t : Forest Item) :
    (ptrs (normal t)).Sublist (ptrs t) ∧ ∀ v cs, (ptrs (normalFrom v cs t)).Sublist (ptrs (.node v cs t)) := by
  induction t with
  | null => exact ⟨.refl _, fun v cs => .refl _⟩
  | node w ds next below later =>
    refine ⟨later.2 w ds, fun v cs => ?_⟩
    rw [normalFrom]
    split
    · refine (later.2 (v.join w) cs).trans ?_
      exact (List.sublist_append_right (w.ptr :: ptrs ds) (ptrs next)).append_left (v.ptr :: ptrs cs)
    · rw [ptrs, ptrs]
      apply List.Sublist.cons_cons
      apply List.Sublist.append_left
      refine (later.2 w _).trans ?_
      rw [ptrs, ptrs]
      apply List.Sublist.cons_cons
      apply List.Sublist.append_right
      split
      · exact .refl _
      · exact below.1

theorem childless_normalFrom (t : Forest Item) (childless : Childless t) :
    Childless (normal t) ∧ ∀ v cs, (v.text.isSome = true → cs = .null) → Childless cs → Childless (normalFrom v cs t) := by
  induction t with
  | null => exact ⟨trivial, fun v cs lone own => ⟨lone, own, trivial⟩⟩
  | node w ds next below later =>
    obtain ⟨lone, childless, childless'⟩ := childless
    obtain ⟨-, from'⟩ := later childless'
    refine ⟨from' w ds lone childless, fun v cs alone own => ?_⟩
    rw [normalFrom]
    split
    next both =>
      rw [Item.both, Bool.and_eq_true] at both
      exact from' (v.join w) cs (fun _ => alone both.1) own
    next =>
      refine ⟨alone, own, from' w _ (fun text => ?_) ?_⟩
      · rw [if_pos text]
        exact lone text
      · split
        · exact childless
        · exact (below childless).1

end Besra.AdjacentText
