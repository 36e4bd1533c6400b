import Besra.SelectorParse

/-!
The specificity of selectors. The selector parser adds up the weights of a chain's parts in 32 bits
(`parseSelector_packed`), with eight of them for each of the lower counts; the order of CSS compares the counts
of ids, of classes and of elements one after the other.
-/
namespace Besra.Specificity
open Lwc Dom Cursor Besra.Lex Selector Nth SelectorParse Parser

/-- The counts of CSS, in which what is in `:not()` counts as it would outside, and apart from them that of the
`:not(*)`. -/
@[ext] structure Tally where
  ids : Nat
  classes : Nat
  elements : Nat
  stars : Nat
deriving DecidableEq

def isId (d : Detail) : Bool := d.type == .id

def isClass (d : Detail) : Bool :=
  match d.type with
  | .cls | .pseudoClass | .attribute | .attributeValue _ => true
  | _ => false

def isElement (d : Detail) : Bool :=
  d.type == .pseudoElement || d.type == .element && !isEqual d.qname.name universal

def isStar (d : Detail) : Bool := d.type == .element && isEqual d.qname.name universal

def nameElements (qname : Qname) : Nat := if isEqual qname.name universal then 0 else 1

def tallyOf (s : SimpleSelector) : Tally where
  ids := s.details.countP isId
  classes := s.details.countP isClass
  elements := nameElements s.qname + s.details.countP isElement
  stars := s.details.countP isStar

def Tally.add (s t : Tally) : Tally := ⟨s.ids + t.ids, s.classes + t.classes, s.elements + t.elements, s.stars + t.stars⟩

def tally : CssSelector → Tally
  | .last s => tallyOf s
  | .step s _ rest => (tallyOf s).add (tally rest)

/-- The order of specificity: the ids first, then the classes, then the elements. -/
def Tally.order (s t : Tally) : Ordering :=
  (compare s.ids t.ids).then ((compare s.classes t.classes).then (compare s.elements t.elements))

def Tally.weight (t : Tally) : Nat := 65536 * t.ids + 256 * t.classes + t.elements + t.stars

def Packed (s : SimpleSelector) : Prop := s.specificity = UInt32.ofNat (tallyOf s).weight

def PackedChain (s : CssSelector) : Prop := s.head.specificity = UInt32.ofNat (tally s).weight

theorem packed_create (qname : Qname) : Packed (selectorCreate false qname) := by
  obtain ⟨ns, name⟩ := qname
  have test : name.length ≠ 1 ∨ name.head? ≠ some (ch '*') ↔ name ≠ universal := by
    rw [← not_and_or, not_iff_not]
    constructor
    · rintro ⟨length, first⟩
      obtain ⟨c, rfl⟩ := List.length_eq_one_iff.mp length
      obtain rfl := Option.some.inj first
      rfl
    · rintro rfl
      exact ⟨rfl, rfl⟩
  by_cases star : name = universal
  · subst star
    rfl
  · have other : isEqual name universal = false := by simpa [isEqual] using star
    simp [Packed, selectorCreate, test, star, other, tallyOf, nameElements, Tally.weight, specificityD]

def weightOf : DetailType → Nat
  | .cls | .pseudoClass | .attribute | .attributeValue _ => 256
  | .id => 65536
  | .pseudoElement | .element => 1

theorem specificityOf_eq (type : DetailType) : specificityOf type = UInt32.ofNat (weightOf type) := by
  cases type <;> rfl

theorem weight_append (s : SimpleSelector) (d : Detail) :
    (tallyOf (selectorAppendSpecific s d)).weight = (tallyOf s).weight + weightOf d.type := by
  have counts : (tallyOf (selectorAppendSpecific s d)).weight = (tallyOf s).weight +
      (65536 * (if isId d then 1 else 0) + 256 * (if isClass d then 1 else 0) + (if isElement d then 1 else 0) +
        (if isStar d then 1 else 0)) := by
    simp only [tallyOf, selectorAppendSpecific, Tally.weight, List.countP_append, List.countP_singleton]
    omega
  rw [counts]
  congr 1
  obtain ⟨type, qname, string, a, b, negate⟩ := d
  cases type with
  | element => cases star : isEqual qname.name universal <;> simp [isId, isClass, isElement, isStar, star, weightOf]
  | _ => rfl

theorem packed_append {s : SimpleSelector} (packed : Packed s) (d : Detail) : Packed (selectorAppendSpecific s d) := by
  unfold Packed at packed ⊢
  rw [weight_append, UInt32.ofNat_add, ← packed, ← specificityOf_eq]
  rfl

theorem Tally.weight_add (s t : Tally) : (s.add t).weight = s.weight + t.weight := by
  simp only [Tally.add, Tally.weight]
  omega

variable {s : CssSelector} {ts rest : List Token} {n : Nat}

theorem packed_combine {comb : Combinator} {a : CssSelector} {b : SimpleSelector} (chain : PackedChain a)
    (packed : Packed b) (combined : selectorCombine comb a b = some s) : PackedChain s := by
  unfold selectorCombine at combined
  split at combined
  next => cases combined
  next =>
    obtain rfl := Option.some.inj combined
    unfold PackedChain at chain ⊢
    unfold Packed at packed
    rw [tally, Tally.weight_add, UInt32.ofNat_add, ← chain]
    exact congrArg (· + a.head.specificity) packed

theorem packed_specificsLoop (c : Language) {parent s : SimpleSelector} (packed : Packed parent)
    (run : (specificsLoop c n parent).run ts = (.ok s, rest)) : Packed s := by
  induction n generalizing parent ts with
  | zero => cases run
  | succ n ih =>
    rw [specificsLoop, bind_peek] at run
    split at run
    next =>
      cases run
      exact packed
    next token _ =>
      split at run
      next =>
        cases run
        exact packed
      next =>
        obtain ⟨parent', middle, appended, run⟩ := bind_eq_ok.mp run
        obtain ⟨d, left, -, same⟩ := bind_eq_ok.mp appended
        cases same
        exact ih (packed_append packed d) run

theorem packed_simple (c : Language) {s : SimpleSelector} (run : (parseSimpleSelector c).run ts = (.ok s, rest)) :
    Packed s := by
  rw [parseSimpleSelector, bind_peek] at run
  split at run
  next => cases run
  next token _ =>
    split at run
    next =>
      obtain ⟨qname, middle, -, run⟩ := bind_eq_ok.mp run
      rw [parseSelectorSpecifics, looking_run] at run
      exact packed_specificsLoop c (packed_create qname) run
    next =>
      obtain ⟨parent, middle, appended, run⟩ := bind_eq_ok.mp run
      obtain ⟨d, left, -, same⟩ := bind_eq_ok.mp appended
      cases same
      rw [parseSelectorSpecifics, looking_run] at run
      exact packed_specificsLoop c (packed_append (packed_create _) d) run

theorem packed_selectorLoop (c : Language) {selector : CssSelector} (packed : PackedChain selector)
    (run : (selectorLoop c n selector).run ts = (.ok s, rest)) : PackedChain s := by
  induction n generalizing selector ts with
  | zero => cases run
  | succ n ih =>
    rw [selectorLoop, bind_peek] at run
    split at run
    next =>
      cases run
      exact packed
    next token _ =>
      split at run
      next =>
        cases run
        exact packed
      next =>
        obtain ⟨comb, middle, -, run⟩ := bind_eq_ok.mp run
        rw [bind_peek] at run
        split at run
        next => exact ih packed run
        next =>
          obtain ⟨other, left, simple, run⟩ := bind_eq_ok.mp run
          split at run
          next => cases run
          next selector' combined => exact ih (packed_combine packed (packed_simple c simple) combined) run

theorem parseSelector_packed (c : Language) (run : (parseSelector c).run ts = (.ok s, rest)) : PackedChain s := by
  obtain ⟨simple, middle, first, run⟩ := bind_eq_ok.mp run
  have packed : PackedChain (.last simple) := packed_simple c first
  rw [looking_run] at run
  exact packed_selectorLoop c packed run

def Ahead (s t : Tally) : Prop :=
  t.ids < s.ids ∨ t.ids = s.ids ∧ (t.classes < s.classes ∨ t.classes = s.classes ∧ t.elements < s.elements)

def Tally.wraps (t : Tally) : Nat := (65536 * t.ids + 256 * t.classes + t.elements + t.stars) / 2 ^ 32

/-- What the second chain has more of in the lower counts, and what the first loses past 32 bits, weighs less than the
ids by which the first is ahead. -/
def StaysAhead (s t : Tally) : Prop :=
  256 * ((t.classes : Int) - s.classes) + ((t.elements + t.stars : Int) - (s.elements + s.stars)) +
      2 ^ 32 * ((s.wraps : Int) - t.wraps) < 65536 * ((s.ids : Int) - t.ids)

/-- The chain that is ahead stays ahead, and with the same counts there are as many `:not(*)` but for multiples
of 2^32. -/
def InOrder (s t : Tally) : Prop :=
  (Ahead s t → StaysAhead s t) ∧ (Ahead t s → StaysAhead t s) ∧
    (¬ Ahead s t → ¬ Ahead t s → s.stars % 2 ^ 32 = t.stars % 2 ^ 32)

theorem order_cases (s t : Tally) :
    Ahead s t ∧ s.order t = .gt ∨ Ahead t s ∧ s.order t = .lt ∨ ¬ Ahead s t ∧ ¬ Ahead t s ∧ s.order t = .eq := by
  unfold Ahead Tally.order
  rcases Nat.lt_trichotomy s.ids t.ids with ids | ids | ids
  · rw [Nat.compare_eq_lt.mpr ids]
    exact .inr (.inl ⟨.inl ids, rfl⟩)
  · rw [Nat.compare_eq_eq.mpr ids, Ordering.eq_then]
    rcases Nat.lt_trichotomy s.classes t.classes with classes | classes | classes
    · rw [Nat.compare_eq_lt.mpr classes]
      exact .inr (.inl ⟨.inr ⟨ids, .inl classes⟩, rfl⟩)
    · rw [Nat.compare_eq_eq.mpr classes, Ordering.eq_then]
      rcases Nat.lt_trichotomy s.elements t.elements with elements | elements | elements
      · exact .inr (.inl ⟨.inr ⟨ids, .inr ⟨classes, elements⟩⟩, Nat.compare_eq_lt.mpr elements⟩)
      · exact .inr (.inr ⟨by omega, by omega, Nat.compare_eq_eq.mpr elements⟩)
      · exact .inl ⟨.inr ⟨ids.symm, .inr ⟨classes.symm, elements⟩⟩, Nat.compare_eq_gt.mpr elements⟩
    · rw [Nat.compare_eq_gt.mpr classes]
      exact .inl ⟨.inr ⟨ids.symm, .inl classes⟩, rfl⟩
  · rw [Nat.compare_eq_gt.mpr ids]
    exact .inl ⟨.inl ids, rfl⟩

theorem Ahead.asymm {s t : Tally} (ahead : Ahead s t) : ¬ Ahead t s := by
  unfold Ahead at ahead ⊢
  omega

theorem staysAhead_iff (s t : Tally) : StaysAhead s t ↔ t.weight % 2 ^ 32 < s.weight % 2 ^ 32 := by
  unfold StaysAhead Tally.weight Tally.wraps
  omega

theorem stars_iff {s t : Tally} (level : ¬ Ahead s t) (level' : ¬ Ahead t s) :
    s.stars % 2 ^ 32 = t.stars % 2 ^ 32 ↔ s.weight % 2 ^ 32 = t.weight % 2 ^ 32 := by
  unfold Ahead at level level'
  obtain ⟨ids, classes, elements⟩ : s.ids = t.ids ∧ s.classes = t.classes ∧ s.elements = t.elements := by omega
  unfold Tally.weight
  omega

theorem compare_weight_iff (s t : Tally) :
    compare (s.weight % 2 ^ 32) (t.weight % 2 ^ 32) = s.order t ↔ InOrder s t := by
  unfold InOrder
  rw [staysAhead_iff, staysAhead_iff]
  obtain ⟨ahead, order⟩ | ⟨ahead, order⟩ | ⟨level, level', order⟩ := order_cases s t
  · rw [order, Nat.compare_eq_gt]
    simp [ahead, ahead.asymm]
  · rw [order, Nat.compare_eq_lt]
    simp [ahead, ahead.asymm]
  · rw [order, Nat.compare_eq_eq, ← stars_iff level level']
    simp [level, level']

def Tally.Small (t : Tally) : Prop := t.ids < 65536 ∧ t.classes < 256 ∧ t.elements < 256 ∧ t.stars = 0

theorem inOrder_of_small {s t : Tally} (small : s.Small) (small' : t.Small) : InOrder s t := by
  unfold Tally.Small at small small'
  unfold InOrder StaysAhead Tally.wraps Ahead
  omega

/-- The specificities of two chains compare as their counts do just where the chain that is ahead stays ahead. -/
theorem specificity_order_iff (c c' : Language) {t : CssSelector} {us rest' : List Token}
    (run : (parseSelector c).run ts = (.ok s, rest)) (run' : (parseSelector c').run us = (.ok t, rest')) :
    compare s.head.specificity.toNat t.head.specificity.toNat = (tally s).order (tally t) ↔
      InOrder (tally s) (tally t) := by
  rw [parseSelector_packed c run, parseSelector_packed c' run', UInt32.toNat_ofNat', UInt32.toNat_ofNat']
  exact compare_weight_iff _ _

/-- A language context without namespaces. -/
def plain : SelectorParse.Language := ⟨[], none⟩

/-- An id is ahead of a class. -/
theorem id_class_order :
    ∃ s t, (parseSelector plain).run [⟨.hash, lit "a"⟩] = (.ok s, []) ∧
      (parseSelector plain).run [⟨.char, lit "."⟩, ⟨.ident, lit "a"⟩] = (.ok t, []) ∧
      (compare s.head.specificity.toNat t.head.specificity.toNat = (tally s).order (tally t) ↔
        InOrder (tally s) (tally t)) :=
  ⟨_, _, rfl, rfl, specificity_order_iff plain plain
    (show (parseSelector plain).run [⟨.hash, lit "a"⟩] = _ from rfl)
    (show (parseSelector plain).run [⟨.char, lit "."⟩, ⟨.ident, lit "a"⟩] = _ from rfl)⟩

def dotted : Nat → List Token
  | 0 => []
  | n + 1 => ⟨.char, lit "."⟩ :: ⟨.ident, lit "a"⟩ :: dotted n

def Tally.addClasses (t : Tally) (n : Nat) : Tally := { t with classes := t.classes + n }

theorem append_dotted (parent : SimpleSelector) (n : Nat) :
    ∃ s, (parseAppendSpecific plain parent).run (dotted (n + 1)) = (.ok s, dotted n) ∧
      tallyOf s = (tallyOf parent).addClasses 1 := by
  refine ⟨_, rfl, ?_⟩
  simp [tallyOf, selectorAppendSpecific, List.countP_append, isId, isClass, isElement, isStar, Tally.addClasses]

theorem specificsLoop_dotted (parent : SimpleSelector) {k : Nat} (enough : n < k) :
    ∃ s, (specificsLoop plain k parent).run (dotted n) = (.ok s, []) ∧ tallyOf s = (tallyOf parent).addClasses n := by
  induction n generalizing parent k with
  | zero =>
    obtain ⟨k, rfl⟩ := Nat.exists_eq_add_of_le' enough
    exact ⟨parent, rfl, rfl⟩
  | succ n ih =>
    obtain ⟨k, rfl⟩ := Nat.exists_eq_add_of_le' (Nat.one_le_of_lt enough)
    obtain ⟨parent', appended, counts⟩ := append_dotted parent n
    obtain ⟨s, run, counts'⟩ := ih parent' (by omega : n < k)
    refine ⟨s, ?_, ?_⟩
    · have first : (specificsLoop plain (k + 1) parent).run (dotted (n + 1)) =
          (parseAppendSpecific plain parent >>= specificsLoop plain k).run (dotted (n + 1)) := rfl
      rw [first, bind_ok appended, run]
    · rw [counts', counts, Tally.addClasses, Tally.addClasses, Tally.addClasses, Nat.add_assoc, Nat.add_comm 1]

theorem length_dotted (n : Nat) : n ≤ (dotted n).length := by
  induction n with
  | zero => exact Nat.zero_le _
  | succ n ih =>
    simp only [dotted, List.length_cons]
    omega

theorem parseSelector_dotted (some : n ≠ 0) :
    ∃ s, (parseSelector plain).run (dotted n) = (.ok s, []) ∧ tally s = ⟨0, n, 0, 0⟩ := by
  obtain ⟨n, rfl⟩ := Nat.exists_eq_succ_of_ne_zero some
  obtain ⟨parent, appended, counts⟩ := append_dotted (selectorCreate false ⟨namespaceOf plain, universal⟩) n
  obtain ⟨s, run, counts'⟩ := specificsLoop_dotted parent (Nat.lt_succ_of_le (length_dotted n))
  have simple : (parseSimpleSelector plain).run (dotted (n + 1)) = (.ok s, []) := by
    have first : (parseSimpleSelector plain).run (dotted (n + 1)) =
        (parseAppendSpecific plain (selectorCreate false ⟨namespaceOf plain, universal⟩) >>=
          parseSelectorSpecifics plain).run (dotted (n + 1)) := rfl
    rw [first, bind_ok appended, parseSelectorSpecifics, looking_run, run]
  refine ⟨.last s, ?_, ?_⟩
  · rw [parseSelector, bind_ok simple]
    rfl
  · rw [tally, counts', counts]
    simp [tallyOf, selectorCreate, nameElements, isEqual, Tally.addClasses, Nat.add_comm]

/-- As many as 256 classes count like an id, and `:not(*)` counts. -/
theorem order_broken :
    (∃ s t, (parseSelector plain).run (dotted 256) = (.ok s, []) ∧
      (parseSelector plain).run [⟨.hash, lit "a"⟩] = (.ok t, []) ∧
      compare s.head.specificity.toNat t.head.specificity.toNat ≠ (tally s).order (tally t)) ∧
    ∃ s t, (parseSelector plain).run
        [⟨.char, lit ":"⟩, ⟨.function, lit "not"⟩, ⟨.char, lit "*"⟩, ⟨.char, lit ")"⟩] = (.ok s, []) ∧
      (parseSelector plain).run [⟨.char, lit "*"⟩] = (.ok t, []) ∧
      compare s.head.specificity.toNat t.head.specificity.toNat ≠ (tally s).order (tally t) := by
  constructor
  · obtain ⟨s, run, counts⟩ := parseSelector_dotted (n := 256) (by decide)
    obtain ⟨t, run', counts'⟩ : ∃ t, (parseSelector plain).run [⟨.hash, lit "a"⟩] = (.ok t, []) ∧
        tally t = ⟨1, 0, 0, 0⟩ := ⟨_, rfl, rfl⟩
    refine ⟨s, t, run, run', ?_⟩
    have same : (tally s).weight = (tally t).weight := by rw [counts, counts']; rfl
    rw [parseSelector_packed plain run, parseSelector_packed plain run', same, Nat.compare_eq_eq.mpr rfl, counts, counts']
    decide
  · exact ⟨_, _, rfl, rfl, by decide⟩

end Besra.Specificity
