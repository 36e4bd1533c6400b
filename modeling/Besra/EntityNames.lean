import Besra.CharacterReference

/-!
The names of character references.  The dictionary ends every name with a terminator, which comes first below the last
character of the name: that is where the search looks for it.
-/

namespace Besra.CharacterReference
open List

open TernaryTree (Word word_cons_iff find_ordered not_word_nil not_word_empty)

instance strictOrder : IsStrictOrder UInt8 (· < ·) where
  irrefl := UInt8.lt_irrefl
  trans _ _ _ := UInt8.lt_trans

/-- A terminator has nothing below it and all other nodes have, only terminators have a value, and they come first. -/
def Terminated : Dict → Prop
  | .nil => True
  | .node split lt eq gt value =>
    (if split = 0x00 then eq = .nil ∧ value ≠ 0
      else eq ≠ .nil ∧ value = 0 ∧ (0x00 ∈ eq.heads → splitOf eq = some 0x00)) ∧
    Terminated lt ∧ Terminated eq ∧ Terminated gt

def isLetter (c : UInt8) : Bool := (0x41 ≤ c ∧ c ≤ 0x5A) ∨ (0x61 ≤ c ∧ c ≤ 0x7A)

structure Searchable (t : Dict) : Prop where
  ordered : t.Ordered
  terminated : Terminated t
  ascii : ∀ w x, Word t w x → ∀ c ∈ w, c ≤ 0x7F

/-- What is known of the generated dictionary: it is searchable and its names begin with letters. -/
structure Generated (dict : Dict) : Prop extends Searchable dict where
  letters : ∀ c ∈ dict.heads, isLetter c

/-- A name of the dictionary, or the rest of one, and its code point. -/
def Name (t : Dict) (w : List UInt8) (x : UInt32) : Prop := Word t (w ++ [0x00]) x

variable {c : UInt8} {y x : UInt32} {e t dict context : Dict} {w : List UInt8}

theorem find_terminated (terminated : Terminated t) (found : t.find c = some (e, y)) :
    (if c = 0x00 then e = .nil ∧ y ≠ 0
      else e ≠ .nil ∧ y = 0 ∧ (0x00 ∈ e.heads → splitOf e = some 0x00)) ∧ Terminated e := by
  induction t with
  | nil => cases found
  | node split lt eq gt value ihLt _ ihGt =>
    obtain ⟨here, below, inside, above⟩ := terminated
    rw [TernaryTree.find] at found
    split_ifs at found with less equal
    · exact ihLt below found
    · cases found
      rw [equal]
      exact ⟨here, inside⟩
    · exact ihGt above found

theorem find_searchable (searchable : Searchable t) (found : t.find c = some (e, y)) : Searchable e where
  ordered := find_ordered searchable.ordered found
  terminated := (find_terminated searchable.terminated found).2
  ascii w x word d member := by
    have whole := (word_cons_iff searchable.ordered c w x).mpr ⟨e, y, found, Or.inr word⟩
    exact searchable.ascii _ x whole d (by simp [member])

theorem name_cons_iff (searchable : Searchable t) (c : UInt8) (w : List UInt8) (x : UInt32) :
    Name t (c :: w) x ↔ ∃ e y, t.find c = some (e, y) ∧ Name e w x := by
  unfold Name
  rw [cons_append, word_cons_iff searchable.ordered]
  simp

theorem name_nil_iff (searchable : Searchable t) (x : UInt32) : Name t [] x ↔ t.find 0x00 = some (.nil, x) := by
  unfold Name
  rw [nil_append, word_cons_iff searchable.ordered]
  constructor
  · rintro ⟨e, y, found, ⟨rfl, -, rfl⟩ | below⟩
    · exact found
    · exact absurd below not_word_empty
  · intro found
    exact ⟨.nil, x, found, Or.inl ⟨rfl, rfl, rfl⟩⟩

theorem name_head_ne (searchable : Searchable t) (name : Name t (c :: w) x) : c ≠ 0x00 := by
  rintro rfl
  obtain ⟨e, y, found, rest⟩ := (name_cons_iff searchable 0x00 w x).mp name
  have node := (find_terminated searchable.terminated found).1
  rw [if_pos rfl] at node
  rw [node.1] at rest
  exact not_word_nil rest

theorem nul_not_mem (searchable : Searchable t) (name : Name t w x) : 0x00 ∉ w := by
  induction w generalizing t with
  | nil => simp
  | cons c w ih =>
    obtain ⟨e, y, found, rest⟩ := (name_cons_iff searchable c w x).mp name
    rw [mem_cons, not_or]
    exact ⟨(name_head_ne searchable name).symm, ih (find_searchable searchable found) rest⟩

theorem name_here (searchable : Searchable e) (first : 0x00 ∈ e.heads → splitOf e = some 0x00) (x : UInt32) :
    Name e [] x ↔ splitOf e = some 0x00 ∧ valueOf e = x := by
  rw [name_nil_iff searchable]
  cases e with
  | nil => simp [TernaryTree.find, splitOf]
  | node split lt eq gt value =>
    constructor
    · intro found
      have here : (0x00 : UInt8) ∈ (TernaryTree.node split lt eq gt value).heads := by
        rw [← TernaryTree.find_isSome searchable.ordered, found]
        rfl
      have root := first here
      have zero : split = 0x00 := by simpa [splitOf] using root
      rw [TernaryTree.find, zero, if_neg (UInt8.lt_irrefl 0), if_pos rfl] at found
      cases found
      exact ⟨root, rfl⟩
    · rintro ⟨root, rfl⟩
      have zero : split = 0x00 := by simpa [splitOf] using root
      have terminator := searchable.terminated.1
      rw [if_pos zero] at terminator
      rw [TernaryTree.find, zero, if_neg (UInt8.lt_irrefl 0), if_pos rfl, terminator.1]
      rfl

/-- The loop over a text: what has been read, and the length and the code point of the last match. -/
def names (dict : Dict) : Dict → List UInt8 → ℕ → ℕ × UInt32 → ℕ × UInt32
  | _, [], _, best => best
  | context, c :: s, read, best =>
    if 0x7F < c then best
    else
      match searchStep dict c context with
      | (.ok, cp, context) => names dict context s (read + 1) (read + 1, cp)
      | (.invalid, _, _) => best
      | (.needdata, _, context) => names dict context s (read + 1) best

/-- A name of some length that the text begins with, and none is longer. -/
def Longest (t : Dict) (s w : List UInt8) (x : UInt32) : Prop :=
  Name t w x ∧ w <+: s ∧ ∀ w' x', Name t w' x' → w' <+: s → w'.length ≤ w.length

def Trapped (t : Dict) (s : List UInt8) : Prop := ∃ u r x, s = u ++ 0x00 :: r ∧ Name t u x

def Searches (dict context t : Dict) : Prop := (if context = .nil then dict else context) = t

theorem searches_self (some_tree : t ≠ .nil) : Searches dict t t := if_neg some_tree

theorem searchStep_found (searches : Searches dict context t) (searchable : Searchable t) (char : c ≠ 0x00)
    (found : t.find c = some (e, y)) :
    searchStep dict c context =
      if splitOf e = some 0x00 then (.ok, valueOf e, e) else (.needdata, 0xFFFD, e) := by
  have node := (find_terminated searchable.terminated found).1
  rw [if_neg char] at node
  have search : (if context = .nil then dict else context).find c = some (e, y) := by
    rw [searches]
    exact found
  unfold searchStep
  simp [search, char, node.1, node.2.1]

theorem searchStep_none (searches : Searches dict context t) (none_found : t.find c = none) :
    searchStep dict c context = (.invalid, 0xFFFD, .nil) := by
  have search : (if context = .nil then dict else context).find c = none := by
    rw [searches]
    exact none_found
  unfold searchStep
  simp [search]

theorem searchStep_nul (searches : Searches dict context t) (searchable : Searchable t) (name : Name t [] x) :
    searchStep dict 0x00 context = (.ok, 0xFFFD, .nil) := by
  have search : (if context = .nil then dict else context).find 0x00 = some (.nil, x) := by
    rw [searches]
    exact (name_nil_iff searchable x).mp name
  unfold searchStep
  simp [search]

def Keeps (t : Dict) (s : List UInt8) (read : ℕ) (best result : ℕ × UInt32) : Prop :=
  (∃ w x, w ≠ [] ∧ Longest t s w x ∧ result = (read + w.length, x)) ∨
    (∀ w x, w ≠ [] → Name t w x → ¬w <+: s) ∧ result = best

theorem Keeps.of_none {s : List UInt8} {read : ℕ} {best : ℕ × UInt32} (none_begins : ∀ w x, ¬Name t (c :: w) x) :
    Keeps t (c :: s) read best best := by
  refine Or.inr ⟨?_, rfl⟩
  intro w x some_name name begins
  obtain ⟨d, w', rfl⟩ := exists_cons_of_ne_nil some_name
  obtain ⟨rfl, -⟩ := cons_prefix_cons.mp begins
  exact none_begins w' x name

theorem Keeps.cons {t e : Dict} {s : List UInt8} {c : UInt8} {y : UInt32} {read : ℕ} {best result : ℕ × UInt32}
    (searchable : Searchable t) (found : t.find c = some (e, y))
    (keeps : Keeps e s (read + 1) (if splitOf e = some 0x00 then (read + 1, valueOf e) else best) result)
    (here : ∀ x, Name e [] x ↔ splitOf e = some 0x00 ∧ valueOf e = x) : Keeps t (c :: s) read best result := by
  have below (w : List UInt8) (x : UInt32) : Name t (c :: w) x ↔ Name e w x := by
    rw [name_cons_iff searchable]
    simp [found]
  have split (w' : List UInt8) (x : UInt32) (some_name : w' ≠ []) (name : Name t w' x) (begins : w' <+: c :: s) :
      ∃ w, w' = c :: w ∧ Name e w x ∧ w <+: s := by
    obtain ⟨d, w, rfl⟩ := exists_cons_of_ne_nil some_name
    obtain ⟨rfl, later⟩ := cons_prefix_cons.mp begins
    exact ⟨w, rfl, (below w x).mp name, later⟩
  rcases keeps with ⟨w, x, some_name, ⟨name, begins, most⟩, rfl⟩ | ⟨none_longer, rfl⟩
  · refine Or.inl ⟨c :: w, x, by simp, ⟨(below w x).mpr name, cons_prefix_cons.mpr ⟨rfl, begins⟩, ?_⟩, ?_⟩
    · intro w' x' name' begins'
      by_cases empty : w' = []
      · simp [empty]
      · obtain ⟨w'', rfl, rest, later⟩ := split w' x' empty name' begins'
        have := most w'' x' rest later
        simpa using this
    · rw [length_cons]
      congr 1
      omega
  · by_cases ends : splitOf e = some 0x00
    · rw [if_pos ends]
      have one : Name e [] (valueOf e) := (here _).mpr ⟨ends, rfl⟩
      refine Or.inl ⟨[c], valueOf e, by simp, ⟨(below [] _).mpr one, by simp, ?_⟩, rfl⟩
      intro w' x' name' begins'
      by_cases empty : w' = []
      · simp [empty]
      · obtain ⟨w'', rfl, rest, later⟩ := split w' x' empty name' begins'
        by_cases short : w'' = []
        · simp [short]
        · exact absurd later (none_longer w'' x' short rest)
    · rw [if_neg ends]
      refine Or.inr ⟨?_, rfl⟩
      intro w' x' some_name name' begins'
      obtain ⟨w'', rfl, rest, later⟩ := split w' x' some_name name' begins'
      by_cases short : w'' = []
      · exact ends ((here x').mp (short ▸ rest)).1
      · exact none_longer w'' x' short rest later

theorem names_spec (s : List UInt8) (searches : Searches dict context t) (searchable : Searchable t)
    (free : ¬Trapped t s) (read : ℕ) (best : ℕ × UInt32) : Keeps t s read best (names dict context s read best) := by
  induction s generalizing context t read best with
  | nil =>
    refine Or.inr ⟨?_, rfl⟩
    intro w x some_name _ begins
    exact some_name (prefix_nil.mp begins)
  | cons c s ih =>
    rw [names]
    split_ifs with wide
    · apply Keeps.of_none
      intro w x name
      exact absurd (searchable.ascii _ x name c (by simp)) (UInt8.not_le.mpr wide)
    · cases found : t.find c with
      | none =>
        rw [searchStep_none searches found]
        apply Keeps.of_none
        intro w x name
        obtain ⟨e, y, found', -⟩ := (name_cons_iff searchable c w x).mp name
        rw [found] at found'
        cases found'
      | some below =>
        obtain ⟨e, y⟩ := below
        have node := (find_terminated searchable.terminated found).1
        by_cases char : c = 0x00
        · -- the terminator, so that a name ends here
          rw [if_pos char] at node
          rw [char, node.1] at found
          exact absurd ⟨[], s, y, by simp [char], (name_nil_iff searchable y).mpr found⟩ free
        · rw [if_neg char] at node
          have searchable' := find_searchable searchable found
          have here := name_here searchable' node.2.2
          have free' : ¬Trapped e s := by
            rintro ⟨u, r, x, rfl, name⟩
            exact free ⟨c :: u, r, x, rfl, (name_cons_iff searchable c u x).mpr ⟨e, y, found, name⟩⟩
          rw [searchStep_found searches searchable char found]
          refine Keeps.cons searchable found ?_ here
          split_ifs with ends
          · exact ih (searches_self node.1) searchable' free' (read + 1) _
          · exact ih (searches_self node.1) searchable' free' (read + 1) best

theorem best_le_names (dict context : Dict) (s : List UInt8) {read : ℕ} {best : ℕ × UInt32} (behind : best.1 ≤ read) :
    best.1 ≤ (names dict context s read best).1 := by
  induction s generalizing context read best with
  | nil => exact le_refl _
  | cons c s ih =>
    rw [names]
    split_ifs
    · exact le_refl _
    · rcases searchStep dict c context with ⟨_ | _ | _, cp, context'⟩
      · have longer := @ih context' (read + 1) (read + 1, cp) (le_refl _)
        dsimp only at longer ⊢
        omega
      · exact ih context' (by omega)
      · exact le_refl _

theorem names_passed (u r : List UInt8) (searches : Searches dict context t) (searchable : Searchable t)
    (name : Name t u x) (read : ℕ) (best : ℕ × UInt32) :
    read + u.length + 1 ≤ (names dict context (u ++ 0x00 :: r) read best).1 := by
  induction u generalizing context t read best with
  | nil =>
    rw [nil_append, names, if_neg (by decide), searchStep_nul searches searchable name]
    exact @best_le_names dict .nil r (read + 1) (read + 1, 0xFFFD) (le_refl _)
  | cons c u ih =>
    obtain ⟨e, y, found, rest⟩ := (name_cons_iff searchable c u x).mp name
    have node := (find_terminated searchable.terminated found).1
    have char := name_head_ne searchable name
    rw [if_neg char] at node
    have narrow : ¬0x7F < c := UInt8.not_lt.mpr (searchable.ascii _ x name c (by simp))
    rw [cons_append, names, if_neg narrow, searchStep_found searches searchable char found, length_cons]
    have later (best : ℕ × UInt32) := ih (searches_self node.1) (find_searchable searchable found) rest (read + 1) best
    split_ifs
    · have := later (read + 1, valueOf e)
      dsimp only
      omega
    · have := later best
      dsimp only
      omega

end Besra.CharacterReference
