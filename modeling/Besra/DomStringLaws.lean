import Besra.DomString

/-!
The operations on dom strings against the list of their code points. All but `dom_string_rindex` do what they say on
strings of less than 4 GiB, if the string has neither U+FFFE nor U+FFFF, which the decoder takes for errors.
-/
namespace Besra.DomString
open Utf8 List

def CodePoint (c : UInt32) : Prop := c ≤ 0x10FFFF ∧ ¬(0xD800 ≤ c ∧ c ≤ 0xDFFF)

abbrev Scalar := { c : UInt32 // CodePoint c }

/-- The two noncharacters that the decoder refuses. -/
def Ordinary (c : Scalar) : Prop := c.1 ≠ 0xFFFE ∧ c.1 ≠ 0xFFFF

instance (c : Scalar) : Decidable (Ordinary c) := inferInstanceAs (Decidable (_ ∧ _))

def text (L : List Scalar) : List UInt8 := L.flatMap fun c => encoded c.1

@[simp] theorem text_nil : text [] = [] := rfl

@[simp] theorem text_cons (c : Scalar) (L : List Scalar) : text (c :: L) = encoded c.1 ++ text L := rfl

@[simp] theorem text_append (L M : List Scalar) : text (L ++ M) = text L ++ text M := flatMap_append

variable {c : Scalar} {n clen slen : ℕ} {s : List UInt8} {L : List Scalar} {i2 i1 offset : UInt32}

theorem character (ordinary : Ordinary c) : Character c.1 := by
  obtain ⟨⟨top, surrogate⟩, fffe, ffff⟩ := And.intro c.2 ordinary
  exact ⟨UInt32.le_trans top (by decide), surrogate, fffe, ffff⟩

theorem toUcs4_ordinary (ordinary : Ordinary c) (more : List UInt8) :
    toUcs4 (encoded c.1 ++ more) = .ok (c.1, (encoded c.1).length) :=
  (toUcs4_encoded (character ordinary)).2.2 more

theorem not_ordinary (special : ¬ Ordinary c) :
    ∃ last, encoded c.1 = [0xEF, 0xBF, last] ∧ (last = 0xBE ∨ last = 0xBF) := by
  by_cases fffe : c.1 = 0xFFFE
  · exact ⟨0xBE, by rw [fffe]; decide, .inl rfl⟩
  · by_cases ffff : c.1 = 0xFFFF
    · exact ⟨0xBF, by rw [ffff]; decide, .inr rfl⟩
    · exact absurd ⟨fffe, ffff⟩ special

theorem toUcs4_special (special : ¬ Ordinary c) (more : List UInt8) :
    toUcs4 (encoded c.1 ++ more) = .error .invalid := by
  obtain ⟨last, bytes, which⟩ := not_ordinary special
  have refused : toUcs4 [0xEF, 0xBF, last] = .error .invalid := by
    rcases which with rfl | rfl <;> rfl
  rw [bytes, toUcs4_append more (by rw [refused]; simp), refused]

theorem toUcs4_read {rest : List UInt8} {len : ℕ} {x : UInt32}
    (read : toUcs4 ((encoded c.1 ++ rest).take len) = .ok (x, n)) : x = c.1 ∧ n = (encoded c.1).length := by
  have whole := toUcs4_append ((encoded c.1 ++ rest).drop len) (by rw [read]; simp)
  rw [take_append_drop, read] at whole
  by_cases ordinary : Ordinary c
  · rw [toUcs4_ordinary ordinary] at whole
    cases whole
    exact ⟨rfl, rfl⟩
  · rw [toUcs4_special ordinary] at whole
    cases whole

theorem encoded_block (c : Scalar) : ∃ b later, encoded c.1 = b :: later ∧
    (∃ x least, start b = some (x, later.length + 1, least)) ∧ isContinuation b = false ∧
    numContinuations b = later.length ∧ ∀ t ∈ later, isContinuation t = true := by
  by_cases ordinary : Ordinary c
  · have read := toUcs4_ordinary ordinary []
    rw [append_nil] at read
    cases bytes : encoded c.1 with
    | nil =>
      rw [bytes] at read
      cases read
    | cons b later =>
      rw [bytes] at read
      obtain ⟨announced, -, continued⟩ := toUcs4_ok read
      rw [length_cons, Nat.add_right_cancel_iff] at announced
      rw [length_cons, Nat.add_sub_cancel, take_length] at continued
      cases found : start b with
      | none =>
        rw [toUcs4, found] at read
        cases read
      | some form =>
        obtain ⟨x, n, least⟩ := form
        obtain ⟨length, first, -⟩ := start_some found
        exact ⟨b, later, rfl, ⟨x, least, by rw [found, length, announced]⟩, first, announced.symm, continued⟩
  · obtain ⟨last, bytes, which⟩ := not_ordinary ordinary
    rcases which with rfl | rfl
    · exact ⟨0xEF, [0xBF, 0xBE], bytes, ⟨0xF, 0x800, by decide⟩, by decide, by decide,
        forall_iff_forall_mem.mp (by decide)⟩
    · exact ⟨0xEF, [0xBF, 0xBF], bytes, ⟨0xF, 0x800, by decide⟩, by decide, by decide,
        forall_iff_forall_mem.mp (by decide)⟩

theorem length_encoded_pos (c : Scalar) : 0 < (encoded c.1).length := by
  obtain ⟨b, later, bytes, -⟩ := encoded_block c
  simp [bytes]

theorem length_le_text (L : List Scalar) : L.length ≤ (text L).length := by
  induction L with
  | nil => simp
  | cons c L ih =>
    have := length_encoded_pos c
    simp only [text_cons, length_append, length_cons]
    omega

theorem utf8Length_text (L : List Scalar) {fuel : ℕ} (enough : (text L).length ≤ fuel) (l : UInt32) :
    utf8Length fuel (text L) l = some (l + UInt32.ofNat L.length) := by
  induction L generalizing fuel l with
  | nil => cases fuel <;> simp [utf8Length]
  | cons c L ih =>
    obtain ⟨b, later, bytes, ⟨x, least, found⟩, -⟩ := encoded_block c
    simp only [text_cons, bytes, cons_append, length_cons, length_append] at enough ⊢
    cases fuel with
    | zero => omega
    | succ fuel =>
      simp only [utf8Length, found, drop_succ_cons, drop_left]
      rw [ih (by omega), UInt32.ofNat_add, UInt32.add_assoc, UInt32.add_comm 1]
      rfl

theorem stringLength_text (L : List Scalar) : stringLength (text L) = UInt32.ofNat L.length := by
  rw [stringLength, utf8Length_text L (Nat.le_refl _)]
  simp

theorem ofNat_succ (k : ℕ) : UInt32.ofNat k + 1 = UInt32.ofNat (k + 1) := by
  rw [UInt32.ofNat_add]
  rfl

theorem atLoop_step (index i : UInt32) (c : Scalar) (rest : List UInt8) (fuel : ℕ) :
    atLoop index (fuel + 1) (encoded c.1 ++ rest) i =
      if i = index then some (index + 1, encoded c.1 ++ rest) else atLoop index fuel rest (i + 1) := by
  obtain ⟨b, later, bytes, -, -, announced, -⟩ := encoded_block c
  rw [bytes, cons_append, atLoop]
  by_cases here : i = index
  · rw [if_pos (by rw [here]), if_pos here, here]
  · rw [if_neg (by simpa using here), if_neg here, if_neg (by rw [announced, length_append]; omega), announced,
      drop_succ_cons, drop_left]

theorem ofNat_ne {k : ℕ} {index : UInt32} (fits : k < 2 ^ 32) (other : k ≠ index.toNat) : UInt32.ofNat k ≠ index := by
  rintro rfl
  rw [UInt32.toNat_ofNat', Nat.mod_eq_of_lt fits] at other
  exact other rfl

theorem atLoop_found {index : UInt32} (before : List Scalar) (c : Scalar) (after : List Scalar) {fuel k : ℕ}
    (enough : (text (before ++ c :: after)).length ≤ fuel) (here : k + before.length = index.toNat) :
    atLoop index fuel (text (before ++ c :: after)) (UInt32.ofNat k) = some (index + 1, text (c :: after)) := by
  have bound := index.toNat_lt
  induction before generalizing fuel k with
  | nil =>
    have some := length_encoded_pos c
    simp only [nil_append, text_cons, length_append] at enough ⊢
    have same : UInt32.ofNat k = index := by
      rw [show k = index.toNat from here, UInt32.ofNat_toNat]
    obtain ⟨fuel, rfl⟩ : ∃ more, fuel = more + 1 := ⟨fuel - 1, by omega⟩
    rw [atLoop_step, if_pos same]
  | cons d before ih =>
    have some := length_encoded_pos d
    simp only [cons_append, text_cons, length_append, length_cons] at enough here ⊢
    obtain ⟨fuel, rfl⟩ : ∃ more, fuel = more + 1 := ⟨fuel - 1, by omega⟩
    rw [atLoop_step, if_neg (ofNat_ne (by omega) (by omega)), ofNat_succ]
    exact ih (by omega) (by omega)

theorem atLoop_missed {index : UInt32} (L : List Scalar) {fuel k : ℕ} (enough : (text L).length ≤ fuel)
    (missed : k + L.length ≤ index.toNat) :
    atLoop index fuel (text L) (UInt32.ofNat k) = some (UInt32.ofNat (k + L.length), []) := by
  have bound := index.toNat_lt
  induction L generalizing fuel k with
  | nil => cases fuel <;> rfl
  | cons c L ih =>
    have some := length_encoded_pos c
    simp only [text_cons, length_append, length_cons] at enough missed ⊢
    obtain ⟨fuel, rfl⟩ : ∃ more, fuel = more + 1 := ⟨fuel - 1, by omega⟩
    rw [atLoop_step, if_neg (ofNat_ne (by omega) (by omega)), ofNat_succ, ih (by omega) (by omega),
      Nat.add_assoc, Nat.add_comm 1]

theorem stringAt_iff (L : List Scalar) (index : UInt32) :
    (stringAt (text L) index).map Except.toOption = some (L[index.toNat]?.map Subtype.val) ↔
      ∀ c, L[index.toNat]? = some c → Ordinary c := by
  rw [stringAt]
  by_cases inside : index.toNat < L.length
  · have split := take_append_drop index.toNat L
    rw [drop_eq_getElem_cons inside] at split
    have found := @atLoop_found index (L.take index.toNat) L[index.toNat] (L.drop (index.toNat + 1)) _ 0
      (Nat.le_refl _) (by rw [length_take]; omega)
    rw [split] at found
    rw [show (0 : UInt32) = UInt32.ofNat 0 from rfl, found, List.getElem?_eq_getElem inside]
    by_cases ordinary : Ordinary L[index.toNat]
    · simp only [Option.map_some, if_true, text_cons, toUcs4_ordinary ordinary, Except.toOption, true_iff]
      rintro c ⟨⟩
      exact ordinary
    · simp only [Option.map_some, if_true, text_cons, toUcs4_special ordinary, Except.toOption]
      simp [ordinary]
  · have missed := @atLoop_missed index L _ 0 (Nat.le_refl _) (by omega)
    rw [show (0 : UInt32) = UInt32.ofNat 0 from rfl, missed, List.getElem?_eq_none (by omega)]
    simp only [Option.map_some, Option.map_none, toUcs4, reduceCtorEq, false_imp_iff, implies_true, iff_true]
    split <;> rfl

def FirstAt (chr : UInt32) (L : List Scalar) (position : UInt32) : Prop :=
  (∀ before c after, L = before ++ c :: after → c.1 = chr → (∀ d ∈ before, d.1 ≠ chr) →
    position = UInt32.ofNat before.length) ∧
  ((∀ c ∈ L, c.1 ≠ chr) → position = -1)

def LastAt (chr : UInt32) (L : List Scalar) (position : UInt32) : Prop :=
  (∀ before c after, L = before ++ c :: after → c.1 = chr → (∀ d ∈ after, d.1 ≠ chr) →
    position = UInt32.ofNat before.length) ∧
  ((∀ c ∈ L, c.1 ≠ chr) → position = -1)

theorem indexLoop_step (chr index : UInt32) (ordinary : Ordinary c) (rest : List UInt8) (fuel : ℕ) :
    indexLoop chr (fuel + 1) (encoded c.1 ++ rest) index =
      if c.1 = chr then some index else indexLoop chr fuel rest (index + 1) := by
  have read := toUcs4_ordinary ordinary rest
  obtain ⟨b, later, bytes, -⟩ := encoded_block c
  rw [bytes] at read ⊢
  rw [cons_append] at read ⊢
  rw [indexLoop, read]
  simp only [length_cons, drop_succ_cons, drop_left]

theorem indexLoop_special (chr index : UInt32) (special : ¬ Ordinary c) (rest : List UInt8) (fuel : ℕ) :
    indexLoop chr (fuel + 1) (encoded c.1 ++ rest) index = some (-1) := by
  have read := toUcs4_special special rest
  obtain ⟨b, later, bytes, -⟩ := encoded_block c
  rw [bytes] at read ⊢
  rw [cons_append] at read ⊢
  rw [indexLoop, read]

/-- The first occurrence is found where the decoder takes every character up to it. -/
theorem indexLoop_text {chr : UInt32} (L : List Scalar) {fuel k : ℕ} (enough : (text L).length ≤ fuel) :
    ∃ position, indexLoop chr fuel (text L) (UInt32.ofNat k) = some position ∧
      (∀ before c after, L = before ++ c :: after → c.1 = chr → (∀ d ∈ before, d.1 ≠ chr) →
        (∀ d ∈ before ++ [c], Ordinary d) ∧ position = UInt32.ofNat (k + before.length) ∨
          ¬ (∀ d ∈ before ++ [c], Ordinary d) ∧ position = -1) ∧
      ((∀ c ∈ L, c.1 ≠ chr) → position = -1) := by
  induction L generalizing fuel k with
  | nil =>
    refine ⟨-1, by cases fuel <;> rfl, ?_, fun _ => rfl⟩
    intro before c after split
    simp at split
  | cons c L ih =>
    have some := length_encoded_pos c
    rw [text_cons] at enough ⊢
    rw [length_append] at enough
    obtain ⟨fuel, rfl⟩ : ∃ more, fuel = more + 1 := ⟨fuel - 1, by omega⟩
    by_cases ordinary : Ordinary c
    · rw [indexLoop_step _ _ ordinary]
      by_cases here : c.1 = chr
      · refine ⟨_, if_pos here, ?_, fun absent => absurd here (absent c (by simp))⟩
        intro before d after split same fresh
        cases before with
        | nil =>
          obtain rfl := (List.cons.inj split).1
          exact .inl ⟨by simpa using ordinary, rfl⟩
        | cons e before =>
          obtain rfl := (List.cons.inj split).1
          exact absurd here (fresh c (by simp))
      · rw [if_neg here, ofNat_succ]
        obtain ⟨position, found, first, absent⟩ := @ih fuel (k + 1) (by omega)
        refine ⟨position, found, ?_, fun none => absent (fun d inside => none d (by simp [inside]))⟩
        intro before d after split same fresh
        cases before with
        | nil =>
          obtain rfl := (List.cons.inj split).1
          exact absurd same here
        | cons e before =>
          obtain ⟨rfl, rest⟩ := List.cons.inj split
          have ends := first before d after rest same (fun d inside => fresh d (by simp [inside]))
          rw [cons_append, forall_mem_cons, and_iff_right ordinary, length_cons, Nat.add_comm before.length,
            ← Nat.add_assoc]
          exact ends
    · refine ⟨-1, indexLoop_special _ _ ordinary _ _, ?_, fun _ => rfl⟩
      intro before d after split same fresh
      refine .inr ⟨fun all => ordinary (all c ?_), rfl⟩
      cases before with
      | nil => simp [(List.cons.inj split).1]
      | cons e before => simp [(List.cons.inj split).1]

/-- The characters up to the first occurrence of one are those that the decoder takes. -/
def ReadsTo (chr : UInt32) (L : List Scalar) : Prop :=
  ∀ before c after, L = before ++ c :: after → c.1 = chr → (∀ d ∈ before, d.1 ≠ chr) → ∀ d ∈ before ++ [c], Ordinary d

theorem stringIndex_iff (chr : UInt32) (L : List Scalar) (short : (text L).length + 1 < 2 ^ 32) :
    (∃ position, stringIndex (text L) chr = some position ∧ FirstAt chr L position) ↔ ReadsTo chr L := by
  obtain ⟨position, found, first, absent⟩ := @indexLoop_text chr L _ 0 (Nat.le_refl _)
  have length := length_le_text L
  constructor
  · rintro ⟨position', same, isFirst, -⟩ before c after split here fresh
    obtain rfl := Option.some_inj.mp (found.symm.trans same)
    refine (first before c after split here fresh).elim And.left fun ⟨_, missed⟩ => ?_
    have inside : before.length < L.length := by rw [split]; simp
    have apart := ofNat_ne (show before.length < 2 ^ 32 by omega) (show before.length ≠ (-1 : UInt32).toNat from by
      rw [show (-1 : UInt32).toNat = 2 ^ 32 - 1 from rfl]
      omega)
    exact absurd ((isFirst before c after split here fresh).symm.trans missed) apart
  · intro reads
    refine ⟨position, found, fun before c after split here fresh => ?_, absent⟩
    have place := ((first before c after split here fresh).resolve_right fun both =>
      both.1 (reads before c after split here fresh)).2
    rwa [Nat.zero_add] at place

theorem low_le (n : ℕ) : low n ≤ n := Nat.mod_le _ _

theorem low_of_lt (short : n < 2 ^ 32) : low n = n := by
  rw [low]
  exact Nat.mod_eq_of_lt short

theorem utf8Prev_block (before : List UInt8) {b : UInt8} {later : List UInt8} (rest : List UInt8)
    (first : isContinuation b = false) (continued : ∀ t ∈ later, isContinuation t = true) :
    ∀ {k : ℕ}, k ≤ later.length → utf8Prev (before ++ b :: (later ++ rest)) (before.length + 1 + k) = before.length := by
  intro k
  induction k with
  | zero =>
    intro _
    have here : (before ++ b :: (later ++ rest)).getD before.length 0 = b := by simp
    rw [Nat.add_zero, utf8Prev, here, first]
    rfl
  | succ k ih =>
    intro le
    have inside : isContinuation ((before ++ b :: (later ++ rest)).getD (before.length + 1 + k) 0) = true := by
      have place : (before ++ b :: (later ++ rest)).getD (before.length + 1 + k) 0 = later[k] := by
        have beyond : before.length ≤ before.length + 1 + k := by omega
        have shift : before.length + 1 + k - before.length = k + 1 := by omega
        rw [getD_eq_getElem?_getD, List.getElem?_append_right beyond, shift, List.getElem?_cons_succ,
          List.getElem?_append_left (by omega), List.getElem?_eq_getElem (by omega), Option.getD_some]
      rw [place]
      exact continued _ (getElem_mem _)
    rw [← Nat.add_assoc, utf8Prev, inside]
    exact ih (by omega)

theorem utf8Prev_text (before : List UInt8) (c : Scalar) (rest : List UInt8) :
    utf8Prev (before ++ (encoded c.1 ++ rest)) (before.length + (encoded c.1).length) = before.length := by
  obtain ⟨b, later, bytes, -, first, -, continued⟩ := encoded_block c
  have skipped := utf8Prev_block before rest first continued (Nat.le_refl later.length)
  rwa [Nat.add_assoc, Nat.add_comm 1, ← length_cons, ← cons_append, ← bytes] at skipped

theorem rindexLoop_error {e : Error} (chr index : UInt32) (fuel : ℕ) (some : 0 < slen)
    (read : toUcs4 ((s.drop (utf8Prev s (low slen))).take (sizeSub slen clen)) = .error e) :
    rindexLoop s chr (fuel + 1) slen clen index = Option.some (-1) := by
  rw [rindexLoop, if_neg some.ne']
  simp only [read]

theorem rindexLoop_read {c : UInt32} (chr index : UInt32) (fuel : ℕ) (some : 0 < slen)
    (read : toUcs4 ((s.drop (utf8Prev s (low slen))).take (sizeSub slen clen)) = .ok (c, n)) (le : n ≤ slen) :
    rindexLoop s chr (fuel + 1) slen clen index =
      if c = chr then Option.some index else rindexLoop s chr fuel (slen - n) n (index - 1) := by
  rw [rindexLoop, if_neg some.ne']
  simp only [read, Nat.not_lt.mpr le, if_false]

theorem rindexLoop_text {chr : UInt32} (front : List Scalar) (rest : List UInt8) (short : (text front).length < 2 ^ 32)
    {fuel : ℕ} (enough : (text front).length ≤ fuel) (clen : ℕ) :
    ∃ position, rindexLoop (text front ++ rest) chr fuel (text front).length clen (UInt32.ofNat front.length) =
      some position ∧ (position = -1 ∨ ∃ before c after, front = before ++ c :: after ∧ c.1 = chr ∧
        (∀ d ∈ after, d.1 ≠ chr) ∧ position = UInt32.ofNat (before.length + 1)) := by
  induction front using List.reverseRecOn generalizing rest fuel clen with
  | nil => exact ⟨-1, by cases fuel <;> rfl, .inl rfl⟩
  | append_singleton front c ih =>
    have some := length_encoded_pos c
    have whole : text (front ++ [c]) = text front ++ encoded c.1 := by simp
    rw [whole, length_append] at short enough ⊢
    rw [append_assoc]
    obtain ⟨fuel, rfl⟩ : ∃ more, fuel = more + 1 := ⟨fuel - 1, by omega⟩
    have reads : (text front ++ (encoded c.1 ++ rest)).drop
        (utf8Prev (text front ++ (encoded c.1 ++ rest)) (low ((text front).length + (encoded c.1).length))) =
          encoded c.1 ++ rest := by
      rw [low_of_lt short, utf8Prev_text, drop_left]
    cases read : toUcs4 ((encoded c.1 ++ rest).take (sizeSub ((text front).length + (encoded c.1).length) clen)) with
    | error e =>
      rw [← reads] at read
      exact ⟨-1, rindexLoop_error chr _ fuel (by omega) read, .inl rfl⟩
    | ok found =>
      obtain ⟨x, n⟩ := found
      obtain ⟨rfl, rfl⟩ := toUcs4_read read
      rw [← reads] at read
      rw [rindexLoop_read chr _ fuel (by omega) read (by omega)]
      by_cases here : c.1 = chr
      · exact ⟨_, if_pos here, .inr ⟨front, c, [], rfl, here, by simp, by simp⟩⟩
      · have less : (text front).length + (encoded c.1).length - (encoded c.1).length = (text front).length := by omega
        have index : UInt32.ofNat (front ++ [c]).length - 1 = UInt32.ofNat front.length := by
          rw [length_append, length_singleton, ← ofNat_succ]
          exact UInt32.add_sub_cancel _ _
        rw [if_neg here, less, index]
        obtain ⟨position, reached, which⟩ := @ih (encoded c.1 ++ rest) (by omega) fuel (by omega) (encoded c.1).length
        refine ⟨position, reached, which.imp_right ?_⟩
        rintro ⟨before, d, after, split, same, fresh, isPosition⟩
        refine ⟨before, d, after ++ [c], by rw [split]; simp, same, ?_, isPosition⟩
        intro e inside
        rcases mem_append.mp inside with inside | last
        · exact fresh e inside
        · rw [mem_singleton.mp last]
          exact here

theorem exists_last {chr : UInt32} (member : c ∈ L) (here : c.1 = chr) :
    ∃ before d after, L = before ++ d :: after ∧ d.1 = chr ∧ ∀ e ∈ after, e.1 ≠ chr := by
  induction L using List.reverseRecOn with
  | nil => cases member
  | append_singleton L d ih =>
    by_cases last : d.1 = chr
    · exact ⟨L, d, [], rfl, last, by simp⟩
    · rcases mem_append.mp member with inside | same
      · obtain ⟨before, e, after, rfl, found, fresh⟩ := ih inside
        refine ⟨before, e, after ++ [d], by simp, found, fun f inside => ?_⟩
        rcases mem_append.mp inside with inside | same
        · exact fresh f inside
        · rw [mem_singleton.mp same]
          exact last
      · rw [mem_singleton.mp same] at here
        exact absurd here last

theorem stringRindex_iff (chr : UInt32) (L : List Scalar) (short : (text L).length + 1 < 2 ^ 32) :
    (∃ position, stringRindex (text L) chr = some position ∧ LastAt chr L position) ↔ ∀ c ∈ L, c.1 ≠ chr := by
  have found := @rindexLoop_text chr L [] (by omega) _ (Nat.le_refl _) 0
  rw [append_nil, ← stringLength_text] at found
  obtain ⟨position, reached, which⟩ := found
  have length := length_le_text L
  constructor
  · rintro ⟨position', same, last, -⟩ c member here
    cases reached.symm.trans same
    rcases which with none | ⟨before, d, after, split, found, fresh, beyond⟩
    · obtain ⟨before, d, after, split, found, fresh⟩ := exists_last member here
      have isLast := last before d after split found fresh
      have inside : before.length < L.length := by rw [split]; simp
      have apart := ofNat_ne (show before.length < 2 ^ 32 by omega) (show before.length ≠ (-1 : UInt32).toNat from by
        rw [show (-1 : UInt32).toNat = 2 ^ 32 - 1 from rfl]
        omega)
      exact apart (isLast.symm.trans none)
    · have isLast := last before d after split found fresh
      have inside : before.length < L.length := by rw [split]; simp
      have apart := ofNat_ne (show before.length + 1 < 2 ^ 32 by omega)
        (show before.length + 1 ≠ (UInt32.ofNat before.length).toNat from by
          rw [UInt32.toNat_ofNat', Nat.mod_eq_of_lt (by omega)]
          omega)
      exact apart (beyond.symm.trans isLast)
  · intro absent
    refine ⟨position, reached, ?_, fun _ => ?_⟩
    · intro before c after split here
      exact absurd here (absent c (by simp [split]))
    · rcases which with none | ⟨before, c, after, split, here, -⟩
      · exact none
      · exact absurd here (absent c (by simp [split]))

theorem utf8Next_text (before : List UInt8) (c : Scalar) (after : List Scalar) :
    utf8Next (before ++ (encoded c.1 ++ text after)) (before ++ (encoded c.1 ++ text after)).length before.length =
      some (before.length + (encoded c.1).length) := by
  obtain ⟨b, later, bytes, -, first, -, continued⟩ := encoded_block c
  have stop : (text after).takeWhile isContinuation = [] := by
    cases after with
    | nil => rfl
    | cons d after =>
      obtain ⟨b, later, bytes, -, first, -⟩ := encoded_block d
      simp [bytes, first]
  have here : (before ++ (b :: later ++ text after)).getD before.length 0 = b := by simp
  rw [bytes, utf8Next, if_neg (by simp), here, first]
  have rest : ((before ++ (b :: later ++ text after)).take (before ++ (b :: later ++ text after)).length).drop
      (before.length + 1) = later ++ text after := by
    rw [take_length, ← drop_drop, drop_left]
    rfl
  simp only [Bool.false_eq_true, if_false, rest]
  rw [takeWhile_append_of_pos continued, stop, append_nil, length_cons]
  congr 1
  omega

theorem advance_text (before mid after : List Scalar) (short : (text (before ++ mid ++ after)).length < 2 ^ 32) :
    advance (text (before ++ mid ++ after)) (low (text (before ++ mid ++ after)).length) mid.length
      (text before).length = some (text (before ++ mid)).length := by
  rw [low_of_lt short]
  clear short
  induction mid generalizing before with
  | nil => simp [advance]
  | cons c mid ih =>
    have step := utf8Next_text (text before) c (mid ++ after)
    have rest := ih (before ++ [c])
    simp only [text_append, text_cons, text_nil, append_nil, append_assoc, length_append] at step rest ⊢
    simp only [length_cons, advance]
    rw [step]
    simpa [Nat.add_assoc] using rest

theorem byteRange_text (before mid after : List Scalar) (short : (text (before ++ mid ++ after)).length < 2 ^ 32)
    (first : i1.toNat = before.length) (last : i2.toNat = before.length + mid.length) :
    byteRange (text (before ++ mid ++ after)) i1 i2 = some ((text before).length, (text (before ++ mid)).length) := by
  have start := advance_text [] before (mid ++ after)
  have stop := advance_text before mid after short
  have span : (i2 - i1).toNat = mid.length := by
    rw [UInt32.toNat_sub_of_le _ _ (by rw [UInt32.le_iff_toNat_le]; omega)]
    omega
  simp only [nil_append, ← append_assoc, text_nil, length_nil] at start
  rw [byteRange, first, span, start short]
  simp only [Option.bind_some, stop, Option.map_some]

theorem split_range (L : List Scalar) {i1 i2 : ℕ} (le : i1 ≤ i2) (inside : i2 ≤ L.length) :
    ∃ before mid after, L = before ++ mid ++ after ∧ before.length = i1 ∧ mid.length = i2 - i1 ∧
      L.take i1 = before ∧ L.drop i2 = after ∧ (L.drop i1).take (i2 - i1) = mid := by
  refine ⟨L.take i1, (L.drop i1).take (i2 - i1), L.drop i2, ?_, ?_, ?_, rfl, rfl, rfl⟩
  · have rest : L.drop i2 = (L.drop i1).drop (i2 - i1) := by
      rw [drop_drop]
      congr 1
      omega
    rw [append_assoc, rest, take_append_drop, take_append_drop]
  · rw [length_take]
    omega
  · rw [length_take, length_drop]
    omega

theorem stringSubstr_text (L : List Scalar) (short : (text L).length < 2 ^ 32) (le : i1 ≤ i2)
    (inside : i2.toNat ≤ L.length) :
    stringSubstr (text L) i1 i2 = .ok (text ((L.drop i1.toNat).take (i2.toNat - i1.toNat))) := by
  rw [UInt32.le_iff_toNat_le] at le
  obtain ⟨before, mid, after, rfl, first, last, -, -, middle⟩ := split_range L le inside
  rw [stringSubstr, byteRange_text before mid after short first.symm (by omega), middle]
  simp only [text_append, append_assoc, length_append, drop_left, Nat.add_sub_cancel_left, take_left]

theorem assemble_eq {size : ℕ} {parts : List UInt8} (exact : size = parts.length) (fits : size + 1 < 2 ^ 32) :
    assemble size parts = some (.ok parts) := by
  rw [assemble, Nat.mod_eq_of_lt fits, if_pos (by omega)]

theorem stringReplace_text (L S : List Scalar) (short : (text L).length + (text S).length + 1 < 2 ^ 32) (le : i1 ≤ i2)
    (inside : i2.toNat ≤ L.length) :
    stringReplace (text L) (text S) i1 i2 =
      some (.ok (text (L.take i1.toNat ++ S ++ L.drop i2.toNat))) := by
  rw [UInt32.le_iff_toNat_le] at le
  obtain ⟨before, mid, after, rfl, first, last, start, stop, -⟩ := split_range L le inside
  rw [stringReplace, byteRange_text before mid after (by omega) first.symm (by omega), start, stop]
  have whole : (text (before ++ mid ++ after)).length = (text before).length + (text mid).length + (text after).length := by
    simp [Nat.add_assoc]
  have inner : (text (before ++ mid)).length = (text before).length + (text mid).length := by simp
  simp only [low_of_lt (show (text (before ++ mid ++ after)).length < 2 ^ 32 by omega),
    low_of_lt (show (text S).length < 2 ^ 32 by omega)]
  have front : (text (before ++ mid ++ after)).take (text before).length = text before := by simp
  have back : ((text (before ++ mid ++ after)).drop (text (before ++ mid)).length).take
      ((text (before ++ mid ++ after)).length - (text (before ++ mid)).length) = text after := by
    rw [text_append (before ++ mid), drop_left, length_append, Nat.add_sub_cancel_left, take_length]
  have parts : text (before ++ S ++ after) = text before ++ text S ++ text after := by simp
  rw [front, back, take_length, parts]
  apply assemble_eq
  · simp only [length_append]
    omega
  · omega

theorem insertion_text (before after : List Scalar) (short : (text (before ++ after)).length < 2 ^ 32)
    (here : offset.toNat = before.length) :
    ¬ stringLength (text (before ++ after)) < offset ∧
      (if offset = stringLength (text (before ++ after)) then some (low (text (before ++ after)).length)
        else advance (text (before ++ after)) (low (text (before ++ after)).length) offset.toNat 0) =
          some (text before).length := by
  have length := length_le_text (before ++ after)
  have count : (stringLength (text (before ++ after))).toNat = before.length + after.length := by
    rw [stringLength_text, UInt32.toNat_ofNat', Nat.mod_eq_of_lt (by omega), length_append]
  refine ⟨by rw [UInt32.lt_iff_toNat_lt, count]; omega, ?_⟩
  by_cases behind : offset = stringLength (text (before ++ after))
  · rw [if_pos behind, low_of_lt short]
    rw [behind, count] at here
    have none : after = [] := eq_nil_of_length_eq_zero (by omega)
    simp [none]
  · have start := advance_text [] before after
    simp only [nil_append, text_nil, length_nil] at start
    rw [if_neg behind, here, start short]

theorem stringInsert_text (L S : List Scalar) (short : (text L).length + (text S).length + 1 < 2 ^ 32)
    (inside : offset.toNat ≤ L.length) :
    stringInsert (text L) (text S) offset =
      some (.ok (text (L.take offset.toNat ++ S ++ L.drop offset.toNat))) := by
  obtain ⟨before, after, rfl, here⟩ : ∃ before after, L = before ++ after ∧ offset.toNat = before.length :=
    ⟨L.take offset.toNat, L.drop offset.toNat, (take_append_drop _ _).symm, by rw [length_take]; omega⟩
  obtain ⟨within, place⟩ := insertion_text before after (by omega) here
  have whole : (text (before ++ after)).length = (text before).length + (text after).length := by simp
  rw [stringInsert, if_neg within, place, here, take_left, drop_left,
    low_of_lt (show (text (before ++ after)).length < 2 ^ 32 by omega),
    low_of_lt (show (text S).length < 2 ^ 32 by omega)]
  have back : ((text (before ++ after)).drop (text before).length).take
      ((text (before ++ after)).length - (text before).length) = text after := by
    rw [text_append, drop_left, length_append, Nat.add_sub_cancel_left, take_length]
  have front : (text (before ++ after)).take (text before).length = text before := by simp
  have parts : text (before ++ S ++ after) = text before ++ text S ++ text after := by simp
  dsimp only
  rw [front, back, take_length, parts]
  apply assemble_eq
  · simp only [length_append]
    omega
  · omega

theorem stringInsert_long (L S : List Scalar) (long : 2 ^ 32 ≤ (text L).length + (text S).length + 1) :
    stringInsert (text L) (text S) 0 ≠ some (.ok (text (L.take 0 ++ S ++ L.drop 0))) := by
  intro inserted
  have lowL := low_le (text L).length
  have lowS := low_le (text S).length
  obtain ⟨ins, le, assembled⟩ : ∃ ins ≤ low (text L).length, stringInsert (text L) (text S) 0 =
      assemble (low (text L).length + low (text S).length) ((text L).take ins ++ (text S).take (low (text S).length) ++
        ((text L).drop ins).take (low (text L).length - ins)) := by
    rw [stringInsert, if_neg (UInt32.not_lt.mpr UInt32.zero_le)]
    by_cases behind : (0 : UInt32) = stringLength (text L)
    · rw [if_pos behind]
      exact ⟨_, Nat.le_refl _, rfl⟩
    · rw [if_neg behind]
      exact ⟨0, Nat.zero_le _, rfl⟩
  rw [assembled, assemble] at inserted
  split at inserted
  · next fits =>
    have same := congrArg List.length (Except.ok.inj (Option.some_inj.mp inserted))
    have small := Nat.mod_lt (low (text L).length + low (text S).length + 1) (show 0 < 2 ^ 32 by omega)
    simp only [length_append, length_take, length_drop, take_zero, drop_zero, nil_append, text_append] at same fits
    omega
  · cases inserted

/-- The length and what is made of a string, a string to insert given, are those of the list of characters. -/
structure Edits (L S : List Scalar) : Prop where
  length : (stringLength (text L)).toNat = L.length
  substr : ∀ i1 i2 : UInt32, i1 ≤ i2 → i2.toNat ≤ L.length →
    stringSubstr (text L) i1 i2 = .ok (text ((L.drop i1.toNat).take (i2.toNat - i1.toNat)))
  insert : ∀ offset : UInt32, offset.toNat ≤ L.length →
    stringInsert (text L) (text S) offset = some (.ok (text (L.take offset.toNat ++ S ++ L.drop offset.toNat)))
  replace : ∀ i1 i2 : UInt32, i1 ≤ i2 → i2.toNat ≤ L.length →
    stringReplace (text L) (text S) i1 i2 = some (.ok (text (L.take i1.toNat ++ S ++ L.drop i2.toNat)))

/-- The operations are those of the list of characters, for a character to search and a string to insert. -/
structure Laws (L : List Scalar) (chr : UInt32) (S : List Scalar) : Prop extends Edits L S where
  charAt : ∀ index, (stringAt (text L) index).map Except.toOption = some (L[index.toNat]?.map Subtype.val)
  index : ∃ position, stringIndex (text L) chr = some position ∧ FirstAt chr L position
  rindex : ∃ position, stringRindex (text L) chr = some position ∧ LastAt chr L position

/-- Where the result of an insertion has a length of 32 bits, each function is right by itself: where the decoder takes what
it reads, or, going backwards, where the character does not occur. -/
structure Apart (L : List Scalar) (chr : UInt32) (S : List Scalar) : Prop extends Edits L S where
  charAt : (∀ index, (stringAt (text L) index).map Except.toOption = some (L[index.toNat]?.map Subtype.val)) ↔
    ∀ c ∈ L, Ordinary c
  index : (∃ position, stringIndex (text L) chr = some position ∧ FirstAt chr L position) ↔ ReadsTo chr L
  rindex : (∃ position, stringRindex (text L) chr = some position ∧ LastAt chr L position) ↔ ∀ c ∈ L, c.1 ≠ chr

theorem apart_of_short {S : List Scalar} (chr : UInt32) (short : (text L).length + (text S).length + 1 < 2 ^ 32) :
    Apart L chr S := by
  have length := length_le_text L
  refine ⟨⟨?_, fun i1 i2 le inside => stringSubstr_text L (by omega) le inside,
    fun offset inside => stringInsert_text L S short inside, fun i1 i2 le inside => stringReplace_text L S short le inside⟩,
    ⟨fun right c member => ?_, fun ordinary index => ?_⟩, stringIndex_iff chr L (by omega), stringRindex_iff chr L (by omega)⟩
  · rw [stringLength_text, UInt32.toNat_ofNat', Nat.mod_eq_of_lt (by omega)]
  · obtain ⟨i, inside, rfl⟩ := getElem_of_mem member
    have index : (UInt32.ofNat i).toNat = i := by rw [UInt32.toNat_ofNat', Nat.mod_eq_of_lt (by omega)]
    have ordinary := (stringAt_iff L (UInt32.ofNat i)).mp (right _)
    rw [index] at ordinary
    exact ordinary _ (List.getElem?_eq_getElem inside)
  · exact (stringAt_iff L index).mpr fun c found => ordinary c (mem_of_getElem? found)

/-- The laws hold just when the result of an insertion has a length of 32 bits, every character is one that the decoder
takes, and the character that is searched does not occur. Only `dom_string_rindex` asks for the last of these. -/
theorem string_laws_iff (L : List Scalar) (chr : UInt32) (S : List Scalar) :
    (Laws L chr S ↔ (text L).length + (text S).length + 1 < 2 ^ 32 ∧ (∀ c ∈ L, Ordinary c) ∧ ∀ c ∈ L, c.1 ≠ chr) ∧
    ((text L).length + (text S).length + 1 < 2 ^ 32 → Apart L chr S) := by
  refine ⟨⟨fun laws => ?_, fun ⟨short, ordinary, absent⟩ => ?_⟩, apart_of_short chr⟩
  · have short : (text L).length + (text S).length + 1 < 2 ^ 32 := by
      by_contra long
      exact stringInsert_long L S (by omega) (laws.insert 0 (Nat.zero_le _))
    have apart := apart_of_short chr short
    exact ⟨short, apart.charAt.mp laws.charAt, apart.rindex.mp laws.rindex⟩
  · have apart := apart_of_short chr short
    have reads : ReadsTo chr L := fun before c after split here => absurd here (absent c (by simp [split]))
    exact ⟨apart.toEdits, apart.charAt.mpr ordinary, apart.index.mpr reads, apart.rindex.mpr absent⟩

def letterA : Scalar := ⟨0x61, by decide, by decide⟩

theorem laws_of_letter : Laws [letterA] 0x62 [letterA] ∧ Apart [letterA] 0x61 [letterA] := by
  have ordinary : ∀ c ∈ [letterA], Ordinary c := forall_mem_singleton.mpr ⟨by decide, by decide⟩
  have other : ∀ c ∈ [letterA], c.1 ≠ 0x62 := forall_mem_singleton.mpr (by decide)
  exact ⟨(string_laws_iff [letterA] 0x62 [letterA]).1.mpr ⟨by decide, ordinary, other⟩,
    (string_laws_iff [letterA] 0x61 [letterA]).2 (by decide)⟩

/-- In the string "a" the last a is found at 1, and "éa" has no é. -/
theorem last_position_missed :
    ¬ Laws [letterA] 0x61 [] ∧ stringRindex (text [letterA]) 0x61 = some 1 ∧
      stringRindex (text [⟨0xE9, by decide, by decide⟩, letterA]) 0xE9 = some (-1) := by
  have one : stringRindex (text [letterA]) 0x61 = some 1 := by decide
  refine ⟨fun laws => ?_, one, by decide⟩
  obtain ⟨position, found, last, -⟩ := laws.rindex
  have zero := last [] letterA [] rfl rfl (by simp)
  rw [zero, one] at found
  cases found

end Besra.DomString
