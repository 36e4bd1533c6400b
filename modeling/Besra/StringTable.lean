import Mathlib
import Besra.Lwc

/-!
The string vector of a stylesheet (stylesheet.c): strings of the bytecode and the numbers that stand for them.

Interned strings are equal when their pointers are, so `lwc_string_isequal` does not fail.  Whether there is memory for
a longer vector is an argument of each addition.
-/

namespace Besra.StringTable

open Lwc List

inductive CssError where
  | ok
  | badparm
  | nomem
deriving DecidableEq

/-- The string vector of `css_stylesheet`: its entries, those that nothing was written to too, its length and how many
strings it has. -/
structure Sheet where
  stringVector : List (Option LwcString)
  stringVectorL : UInt32
  stringVectorC : UInt32
deriving DecidableEq

def create : Sheet := ⟨[], 0, 0⟩

def search (sheet : Sheet) (string : LwcString) : Option ℕ :=
  (sheet.stringVector.take sheet.stringVectorC.toNat).findIdx? (· == some string)

/-- "additional storage must be allocated": the vector with 256 entries more; nothing where a block of no bytes is
asked for, which frees the vector. -/
def grow (sheet : Sheet) : Option Sheet :=
  let newVectorLen := sheet.stringVectorL + 256
  if newVectorLen = 0 then none
  else some { sheet with
    stringVector := sheet.stringVector ++ List.replicate 256 none
    stringVectorL := newVectorLen }

def append (sheet : Sheet) (string : LwcString) : CssError × Option UInt32 × Sheet :=
  (.ok, some (sheet.stringVectorC + 1), { sheet with
    stringVector := sheet.stringVector.set sheet.stringVectorC.toNat (some string)
    stringVectorC := sheet.stringVectorC + 1 })

/-- `css__stylesheet_string_add`: the answer, `string_number` if it was set, and the sheet; nothing where the vector
is lost. -/
def stringAdd (sheet : Sheet) (string : Option LwcString) (memory : Bool) :
    Option (CssError × Option UInt32 × Sheet) :=
  match string with
  | none => some (.badparm, none, sheet)
  | some string =>
    match search sheet string with
    | some index => some (.ok, some (UInt32.ofNat index + 1), sheet)
    | none =>
      if sheet.stringVectorC ≥ sheet.stringVectorL then
        match grow sheet with
        | none => none
        | some grown => if memory then some (append grown string) else some (.nomem, none, sheet)
      else some (append sheet string)

/-- What `css__stylesheet_string_get` does: `CSS_BADPARM`, or it reads an entry of the vector, which may be one that no
string was written to, or none of the vector's at all. -/
inductive Got where
  | badparm
  | read (entry : Option LwcString)
deriving DecidableEq

/-- `css__stylesheet_string_get` -/
def stringGet (sheet : Sheet) (stringNumber : UInt32) : Got :=
  -- "External string numbers = index into vector + 1"
  let stringNumber := stringNumber - 1
  if stringNumber > sheet.stringVectorC then .badparm
  else .read (sheet.stringVector.getD stringNumber.toNat none)

/-- An addition, with whether there is memory for a longer vector. -/
abbrev Add := Option LwcString × Bool

/-- The numbers given out so far, with their strings, and the sheet. -/
abbrev State := List (LwcString × UInt32) × Sheet

def step (state : State) (add : Add) : Option State :=
  match stringAdd state.2 add.1 add.2 with
  | none => none
  | some (_, stringNumber, sheet) =>
    match add.1, stringNumber with
    | some string, some n => some (state.1 ++ [(string, n)], sheet)
    | _, _ => some (state.1, sheet)

/-- A sequence of additions on a fresh sheet. -/
def run (adds : List Add) : Option State := adds.foldlM step ([], create)

/-- The strings of the table after one more addition: a new string comes last, unless a longer vector is needed for
it and there is no memory. -/
def store (strings : List LwcString) : Add → List LwcString
  | (none, _) => strings
  | (some string, memory) =>
    if string ∈ strings ∨ (256 ∣ strings.length ∧ memory = false) then strings else strings ++ [string]

def stored (adds : List Add) : List LwcString := adds.foldl store []

def Overflows (strings : List LwcString) : Add → Prop
  | (none, _) => False
  | (some string, _) => strings.length = 2 ^ 32 - 256 ∧ string ∉ strings

/-- No addition finds the vector of greatest length full. -/
def NeverOverflows : List LwcString → List Add → Prop
  | _, [] => True
  | strings, add :: later => ¬ Overflows strings add ∧ NeverOverflows (store strings add) later

/-- After the additions, each string that there was memory for has a number; no number is 0; equal strings and only
these have equal numbers; and a number, asked for now, gives its string if it was given out and is refused if not. -/
def TableKept (adds : List Add) (n : UInt32) : Prop :=
  ∃ issued sheet, run adds = some (issued, sheet) ∧
    (∀ string, (some string, true) ∈ adds → ∃ m, (string, m) ∈ issued) ∧
    (∀ string m, (string, m) ∈ issued → m ≠ 0) ∧
    (∀ string m string' m', (string, m) ∈ issued → (string', m') ∈ issued → (string = string' ↔ m = m')) ∧
    (∀ string, (string, n) ∈ issued → stringGet sheet n = .read (some string)) ∧
    ((∀ string, (string, n) ∉ issued) → stringGet sheet n = .badparm)

/-- The vector holds these strings, and has no more entries than it needs for them, in steps of 256. -/
structure Holds (strings : List LwcString) (sheet : Sheet) : Prop where
  count : sheet.stringVectorC.toNat = strings.length
  entries : sheet.stringVector = strings.map some ++ List.replicate (sheet.stringVectorL.toNat - strings.length) none
  nodup : strings.Nodup
  block : sheet.stringVectorL.toNat = (strings.length + 255) / 256 * 256

theorem holds_create : Holds [] create where
  count := rfl
  entries := rfl
  nodup := nodup_nil
  block := rfl

variable {sheet : Sheet} {strings : List LwcString} {n m : UInt32} {string other : LwcString}
  {issued : List (LwcString × UInt32)}

theorem Holds.bounds (holds : Holds strings sheet) :
    strings.length ≤ sheet.stringVectorL.toNat ∧ sheet.stringVectorL.toNat ≤ 2 ^ 32 - 256 := by
  have block := holds.block
  have word := sheet.stringVectorL.toNat_lt
  omega

def Numbered (strings : List LwcString) (n : UInt32) (string : LwcString) : Prop :=
  1 ≤ n.toNat ∧ strings[n.toNat - 1]? = some string

theorem search_eq (holds : Holds strings sheet) (string : LwcString) :
    search sheet string = strings.findIdx? (· == string) := by
  rw [search, holds.entries, holds.count, take_left' (by rw [length_map]), List.findIdx?_map]
  congr 1

theorem append_holds {strings : List LwcString} {sheet : Sheet} {string : LwcString}
    (count : sheet.stringVectorC.toNat = strings.length)
    (entries : sheet.stringVector = strings.map some ++ List.replicate (sheet.stringVectorL.toNat - strings.length) none)
    (nodup : strings.Nodup) (new : string ∉ strings)
    (block : sheet.stringVectorL.toNat = (strings.length + 1 + 255) / 256 * 256) :
    ∃ n sheet', append sheet string = (.ok, some n, sheet') ∧ Holds (strings ++ [string]) sheet' ∧
      Numbered (strings ++ [string]) n string := by
  have word := sheet.stringVectorL.toNat_lt
  have succ : (sheet.stringVectorC + 1).toNat = strings.length + 1 := by
    rw [UInt32.toNat_add, count]
    exact Nat.mod_eq_of_lt (by simp only [UInt32.reduceToNat]; omega)
  refine ⟨_, _, rfl, ⟨?_, ?_, ?_, ?_⟩, ?_, ?_⟩
  · rw [succ, length_append, length_singleton]
  · obtain ⟨k, free⟩ : ∃ k, sheet.stringVectorL.toNat - strings.length = k + 1 :=
      ⟨sheet.stringVectorL.toNat - strings.length - 1, by omega⟩
    have rest : sheet.stringVectorL.toNat - (strings.length + 1) = k := by omega
    have place : strings.length = (strings.map some).length := by rw [length_map]
    simp only [entries, count, free, length_append, length_singleton, rest, map_append,
      replicate_succ, map_cons, map_nil, append_assoc, singleton_append]
    rw [set_append_right _ _ (Nat.le_of_eq place.symm), ← place, Nat.sub_self, set_cons_zero]
  · refine nodup_append.mpr ⟨nodup, pairwise_singleton _ _, ?_⟩
    rintro a member b last rfl
    rw [mem_singleton.mp last] at member
    exact new member
  · rw [length_append, length_singleton]
    exact block
  · omega
  · rw [succ, Nat.add_sub_cancel, List.getElem?_append_right (Nat.le_refl _), Nat.sub_self]
    rfl

theorem steps_of_free {k l : ℕ} (block : l = (k + 255) / 256 * 256) (free : k < l) :
    l = (k + 1 + 255) / 256 * 256 ∧ ¬ 256 ∣ k := by
  omega

/-- What an addition does: it finds the string, or the vector is lost, or there is no memory, or the string comes last.
-/
theorem stringAdd_cases (holds : Holds strings sheet) (string : LwcString) (memory : Bool) :
    (string ∈ strings ∧ ∃ n, stringAdd sheet (some string) memory = some (.ok, some n, sheet) ∧
        Numbered strings n string) ∨
      (string ∉ strings ∧ strings.length = 2 ^ 32 - 256 ∧ stringAdd sheet (some string) memory = none) ∨
      (string ∉ strings ∧ strings.length ≠ 2 ^ 32 - 256 ∧ (256 ∣ strings.length ∧ memory = false) ∧
        stringAdd sheet (some string) memory = some (.nomem, none, sheet)) ∨
      (string ∉ strings ∧ strings.length ≠ 2 ^ 32 - 256 ∧ ¬(256 ∣ strings.length ∧ memory = false) ∧
        ∃ n sheet', stringAdd sheet (some string) memory = some (.ok, some n, sheet') ∧
          Holds (strings ++ [string]) sheet' ∧ Numbered (strings ++ [string]) n string) := by
  obtain ⟨fits, limit⟩ := holds.bounds
  have block := holds.block
  have count := holds.count
  by_cases known : string ∈ strings
  · have found : strings.findIdx? (· == string) = some (strings.idxOf string) :=
      List.findIdx?_eq_some_of_exists ⟨string, known, by simp⟩
    have index := idxOf_lt_length_of_mem known
    refine .inl ⟨known, UInt32.ofNat (strings.idxOf string) + 1, ?_, ?_⟩
    · rw [stringAdd]
      simp only [search_eq holds, found]
    · have value : (UInt32.ofNat (strings.idxOf string) + 1).toNat = strings.idxOf string + 1 := by
        rw [UInt32.toNat_add, UInt32.toNat_ofNat_of_lt' (by simp only [UInt32.size]; omega)]
        exact Nat.mod_eq_of_lt (by simp only [UInt32.reduceToNat]; omega)
      rw [Numbered, value]
      exact ⟨by omega, by rw [Nat.add_sub_cancel]; exact List.getElem?_idxOf known⟩
  · have missing : strings.findIdx? (· == string) = none := by
      refine List.findIdx?_eq_none_iff.mpr fun x member => ?_
      rw [beq_eq_false_iff_ne]
      rintro rfl
      exact known member
    rw [stringAdd]
    simp only [search_eq holds, missing]
    by_cases full : sheet.stringVectorC ≥ sheet.stringVectorL
    · have used : strings.length = sheet.stringVectorL.toNat := by
        rw [ge_iff_le, UInt32.le_iff_toNat_le] at full
        omega
      have steps : 256 ∣ strings.length := by omega
      rw [if_pos full]
      by_cases greatest : strings.length = 2 ^ 32 - 256
      · have wraps : sheet.stringVectorL + 256 = 0 := by
          apply UInt32.toNat_inj.mp
          rw [UInt32.toNat_add, ← used, greatest]
          rfl
        refine .inr (.inl ⟨known, greatest, ?_⟩)
        rw [grow, if_pos wraps]
      · have longer : (sheet.stringVectorL + 256).toNat = sheet.stringVectorL.toNat + 256 := by
          rw [UInt32.toNat_add]
          exact Nat.mod_eq_of_lt (by simp only [UInt32.reduceToNat]; omega)
        have nonzero : sheet.stringVectorL + 256 ≠ 0 := by
          intro zero
          rw [zero] at longer
          simp only [UInt32.reduceToNat] at longer
          omega
        rw [grow, if_neg nonzero]
        cases memory with
        | false => exact .inr (.inr (.inl ⟨known, greatest, ⟨steps, rfl⟩, rfl⟩))
        | true =>
          refine .inr (.inr (.inr ⟨known, greatest, fun both => Bool.noConfusion both.2, ?_⟩))
          simp only [if_true]
          obtain ⟨n, sheet', appended, holds', numbered⟩ := @append_holds strings { sheet with
              stringVector := sheet.stringVector ++ List.replicate 256 none
              stringVectorL := sheet.stringVectorL + 256 } string count
            (by
              have before : sheet.stringVectorL.toNat - strings.length = 0 := by omega
              have after : sheet.stringVectorL.toNat + 256 - strings.length = 256 := by omega
              simp only [holds.entries, longer, before, after, replicate_zero, append_nil])
            holds.nodup known (by rw [longer]; omega)
          exact ⟨n, sheet', congrArg some appended, holds', numbered⟩
    · have free : strings.length < sheet.stringVectorL.toNat := by
        rw [ge_iff_le, UInt32.le_iff_toNat_le] at full
        omega
      obtain ⟨needed, part⟩ := steps_of_free block free
      have below : strings.length ≠ 2 ^ 32 - 256 := Nat.ne_of_lt (Nat.lt_of_lt_of_le free limit)
      rw [if_neg full]
      refine .inr (.inr (.inr ⟨known, below, fun both => part both.1, ?_⟩))
      obtain ⟨n, sheet', appended, holds', numbered⟩ := append_holds count holds.entries holds.nodup known needed
      exact ⟨n, sheet', congrArg some appended, holds', numbered⟩

def Issued (strings : List LwcString) (issued : List (LwcString × UInt32)) : Prop :=
  ∀ string n, (string, n) ∈ issued ↔ Numbered strings n string

theorem Numbered.append (numbered : Numbered strings n string) (more : List LwcString) :
    Numbered (strings ++ more) n string := by
  obtain ⟨positive, found⟩ := numbered
  obtain ⟨within, -⟩ := List.getElem?_eq_some_iff.mp found
  exact ⟨positive, by rw [List.getElem?_append_left within]; exact found⟩

theorem Numbered.of_append (last : Numbered (strings ++ [string]) n string) (new : string ∉ strings)
    (numbered : Numbered (strings ++ [string]) m other) : Numbered strings m other ∨ (other, m) = (string, n) := by
  obtain ⟨positive, found⟩ := numbered
  obtain ⟨positive', found'⟩ := last
  by_cases within : m.toNat - 1 < strings.length
  · refine .inl ⟨positive, ?_⟩
    rwa [List.getElem?_append_left within] at found
  · obtain ⟨bound, -⟩ := List.getElem?_eq_some_iff.mp found
    obtain ⟨bound', -⟩ := List.getElem?_eq_some_iff.mp found'
    rw [length_append, length_singleton] at bound bound'
    have place : n.toNat - 1 = strings.length := by
      by_cases before : n.toNat - 1 < strings.length
      · rw [List.getElem?_append_left before] at found'
        exact absurd (mem_of_getElem? found') new
      · omega
    have same : m = n := by
      apply UInt32.toNat_inj.mp
      omega
    subst same
    rw [found] at found'
    cases found'
    exact .inr rfl

theorem step_holds (holds : Holds strings sheet) (numbers : Issued strings issued) (add : Add) :
    (Overflows strings add ∧ step (issued, sheet) add = none) ∨
      (¬ Overflows strings add ∧ ∃ issued' sheet', step (issued, sheet) add = some (issued', sheet') ∧
        Holds (store strings add) sheet' ∧ Issued (store strings add) issued') := by
  obtain ⟨_ | string, memory⟩ := add
  · exact .inr ⟨id, issued, sheet, rfl, holds, numbers⟩
  · rcases stringAdd_cases holds string memory with ⟨known, n, added, numbered⟩ | ⟨new, full, added⟩ |
      ⟨new, room, refused, added⟩ | ⟨new, room, memory', n, sheet', added, holds', numbered⟩
    · refine .inr ⟨fun full => full.2 known, issued ++ [(string, n)], sheet, ?_, ?_, ?_⟩
      · rw [step, added]
      · rw [store, if_pos (.inl known)]
        exact holds
      · rw [store, if_pos (.inl known)]
        intro other m
        rw [mem_append, mem_singleton, numbers other m, Prod.mk.injEq]
        exact ⟨fun either => either.elim id fun ⟨same, same'⟩ => same ▸ same' ▸ numbered, .inl⟩
    · exact .inl ⟨⟨full, new⟩, by rw [step, added]⟩
    · refine .inr ⟨fun full => room full.1, issued, sheet, ?_, ?_, ?_⟩
      · rw [step, added]
      · rw [store, if_pos (.inr refused)]
        exact holds
      · rw [store, if_pos (.inr refused)]
        exact numbers
    · have kept : store strings (some string, memory) = strings ++ [string] := if_neg (not_or.mpr ⟨new, memory'⟩)
      refine .inr ⟨fun full => room full.1, issued ++ [(string, n)], sheet', ?_, ?_, ?_⟩
      · rw [step, added]
      · rw [kept]
        exact holds'
      · rw [kept]
        intro other m
        rw [mem_append, mem_singleton, numbers other m]
        constructor
        · rintro (before | last)
          · exact before.append [string]
          · cases last
            exact numbered
        · exact numbered.of_append new

theorem run_holds (holds : Holds strings sheet) (numbers : Issued strings issued) (adds : List Add) :
    (¬ NeverOverflows strings adds ∧ adds.foldlM step (issued, sheet) = none) ∨
      (NeverOverflows strings adds ∧ ∃ issued' sheet', adds.foldlM step (issued, sheet) = some (issued', sheet') ∧
        Holds (adds.foldl store strings) sheet' ∧ Issued (adds.foldl store strings) issued') := by
  induction adds generalizing strings issued sheet with
  | nil => exact .inr ⟨trivial, issued, sheet, rfl, holds, numbers⟩
  | cons add later ih =>
    rw [foldlM_cons, foldl_cons, NeverOverflows]
    rcases step_holds holds numbers add with ⟨full, lost⟩ | ⟨fits, issued', sheet', stepped, holds', numbers'⟩
    · exact .inl ⟨fun never => never.1 full, by rw [lost]; rfl⟩
    · rw [stepped]
      rcases ih holds' numbers' with ⟨full, lost⟩ | ⟨never, rest⟩
      · exact .inl ⟨fun both => full both.2, lost⟩
      · exact .inr ⟨⟨fits, never⟩, rest⟩

theorem toNat_pred (positive : 1 ≤ n.toNat) : (n - 1).toNat = n.toNat - 1 := by
  have one : (1 : UInt32).toNat = 1 := by rfl
  rw [UInt32.toNat_sub_of_le _ _ (by rwa [UInt32.le_iff_toNat_le, one]), one]

theorem Numbered.get (holds : Holds strings sheet) (numbered : Numbered strings n string) :
    stringGet sheet n = .read (some string) := by
  obtain ⟨positive, found⟩ := numbered
  obtain ⟨within, -⟩ := List.getElem?_eq_some_iff.mp found
  have index := toNat_pred positive
  have known : ¬(n - 1 > sheet.stringVectorC) := by
    rw [gt_iff_lt, UInt32.lt_iff_toNat_lt, index, holds.count]
    omega
  rw [stringGet, if_neg known, index, holds.entries, getD_eq_getElem?_getD,
    List.getElem?_append_left (by rw [length_map]; exact within), List.getElem?_map, found]
  rfl

theorem get_iff (holds : Holds strings sheet) (free : ∀ string, ¬ Numbered strings n string) :
    stringGet sheet n = .badparm ↔ n.toNat ≠ strings.length + 1 := by
  obtain ⟨fits, limit⟩ := holds.bounds
  have count := holds.count
  rw [stringGet]
  by_cases zero : n.toNat = 0
  · have first : n = 0 := UInt32.toNat_inj.mp zero
    have beyond : n - 1 > sheet.stringVectorC := by
      rw [first, gt_iff_lt, UInt32.lt_iff_toNat_lt, count]
      change strings.length < 2 ^ 32 - 1
      omega
    rw [if_pos beyond]
    exact ⟨fun _ => by omega, fun _ => rfl⟩
  · have index := toNat_pred (n := n) (by omega)
    have behind : strings.length ≤ n.toNat - 1 := by
      by_contra before
      obtain ⟨string, found⟩ : ∃ string, strings[n.toNat - 1]? = some string :=
        ⟨_, List.getElem?_eq_getElem (by omega)⟩
      exact free string ⟨by omega, found⟩
    have which : n - 1 > sheet.stringVectorC ↔ strings.length < n.toNat - 1 := by
      rw [gt_iff_lt, UInt32.lt_iff_toNat_lt, index, count]
    by_cases beyond : n - 1 > sheet.stringVectorC
    · rw [if_pos beyond]
      rw [which] at beyond
      exact ⟨fun _ => by omega, fun _ => rfl⟩
    · rw [if_neg beyond]
      rw [which] at beyond
      exact ⟨fun same => Got.noConfusion same, fun other => absurd (by omega) other⟩

theorem Numbered.same_iff (nodup : strings.Nodup) (numbered : Numbered strings n string)
    (numbered' : Numbered strings m other) : string = other ↔ n = m := by
  obtain ⟨positive, found⟩ := numbered
  obtain ⟨positive', found'⟩ := numbered'
  constructor
  · rintro rfl
    obtain ⟨within, -⟩ := List.getElem?_eq_some_iff.mp found
    apply UInt32.toNat_inj.mp
    have same : n.toNat - 1 = m.toNat - 1 := (List.getElem?_inj within nodup).mp (found.trans found'.symm)
    omega
  · rintro rfl
    rw [found] at found'
    exact Option.some.inj found'

theorem mem_store (add : Add) (member : string ∈ strings) : string ∈ store strings add := by
  obtain ⟨_ | x, memory⟩ := add
  · exact member
  · rw [store]
    split_ifs
    · exact member
    · exact mem_append_left _ member

theorem mem_foldl_store {strings : List LwcString} (adds : List Add) {string : LwcString}
    (added : string ∈ strings ∨ (some string, true) ∈ adds) : string ∈ adds.foldl store strings := by
  induction adds generalizing strings with
  | nil => exact added.resolve_right not_mem_nil
  | cons add later ih =>
    rw [foldl_cons]
    apply ih
    rcases added with member | added
    · exact .inl (mem_store add member)
    · rcases mem_cons.mp added with rfl | later
      · refine .inl ?_
        rw [store]
        by_cases known : string ∈ strings ∨ (256 ∣ strings.length ∧ true = false)
        · rw [if_pos known]
          exact known.resolve_right fun both => Bool.noConfusion both.2
        · rw [if_neg known]
          exact mem_append_right _ (mem_singleton_self _)
      · exact .inr later

/-- The table answers as it should exactly as long as no addition finds the vector full at its greatest length, and
for every number but the one after the last that was given out. -/
theorem tableKept_iff (adds : List Add) (n : UInt32) :
    TableKept adds n ↔ NeverOverflows [] adds ∧ n.toNat ≠ (stored adds).length + 1 := by
  have none : Issued [] [] := by
    intro string m
    exact ⟨fun member => absurd member not_mem_nil, fun numbered => by cases numbered.2⟩
  rcases run_holds holds_create none adds with ⟨full, lost⟩ | ⟨never, issued, sheet, ran, holds, numbers⟩
  · constructor
    · rintro ⟨issued, sheet, ran, -⟩
      rw [run, lost] at ran
      cases ran
    · intro both
      exact absurd both.1 full
  · have free : (∀ string, (string, n) ∉ issued) ↔ ∀ string, ¬ Numbered (stored adds) n string :=
      forall_congr' fun string => not_congr (numbers string n)
    constructor
    · rintro ⟨issued', sheet', ran', -, -, -, given, refused⟩
      rw [run, ran] at ran'
      cases ran'
      refine ⟨never, fun next => ?_⟩
      have beyond : ∀ string, ¬ Numbered (stored adds) n string := by
        rintro string ⟨-, found⟩
        obtain ⟨within, -⟩ := List.getElem?_eq_some_iff.mp found
        omega
      exact (get_iff holds beyond).mp (refused (free.mpr beyond)) next
    · rintro ⟨-, other⟩
      refine ⟨issued, sheet, ran, ?_, ?_, ?_, ?_, ?_⟩
      · intro string added
        obtain ⟨i, within, found⟩ := getElem_of_mem (@mem_foldl_store [] adds string (.inr added))
        have bounds := holds.bounds
        have value : (UInt32.ofNat (i + 1)).toNat = i + 1 :=
          UInt32.toNat_ofNat_of_lt' (by simp only [UInt32.size]; omega)
        refine ⟨UInt32.ofNat (i + 1), (numbers _ _).mpr ?_⟩
        rw [Numbered, value, Nat.add_sub_cancel, List.getElem?_eq_getElem within, found]
        exact ⟨by omega, rfl⟩
      · rintro string m member rfl
        have positive := ((numbers string 0).mp member).1
        simp at positive
      · intro string m string' m' member member'
        exact Numbered.same_iff holds.nodup ((numbers _ _).mp member) ((numbers _ _).mp member')
      · intro string member
        exact Numbered.get holds ((numbers _ _).mp member)
      · intro unissued
        exact (get_iff holds (free.mp unissued)).mpr other

/-- With one string in the table, the number after it is not refused, and what it reads is no string. -/
theorem number_after_last_not_kept : ¬ TableKept [(some (lit "a"), true)] 2 := by
  intro kept
  have other := ((tableKept_iff _ _).mp kept).2
  exact other (by decide)

end Besra.StringTable
