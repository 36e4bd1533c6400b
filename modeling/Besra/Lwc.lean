import Mathlib.Data.List.Basic

/-!
Interned strings of libwapcaplet. Interning gives one object to each byte
sequence, so a string is modelled by its bytes: two pointers are equal exactly
when the bytes are. `lwc_string_caseless_isequal` compares the interned copies
made by `lwc__lcase_memcpy`, which lowers the letters A to Z only.
-/
namespace Besra.Lwc

/-- An interned string, as the bytes it holds. -/
abbrev LwcString := List UInt8

instance lawful : LawfulBEq LwcString := inferInstance

def ch (c : Char) : UInt8 := UInt8.ofNat c.toNat

def lit (text : String) : LwcString := text.toList.map ch

/-- `lwc__dolower` -/
def dolower (c : UInt8) : UInt8 := if 0x41 ≤ c ∧ c ≤ 0x5a then c + 0x61 - 0x41 else c

def insensitive (s : LwcString) : LwcString := s.map dolower

/-- `lwc_string_isequal` -/
def isEqual (s t : LwcString) : Bool := s == t

/-- `lwc_string_caseless_isequal` -/
def caselessIsEqual (s t : LwcString) : Bool := insensitive s == insensitive t

/-- A `char` widened to the hash: it is signed, so bytes from 0x80 on carry their sign. -/
def widen (c : UInt8) : UInt32 := if c < 0x80 then c.toUInt32 else c.toUInt32 ||| 0xffffff00

/-- `lwc__calculate_hash` -/
def calculateHash (s : LwcString) : UInt32 :=
  s.foldl (fun z c => (z * 0x01000193) ^^^ widen c) 0x811c9dc5

/-- `lwc_string_caseless_hash_value`: the hash of the caseless copy. -/
def caselessHashValue (s : LwcString) : UInt32 := calculateHash (insensitive s)

theorem forall_byte {p : UInt8 → Prop} (all : ∀ i : Fin 256, p (UInt8.ofFin i)) (b : UInt8) : p b := by
  have same : UInt8.ofFin b.toFin = b := by rfl
  rw [← same]
  exact all b.toFin

@[simp] theorem isEqual_iff (s t : LwcString) : isEqual s t = true ↔ s = t := by simp [isEqual]

theorem caselessIsEqual_iff (s t : LwcString) : caselessIsEqual s t = true ↔ insensitive s = insensitive t := by
  simp [caselessIsEqual]

theorem dolower_idem (c : UInt8) : dolower (dolower c) = dolower c := by
  unfold dolower
  split
  · rename_i upper
    have not_upper : ¬ (0x41 ≤ c + 0x61 - 0x41 ∧ c + 0x61 - 0x41 ≤ 0x5a) := by
      simp only [UInt8.le_iff_toNat_le, UInt8.toNat_add, UInt8.toNat_sub, UInt8.reduceToNat] at upper ⊢
      omega
    rw [if_neg not_upper]
  · rfl

theorem dolower_cases (c : UInt8) :
    dolower c = c ∨ ∃ i : Fin 26, c = UInt8.ofNat (0x41 + i) ∧ dolower c = UInt8.ofNat (0x61 + i) := by
  unfold dolower
  split
  · rename_i upper
    simp only [UInt8.le_iff_toNat_le, UInt8.reduceToNat] at upper
    refine .inr ⟨⟨c.toNat - 0x41, by omega⟩, ?_, ?_⟩
    · apply UInt8.toNat_inj.mp
      simp
      omega
    · apply UInt8.toNat_inj.mp
      simp [UInt8.toNat_sub, UInt8.toNat_add]
      omega
  · exact .inl rfl

theorem dolower_congr {β : Sort*} {p : UInt8 → β}
    (letters : ∀ i : Fin 26, p (UInt8.ofNat (0x61 + i)) = p (UInt8.ofNat (0x41 + i))) (c : UInt8) : p (dolower c) = p c := by
  rcases dolower_cases c with same | ⟨i, rfl, lower⟩
  · rw [same]
  · rw [lower, letters]

@[simp] theorem insensitive_idem (s : LwcString) : insensitive (insensitive s) = insensitive s := by
  simp [insensitive, Function.comp_def, dolower_idem]

@[simp] theorem caselessIsEqual_refl (s : LwcString) : caselessIsEqual s s = true := by
  simp [caselessIsEqual]

theorem caselessHashValue_congr {s t : LwcString} (same : caselessIsEqual s t = true) :
    caselessHashValue s = caselessHashValue t := by
  rw [caselessHashValue, caselessHashValue, (caselessIsEqual_iff s t).mp same]

end Besra.Lwc
