import Mathlib.Data.List.Forall2
import Mathlib.Data.List.TakeWhile
import Besra.Lwc

/-!
Host names between Unicode and ASCII, of `netsurf/utils/idna.c`. `idna_encode` and `idna_decode` are one loop over
labels, with what each does to a label (`convertHost`). The loop ends at the first empty label, so that labels behind
it are dropped. Punycode and `utf8proc` are a parameter (`Codec`). A string is its bytes without the NUL at its end.
-/
namespace Besra.Idna
open Lwc List

inductive Nserror where
  | badUrl
  | nomem
  | badEncoding
  | badSize
  | nospace
  | notImplemented
deriving DecidableEq

def ldhChar (c : UInt8) : Bool := c == ch '-' || (ch '0' ≤ c && c ≤ ch '9') || (ch 'a' ≤ c && c ≤ ch 'z') ||
  (ch 'A' ≤ c && c ≤ ch 'Z')

/-- `idna__is_ldh` -/
def isLdh (label : List UInt8) : Bool :=
  label.head? != some (ch '-') && label.getLast? != some (ch '-') && label.all ldhChar

def acePrefix : List UInt8 := "xn--".toList.map ch

/-- `idna__is_ace` -/
def isAce (label : List UInt8) : Bool := isLdh label && acePrefix.isPrefixOf label

/-- A label between Unicode and ASCII: `toAce` is `idna__utf8_to_ucs4`, `idna__is_valid` and `idna__ucs4_to_ace`,
`toUnicode` is `idna__ace_to_ucs4` and `idna__ucs4_to_utf8`, and `verify` is `idna__verify`. What is decoded is what was
encoded, in its normal form. It has no dot, and is never the encoded label itself. -/
structure Codec where
  toAce : List UInt8 → Except Nserror (List UInt8)
  toUnicode : List UInt8 → Except Nserror (List UInt8)
  verify : List UInt8 → Bool
  normalise : List UInt8 → List UInt8
  ace : ∀ label a, toAce label = .ok a → acePrefix <+: a ∧ a.all ldhChar = true ∧ a ≠ label
  inverse : ∀ label a, toAce label = .ok a → toUnicode a = .ok (normalise label)
  unicode : ∀ a label, toUnicode a = .ok label → ch '.' ∉ label ∧ label ≠ a

variable (codec : Codec)

/-- What `idna_encode` does to a label. -/
def encodeLabel (label : List UInt8) : Except Nserror (List UInt8) :=
  if isLdh label then
    if isAce label ∧ codec.verify label = false then .error .badUrl else .ok label
  else codec.toAce label

/-- What `idna_decode` does to a label. -/
def decodeLabel (label : List UInt8) : Except Nserror (List UInt8) :=
  if isAce label then codec.toUnicode label else .ok label

/-- `idna__host_label_length` -/
def hostLabelLength (host : List UInt8) (maxLength : ℕ) : ℕ :=
  ((host.take maxLength).takeWhile fun c => c != ch '.' && c != ch ':').length

/-- `FQDN_APPEND`, in a buffer of `FQDN_MAX` bytes -/
def fqdnAppend (fqdn s : List UInt8) : Except Nserror (List UInt8) :=
  if 256 - fqdn.length ≤ s.length then .error .badUrl else .ok (fqdn ++ s)

def labelLoop (convert : List UInt8 → Except Nserror (List UInt8)) : ℕ → List UInt8 → ℕ → List UInt8 →
    Except Nserror (List UInt8)
  | 0, _, _, _ => .error .badUrl
  | fuel + 1, host, len, fqdn =>
    let labelLen := hostLabelLength host len
    if labelLen = 0 then .ok fqdn
    else
      match convert (host.take labelLen) with
      | .error e => .error e
      | .ok output =>
        match (fqdnAppend fqdn output).bind fun fqdn => fqdnAppend fqdn [ch '.'] with
        | .error e => .error e
        | .ok fqdn =>
          match host.drop labelLen with
          | [] => .ok fqdn
          | c :: rest => if c = ch ':' then .ok fqdn else labelLoop convert fuel rest (len - labelLen - 1) fqdn

/-- What `idna_encode` and `idna_decode` have in common. The last dot is taken away. -/
def convertHost (convert : List UInt8 → Except Nserror (List UInt8)) (host : List UInt8) (len : ℕ) :
    Except Nserror (List UInt8) :=
  if hostLabelLength host len = 0 then .error .badUrl
  else (labelLoop convert (len + 1) host len []).map List.dropLast

/-- `idna_encode` -/
def idnaEncode (host : List UInt8) (len : ℕ) : Except Nserror (List UInt8) := convertHost (encodeLabel codec) host len

/-- `idna_decode` -/
def idnaDecode (aceHost : List UInt8) (aceLen : ℕ) : Except Nserror (List UInt8) :=
  convertHost (decodeLabel codec) aceHost aceLen

/-- The labels of a host, without what is behind a dot at its end. -/
def labels (host : List UInt8) : List (List UInt8) :=
  let parts := host.splitOn (ch '.')
  if 1 < parts.length ∧ parts.getLast? = some [] then parts.dropLast else parts

/-- Labels with a dot between each and the next. -/
def joined (parts : List (List UInt8)) : List UInt8 := [ch '.'].intercalate parts

/-- The labels in front of the first empty one. -/
def front (host : List UInt8) : List (List UInt8) := (host.splitOn (ch '.')).takeWhile fun label => label ≠ []

/-- Labels with a dot behind each. -/
def dotted (parts : List (List UInt8)) : List UInt8 := parts.flatMap fun label => label ++ [ch '.']

section
variable {convert : List UInt8 → Except Nserror (List UInt8)}

/-- A host from its first label on. -/
theorem host_cases (host : List UInt8) : ∃ label, ch '.' ∉ label ∧ (host = label ∧ host.splitOn (ch '.') = [label] ∨
    ∃ rest, host = label ++ ch '.' :: rest ∧ host.splitOn (ch '.') = label :: rest.splitOn (ch '.')) := by
  have none_ : ch '.' ∉ host.takeWhile (· != ch '.') := fun member => by simpa using mem_takeWhile_imp member
  refine ⟨host.takeWhile (· != ch '.'), none_, ?_⟩
  have whole := (takeWhile_append_dropWhile (p := (· != ch '.')) (l := host))
  rcases dropped : host.dropWhile (· != ch '.') with _ | ⟨c, rest⟩
  · rw [dropped, append_nil] at whole
    rw [whole] at none_ ⊢
    exact .inl ⟨rfl, splitOn_eq_singleton none_⟩
  · have dot : c = ch '.' := by
      have stop := List.head?_dropWhile_not (· != ch '.') host
      rw [dropped] at stop
      simpa using stop
    subst dot
    rw [dropped] at whole
    refine .inr ⟨rest, whole.symm, ?_⟩
    conv_lhs => rw [← whole]
    exact splitOn_append_cons_self_of_not_mem none_ rest

def walk (convert : List UInt8 → Except Nserror (List UInt8)) : List (List UInt8) → List UInt8 →
    Except Nserror (List UInt8)
  | [], fqdn => .ok fqdn
  | label :: parts, fqdn =>
    if label = [] then .ok fqdn
    else
      match convert label with
      | .error e => .error e
      | .ok output =>
        match (fqdnAppend fqdn output).bind fun fqdn => fqdnAppend fqdn [ch '.'] with
        | .error e => .error e
        | .ok fqdn => walk convert parts fqdn

theorem labelLoop_eq {fuel : ℕ} {host tail : List UInt8} (fqdn : List UInt8) (plain : ch ':' ∉ host)
    (ends : tail = [] ∨ tail.head? = some (ch ':')) (enough : host.length < fuel) :
    hostLabelLength (host ++ tail) host.length = ((host.splitOn (ch '.')).headD []).length ∧
      labelLoop convert fuel (host ++ tail) host.length fqdn = walk convert (host.splitOn (ch '.')) fqdn := by
  induction fuel generalizing host fqdn with
  | zero => omega
  | succ fuel ih =>
    obtain ⟨label, dotless, cases_⟩ := host_cases host
    have among : ch ':' ∉ label → ∀ c ∈ label, (c != ch '.' && c != ch ':') = true := by
      intro other c member
      have dot : c ≠ ch '.' := fun same => dotless (same ▸ member)
      have colon : c ≠ ch ':' := fun same => other (same ▸ member)
      simp [dot, colon]
    rcases cases_ with ⟨rfl, split⟩ | ⟨rest, rfl, split⟩
    · have length : hostLabelLength (host ++ tail) host.length = host.length := by
        rw [hostLabelLength, take_left, takeWhile_eq_self_iff.mpr (among plain)]
      refine ⟨by rw [length, split]; rfl, ?_⟩
      rw [labelLoop, length, take_left, drop_left, split, walk]
      simp only [length_eq_zero_iff, walk]
      rcases tail with _ | ⟨c, tail⟩
      · rfl
      · obtain rfl : c = ch ':' := by simpa using ends
        rfl
    · have plain' : ch ':' ∉ label := fun member => plain (mem_append_left _ member)
      have length : hostLabelLength (label ++ ch '.' :: rest ++ tail) (label ++ ch '.' :: rest).length = label.length := by
        rw [hostLabelLength, take_left, takeWhile_append_of_pos (among plain'), takeWhile_cons_of_neg (by simp),
          append_nil]
      refine ⟨by rw [length, split]; rfl, ?_⟩
      have left : (label ++ ch '.' :: rest).length - label.length - 1 = rest.length := by simp
      rw [length_append, length_cons] at enough
      have apart : ¬ ch '.' = ch ':' := by decide
      have plain'' : ch ':' ∉ rest := fun member => plain (mem_append_right _ (mem_cons_of_mem _ member))
      have later := fun fqdn => (ih fqdn plain'' (by omega)).2
      rw [labelLoop, length, left, append_assoc, take_left, drop_left, split, walk]
      simp only [length_eq_zero_iff, cons_append, if_neg apart, later]

theorem append_dotted (fqdn output : List UInt8) :
    ((fqdnAppend fqdn output).bind fun fqdn => fqdnAppend fqdn [ch '.']) =
      if fqdn.length + (output.length + 1) ≤ 255 then .ok (fqdn ++ (output ++ [ch '.'])) else .error .badUrl := by
  rw [fqdnAppend]
  by_cases first : 256 - fqdn.length ≤ output.length
  · rw [if_pos first, if_neg (by omega)]
    rfl
  · rw [if_neg first]
    show fqdnAppend (fqdn ++ output) [ch '.'] = _
    rw [fqdnAppend, length_append, length_singleton, append_assoc]
    by_cases second : 256 - (fqdn.length + output.length) ≤ 1
    · rw [if_pos second, if_neg (by omega)]
    · rw [if_neg second, if_pos (by omega)]

/-- The labels in front of the first empty one are converted, while there is room. -/
theorem walk_ok {parts : List (List UInt8)} {fqdn out : List UInt8} (room : fqdn.length ≤ 255) :
    walk convert parts fqdn = .ok out ↔ ∃ outs,
      List.Forall₂ (fun label a => convert label = .ok a) (parts.takeWhile fun label => label ≠ []) outs ∧
        out = fqdn ++ dotted outs ∧ out.length ≤ 255 := by
  have stop : ∀ {fqdn : List UInt8}, fqdn.length ≤ 255 → ((Except.ok fqdn : Except Nserror _) = .ok out ↔ ∃ outs,
      List.Forall₂ (fun label a => convert label = .ok a) [] outs ∧ out = fqdn ++ dotted outs ∧ out.length ≤ 255) := by
    intro fqdn room
    constructor
    · rintro ⟨⟩
      exact ⟨[], .nil, by simp [dotted], room⟩
    · rintro ⟨outs, none_, rfl, -⟩
      cases none_
      simp [dotted]
  induction parts generalizing fqdn with
  | nil => exact stop room
  | cons label parts ih =>
    rw [walk, takeWhile_cons]
    by_cases empty : label = []
    · rw [if_pos empty, if_neg (by simpa using empty)]
      exact stop room
    · rw [if_neg empty, if_pos (by simpa using empty)]
      rcases converted : convert label with e | a
      · refine iff_of_false (by simp) ?_
        rintro ⟨outs, _ | ⟨first, -⟩, -⟩
        rw [converted] at first
        cases first
      · simp only [append_dotted]
        by_cases fits : fqdn.length + (a.length + 1) ≤ 255
        · rw [if_pos fits]
          refine (ih (by simpa using fits)).trans ⟨?_, ?_⟩
          · rintro ⟨outs, all, rfl, short⟩
            exact ⟨a :: outs, .cons converted all, by simp [dotted], short⟩
          · rintro ⟨_, _ | ⟨first, all⟩, rfl, short⟩
            obtain rfl := Except.ok.inj (converted.symm.trans first)
            exact ⟨_, all, by simp [dotted], short⟩
        · rw [if_neg fits]
          refine iff_of_false (by simp) ?_
          rintro ⟨_, _ | ⟨first, -⟩, rfl, short⟩
          obtain rfl := Except.ok.inj (converted.symm.trans first)
          simp only [dotted, flatMap_cons, length_append, length_singleton] at short
          omega

theorem dotted_eq {parts : List (List UInt8)} (some_ : parts ≠ []) : dotted parts = joined parts ++ [ch '.'] := by
  induction parts with
  | nil => exact absurd rfl some_
  | cons label parts ih =>
    rcases parts with _ | ⟨next, parts⟩
    · simp [dotted, joined]
    · rw [joined, intercalate_cons_cons, ← joined, append_assoc, append_assoc, ← ih (cons_ne_nil _ _)]
      simp [dotted]

/-- A host is converted label by label, up to the first empty one. -/
theorem convertHost_ok {host tail out : List UInt8} (plain : ch ':' ∉ host)
    (ends : tail = [] ∨ tail.head? = some (ch ':')) :
    convertHost convert (host ++ tail) host.length = .ok out ↔ front host ≠ [] ∧ ∃ outs,
      List.Forall₂ (fun label a => convert label = .ok a) (front host) outs ∧ out = joined outs ∧ out.length ≤ 254 := by
  obtain ⟨length, loop⟩ := @labelLoop_eq convert (host.length + 1) host tail [] plain ends (Nat.lt_succ_self _)
  have first : hostLabelLength (host ++ tail) host.length = 0 ↔ front host = [] := by
    rw [length, front]
    rcases split : host.splitOn (ch '.') with _ | ⟨label, parts⟩
    · exact absurd split (splitOn_ne_nil _ _)
    · rw [takeWhile_cons]
      by_cases empty : label = [] <;> simp [empty]
  rw [convertHost]
  by_cases none_ : front host = []
  · rw [if_pos (first.mpr none_)]
    exact iff_of_false (by simp) fun ⟨some_, _⟩ => some_ none_
  · rw [if_neg (mt first.mp none_), loop]
    have nonempty : ∀ {outs}, List.Forall₂ (fun label a => convert label = .ok a) (front host) outs → outs ≠ [] := by
      rintro outs all rfl
      exact none_ (List.forall₂_nil_right_iff.mp all)
    constructor
    · intro same
      rcases walked : walk convert (host.splitOn (ch '.')) [] with e | fqdn
      · rw [walked] at same
        cases same
      · rw [walked] at same
        obtain ⟨outs, all, rfl, short⟩ := (walk_ok (by simp)).mp walked
        obtain rfl := Except.ok.inj same
        rw [nil_append, dotted_eq (nonempty all)] at short ⊢
        rw [length_append, length_singleton] at short
        exact ⟨none_, outs, all, dropLast_concat, by rw [dropLast_concat]; omega⟩
    · rintro ⟨-, outs, all, rfl, short⟩
      have walked : walk convert (host.splitOn (ch '.')) [] = .ok (dotted outs) :=
        (walk_ok (by simp)).mpr ⟨outs, all, rfl, by rw [dotted_eq (nonempty all)]; simp; omega⟩
      rw [walked, dotted_eq (nonempty all)]
      exact congrArg Except.ok dropLast_concat

end

variable {a host label : List UInt8} {ls outs : List (List UInt8)}

theorem exists_source {R : List UInt8 → List UInt8 → Prop} (all : List.Forall₂ R ls outs) (member : a ∈ outs) :
    ∃ label ∈ ls, R label a := by
  induction all with
  | nil => cases member
  | cons first _ ih =>
    rcases mem_cons.mp member with rfl | later
    · exact ⟨_, mem_cons_self, first⟩
    · obtain ⟨label, listed, related⟩ := ih later
      exact ⟨label, mem_cons_of_mem _ listed, related⟩

theorem front_eq (host : List UInt8) : front host = (labels host).takeWhile fun label => label ≠ [] := by
  rw [front, labels]
  split
  next last =>
    obtain ⟨parts, split⟩ := List.getLast?_eq_some_iff.mp last.2
    rw [split, dropLast_concat, takeWhile_append]
    split
    next all =>
      rw [takeWhile_cons_of_neg (by simp), append_nil]
      exact (( takeWhile_prefix _).eq_of_length all).symm
    next => rfl
  next => rfl

theorem front_eq_labels (full : ∀ label ∈ labels host, label ≠ []) : front host = labels host := by
  rw [front_eq, takeWhile_eq_self_iff]
  intro label member
  simpa using full label member

theorem dot_notMem (member : label ∈ host.splitOn (ch '.')) : ch '.' ∉ label := by
  induction size : host.length using Nat.strong_induction_on generalizing host with
  | h n ih =>
    obtain ⟨first, dotless, ⟨-, split⟩ | ⟨rest, rfl, split⟩⟩ := host_cases host
    · rw [split, mem_singleton] at member
      exact member ▸ dotless
    · rw [split] at member
      rcases mem_cons.mp member with rfl | later
      · exact dotless
      · exact ih rest.length (by rw [← size, length_append, length_cons]; omega) later rfl

theorem dot_notMem_labels (member : label ∈ labels host) : ch '.' ∉ label := by
  rw [labels] at member
  split at member
  · exact dot_notMem ((dropLast_sublist _).subset member)
  · exact dot_notMem member

theorem mem_joined {parts : List (List UInt8)} {c : UInt8} (member : c ∈ joined parts) :
    c = ch '.' ∨ ∃ label ∈ parts, c ∈ label := by
  rcases parts with _ | ⟨first, parts⟩
  · cases member
  · have dots := mem_append_left [ch '.'] member
    rw [← dotted_eq (cons_ne_nil _ _), dotted, mem_flatMap] at dots
    obtain ⟨label, listed, among⟩ := dots
    rcases mem_append.mp among with inside | last
    · exact .inr ⟨label, listed, inside⟩
    · exact .inl (mem_singleton.mp last)

/-- What a label is to become: itself, or the encoding of its normal form. -/
def EncodesTo (label a : List UInt8) : Prop := if isLdh label then a = label else codec.toAce label = .ok a

/-- A label that decoding gives back: it is not in ACE form, and its encoding, if it has one, does not end with a hyphen,
which is how labels of ASCII characters with a hyphen at one of their ends are encoded. -/
def ComesBack (label : List UInt8) : Prop :=
  if isLdh label then isAce label = false else ∀ a, codec.toAce label = .ok a → a.getLast? ≠ some (ch '-')

variable {codec}

theorem encodeLabel_ok (encoded : encodeLabel codec label = .ok a) :
    EncodesTo codec label a ∧ a.all ldhChar = true ∧ (label ≠ [] → a ≠ []) := by
  rw [encodeLabel] at encoded
  rw [EncodesTo]
  split at encoded
  next ldh =>
    rw [if_pos ldh]
    split at encoded
    · cases encoded
    · obtain rfl := Except.ok.inj encoded
      rw [isLdh, Bool.and_eq_true] at ldh
      exact ⟨rfl, ldh.2, id⟩
  next other =>
    rw [if_neg other]
    obtain ⟨begins, all, -⟩ := codec.ace _ _ encoded
    refine ⟨encoded, all, ?_⟩
    rintro - rfl
    exact absurd (prefix_nil.mp begins) (by decide)

theorem isAce_iff (begins : acePrefix <+: a) (all : a.all ldhChar = true) :
    isAce a = true ↔ a.getLast? ≠ some (ch '-') := by
  obtain ⟨rest, rfl⟩ := begins
  have first : (acePrefix ++ rest).head? = some (ch 'x') := rfl
  have other : (some (ch 'x') != some (ch '-')) = true := by decide
  rw [isAce, isLdh, first, other, all, isPrefixOf_iff_prefix.mpr (prefix_append _ _)]
  simp

theorem decodeLabel_ok_iff (encoded : EncodesTo codec label a) (normal : codec.normalise label = label) :
    decodeLabel codec a = .ok label ↔ ComesBack codec label := by
  rw [EncodesTo] at encoded
  rw [decodeLabel, ComesBack]
  split at encoded
  next ldh =>
    subst encoded
    rw [if_pos ldh]
    cases ace : isAce a
    · simp
    · exact iff_of_false (fun same => (codec.unicode _ _ same).2 rfl) (by simp)
  next other =>
    obtain ⟨begins, all, differs⟩ := codec.ace _ _ encoded
    rw [if_neg other]
    have only : (∀ a', codec.toAce label = .ok a' → a'.getLast? ≠ some (ch '-')) ↔ a.getLast? ≠ some (ch '-') :=
      ⟨fun each_ => each_ a encoded, fun own a' same => Except.ok.inj (encoded.symm.trans same) ▸ own⟩
    rw [only, ← isAce_iff begins all]
    cases isAce a
    · simpa using differs
    · simp [codec.inverse _ _ encoded, normal]

theorem dot_notMem_decoded (plain : ch '.' ∉ a) (decoded : decodeLabel codec a = .ok label) : ch '.' ∉ label := by
  rw [decodeLabel] at decoded
  split at decoded
  · exact (codec.unicode _ _ decoded).1
  · exact Except.ok.inj decoded ▸ plain

theorem decoded_all (encoded : List.Forall₂ (fun label a => EncodesTo codec label a) ls outs)
    (normal : ∀ label ∈ ls, codec.normalise label = label) :
    List.Forall₂ (fun a label => decodeLabel codec a = .ok label) outs ls ↔ ∀ label ∈ ls, ComesBack codec label := by
  induction encoded with
  | nil => simp
  | cons first _ ih =>
    rw [List.forall₂_cons, decodeLabel_ok_iff first (normal _ mem_cons_self),
      ih fun label member => normal label (mem_cons_of_mem _ member), forall_mem_cons]

/-- Encoding keeps the labels of a host that it accepts, and decoding gives normalised labels back, if and only if no
label is empty, but for one at the end, and, where the labels are normalised, each of them comes back and they have no
more than 254 bytes in all. -/
theorem labels_kept_iff {tail out : List UInt8} (plain : ch ':' ∉ host)
    (ends : tail = [] ∨ tail.head? = some (ch ':')) (accepted : idnaEncode codec (host ++ tail) host.length = .ok out) :
    (List.Forall₂ (EncodesTo codec) (labels host) (out.splitOn (ch '.')) ∧ out.length ≤ 255 ∧
      ((∀ label ∈ labels host, codec.normalise label = label) →
        idnaDecode codec out out.length = .ok (joined (labels host)))) ↔
    (∀ label ∈ labels host, label ≠ []) ∧
      ((∀ label ∈ labels host, codec.normalise label = label) →
        (∀ label ∈ labels host, ComesBack codec label) ∧ (joined (labels host)).length ≤ 254) := by
  obtain ⟨some_, outs, all, rfl, short⟩ := (convertHost_ok plain ends).mp accepted
  have each_ : ∀ a ∈ outs, a.all ldhChar = true ∧ a ≠ [] := by
    intro a member
    obtain ⟨label, listed, encoded⟩ := exists_source all member
    obtain ⟨-, ldh, full⟩ := encodeLabel_ok encoded
    exact ⟨ldh, full (by simpa using mem_takeWhile_imp listed)⟩
  have outs_some : outs ≠ [] := fun none_ => some_ (List.forall₂_nil_right_iff.mp (none_ ▸ all))
  have dotless : ∀ a ∈ outs, ch '.' ∉ a := fun a member among =>
    absurd (all_eq_true.mp (each_ a member).1 _ among) (by decide)
  have split : (joined outs).splitOn (ch '.') = outs := splitOn_intercalate _ dotless outs_some
  have encoded : List.Forall₂ (EncodesTo codec) (front host) outs := all.imp fun _ _ same => (encodeLabel_ok same).1
  rw [split]
  by_cases full : ∀ label ∈ labels host, label ≠ []
  · have same := front_eq_labels full
    rw [same] at encoded some_
    have colonless : ch ':' ∉ joined outs := by
      intro member
      rcases mem_joined member with dot | ⟨a, listed, among⟩
      · exact absurd dot (by decide)
      · exact absurd (all_eq_true.mp (each_ a listed).1 _ among) (by decide)
    have front_outs : front (joined outs) = outs := by
      rw [front, split, takeWhile_eq_self_iff]
      intro a member
      simpa using (each_ a member).2
    have decodes := @convertHost_ok (decodeLabel codec) (joined outs) [] (joined (labels host)) colonless (.inl rfl)
    rw [append_nil, front_outs] at decodes
    refine ⟨fun ⟨_, _, back⟩ => ⟨full, fun normal => ?_⟩, fun ⟨_, condition⟩ => ⟨encoded, by omega, fun normal => ?_⟩⟩
    · obtain ⟨-, backs, decoded, joins, small⟩ := decodes.mp (back normal)
      have dotless' : ∀ label ∈ backs, ch '.' ∉ label := by
        intro label member
        obtain ⟨a, listed, from_⟩ := exists_source decoded member
        exact dot_notMem_decoded (dotless a listed) from_
      have backs_some : backs ≠ [] := fun none_ => outs_some (List.forall₂_nil_right_iff.mp (none_ ▸ decoded))
      have split' := congrArg (List.splitOn (ch '.')) joins
      rw [joined, joined, splitOn_intercalate _ (fun label => dot_notMem_labels) some_,
        splitOn_intercalate _ dotless' backs_some] at split'
      subst split'
      exact ⟨(decoded_all encoded normal).mp decoded, small⟩
    · obtain ⟨comes, small⟩ := condition normal
      exact decodes.mpr ⟨outs_some, _, (decoded_all encoded normal).mpr comes, rfl, small⟩
  · refine iff_of_false (fun ⟨kept, _⟩ => full ?_) fun ⟨all_full, _⟩ => full all_full
    have length := kept.length_eq.trans encoded.length_eq.symm
    rw [front_eq] at length
    have same := ( takeWhile_prefix fun label : List UInt8 => label ≠ []).eq_of_length length.symm
    intro label member
    simpa using takeWhile_eq_self_iff.mp same label member

/-- A codec for hosts with one label that is not ASCII, `bücher`. -/
def books : List UInt8 := [0x62, 0xC3, 0xBC, 0x63, 0x68, 0x65, 0x72]
def aceBooks : List UInt8 := lit "xn--bcher-kva"

def translate (source target label : List UInt8) : Except Nserror (List UInt8) :=
  if label = source then .ok target else .error .badUrl

theorem translate_ok {source target output : List UInt8} :
    translate source target label = .ok output ↔ label = source ∧ output = target := by
  rw [translate]
  split
  next same => exact ⟨fun made => ⟨same, (Except.ok.inj made).symm⟩, fun both => by rw [both.2]⟩
  next other => exact ⟨fun made => (nomatch made), fun both => absurd both.1 other⟩

theorem books_ace (label a : List UInt8) (same : translate books aceBooks label = .ok a) :
    acePrefix <+: a ∧ a.all ldhChar = true ∧ a ≠ label := by
  obtain ⟨rfl, rfl⟩ := translate_ok.mp same
  decide

theorem books_inverse (label a : List UInt8) (same : translate books aceBooks label = .ok a) :
    translate aceBooks books a = .ok (id label) := by
  obtain ⟨rfl, rfl⟩ := translate_ok.mp same
  exact translate_ok.mpr ⟨rfl, rfl⟩

theorem books_unicode (a label : List UInt8) (same : translate aceBooks books a = .ok label) : ch '.' ∉ label ∧ label ≠ a := by
  obtain ⟨rfl, rfl⟩ := translate_ok.mp same
  decide

def booksCodec : Codec where
  toAce := translate books aceBooks
  toUnicode := translate aceBooks books
  verify label := label == aceBooks
  normalise := id
  ace := books_ace
  inverse := books_inverse
  unicode := books_unicode

theorem books_comesBack : ComesBack booksCodec books := by
  rw [ComesBack, if_neg (by decide)]
  intro a encoded
  have same : translate books aceBooks books = .ok a := encoded
  rw [(translate_ok.mp same).2]
  decide

theorem comesBack_of_ldh (ldh : isLdh label = true) (plain : isAce label = false) : ComesBack codec label := by
  rw [ComesBack, if_pos ldh]
  exact plain

def booksHost : List UInt8 := lit "www." ++ books ++ lit ".org"

theorem labels_kept_of_books : idnaEncode booksCodec (booksHost ++ lit ":80") 15 = .ok (lit "www.xn--bcher-kva.org") ∧
    idnaDecode booksCodec (lit "www.xn--bcher-kva.org") 21 = .ok (joined (labels booksHost)) := by
  have accepted : idnaEncode booksCodec (booksHost ++ lit ":80") booksHost.length = .ok (lit "www.xn--bcher-kva.org") := by
    decide +kernel
  have three : labels booksHost = [lit "www", books, lit "org"] := by decide +kernel
  have comes : ∀ label ∈ labels booksHost, ComesBack booksCodec label := by
    rw [three]
    exact forall_mem_cons.mpr ⟨comesBack_of_ldh (by decide) (by decide), forall_mem_cons.mpr
      ⟨books_comesBack, forall_mem_singleton.mpr (comesBack_of_ldh (by decide) (by decide))⟩⟩
  have kept := (labels_kept_iff (by decide +kernel) (.inr (by decide +kernel)) accepted).mpr
    ⟨by decide +kernel, fun _ => ⟨comes, by decide +kernel⟩⟩
  exact ⟨accepted, kept.2.2 fun _ _ => rfl⟩

/-- The label behind an empty one is dropped. -/
theorem label_dropped : idnaEncode booksCodec (lit "a..b") 4 = .ok (lit "a") ∧
    ¬ List.Forall₂ (EncodesTo booksCodec) (labels (lit "a..b")) ((lit "a").splitOn (ch '.')) := by
  refine ⟨by decide +kernel, fun all => ?_⟩
  exact absurd all.length_eq (by decide +kernel)

end Besra.Idna
