import Mathlib
import Besra.NsurlMarkers

/-!
Splitting a header line into a name and a value, `llcache_fetch_split_header` of `netsurf/content/llcache.c`.

A line is the bytes before its NUL, and `len` is their number. A byte is read at an offset from the start of the
line; behind the NUL there is none, and `none` is the outcome of a call that reads one. Allocations succeed.
-/
namespace Besra.SplitHeader
open Lwc NsurlParse NsurlMarkers List

def isWhite (c : UInt8) : Bool := c == ch ' ' || c == 0x09 || c == 0x0d || c == 0x0a

/-- `data[pos]` -/
def readAt (line : List UInt8) (pos : Nat) : Option UInt8 := if pos ≤ line.length then some (byteAt line pos) else none

/-- "Strip trailing whitespace from name": `colon` goes back from `pos`, not in front of `data`. -/
def backTo (line : List UInt8) (data : Nat) : Nat → Nat
  | 0 => 0
  | pos + 1 => if data < pos + 1 ∧ isWhite (byteAt line pos) then backTo line data pos else pos + 1

/-- "Strip trailing whitespace from value": `data` has been moved, `len` has not. -/
def stripLen (line : List UInt8) (data : Nat) : Nat → Option Nat
  | 0 => some 0
  | len + 1 => do
    let c ← readAt line (data + len)
    if isWhite c then stripLen line data len else return len + 1

/-- `strndup` of the line from `pos` on; a negative length is a `size_t` that no string reaches. -/
def strndup (line : List UInt8) (pos : Nat) (length : Int) : List UInt8 :=
  if length < 0 then line.drop pos else (line.drop pos).take length.toNat

/-- `llcache_fetch_split_header`: the name and the value. -/
def splitHeader (line : List UInt8) : Option (List UInt8 × List UInt8) :=
  let data := skip isWhite line 0
  let colon := skip (· ≠ ch ':') line data
  let stop := backTo line data colon
  let n := strndup line data (stop - data)
  if byteAt line colon ≠ ch ':' then some (n, [])
  else do
    let v := skip isWhite line (colon + 1)
    let len ← stripLen line data line.length
    return (n, strndup line v (len - (v - data)))

def strip (text : List UInt8) : List UInt8 := (text.dropWhile isWhite).rdropWhile isWhite

def beforeColon (line : List UInt8) : List UInt8 := line.takeWhile (· ≠ ch ':')

def afterColon (line : List UInt8) : List UInt8 := (line.dropWhile (· ≠ ch ':')).tail

/-- The line is split at its first colon, and nothing outside it is read. -/
def SplitsRight (line : List UInt8) : Prop :=
  splitHeader line = some (strip (beforeColon line), strip (afterColon line))

instance (line : List UInt8) : Decidable (SplitsRight line) := inferInstanceAs (Decidable (_ = _))

/-- The white space in front of the name. -/
def indent (line : List UInt8) : Nat := (line.takeWhile isWhite).length

/-- Nothing is to be stripped from the end of the value, or there is no value. -/
def TightValue (line : List UInt8) : Prop :=
  (∀ c ∈ afterColon line, isWhite c = true) ∨ ∀ c ∈ line.getLast?, isWhite c = false

example : splitHeader (lit "Content-Type : text/html \r\n") = some (lit "Content-Type", lit "text/html") := by
  decide +kernel

theorem byteAt_append (s t : List UInt8) (pos : Nat) : byteAt (s ++ t) (s.length + pos) = byteAt t pos := by
  rw [← byteAt_drop, drop_left, byteAt]

theorem byteAt_concat (s : List UInt8) (c : UInt8) (t : List UInt8) : byteAt (s ++ c :: t) s.length = c := by
  have here := byteAt_append s (c :: t) 0
  rwa [Nat.add_zero] at here

theorem backTo_eq (before text rest : List UInt8) :
    backTo (before ++ text ++ rest) before.length (before ++ text).length =
      (before ++ text.rdropWhile isWhite).length := by
  induction text using List.reverseRecOn generalizing rest with
  | nil =>
    rw [append_nil, rdropWhile_nil, append_nil]
    cases before with
    | nil => rfl
    | cons c before =>
      rw [length_cons, backTo, if_neg fun both => absurd both.1 (lt_irrefl _)]
  | append_singleton text c ih =>
    have last : byteAt (before ++ (text ++ [c]) ++ rest) (before ++ text).length = c := by
      have split : before ++ (text ++ [c]) ++ rest = (before ++ text) ++ c :: rest := by simp
      rw [split, byteAt_concat]
    have count : (before ++ (text ++ [c])).length = (before ++ text).length + 1 := by
      rw [← append_assoc, length_append, length_singleton]
    have within : before.length < (before ++ text).length + 1 := by
      rw [length_append]
      omega
    rw [count, backTo, last]
    by_cases white : isWhite c = true
    · rw [if_pos ⟨within, white⟩, rdropWhile_concat_pos _ _ _ white]
      have split : before ++ (text ++ [c]) ++ rest = before ++ text ++ ([c] ++ rest) := by simp
      rw [split, ih]
    · rw [if_neg fun both => white both.2, rdropWhile_concat_neg _ _ _ white, ← count]

theorem stripLen_zero (text rest : List UInt8) :
    stripLen (text ++ rest) 0 text.length = some (text.rdropWhile isWhite).length := by
  induction text using List.reverseRecOn generalizing rest with
  | nil => rfl
  | append_singleton text c ih =>
    have last : readAt (text ++ [c] ++ rest) (0 + text.length) = some c := by
      have inside : 0 + text.length ≤ (text ++ [c] ++ rest).length := by
        rw [append_assoc, length_append]
        omega
      rw [readAt, if_pos inside, Nat.zero_add, append_assoc, singleton_append, byteAt_concat]
    rw [length_append, length_singleton, stripLen, last]
    by_cases white : isWhite c = true
    · rw [rdropWhile_concat_pos _ _ _ white, append_assoc]
      simp only [Option.bind_eq_bind, Option.bind_some, white, if_true]
      exact ih _
    · rw [rdropWhile_concat_neg _ _ _ white]
      simp [white]

theorem skip_append (p : UInt8 → Bool) (s t : List UInt8) : skip p (s ++ t) s.length = (s ++ t.takeWhile p).length := by
  rw [skip, drop_left, length_append]

theorem strndup_append (s t u : List UInt8) (length : Int) (count : length = t.length) :
    strndup (s ++ t ++ u) s.length length = t := by
  rw [strndup, count, if_neg (by omega), append_assoc, drop_left, Int.toNat_natCast, take_left]

theorem line_split (line : List UInt8) :
    (line = beforeColon line ∧ ch ':' ∉ line ∧ afterColon line = []) ∨
      line = beforeColon line ++ ch ':' :: afterColon line := by
  have parts : beforeColon line ++ line.dropWhile (· ≠ ch ':') = line := takeWhile_append_dropWhile
  rcases rest : line.dropWhile (· ≠ ch ':') with _ | ⟨c, after⟩
  · rw [rest, append_nil] at parts
    refine .inl ⟨parts.symm, fun colon => ?_, ?_⟩
    · exact absurd rfl (of_decide_eq_true (dropWhile_eq_nil_iff.mp rest _ colon))
    · rw [afterColon, rest, tail_nil]
  · have first : c = ch ':' := by
      have fails := List.head?_dropWhile_not (· ≠ ch ':') line
      rw [rest] at fails
      simpa using fails
    rw [rest, first] at parts
    rw [afterColon, rest]
    exact .inr parts.symm

theorem colon_notMem (line : List UInt8) : ch ':' ∉ beforeColon line := by
  intro member
  have other := mem_takeWhile_imp (p := (· ≠ ch ':')) member
  exact absurd rfl (of_decide_eq_true other)

theorem front (line : List UInt8) :
    skip isWhite line 0 = indent line ∧
      skip (· ≠ ch ':') line (indent line) = (beforeColon line).length ∧
      strndup line (indent line) (backTo line (indent line) (beforeColon line).length - indent line) =
        strip (beforeColon line) := by
  obtain ⟨lead, leads⟩ : ∃ lead, (beforeColon line).takeWhile isWhite = lead := ⟨_, rfl⟩
  obtain ⟨name, names⟩ : ∃ name, (beforeColon line).dropWhile isWhite = name := ⟨_, rfl⟩
  have before : beforeColon line = lead ++ name := by rw [← leads, ← names, takeWhile_append_dropWhile]
  -- the colon is no white space, and ends the search where there is one
  obtain ⟨rest, whole, solid, stops⟩ : ∃ rest, line = beforeColon line ++ rest ∧
      rest.takeWhile isWhite = [] ∧ rest.takeWhile (· ≠ ch ':') = [] := by
    rcases line_split line with ⟨same, -⟩ | same
    · exact ⟨[], by rw [append_nil, ← same], rfl, rfl⟩
    · exact ⟨ch ':' :: afterColon line, same, takeWhile_cons_of_neg (by decide),
        takeWhile_cons_of_neg (by decide)⟩
  have data : indent line = lead.length := by
    rw [indent, whole, takeWhile_append, solid, append_nil, leads]
    split_ifs with all
    · rw [← all]
    · rfl
  have others : name.takeWhile (· ≠ ch ':') = name := by
    refine takeWhile_eq_self_iff.mpr fun c member => decide_eq_true fun colon => colon_notMem line ?_
    rw [before, ← colon]
    exact mem_append_right _ member
  refine ⟨?_, ?_, ?_⟩
  · rw [skip, drop_zero, Nat.zero_add]
    rfl
  · have run : (name ++ rest).takeWhile (· ≠ ch ':') = name := by
      rw [takeWhile_append, others, if_pos rfl, stops, append_nil]
    have position := skip_append (· ≠ ch ':') lead (name ++ rest)
    rwa [run, ← append_assoc, ← before, ← whole, ← data] at position
  · obtain ⟨white, ending⟩ := rdropWhile_prefix isWhite name
    have back := backTo_eq lead name rest
    rw [← before, ← whole, ← data] at back
    have text : line = lead ++ name.rdropWhile isWhite ++ (white ++ rest) := by
      rw [← append_assoc, append_assoc lead, ending, ← before, ← whole]
    have cut := strndup_append lead (name.rdropWhile isWhite) (white ++ rest)
      ((lead ++ name.rdropWhile isWhite).length - lead.length) (by rw [length_append]; omega)
    rw [← text, ← data] at cut
    rw [strip, names, back, cut]

variable {line : List UInt8}

theorem splitHeader_bare (ends : 0 ∉ line) (none : ch ':' ∉ line) : splitHeader line = some (strip line, []) := by
  obtain ⟨data, colon, name⟩ := front line
  have same := ((line_split line).resolve_right fun parts => none (parts ▸ mem_append_right _ mem_cons_self)).1
  rw [← same] at colon name
  have stop : byteAt line line.length ≠ ch ':' := by
    rw [(byteAt_eq_zero ends le_rfl).mpr rfl]
    decide
  simp only [splitHeader, data, colon, if_pos stop, name]

def valueOf (line : List UInt8) (len : Nat) : List UInt8 :=
  let v := skip isWhite line ((beforeColon line).length + 1)
  strndup line v (len - (v - indent line))

theorem splitHeader_colon (present : ch ':' ∈ line) :
    splitHeader line =
      (stripLen line (indent line) line.length).map fun len => (strip (beforeColon line), valueOf line len) := by
  obtain ⟨data, colon, name⟩ := front line
  have parts := (line_split line).resolve_left fun bare => bare.2.1 present
  have here : ¬ byteAt line (beforeColon line).length ≠ ch ':' := by
    have colon := byteAt_concat (beforeColon line) (ch ':') (afterColon line)
    rw [← parts] at colon
    exact not_not.mpr colon
  simp only [splitHeader, data, colon, if_neg here, name, valueOf]
  cases stripLen line (indent line) line.length <;> rfl

theorem value_start (present : ch ':' ∈ line) :
    ∃ front, line = front ++ (afterColon line).dropWhile isWhite ∧ (beforeColon line).length < front.length ∧
      skip isWhite line ((beforeColon line).length + 1) = front.length := by
  have parts := (line_split line).resolve_left fun bare => bare.2.1 present
  refine ⟨beforeColon line ++ ch ':' :: (afterColon line).takeWhile isWhite, ?_, ?_, ?_⟩
  · rw [append_assoc, cons_append, takeWhile_append_dropWhile, ← parts]
  · rw [length_append, length_cons]
    omega
  · have split : line = (beforeColon line ++ [ch ':']) ++ afterColon line := by
      rw [append_assoc, singleton_append, ← parts]
    have position := skip_append isWhite (beforeColon line ++ [ch ':']) (afterColon line)
    rw [← split, length_append, length_singleton] at position
    rw [position, append_assoc, singleton_append]

theorem rdropWhile_append {before text : List UInt8} (some : text.rdropWhile isWhite ≠ []) :
    (before ++ text).rdropWhile isWhite = before ++ text.rdropWhile isWhite := by
  have left : (text.reverse.dropWhile isWhite).isEmpty = false := by
    rw [isEmpty_eq_false_iff]
    intro nothing
    rw [List.rdropWhile, nothing] at some
    exact some rfl
  rw [List.rdropWhile, reverse_append, dropWhile_append, left, if_neg Bool.false_ne_true,
    reverse_append, reverse_reverse, List.rdropWhile]

theorem dropWhile_of_strip {text : List UInt8} (blank : strip text = []) : text.dropWhile isWhite = [] := by
  have whites := rdropWhile_eq_nil_iff.mp blank
  rcases rest : text.dropWhile isWhite with _ | ⟨c, later⟩
  · rfl
  · have solid := List.head?_dropWhile_not isWhite text
    have white := whites c (by rw [rest]; exact mem_cons_self)
    rw [rest] at solid
    exact Bool.noConfusion (white.symm.trans solid)

theorem valueOf_unindented (present : ch ':' ∈ line) (bare : indent line = 0) :
    valueOf line (line.rdropWhile isWhite).length = strip (afterColon line) := by
  obtain ⟨front, whole, -, start⟩ := value_start present
  rw [valueOf, start, bare, strip]
  by_cases blank : ((afterColon line).dropWhile isWhite).rdropWhile isWhite = []
  · have rest : line.drop front.length = [] := by
      rw [dropWhile_of_strip blank, append_nil] at whole
      rw [whole, drop_length]
    rw [blank, strndup, rest, take_nil, ite_self]
  · generalize (afterColon line).dropWhile isWhite = value at whole blank ⊢
    obtain ⟨white, ending⟩ := rdropWhile_prefix isWhite value
    have cut := strndup_append front (value.rdropWhile isWhite) white
      ((line.rdropWhile isWhite).length - (front.length - 0))
    rw [append_assoc, ending, ← whole] at cut
    refine cut ?_
    rw [whole, rdropWhile_append blank, length_append]
    omega

theorem valueOf_indented (present : ch ':' ∈ line) (one : indent line = 1) :
    valueOf line line.length = (afterColon line).dropWhile isWhite := by
  obtain ⟨front, whole, -, start⟩ := value_start present
  rw [valueOf, start, one]
  have limit : front.length ≤ line.length := by
    rw [whole, length_append]
    omega
  have rest : line.drop front.length = (afterColon line).dropWhile isWhite := by
    conv_lhs => rw [whole, drop_left]
  rw [strndup, if_neg (by omega), rest, take_of_length_le]
  have count := congrArg List.length whole
  rw [length_append] at count
  omega

theorem stripLen_succ (ends : 0 ∉ line) (some : line ≠ []) (more : Nat) :
    stripLen line (more + 1) line.length = if more = 0 then Option.some line.length else none := by
  obtain ⟨len, count⟩ := Nat.exists_eq_succ_of_ne_zero (fun zero => some (length_eq_zero_iff.mp zero))
  rw [count, stripLen]
  split_ifs with zero
  · have last : readAt line (more + 1 + len) = Option.some 0 := by
      rw [zero, readAt, if_pos (by omega), (byteAt_eq_zero ends (by omega)).mpr (by omega)]
    rw [last]
    rfl
  · have outside : readAt line (more + 1 + len) = none := if_neg (by omega)
    rw [outside]
    rfl

theorem tight_iff (present : ch ':' ∈ line) :
    (afterColon line).dropWhile isWhite = strip (afterColon line) ↔ TightValue line := by
  obtain ⟨front, whole, -, -⟩ := value_start present
  rw [strip, eq_comm, rdropWhile_eq_self_iff, TightValue, ← dropWhile_eq_nil_iff]
  generalize (afterColon line).dropWhile isWhite = value at whole ⊢
  by_cases blank : value = []
  · exact iff_of_true (fun some => absurd blank some) (.inl blank)
  · rw [whole, List.getLast?_append_of_ne_nil _ blank, List.getLast?_eq_getLast_of_ne_nil blank]
    simp [blank]

/-- A line is split right where it has no colon or no white space in front of the name, or one byte of white space and
a value that ends with the line. -/
theorem splits_iff (ends : 0 ∉ line) :
    SplitsRight line ↔ ch ':' ∉ line ∨ indent line = 0 ∨ (indent line = 1 ∧ TightValue line) := by
  rw [SplitsRight]
  by_cases present : ch ':' ∈ line
  · rw [splitHeader_colon present]
    have some : line ≠ [] := ne_nil_of_mem present
    rcases spaces : indent line with _ | _ | more
    · have stripped := stripLen_zero line []
      rw [append_nil] at stripped
      rw [stripped, Option.map_some, valueOf_unindented present spaces]
      exact iff_of_true rfl (.inr (.inl rfl))
    · rw [stripLen_succ ends some, if_pos rfl, Option.map_some, valueOf_indented present spaces]
      simp only [Option.some.injEq, Prod.mk.injEq, true_and, tight_iff present, present, not_true_eq_false, false_or,
        Nat.add_eq_zero_iff, one_ne_zero, and_false]
    · rw [stripLen_succ ends some, if_neg (Nat.succ_ne_zero _), Option.map_none]
      refine iff_of_false (Option.some_ne_none _).symm ?_
      rintro (absent | zero | one)
      · exact absent present
      · exact Nat.succ_ne_zero _ zero
      · omega
  · refine iff_of_true ?_ (.inl present)
    obtain ⟨same, -, nothing⟩ := (line_split line).resolve_right fun parts =>
      present (parts ▸ mem_append_right _ mem_cons_self)
    rw [splitHeader_bare ends present, ← same, nothing]
    rfl

theorem splits_of_plain : SplitsRight (lit " ETag: \"a:b\"") :=
  (splits_iff (by decide +kernel)).mpr (.inr (.inr ⟨by decide +kernel, .inr (by decide +kernel)⟩))

/-- Behind two spaces the search for the end of the value starts outside the line. -/
theorem indented_line_left : 0 ∉ lit "  ETag: x" ∧ splitHeader (lit "  ETag: x") = none ∧ ¬ SplitsRight (lit "  ETag: x") := by
  decide +kernel

end Besra.SplitHeader
