import Besra.NsurlParse

/-!
Removing dot segments from a path (`nsurl__remove_dot_segments`), against the procedure of RFC 3986, 5.2.4. `loop` is
the source's loop on the output buffer itself.
-/
namespace Besra.DotSegments
open Lwc NsurlParse List

/-! ### The output buffer -/

/-- The buffer from `output` on, and where `output_pos` is in it. -/
structure Output where
  memory : Nat → UInt8
  pos : Nat

/-- `*output_pos++ = c` -/
def Output.put (out : Output) (c : UInt8) : Output := ⟨Function.update out.memory out.pos c, out.pos + 1⟩

/-- The bytes between `output` and `output_pos`. -/
def Output.text (out : Output) : List UInt8 := (List.range out.pos).map out.memory

/-- `while (output_pos > output && *output_pos != '/') output_pos--` -/
def backTo (memory : Nat → UInt8) : Nat → Nat
  | 0 => 0
  | pos + 1 => if memory (pos + 1) = ch '/' then pos + 1 else backTo memory pos

/-- `while (output_pos > output && *(output_pos - 1) != '/') output_pos--` -/
def backBehind (memory : Nat → UInt8) : Nat → Nat
  | 0 => 0
  | pos + 1 => if memory pos = ch '/' then pos + 1 else backBehind memory pos

/-- The loop of `nsurl__remove_dot_segments`, over the path from `path_pos` on. -/
def loop : Nat → List UInt8 → Output → Output
  | 0, _, out => out
  | fuel + 1, path, out =>
    let copied :=
      let segment := path.take 1 ++ (path.drop 1).takeWhile (· ≠ ch '/')
      loop fuel (path.drop segment.length) (segment.foldl Output.put out)
    if path = [] then out
    else if (lit "../").isPrefixOf path then loop fuel (path.drop 3) out
    else if (lit "./").isPrefixOf path then loop fuel (path.drop 2) out
    else if (lit "/./").isPrefixOf path then loop fuel (path.drop 2) out
    else if path = lit "/." then out.put (ch '/')
    else if (lit "/../").isPrefixOf path then
      loop fuel (path.drop 3) { out with pos := backTo out.memory (out.pos - 1) }
    else if path = lit "/.." then { out with pos := backBehind out.memory out.pos }
    else copied

/-- What `nsurl__remove_dot_segments` writes into a buffer that holds `memory`. -/
def written (memory : Nat → UInt8) (path : List UInt8) : List UInt8 := (loop path.length path ⟨memory, 0⟩).text

theorem text_succ (memory : Nat → UInt8) (pos : Nat) :
    Output.text ⟨memory, pos + 1⟩ = Output.text ⟨memory, pos⟩ ++ [memory pos] := by
  simp [Output.text, range_succ]

theorem text_put (out : Output) (c : UInt8) : (out.put c).text = out.text ++ [c] := by
  have before : (List.range out.pos).map (Function.update out.memory out.pos c) =
      (List.range out.pos).map out.memory := by
    refine map_congr_left fun i member => ?_
    exact Function.update_of_ne (Nat.ne_of_lt (mem_range.mp member)) c out.memory
  rw [Output.put, text_succ, Function.update_self]
  exact congrArg (· ++ [c]) before

theorem text_putAll (segment : List UInt8) (out : Output) :
    (segment.foldl Output.put out).text = out.text ++ segment := by
  induction segment generalizing out with
  | nil => rw [foldl_nil, append_nil]
  | cons c segment ih => rw [foldl_cons, ih, text_put, append_assoc, singleton_append]

theorem text_backTo (memory : Nat → UInt8) (pos : Nat) :
    (Output.text ⟨memory, backTo memory pos⟩).reverse =
      ((Output.text ⟨memory, pos + 1⟩).reverse.dropWhile (· ≠ ch '/')).drop 1 := by
  induction pos with
  | zero =>
    rw [text_succ, reverse_append, reverse_singleton, singleton_append]
    by_cases slash : memory 0 = ch '/'
    · simp [backTo, Output.text, slash]
    · simp [backTo, Output.text, slash]
  | succ pos ih =>
    rw [text_succ memory (pos + 1), reverse_append, reverse_singleton, singleton_append, backTo]
    by_cases slash : memory (pos + 1) = ch '/'
    · rw [if_pos slash, dropWhile_cons_of_neg (by simp [slash]), drop_succ_cons, drop_zero]
    · rw [if_neg slash, dropWhile_cons_of_pos (by simp [slash]), ih]

theorem text_pop (out : Output) :
    (Output.text { out with pos := backTo out.memory (out.pos - 1) }).reverse =
      (out.text.reverse.dropWhile (· ≠ ch '/')).drop 1 := by
  obtain ⟨memory, _ | pos⟩ := out
  · rfl
  · exact text_backTo memory pos

theorem text_backBehind (memory : Nat → UInt8) (pos : Nat) :
    (Output.text ⟨memory, backBehind memory pos⟩).reverse =
      (Output.text ⟨memory, pos⟩).reverse.dropWhile (· ≠ ch '/') := by
  induction pos with
  | zero => rfl
  | succ pos ih =>
    rw [backBehind]
    by_cases slash : memory pos = ch '/'
    · rw [if_pos slash, text_succ, reverse_append, reverse_singleton, singleton_append,
        dropWhile_cons_of_neg (by simp [slash])]
    · rw [if_neg slash, text_succ, reverse_append, reverse_singleton, singleton_append,
        dropWhile_cons_of_pos (by simp [slash]), ih]

theorem text_loop (fuel : Nat) (path : List UInt8) (out : Output) :
    (loop fuel path out).text = (removeDotSegmentsLoop fuel path out.text.reverse).reverse := by
  induction fuel generalizing path out with
  | zero => rw [loop, removeDotSegmentsLoop, reverse_reverse]
  | succ fuel ih =>
    rw [loop, removeDotSegmentsLoop]
    split_ifs
    · rw [reverse_reverse]
    · exact ih _ _
    · exact ih _ _
    · exact ih _ _
    · rw [text_put, reverse_cons, reverse_reverse]
    · rw [ih, text_pop]
    · rw [← text_backBehind, reverse_reverse]
    · simp only [ih, text_putAll, reverse_append]

theorem written_eq (memory : Nat → UInt8) (path : List UInt8) : written memory path = removeDotSegments path := by
  rw [written, text_loop]
  rfl

/-! ### The procedure of the RFC -/

def removeLast (output : List UInt8) : List UInt8 := ((output.reverse.dropWhile (· ≠ ch '/')).drop 1).reverse

def rfcLoop : Nat → List UInt8 → List UInt8 → List UInt8
  | 0, _, output => output
  | fuel + 1, input, output =>
    if input = [] then output
    else if (lit "../").isPrefixOf input then rfcLoop fuel (input.drop 3) output
    else if (lit "./").isPrefixOf input then rfcLoop fuel (input.drop 2) output
    else if (lit "/./").isPrefixOf input then rfcLoop fuel (ch '/' :: input.drop 3) output
    else if input = lit "/." then rfcLoop fuel (lit "/") output
    else if (lit "/../").isPrefixOf input then rfcLoop fuel (ch '/' :: input.drop 4) (removeLast output)
    else if input = lit "/.." then rfcLoop fuel (lit "/") (removeLast output)
    else if input = lit "." ∨ input = lit ".." then rfcLoop fuel [] output
    else
      -- "the first path segment in the input buffer [..] including the initial \"/\" character (if any)"
      let segment := input.take 1 ++ (input.drop 1).takeWhile (· ≠ ch '/')
      rfcLoop fuel (input.drop segment.length) (output ++ segment)

/-- RFC 3986, 5.2.4; each round makes the input shorter. -/
def rfcRemoveDotSegments (path : List UInt8) : List UInt8 := rfcLoop path.length path []

/-! ### Segments -/

def join (first : List UInt8) (rest : List (List UInt8)) : List UInt8 := first ++ rest.flatMap (ch '/' :: ·)

def isDot (segment : List UInt8) : Bool := segment == lit "." || segment == lit ".."

def Apart (segments : List (List UInt8)) : Prop := ∀ segment ∈ segments, ch '/' ∉ segment

def Slashed (tail : List UInt8) : Prop := tail = [] ∨ ∃ more, tail = ch '/' :: more

theorem slashed_flatMap (rest : List (List UInt8)) : Slashed (rest.flatMap (ch '/' :: ·)) := by
  cases rest with
  | nil => exact .inl rfl
  | cons segment rest => exact .inr ⟨_, rfl⟩

theorem flatMap_eq_nil_iff (rest : List (List UInt8)) : rest.flatMap (ch '/' :: ·) = [] ↔ rest = [] := by
  cases rest <;> simp

theorem join_splitOn (path : List UInt8) : ∃ first rest, path.splitOn (ch '/') = first :: rest ∧
    path = join first rest ∧ Apart (first :: rest) := by
  induction path with
  | nil => exact ⟨[], [], rfl, rfl, by simp [Apart]⟩
  | cons c path ih =>
    obtain ⟨first, rest, split, joined, apart⟩ := ih
    rw [splitOn_cons_eq_if_modifyHead, split]
    by_cases slash : c = ch '/'
    · refine ⟨[], first :: rest, by simp [slash], by rw [joined, slash]; rfl, ?_⟩
      exact forall_mem_cons.mpr ⟨not_mem_nil, apart⟩
    · refine ⟨c :: first, rest, by simp [slash], by rw [joined]; rfl, ?_⟩
      obtain ⟨none, others⟩ := forall_mem_cons.mp apart
      refine forall_mem_cons.mpr ⟨fun member => ?_, others⟩
      rcases mem_cons.mp member with same | member
      · exact slash same.symm
      · exact none member

variable {rest segments : List (List UInt8)} {first segment tail name : List UInt8} {P : List UInt8 → Prop}
  {fuel : Nat}

theorem splitOn_join (apart : Apart (first :: rest)) : (join first rest).splitOn (ch '/') = first :: rest := by
  induction rest generalizing first with
  | nil =>
    rw [join, flatMap_nil, append_nil]
    exact splitOn_eq_singleton (apart first mem_cons_self)
  | cons segment rest ih =>
    obtain ⟨none, others⟩ := forall_mem_cons.mp apart
    rw [join, flatMap_cons, cons_append, splitOn_append_cons_self_of_not_mem none]
    exact congrArg (first :: ·) (ih others)

theorem takeWhile_segment (none : ch '/' ∉ segment) (slashed : Slashed tail) :
    (segment ++ tail).takeWhile (· ≠ ch '/') = segment := by
  rw [takeWhile_append_of_pos]
  · rcases slashed with rfl | ⟨more, rfl⟩
    · exact append_nil _
    · rw [takeWhile_cons_of_neg (by simp), append_nil]
  · intro c member
    exact decide_eq_true fun same => none (same ▸ member)

theorem prefix_iff (named : ch '/' ∉ name) (none : ch '/' ∉ segment) (slashed : Slashed tail) :
    (name ++ [ch '/']) <+: (segment ++ tail) ↔ segment = name ∧ tail ≠ [] := by
  constructor
  · rintro ⟨more, same⟩
    rw [append_assoc, singleton_append] at same
    have first := takeWhile_segment named (.inr ⟨more, rfl⟩)
    rw [same, takeWhile_segment none slashed] at first
    subst first
    rw [append_cancel_left same.symm]
    exact ⟨rfl, cons_ne_nil _ _⟩
  · rintro ⟨rfl, some⟩
    obtain ⟨more, rfl⟩ := slashed.resolve_left some
    exact ⟨more, by rw [append_assoc, singleton_append]⟩

theorem append_eq_iff (named : ch '/' ∉ name) (slashed : Slashed tail) :
    segment ++ tail = name ↔ segment = name ∧ tail = [] := by
  constructor
  · rintro rfl
    rcases slashed with rfl | ⟨more, rfl⟩
    · exact ⟨(append_nil _).symm, rfl⟩
    · exact absurd (by simp) named
  · rintro ⟨rfl, rfl⟩
    exact append_nil _

theorem tests_segment (none : ch '/' ∉ segment) (slashed : Slashed tail) :
    (lit "../").isPrefixOf (ch '/' :: (segment ++ tail)) = false ∧
      (lit "./").isPrefixOf (ch '/' :: (segment ++ tail)) = false ∧
      ((lit "/./").isPrefixOf (ch '/' :: (segment ++ tail)) = true ↔ segment = lit "." ∧ tail ≠ []) ∧
      (ch '/' :: (segment ++ tail) = lit "/." ↔ segment = lit "." ∧ tail = []) ∧
      ((lit "/../").isPrefixOf (ch '/' :: (segment ++ tail)) = true ↔ segment = lit ".." ∧ tail ≠ []) ∧
      (ch '/' :: (segment ++ tail) = lit "/.." ↔ segment = lit ".." ∧ tail = []) ∧
      ¬(ch '/' :: (segment ++ tail) = lit "." ∨ ch '/' :: (segment ++ tail) = lit "..") := by
  have dot : lit "/./" = ch '/' :: (lit "." ++ [ch '/']) := by decide
  have dots : lit "/../" = ch '/' :: (lit ".." ++ [ch '/']) := by decide
  have dot' : lit "/." = ch '/' :: lit "." := by decide
  have dots' : lit "/.." = ch '/' :: lit ".." := by decide
  refine ⟨rfl, rfl, ?_, ?_, ?_, ?_, ?_⟩
  · rw [ isPrefixOf_iff_prefix, dot, cons_prefix_cons, prefix_iff (by decide) none slashed]
    simp
  · rw [dot', List.cons.injEq, append_eq_iff (by decide) slashed]
    simp
  · rw [ isPrefixOf_iff_prefix, dots, cons_prefix_cons, prefix_iff (by decide) none slashed]
    simp
  · rw [dots', List.cons.injEq, append_eq_iff (by decide) slashed]
    simp
  · rintro (same | same)
    · exact absurd (List.cons.inj same).1 (by decide)
    · exact absurd (List.cons.inj same).1 (by decide)

/-! ### The stack -/

/-- The output: what was copied in front of the first slash, and the segments behind. -/
structure Stack where
  first : List UInt8
  kept : List (List UInt8)
deriving DecidableEq

def Stack.text (st : Stack) : List UInt8 := join st.first st.kept

def Stack.push (st : Stack) (segment : List UInt8) : Stack := { st with kept := st.kept ++ [segment] }

def Stack.pop (st : Stack) : Stack := if st.kept = [] then ⟨[], []⟩ else { st with kept := st.kept.dropLast }

def advance (st : Stack) (segment : List UInt8) : Stack :=
  if segment = lit "." then st
  else if segment = lit ".." then st.pop
  else st.push segment

def finish (st : Stack) (segment : List UInt8) : Stack :=
  if segment = lit "." then st.push []
  else if segment = lit ".." then st.pop.push []
  else st.push segment

def finishCode (st : Stack) (segment : List UInt8) : Stack :=
  if segment = lit ".." ∧ st.kept = [] then ⟨[], []⟩ else finish st segment

def resolve (last : Stack → List UInt8 → Stack) : Stack → List (List UInt8) → Stack
  | st, [] => st
  | st, [segment] => last st segment
  | st, segment :: other :: rest => resolve last (advance st segment) (other :: rest)

def Stack.All (P : List UInt8 → Prop) (st : Stack) : Prop := ∀ segment ∈ st.first :: st.kept, P segment

def Stack.Apart (st : Stack) : Prop := st.All (ch '/' ∉ ·)

theorem text_push (st : Stack) (segment : List UInt8) : (st.push segment).text = st.text ++ ch '/' :: segment := by
  simp [Stack.text, Stack.push, join]

variable {st : Stack}

theorem Stack.All.push (all : st.All P) (last : P segment) : (st.push segment).All P := by
  intro s member
  rw [Stack.push, ← cons_append, mem_append, mem_singleton] at member
  rcases member with member | rfl
  · exact all s member
  · exact last

theorem Stack.All.pop (all : st.All P) (empty : P []) : st.pop.All P := by
  unfold Stack.pop
  split_ifs
  · simpa [Stack.All] using empty
  · intro s member
    rcases mem_cons.mp member with rfl | member
    · exact all _ mem_cons_self
    · exact all s (mem_cons_of_mem _ (mem_of_mem_dropLast member))

theorem Stack.Apart.push (apart : st.Apart) (none : ch '/' ∉ segment) :
    (st.push segment).Apart := Stack.All.push apart none

theorem Stack.Apart.pop (apart : st.Apart) : st.pop.Apart := Stack.All.pop apart not_mem_nil

theorem dropWhile_text (apart : st.Apart) :
    st.text.reverse.dropWhile (· ≠ ch '/') =
      if st.kept = [] then [] else ch '/' :: st.pop.text.reverse := by
  have skip : ∀ segment : List UInt8, ch '/' ∉ segment → ∀ c ∈ segment.reverse, decide (c ≠ ch '/') = true := by
    intro segment none c member
    exact decide_eq_true fun same => none (same ▸ mem_reverse.mp member)
  obtain ⟨first, kept⟩ := st
  rcases eq_nil_or_concat' kept with rfl | ⟨before, segment, rfl⟩
  · rw [if_pos rfl, Stack.text, join, flatMap_nil, append_nil]
    exact dropWhile_eq_nil_iff.mpr (skip first (apart first mem_cons_self))
  · have none : ch '/' ∉ segment := apart segment (by simp)
    have split : Stack.text ⟨first, before ++ [segment]⟩ = join first before ++ ch '/' :: segment := by
      simp [Stack.text, join]
    rw [if_neg (by simp), split, reverse_append, reverse_cons, append_assoc, singleton_append,
      dropWhile_append_of_pos (skip segment none), dropWhile_cons_of_neg (by simp), Stack.pop,
      if_neg (by simp)]
    simp [Stack.text]

theorem drop_dropWhile_text (apart : st.Apart) :
    (st.text.reverse.dropWhile (· ≠ ch '/')).drop 1 = st.pop.text.reverse := by
  rw [dropWhile_text apart]
  split_ifs with empty
  · rw [Stack.pop, if_pos empty]
    rfl
  · rfl

/-! ### The two loops over segments -/

theorem resolve_cons (last : Stack → List UInt8 → Stack) (st : Stack) (segment : List UInt8) (more : rest ≠ []) :
    resolve last st (segment :: rest) = resolve last (advance st segment) rest := by
  cases rest with
  | nil => exact absurd rfl more
  | cons other rest => rfl

/-- The cases that both loops make at a segment. -/
theorem cases_segment (none : ch '/' ∉ segment) (slashed : Slashed tail) {α : Type} (e a b dot dotEnd up upEnd name : α) :
    (if ch '/' :: (segment ++ tail) = [] then e
      else if (lit "../").isPrefixOf (ch '/' :: (segment ++ tail)) then a
      else if (lit "./").isPrefixOf (ch '/' :: (segment ++ tail)) then b
      else if (lit "/./").isPrefixOf (ch '/' :: (segment ++ tail)) then dot
      else if ch '/' :: (segment ++ tail) = lit "/." then dotEnd
      else if (lit "/../").isPrefixOf (ch '/' :: (segment ++ tail)) then up
      else if ch '/' :: (segment ++ tail) = lit "/.." then upEnd
      else name) =
      if segment = lit "." then if tail = [] then dotEnd else dot
      else if segment = lit ".." then if tail = [] then upEnd else up
      else name := by
  obtain ⟨above, here, single, singleEnd, double, doubleEnd, -⟩ := tests_segment none slashed
  rw [if_neg (cons_ne_nil _ _), if_neg (by simp [above]), if_neg (by simp [here])]
  simp only [single, singleEnd, double, doubleEnd]
  by_cases last : tail = []
  · simp [last]
  · simp [last]

theorem copied_segment (none : ch '/' ∉ segment) (slashed : Slashed tail) :
    (ch '/' :: (segment ++ tail)).take 1 ++
      ((ch '/' :: (segment ++ tail)).drop 1).takeWhile (· ≠ ch '/') = ch '/' :: segment := by
  rw [take_succ_cons, take_zero, drop_succ_cons, drop_zero, takeWhile_segment none slashed, singleton_append]

theorem removeDotSegmentsLoop_segment (fuel : Nat) (none : ch '/' ∉ segment) (slashed : Slashed tail)
    (output : List UInt8) :
    removeDotSegmentsLoop (fuel + 1) (ch '/' :: (segment ++ tail)) output =
      if segment = lit "." then
        if tail = [] then ch '/' :: output else removeDotSegmentsLoop fuel tail output
      else if segment = lit ".." then
        if tail = [] then output.dropWhile (· ≠ ch '/')
        else removeDotSegmentsLoop fuel tail ((output.dropWhile (· ≠ ch '/')).drop 1)
      else removeDotSegmentsLoop fuel tail (segment.reverse ++ ch '/' :: output) := by
  rw [removeDotSegmentsLoop]
  simp only [copied_segment none slashed]
  rw [cases_segment none slashed]
  simp only [length_cons, drop_succ_cons, drop_left, reverse_cons, append_assoc, singleton_append]
  split_ifs with single last double last
  · rfl
  · rw [single]
    rfl
  · rfl
  · rw [double]
    rfl
  · rfl

theorem rfcLoop_segment (fuel : Nat) (none : ch '/' ∉ segment) (slashed : Slashed tail) (output : List UInt8) :
    rfcLoop (fuel + 1) (ch '/' :: (segment ++ tail)) output =
      if segment = lit "." then
        if tail = [] then rfcLoop fuel (lit "/") output else rfcLoop fuel tail output
      else if segment = lit ".." then
        if tail = [] then rfcLoop fuel (lit "/") (removeLast output) else rfcLoop fuel tail (removeLast output)
      else rfcLoop fuel tail (output ++ ch '/' :: segment) := by
  obtain ⟨-, -, -, -, -, -, bare⟩ := tests_segment none slashed
  have rest : tail ≠ [] → ch '/' :: tail.drop 1 = tail := by
    intro more
    obtain ⟨others, rfl⟩ := slashed.resolve_left more
    rfl
  rw [rfcLoop]
  simp only [copied_segment none slashed]
  rw [cases_segment none slashed, if_neg bare]
  simp only [length_cons, drop_succ_cons, drop_left]
  split_ifs with single last double last
  · rfl
  · rw [single]
    exact congrArg (rfcLoop fuel · output) (rest last)
  · rfl
  · rw [double]
    exact congrArg (rfcLoop fuel · (removeLast output)) (rest last)
  · rfl

theorem enough_rest (enough : ((segment :: rest).flatMap (ch '/' :: ·)).length ≤ fuel) :
    ∃ fuel', fuel = fuel' + 1 ∧ segment.length + (rest.flatMap (ch '/' :: ·)).length ≤ fuel' := by
  rw [flatMap_cons, cons_append, length_cons, length_append] at enough
  exact ⟨fuel - 1, by omega, by omega⟩

theorem loop_join (segments : List (List UInt8)) (apart : Apart segments) {st : Stack} (stApart : st.Apart) {fuel : Nat}
    (enough : (segments.flatMap (ch '/' :: ·)).length ≤ fuel) :
    removeDotSegmentsLoop fuel (segments.flatMap (ch '/' :: ·)) st.text.reverse =
      (resolve finishCode st segments).text.reverse := by
  induction segments generalizing st fuel with
  | nil => cases fuel <;> rfl
  | cons segment rest ih =>
    obtain ⟨none, others⟩ := forall_mem_cons.mp apart
    obtain ⟨fuel, rfl, enough⟩ := enough_rest enough
    have enough' : (rest.flatMap (ch '/' :: ·)).length ≤ fuel := by omega
    rw [flatMap_cons, cons_append, removeDotSegmentsLoop_segment fuel none (slashed_flatMap rest)]
    simp only [flatMap_eq_nil_iff, drop_dropWhile_text stApart]
    by_cases single : segment = lit "."
    · rw [if_pos single]
      by_cases last : rest = []
      · rw [if_pos last, last, resolve, finishCode,
          if_neg fun both => absurd (single.symm.trans both.1) (by decide), finish, if_pos single, text_push, reverse_append, reverse_singleton, singleton_append]
      · rw [if_neg last, resolve_cons _ _ _ last, advance, if_pos single, ih others stApart enough']
    · rw [if_neg single]
      by_cases double : segment = lit ".."
      · rw [if_pos double]
        by_cases last : rest = []
        · rw [if_pos last, last, resolve, finishCode, finish, if_neg single, if_pos double, dropWhile_text stApart]
          by_cases empty : st.kept = []
          · rw [if_pos empty, if_pos ⟨double, empty⟩]
            rfl
          · rw [if_neg empty, if_neg fun both => empty both.2, text_push, reverse_append, reverse_singleton,
              singleton_append]
        · rw [if_neg last, resolve_cons _ _ _ last, advance, if_neg single, if_pos double,
            ih others stApart.pop enough']
      · have pushed : segment.reverse ++ ch '/' :: st.text.reverse = (st.push segment).text.reverse := by
          rw [text_push, reverse_append, reverse_cons, append_assoc, singleton_append]
        rw [if_neg double, pushed, ih others (stApart.push none) enough']
        by_cases last : rest = []
        · rw [last, resolve, resolve, finishCode, if_neg fun both => double both.1, finish, if_neg single,
            if_neg double]
        · rw [resolve_cons _ _ _ last, advance, if_neg single, if_neg double]

theorem removeLast_text (apart : st.Apart) : removeLast st.text = st.pop.text := by
  rw [removeLast, drop_dropWhile_text apart, reverse_reverse]

theorem rfcLoop_slash (fuel : Nat) (st : Stack) : rfcLoop (fuel + 1) (lit "/") st.text = (st.push []).text := by
  rw [text_push]
  cases fuel <;> rfl

theorem rfcLoop_join (segments : List (List UInt8)) (apart : Apart segments) {st : Stack} (stApart : st.Apart)
    {fuel : Nat} (enough : (segments.flatMap (ch '/' :: ·)).length ≤ fuel) :
    rfcLoop fuel (segments.flatMap (ch '/' :: ·)) st.text = (resolve finish st segments).text := by
  induction segments generalizing st fuel with
  | nil => cases fuel <;> rfl
  | cons segment rest ih =>
    obtain ⟨none, others⟩ := forall_mem_cons.mp apart
    obtain ⟨fuel, rfl, enough⟩ := enough_rest enough
    have enough' : (rest.flatMap (ch '/' :: ·)).length ≤ fuel := by omega
    rw [flatMap_cons, cons_append, rfcLoop_segment fuel none (slashed_flatMap rest)]
    simp only [flatMap_eq_nil_iff, removeLast_text stApart]
    by_cases single : segment = lit "."
    · rw [if_pos single]
      by_cases last : rest = []
      · obtain ⟨fuel, rfl⟩ : ∃ k, fuel = k + 1 := ⟨fuel - 1, by rw [single] at enough; simp [lit] at enough; omega⟩
        rw [if_pos last, last, resolve, finish, if_pos single, rfcLoop_slash]
      · rw [if_neg last, resolve_cons _ _ _ last, advance, if_pos single, ih others stApart enough']
    · rw [if_neg single]
      by_cases double : segment = lit ".."
      · rw [if_pos double]
        by_cases last : rest = []
        · obtain ⟨fuel, rfl⟩ : ∃ k, fuel = k + 1 := ⟨fuel - 1, by rw [double] at enough; simp [lit] at enough; omega⟩
          rw [if_pos last, last, resolve, finish, if_neg single, if_pos double, rfcLoop_slash]
        · rw [if_neg last, resolve_cons _ _ _ last, advance, if_neg single, if_pos double,
            ih others stApart.pop enough']
      · rw [if_neg double, ← text_push, ih others (stApart.push none) enough']
        by_cases last : rest = []
        · rw [last, resolve, resolve, finish, if_neg single, if_neg double]
        · rw [resolve_cons _ _ _ last, advance, if_neg single, if_neg double]

/-! ### The first segment -/

/-- What is left when the segments `.` and `..` that a path begins with are dropped, but for the last one. -/
def strip : List UInt8 → List (List UInt8) → List UInt8 × List (List UInt8)
  | first, [] => (first, [])
  | first, segment :: rest => if isDot first then strip segment rest else (first, segment :: rest)

theorem isDot_iff (segment : List UInt8) : isDot segment = true ↔ segment = lit "." ∨ segment = lit ".." := by
  simp [isDot]

theorem strip_cases (first : List UInt8) (rest : List (List UInt8)) :
    isDot (strip first rest).1 = true → (strip first rest).2 = [] := by
  induction rest generalizing first with
  | nil => exact fun _ => rfl
  | cons segment rest ih =>
    rw [strip]
    split_ifs with dot
    · exact ih segment
    · exact fun dot' => absurd dot' dot

theorem strip_apart (apart : Apart (first :: rest)) : Apart ((strip first rest).1 :: (strip first rest).2) := by
  induction rest generalizing first with
  | nil => exact apart
  | cons segment rest ih =>
    rw [strip]
    split_ifs
    · exact ih (forall_mem_cons.mp apart).2
    · exact apart

theorem tests_first (rest : List (List UInt8)) (none : ch '/' ∉ first) :
    ((lit "../").isPrefixOf (join first rest) = true ↔ first = lit ".." ∧ rest ≠ []) ∧
      ((lit "./").isPrefixOf (join first rest) = true ↔ first = lit "." ∧ rest ≠ []) := by
  have dot : lit "./" = lit "." ++ [ch '/'] := by decide
  have dots : lit "../" = lit ".." ++ [ch '/'] := by decide
  have slashed := slashed_flatMap rest
  refine ⟨?_, ?_⟩
  · rw [ isPrefixOf_iff_prefix, dots, join, prefix_iff (by decide) none slashed, ne_eq, flatMap_eq_nil_iff]
  · rw [ isPrefixOf_iff_prefix, dot, join, prefix_iff (by decide) none slashed, ne_eq, flatMap_eq_nil_iff]

theorem tests_kept (none : ch '/' ∉ first) (some : first ≠ []) (kept : isDot first = true → rest = []) :
    ¬(lit "../").isPrefixOf (join first rest) = true ∧ ¬(lit "./").isPrefixOf (join first rest) = true ∧
      ¬(lit "/./").isPrefixOf (join first rest) = true ∧ join first rest ≠ lit "/." ∧
      ¬(lit "/../").isPrefixOf (join first rest) = true ∧ join first rest ≠ lit "/.." := by
  obtain ⟨dots, dot⟩ := tests_first rest none
  obtain ⟨c, first, rfl⟩ := exists_cons_of_ne_nil some
  have other : c ≠ ch '/' := fun same => none (same ▸ mem_cons_self)
  have dot' : lit "/./" = ch '/' :: lit "./" := by decide
  have dots' : lit "/../" = ch '/' :: lit "../" := by decide
  refine ⟨?_, ?_, ?_, ?_, ?_, ?_⟩
  · exact fun more => (dots.mp more).2 (kept ((isDot_iff _).mpr (.inr (dots.mp more).1)))
  · exact fun more => (dot.mp more).2 (kept ((isDot_iff _).mpr (.inl (dot.mp more).1)))
  · rw [join, dot', cons_append, isPrefixOf_cons_cons, beq_false_of_ne other.symm, Bool.false_and]
    exact Bool.false_ne_true
  · exact fun same => other (List.cons.inj same).1
  · rw [join, dots', cons_append, isPrefixOf_cons_cons, beq_false_of_ne other.symm, Bool.false_and]
    exact Bool.false_ne_true
  · exact fun same => other (List.cons.inj same).1

theorem copied_name (none : ch '/' ∉ first) (some : first ≠ []) :
    (join first rest).take 1 ++ ((join first rest).drop 1).takeWhile (· ≠ ch '/') = first := by
  obtain ⟨c, first, rfl⟩ := exists_cons_of_ne_nil some
  rw [join, cons_append, take_succ_cons, take_zero, drop_succ_cons, drop_zero,
    takeWhile_segment (fun member => none (mem_cons_of_mem _ member)) (slashed_flatMap rest), singleton_append]

theorem join_ne_nil (rest : List (List UInt8)) (some : first ≠ []) : join first rest ≠ [] :=
  fun empty => some (append_eq_nil_iff.mp empty).1

theorem stack_of_first (first : List UInt8) : Stack.text ⟨first, []⟩ = first := by
  rw [Stack.text, join, flatMap_nil, append_nil]

theorem loop_first (apart : Apart (first :: rest)) (kept : isDot first = true → rest = [])
    (enough : (join first rest).length ≤ fuel) :
    removeDotSegmentsLoop fuel (join first rest) [] = (resolve finishCode ⟨first, []⟩ rest).text.reverse := by
  obtain ⟨none, others⟩ := forall_mem_cons.mp apart
  have stApart : Stack.Apart ⟨first, []⟩ := forall_mem_cons.mpr ⟨none, by simp⟩
  rw [join, length_append] at enough
  by_cases some : first = []
  · subst some
    exact loop_join rest others stApart (by omega)
  · obtain ⟨dots, dot, here, hereEnd, up, upEnd⟩ := tests_kept none some kept
    have length := length_pos_iff.mpr some
    obtain ⟨fuel, rfl⟩ : ∃ k, fuel = k + 1 := ⟨fuel - 1, by omega⟩
    rw [removeDotSegmentsLoop]
    simp only [copied_name none some]
    rw [if_neg (join_ne_nil rest some), if_neg dots, if_neg dot, if_neg here, if_neg hereEnd, if_neg up, if_neg upEnd,
      append_nil, join, drop_left,
      ← @loop_join rest others ⟨first, []⟩ stApart fuel (by omega), stack_of_first]

theorem removeDotSegmentsLoop_first {first : List UInt8} {rest : List (List UInt8)} (apart : Apart (first :: rest))
    {fuel : Nat} (enough : (join first rest).length ≤ fuel) :
    removeDotSegmentsLoop fuel (join first rest) [] =
      (resolve finishCode ⟨(strip first rest).1, []⟩ (strip first rest).2).text.reverse := by
  induction rest generalizing first fuel with
  | nil => exact loop_first apart (fun _ => rfl) enough
  | cons segment rest ih =>
    obtain ⟨none, others⟩ := forall_mem_cons.mp apart
    rw [strip]
    split_ifs with dropped
    · have ahead : join first (segment :: rest) = first ++ ch '/' :: join segment rest := rfl
      obtain ⟨dots, dot⟩ := tests_first (segment :: rest) none
      rw [ahead, length_append, length_cons] at enough
      obtain ⟨fuel, rfl⟩ : ∃ k, fuel = k + 1 := ⟨fuel - 1, by omega⟩
      rw [← @ih segment others fuel (by omega), removeDotSegmentsLoop, if_neg (by rw [ahead]; simp)]
      rcases (isDot_iff first).mp dropped with single | double
      · rw [if_neg fun more => absurd (single.symm.trans (dots.mp more).1) (by decide),
          if_pos (dot.mpr ⟨single, cons_ne_nil _ _⟩), ahead, single]
        rfl
      · rw [if_pos (dots.mpr ⟨double, cons_ne_nil _ _⟩), ahead, double]
        rfl
    · exact loop_first apart (fun dot => absurd dot dropped) enough

theorem rfcLoop_kept (apart : Apart (first :: rest)) (kept : isDot first = true → rest = [])
    (enough : (join first rest).length ≤ fuel) :
    rfcLoop fuel (join first rest) [] =
      if isDot first then [] else (resolve finish ⟨first, []⟩ rest).text := by
  obtain ⟨none, others⟩ := forall_mem_cons.mp apart
  have stApart : Stack.Apart ⟨first, []⟩ := forall_mem_cons.mpr ⟨none, by simp⟩
  rw [join, length_append] at enough
  by_cases some : first = []
  · subst some
    exact rfcLoop_join rest others stApart (by omega)
  · obtain ⟨dots, dot, here, hereEnd, up, upEnd⟩ := tests_kept none some kept
    have length := length_pos_iff.mpr some
    obtain ⟨fuel, rfl⟩ : ∃ k, fuel = k + 1 := ⟨fuel - 1, by omega⟩
    rw [rfcLoop]
    simp only [copied_name none some]
    rw [if_neg (join_ne_nil rest some), if_neg dots, if_neg dot, if_neg here, if_neg hereEnd, if_neg up, if_neg upEnd]
    split_ifs with bare dropped dropped
    · cases fuel <;> rfl
    · refine absurd ((isDot_iff first).mpr ?_) dropped
      rcases bare with single | double
      · exact .inl ((append_eq_iff (by decide) (slashed_flatMap rest)).mp single).1
      · exact .inr ((append_eq_iff (by decide) (slashed_flatMap rest)).mp double).1
    · refine absurd ?_ bare
      rw [kept dropped, join, flatMap_nil, append_nil]
      exact (isDot_iff first).mp dropped
    · rw [join, drop_left, nil_append, ← @rfcLoop_join rest others ⟨first, []⟩ stApart fuel (by omega), stack_of_first]

theorem rfcLoop_first {first : List UInt8} {rest : List (List UInt8)} (apart : Apart (first :: rest))
    {fuel : Nat} (enough : (join first rest).length ≤ fuel) :
    rfcLoop fuel (join first rest) [] =
      if isDot (strip first rest).1 then []
      else (resolve finish ⟨(strip first rest).1, []⟩ (strip first rest).2).text := by
  induction rest generalizing first fuel with
  | nil => exact rfcLoop_kept apart (fun _ => rfl) enough
  | cons segment rest ih =>
    obtain ⟨none, others⟩ := forall_mem_cons.mp apart
    rw [strip]
    by_cases dropped : isDot first = true
    · have ahead : join first (segment :: rest) = first ++ ch '/' :: join segment rest := rfl
      obtain ⟨dots, dot⟩ := tests_first (segment :: rest) none
      rw [ahead, length_append, length_cons] at enough
      obtain ⟨fuel, rfl⟩ : ∃ k, fuel = k + 1 := ⟨fuel - 1, by omega⟩
      rw [if_pos dropped, ← @ih segment others fuel (by omega), rfcLoop, if_neg (by rw [ahead]; simp)]
      rcases (isDot_iff first).mp dropped with single | double
      · rw [if_neg fun more => absurd (single.symm.trans (dots.mp more).1) (by decide),
          if_pos (dot.mpr ⟨single, cons_ne_nil _ _⟩), ahead, single]
        rfl
      · rw [if_pos (dots.mpr ⟨double, cons_ne_nil _ _⟩), ahead, double]
        rfl
    · rw [if_neg dropped]
      exact rfcLoop_kept apart (fun dot => absurd dot dropped) enough

/-! ### What the output is like -/

def deeper (depth : Nat) (segment : List UInt8) : Nat :=
  if segment = lit "." then depth else if segment = lit ".." then depth - 1 else depth + 1

def depth (segments : List (List UInt8)) : Nat := segments.foldl deeper 0

theorem kept_pop (st : Stack) : st.pop.kept.length = st.kept.length - 1 := by
  rw [Stack.pop]
  split_ifs with empty
  · rw [empty]
    rfl
  · exact length_dropLast

theorem kept_advance (segments : List (List UInt8)) (st : Stack) :
    (segments.foldl advance st).kept.length = segments.foldl deeper st.kept.length := by
  induction segments generalizing st with
  | nil => rfl
  | cons segment rest ih =>
    rw [foldl_cons, foldl_cons, ih, advance, deeper]
    split_ifs
    · rfl
    · rw [kept_pop]
    · rw [Stack.push, length_append]
      rfl

theorem resolve_concat (last : Stack → List UInt8 → Stack) (st : Stack) (segments : List (List UInt8))
    (segment : List UInt8) : resolve last st (segments ++ [segment]) = last (segments.foldl advance st) segment := by
  induction segments generalizing st with
  | nil => rfl
  | cons head rest ih =>
    rw [cons_append, resolve_cons last st head (by simp), ih, foldl_cons]

theorem all_finish (all : st.All P) (empty : P []) (proper : isDot segment = false → P segment) :
    (finish st segment).All P := by
  rw [finish]
  split_ifs with single double
  · exact all.push empty
  · exact (all.pop empty).push empty
  · refine all.push (proper (Bool.eq_false_iff.mpr fun dot => ?_))
    exact ((isDot_iff segment).mp dot).elim single double

theorem all_advance (all : st.All P) (empty : P []) (proper : isDot segment = false → P segment) :
    (advance st segment).All P := by
  rw [advance]
  split_ifs with single double
  · exact all
  · exact all.pop empty
  · refine all.push (proper (Bool.eq_false_iff.mpr fun dot => ?_))
    exact ((isDot_iff segment).mp dot).elim single double

theorem all_resolve (empty : P []) (proper : ∀ segment ∈ segments, isDot segment = false → P segment) (all : st.All P) :
    (resolve finish st segments).All P := by
  induction segments generalizing st with
  | nil => exact all
  | cons segment rest ih =>
    obtain ⟨here, others⟩ := forall_mem_cons.mp proper
    by_cases last : rest = []
    · rw [last, resolve]
      exact all_finish all empty here
    · rw [resolve_cons _ _ _ last]
      exact ih others (all_advance all empty here)

theorem resolve_proper (proper : ∀ segment ∈ segments, isDot segment = false) (st : Stack) :
    resolve finishCode st segments = ⟨st.first, st.kept ++ segments⟩ := by
  induction segments generalizing st with
  | nil => rw [resolve, append_nil]
  | cons segment rest ih =>
    obtain ⟨here, others⟩ := forall_mem_cons.mp proper
    have single : segment ≠ lit "." := fun same => by simp [isDot, same] at here
    have double : segment ≠ lit ".." := fun same => by simp [isDot, same] at here
    by_cases last : rest = []
    · rw [last, resolve, finishCode, if_neg fun both => double both.1, finish, if_neg single, if_neg double]
      rfl
    · rw [resolve_cons _ _ _ last, ih others, advance, if_neg single, if_neg double, Stack.push, append_assoc,
        singleton_append]

theorem length_removeDotSegmentsLoop (fuel : Nat) (path output : List UInt8) :
    (removeDotSegmentsLoop fuel path output).length ≤ path.length + output.length := by
  induction fuel generalizing path output with
  | zero => exact Nat.le_add_left _ _
  | succ fuel ih =>
    have dropped : ∀ n, (path.drop n).length ≤ path.length := fun n => by rw [length_drop]; omega
    have back : (output.dropWhile (· ≠ ch '/')).length ≤ output.length := (dropWhile_suffix _).length_le
    rw [removeDotSegmentsLoop]
    split_ifs with done up here dot dotEnd dots dotsEnd
    · exact Nat.le_add_left _ _
    · exact (ih _ _).trans (Nat.add_le_add_right (dropped 3) _)
    · exact (ih _ _).trans (Nat.add_le_add_right (dropped 2) _)
    · exact (ih _ _).trans (Nat.add_le_add_right (dropped 2) _)
    · rw [dotEnd, length_cons]
      simp [lit]
    · refine (ih _ _).trans (Nat.add_le_add (dropped 3) ?_)
      rw [length_drop]
      omega
    · exact back.trans (Nat.le_add_left _ _)
    · refine (ih _ _).trans ?_
      have copied : (path.take 1 ++ (path.drop 1).takeWhile (· ≠ ch '/')).length ≤ path.length := by
        conv_rhs => rw [← take_append_drop 1 path]
        rw [length_append, length_append]
        exact Nat.add_le_add_left ( takeWhile_prefix _).length_le _
      generalize path.take 1 ++ (path.drop 1).takeWhile (· ≠ ch '/') = segment at copied
      rw [length_drop, length_append, length_reverse]
      omega

/-! ### Removing dot segments -/

/-- The buffer gets what the procedure of the RFC gives, no longer than the path and without dot segments, and doing it
again, into any buffer, changes nothing. -/
structure Removes (memory : Nat → UInt8) (path : List UInt8) : Prop where
  rfc : written memory path = rfcRemoveDotSegments path
  length : (written memory path).length ≤ path.length
  clean : ∀ segment ∈ (written memory path).splitOn (ch '/'), isDot segment = false
  again : ∀ memory', written memory' (written memory path) = written memory path

/-- Behind the dot segments that the path begins with there is a segment, and at a last `..` one is left to take back. -/
def Meets (path : List UInt8) : Prop :=
  ∀ first rest, path.splitOn (ch '/') = first :: rest →
    isDot (strip first rest).1 = false ∧
      ∀ before, (strip first rest).2 = before ++ [lit ".."] → 0 < depth before

theorem removeDotSegments_join (apart : Apart (first :: rest)) :
    removeDotSegments (join first rest) =
      (resolve finishCode ⟨(strip first rest).1, []⟩ (strip first rest).2).text := by
  rw [removeDotSegments, removeDotSegmentsLoop_first apart le_rfl, reverse_reverse]

theorem resolve_finishCode (deep : ∀ before, segments = before ++ [lit ".."] → 0 < depth before) :
    resolve finishCode ⟨first, []⟩ segments = resolve finish ⟨first, []⟩ segments := by
  rcases eq_nil_or_concat' segments with rfl | ⟨before, segment, rfl⟩
  · rfl
  · rw [resolve_concat, resolve_concat, finishCode, if_neg]
    rintro ⟨rfl, empty⟩
    have some := deep before rfl
    rw [depth, ← length_nil, ← kept_advance before ⟨first, []⟩, empty] at some
    exact absurd some (Nat.lt_irrefl 0)

theorem removes_iff (memory : Nat → UInt8) (path : List UInt8) : Removes memory path ↔ Meets path := by
  obtain ⟨first, rest, split, rfl, apart⟩ := join_splitOn path
  have code := removeDotSegments_join apart
  have rfc : rfcRemoveDotSegments (join first rest) = _ := rfcLoop_first apart le_rfl
  have apart' := strip_apart apart
  have alone := strip_cases first rest
  have meets : Meets (join first rest) ↔ isDot (strip first rest).1 = false ∧
      ∀ before, (strip first rest).2 = before ++ [lit ".."] → 0 < depth before := by
    refine ⟨fun meets => meets first rest split, fun both first' rest' split' => ?_⟩
    obtain ⟨rfl, rfl⟩ := List.cons.inj (split.symm.trans split')
    exact both
  rw [meets]
  generalize strip first rest = stripped at *
  obtain ⟨name, segments⟩ := stripped
  constructor
  · intro removes
    have same := removes.rfc
    rw [written_eq, code, rfc] at same
    have proper : isDot name = false := by
      by_contra dot
      rw [Bool.not_eq_false] at dot
      rw [if_pos dot, alone dot, resolve, stack_of_first] at same
      subst same
      exact absurd dot (by decide)
    refine ⟨proper, fun before last => Nat.pos_of_ne_zero fun none => ?_⟩
    rw [if_neg (by simp [proper]), last, resolve_concat, resolve_concat] at same
    have empty : (before.foldl advance ⟨name, []⟩).kept = [] := by
      rw [← length_eq_zero_iff, kept_advance]
      exact none
    rw [finishCode, if_pos ⟨rfl, empty⟩, finish, if_neg (by decide), if_pos rfl, Stack.pop, if_pos empty] at same
    exact absurd same (by decide)
  · rintro ⟨proper, deep⟩
    rw [resolve_finishCode deep] at code
    rw [if_neg (by simp [proper])] at rfc
    have clean : (resolve finish ⟨name, []⟩ segments).All fun segment => ch '/' ∉ segment ∧ isDot segment = false := by
      refine all_resolve ⟨not_mem_nil, rfl⟩ ?_ ?_
      · exact fun segment member other => ⟨apart' segment (mem_cons_of_mem _ member), other⟩
      · exact forall_mem_cons.mpr ⟨⟨apart' name mem_cons_self, proper⟩, by simp⟩
    generalize resolve finish ⟨name, []⟩ segments = st at *
    have stApart : st.Apart := fun segment member => (clean segment member).1
    refine ⟨?_, ?_, ?_, fun memory' => ?_⟩
    · rw [written_eq, code, rfc]
    · rw [written_eq, removeDotSegments, length_reverse]
      exact length_removeDotSegmentsLoop _ _ _
    · rw [written_eq, code, Stack.text, splitOn_join stApart]
      exact fun segment member => (clean segment member).2
    · rw [written_eq, written_eq, code, Stack.text, removeDotSegments_join stApart]
      have first := (clean st.first mem_cons_self).2
      have kept : strip st.first st.kept = (st.first, st.kept) := by
        cases st.kept with
        | nil => rfl
        | cons segment rest => rw [strip, if_neg (by simp [first])]
      rw [kept, resolve_proper fun segment member => (clean segment (mem_cons_of_mem _ member)).2]
      rfl

/-- The test for a lone `.` stands behind another one for the same character, and `/..` takes the slash in front of it
only if there is a segment before. -/
theorem last_dots_not_removed :
    written (fun _ => 0) (lit ".") = lit "." ∧ rfcRemoveDotSegments (lit ".") = [] ∧
      written (fun _ => 0) (lit "/..") = [] ∧ rfcRemoveDotSegments (lit "/..") = lit "/" ∧
      ¬∀ memory path, Removes memory path := by
  refine ⟨by decide, by decide, by decide, by decide, fun all => ?_⟩
  exact absurd (all (fun _ => 0) (lit ".")).rfc (by decide)

end Besra.DotSegments
