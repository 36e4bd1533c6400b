import Besra.DotSegments
import Besra.NsurlMarkers

/-!
The buffers of `nsurl_create` and `nsurl_join`. Sizes are differences of markers, which are in order
(`getStringMarkers_ordered`); a section is then no longer than the longest one, and normalising makes three bytes of one
at most. The joined path is written three times into the buffer, each behind the one before (`PathFits`).
-/
namespace Besra.NsurlBuffers
open Lwc NsurlParse NsurlMarkers List
open DotSegments (Output loop backTo backBehind length_removeDotSegmentsLoop)

/-- A difference of two `size_t`, by which a marker in front of another makes a huge length. -/
def span (start stop : Nat) : Nat := if start ≤ stop then stop - start else stop + 2 ^ 64 - start

/-- `nsurl__get_longest_section`, with the differences as the source has them. -/
def longestSection (m : Markers) : Nat :=
  [span m.authority m.atSign, span m.atSign m.path, span m.path m.query, span m.query m.fragment,
    span m.fragment m.stop].foldl (fun length other => if length < other then other else length)
      (span m.start m.schemeEnd)

variable {url path rel : List UInt8} {m : Markers}

theorem longestSection_eq (ordered : Ordered url m) : longestSection m = getLongestSection m := by
  have larger : ∀ a b : Nat, (if a < b then b else a) = max a b := by
    intro a b
    split_ifs with less
    · exact (max_eq_right less.le).symm
    · exact (max_eq_left (Nat.le_of_not_lt less)).symm
  simp only [longestSection, span, if_pos ordered.start, if_pos ordered.credentials, if_pos ordered.host,
    if_pos ordered.path, if_pos ordered.query, if_pos ordered.fragment, larger, foldl_cons, foldl_nil,
    getLongestSection, max_assoc]

theorem bounds_le (url : List UInt8) (m : Markers) (sec : Section) :
    (sec.bounds url m).2 - (sec.bounds url m).1 ≤ getLongestSection m := by
  cases sec with
  | scheme => exact le_max_left _ _
  | credentials => exact le_max_of_le_right (le_max_left _ _)
  | host =>
    have host : m.path - m.atSign ≤ getLongestSection m := le_max_of_le_right (le_max_of_le_right (le_max_left _ _))
    refine le_trans ?_ host
    simp only [Section.bounds]
    split_ifs
    · exact le_rfl
    · omega
  | path => exact le_max_of_le_right (le_max_of_le_right (le_max_of_le_right (le_max_left _ _)))
  | query =>
    have query : m.fragment - m.query ≤ getLongestSection m :=
      le_max_of_le_right (le_max_of_le_right (le_max_of_le_right (le_max_of_le_right (le_max_left _ _))))
    refine le_trans ?_ query
    simp only [Section.bounds]
    split_ifs
    · exact le_rfl
    · omega
  | fragment =>
    have fragment : m.stop - m.fragment ≤ getLongestSection m :=
      le_max_of_le_right (le_max_of_le_right (le_max_of_le_right (le_max_of_le_right (le_max_right _ _))))
    refine le_trans ?_ fragment
    simp only [Section.bounds]
    split_ifs
    · exact le_rfl
    · omega

/-- A `size_t` as the `int` it is put in. -/
def toInt (n : Nat) : Int := if n % 2 ^ 32 < 2 ^ 31 then (n % 2 ^ 32 : Nat) else (n % 2 ^ 32 : Nat) - 2 ^ 32

/-- The bytes between two bounds of a string, none where `end` is in front of `start`; `text` is the memory from the
string on. -/
def sectionText (text : Int → UInt8) (start stop : Nat) : List UInt8 :=
  (List.range (toInt stop - toInt start).toNat).map fun k : Nat => text (toInt start + k)

theorem length_sectionText (text : Int → UInt8) {start stop : Nat} (ordered : start ≤ stop) :
    (sectionText text start stop).length ≤ stop - start := by
  rw [sectionText, length_map, length_range]
  unfold toInt
  split_ifs <;> omega

theorem length_sectionText_succ (text : Int → UInt8) (stop : Nat) :
    (sectionText text (stop + 1) stop).length = if stop % 2 ^ 32 = 2 ^ 31 - 1 then 2 ^ 32 - 1 else 0 := by
  rw [sectionText, length_map, length_range]
  unfold toInt
  split_ifs <;> omega

theorem length_normaliseChar (sec : Section) (c : UInt8) : (normaliseChar sec c).length ≤ 3 := by
  unfold normaliseChar
  split_ifs <;> simp

theorem length_normalise (sec : Section) (s : List UInt8) : (normalise sec s).length ≤ 3 * s.length := by
  fun_induction normalise sec s with
  | case1 a b rest invalid ih =>
    simp only [length_cons] at ih ⊢
    omega
  | case2 a b rest value found keeps ih =>
    simp only [length_cons] at ih ⊢
    omega
  | case3 a b rest value found keeps ih =>
    simp only [length_cons] at ih ⊢
    omega
  | case4 c a b rest other ih =>
    have char := length_normaliseChar sec c
    simp only [length_cons, length_append] at ih ⊢
    omega
  | case5 c rest short ih =>
    have char := length_normaliseChar sec c
    simp only [length_cons, length_append] at ih ⊢
    omega
  | case6 => exact Nat.zero_le _

/-- What is read of a section is no more than its markers have between them, and its normalised form and the NUL behind
it fit. -/
def SectionFits (size : Nat) (url : List UInt8) (m : Markers) (sec : Section) : Prop :=
  ∀ text : Int → UInt8,
    (sectionText text (sec.bounds url m).1 (sec.bounds url m).2).length ≤
      (sec.bounds url m).2 - (sec.bounds url m).1 ∧
    (normalise sec (sectionText text (sec.bounds url m).1 (sec.bounds url m).2)).length + 1 ≤ size

theorem sectionFits_of_length {size : Nat} {sec : Section} (large : 3 * getLongestSection m + 1 ≤ size)
    (read : ∀ text, (sectionText text (sec.bounds url m).1 (sec.bounds url m).2).length ≤ (sec.bounds url m).2 - (sec.bounds url m).1) :
    SectionFits size url m sec := by
  intro text
  refine ⟨read text, le_trans (Nat.succ_le_succ ?_) large⟩
  refine (length_normalise sec _).trans (Nat.mul_le_mul_left 3 ?_)
  exact (read text).trans (bounds_le url m sec)

/-- A lone sign is where the next offset is no `int`, or is one again only from its lower end on. -/
def SignAtLimit (url : List UInt8) (joining : Bool) : Prop :=
  LoneSign url joining ∧ behindScheme url % 2 ^ 32 = 2 ^ 31 - 1

theorem sectionFits_iff {size : Nat} (ends : 0 ∉ url) (joining : Bool)
    (large : 3 * getLongestSection (getStringMarkers url joining) + 1 ≤ size) (sec : Section) :
    SectionFits size url (getStringMarkers url joining) sec ↔ ¬(sec = .host ∧ SignAtLimit url joining) := by
  by_cases lone : sec = .host ∧ LoneSign url joining
  · obtain ⟨rfl, lone⟩ := lone
    have bounds := lone_bounds ends lone
    constructor
    · rintro fits ⟨-, -, limit⟩
      have short := (fits fun _ => 0).1
      rw [bounds, length_sectionText_succ, if_pos limit] at short
      omega
    · intro other
      refine sectionFits_of_length large fun text => ?_
      rw [bounds, length_sectionText_succ, if_neg fun limit => other ⟨rfl, lone, limit⟩]
      exact Nat.zero_le _
  · have before := (bounds_le_iff ends joining sec).mpr lone
    refine ⟨fun _ both => lone ⟨both.1, both.2.1⟩, fun _ => ?_⟩
    exact sectionFits_of_length large fun text => length_sectionText text before

theorem backTo_le (memory : Nat → UInt8) (pos : Nat) : backTo memory pos ≤ pos := by
  induction pos with
  | zero => exact le_rfl
  | succ pos ih =>
    rw [backTo]
    split_ifs
    · exact le_rfl
    · exact ih.trans (Nat.le_succ pos)

theorem putAll_frame (segment : List UInt8) (out : Output) :
    (segment.foldl Output.put out).pos = out.pos + segment.length ∧
      ∀ i, out.pos + segment.length ≤ i → (segment.foldl Output.put out).memory i = out.memory i := by
  induction segment generalizing out with
  | nil => exact ⟨rfl, fun _ _ => rfl⟩
  | cons c segment ih =>
    obtain ⟨pos, frame⟩ := ih (out.put c)
    rw [foldl_cons, length_cons]
    have next : (out.put c).pos = out.pos + 1 := rfl
    refine ⟨by rw [pos, next]; omega, fun i behind => ?_⟩
    rw [frame i (by rw [next]; omega)]
    have other : i ≠ out.pos := by omega
    exact Function.update_of_ne other c out.memory

theorem loop_frame (fuel : Nat) (path : List UInt8) (out : Output) :
    ∀ i, out.pos + path.length ≤ i → (loop fuel path out).memory i = out.memory i := by
  induction fuel generalizing path out with
  | zero => exact fun _ _ => rfl
  | succ fuel ih =>
    intro i behind
    have dropped : ∀ n, (path.drop n).length ≤ path.length := fun n => by rw [length_drop]; omega
    rw [loop]
    split_ifs with done up here dot dotEnd dots dotsEnd
    · rfl
    · exact ih _ out i ((Nat.add_le_add_left (dropped 3) _).trans behind)
    · exact ih _ out i ((Nat.add_le_add_left (dropped 2) _).trans behind)
    · exact ih _ out i ((Nat.add_le_add_left (dropped 2) _).trans behind)
    · have some : 0 < path.length := length_pos_iff.mpr done
      exact Function.update_of_ne (by omega) _ out.memory
    · have back : backTo out.memory (out.pos - 1) ≤ out.pos := (backTo_le _ _).trans (Nat.sub_le _ _)
      exact ih _ { out with pos := _ } i ((Nat.add_le_add back (dropped 3)).trans behind)
    · rfl
    · have copied : (path.take 1 ++ (path.drop 1).takeWhile (· ≠ ch '/')).length ≤ path.length := by
        conv_rhs => rw [← take_append_drop 1 path]
        rw [length_append, length_append]
        exact Nat.add_le_add_left ( takeWhile_prefix _).length_le _
      simp only
      generalize path.take 1 ++ (path.drop 1).takeWhile (· ≠ ch '/') = segment at copied ⊢
      obtain ⟨pos, frame⟩ := putAll_frame segment out
      rw [ih _ _ i, frame i (by omega)]
      rw [pos, length_drop]
      omega

theorem length_removeDotSegments (path : List UInt8) : (removeDotSegments path).length ≤ path.length := by
  rw [removeDotSegments, length_reverse]
  exact length_removeDotSegmentsLoop path.length path []

/-- The size of the buffer of `nsurl_create`. -/
def createSize (m : Markers) : Nat := longestSection m * 3 + 1

/-- The size of the buffer of `nsurl_join`; `base` is the path of the base. -/
def joinSize (base : Option LwcString) (rel : List UInt8) (m : Markers) : Nat :=
  (longestSection m + (if (joinedParts rel m).mergedPath then lengthOf base else 0)) * 4 +
    (span m.path m.query + lengthOf base) + 5

/-- The sections that a join takes from the relative URL and normalises at the start of the buffer. -/
def joinSections (rel : List UInt8) (m : Markers) : List Section :=
  (if (joinedParts rel m).scheme then [] else [.scheme]) ++
    (if (joinedParts rel m).authority then [] else [.credentials, .host]) ++
    (if (joinedParts rel m).query then [] else [.query]) ++ [.fragment]

/-- The path that dot segments are removed from; a path of the base that there is not is read where a path is merged
with it. -/
def unresolved (base : Option LwcString) (rel : List UInt8) (m : Markers) : Except NsError (List UInt8) :=
  let relative := slice rel m.path m.query
  if (joinedParts rel m).mergedPath then
    match base with
    | none => .error .undefined
    | some path => .ok (mergePath path relative)
  else .ok relative

/-- The path and the NUL behind it, the path without its dot segments and its normalised form with another NUL are
behind one another in the buffer; where the output of the dot segments is, nothing behind it is written on the way. -/
structure PathFits (size : Nat) (path : List UInt8) : Prop where
  output : path.length + 1 + path.length ≤ size
  within : ∀ memory i, path.length ≤ i → (loop path.length path ⟨memory, 0⟩).memory i = memory i
  normalised : ∀ text, path.length + 1 + (removeDotSegments path).length +
    ((normalise .path (sectionText text 0 (removeDotSegments path).length)).length + 1) ≤ size

structure JoinFits (base : Option LwcString) (rel : List UInt8) (m : Markers) : Prop where
  sections : ∀ sec ∈ joinSections rel m, SectionFits (joinSize base rel m) rel m sec
  path : (joinedParts rel m).path = false →
    ∃ path, unresolved base rel m = .ok path ∧ PathFits (joinSize base rel m) path

theorem pathFits_of_length {size : Nat} (large : 5 * path.length + 2 ≤ size) : PathFits size path := by
  have shorter := length_removeDotSegments path
  refine ⟨by omega, fun memory i behind => ?_, fun text => ?_⟩
  · exact loop_frame path.length path ⟨memory, 0⟩ i (by rwa [Nat.zero_add])
  · have read := length_sectionText text (Nat.zero_le (removeDotSegments path).length)
    have normal := length_normalise .path (sectionText text 0 (removeDotSegments path).length)
    omega

theorem length_mergePath (base relative : List UInt8) :
    (mergePath base relative).length ≤ base.length + relative.length := by
  rw [mergePath, length_append, length_reverse]
  refine Nat.add_le_add_right ?_ _
  exact (dropWhile_suffix _).length_le.trans (length_reverse ..).le

/-- The markers are in order, whether joining or not; all sections fit in the buffer of `nsurl_create`, and those of a
join and the joined path in the buffer of `nsurl_join`. -/
structure Bounded (base : Option LwcString) (text : List UInt8) : Prop where
  ordered : ∀ joining, Ordered (cString text) (getStringMarkers (cString text) joining)
  create : ∀ sec, SectionFits (createSize (getStringMarkers (cString text) false)) (cString text)
    (getStringMarkers (cString text) false) sec
  join : JoinFits base (cString text) (getStringMarkers (cString text) true)

theorem zero_not_mem_cString (text : List UInt8) : 0 ∉ cString text := by
  intro member
  have some := mem_takeWhile_imp member
  exact absurd some (by decide)

theorem length_slice_le (s : List UInt8) (start stop : Nat) : (slice s start stop).length ≤ stop - start := by
  rw [slice, length_drop, length_take]
  omega

theorem pathFits_of_unresolved {base : Option LwcString} (ordered : Ordered rel m)
    (formed : unresolved base rel m = .ok path) : PathFits (joinSize base rel m) path := by
  have relative := length_slice_le rel m.path m.query
  have longest : m.query - m.path ≤ getLongestSection m := bounds_le rel m .path
  refine pathFits_of_length ?_
  rw [joinSize, longestSection_eq ordered, span, if_pos ordered.path]
  unfold unresolved at formed
  simp only at formed
  split_ifs at formed with merged
  · cases base with
    | none => exact absurd formed (by simp)
    | some basePath =>
      have same : mergePath basePath (slice rel m.path m.query) = path := Except.ok.inj formed
      have length := length_mergePath basePath (slice rel m.path m.query)
      rw [same] at length
      have own : lengthOf (some basePath) = basePath.length := rfl
      rw [if_pos merged, own]
      omega
  · have same : slice rel m.path m.query = path := Except.ok.inj formed
    rw [same] at relative
    rw [if_neg merged]
    omega

/-- A lone sign at that limit when the string is parsed by itself, or when it is joined. -/
def Wraps (text : List UInt8) : Prop :=
  byteAt text (behindScheme text) = ch '@' ∧ schemeOf text ≠ some .mailto ∧ behindScheme text % 2 ^ 32 = 2 ^ 31 - 1

theorem host_mem_joinSections (some : schemeOf rel ≠ none) :
    Section.host ∈ joinSections rel (getStringMarkers rel true) := by
  have more : byteAt rel (skip isSpace rel 0) ≠ 0 := by
    intro blank
    refine some (if_neg fun both => ?_)
    rw [blank] at both
    exact absurd both.1 (by decide)
  obtain ⟨start, stop, -⟩ := getStringMarkers_scheme true more
  have schemed := getScheme_schemed rel true
  rcases named : getScheme rel (startMarkers rel) true with ⟨pos, m, isHttp⟩
  rw [named] at start stop schemed
  have apart : (getStringMarkers rel true).schemeEnd - (getStringMarkers rel true).start ≠ 0 := by
    rw [start, stop]
    cases schemed with
    | named schemeType colon type behind after => exact Nat.sub_ne_zero_of_lt after
    | letters type behind alpha => exact absurd type some
    | other type behind alpha => exact absurd type some
  simp [joinSections, joinedParts, apart]

theorem bounded_iff (base : Option LwcString) (text : List UInt8) :
    Bounded base text ↔ (base = none → ¬RelativePath (cString text)) ∧ ¬Wraps (cString text) := by
  have ends := zero_not_mem_cString text
  generalize urlIs : cString text = url at ends
  have ordered := getStringMarkers_ordered ends
  have createLarge : 3 * getLongestSection (getStringMarkers url false) + 1 ≤ createSize (getStringMarkers url false) := by
    rw [createSize, longestSection_eq (ordered false)]
    omega
  have joinLarge : 3 * getLongestSection (getStringMarkers url true) + 1 ≤
      joinSize base url (getStringMarkers url true) := by
    rw [joinSize, longestSection_eq (ordered true)]
    omega
  have createFits := sectionFits_iff ends false createLarge
  have joinFits := sectionFits_iff ends true joinLarge
  constructor
  · rintro ⟨-, create, join⟩
    rw [urlIs] at create join
    refine ⟨fun none relative => ?_, fun wraps => ?_⟩
    · have merged := (mergedPath_iff ends).mpr relative
      have own : (joinedParts url (getStringMarkers url true)).path = false := by
        simp only [joinedParts, Bool.and_eq_true, decide_eq_true_eq] at merged
        simp [joinedParts, merged.1.2]
      obtain ⟨path, formed, -⟩ := join.path own
      rw [none, unresolved, if_pos merged] at formed
      exact absurd formed (by simp)
    · obtain ⟨sign, mail, limit⟩ := wraps
      by_cases named : schemeOf url = none
      · refine (createFits .host).mp (create .host) ⟨rfl, ⟨sign, mail, fun _ => ?_⟩, limit⟩
        rw [named]
        exact ⟨by simp, by simp⟩
      · refine (joinFits .host).mp (join.sections .host (host_mem_joinSections named)) ⟨rfl, ⟨sign, mail, ?_⟩, limit⟩
        exact fun creating => Bool.noConfusion creating
  · rintro ⟨based, wraps⟩
    have apart : ∀ joining, ¬SignAtLimit url joining :=
      fun joining limit => wraps ⟨limit.1.1, limit.1.2.1, limit.2⟩
    refine ⟨?_, ?_, ?_, ?_⟩
    · rw [urlIs]
      exact ordered
    · rw [urlIs]
      exact fun sec => (createFits sec).mpr fun both => apart false both.2
    · rw [urlIs]
      exact fun sec _ => (joinFits sec).mpr fun both => apart true both.2
    · rw [urlIs]
      intro own
      obtain ⟨path, formed⟩ : ∃ path, unresolved base url (getStringMarkers url true) = .ok path := by
        by_cases merged : (joinedParts url (getStringMarkers url true)).mergedPath = true
        · cases base with
          | none => exact absurd ((mergedPath_iff ends).mp merged) (based rfl)
          | some path => exact ⟨_, if_pos merged⟩
        · exact ⟨_, if_neg merged⟩
      exact ⟨path, formed, pathFits_of_unresolved (ordered true) formed⟩

/-- A relative path is merged with the path of a base that has none, such as the one of `mailto:`. -/
theorem merge_without_path :
    (nsurlCreate (fun _ => none) (fun _ => 0) (lit "mailto:")).toOption.map (·.components.path) = some none ∧
      unresolved none (lit "x") (getStringMarkers (lit "x") true) = .error .undefined ∧
      ¬∀ base text, Bounded base text := by
  refine ⟨by decide, rfl, fun all => ?_⟩
  exact ((bounded_iff none (lit "x")).mp (all none (lit "x"))).1 rfl (by decide)

end Besra.NsurlBuffers
