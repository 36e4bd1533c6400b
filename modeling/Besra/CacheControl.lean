import Besra.DirectiveList
import Besra.MaxAge

/-!
The values of the Cache-Control and Strict-Transport-Security headers against the lists of directives that they are
written from.
-/
namespace Besra.CacheControl
open Lwc NsurlParse CText StrictTransportSecurity DirectiveList MaxAge List Option

structure HttpCacheControl where
  maxAge : UInt32
  maxAgeValid : Bool
  noCache : Bool
  noStore : Bool
deriving DecidableEq

/-- `http_parse_cache_control`, from `check_duplicates` on. -/
def cacheControlOf (directives : List Directive) : Option HttpCacheControl :=
  if checkDuplicates directives then
    let maxAge := ((findItem directives (lit "max-age")).bind Directive.value).bind parseMaxAge
    some { maxAge := maxAge.getD 0, maxAgeValid := maxAge.isSome,
           noCache := (findItem directives (lit "no-cache")).isSome,
           noStore := (findItem directives (lit "no-store")).isSome }
  else none

/-- `http_parse_cache_control` -/
def parseCacheControl (header : List UInt8) : Option HttpCacheControl :=
  (readDirectives (ch ',') (cString header)).bind cacheControlOf

/-- `http_parse_strict_transport_security`, from `check_duplicates` on. -/
def stsOf (directives : List Directive) : Option Sts := do
  if checkDuplicates directives then
    let maxAge ← parseMaxAge (← (← findItem directives (lit "max-age")).value)
    match findItem directives (lit "includesubdomains") with
    | none => return ⟨maxAge, false⟩
    | some d => if d.value.isSome then none else return ⟨maxAge, true⟩
  else none

theorem parseSts_eq (header : List UInt8) :
    parseStrictTransportSecurity header = (readDirectives (ch ';') (cString header)).bind stsOf := by
  rw [parseStrictTransportSecurity, readDirectives]
  rcases parseDirective (skipLws (cString header)) with _ | ⟨first, s⟩ <;> rfl

def Distinct (directives : List Directive) : Prop := (directives.map (fun d => insensitive d.name)).Nodup

def Present (directives : List Directive) (name : LwcString) : Prop := ∃ d ∈ directives, insensitive d.name = name

/-- The age that is given, or the largest one. -/
def Age (directives : List Directive) (age : Nat) : Prop :=
  ∃ d ∈ directives, insensitive d.name = lit "max-age" ∧
    ∃ value, d.value = some value ∧ IsNumber value ∧ age = min (decimalValue value) uintMax

/-- The largest age is seen to be exceeded wherever it is. -/
def AgeSaturates (directives : List Directive) : Prop :=
  ∀ d ∈ directives, insensitive d.name = lit "max-age" → ∀ value, d.value = some value → IsNumber value → Saturates value

/-- The directives that a Strict-Transport-Security header may have. -/
structure Accepted (directives : List Directive) : Prop where
  distinct : Distinct directives
  age : ∃ age, Age directives age
  valueless : ∀ d ∈ directives, insensitive d.name = lit "includesubdomains" → d.value = none

structure ExactCacheControl (h : Header) : Prop where
  succeeds : (parseCacheControl (h.text (ch ','))).isSome = true ↔ Distinct h.directives
  reports : ∀ cc, parseCacheControl (h.text (ch ',')) = some cc →
    (cc.noCache = true ↔ Present h.directives (lit "no-cache")) ∧
    (cc.noStore = true ↔ Present h.directives (lit "no-store")) ∧
    ∀ age, (cc.maxAgeValid = true ∧ cc.maxAge.toNat = age) ↔ Age h.directives age

/-- A Strict-Transport-Security header is read as it is written. -/
structure ExactSts (h : Header) : Prop where
  succeeds : (parseStrictTransportSecurity (h.text (ch ';'))).isSome = true ↔ Accepted h.directives
  reports : ∀ sts, parseStrictTransportSecurity (h.text (ch ';')) = some sts →
    (sts.includeSubDomains = true ↔ Present h.directives (lit "includesubdomains")) ∧
    ∀ age, sts.maxAge.toNat = age ↔ Age h.directives age

theorem checkDuplicates_iff (directives : List Directive) : checkDuplicates directives = true ↔ Distinct directives := by
  have count : ∀ d : Directive, directives.countP (fun e => caselessIsEqual d.name e.name) =
      (directives.map (fun e => insensitive e.name)).count (insensitive d.name) := by
    intro d
    rw [List.count, countP_map]
    apply countP_congr
    intro e _
    rw [caselessIsEqual_iff, Function.comp_apply, beq_iff_eq]
    exact eq_comm
  rw [checkDuplicates, List.all_eq_true, Distinct]
  constructor
  · intro once
    rw [nodup_iff_count_eq_one]
    intro name member
    obtain ⟨d, inside, rfl⟩ := List.mem_map.mp member
    rw [← count]
    exact of_decide_eq_true (once d inside)
  · intro distinct d member
    rw [decide_eq_true_eq, count]
    exact nodup_iff_count_eq_one.mp distinct _ (List.mem_map_of_mem member)

theorem findItem_iff {directives : List Directive} (distinct : Distinct directives) (name : LwcString) (d : Directive) :
    findItem directives name = some d ↔ d ∈ directives ∧ insensitive d.name = insensitive name := by
  induction directives with
  | nil => simp [findItem]
  | cons e directives ih =>
    obtain ⟨out, distinct⟩ := nodup_cons.mp distinct
    rw [findItem, List.find?_cons]
    by_cases same : caselessIsEqual name e.name = true
    · have names := (caselessIsEqual_iff _ _).mp same
      rw [same]
      constructor
      · intro found
        cases found
        exact ⟨mem_cons_self, names.symm⟩
      · rintro ⟨member, equal⟩
        rcases mem_cons.mp member with rfl | later
        · rfl
        · refine absurd (List.mem_map.mpr ⟨d, later, ?_⟩) out
          rw [equal, names]
    · have names : insensitive name ≠ insensitive e.name := fun equal => same ((caselessIsEqual_iff _ _).mpr equal)
      rw [Bool.eq_false_iff.mpr same]
      simp only
      rw [← findItem, ih distinct, mem_cons]
      constructor
      · rintro ⟨later, equal⟩
        exact ⟨.inr later, equal⟩
      · rintro ⟨rfl | later, equal⟩
        · exact absurd equal.symm names
        · exact ⟨later, equal⟩

theorem findItem_isSome {directives : List Directive} (name : LwcString) :
    (findItem directives name).isSome = true ↔ Present directives (insensitive name) := by
  rw [findItem, List.find?_isSome]
  constructor
  · rintro ⟨d, member, same⟩
    exact ⟨d, member, ((caselessIsEqual_iff _ _).mp same).symm⟩
  · rintro ⟨d, member, same⟩
    exact ⟨d, member, (caselessIsEqual_iff _ _).mpr same.symm⟩

variable {ds es : List Directive} {h : Header}

theorem distinct_perm (same : ds.Perm es) : Distinct ds ↔ Distinct es :=
  (same.map _).nodup_iff

theorem findItem_perm (distinct : Distinct ds) (same : ds.Perm es) (name : LwcString) :
    findItem ds name = findItem es name := by
  apply Option.ext
  intro d
  rw [findItem_iff distinct, findItem_iff ((distinct_perm same).mp distinct), same.mem_iff]

theorem checkDuplicates_perm (same : ds.Perm es) : checkDuplicates ds = checkDuplicates es := by
  rw [Bool.eq_iff_iff, checkDuplicates_iff, checkDuplicates_iff, distinct_perm same]

theorem cacheControlOf_perm (same : ds.Perm es) : cacheControlOf ds = cacheControlOf es := by
  rw [cacheControlOf, cacheControlOf, ← checkDuplicates_perm same]
  split
  next once => simp only [findItem_perm ((checkDuplicates_iff ds).mp once) same]
  next => rfl

theorem stsOf_perm (same : ds.Perm es) : stsOf ds = stsOf es := by
  rw [stsOf, stsOf, ← checkDuplicates_perm same]
  split
  next once => simp only [findItem_perm ((checkDuplicates_iff ds).mp once) same]
  next => rfl

theorem nonzero_written (d : Written) : ∀ c ∈ d.text, c ≠ 0 := by
  have token : ∀ t : Token, ∀ c ∈ t.text, c ≠ 0 := by
    rintro t c member rfl
    exact absurd (t.chars 0 member) (by decide)
  have blanks : ∀ b : Blanks, ∀ c ∈ b.text, c ≠ 0 := by
    rintro b c member rfl
    exact absurd (b.blank 0 member) (by decide)
  have value : ∀ v : Value, ∀ c ∈ v.text, c ≠ 0 := by
    rintro (t | pieces) c member rfl
    · exact token t 0 member rfl
    · simp only [Value.text, mem_append, mem_cons, mem_flatMap, not_mem_nil, or_false] at member
      rcases member with (quote | ⟨p, -, inside⟩) | quote
      · exact absurd quote (by decide)
      · rcases p with ⟨d, valid⟩ | ⟨d, char⟩
        · cases mem_singleton.mp inside
          exact absurd valid (by decide)
        · simp only [Piece.text, mem_cons, not_mem_nil, or_false] at inside
          rcases inside with backslash | rfl
          · exact absurd backslash (by decide)
          · exact absurd char.1 (by decide)
      · exact absurd quote (by decide)
  obtain ⟨name, _ | ⟨before, behind, v⟩⟩ := d
  · exact token name
  · intro c member
    simp only [Written.text, mem_append, mem_cons] at member
    rcases member with ((inside | inside) | rfl | inside) | inside
    · exact token name c inside
    · exact blanks before c inside
    · decide
    · exact blanks behind c inside
    · exact value v c inside

theorem cString_text {separator : UInt8} (nonzero : separator ≠ 0) (h : Header) :
    cString (h.text separator) = h.text separator := by
  have blanks : ∀ b : Blanks, ∀ c ∈ b.text, c ≠ 0 := by
    rintro b c member rfl
    exact absurd (b.blank 0 member) (by decide)
  rw [cString, takeWhile_eq_self_iff]
  intro c member
  rw [decide_eq_true_eq]
  simp only [Header.text, Element.text, mem_append, mem_flatMap, mem_cons, not_mem_nil, or_false] at member
  rcases member with ⟨b, -, inside | rfl⟩ | inside | inside | inside | ⟨e, -, rfl | inside | inside⟩
  · exact blanks b c inside
  · exact nonzero
  · exact blanks _ c inside
  · exact nonzero_written _ c inside
  · exact blanks _ c inside
  · exact nonzero
  · exact blanks _ c inside
  · rcases written : e.written with _ | ⟨d, b⟩
    · rw [written] at inside
      exact absurd inside not_mem_nil
    · rw [written] at inside
      rcases mem_append.mp inside with inside | inside
      · exact nonzero_written d c inside
      · exact blanks b c inside

theorem separates_comma : Separates (ch ',') := ⟨by decide, by decide, by decide, by decide⟩

theorem separates_semicolon : Separates (ch ';') := ⟨by decide, by decide, by decide, by decide⟩

theorem parseCacheControl_text (unescaped : h.Unescaped) :
    parseCacheControl (h.text (ch ',')) = if h.skipped = [] then cacheControlOf h.directives else none := by
  rw [parseCacheControl, cString_text separates_comma.nonzero, readDirectives_text separates_comma unescaped]
  split
  · exact cacheControlOf_perm (reverse_perm _)
  · rfl

theorem parseSts_text (unescaped : h.Unescaped) :
    parseStrictTransportSecurity (h.text (ch ';')) = if h.skipped = [] then stsOf h.directives else none := by
  rw [parseSts_eq, cString_text separates_semicolon.nonzero, readDirectives_text separates_semicolon unescaped]
  split
  · exact stsOf_perm (reverse_perm _)
  · rfl

def ReadAge (directives : List Directive) (age : Nat) : Prop :=
  ∃ d ∈ directives, insensitive d.name = lit "max-age" ∧
    ∃ value, d.value = some value ∧ IsNumber value ∧ (value.foldl addDigit 0).toNat = age

theorem name_unique (distinct : Distinct ds) {d e : Directive} (inside : d ∈ ds) (there : e ∈ ds)
    (same : insensitive d.name = insensitive e.name) : d = e := by
  have found := (findItem_iff distinct e.name e).mpr ⟨there, rfl⟩
  have again := (findItem_iff distinct e.name d).mpr ⟨inside, same⟩
  rw [found] at again
  cases again
  rfl

theorem readAge_iff (distinct : Distinct ds) (age : Nat) :
    ReadAge ds age ↔
      ∃ v, ((findItem ds (lit "max-age")).bind Directive.value).bind parseMaxAge = some v ∧ v.toNat = age := by
  have lower : insensitive (lit "max-age") = lit "max-age" := by decide
  constructor
  · rintro ⟨d, inside, name, value, given, number, rfl⟩
    have found := (findItem_iff distinct (lit "max-age") d).mpr ⟨inside, by rw [name, lower]⟩
    refine ⟨_, ?_, rfl⟩
    rw [found, bind_some, given, bind_some, parseMaxAge_number number]
  · rintro ⟨v, read, rfl⟩
    obtain ⟨value, given, parsed⟩ := bind_eq_some_iff.mp read
    obtain ⟨d, found, given⟩ := bind_eq_some_iff.mp given
    obtain ⟨inside, name⟩ := (findItem_iff distinct _ d).mp found
    have number : IsNumber value := by
      by_contra other
      rw [parseMaxAge_other other] at parsed
      cases parsed
    rw [parseMaxAge_number number] at parsed
    cases parsed
    exact ⟨d, inside, by rw [name, lower], value, given, number, rfl⟩

theorem readAge_age_iff (distinct : Distinct ds) : (∀ age, ReadAge ds age ↔ Age ds age) ↔ AgeSaturates ds := by
  constructor
  · intro same d inside name value given number
    obtain ⟨e, there, name', value', given', -, equal⟩ := (same _).mp ⟨d, inside, name, value, given, number, rfl⟩
    cases name_unique distinct inside there (name.trans name'.symm)
    cases given.symm.trans given'
    exact (parseMaxAge_saturates_iff number).mp equal
  · intro saturates age
    constructor
    · rintro ⟨d, inside, name, value, given, number, rfl⟩
      have equal := (parseMaxAge_saturates_iff number).mpr (saturates d inside name value given number)
      exact ⟨d, inside, name, value, given, number, equal⟩
    · rintro ⟨d, inside, name, value, given, number, rfl⟩
      have equal := (parseMaxAge_saturates_iff number).mpr (saturates d inside name value given number)
      exact ⟨d, inside, name, value, given, number, equal⟩

theorem cacheControlOf_reports (distinct : Distinct ds) : ∃ cc, cacheControlOf ds = some cc ∧
    (cc.noCache = true ↔ Present ds (lit "no-cache")) ∧ (cc.noStore = true ↔ Present ds (lit "no-store")) ∧
    ∀ age, (cc.maxAgeValid = true ∧ cc.maxAge.toNat = age) ↔ ReadAge ds age := by
  rw [cacheControlOf, if_pos ((checkDuplicates_iff ds).mpr distinct)]
  refine ⟨_, rfl, findItem_isSome (lit "no-cache"), findItem_isSome (lit "no-store"), fun age => ?_⟩
  rw [readAge_iff distinct]
  rcases ((findItem ds (lit "max-age")).bind Directive.value).bind parseMaxAge with _ | v
  · simp
  · simp

theorem cacheControlOf_none (twice : ¬Distinct ds) : cacheControlOf ds = none := by
  rw [cacheControlOf, if_neg (fun once => twice ((checkDuplicates_iff ds).mp once))]

theorem exactCacheControl_iff (unescaped : h.Unescaped) :
    ExactCacheControl h ↔ ¬Distinct h.directives ∨ (h.skipped = [] ∧ AgeSaturates h.directives) := by
  have parsed := parseCacheControl_text unescaped
  by_cases distinct : Distinct h.directives
  · obtain ⟨cc, made, noCache, noStore, age⟩ := cacheControlOf_reports distinct
    constructor
    · rintro ⟨succeeds, reports⟩
      right
      have first : h.skipped = [] := by
        by_contra skipped
        rw [parsed, if_neg skipped] at succeeds
        exact absurd (succeeds.mpr distinct) (by simp)
      rw [if_pos first, made] at parsed
      refine ⟨first, (readAge_age_iff distinct).mp (fun n => ?_)⟩
      rw [← age n]
      exact (reports cc parsed).2.2 n
    · rintro (twice | ⟨first, saturates⟩)
      · exact absurd distinct twice
      · rw [if_pos first, made] at parsed
        refine ⟨by rw [parsed]; exact ⟨fun _ => distinct, fun _ => rfl⟩, fun cc' read => ?_⟩
        cases parsed.symm.trans read
        exact ⟨noCache, noStore, fun n => (age n).trans ((readAge_age_iff distinct).mpr saturates n)⟩
  · have none' : parseCacheControl (h.text (ch ',')) = none := by
      rw [parsed, cacheControlOf_none distinct, ite_self]
    refine ⟨fun _ => .inl distinct, fun _ => ⟨?_, fun cc read => ?_⟩⟩
    · rw [none']
      exact ⟨fun some' => absurd some' (by simp), fun once => absurd once distinct⟩
    · rw [none'] at read
      cases read

theorem stsOf_reports (accepted : Accepted ds) : ∃ sts, stsOf ds = some sts ∧
    (sts.includeSubDomains = true ↔ Present ds (lit "includesubdomains")) ∧
    ∀ age, sts.maxAge.toNat = age ↔ ReadAge ds age := by
  obtain ⟨distinct, ⟨_, d, inside, name, value, given, number, -⟩, valueless⟩ := accepted
  have lower : insensitive (lit "max-age") = lit "max-age" := by decide
  have found := (findItem_iff distinct (lit "max-age") d).mpr ⟨inside, by rw [name, lower]⟩
  have age : ∀ age, (value.foldl addDigit 0).toNat = age ↔ ReadAge ds age := by
    intro age
    constructor
    · exact fun same => ⟨d, inside, name, value, given, number, same⟩
    · rintro ⟨e, there, name', value', given', -, same⟩
      cases name_unique distinct inside there (name.trans name'.symm)
      cases given.symm.trans given'
      exact same
  have present := @findItem_isSome ds (lit "includesubdomains")
  rw [stsOf, if_pos ((checkDuplicates_iff ds).mpr distinct), found]
  simp only [bind_eq_bind, bind_some]
  rw [given, bind_some, parseMaxAge_number number, bind_some]
  rcases sub : findItem ds (lit "includesubdomains") with _ | e
  · rw [sub] at present
    exact ⟨_, rfl, present, age⟩
  · rw [sub] at present
    obtain ⟨there, name'⟩ := (findItem_iff distinct _ e).mp sub
    have bare : e.value = none := valueless e there name'
    simp only
    rw [bare]
    exact ⟨_, rfl, present, age⟩

theorem accepted_of_sts {sts : Sts} (made : stsOf ds = some sts) : Accepted ds := by
  rw [stsOf] at made
  split at made
  next once =>
    have distinct := (checkDuplicates_iff ds).mp once
    simp only [bind_eq_bind] at made
    obtain ⟨d, found, made⟩ := bind_eq_some_iff.mp made
    obtain ⟨value, given, made⟩ := bind_eq_some_iff.mp made
    obtain ⟨maxAge, parsed, made⟩ := bind_eq_some_iff.mp made
    obtain ⟨inside, name⟩ := (findItem_iff distinct _ d).mp found
    have number : IsNumber value := by
      by_contra other
      rw [parseMaxAge_other other] at parsed
      cases parsed
    refine ⟨distinct, ⟨_, d, inside, name, value, given, number, rfl⟩, fun e there name' => ?_⟩
    rw [(findItem_iff distinct (lit "includesubdomains") e).mpr ⟨there, name'⟩] at made
    simp only at made
    split at made
    · cases made
    next bare => exact not_isSome_iff_eq_none.mp bare
  next => cases made

theorem exactSts_iff (unescaped : h.Unescaped) :
    ExactSts h ↔ ¬Accepted h.directives ∨ (h.skipped = [] ∧ AgeSaturates h.directives) := by
  have parsed := parseSts_text unescaped
  by_cases accepted : Accepted h.directives
  · obtain ⟨sts, made, sub, age⟩ := stsOf_reports accepted
    constructor
    · rintro ⟨succeeds, reports⟩
      right
      have first : h.skipped = [] := by
        by_contra skipped
        rw [parsed, if_neg skipped] at succeeds
        exact absurd (succeeds.mpr accepted) (by simp)
      rw [if_pos first, made] at parsed
      refine ⟨first, (readAge_age_iff accepted.distinct).mp (fun n => ?_)⟩
      rw [← age n]
      exact (reports sts parsed).2 n
    · rintro (refused | ⟨first, saturates⟩)
      · exact absurd accepted refused
      · rw [if_pos first, made] at parsed
        refine ⟨by rw [parsed]; exact ⟨fun _ => accepted, fun _ => rfl⟩, fun sts' read => ?_⟩
        cases parsed.symm.trans read
        exact ⟨sub, fun n => (age n).trans ((readAge_age_iff accepted.distinct).mpr saturates n)⟩
  · have none' : parseStrictTransportSecurity (h.text (ch ';')) = none := by
      rw [parsed]
      split
      · rcases made : stsOf h.directives with _ | sts
        · rfl
        · exact absurd (accepted_of_sts made) accepted
      · rfl
    refine ⟨fun _ => .inl accepted, fun _ => ⟨?_, fun sts read => ?_⟩⟩
    · rw [none']
      exact ⟨fun some' => absurd some' (by simp), fun good => absurd good accepted⟩
    · rw [none'] at read
      cases read

/-- Where no quoted string has an escaped character, a Cache-Control header is read exactly as it is written if and
    only if a directive occurs twice, or the list does not begin with an empty element and its age saturates; and so is
    a Strict-Transport-Security header, with the directives that it may have. The order of the directives does not
    matter for either. -/
theorem directives_exact_iff (h : Header) (unescaped : h.Unescaped) :
    (ExactCacheControl h ↔ ¬Distinct h.directives ∨ (h.skipped = [] ∧ AgeSaturates h.directives)) ∧
    (ExactSts h ↔ ¬Accepted h.directives ∨ (h.skipped = [] ∧ AgeSaturates h.directives)) ∧
    ∀ h' : Header, h'.Unescaped → h.skipped = [] → h'.skipped = [] → h.directives.Perm h'.directives →
      parseCacheControl (h.text (ch ',')) = parseCacheControl (h'.text (ch ',')) ∧
      parseStrictTransportSecurity (h.text (ch ';')) = parseStrictTransportSecurity (h'.text (ch ';')) := by
  refine ⟨exactCacheControl_iff unescaped, exactSts_iff unescaped, fun h' unescaped' first first' same => ⟨?_, ?_⟩⟩
  · rw [parseCacheControl_text unescaped, parseCacheControl_text unescaped', if_pos first, if_pos first',
      cacheControlOf_perm same]
  · rw [parseSts_text unescaped, parseSts_text unescaped', if_pos first, if_pos first', stsOf_perm same]

def tight : Blanks := ⟨[], fun _ member => absurd member not_mem_nil⟩

def tokenOf (text : List UInt8) (chars : text.all isTokenChar = true) (nonempty : text ≠ []) : Token :=
  ⟨text, List.all_eq_true.mp chars, nonempty⟩

def hour : Token := tokenOf (lit "3600") rfl (by decide)

def threeCenturies : Token := tokenOf (lit "10000000000") rfl (by decide)

/-- A directive `max-age` with a number, and elements behind it. -/
def ageHeader (age : Token) (more : List Element) : Header where
  skipped := []
  before := tight
  first := ⟨tokenOf (lit "max-age") rfl (by decide), some (tight, tight, .token age)⟩
  after := tight
  more

theorem ageHeader_unescaped (age : Token) : (ageHeader age []).Unescaped := by
  intro d member v given
  cases mem_singleton.mp member
  cases given
  trivial

/-- Two empty elements, and a directive without a value before a third. -/
def sparse : List Element :=
  [⟨tight, none⟩, ⟨tight, none⟩, ⟨tight, some (⟨tokenOf (lit "includeSubDomains") rfl (by decide), none⟩, tight)⟩, ⟨tight, none⟩]

/-- An hour is read as it is written, among empty elements. -/
theorem directives_exact_of_hour : (ageHeader hour sparse).text (ch ';') = lit "max-age=3600;;;includeSubDomains;" ∧
    ExactCacheControl (ageHeader hour sparse) ∧ ExactSts (ageHeader hour sparse) := by
  have unescaped : (ageHeader hour sparse).Unescaped := by
    intro d member v given
    simp only [Header.written, ageHeader, sparse, filterMap_cons, map_none, map_some, filterMap_nil,
      mem_cons, not_mem_nil, or_false] at member
    rcases member with rfl | rfl
    · cases given
      trivial
    · cases given
  have saturates : AgeSaturates (ageHeader hour sparse).directives := by
    intro d member name value given _
    rcases mem_cons.mp member with rfl | rest
    · cases given
      have small : decimalValue (lit "3600") < 2 ^ 32 := by decide
      exact .inl small
    · cases mem_singleton.mp rest
      cases given
  obtain ⟨cacheControl, sts, -⟩ := directives_exact_iff (ageHeader hour sparse) unescaped
  exact ⟨rfl, cacheControl.mpr (.inr ⟨rfl, saturates⟩), sts.mpr (.inr ⟨rfl, saturates⟩)⟩

/-- `max-age=10000000000` is read as an age of 1410065408 seconds. -/
theorem large_age_wraps :
    parseCacheControl (lit "max-age=10000000000") = some ⟨1410065408, true, false, false⟩ ∧
      parseStrictTransportSecurity (lit "max-age=10000000000") = some ⟨1410065408, false⟩ ∧
      (ageHeader threeCenturies []).text (ch ',') = lit "max-age=10000000000" ∧
      ¬ExactCacheControl (ageHeader threeCenturies []) ∧
      ¬ExactSts (ageHeader threeCenturies []) := by
  have digits : (lit "10000000000").all (fun c => ch '0' ≤ c ∧ c ≤ ch '9') = true := by decide
  have number : IsNumber (lit "10000000000") :=
    ⟨by decide, fun c member => of_decide_eq_true (List.all_eq_true.mp digits c member)⟩
  have wraps : ¬AgeSaturates (ageHeader threeCenturies []).directives := by
    intro saturates
    have exact := (parseMaxAge_saturates_iff number).mpr (saturates _ mem_cons_self rfl _ rfl number)
    have read : ((lit "10000000000").foldl addDigit 0).toNat = 1410065408 := by decide
    have meant : decimalValue (lit "10000000000") = 10000000000 := by decide
    rw [read, meant, uintMax] at exact
    omega
  have distinct : Distinct (ageHeader threeCenturies []).directives := nodup_singleton _
  have accepted : Accepted (ageHeader threeCenturies []).directives := by
    refine ⟨distinct, ⟨_, _, mem_cons_self, rfl, _, rfl, number, rfl⟩, fun d member name => ?_⟩
    cases mem_singleton.mp member
    exact absurd name (by decide)
  refine ⟨by decide, by decide, by decide, fun exact => ?_, fun exact => ?_⟩
  · rcases (exactCacheControl_iff (ageHeader_unescaped _)).mp exact with twice | ⟨-, saturates⟩
    · exact twice distinct
    · exact wraps saturates
  · rcases (exactSts_iff (ageHeader_unescaped _)).mp exact with refused | ⟨-, saturates⟩
    · exact refused accepted
    · exact wraps saturates

end Besra.CacheControl
