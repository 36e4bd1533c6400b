import Besra.NsurlParse
import Mathlib.Data.List.Induction

/-!
URLs derived from URLs, from `netsurf/utils/nsurl/nsurl.c`. Each of the functions
here cuts and pastes the string of the URL it is given; `Consistent` says that the
result is still the string of its components, and that the scheme type is the one
of the scheme.
-/
namespace Besra.Nsurl
open Lwc NsurlParse List

def nsurlDefragment (url : Nsurl) : Nsurl :=
  match url.components.fragment with
  | none => url
  | some fragment =>
    let length := url.length - (1 + fragment.length)
    let components := { url.components with fragment := none }
    { components, hash := calcHash components, length, string := url.string.take length }

def markedLength (component : Option LwcString) : Nat := component.elim 0 (fun s => 1 + s.length)

def nsurlRefragment (url : Nsurl) (frag : LwcString) : Except NsError Nsurl :=
  let baseLen := url.length - markedLength url.components.fragment
  let len := baseLen + 1 + frag.length
  if fitsInt url.length ∧ fitsInt len then
    let components := { url.components with fragment := some frag }
    .ok { components, hash := calcHash components, length := len,
          string := url.string.take baseLen ++ lit "#" ++ frag }
  else .error .undefined

def nsurlReplaceQuery (url : Nsurl) (given : List UInt8) : Except NsError Nsurl :=
  let query := cString given
  let lwcQuery := if query.length > 0 then some query else none
  let baseLen := url.length - markedLength url.components.query - markedLength url.components.fragment
  let length := markedLength lwcQuery + markedLength url.components.fragment + baseLen
  if fitsInt url.length ∧ fitsInt query.length then
    let components := { url.components with query := lwcQuery }
    .ok { components, hash := calcHash components, length,
          string := url.string.take baseLen ++ queryText lwcQuery ++ fragmentText url.components.fragment }
  else .error .undefined

/-- The scheme type that `nsurl_replace_scheme` computes. -/
def replacedSchemeType (scheme : LwcString) : SchemeType :=
  if caselessIsEqual scheme (lit "http") then .http
  else if caselessIsEqual scheme (lit "https") then .https
  else if caselessIsEqual scheme (lit "file") then .file
  else if caselessIsEqual scheme (lit "ftp") then .ftp
  else if caselessIsEqual scheme (lit "mailto") then .mailto
  else .other

def nsurlReplaceScheme (url : Nsurl) (scheme : LwcString) : Except NsError Nsurl :=
  let baseLen := url.length - lengthOf url.components.scheme
  let len := baseLen + scheme.length
  if fitsInt url.length ∧ fitsInt len then
    let components := { url.components with scheme := some scheme, schemeType := replacedSchemeType scheme }
    .ok { components, hash := calcHash components, length := len,
          string := scheme ++ (url.string.drop (url.length - baseLen)).take baseLen }
  else .error .undefined

def parentPath (path : List UInt8) : List UInt8 :=
  if path.length > 1 then
    let back := path.reverse
    let back := if back.head? = some (ch '/') then back.tail else back
    (back.dropWhile (· ≠ ch '/')).reverse
  else path

def nsurlParent (url : Nsurl) : Nsurl :=
  let oldPath := url.components.path.getD []
  let newPath := parentPath oldPath
  let len := url.length - lengthOf url.components.query - markedLength url.components.fragment -
    (oldPath.length - newPath.length)
  let path := if oldPath.length = 0 then none else some newPath
  let components := { url.components with path, query := none, fragment := none }
  { components, hash := calcHash components, length := len, string := url.string.take len }

/-- A function that makes a URL from a URL. -/
inductive Op where
  | join (memory : Memory) (rel : List UInt8)
  | defragment
  | refragment (frag : LwcString)
  | replaceQuery (query : List UInt8)
  | replaceScheme (scheme : LwcString)
  | parent

def step (idnaEncode : List UInt8 → Option LwcString) (url : Nsurl) : Op → Except NsError Nsurl
  | .join memory rel => nsurlJoin idnaEncode memory url rel
  | .defragment => .ok (nsurlDefragment url)
  | .refragment frag => nsurlRefragment url frag
  | .replaceQuery query => nsurlReplaceQuery url query
  | .replaceScheme scheme => nsurlReplaceScheme url scheme
  | .parent => .ok (nsurlParent url)

def build (idnaEncode : List UInt8 → Option LwcString) (memory : Memory) (given : List UInt8) (ops : List Op) :
    Except NsError Nsurl := do
  let url ← nsurlCreate idnaEncode memory given
  ops.foldlM (step idnaEncode) url

/-- The string of a URL is the one of its components with all parts, its length is that string's, and
    the scheme type is that of the scheme. -/
structure Consistent (url : Nsurl) : Prop where
  string : componentsToString url.components withFragment = .ok (url.string, url.length)
  schemeType : ∃ scheme, url.components.scheme = some scheme ∧ url.components.schemeType = schemeTypeOf scheme

theorem consistent_iff_of_scheme (url : Nsurl) (scheme : LwcString) (present : url.components.scheme = some scheme) :
    Consistent url ↔ url.string = text scheme url.components ∧ url.length = (text scheme url.components).length ∧
      url.components.schemeType = schemeTypeOf scheme := by
  have built := componentsToString_text present
  constructor
  · rintro ⟨string, other, sameScheme, type⟩
    rw [built] at string
    cases present.symm.trans sameScheme
    simp only [Except.ok.injEq, Prod.mk.injEq] at string
    exact ⟨string.1.symm, string.2.symm, type⟩
  · rintro ⟨string, length, type⟩
    exact ⟨by rw [built, string, length], scheme, present, type⟩

variable {scheme : LwcString} {url next : Nsurl} {memory : Memory} {idnaEncode : List UInt8 → Option LwcString}
  {given : List UInt8} {op : Op}

theorem finish_consistent_iff {c : Components} (finished : finish c = .ok url) (present : c.scheme = some scheme) :
    Consistent url ↔ c.schemeType = schemeTypeOf scheme := by
  rw [finish, componentsToString_text present] at finished
  cases finished
  rw [consistent_iff_of_scheme _ scheme present]
  exact ⟨fun consistent => consistent.2.2, fun type => ⟨rfl, rfl, type⟩⟩

theorem nsurlCreate_consistent_iff (created : nsurlCreate idnaEncode memory given = .ok url) :
    Consistent url ↔ ¬ SchemeRelative (cString given) := by
  simp only [nsurlCreate] at created
  split_ifs at created
  obtain ⟨c, made, finished⟩ := bind_eq_ok.mp created
  split_ifs at finished with valid
  obtain ⟨scheme, type, host⟩ := createComponents_scheme made
  rw [finish_consistent_iff finished scheme, type]
  rcases getStringMarkers_cases (cString given) false with ⟨none, assumed⟩ | ⟨_, alpha, valid, named, known⟩
  · have empty : normalised (cString given) (getStringMarkers (cString given) false) .scheme = [] := by
      simp [normalised, Section.bounds, slice, none, normalise]
    rw [empty, if_pos rfl, assumed]
    cases alpha : isAlpha (byteAt (cString given) (skip isSpace (cString given) 0)) with
    | true =>
      have letter : ¬ SchemeRelative (cString given) := by
        rintro ⟨slash, -⟩
        rw [slash] at alpha
        revert alpha
        decide
      simp only [and_self, ↓reduceIte, letter, not_false_eq_true, iff_true]
      rfl
    | false =>
      -- Without a letter at its start a string is taken only for the authority that two slashes announce.
      have slashes : SchemeRelative (cString given) := by
        by_contra slashes
        rw [empty, if_pos rfl] at scheme
        have none := host (host_empty alpha slashes)
        simp [validUrl, scheme, none] at valid
      simp only [Bool.false_eq_true, false_and, ↓reduceIte, slashes, not_true_eq_false, iff_false]
      decide
  · have lowered : normalised (cString given) (getStringMarkers (cString given) false) .scheme =
        insensitive (slice (cString given) (getStringMarkers (cString given) false).start
          (getStringMarkers (cString given) false).schemeEnd) := normalise_scheme valid
    have present : ¬ insensitive (slice (cString given) (getStringMarkers (cString given) false).start
        (getStringMarkers (cString given) false).schemeEnd) = [] := by
      simpa [insensitive] using named
    have letter : ¬ SchemeRelative (cString given) := by
      rintro ⟨slash, -⟩
      rw [slash] at alpha
      revert alpha
      decide
    rw [lowered, if_neg present, schemeTypeOf_insensitive, known]
    exact ⟨fun _ => letter, fun _ => rfl⟩

theorem nsurlJoin_consistent {base : Nsurl} {rel : List UInt8} (consistent : Consistent base)
    (joined : nsurlJoin idnaEncode memory base rel = .ok url) : Consistent url := by
  simp only [nsurlJoin] at joined
  split at joined
  case isFalse => cases joined
  obtain ⟨⟨c₁, memory₁⟩, schemeJoined, joined⟩ := bind_eq_ok.mp joined
  obtain ⟨c₂, authority, joined⟩ := bind_eq_ok.mp joined
  obtain ⟨c₃, path, finished⟩ := bind_eq_ok.mp joined
  have keepAuthority := joinAuthority_keeps authority
  have keepPath := joinPath_keeps path
  obtain ⟨scheme, present, type⟩ : ∃ scheme, c₁.scheme = some scheme ∧ c₁.schemeType = schemeTypeOf scheme := by
    rcases getStringMarkers_cases (cString rel) true with ⟨none, -⟩ | ⟨some, _, valid, named, known⟩
    · have fromBase : (joinedParts (cString rel) (getStringMarkers (cString rel) true)).scheme = true := by
        simp [joinedParts, none]
      rw [joinScheme, if_pos fromBase] at schemeJoined
      cases schemeJoined
      exact consistent.schemeType
    · have fromRel : ¬ (joinedParts (cString rel) (getStringMarkers (cString rel) true)).scheme = true := by
        have present : (getStringMarkers (cString rel) true).schemeEnd - (getStringMarkers (cString rel) true).start
            ≠ 0 := by omega
        simp [joinedParts, present]
      rw [joinScheme, if_neg fromRel] at schemeJoined
      cases schemeJoined
      have lowered : normalised (cString rel) (getStringMarkers (cString rel) true) .scheme =
          insensitive (slice (cString rel) (getStringMarkers (cString rel) true).start
            (getStringMarkers (cString rel) true).schemeEnd) := normalise_scheme valid
      have present : ¬ insensitive (slice (cString rel) (getStringMarkers (cString rel) true).start
          (getStringMarkers (cString rel) true).schemeEnd) = [] := by
        simpa [insensitive] using named
      exact ⟨_, by rw [createScheme, lowered, if_neg present], by rw [schemeTypeOf_insensitive]; exact known⟩
  have kept : c₃.scheme = some scheme := keepPath.1.trans (keepAuthority.1.trans present)
  exact (finish_consistent_iff finished kept).mpr (keepPath.2.trans (keepAuthority.2.trans type))

def stem (scheme : LwcString) (c : Components) : List UInt8 :=
  scheme ++ lit ":" ++ authorityText c ++ c.path.getD []

private theorem fragmentText_length (fragment : Option LwcString) :
    (fragmentText fragment).length = markedLength fragment := by
  cases fragment with
  | none => rfl
  | some s => exact Nat.add_comm s.length 1

private theorem queryText_length (query : Option LwcString) : (queryText query).length = markedLength query := by
  cases query with
  | none => rfl
  | some s => exact Nat.add_comm s.length 1

private theorem text_length (scheme : LwcString) (c : Components) :
    (text scheme c).length = (stem scheme c ++ queryText c.query).length + markedLength c.fragment := by
  rw [text, length_append, fragmentText_length]
  rfl

private theorem take_text (scheme : LwcString) (c : Components) :
    (text scheme c).take ((text scheme c).length - markedLength c.fragment) = stem scheme c ++ queryText c.query := by
  rw [text_length, Nat.add_sub_cancel]
  exact take_left

private theorem take_stem (scheme : LwcString) (c : Components) :
    (text scheme c).take ((text scheme c).length - markedLength c.query - markedLength c.fragment) =
      stem scheme c := by
  have split : text scheme c = stem scheme c ++ (queryText c.query ++ fragmentText c.fragment) := by
    simp [text, stem]
  rw [split]
  apply take_left'
  simp only [length_append, queryText_length, fragmentText_length]
  omega

theorem nsurlDefragment_consistent (consistent : Consistent url) : Consistent (nsurlDefragment url) := by
  obtain ⟨scheme, present, _⟩ := consistent.schemeType
  obtain ⟨string, length, type⟩ := (consistent_iff_of_scheme url _ present).mp consistent
  cases fragment : url.components.fragment with
  | none => simpa only [nsurlDefragment, fragment] using consistent
  | some frag =>
    simp only [nsurlDefragment, fragment]
    have cut := take_text scheme url.components
    rw [← length, ← string, fragment] at cut
    have shorter : url.length - (1 + frag.length) =
        (stem scheme url.components ++ queryText url.components.query).length := by
      rw [length, text_length, fragment]
      exact Nat.add_sub_cancel _ _
    refine (consistent_iff_of_scheme _ scheme ?_).mpr ⟨?_, ?_, type⟩
    · exact present
    · exact cut.trans (append_nil _).symm
    · exact shorter.trans (congrArg _ (append_nil _).symm)

theorem nsurlRefragment_consistent {frag : LwcString} (consistent : Consistent url)
    (done : nsurlRefragment url frag = .ok next) : Consistent next := by
  obtain ⟨scheme, present, _⟩ := consistent.schemeType
  obtain ⟨string, length, type⟩ := (consistent_iff_of_scheme url _ present).mp consistent
  simp only [nsurlRefragment] at done
  split_ifs at done
  cases done
  have cut := take_text scheme url.components
  rw [← length, ← string] at cut
  have baseLen : url.length - markedLength url.components.fragment =
      (stem scheme url.components ++ queryText url.components.query).length := by
    rw [length, text_length]
    exact Nat.add_sub_cancel _ _
  have after : text scheme { url.components with fragment := some frag } =
      stem scheme url.components ++ queryText url.components.query ++ (lit "#" ++ frag) := rfl
  refine (consistent_iff_of_scheme _ scheme ?_).mpr ⟨?_, ?_, type⟩
  · exact present
  · simp only [after, cut, append_assoc]
  · simp only [after, baseLen, length_append]
    have mark : (lit "#").length = 1 := rfl
    omega

theorem nsurlReplaceQuery_consistent {query : List UInt8} (consistent : Consistent url)
    (done : nsurlReplaceQuery url query = .ok next) : Consistent next := by
  obtain ⟨scheme, present, _⟩ := consistent.schemeType
  obtain ⟨string, length, type⟩ := (consistent_iff_of_scheme url _ present).mp consistent
  simp only [nsurlReplaceQuery] at done
  split at done
  case isFalse => cases done
  cases done
  have cut := take_stem scheme url.components
  rw [← length, ← string] at cut
  have baseLen : url.length - markedLength url.components.query - markedLength url.components.fragment =
      (stem scheme url.components).length := by
    rw [length]
    simp only [text, stem, length_append, queryText_length, fragmentText_length]
    omega
  have after (new : Option LwcString) : text scheme { url.components with query := new } =
      stem scheme url.components ++ queryText new ++ fragmentText url.components.fragment := rfl
  refine (consistent_iff_of_scheme _ scheme ?_).mpr ⟨?_, ?_, type⟩
  · exact present
  · simp only [after, cut]
  · simp only [after, baseLen, length_append, queryText_length, fragmentText_length]
    omega

private theorem replacedSchemeType_eq_iff (scheme : LwcString) :
    replacedSchemeType scheme = schemeTypeOf scheme ↔ insensitive scheme ≠ lit "data" := by
  have literal (t : String) (lower : insensitive (lit t) = lit t) :
      caselessIsEqual scheme (lit t) = true ↔ insensitive scheme = lit t := by
    rw [caselessIsEqual_iff, lower]
  simp only [replacedSchemeType, schemeTypeOf, literal "http" (by decide), literal "https" (by decide),
    literal "file" (by decide), literal "ftp" (by decide), literal "mailto" (by decide)]
  by_cases data : insensitive scheme = lit "data"
  · rw [data]
    decide
  · simp [data]

theorem nsurlReplaceScheme_consistent_iff (consistent : Consistent url)
    (done : nsurlReplaceScheme url scheme = .ok next) : Consistent next ↔ insensitive scheme ≠ lit "data" := by
  obtain ⟨old, present, _⟩ := consistent.schemeType
  obtain ⟨string, length, type⟩ := (consistent_iff_of_scheme url _ present).mp consistent
  simp only [nsurlReplaceScheme] at done
  split_ifs at done
  cases done
  have rest : url.string.drop old.length = lit ":" ++ authorityText url.components ++ url.components.path.getD [] ++
      queryText url.components.query ++ fragmentText url.components.fragment := by
    rw [string]
    simp [text]
  have total : url.length = old.length + (url.string.drop old.length).length := by
    rw [length, ← string, length_drop]
    have within : old.length ≤ url.string.length := by
      rw [string]
      simp [text]
    omega
  have baseLen : url.length - lengthOf url.components.scheme = (url.string.drop old.length).length := by
    rw [present, total]
    exact Nat.add_sub_cancel_left _ _
  have front : url.length - (url.string.drop old.length).length = old.length := by omega
  have after : text scheme { url.components with scheme := some scheme, schemeType := replacedSchemeType scheme } =
      scheme ++ url.string.drop old.length := by
    rw [rest]
    simp [text, authorityText]
  rw [consistent_iff_of_scheme _ scheme rfl, ← replacedSchemeType_eq_iff]
  simp only [after, baseLen, front, take_length, length_append]
  exact ⟨fun same => same.2.2, fun same => ⟨trivial, Nat.add_comm _ _, same⟩⟩

private theorem parentPath_prefix (path : List UInt8) : ∃ rest, path = parentPath path ++ rest := by
  unfold parentPath
  split_ifs
  · have suffix : ((if path.reverse.head? = some (ch '/') then path.reverse.tail else path.reverse).dropWhile
        (· ≠ ch '/')).IsSuffix path.reverse := by
      refine (dropWhile_suffix _).trans ?_
      split_ifs
      · exact tail_suffix _
      · exact suffix_refl _
    obtain ⟨rest, whole⟩ := suffix
    refine ⟨rest.reverse, ?_⟩
    have back := congrArg List.reverse whole
    rw [reverse_append, reverse_reverse] at back
    exact back.symm
  · exact ⟨[], by simp⟩

private theorem parentPath_slash (path : List UInt8) :
    byteAt (parentPath path) 0 = ch '/' ↔ byteAt path 0 = ch '/' := by
  obtain ⟨rest, whole⟩ := parentPath_prefix path
  cases found : parentPath path with
  | cons c cs =>
    rw [found] at whole
    simp [whole, byteAt]
  | nil =>
    refine ⟨fun absent => absurd absent (by decide), fun slash => ?_⟩
    exfalso
    cases path with
    | nil => revert slash; decide
    | cons c cs =>
      have first : c = ch '/' := slash
      subst first
      unfold parentPath at found
      split_ifs at found with longer
      · simp only [reverse_eq_nil_iff, dropWhile_eq_nil_iff] at found
        have kept : ch '/' ∈ (if (ch '/' :: cs).reverse.head? = some (ch '/') then (ch '/' :: cs).reverse.tail
            else (ch '/' :: cs).reverse) := by
          split_ifs
          · cases last : cs.reverse with
            | nil =>
              rw [reverse_eq_nil_iff.mp last] at longer
              exact absurd longer (by decide)
            | cons d ds =>
              rw [reverse_cons, last]
              simp
          · simp
        simpa using found _ kept

private theorem authorityText_path (c : Components) (path : Option LwcString)
    (same : path.any (fun p => byteAt p 0 == ch '/') = c.path.any (fun p => byteAt p 0 == ch '/')) :
    authorityText { c with path, query := none, fragment := none } = authorityText c := by
  simp only [authorityText, same]

/-- `nsurl_parent` is consistent but for URLs with a query. -/
theorem nsurlParent_consistent_iff (consistent : Consistent url) :
    Consistent (nsurlParent url) ↔ url.components.query = none := by
  obtain ⟨scheme, present, _⟩ := consistent.schemeType
  obtain ⟨string, length, type⟩ := (consistent_iff_of_scheme url _ present).mp consistent
  obtain ⟨rest, whole⟩ := parentPath_prefix (url.components.path.getD [])
  obtain ⟨stump, isStump⟩ : ∃ stump, stump = scheme ++ lit ":" ++ authorityText url.components := ⟨_, rfl⟩
  obtain ⟨path, isPath⟩ : ∃ path, path = if (url.components.path.getD []).length = 0 then none
      else some (parentPath (url.components.path.getD [])) := ⟨_, rfl⟩
  have same : path.any (fun p => byteAt p 0 == ch '/') = url.components.path.any (fun p => byteAt p 0 == ch '/') := by
    rw [isPath]
    cases url.components.path with
    | none => rfl
    | some p =>
      split_ifs with empty
      · have none : p = [] := eq_nil_of_length_eq_zero empty
        rw [none]
        rfl
      · have slash := parentPath_slash p
        simp only [Option.getD_some, Option.any_some, Bool.beq_eq_decide_eq, slash]
  have pathText : path.getD [] = parentPath (url.components.path.getD []) := by
    rw [isPath]
    split_ifs with empty
    · have none := eq_nil_of_length_eq_zero empty
      rw [none]
      rfl
    · rfl
  have after : text scheme { url.components with path, query := none, fragment := none } =
      stump ++ parentPath (url.components.path.getD []) := by
    rw [text, authorityText_path _ _ same, isStump]
    simp [pathText, queryText, fragmentText]
  have before : url.string = stump ++ parentPath (url.components.path.getD []) ++
      (rest ++ queryText url.components.query ++ fragmentText url.components.fragment) := by
    rw [string, text, isStump]
    nth_rewrite 1 [whole]
    simp
  have len : (nsurlParent url).length = (stump ++ parentPath (url.components.path.getD [])).length +
      (markedLength url.components.query - lengthOf url.components.query) := by
    have total : url.length = (stump ++ parentPath (url.components.path.getD [])).length + rest.length +
        markedLength url.components.query + markedLength url.components.fragment := by
      rw [length, ← string, before]
      simp only [length_append, queryText_length, fragmentText_length]
      omega
    have old : (url.components.path.getD []).length = (parentPath (url.components.path.getD [])).length + rest.length := by
      have lengths := congrArg List.length whole
      rwa [length_append] at lengths
    have marked : lengthOf url.components.query ≤ markedLength url.components.query := by
      cases url.components.query <;> simp [lengthOf, markedLength]
    simp only [nsurlParent]
    omega
  have components : (nsurlParent url).components = { url.components with path, query := none, fragment := none } := by
    rw [isPath]
    rfl
  have presentAfter : (nsurlParent url).components.scheme = some scheme := by rw [components]; exact present
  rw [consistent_iff_of_scheme _ scheme presentAfter, components, after]
  cases query : url.components.query with
  | none =>
    rw [query] at len
    refine ⟨fun _ => rfl, fun _ => ⟨?_, len, type⟩⟩
    have cut : (nsurlParent url).string = url.string.take (nsurlParent url).length := rfl
    rw [cut, len, before]
    exact take_left
  | some q =>
    rw [query] at len
    have longer : (nsurlParent url).length ≠ (stump ++ parentPath (url.components.path.getD [])).length := by
      simp only [lengthOf, markedLength, Option.getD_some, Option.elim_some] at len
      omega
    exact ⟨fun same => absurd same.2.1 longer, fun absent => by cases absent⟩

/-- The operations that keep a consistent URL consistent. -/
def Meets (url : Nsurl) : Op → Prop
  | .parent => url.components.query = none
  | .replaceScheme scheme => insensitive scheme ≠ lit "data"
  | _ => True

theorem step_consistent_iff (consistent : Consistent url) (stepped : step idnaEncode url op = .ok next) :
    Consistent next ↔ Meets url op := by
  cases op with
  | join memory rel => exact iff_of_true (nsurlJoin_consistent consistent stepped) trivial
  | defragment =>
    cases stepped
    exact iff_of_true (nsurlDefragment_consistent consistent) trivial
  | refragment frag => exact iff_of_true (nsurlRefragment_consistent consistent stepped) trivial
  | replaceQuery query => exact iff_of_true (nsurlReplaceQuery_consistent consistent stepped) trivial
  | replaceScheme scheme => exact nsurlReplaceScheme_consistent_iff consistent stepped
  | parent =>
    cases stepped
    exact nsurlParent_consistent_iff consistent

/-- Every URL on the way of a sequence of operations is consistent. -/
def EveryConsistent (idnaEncode : List UInt8 → Option LwcString) (memory : Memory) (given : List UInt8)
    (ops : List Op) : Prop :=
  ∀ before after url, ops = before ++ after → build idnaEncode memory given before = .ok url → Consistent url

/-- Every step of a sequence of operations that makes a URL meets its condition: the string does not
    begin with two slashes, no parent is taken of a URL with a query and no scheme is replaced by data. -/
def EveryMeets (idnaEncode : List UInt8 → Option LwcString) (memory : Memory) (given : List UInt8)
    (ops : List Op) : Prop :=
  (∀ url, nsurlCreate idnaEncode memory given = .ok url → ¬ SchemeRelative (cString given)) ∧
    ∀ before op after url next, ops = before ++ op :: after → build idnaEncode memory given before = .ok url →
      step idnaEncode url op = .ok next → Meets url op

private theorem build_nil : build idnaEncode memory given [] = nsurlCreate idnaEncode memory given := by
  rw [build]
  cases nsurlCreate idnaEncode memory given <;> rfl

private theorem build_snoc {before : List Op} :
    build idnaEncode memory given (before ++ [op]) = .ok next ↔
      ∃ url, build idnaEncode memory given before = .ok url ∧ step idnaEncode url op = .ok next := by
  simp only [build, foldlM_append, foldlM_cons, foldlM_nil, bind_pure, bind_eq_ok]
  constructor
  · rintro ⟨created, made, url, reached, stepped⟩
    exact ⟨url, ⟨created, made, reached⟩, stepped⟩
  · rintro ⟨url, ⟨created, made, reached⟩, stepped⟩
    exact ⟨created, made, url, reached, stepped⟩

/-- All URLs that a sequence of operations makes are consistent exactly when all its steps meet their
    conditions; and consistent URLs of the same components are the same string. -/
theorem urls_consistent_iff (idnaEncode : List UInt8 → Option LwcString) (memory : Memory) (given : List UInt8)
    (ops : List Op) :
    (EveryConsistent idnaEncode memory given ops ↔ EveryMeets idnaEncode memory given ops) ∧
      ∀ a b, Consistent a → Consistent b → a.components = b.components → a.string = b.string ∧ a.length = b.length := by
  refine ⟨⟨fun every => ⟨?_, ?_⟩, fun meets => ?_⟩, ?_⟩
  · intro url created
    exact (nsurlCreate_consistent_iff created).mp (every [] ops url rfl (build_nil.trans created))
  · intro before op after url next split reached stepped
    have consistent := every before (op :: after) url split reached
    have consistentNext := every (before ++ [op]) after next (by simp [split]) (build_snoc.mpr ⟨url, reached, stepped⟩)
    exact (step_consistent_iff consistent stepped).mp consistentNext
  · intro before
    induction before using List.reverseRecOn with
    | nil =>
      intro after url split reached
      have created := build_nil.symm.trans reached
      exact (nsurlCreate_consistent_iff created).mpr (meets.1 url created)
    | append_singleton before op ih =>
      intro after next split reached
      obtain ⟨url, reached, stepped⟩ := build_snoc.mp reached
      have split' : ops = before ++ op :: after := by simpa using split
      have consistent := ih (op :: after) url split' reached
      exact (step_consistent_iff consistent stepped).mpr (meets.2 before op after url next split' reached stepped)
  · intro a b consistentA consistentB same
    have strings := consistentA.string
    rw [same, consistentB.string] at strings
    simp only [Except.ok.injEq, Prod.mk.injEq] at strings
    exact ⟨strings.1.symm, strings.2.symm⟩

/-- What `nsurl_parent` makes of `http://a/b/c?q`. -/
def parentOfQuery : Nsurl where
  components.scheme := some (lit "http")
  components.host := some (lit "a")
  components.path := some (lit "/b/")
  components.schemeType := .http
  hash := 0xf1b5e052
  length := 12
  string := lit "http://a/b/c"

/-- The parent of `http://a/b/c?q` has the path `/b/` and the string `http://a/b/c`. -/
theorem parent_of_query_inconsistent : ¬ EveryConsistent some (fun _ => 0) (lit "http://a/b/c?q") [.parent] := by
  intro every
  have reached : build some (fun _ => 0) (lit "http://a/b/c?q") [.parent] = .ok parentOfQuery := by decide
  have string := (every [.parent] [] _ rfl reached).string
  revert string
  decide

end Besra.Nsurl
