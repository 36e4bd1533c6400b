import Besra.NsurlParse

/-!
The order of the markers that `nsurl__get_string_markers` sets. Where an authority is read is a question of the string
alone (`getAuthority_scanned`), and so is what a path starts with that no authority goes before: with a lone `@`
(`lone_iff`), or with what a join appends to the path of its base (`mergedPath_iff`).
-/
namespace Besra.NsurlMarkers
open Lwc NsurlParse List

/-! ### Where a skip ends -/

theorem le_skip (p : UInt8 → Bool) (s : List UInt8) (pos : Nat) : pos ≤ skip p s pos := Nat.le_add_right _ _

variable {pos i : Nat} {s url : List UInt8} {m : Markers} {isHttp joining : Bool}

theorem skip_le (p : UInt8 → Bool) (within : pos ≤ s.length) : skip p s pos ≤ s.length := by
  have prefixed := ( takeWhile_prefix p (l := s.drop pos)).length_le
  rw [length_drop] at prefixed
  rw [skip]
  omega

theorem byteAt_lt (some : byteAt s pos ≠ 0) : pos < s.length := by
  by_contra beyond
  exact some (getD_eq_default s 0 (Nat.le_of_not_lt beyond))

theorem byteAt_drop (s : List UInt8) (pos k : Nat) : (s.drop pos).getD k 0 = byteAt s (pos + k) := by
  rw [byteAt, getD_eq_getElem?_getD, getD_eq_getElem?_getD, List.getElem?_drop]

theorem skip_stop (p : UInt8 → Bool) (within : pos ≤ s.length) :
    skip p s pos = s.length ∨ p (byteAt s (skip p s pos)) = false := by
  rw [skip, ← byteAt_drop]
  have total : pos + (s.drop pos).length = s.length := by rw [length_drop]; omega
  rw [← total]
  generalize s.drop pos = rest
  induction rest with
  | nil => exact .inl rfl
  | cons c rest ih =>
    by_cases holds : p c = true
    · rw [takeWhile_cons_of_pos holds]
      refine ih.imp (fun same => ?_) id
      rw [length_cons, length_cons]
      omega
    · rw [takeWhile_cons_of_neg holds]
      exact .inr (Bool.eq_false_iff.mpr holds)

theorem skip_before (p : UInt8 → Bool) (some : pos < skip p s pos) : p (byteAt s (skip p s pos - 1)) = true := by
  have count : skip p s pos - 1 = pos + (((s.drop pos).takeWhile p).length - 1) := by
    rw [skip] at some ⊢
    omega
  have position : 0 < ((s.drop pos).takeWhile p).length := by
    rw [skip] at some
    omega
  rw [count, ← byteAt_drop]
  generalize s.drop pos = rest at position ⊢
  have member : ((rest.takeWhile p).length - 1) < (rest.takeWhile p).length := by omega
  have same : rest.getD ((rest.takeWhile p).length - 1) 0 = (rest.takeWhile p)[(rest.takeWhile p).length - 1] := by
    rw [( takeWhile_prefix p).getElem member]
    exact getD_eq_getElem rest 0 _
  rw [same]
  exact mem_takeWhile_imp (getElem_mem member)

/-! ### Markers in order -/

structure Ordered (url : List UInt8) (m : Markers) : Prop where
  start : m.start ≤ m.schemeEnd
  scheme : m.schemeEnd ≤ m.authority
  credentials : m.authority ≤ m.atSign
  host : m.atSign ≤ m.path
  path : m.path ≤ m.query
  query : m.query ≤ m.fragment
  fragment : m.fragment ≤ m.stop
  stop : m.stop ≤ url.length

/-- What holds of the markers while the string is scanned: a byte that is no white space is at the start or in front of
the authority. -/
structure Scanned (url : List UInt8) (m : Markers) (pos : Nat) : Prop where
  start : m.start ≤ m.schemeEnd
  scheme : m.schemeEnd ≤ m.authority
  credentials : m.authority ≤ m.atSign
  host : m.atSign ≤ m.path
  path : m.path ≤ pos
  within : pos ≤ url.length
  solid : ∃ i < url.length, m.authority ≤ i + 1 ∧ isSpace (byteAt url i) = false
  sign : m.atSign = m.authority ∨ (m.atSign < m.path ∧ byteAt url m.atSign = ch '@')

theorem startMarkers_scanned (more : byteAt url (skip isSpace url 0) ≠ 0) :
    Scanned url (startMarkers url) (startMarkers url).start := by
  have within := byteAt_lt more
  refine ⟨le_rfl, le_rfl, le_rfl, le_rfl, le_rfl, within.le, ⟨skip isSpace url 0, within, Nat.le_succ _, ?_⟩, .inl rfl⟩
  exact (skip_stop isSpace (Nat.zero_le _)).resolve_left within.ne

theorem Scanned.authorityAt (scanned : Scanned url m pos) (behind : pos ≤ i) (within : i < url.length)
    (solid : isSpace (byteAt url i) = false) : Scanned url (m.authorityAt (i + 1)) (i + 1) := by
  obtain ⟨start, scheme, credentials, host, path, -, -, -⟩ := scanned
  refine ⟨start, ?_, le_rfl, le_rfl, le_rfl, within, ⟨i, within, le_rfl, solid⟩, .inl rfl⟩
  simp only [Markers.authorityAt]
  omega

def behindScheme (url : List UInt8) : Nat :=
  let start := skip isSpace url 0
  let colon := skip isSchemeChar url (start + 1)
  if isAlpha (byteAt url start) ∧ byteAt url colon = ch ':' then colon + 1 else start

def schemeOf (url : List UInt8) : Option SchemeType :=
  let start := skip isSpace url 0
  let colon := skip isSchemeChar url (start + 1)
  if isAlpha (byteAt url start) ∧ byteAt url colon = ch ':' then some (schemeTypeOf (slice url start colon)) else none

/-- What "Get scheme" leaves: a scheme and the position behind its colon, no scheme but the letters of a name, or
nothing. -/
inductive Schemed (url : List UInt8) (joining : Bool) : Nat × Markers × Bool → Prop where
  | named (schemeType : SchemeType) (colon : Nat) (type : schemeOf url = some schemeType)
      (behind : behindScheme url = colon + 1) (after : (startMarkers url).start < colon) :
      Schemed url joining (colon + 1,
        { startMarkers url with schemeEnd := colon, schemeType }.authorityAt (colon + 1),
        schemeType = .http || schemeType = .https)
  | letters (type : schemeOf url = none) (behind : behindScheme url = (startMarkers url).start)
      (alpha : isAlpha (byteAt url (startMarkers url).start) = true) :
      Schemed url joining (skip isSchemeChar url ((startMarkers url).start + 1),
        { startMarkers url with schemeType := if joining then .other else .http }, !joining)
  | other (type : schemeOf url = none) (behind : behindScheme url = (startMarkers url).start)
      (alpha : isAlpha (byteAt url (startMarkers url).start) = false) :
      Schemed url joining ((startMarkers url).start, startMarkers url, false)

theorem getScheme_schemed (url : List UInt8) (joining : Bool) :
    Schemed url joining (getScheme url (startMarkers url) joining) := by
  unfold getScheme
  by_cases alpha : isAlpha (byteAt url (startMarkers url).start) = true
  · rw [if_pos alpha]
    by_cases colon : byteAt url (skip isSchemeChar url ((startMarkers url).start + 1)) = ch ':'
    · simp only [if_pos colon]
      refine .named _ _ (if_pos ⟨alpha, colon⟩) (if_pos ⟨alpha, colon⟩) ?_
      exact le_skip isSchemeChar url ((startMarkers url).start + 1)
    · simp only [if_neg colon]
      have none : ¬(isAlpha (byteAt url (startMarkers url).start) = true ∧
        byteAt url (skip isSchemeChar url ((startMarkers url).start + 1)) = ch ':') := fun both => colon both.2
      cases joining
      · exact .letters (if_neg none) (if_neg none) alpha
      · exact .letters (if_neg none) (if_neg none) alpha
  · rw [if_neg alpha]
    have none : ¬(isAlpha (byteAt url (startMarkers url).start) = true ∧
      byteAt url (skip isSchemeChar url ((startMarkers url).start + 1)) = ch ':') := fun both => alpha both.1
    exact .other (if_neg none) (if_neg none) (Bool.eq_false_iff.mpr alpha)

theorem getScheme_scanned (joining : Bool) (more : byteAt url (skip isSpace url 0) ≠ 0) :
    Scanned url (getScheme url (startMarkers url) joining).2.1 (getScheme url (startMarkers url) joining).1 := by
  have scanned := startMarkers_scanned more
  have within : (startMarkers url).start + 1 ≤ url.length := byteAt_lt more
  have named := skip_le isSchemeChar within
  have ahead := le_skip isSchemeChar url ((startMarkers url).start + 1)
  have further : Scanned url (startMarkers url) (skip isSchemeChar url ((startMarkers url).start + 1)) := by
    obtain ⟨start, scheme, credentials, host, -, -, solid, sign⟩ := scanned
    exact ⟨start, scheme, credentials, host, (Nat.le_succ _).trans ahead, named, solid, sign⟩
  unfold getScheme
  by_cases alpha : isAlpha (byteAt url (startMarkers url).start) = true
  · rw [if_pos alpha]
    by_cases colon : byteAt url (skip isSchemeChar url ((startMarkers url).start + 1)) = ch ':'
    · have named' : skip isSchemeChar url ((startMarkers url).start + 1) < url.length :=
        byteAt_lt (by rw [colon]; decide)
      simp only [if_pos colon]
      refine ⟨?_, ?_, le_rfl, le_rfl, le_rfl, named', ⟨_, named', le_rfl, ?_⟩, .inl rfl⟩
      · exact (Nat.le_succ _).trans ahead
      · exact Nat.le_succ _
      · rw [colon]
        decide
    · simp only [if_neg colon]
      cases joining
      · obtain ⟨start, scheme, credentials, host, path, pos, solid, sign⟩ := further
        exact ⟨start, scheme, credentials, host, path, pos, solid, sign⟩
      · exact further
  · rw [if_neg alpha]
    exact scanned

def Delimited (url : List UInt8) (pos : Nat) : Prop :=
  pos = url.length ∨ byteAt url pos = ch '/' ∨ byteAt url pos = ch '?' ∨ byteAt url pos = ch '#'

theorem authorityLoop_scanned (rest : List UInt8) (ahead : url.drop pos = rest) (within : pos ≤ url.length)
    (credentials : m.authority ≤ m.atSign) (host : m.atSign ≤ pos)
    (sign : m.atSign = m.authority ∨ (m.atSign < pos ∧ byteAt url m.atSign = ch '@')) :
    let (stop, m') := authorityLoop m pos rest
    m'.start = m.start ∧ m'.schemeEnd = m.schemeEnd ∧ m'.authority = m.authority ∧ m.authority ≤ m'.atSign ∧
      m'.atSign ≤ stop ∧ stop ≤ url.length ∧
      (m'.atSign = m.authority ∨ (m'.atSign < stop ∧ byteAt url m'.atSign = ch '@')) ∧ Delimited url stop := by
  induction rest generalizing m pos with
  | nil =>
    have past := drop_eq_nil_iff.mp ahead
    exact ⟨rfl, rfl, rfl, credentials, host, within, sign, .inl (Nat.le_antisymm within past)⟩
  | cons c rest ih =>
    have inside : pos < url.length := by
      by_contra beyond
      rw [drop_eq_nil_of_le (Nat.le_of_not_lt beyond)] at ahead
      exact cons_ne_nil _ _ ahead.symm
    have here : byteAt url pos = c := by
      have first := byteAt_drop url pos 0
      rw [ahead] at first
      exact first.symm
    have behind : url.drop (pos + 1) = rest := by
      rw [← drop_drop, ahead]
      rfl
    have host' := host.trans (Nat.le_succ pos)
    have sign' : m.atSign = m.authority ∨ (m.atSign < pos + 1 ∧ byteAt url m.atSign = ch '@') :=
      sign.imp_right fun both => ⟨both.1.trans (Nat.lt_succ_self pos), both.2⟩
    rw [authorityLoop]
    split_ifs with delimiter first later isSign
    · refine ⟨rfl, rfl, rfl, credentials, host, within, sign, .inr ?_⟩
      rwa [here]
    · exact ih (m := { m with colonFirst := pos }) behind inside credentials host' sign'
    · exact ih (m := { m with colonLast := pos }) behind inside credentials host' sign'
    · have moved : pos = m.authority ∨ (pos < pos + 1 ∧ byteAt url pos = ch '@') :=
        .inr ⟨Nat.lt_succ_self pos, here.trans isSign.1⟩
      exact ih (m := { m with atSign := pos }) behind inside (credentials.trans host) (Nat.le_succ _) moved
    · exact ih (m := m) behind inside credentials host' sign'

theorem skipSlashes_scanned (scanned : Scanned url m pos) (isHttp : Bool) (slash : byteAt url pos = ch '/') :
    Scanned url (m.authorityAt (skipSlashes url pos isHttp)) (skipSlashes url pos isHttp) := by
  have inside : pos < url.length := byteAt_lt (by rw [slash]; decide)
  have solid : isSpace (ch '/') = false := by decide
  rw [skipSlashes]
  split_ifs with http double
  · have some : pos < skip (· == ch '/') url pos := by
      refine lt_of_le_of_ne (le_skip _ _ _) fun same => ?_
      have ends := (skip_stop (· == ch '/') inside.le).resolve_left (by rw [← same]; exact inside.ne)
      rw [← same, slash] at ends
      exact absurd ends (by decide)
    obtain ⟨last, same⟩ : ∃ last, skip (· == ch '/') url pos = last + 1 := ⟨_, (Nat.succ_pred (by omega)).symm⟩
    have before := skip_before (· == ch '/') some
    have limit := skip_le (· == ch '/') inside.le
    rw [same] at some before limit ⊢
    refine scanned.authorityAt (Nat.le_of_lt_succ some) limit ?_
    rw [Nat.add_sub_cancel, beq_iff_eq] at before
    rw [before]
    exact solid
  · exact scanned.authorityAt (Nat.le_succ pos) (byteAt_lt (by rw [double]; decide)) (by rw [double]; exact solid)
  · exact scanned.authorityAt le_rfl inside (by rw [slash]; exact solid)

/-- Whether an authority is read, or the path is known to start. -/
def Reads (url : List UInt8) (pos : Nat) (m : Markers) (isHttp joining : Bool) : Prop :=
  ((byteAt url pos = ch '/' ∧ byteAt url (pos + 1) = ch '/') ∨
    (isHttp ∧ ((joining ∧ byteAt url pos = ch '/') ∨ (joining = false ∧ m.schemeEnd ≠ m.start))) ∨
    m.schemeType = .mailto) ∨
  ((byteAt url pos = 0 ∨ byteAt url pos = ch '/') ∧ joining = false ∧ isHttp = true)

theorem byteAt_eq_zero (ends : 0 ∉ url) (within : pos ≤ url.length) : byteAt url pos = 0 ↔ pos = url.length := by
  constructor
  · intro zero
    refine Nat.le_antisymm within (Nat.le_of_not_lt fun inside => ends ?_)
    rw [← zero, byteAt, getD_eq_getElem _ _ inside]
    exact getElem_mem inside
  · rintro rfl
    exact getD_eq_default _ _ le_rfl

theorem getAuthority_scanned (scanned : Scanned url m pos) (ends : 0 ∉ url) (isHttp joining : Bool) :
    Scanned url (getAuthority url pos m isHttp joining).2 (getAuthority url pos m isHttp joining).1 ∧
      ((Reads url pos m isHttp joining ∧ Delimited url (getAuthority url pos m isHttp joining).1 ∧
          (getAuthority url pos m isHttp joining).2.path = (getAuthority url pos m isHttp joining).1) ∨
        (¬Reads url pos m isHttp joining ∧ getAuthority url pos m isHttp joining = (pos, m))) := by
  have loop : ∀ {m : Markers} {pos : Nat}, Scanned url m pos →
      Scanned url { (authorityLoop m pos (url.drop pos)).2 with path := (authorityLoop m pos (url.drop pos)).1 }
          (authorityLoop m pos (url.drop pos)).1 ∧ Delimited url (authorityLoop m pos (url.drop pos)).1 := by
    intro m pos scanned
    have sign : m.atSign = m.authority ∨ (m.atSign < pos ∧ byteAt url m.atSign = ch '@') :=
      scanned.sign.imp_right fun both => ⟨both.1.trans_le scanned.path, both.2⟩
    obtain ⟨start, schemeEnd, authority, credentials, host, within, sign', delimited⟩ :=
      authorityLoop_scanned (url.drop pos) rfl scanned.within scanned.credentials (scanned.host.trans scanned.path) sign
    refine ⟨⟨?_, ?_, ?_, host, le_rfl, within, ?_, ?_⟩, delimited⟩
    · rw [start, schemeEnd]
      exact scanned.start
    · rw [schemeEnd, authority]
      exact scanned.scheme
    · rw [authority]
      exact credentials
    · rw [authority]
      exact scanned.solid
    · rw [authority]
      exact sign'
  unfold getAuthority
  split_ifs with authority slash blank
  · obtain ⟨scanned', delimited⟩ := loop (skipSlashes_scanned scanned isHttp slash)
    exact ⟨scanned', .inl ⟨.inl authority, delimited, rfl⟩⟩
  · obtain ⟨scanned', delimited⟩ := loop scanned
    exact ⟨scanned', .inl ⟨.inl authority, delimited, rfl⟩⟩
  · obtain ⟨start, scheme, credentials, host, path, within, solid, sign⟩ := scanned
    have sign' : m.atSign = m.authority ∨ (m.atSign < pos ∧ byteAt url m.atSign = ch '@') :=
      sign.imp_right fun both => ⟨both.1.trans_le path, both.2⟩
    refine ⟨⟨start, scheme, credentials, host.trans path, le_rfl, within, solid, sign'⟩, .inl ⟨.inr blank, ?_, rfl⟩⟩
    rcases blank.1 with zero | slash
    · exact .inl ((byteAt_eq_zero ends within).mp zero)
    · exact .inr (.inl slash)
  · exact ⟨scanned, .inr ⟨fun reads => reads.elim authority blank, rfl⟩⟩

/-- The path, the query and the fragment are the rest of the string. -/
theorem getPathQueryFragment_rest (within : pos ≤ url.length) (ends : 0 ∉ url)
    (delimited : Delimited url pos ∨ m.path = m.authority) :
    ∃ query fragment, getPathQueryFragment url pos m = (url.length, { m with query, fragment }) ∧
      pos ≤ query ∧ query ≤ fragment ∧ fragment ≤ url.length ∧
      (byteAt url query = ch '?' → query < fragment) ∧ (byteAt url fragment = ch '#' → fragment < url.length) ∧
      (byteAt url pos = ch '?' ∨ byteAt url pos = ch '#' ∨ byteAt url pos = 0 → query = pos) ∧
      (byteAt url pos = ch '/' ∨ (m.path = m.authority ∧ byteAt url pos ≠ ch '?' ∧ byteAt url pos ≠ ch '#' ∧
        byteAt url pos ≠ 0) → pos < query) := by
  have inside : ∀ {i : Nat} {c : UInt8}, byteAt url i = c → c ≠ 0 → i + 1 ≤ url.length :=
    fun here some => byteAt_lt (by rwa [here])
  obtain ⟨query, queryIs⟩ : ∃ query, query = if byteAt url pos = ch '/' ∨ (m.path = m.authority ∧
      byteAt url pos ≠ ch '?' ∧ byteAt url pos ≠ ch '#' ∧ byteAt url pos ≠ 0) then
        skip (fun c => c ≠ ch '?' ∧ c ≠ ch '#') url (pos + 1) else pos := ⟨_, rfl⟩
  obtain ⟨fragment, fragmentIs⟩ : ∃ fragment, fragment = if byteAt url query = ch '?' then
      skip (· ≠ ch '#') url (query + 1) else query := ⟨_, rfl⟩
  have path : pos ≤ query ∧ query ≤ url.length ∧
      (query = url.length ∨ byteAt url query = ch '?' ∨ byteAt url query = ch '#') := by
    rw [queryIs]
    split_ifs with follows
    · have next : pos + 1 ≤ url.length := by
        rcases follows with slash | ⟨-, -, -, some⟩
        · exact inside slash (by decide)
        · exact inside rfl some
      refine ⟨(Nat.le_succ _).trans (le_skip _ _ _), skip_le _ next, (skip_stop _ next).imp_right fun fails => ?_⟩
      rw [decide_eq_false_iff_not, not_and_or, not_not, not_not] at fails
      exact fails
    · refine ⟨le_rfl, within, ?_⟩
      by_contra other
      obtain ⟨more, question, hash⟩ : pos ≠ url.length ∧ byteAt url pos ≠ ch '?' ∧ byteAt url pos ≠ ch '#' := by
        simpa only [not_or] using other
      refine follows ?_
      rcases delimited with delimited | same
      · rcases delimited with stop | slash | mark | mark
        · exact absurd stop more
        · exact .inl slash
        · exact absurd mark question
        · exact absurd mark hash
      · exact .inr ⟨same, question, hash, fun zero => more ((byteAt_eq_zero ends within).mp zero)⟩
  have rest : query ≤ fragment ∧ fragment ≤ url.length ∧ (fragment = url.length ∨ byteAt url fragment = ch '#') := by
    rw [fragmentIs]
    split_ifs with question
    · have next : query + 1 ≤ url.length := inside question (by decide)
      refine ⟨(Nat.le_succ _).trans (le_skip _ _ _), skip_le _ next, (skip_stop _ next).imp_right fun fails => ?_⟩
      exact not_not.mp (of_decide_eq_false fails)
    · exact ⟨le_rfl, path.2.1, path.2.2.imp_right fun mark => mark.resolve_left question⟩
  refine ⟨query, fragment, ?_, path.1, rest.1, rest.2.1, ?_, ?_, ?_, ?_⟩
  · have stop : (if byteAt url fragment = ch '#' then skip (fun _ => true) url (fragment + 1) else fragment) =
        url.length := by
      split_ifs with hash
      · refine (skip_stop _ (inside hash (by decide))).resolve_right fun fails => ?_
        exact absurd fails (by decide)
      · exact rest.2.2.resolve_right hash
    rw [getPathQueryFragment, ← queryIs]
    simp only [← fragmentIs]
    rw [stop]
  · intro question
    rw [fragmentIs, if_pos question]
    exact le_skip _ _ _
  · exact fun hash => inside hash (by decide)
  · intro stops
    rw [queryIs, if_neg]
    rintro (slash | ⟨-, question, hash, some⟩)
    · rw [slash] at stops
      exact absurd stops (by decide)
    · exact stops.elim question fun stops => stops.elim hash some
  · intro follows
    rw [queryIs, if_pos follows]
    exact le_skip _ _ _

/-! ### The trimmed end -/

def trimmedEnd (url : List UInt8) : Nat := url.length - (url.reverse.takeWhile isSpace).length

theorem trimmedEnd_gt (inside : i < url.length) (solid : isSpace (byteAt url i) = false) : i + 1 ≤ trimmedEnd url := by
  by_contra short
  have behind : url.length - 1 - i < (url.reverse.takeWhile isSpace).length := by
    rw [trimmedEnd] at short
    omega
  have space := mem_takeWhile_imp (getElem_mem behind)
  have index : url.length - 1 - (url.length - 1 - i) = i := by omega
  rw [( takeWhile_prefix isSpace).getElem behind, getElem_reverse] at space
  simp only [index] at space
  rw [byteAt, getD_eq_getElem _ _ inside, space] at solid
  exact Bool.noConfusion solid

theorem trimmedEnd_space (shorter : trimmedEnd url < url.length) : isSpace (byteAt url (trimmedEnd url)) = true := by
  have count := ( takeWhile_prefix isSpace (l := url.reverse)).length_le
  rw [length_reverse] at count
  have last : (url.reverse.takeWhile isSpace).length - 1 < (url.reverse.takeWhile isSpace).length := by
    rw [trimmedEnd] at shorter
    omega
  have space := mem_takeWhile_imp (getElem_mem last)
  have index : url.length - 1 - ((url.reverse.takeWhile isSpace).length - 1) = trimmedEnd url := by
    rw [trimmedEnd]
    omega
  rw [( takeWhile_prefix isSpace).getElem last, getElem_reverse] at space
  simp only [index] at space
  rw [byteAt, getD_eq_getElem _ _ shorter]
  exact space

theorem min_trimmedEnd (within : pos ≤ url.length) (some : byteAt url (min pos (trimmedEnd url)) ≠ 0)
    (solid : isSpace (byteAt url (min pos (trimmedEnd url))) = false) :
    min pos (trimmedEnd url) = pos ∧ pos + 1 ≤ trimmedEnd url := by
  rcases le_or_gt pos (trimmedEnd url) with before | behind
  · rw [min_eq_left before] at some solid ⊢
    exact ⟨rfl, trimmedEnd_gt (byteAt_lt some) solid⟩
  · rw [min_eq_right behind.le, trimmedEnd_space (behind.trans_le within)] at solid
    exact Bool.noConfusion solid

theorem trimTrailing_min (credentials : m.atSign ≤ m.path) (path : m.path ≤ m.query) (query : m.query ≤ m.fragment)
    (fragment : m.fragment ≤ url.length) :
    (trimTrailing url url.length m).start = m.start ∧ (trimTrailing url url.length m).schemeEnd = m.schemeEnd ∧
      (trimTrailing url url.length m).authority = m.authority ∧
      (trimTrailing url url.length m).atSign = min m.atSign (trimmedEnd url) ∧
      (trimTrailing url url.length m).path = min m.path (trimmedEnd url) ∧
      (trimTrailing url url.length m).query = min m.query (trimmedEnd url) ∧
      (trimTrailing url url.length m).fragment = min m.fragment (trimmedEnd url) ∧
      (trimTrailing url url.length m).stop = trimmedEnd url := by
  have whole : url.length - ((url.take url.length).reverse.takeWhile isSpace).length = trimmedEnd url := by
    rw [take_length]
    rfl
  rw [trimTrailing, whole]
  split_ifs with shorter
  · exact ⟨rfl, rfl, rfl, rfl, rfl, rfl, rfl, rfl⟩
  · have none := Nat.le_of_not_lt shorter
    refine ⟨rfl, rfl, rfl, ?_, ?_, ?_, ?_, rfl⟩
    · exact (min_eq_left (credentials.trans (path.trans (query.trans (fragment.trans none))))).symm
    · exact (min_eq_left (path.trans (query.trans (fragment.trans none)))).symm
    · exact (min_eq_left (query.trans (fragment.trans none))).symm
    · exact (min_eq_left (fragment.trans none)).symm

/-! ### The scanned string -/

/-- What is known of the markers of a string that is not blank, by the scheme and whether an authority is read. -/
structure Pegged (url : List UInt8) (joining : Bool) (m : Markers) : Prop where
  scanned : Scanned url m m.path
  path : m.path ≤ m.query
  query : m.query ≤ m.fragment
  fragment : m.fragment ≤ url.length
  question : byteAt url m.query = ch '?' → m.query < m.fragment
  hash : byteAt url m.fragment = ch '#' → m.fragment < url.length
  shape : ∃ pos m' isHttp, Schemed url joining (pos, m', isHttp) ∧ m.schemeEnd = m'.schemeEnd ∧ m.start = m'.start ∧
    ((Reads url pos m' isHttp joining ∧ Delimited url m.path ∧ (byteAt url m.path ≠ ch '/' → m.query = m.path)) ∨
      (¬Reads url pos m' isHttp joining ∧ m.authority = m'.authority ∧ m.path = m'.path ∧
        (byteAt url pos = ch '?' ∨ byteAt url pos = ch '#' ∨ byteAt url pos = 0 → m.query = pos) ∧
        (byteAt url pos = ch '/' ∨ (byteAt url pos ≠ ch '?' ∧ byteAt url pos ≠ ch '#' ∧ byteAt url pos ≠ 0) →
          pos < m.query)))

theorem Schemed.path_eq (schemed : Schemed url joining (pos, m, isHttp)) : m.path = m.authority := by
  cases schemed <;> rfl

theorem getStringMarkers_pegged (ends : 0 ∉ url) (joining : Bool) (more : byteAt url (skip isSpace url 0) ≠ 0) :
    ∃ m, getStringMarkers url joining = trimTrailing url url.length m ∧ Pegged url joining m := by
  have scheme := getScheme_scanned joining more
  have schemed := getScheme_schemed url joining
  rcases named : getScheme url (startMarkers url) joining with ⟨pos, m, isHttp⟩
  rw [named] at scheme schemed
  obtain ⟨authority, read⟩ := getAuthority_scanned scheme ends isHttp joining
  have kept := getAuthority_scheme url pos m isHttp joining
  rcases found : getAuthority url pos m isHttp joining with ⟨pos', m'⟩
  rw [found] at authority read kept
  have delimited : Delimited url pos' ∨ m'.path = m'.authority := by
    rcases read with ⟨-, delimited, -⟩ | ⟨-, same⟩
    · exact .inl delimited
    · obtain ⟨rfl, rfl⟩ := Prod.mk.inj same
      exact .inr schemed.path_eq
  obtain ⟨query, fragment, parts, path, rest, within, question, hash, stops, follows⟩ :=
    getPathQueryFragment_rest authority.within ends delimited
  refine ⟨{ m' with query, fragment }, ?_, ?_⟩
  · simp only [startMarkers] at named
    simp only [getStringMarkers, if_neg more, named, found, parts]
  · obtain ⟨start, scheme, credentials, host, before, limit, solid, sign⟩ := authority
    refine ⟨⟨start, scheme, credentials, host, le_rfl, before.trans limit, solid, sign⟩, before.trans path, rest, within,
      question, hash, pos, m, isHttp, schemed, kept.2.1, kept.1, ?_⟩
    rcases read with ⟨reads, delimited, same⟩ | ⟨reads, same⟩
    · have same' : m'.path = pos' := same
      refine .inl ⟨reads, same' ▸ delimited, fun other => ?_⟩
      rw [same'] at other ⊢
      refine stops ?_
      rcases delimited with stop | slash | mark | mark
      · exact .inr (.inr ((byteAt_eq_zero ends limit).mpr stop))
      · exact absurd slash other
      · exact .inl mark
      · exact .inr (.inl mark)
    · obtain ⟨rfl, rfl⟩ := Prod.mk.inj same
      exact .inr ⟨reads, rfl, rfl, stops, fun more => follows (more.imp_right fun other => ⟨schemed.path_eq, other⟩)⟩

theorem Pegged.ordered (pegged : Pegged url joining m) : Ordered url (trimTrailing url url.length m) := by
  obtain ⟨start, scheme, credentials, host, -, -, ⟨i, inside, authority, solid⟩, -⟩ := pegged.scanned
  obtain ⟨starts, schemes, authorities, signs, paths, queries, fragments, stops⟩ :=
    trimTrailing_min host pegged.path pegged.query pegged.fragment
  have stop := trimmedEnd_gt inside solid
  refine ⟨?_, ?_, ?_, ?_, ?_, ?_, ?_, ?_⟩
  · rw [starts, schemes]
    exact start
  · rw [schemes, authorities]
    exact scheme
  · rw [authorities, signs]
    exact le_min credentials (authority.trans stop)
  · rw [signs, paths]
    exact min_le_min_right _ host
  · rw [paths, queries]
    exact min_le_min_right _ pegged.path
  · rw [queries, fragments]
    exact min_le_min_right _ pegged.query
  · rw [fragments, stops]
    exact Nat.min_le_right _ _
  · rw [stops]
    exact Nat.sub_le _ _

theorem blank_markers (blank : byteAt url (skip isSpace url 0) = 0) (joining : Bool) :
    getStringMarkers url joining = { startMarkers url with
      query := skip isSpace url 0, fragment := skip isSpace url 0, stop := skip isSpace url 0 } := by
  simp only [getStringMarkers, if_pos blank]
  rfl

theorem getStringMarkers_ordered (ends : 0 ∉ url) (joining : Bool) : Ordered url (getStringMarkers url joining) := by
  by_cases blank : byteAt url (skip isSpace url 0) = 0
  · rw [blank_markers blank]
    exact ⟨le_rfl, le_rfl, le_rfl, le_rfl, le_rfl, le_rfl, le_rfl, skip_le isSpace (Nat.zero_le _)⟩
  · obtain ⟨m, markers, pegged⟩ := getStringMarkers_pegged ends joining blank
    rw [markers]
    exact pegged.ordered

/-! ### A lone sign -/

/-- Nothing but a scheme without an authority in front of an `@`. -/
def LoneSign (url : List UInt8) (joining : Bool) : Prop :=
  byteAt url (behindScheme url) = ch '@' ∧ schemeOf url ≠ some .mailto ∧
    (joining = false → schemeOf url ≠ some .http ∧ schemeOf url ≠ some .https)

theorem behindScheme_blank (blank : byteAt url (skip isSpace url 0) = 0) : behindScheme url = skip isSpace url 0 := by
  refine if_neg fun both => ?_
  rw [blank] at both
  exact absurd both.1 (by decide)

theorem Schemed.lone (schemed : Schemed url joining (pos, m, isHttp)) :
    ¬Reads url pos m isHttp joining ∧ byteAt url m.authority = ch '@' ↔ LoneSign url joining := by
  have slash : ch '@' ≠ ch '/' := by decide
  have zero : ch '@' ≠ 0 := by decide
  cases schemed with
  | named schemeType colon type behind after =>
    have named : colon ≠ (startMarkers url).start := after.ne'
    rw [LoneSign, type, behind]
    constructor
    · rintro ⟨reads, sign⟩
      have sign' : byteAt url (colon + 1) = ch '@' := sign
      simp only [Reads, sign', slash, zero, Markers.authorityAt, false_and, and_false, false_or, or_false, not_or,
        not_and] at reads
      refine ⟨sign', fun mail => reads.2 (Option.some.inj mail), fun creating => ⟨?_, ?_⟩⟩
      · intro http
        exact reads.1 (by simp [Option.some.inj http]) creating named
      · intro https
        exact reads.1 (by simp [Option.some.inj https]) creating named
    · rintro ⟨sign, mail, others⟩
      refine ⟨?_, sign⟩
      simp only [Reads, sign, slash, zero, Markers.authorityAt, false_and, and_false, false_or, or_false, not_or,
        not_and]
      refine ⟨fun http creating => ?_, fun same => mail (congrArg some same)⟩
      have both := others creating
      rw [Bool.or_eq_true, decide_eq_true_eq, decide_eq_true_eq] at http
      exact absurd http (not_or.mpr ⟨fun same => both.1 (congrArg some same), fun same => both.2 (congrArg some same)⟩)
  | letters type behind alpha =>
    have other : byteAt url (startMarkers url).start ≠ ch '@' := by
      intro same
      rw [same] at alpha
      exact absurd alpha (by decide)
    rw [LoneSign, behind]
    exact ⟨fun both => absurd both.2 other, fun lone => absurd lone.1 other⟩
  | other type behind alpha =>
    rw [LoneSign, type, behind]
    constructor
    · rintro ⟨-, sign⟩
      exact ⟨sign, by simp, fun _ => by simp⟩
    · rintro ⟨sign, -, -⟩
      refine ⟨?_, sign⟩
      rintro ((⟨both, -⟩ | ⟨http, -⟩ | mail) | ⟨-, -, http⟩)
      · exact slash (sign.symm.trans both)
      · exact Bool.noConfusion http
      · exact SchemeType.noConfusion mail
      · exact Bool.noConfusion http

theorem lone_iff (ends : 0 ∉ url) (joining : Bool) :
    (getStringMarkers url joining).path = (getStringMarkers url joining).authority ∧
      byteAt url (getStringMarkers url joining).authority = ch '@' ↔ LoneSign url joining := by
  by_cases blank : byteAt url (skip isSpace url 0) = 0
  · rw [blank_markers blank, LoneSign, behindScheme_blank blank, blank]
    have none : byteAt url (startMarkers url).authority ≠ ch '@' := by
      have same : byteAt url (startMarkers url).authority = 0 := blank
      rw [same]
      decide
    exact ⟨fun both => absurd both.2 none, fun both => absurd both.1 (by decide)⟩
  · obtain ⟨m, markers, pegged⟩ := getStringMarkers_pegged ends joining blank
    obtain ⟨-, -, authority, -, path, -⟩ :=
      trimTrailing_min pegged.scanned.host pegged.path pegged.query pegged.fragment
    obtain ⟨pos, m', isHttp, schemed, -, -, shape⟩ := pegged.shape
    rw [markers, authority, path, ← schemed.lone]
    have within : m.path ≤ url.length := pegged.path.trans (pegged.query.trans pegged.fragment)
    rcases shape with ⟨reads, delimited, -⟩ | ⟨reads, authority, path, -, -⟩
    · refine ⟨?_, fun both => absurd reads both.1⟩
      rintro ⟨same, sign⟩
      rw [← same] at sign
      obtain ⟨kept, -⟩ := min_trimmedEnd within (by rw [sign]; decide) (by rw [sign]; decide)
      rw [kept] at sign
      rcases delimited with stop | slash | mark | mark
      · rw [(byteAt_eq_zero ends within).mpr stop] at sign
        exact absurd sign (by decide)
      · exact absurd (slash.symm.trans sign) (by decide)
      · exact absurd (mark.symm.trans sign) (by decide)
      · exact absurd (mark.symm.trans sign) (by decide)
    · rw [path, authority, schemed.path_eq]
      constructor
      · exact fun both => ⟨reads, both.2⟩
      · rintro ⟨-, sign⟩
        have inside : m'.authority < url.length := byteAt_lt (by rw [sign]; decide)
        exact ⟨min_eq_left ((Nat.le_succ _).trans (trimmedEnd_gt inside (by rw [sign]; decide))), sign⟩

theorem Schemed.authority (schemed : Schemed url joining (pos, m, isHttp)) : m.authority = behindScheme url := by
  cases schemed with
  | named schemeType colon type behind after => exact behind.symm
  | letters type behind alpha => exact behind.symm
  | other type behind alpha => exact behind.symm

theorem lone_bounds (ends : 0 ∉ url) (lone : LoneSign url joining) :
    Section.host.bounds url (getStringMarkers url joining) = (behindScheme url + 1, behindScheme url) := by
  obtain ⟨same, sign⟩ := (lone_iff ends joining).mpr lone
  have ordered := getStringMarkers_ordered ends joining
  have both : (getStringMarkers url joining).atSign = (getStringMarkers url joining).authority :=
    Nat.le_antisymm (ordered.host.trans same.le) ordered.credentials
  have behind : (getStringMarkers url joining).authority = behindScheme url := by
    have more : byteAt url (skip isSpace url 0) ≠ 0 := by
      intro blank
      have zero := lone.1
      rw [behindScheme_blank blank, blank] at zero
      exact absurd zero (by decide)
    obtain ⟨m, markers, pegged⟩ := getStringMarkers_pegged ends joining more
    obtain ⟨-, -, authority, -⟩ := trimTrailing_min pegged.scanned.host pegged.path pegged.query pegged.fragment
    obtain ⟨pos, m', isHttp, schemed, -, -, shape⟩ := pegged.shape
    rcases shape with ⟨reads, -⟩ | ⟨-, kept, -⟩
    · exact absurd reads (schemed.lone.mpr lone).1
    · rw [markers, authority, kept, schemed.authority]
  rw [Section.bounds, both, sign, if_neg fun all => all.2 rfl, same, behind]

/-! ### The other sections -/

/-- Where a section starts behind a sign that introduces it, the sign is in front of its end, but for a lone sign. -/
theorem bounds_le_iff (ends : 0 ∉ url) (joining : Bool) (sec : Section) :
    (sec.bounds url (getStringMarkers url joining)).1 ≤ (sec.bounds url (getStringMarkers url joining)).2 ↔
      ¬(sec = .host ∧ LoneSign url joining) := by
  have ordered := getStringMarkers_ordered ends joining
  have marks : ((getStringMarkers url joining).atSign = (getStringMarkers url joining).authority ∨
        (getStringMarkers url joining).atSign < (getStringMarkers url joining).path) ∧
      (byteAt url (getStringMarkers url joining).query = ch '?' →
        (getStringMarkers url joining).query < (getStringMarkers url joining).fragment) ∧
      (byteAt url (getStringMarkers url joining).fragment = ch '#' →
        (getStringMarkers url joining).fragment < (getStringMarkers url joining).stop) := by
    by_cases blank : byteAt url (skip isSpace url 0) = 0
    · have nothing : byteAt url (startMarkers url).start = 0 := blank
      rw [blank_markers blank]
      refine ⟨.inl rfl, fun mark => ?_, fun mark => ?_⟩
      · exact absurd (nothing.symm.trans mark) (by decide)
      · exact absurd (nothing.symm.trans mark) (by decide)
    · obtain ⟨m, markers, pegged⟩ := getStringMarkers_pegged ends joining blank
      obtain ⟨-, -, authority, sign, path, query, fragment, stop⟩ :=
        trimTrailing_min pegged.scanned.host pegged.path pegged.query pegged.fragment
      rw [markers, authority, sign, path, query, fragment, stop]
      refine ⟨?_, fun mark => ?_, fun mark => ?_⟩
      · rcases pegged.scanned.sign with same | ⟨before, isSign⟩
        · obtain ⟨i, inside, limit, solid⟩ := pegged.scanned.solid
          rw [same]
          exact .inl (min_eq_left (limit.trans (trimmedEnd_gt inside solid)))
        · have inside : m.atSign < url.length := byteAt_lt (by rw [isSign]; decide)
          have stop := trimmedEnd_gt inside (by rw [isSign]; decide)
          rw [min_eq_left ((Nat.le_succ _).trans stop)]
          exact .inr (lt_min before stop)
      · obtain ⟨kept, stop⟩ := min_trimmedEnd (pegged.query.trans pegged.fragment) (by rw [mark]; decide)
          (by rw [mark]; decide)
        rw [kept] at mark ⊢
        exact lt_min (pegged.question mark) stop
      · obtain ⟨kept, stop⟩ := min_trimmedEnd pegged.fragment (by rw [mark]; decide) (by rw [mark]; decide)
        rw [kept]
        exact stop
  have lone := lone_iff ends joining
  obtain ⟨sign, question, hash⟩ := marks
  cases sec with
  | scheme => simpa [Section.bounds] using ordered.start
  | credentials => simpa [Section.bounds] using ordered.credentials
  | host =>
    simp only [Section.bounds, ← lone, true_and]
    by_cases same : (getStringMarkers url joining).atSign = (getStringMarkers url joining).authority
    · rw [same]
      by_cases isSign : byteAt url (getStringMarkers url joining).authority = ch '@'
      · simp only [isSign, ne_eq, not_true_eq_false, and_false, if_false, and_true]
        have after := ordered.credentials.trans ordered.host
        omega
      · simp only [isSign, ne_eq, not_false_eq_true, and_self, if_true, and_false, not_false_eq_true, iff_true]
        exact ordered.credentials.trans ordered.host
    · have before := sign.resolve_left same
      have credentials := ordered.credentials
      simp only [same, false_and, if_false]
      omega
  | path => simpa [Section.bounds] using ordered.path
  | query =>
    simp only [Section.bounds, reduceCtorEq, false_and, not_false_eq_true, iff_true]
    split_ifs with mark
    · exact ordered.query
    · exact question (not_not.mp mark)
  | fragment =>
    simp only [Section.bounds, reduceCtorEq, false_and, not_false_eq_true, iff_true]
    split_ifs with mark
    · exact ordered.fragment
    · exact hash (not_not.mp mark)

/-! ### A path to merge -/

/-- A string with neither a scheme nor an authority whose path does not start with a slash and is not empty. -/
def RelativePath (url : List UInt8) : Prop :=
  schemeOf url = none ∧ byteAt url (skip isSpace url 0) ∉ ([0, ch '/', ch '?', ch '#'] : List UInt8) ∧
    ¬(isAlpha (byteAt url (skip isSpace url 0)) = true ∧
      byteAt url (skip isSchemeChar url (skip isSpace url 0 + 1)) = ch '/' ∧
      byteAt url (skip isSchemeChar url (skip isSpace url 0 + 1) + 1) = ch '/')

instance (url : List UInt8) : Decidable (RelativePath url) := by
  unfold RelativePath
  infer_instance

theorem Schemed.relative (schemed : Schemed url true (pos, m, isHttp)) :
    ¬Reads url pos m isHttp true ∧ m.schemeEnd = m.start ∧
      byteAt url m.path ∉ ([0, ch '/', ch '?', ch '#'] : List UInt8) ↔ RelativePath url := by
  cases schemed with
  | named schemeType colon type behind after =>
    have some : ¬RelativePath url := by
      intro relative
      have none := relative.1
      rw [type] at none
      exact Option.some_ne_none _ none
    have named : colon ≠ (startMarkers url).start := after.ne'
    exact ⟨fun all => absurd all.2.1 named, fun relative => absurd relative some⟩
  | letters type behind alpha =>
    have letter : byteAt url (skip isSpace url 0) ∉ ([0, ch '/', ch '?', ch '#'] : List UInt8) := by
      have alpha' : isAlpha (byteAt url (skip isSpace url 0)) = true := alpha
      intro member
      simp only [mem_cons, not_mem_nil, or_false] at member
      rcases member with same | same | same | same <;> rw [same] at alpha' <;> exact absurd alpha' (by decide)
    constructor
    · rintro ⟨reads, -, -⟩
      exact ⟨type, letter, fun slashes => reads (.inl (.inl slashes.2))⟩
    · rintro ⟨-, -, slashes⟩
      refine ⟨?_, rfl, letter⟩
      rintro ((both | ⟨http, -⟩ | mail) | ⟨-, -, http⟩)
      · exact slashes ⟨alpha, both⟩
      · exact Bool.noConfusion http
      · exact SchemeType.noConfusion mail
      · exact Bool.noConfusion http
  | other type behind alpha =>
    have noLetter : ¬isAlpha (byteAt url (skip isSpace url 0)) = true := Bool.eq_false_iff.mp alpha
    constructor
    · rintro ⟨-, -, other⟩
      exact ⟨type, other, fun slashes => noLetter slashes.1⟩
    · rintro ⟨-, other, -⟩
      refine ⟨?_, rfl, other⟩
      rintro ((⟨slash, -⟩ | ⟨http, -⟩ | mail) | ⟨-, -, http⟩)
      · exact other (mem_cons_of_mem _ (slash ▸ mem_cons_self))
      · exact Bool.noConfusion http
      · exact SchemeType.noConfusion mail
      · exact Bool.noConfusion http

theorem Schemed.start (schemed : Schemed url joining (pos, m, isHttp)) (none : m.schemeEnd = m.start) :
    m.path = skip isSpace url 0 ∧ (pos = m.path ∨ (m.path < pos ∧ isAlpha (byteAt url m.path) = true)) := by
  cases schemed with
  | named schemeType colon type behind after => exact absurd none after.ne'
  | letters type behind alpha => exact ⟨rfl, .inr ⟨le_skip _ _ _, alpha⟩⟩
  | other type behind alpha => exact ⟨rfl, .inl rfl⟩

/-- Where a path is merged with the path of the base. -/
theorem mergedPath_iff (ends : 0 ∉ url) :
    (joinedParts url (getStringMarkers url true)).mergedPath = true ↔ RelativePath url := by
  have merged : (joinedParts url (getStringMarkers url true)).mergedPath = true ↔
      (getStringMarkers url true).schemeEnd - (getStringMarkers url true).start = 0 ∧
      (getStringMarkers url true).path - (getStringMarkers url true).authority = 0 ∧
      (getStringMarkers url true).query - (getStringMarkers url true).path ≠ 0 ∧
      byteAt url (getStringMarkers url true).path ≠ ch '/' := by
    simp only [joinedParts, Bool.and_eq_true, decide_eq_true_eq, and_assoc]
  have ordered := getStringMarkers_ordered ends true
  rw [merged]
  by_cases blank : byteAt url (skip isSpace url 0) = 0
  · rw [blank_markers blank]
    constructor
    · rintro ⟨-, -, some, -⟩
      exact absurd (Nat.sub_self _) some
    · rintro ⟨-, other, -⟩
      rw [blank] at other
      exact absurd mem_cons_self other
  · obtain ⟨m, markers, pegged⟩ := getStringMarkers_pegged ends true blank
    obtain ⟨start, scheme, authority, -, path, query, -⟩ :=
      trimTrailing_min pegged.scanned.host pegged.path pegged.query pegged.fragment
    obtain ⟨pos, m', isHttp, schemed, sameScheme, sameStart, shape⟩ := pegged.shape
    have within : m.path ≤ url.length := pegged.path.trans (pegged.query.trans pegged.fragment)
    rw [markers] at ordered ⊢
    rw [start, scheme, authority, path, query, ← schemed.relative]
    rcases shape with ⟨reads, -, other⟩ | ⟨reads, sameAuthority, samePath, stops, follows⟩
    · refine ⟨?_, fun all => absurd reads all.1⟩
      rintro ⟨-, -, some, slash⟩
      rcases le_or_gt m.path (trimmedEnd url) with before | behind
      · rw [min_eq_left before] at some slash
        rw [other slash, min_eq_left before, Nat.sub_self] at some
        exact absurd rfl some
      · rw [min_eq_right behind.le, min_eq_right (behind.le.trans pegged.path), Nat.sub_self] at some
        exact absurd rfl some
    · obtain ⟨i, inside, limit, solid⟩ := pegged.scanned.solid
      have before : m.path ≤ trimmedEnd url := by
        rw [samePath, schemed.path_eq, ← sameAuthority]
        exact limit.trans (trimmedEnd_gt inside solid)
      have away : m.path - m.authority = 0 := by
        rw [samePath, sameAuthority, schemed.path_eq, Nat.sub_self]
      rw [min_eq_left before, away, sameScheme, sameStart, ← samePath]
      constructor
      · rintro ⟨none, -, some, slash⟩
        have none' : m'.schemeEnd = m'.start := by
          have order := pegged.scanned.start
          rw [sameScheme, sameStart] at order
          omega
        refine ⟨reads, none', fun member => ?_⟩
        simp only [mem_cons, not_mem_nil, or_false] at member
        obtain ⟨-, here | ⟨-, alpha⟩⟩ := schemed.start none'
        · have query : m.query = pos := by
            refine stops ?_
            rw [here, ← samePath]
            rcases member with zero | same | mark | mark
            · exact .inr (.inr zero)
            · exact absurd same slash
            · exact .inl mark
            · exact .inr (.inl mark)
          rw [query, here, ← samePath, min_eq_left before, Nat.sub_self] at some
          exact some rfl
        · rw [← samePath] at alpha
          rcases member with same | same | same | same <;> rw [same] at alpha <;> exact absurd alpha (by decide)
      · rintro ⟨-, none, other⟩
        obtain ⟨start, here⟩ := schemed.start none
        have solid' : isSpace (byteAt url m.path) = false := by
          rw [samePath, start]
          exact (skip_stop isSpace (Nat.zero_le _)).resolve_left (byteAt_lt blank).ne
        have stop := trimmedEnd_gt (byteAt_lt fun zero => other (zero ▸ mem_cons_self)) solid'
        have further : m.path < m.query := by
          rcases here with here | ⟨here, -⟩
          · rw [samePath, ← here]
            refine follows (.inr ?_)
            rw [here, ← samePath]
            simp only [mem_cons, not_mem_nil, or_false, not_or] at other
            obtain ⟨zero, -, question, hash⟩ := other
            exact ⟨question, hash, zero⟩
          · rw [samePath]
            by_cases stays : byteAt url pos = ch '?' ∨ byteAt url pos = ch '#' ∨ byteAt url pos = 0
            · rwa [stops stays]
            · exact here.trans (follows (.inr (by simpa only [not_or, ← ne_eq] using stays)))
        have ahead := lt_min further stop
        refine ⟨by omega, rfl, by omega, fun slash => other ?_⟩
        exact mem_cons_of_mem _ (slash ▸ mem_cons_self)

end Besra.NsurlMarkers
