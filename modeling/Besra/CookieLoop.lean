import Besra.Urldb

/-!
Whether the loop of `urldb_set_cookie` ends. It goes on as long as more than two bytes
are left, which is meant to be the CRLF at the end of the header; but a CRLF is also
where `urldb_parse_cookie` stops without stepping over it.
-/
namespace Besra.CookieLoop
open Lwc NsurlParse CText SetCookie Urldb List

def crlf : List UInt8 := [0x0d, 0x0a]

def bareCookie (url : Components) : Option Cookie := do
  let domain ← url.host.map cString
  let path ← url.path.map (fun path => directory (cString path))
  return { name := [], value := [], valueWasQuoted := false, comment := none, domainFromSet := false, domain,
           pathFromSet := false, path, expires := -1, lastUsed := 0, secure := false, httpOnly := false, version := 0,
           noDestroy := false }

section Loop
variable (env : Env) (now : Int) (url : Nsurl) (path host : LwcString)

def Continues (cur cur' : List UInt8) : Prop :=
  ∃ c, parseCookie env now url.components cur = some (c, cur') ∧ cookieAllowed env path host c = true ∧
    2 < cur'.length

/-- The read positions with which iterations begin. -/
inductive Reached (header : List UInt8) : List UInt8 → Prop
  | start : Reached header header
  | next {cur cur' : List UInt8} : Reached header cur → Continues env now url path host cur cur' → Reached header cur'

/-- At a CRLF that is not the end of the header, and a cookie parsed from nothing is accepted. -/
def Stuck (cur : List UInt8) : Prop :=
  crlf <+: cur ∧ 2 < cur.length ∧ (bareCookie url.components).any (cookieAllowed env path host) = true

def Before (header cur : List UInt8) : Prop :=
  cur <:+ header ∧ ∀ front later, header = front ++ crlf ++ later → later.length + 2 ≤ cur.length

/-- The loop ends, every iteration before the last one moves forward, and no cookie is parsed from behind a CRLF. -/
structure Ends (scheme : LwcString) (hosts : UrldbTree.Hosts) (header : List UInt8) : Prop where
  returns : ∃ result, setCookieLoop env now url scheme path host (header.length + 1) hosts header = some result
  forward : ∀ cur cur', Reached env now url path host header cur → Continues env now url path host cur cur' →
    cur'.length < cur.length
  within : ∀ cur c cur', Reached env now url path host header cur →
    parseCookie env now url.components cur = some (c, cur') → Before header cur'

end Loop

section Scan
variable {env : Env} {now : Int}

theorem scanByte_stop {s s' : Scan} {before : Option UInt8} {c : UInt8} {rest cur : List UInt8}
    (stopped : scanByte env now s before c rest = .stop s' cur) : cur = rest ∨ (cur = c :: rest ∧ crlf <+: cur) := by
  have handled : ∀ {s : Scan}, handle s c rest = .stop s' cur → cur = rest := by
    intro s stopped
    unfold handle at stopped
    split_ifs at stopped
    cases stopped
    rfl
  by_cases line : c = 0x0d ∧ rest.head? = some 0x0a
  · rw [scanByte, if_pos line] at stopped
    cases stopped
    obtain ⟨rfl, first⟩ := line
    obtain ⟨tail, rfl⟩ := List.head?_eq_some_iff.mp first
    exact .inr ⟨rfl, ⟨tail, rfl⟩⟩
  · left
    rw [scanByte, if_neg line] at stopped
    split at stopped
    · cases stopped
    split at stopped
    · cases stopped
    dsimp only at stopped
    split at stopped
    all_goals
      split at stopped
      · cases stopped
      split at stopped
      · cases stopped
      split at stopped
      · split at stopped
        · cases stopped
        · exact handled stopped
      · exact handled stopped

theorem scanByte_crlf (s : Scan) (before : Option UInt8) (later : List UInt8) :
    scanByte env now s before 0x0d (0x0a :: later) =
      .stop { s with value := if s.quoted then [] else s.value } (0x0d :: 0x0a :: later) := by
  rw [scanByte, if_pos ⟨rfl, rfl⟩]

theorem scan_suffix (s : Scan) (before : Option UInt8) (text : List UInt8) : (scan env now s before text).2 <:+ text := by
  induction text generalizing s before with
  | nil => exact suffix_refl []
  | cons c rest ih =>
    rw [scan]
    rcases step : scanByte env now s before c rest with s' | ⟨s', cur⟩
    · exact (ih s' (some c)).trans (suffix_cons c rest)
    · rcases scanByte_stop step with rfl | ⟨rfl, -⟩
      · exact suffix_cons c _
      · exact suffix_refl _

theorem scan_forward {text : List UInt8} (more : text ≠ []) (other : ¬crlf <+: text) (s : Scan)
    (before : Option UInt8) : (scan env now s before text).2.length < text.length := by
  rcases text with _ | ⟨c, rest⟩
  · exact absurd rfl more
  · rw [scan]
    rcases step : scanByte env now s before c rest with s' | ⟨s', cur⟩
    · exact Nat.lt_succ_of_le (scan_suffix s' (some c) rest).length_le
    · rcases scanByte_stop step with rfl | ⟨rfl, at'⟩
      · exact Nat.lt_succ_self _
      · exact absurd at' other

theorem scan_at_crlf (s : Scan) (before : Option UInt8) (later : List UInt8) :
    scan env now s before (crlf ++ later) = ({ s with value := if s.quoted then [] else s.value }, crlf ++ later) := by
  change scan env now s before (0x0d :: 0x0a :: later) = _
  rw [scan, scanByte_crlf]
  rfl

theorem scan_crlf (s : Scan) (before : Option UInt8) (front later : List UInt8) :
    later.length + 2 ≤ (scan env now s before (front ++ crlf ++ later)).2.length := by
  induction front generalizing s before with
  | nil =>
    rw [nil_append, scan_at_crlf, length_append]
    exact (Nat.add_comm _ _).le
  | cons c front ih =>
    have length : later.length + 2 ≤ (front ++ crlf ++ later).length := by
      simp only [length_append, crlf, length_cons, length_nil]
      omega
    rw [cons_append, cons_append, scan]
    rcases step : scanByte env now s before c (front ++ crlf ++ later) with s' | ⟨s', cur⟩
    · exact ih s' (some c)
    · rcases scanByte_stop step with rfl | ⟨rfl, -⟩
      · exact length
      · exact Nat.le_succ_of_le length

end Scan

section Iterations
variable {env : Env} {now : Int} {url : Nsurl} {path host : LwcString}

variable {cur' cur : List UInt8} {c : Cookie}

theorem position_of_parse (parsed : parseCookie env now url.components cur = some (c, cur')) :
    cur' = (scan env now {} none cur).2 := by
  simp only [parseCookie, Option.bind_eq_bind, Option.bind_eq_some_iff] at parsed
  obtain ⟨domain, -, path, -, ⟨name, value, quoted⟩, -, same⟩ := parsed
  cases same
  rfl

theorem parse_at_crlf (later : List UInt8) : parseCookie env now url.components (crlf ++ later) =
    (bareCookie url.components).map (·, crlf ++ later) := by
  have pair : parseAvpair env now {} [] [] false = { pair := some ([], [], false) } := rfl
  rw [parseCookie, scan_at_crlf]
  simp only [ite_self, pair, bareCookie, Option.bind_eq_bind]
  rcases url.components.host.map cString with _ | domain
  · rfl
  · rcases url.components.path.map (fun path => directory (cString path)) with _ | path
    · rfl
    · rfl

theorem continues_of_stuck (stuck : Stuck env url path host cur) : Continues env now url path host cur cur := by
  obtain ⟨⟨later, rfl⟩, more, accepted⟩ := stuck
  rcases bare : bareCookie url.components with _ | c
  · rw [bare] at accepted
    cases accepted
  · rw [bare] at accepted
    exact ⟨c, by rw [parse_at_crlf, bare]; rfl, accepted, more⟩

theorem forward_or_stuck (continues : Continues env now url path host cur cur') :
    cur'.length < cur.length ∨ (cur' = cur ∧ Stuck env url path host cur) := by
  obtain ⟨c, parsed, accepted, more⟩ := continues
  by_cases at' : crlf <+: cur
  · obtain ⟨later, rfl⟩ := at'
    rw [parse_at_crlf] at parsed
    obtain ⟨bare, made, same⟩ := Option.map_eq_some_iff.mp parsed
    cases same
    refine .inr ⟨rfl, ⟨later, rfl⟩, more, ?_⟩
    rw [made]
    exact accepted
  · left
    have position := position_of_parse parsed
    have some : cur ≠ [] := by
      rintro rfl
      rw [position] at more
      exact absurd more (Nat.not_lt_zero 2)
    rw [position]
    exact scan_forward some at' {} none

theorem before_of_parse {header : List UInt8} (before : Before header cur)
    (parsed : parseCookie env now url.components cur = some (c, cur')) : Before header cur' := by
  obtain ⟨suffix, clear⟩ := before
  rw [position_of_parse parsed]
  refine ⟨(scan_suffix _ _ _).trans suffix, fun front later whole => ?_⟩
  have reach := clear front later whole
  have from' : crlf ++ later <:+ cur := by
    refine suffix_of_suffix_length_le ⟨front, ?_⟩ suffix ?_
    · rw [whole, append_assoc]
    · rw [length_append]
      exact (Nat.add_comm _ _).trans_le reach
  obtain ⟨front', rfl⟩ := from'
  rw [← append_assoc]
  exact scan_crlf {} none front' later

theorem before_of_reached {header : List UInt8} (reached : Reached env now url path host header cur) :
    Before header cur := by
  induction reached with
  | start =>
    refine ⟨suffix_refl _, ?_⟩
    rintro front later rfl
    simp only [length_append, crlf, length_cons, length_nil]
    omega
  | next _ continues ih =>
    obtain ⟨c, parsed, -⟩ := continues
    exact before_of_parse ih parsed

theorem setCookieLoop_cases (env : Env) (now : Int) (url : Nsurl) (path host scheme : LwcString)
    (hosts : UrldbTree.Hosts) (cur : List UInt8) :
    ((∀ fuel, ∃ result, setCookieLoop env now url scheme path host (fuel + 1) hosts cur = some result) ∧
      ∀ cur', ¬Continues env now url path host cur cur') ∨
      ∃ cur' hosts', Continues env now url path host cur cur' ∧
        ∀ fuel, setCookieLoop env now url scheme path host (fuel + 1) hosts cur =
          setCookieLoop env now url scheme path host fuel hosts' cur' := by
  rcases parsed : parseCookie env now url.components cur with _ | ⟨c, cur'⟩
  · refine .inl ⟨fun fuel => ⟨(false, hosts), by rw [setCookieLoop, parsed]⟩, ?_⟩
    rintro cur' ⟨c, other, -⟩
    rw [parsed] at other
    cases other
  · by_cases accepted : cookieAllowed env path host c = true
    · by_cases more : 2 < cur'.length
      · refine .inr ⟨cur', insertCookie now hosts c scheme (Nsurl.nsurlDefragment url), ⟨c, parsed, accepted, more⟩,
          fun fuel => ?_⟩
        rw [setCookieLoop, parsed]
        simp only
        rw [if_pos accepted, if_pos more]
      · refine .inl ⟨fun fuel => ⟨_, by rw [setCookieLoop, parsed]; simp only; rw [if_pos accepted, if_neg more]⟩, ?_⟩
        rintro cur₂ ⟨c₂, other, -, more₂⟩
        rw [parsed] at other
        cases other
        exact more more₂
    · refine .inl ⟨fun fuel => ⟨(false, hosts), by rw [setCookieLoop, parsed]; exact if_neg accepted⟩, ?_⟩
      rintro cur₂ ⟨c₂, other, accepted₂, -⟩
      rw [parsed] at other
      cases other
      exact accepted accepted₂

theorem Continues.unique {cur₁ cur₂ : List UInt8} (first : Continues env now url path host cur cur₁)
    (second : Continues env now url path host cur cur₂) : cur₁ = cur₂ := by
  obtain ⟨c₁, parsed₁, -⟩ := first
  obtain ⟨c₂, parsed₂, -⟩ := second
  rw [position_of_parse parsed₁, position_of_parse parsed₂]

theorem endless_at_stuck (stuck : Stuck env url path host cur) (scheme : LwcString) (fuel : ℕ)
    (hosts : UrldbTree.Hosts) : setCookieLoop env now url scheme path host fuel hosts cur = none := by
  induction fuel generalizing hosts with
  | zero => rfl
  | succ fuel ih =>
    rcases setCookieLoop_cases env now url path host scheme hosts cur with ⟨-, last⟩ | ⟨cur', hosts', continues, same⟩
    · exact absurd (continues_of_stuck stuck) (last cur)
    · rw [same, continues.unique (continues_of_stuck stuck)]
      exact ih hosts'

theorem endless_of_stuck {header : List UInt8} (reached : Reached env now url path host header cur)
    (stuck : Stuck env url path host cur) (scheme : LwcString) (fuel : ℕ) (hosts : UrldbTree.Hosts) :
    setCookieLoop env now url scheme path host fuel hosts header = none := by
  have endless : ∀ fuel hosts, setCookieLoop env now url scheme path host fuel hosts cur = none :=
    fun fuel hosts => endless_at_stuck stuck scheme fuel hosts
  clear stuck
  induction reached generalizing fuel hosts with
  | start => exact endless fuel hosts
  | @next cur cur' _ continues ih =>
    refine ih fuel hosts fun fuel hosts => ?_
    rcases fuel with _ | fuel
    · rfl
    · rcases setCookieLoop_cases env now url path host scheme hosts cur
        with ⟨-, last⟩ | ⟨cur₂, hosts', other, same⟩
      · exact absurd continues (last cur')
      · rw [same, other.unique continues]
        exact endless fuel hosts'

theorem returns_of_free {header : List UInt8}
    (free : ∀ cur, Reached env now url path host header cur → ¬Stuck env url path host cur) (scheme : LwcString)
    (reached : Reached env now url path host header cur) {fuel : ℕ} (enough : cur.length < fuel)
    (hosts : UrldbTree.Hosts) : ∃ result, setCookieLoop env now url scheme path host fuel hosts cur = some result := by
  induction fuel generalizing cur hosts with
  | zero => omega
  | succ fuel ih =>
    rcases setCookieLoop_cases env now url path host scheme hosts cur with
      ⟨last, -⟩ | ⟨cur', hosts', continues, same⟩
    · exact last fuel
    · rw [same]
      rcases forward_or_stuck continues with shorter | ⟨-, stuck⟩
      · exact ih (.next reached continues) (by omega) hosts'
      · exact absurd stuck (free cur reached)

end Iterations

/-- The loop of `urldb_set_cookie` ends, moves forward and parses nothing behind a CRLF, exactly where no iteration
begins at a CRLF with text behind it and with a cookie parsed from nothing that is accepted. -/
theorem setCookie_ends_iff (env : Env) (now : Int) (url : Nsurl) (scheme path host : LwcString)
    (hosts : UrldbTree.Hosts) (header : List UInt8) :
    Ends env now url path host scheme hosts header ↔
      ∀ cur, Reached env now url path host header cur → ¬Stuck env url path host cur := by
  constructor
  · intro ends cur reached stuck
    exact Nat.lt_irrefl _ (ends.forward cur cur reached (continues_of_stuck stuck))
  · intro free
    refine ⟨returns_of_free free scheme .start (Nat.lt_succ_self _) hosts, fun cur cur' reached continues => ?_,
      fun cur c cur' reached parsed => before_of_parse (before_of_reached reached) parsed⟩
    exact (forward_or_stuck continues).resolve_right fun both => free cur reached both.2

theorem two_lines_reached : Reached plainEnv 0 (urlOf (lit "http://example.org/")) (lit "/") (lit "example.org")
    (lit "n=v\x0d\x0am=w") (lit "\x0d\x0am=w") := by
  have first : (parseCookie plainEnv 0 (urlOf (lit "http://example.org/")).components (lit "n=v\x0d\x0am=w")).any
      (fun (c, cur) => cookieAllowed plainEnv (lit "/") (lit "example.org") c && cur = lit "\x0d\x0am=w") = true := by
    decide +kernel
  obtain ⟨⟨c, cur⟩, parsed, accepted⟩ := (Option.any_eq_true _ _).mp first
  rw [Bool.and_eq_true, decide_eq_true_eq] at accepted
  obtain ⟨accepted, rfl⟩ := accepted
  exact .next .start ⟨c, parsed, accepted, by decide⟩

/-- A header of two lines. -/
theorem two_lines_endless :
    ¬Ends plainEnv 0 (urlOf (lit "http://example.org/")) (lit "/") (lit "example.org") (lit "http") {}
      (lit "n=v\x0d\x0am=w") ∧
    (setCookie plainEnv 0 {} (lit "n=v\x0d\x0am=w") (urlOf (lit "http://example.org/")) none).isNone ∧
    ∀ fuel, setCookieLoop plainEnv 0 (urlOf (lit "http://example.org/")) (lit "http") (lit "/") (lit "example.org") fuel
      {} (lit "n=v\x0d\x0am=w") = none := by
  have stuck : Stuck plainEnv (urlOf (lit "http://example.org/")) (lit "/") (lit "example.org")
      (lit "\x0d\x0am=w") := ⟨⟨lit "m=w", rfl⟩, by decide, by decide +kernel⟩
  have endless := fun fuel => endless_of_stuck two_lines_reached stuck (lit "http") fuel {}
  refine ⟨fun ends => ?_, ?_, endless⟩
  · obtain ⟨result, returned⟩ := ends.returns
    rw [endless] at returned
    cases returned
  · have url : (urlOf (lit "http://example.org/")).components.scheme = some (lit "http") ∧
        (urlOf (lit "http://example.org/")).components.path = some (lit "/") ∧
        (urlOf (lit "http://example.org/")).components.host = some (lit "example.org") := by decide +kernel
    have text : cString (lit "n=v\x0d\x0am=w") = lit "n=v\x0d\x0am=w" := by decide
    rw [setCookie, url.1, url.2.1, url.2.2]
    simp only [Option.all_none, if_true, text]
    rw [endless]
    rfl

end Besra.CookieLoop
