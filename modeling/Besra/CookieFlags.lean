import Besra.Urldb

/-!
The Secure and HttpOnly flags of cookies. `urldb_get_cookie` means to withhold a Secure cookie from a request that is
not https, but takes the value of the macro `lwc_string_isequal`, which is that of an error code, for the answer; and
only one of its four loops looks at HttpOnly.
-/
namespace Besra.CookieFlags
open Lwc NsurlParse SetCookie UrldbTree Urldb

/-- What the flags of a cookie ask for, of a request for a URL. -/
structure Respected (url : Nsurl) (includeHttpOnly : Bool) (c : Cookie) : Prop where
  secure : c.secure = true → url.components.scheme = some (lit "https")
  httpOnly : c.httpOnly = true → includeHttpOnly = true

/-- The cookies that are looked at for a node, without the expired ones and those whose path does not match. -/
def applicableAt (now : Int) (hosts : Hosts) (path : List UInt8) (place : Place) : List Visit :=
  (visited hosts place).filter (fun v =>
    !expired now v.cookie && (v.source = .exact || v.source = .directory || pathMatches path v.cookie))

/-- The cookies that apply to a request for a URL, whatever their flags are. -/
def applicable (now : Int) (db : Db) (url : Nsurl) : List Visit :=
  let db := (addUrl db url).2
  (findUrl db url).join.elim [] (fun place =>
    url.components.path.elim [] (fun path => applicableAt now db.hosts (cString path) place))

/-- Nothing has to be withheld but HttpOnly cookies of the exact path. -/
structure Harmless (now : Int) (db : Db) (url : Nsurl) (includeHttpOnly : Bool) : Prop where
  secure : url.components.scheme = some (lit "https") ∨ ∀ v ∈ applicable now db url,
    v.cookie.secure = true → v.source = .exact ∧ v.cookie.httpOnly = true ∧ includeHttpOnly = false
  httpOnly : includeHttpOnly = true ∨ ∀ v ∈ applicable now db url, v.cookie.httpOnly = true → v.source = .exact

theorem secureWithheld_eq_false (scheme : LwcString) (c : Cookie) : secureWithheld scheme c = false := by
  simp [secureWithheld, lwcStringIsequal]

theorem sends_iff {now : Int} {path : List UInt8} {includeHttpOnly : Bool} {v : Visit} :
    sends now path includeHttpOnly v = true ↔
      (expired now v.cookie = false ∧ (v.source = .exact ∨ v.source = .directory ∨ pathMatches path v.cookie = true)) ∧
        (v.source = .exact → v.cookie.httpOnly = true → includeHttpOnly = true) := by
  rw [sends, secureWithheld_eq_false]
  rcases source : v.source <;> cases includeHttpOnly <;> simp

theorem mem_matched {now : Int} {db : Db} {url : Nsurl} {includeHttpOnly : Bool} {answer : Answer}
    (asked : getCookie now db url includeHttpOnly = some answer) {c : Cookie} :
    c ∈ answer.matched ↔ ∃ v ∈ applicable now db url, v.cookie = c ∧
      (v.source = .exact → v.cookie.httpOnly = true → includeHttpOnly = true) := by
  rw [getCookie] at asked
  obtain ⟨found, place, rfl⟩ := Option.map_eq_some_iff.mp asked
  rw [applicable, place]
  rcases found with _ | found
  · simp
  · rcases url.components.path with _ | path
    · simp
    · simp only [answerAt, applicableAt, Option.join_some, Option.elim, List.mem_map, List.mem_filter, sends_iff,
        Bool.and_eq_true, Bool.or_eq_true, Bool.not_eq_true', decide_eq_true_eq, or_assoc]
      constructor
      · rintro ⟨v, ⟨looked, passes, allowed⟩, same⟩
        exact ⟨v, ⟨looked, passes⟩, same, allowed⟩
      · rintro ⟨v, ⟨looked, passes⟩, same, allowed⟩
        exact ⟨v, ⟨looked, passes, allowed⟩, same⟩

/-- After every history, a request is answered with the flags respected exactly when nothing among the cookies
    that apply to it had to be withheld, HttpOnly cookies of the exact path apart. -/
theorem flags_respected_iff (env : Env) (history : List Call) :
    ∀ db, run env history = some db → ∀ now url includeHttpOnly answer,
      getCookie now db url includeHttpOnly = some answer →
        ((∀ c ∈ answer.matched, Respected url includeHttpOnly c) ↔ Harmless now db url includeHttpOnly) := by
  intro db _ now url includeHttpOnly answer asked
  constructor
  · intro respected
    constructor
    · by_cases https : url.components.scheme = some (lit "https")
      · exact .inl https
      right
      intro v applies secure
      by_contra sent
      refine https ((respected v.cookie ((mem_matched asked).mpr ⟨v, applies, rfl, ?_⟩)).secure secure)
      intro exact httpOnly
      by_contra withheld
      exact sent ⟨exact, httpOnly, Bool.eq_false_iff.mpr withheld⟩
    · by_cases included : includeHttpOnly = true
      · exact .inl included
      right
      intro v applies httpOnly
      by_contra elsewhere
      refine included ((respected v.cookie ((mem_matched asked).mpr ⟨v, applies, rfl, ?_⟩)).httpOnly httpOnly)
      intro exact
      exact absurd exact elsewhere
  · intro harmless c sent
    obtain ⟨v, applies, rfl, allowed⟩ := (mem_matched asked).mp sent
    constructor
    · intro secure
      rcases harmless.secure with https | withheld
      · exact https
      · obtain ⟨exact, httpOnly, excluded⟩ := withheld v applies secure
        rw [allowed exact httpOnly] at excluded
        cases excluded
    · intro httpOnly
      rcases harmless.httpOnly with included | exact
      · exact included
      · exact allowed (exact v applies httpOnly) httpOnly

/-- One cookie with both flags, set over https for one path. -/
def flaggedHistory (header : String) : List Call :=
  [⟨0, .setCookie (lit header) (urlOf (lit "https://www.example.org/a/b")) none⟩]

/-- The HttpOnly cookie of the exact path is withheld, and the request is https. -/
theorem flags_respected_at_exact_path :
    ∃ db answer, run plainEnv (flaggedHistory "n=v; Path=/a/b; Secure; HttpOnly\x0d\x0a") = some db ∧
      getCookie 0 db (urlOf (lit "https://www.example.org/a/b")) false = some answer ∧
      ∀ c ∈ answer.matched, Respected (urlOf (lit "https://www.example.org/a/b")) false c := by
  have returns : ((run plainEnv (flaggedHistory "n=v; Path=/a/b; Secure; HttpOnly\x0d\x0a")).bind (fun db =>
      (getCookie 0 db (urlOf (lit "https://www.example.org/a/b")) false).map (fun _ =>
        (applicable 0 db (urlOf (lit "https://www.example.org/a/b"))).all (fun v =>
          !v.cookie.httpOnly || v.source = .exact)))) = some true := by
    decide +kernel
  obtain ⟨db, ran, returns⟩ := Option.bind_eq_some_iff.mp returns
  obtain ⟨answer, asked, exact⟩ := Option.map_eq_some_iff.mp returns
  refine ⟨db, answer, ran, asked, (flags_respected_iff plainEnv _ db ran 0 _ false answer asked).mpr ⟨?_, ?_⟩⟩
  · left
    decide +kernel
  · right
    intro v applies httpOnly
    have here := List.all_eq_true.mp exact v applies
    simpa [httpOnly] using here

/-- A Secure and HttpOnly domain cookie, set over https, goes out with an http request that asks for no HttpOnly
    cookies. -/
theorem secure_cookie_sent_over_http :
    (urlOf (lit "http://www.example.org/a/b")).components.scheme = some (lit "http") ∧
      ((run plainEnv (flaggedHistory "n=v; Domain=.example.org; Path=/; Secure; HttpOnly\x0d\x0a")).bind (fun db =>
        getCookie 0 db (urlOf (lit "http://www.example.org/a/b")) false)).any (fun answer =>
          answer.header = some (lit "n=v") && answer.matched.any (fun c => c.secure && c.httpOnly)) = true := by
  decide +kernel

end Besra.CookieFlags
