import Besra.CacheControl

/-!
The remaining lifetime of a cached object, from the headers that it came with. The control data of `llcache.c` keep
ages in an `int` with -1 for none, and times in a `time_t` with 0 for none; what a header says is kept as it is in
`Values`.
-/
namespace Besra.Freshness
open Lwc NsurlParse CText StrictTransportSecurity DirectiveList MaxAge Option
  CacheControl

def IsInt (x : Int) : Prop := -2 ^ 31 ≤ x ∧ x < 2 ^ 31

def IsLong (x : Int) : Prop := -2 ^ 63 ≤ x ∧ x < 2 ^ 63

instance (x : Int) : Decidable (IsInt x) := inferInstanceAs (Decidable (_ ∧ _))

instance (x : Int) : Decidable (IsLong x) := inferInstanceAs (Decidable (_ ∧ _))

/-- The conversion to `int`. -/
def toInt (x : Int) : Int := x.bmod (2 ^ 32)

/-- The result of an operation on `int`, which must not overflow, and of one on `long`. -/
def int (x : Int) : Option Int := if IsInt x then some x else none
def long (x : Int) : Option Int := if IsLong x then some x else none

theorem isInt_toInt (x : Int) : IsInt (toInt x) := by
  have low := @Int.le_bmod x (2 ^ 32) (by decide)
  have high := @Int.bmod_lt x (2 ^ 32) (by decide)
  rw [IsInt, toInt]
  omega

variable {x y finished : Int} {n m : Nat} {value : List UInt8} {directives : List Directive}
  {headers : List (List UInt8 × List UInt8)}

theorem toInt_eq_iff : toInt x = x ↔ IsInt x := by
  constructor
  · intro same
    rw [← same]
    exact isInt_toInt x
  · rintro ⟨low, high⟩
    exact Int.bmod_eq_of_le (by simpa using low) (by simpa using high)

theorem int_eq_some : int x = some y ↔ IsInt x ∧ x = y := by
  rw [int]
  split <;> simp [*]

theorem long_eq_some : long x = some y ↔ IsLong x ∧ x = y := by
  rw [long]
  split <;> simp [*]

/-- `llcache_validate` -/
inductive Validate where
  | fresh | always | once
deriving DecidableEq

def invalidAge : Int := -1

/-- `llcache_cache_control`; the times are of type `time_t`, and the ages of type `int`. -/
structure Control where
  reqTime : Int
  resTime : Int
  date : Int := 0
  expires : Int := 0
  age : Int := invalidAge
  maxAge : Int := invalidAge
  noCache : Validate := .fresh
  etag : Option (List UInt8) := none
  lastModified : Int := 0
deriving DecidableEq

/-- `llcache_fetch_parse_cache_control` -/
def fetchParseCacheControl (cache : Control) (value : List UInt8) : Control :=
  match parseCacheControl value with
  | none => cache
  | some cc =>
    let cache := if cc.noCache ∨ cc.noStore then { cache with noCache := .always } else cache
    if cc.maxAgeValid then { cache with maxAge := toInt cc.maxAge.toNat } else cache

-- `nsc_strntimet`, which belongs to another library in most builds
variable (strntimet : List UInt8 → Option Int)

/-- `llcache_fetch_header_cache_control` -/
def fetchHeaderCacheControl (cache : Control) (name value : List UInt8) : Control :=
  match name.length with
  | 3 =>
    if strcasecmp name (lit "Age") = .eq then
      if ch '0' ≤ byteAt value 0 ∧ byteAt value 0 ≤ ch '9' then { cache with age := atoi value } else cache
    else cache
  | 4 =>
    if strcasecmp name (lit "Date") = .eq then { cache with date := (strntimet value).getD cache.date }
    else if strcasecmp name (lit "ETag") = .eq then { cache with etag := some value }
    else cache
  | 7 =>
    if strcasecmp name (lit "Expires") = .eq then { cache with expires := (strntimet value).getD 0x7fffffff }
    else cache
  | 13 =>
    if strcasecmp name (lit "Cache-Control") = .eq then fetchParseCacheControl cache value
    else if strcasecmp name (lit "Last-Modified") = .eq then
      { cache with lastModified := (strntimet value).getD cache.lastModified }
    else cache
  | _ => cache

/-- `llcache_object_cache_update` -/
def objectCacheUpdate (now : Int) (cache : Control) : Control :=
  if cache.date = 0 then { cache with date := now } else cache

/-- The control data of an object that was requested and answered at the given times, with the time when the last of
    its headers had come. -/
def control (headers : List (List UInt8 × List UInt8)) (reqTime resTime finished : Int) : Control :=
  objectCacheUpdate finished
    (headers.foldl (fun cache h => fetchHeaderCacheControl strntimet cache h.1 h.2) { reqTime, resTime })

structure Lifetime where
  date : Int
  receivedAge : Int
  currentAge : Int
  interval : Int
  freshness : Int
  remaining : Int
deriving DecidableEq

def Control.receivedAge (cd : Control) : Int :=
  max (toInt (max 0 (cd.resTime - cd.date))) (if cd.age = invalidAge then 0 else cd.age)

def Control.interval (now : Int) (cd : Control) : Option Int :=
  if cd.maxAge ≠ invalidAge then some cd.maxAge
  else if cd.expires ≠ 0 then long (cd.expires - cd.date)
  else if cd.lastModified ≠ 0 then (long (now - cd.lastModified)).map (Int.tdiv · 10)
  else some 0

/-- `llcache_object_rfc2616_remaining_lifetime`, with its variables; none where there is no value that they have. -/
def rfc2616RemainingLifetime (now : Int) (cd : Control) : Option Lifetime := do
  let apparentAge := toInt (max 0 (← long (cd.resTime - cd.date)))
  let receivedAge := max apparentAge (if cd.age = invalidAge then 0 else cd.age)
  let delay ← long (cd.resTime - cd.reqTime)
  let elapsed ← long ((← long (delay + now)) - cd.resTime)
  let currentAge := toInt (← long (receivedAge + elapsed))
  let interval ← cd.interval now
  let freshness := toInt interval
  let remaining ← (if cd.noCache = .fresh ∧ currentAge < freshness then int (freshness - currentAge) else some 0)
  return { date := cd.date, receivedAge, currentAge, interval, freshness, remaining }

/-- `llcache_object_is_fresh`, where the fetch of the object is complete or not. -/
def objectIsFresh (now : Int) (cache : Control) (complete : Bool) : Option Bool :=
  (rfc2616RemainingLifetime now cache).map fun l => cache.noCache = .fresh && (decide (0 < l.remaining) || !complete)

structure Values where
  age : Option Nat := none
  maxAge : Option Nat := none
  date : Option Int := none
  expires : Option Int := none
  lastModified : Option Int := none
  forbidden : Bool := false
deriving DecidableEq

def maxAgeOf (directives : List Directive) : Option Nat :=
  ((findItem directives (lit "max-age")).bind Directive.value).bind fun value =>
    if IsNumber value then some (decimalValue value) else none

def Values.cacheControl (v : Values) (value : List UInt8) : Values :=
  match readDirectives (ch ',') (cString value) with
  | none => v
  | some directives =>
    if checkDuplicates directives then
      { v with
        forbidden := v.forbidden || (findItem directives (lit "no-cache")).isSome ||
          (findItem directives (lit "no-store")).isSome
        maxAge := (maxAgeOf directives).or v.maxAge }
    else v

def Values.header (v : Values) (name value : List UInt8) : Values :=
  if insensitive name = lit "age" then
    { v with age := if isDigit (byteAt value 0) then some (decimalValue (value.takeWhile isDigit)) else v.age }
  else if insensitive name = lit "date" then { v with date := (strntimet value).or v.date }
  else if insensitive name = lit "expires" then { v with expires := (strntimet value).or v.expires }
  else if insensitive name = lit "cache-control" then v.cacheControl value
  else if insensitive name = lit "last-modified" then { v with lastModified := (strntimet value).or v.lastModified }
  else v

def values (headers : List (List UInt8 × List UInt8)) : Values :=
  headers.foldl (fun v h => v.header strntimet h.1 h.2) {}

/-- The dates that objects expire at are read. -/
def Parse (headers : List (List UInt8 × List UInt8)) : Prop :=
  ∀ h ∈ headers, insensitive h.1 = lit "expires" → (strntimet h.2).isSome = true

namespace Values
variable (v : Values) (resTime reqTime now date : Int)

/-- `corrected_received_age` -/
def receivedAge : Int := max (max 0 (resTime - date)) (v.age.getD 0)

def currentAge : Int := v.receivedAge resTime date + (resTime - reqTime) + (now - resTime)

/-- `freshness_lifetime` -/
def freshness : Int :=
  match v.maxAge, v.expires, v.lastModified with
  | some age, _, _ => age
  | none, some expires, _ => expires - date
  | none, none, some modified => (now - modified).tdiv 10
  | none, none, none => 0

def remaining : Int :=
  if v.forbidden then 0
  else min (max 0 (v.freshness now date - v.currentAge resTime reqTime now date)) (2 ^ 31 - 1)

def nonzero : Values :=
  { v with expires := v.expires.filter (· ≠ 0), lastModified := v.lastModified.filter (· ≠ 0) }

def lifetime : Lifetime where
  date := date
  receivedAge := v.receivedAge resTime date
  currentAge := v.currentAge resTime reqTime now date
  interval := v.freshness now date
  freshness := v.freshness now date
  remaining := v.remaining resTime reqTime now date

end Values

/-- A field for an age holds the age of a header, if there is one and it is an `int`. -/
def Held (field : Int) (age : Option Nat) : Prop :=
  IsInt field ∧ (age = none → field = invalidAge) ∧ ∀ n, age = some n → n < 2 ^ 31 → field = n

/-- The control data hold what the headers say. -/
structure Holds (cache : Control) (v : Values) (reqTime resTime : Int) : Prop where
  reqTime : cache.reqTime = reqTime
  resTime : cache.resTime = resTime
  age : Held cache.age v.age
  maxAge : Held cache.maxAge v.maxAge
  date : cache.date = v.date.getD 0
  expires : cache.expires = v.expires.getD 0
  lastModified : cache.lastModified = v.lastModified.getD 0
  noCache : cache.noCache = .fresh ↔ v.forbidden = false

theorem held_none : Held invalidAge none := ⟨by decide, fun _ => rfl, fun n some' => nomatch some'⟩

variable {cache cd : Control}

theorem held_some (small : n < 2 ^ 31 → x = n) : Held (toInt x) (some n) := by
  refine ⟨isInt_toInt x, fun none' => (nomatch none'), ?_⟩
  rintro k same less
  cases same
  rw [small less, toInt_eq_iff, IsInt]
  omega

theorem strtol_digits (digit : isDigit (byteAt value 0) = true) :
    strtol value = min (decimalValue (value.takeWhile isDigit) : Int) (2 ^ 63 - 1) := by
  rcases value with _ | ⟨c, rest⟩
  · exact absurd digit (by decide)
  · change isDigit c = true at digit
    have plain : isSpace c = false ∧ c ≠ ch '-' ∧ c ≠ ch '+' := by
      revert digit
      revert c
      exact forall_byte (by decide +kernel)
    rw [strtol, List.dropWhile_cons_of_neg (by simp [plain.1])]
    simp [plain.2.1, plain.2.2]

theorem held_atoi (digit : isDigit (byteAt value 0) = true) :
    Held (atoi value) (some (decimalValue (value.takeWhile isDigit))) := by
  rw [atoi, strtol_digits digit]
  exact held_some (fun small => by omega)

theorem held_maxAge {number : UInt32}
    (read : ((findItem directives (lit "max-age")).bind Directive.value).bind parseMaxAge = some number) :
    ∃ n, maxAgeOf directives = some n ∧ Held (toInt number.toNat) (some n) := by
  obtain ⟨value, given, parsed⟩ := bind_eq_some_iff.mp read
  by_cases isNumber : IsNumber value
  · rw [parseMaxAge_number isNumber] at parsed
    cases parsed
    refine ⟨decimalValue value, by rw [maxAgeOf, given, bind_some, if_pos isNumber], held_some fun small => ?_⟩
    rcases foldl_addDigit isNumber.2 with ⟨drops, -⟩ | ⟨-, wrapped⟩
    · have large := drops.large
      omega
    · rw [wrapped]
      omega
  · rw [parseMaxAge_other isNumber] at parsed
    cases parsed

theorem maxAgeOf_none (none' : ((findItem directives (lit "max-age")).bind Directive.value).bind parseMaxAge = none) :
    maxAgeOf directives = none := by
  rw [maxAgeOf]
  rcases given : (findItem directives (lit "max-age")).bind Directive.value with _ | value
  · rfl
  · rw [given, bind_some] at none'
    rw [bind_some, if_neg]
    intro number
    rw [parseMaxAge_number number] at none'
    cases none'

theorem cString_readDirectives (value : List UInt8) :
    parseCacheControl value = (readDirectives (ch ',') (cString value)).bind cacheControlOf := rfl

variable {strntimet}

theorem fetchHeaderCacheControl_eq (cache : Control) (name value : List UInt8) :
    fetchHeaderCacheControl strntimet cache name value =
      if insensitive name = lit "age" then
        if isDigit (byteAt value 0) then { cache with age := atoi value } else cache
      else if insensitive name = lit "date" then { cache with date := (strntimet value).getD cache.date }
      else if insensitive name = lit "expires" then { cache with expires := (strntimet value).getD 0x7fffffff }
      else if insensitive name = lit "cache-control" then fetchParseCacheControl cache value
      else if insensitive name = lit "last-modified" then
        { cache with lastModified := (strntimet value).getD cache.lastModified }
      else if insensitive name = lit "etag" then { cache with etag := some value }
      else cache := by
  have length : (insensitive name).length = name.length := List.length_map _
  have age : insensitive (lit "Age") = lit "age" := by decide
  have date : insensitive (lit "Date") = lit "date" := by decide
  have etag : insensitive (lit "ETag") = lit "etag" := by decide
  have expires : insensitive (lit "Expires") = lit "expires" := by decide
  have control : insensitive (lit "Cache-Control") = lit "cache-control" := by decide
  have modified : insensitive (lit "Last-Modified") = lit "last-modified" := by decide
  have other : ∀ text : List UInt8, text.length ≠ name.length → insensitive name ≠ text := by
    rintro text different rfl
    exact different length
  rw [fetchHeaderCacheControl]
  simp only [strcasecmp_eq_iff, age, date, etag, expires, control, modified]
  split
  next three =>
    rw [if_neg (other (lit "date") (by rw [three]; decide)), if_neg (other (lit "expires") (by rw [three]; decide)),
      if_neg (other (lit "cache-control") (by rw [three]; decide)),
      if_neg (other (lit "last-modified") (by rw [three]; decide)), if_neg (other (lit "etag") (by rw [three]; decide))]
    simp only [isDigit, Bool.and_eq_true, decide_eq_true_eq]
  next four =>
    rw [if_neg (other (lit "age") (by rw [four]; decide)), if_neg (other (lit "expires") (by rw [four]; decide)),
      if_neg (other (lit "cache-control") (by rw [four]; decide)),
      if_neg (other (lit "last-modified") (by rw [four]; decide))]
  next seven =>
    rw [if_neg (other (lit "age") (by rw [seven]; decide)), if_neg (other (lit "date") (by rw [seven]; decide)),
      if_neg (other (lit "cache-control") (by rw [seven]; decide)),
      if_neg (other (lit "last-modified") (by rw [seven]; decide)), if_neg (other (lit "etag") (by rw [seven]; decide))]
  next thirteen =>
    rw [if_neg (other (lit "age") (by rw [thirteen]; decide)), if_neg (other (lit "date") (by rw [thirteen]; decide)),
      if_neg (other (lit "expires") (by rw [thirteen]; decide)), if_neg (other (lit "etag") (by rw [thirteen]; decide))]
  next n three four seven thirteen =>
    rw [if_neg (other (lit "age") (Ne.symm three)), if_neg (other (lit "date") (Ne.symm four)),
      if_neg (other (lit "expires") (Ne.symm seven)), if_neg (other (lit "cache-control") (Ne.symm thirteen)),
      if_neg (other (lit "last-modified") (Ne.symm thirteen)), if_neg (other (lit "etag") (Ne.symm four))]

theorem Holds.parseCacheControl {v : Values} {reqTime resTime : Int} (holds : Holds cache v reqTime resTime)
    (value : List UInt8) : Holds (fetchParseCacheControl cache value) (v.cacheControl value) reqTime resTime := by
  rw [fetchParseCacheControl, cString_readDirectives, Values.cacheControl]
  rcases readDirectives (ch ',') (cString value) with _ | directives
  · exact holds
  · rw [bind_some, cacheControlOf]
    by_cases once : checkDuplicates directives = true
    · simp only [if_pos once]
      have forbidden : ∀ valid, (valid = Validate.fresh ↔ v.forbidden = false) →
          ((if (findItem directives (lit "no-cache")).isSome = true ∨ (findItem directives (lit "no-store")).isSome = true
            then Validate.always else valid) = .fresh ↔
              (v.forbidden || (findItem directives (lit "no-cache")).isSome ||
                (findItem directives (lit "no-store")).isSome) = false) := by
        intro valid same
        rcases (findItem directives (lit "no-cache")).isSome with _ | _ <;>
          rcases (findItem directives (lit "no-store")).isSome with _ | _ <;> simp [same]
      have noCache := forbidden cache.noCache holds.noCache
      rcases read : ((findItem directives (lit "max-age")).bind Directive.value).bind parseMaxAge with _ | number
      · rw [maxAgeOf_none read]
        split at noCache
        next marked =>
          simp only [isSome_none, Bool.false_eq_true, if_false]
          rw [if_pos marked]
          exact { holds with noCache }
        next unmarked =>
          simp only [isSome_none, Bool.false_eq_true, if_false]
          rw [if_neg unmarked]
          exact { holds with noCache }
      · obtain ⟨n, given, age⟩ := held_maxAge read
        have maxAge : Held (toInt number.toNat) ((some n).or v.maxAge) := age
        rw [given]
        split at noCache
        next marked =>
          simp only [isSome_some, getD_some, if_true]
          rw [if_pos marked]
          generalize toInt number.toNat = field at maxAge ⊢
          exact { holds with noCache, maxAge }
        next unmarked =>
          simp only [isSome_some, getD_some, if_true]
          rw [if_neg unmarked]
          generalize toInt number.toNat = field at maxAge ⊢
          exact { holds with noCache, maxAge }
    · simp only [if_neg once]
      exact holds

theorem Holds.header {v : Values} {reqTime resTime : Int} (holds : Holds cache v reqTime resTime) {name : List UInt8}
    (parses : insensitive name = lit "expires" → (strntimet value).isSome = true) :
    Holds (fetchHeaderCacheControl strntimet cache name value) (v.header strntimet name value) reqTime resTime := by
  have time : ∀ (held : Int) (said : Option Int), held = said.getD 0 →
      (strntimet value).getD held = ((strntimet value).or said).getD 0 := by
    rintro held said rfl
    rcases strntimet value with _ | t <;> rfl
  rw [fetchHeaderCacheControl_eq, Values.header]
  by_cases age : insensitive name = lit "age"
  · rw [if_pos age, if_pos age]
    by_cases digit : isDigit (byteAt value 0) = true
    · rw [if_pos digit, if_pos digit]
      exact { holds with age := held_atoi digit }
    · rw [if_neg digit, if_neg digit]
      exact holds
  rw [if_neg age, if_neg age]
  by_cases date : insensitive name = lit "date"
  · rw [if_pos date, if_pos date]
    exact { holds with date := time _ _ holds.date }
  rw [if_neg date, if_neg date]
  by_cases expires : insensitive name = lit "expires"
  · rw [if_pos expires, if_pos expires]
    obtain ⟨t, read⟩ := isSome_iff_exists.mp (parses expires)
    rw [read]
    exact { holds with expires := rfl }
  rw [if_neg expires, if_neg expires]
  by_cases control : insensitive name = lit "cache-control"
  · rw [if_pos control, if_pos control]
    exact holds.parseCacheControl value
  rw [if_neg control, if_neg control]
  by_cases modified : insensitive name = lit "last-modified"
  · rw [if_pos modified, if_pos modified]
    exact { holds with lastModified := time _ _ holds.lastModified }
  rw [if_neg modified, if_neg modified]
  split
  · exact { holds with }
  · exact holds

theorem holds_headers (parse : Parse strntimet headers) {v : Values} {reqTime resTime : Int}
    (holds : Holds cache v reqTime resTime) :
    Holds (headers.foldl (fun cache h => fetchHeaderCacheControl strntimet cache h.1 h.2) cache)
      (headers.foldl (fun v h => v.header strntimet h.1 h.2) v) reqTime resTime := by
  induction headers generalizing cache v with
  | nil => exact holds
  | cons h rest ih =>
    rw [List.foldl_cons, List.foldl_cons]
    exact ih (fun g member => parse g (List.mem_cons_of_mem _ member)) (holds.header (parse h List.mem_cons_self))

theorem lifetime_eq_some {now : Int} {l : Lifetime} :
    rfc2616RemainingLifetime now cd = some l ↔
      IsLong (cd.resTime - cd.date) ∧ IsLong (cd.resTime - cd.reqTime) ∧ IsLong (cd.resTime - cd.reqTime + now) ∧
      IsLong (cd.resTime - cd.reqTime + now - cd.resTime) ∧
      IsLong (cd.receivedAge + (cd.resTime - cd.reqTime + now - cd.resTime)) ∧
      cd.interval now = some l.interval ∧
      ((cd.noCache = .fresh ∧ l.currentAge < l.freshness ∧
          IsInt (l.freshness - l.currentAge) ∧ l.freshness - l.currentAge = l.remaining) ∨
        (¬(cd.noCache = .fresh ∧ l.currentAge < l.freshness) ∧ l.remaining = 0)) ∧
      l.date = cd.date ∧ l.receivedAge = cd.receivedAge ∧
      l.currentAge = toInt (cd.receivedAge + (cd.resTime - cd.reqTime + now - cd.resTime)) ∧
      l.freshness = toInt l.interval := by
  rw [rfc2616RemainingLifetime]
  simp only [bind_eq_bind, bind_eq_some_iff, long_eq_some, pure_def, some_inj]
  have rest : ∀ age freshness remaining : Int,
      (if cd.noCache = .fresh ∧ age < freshness then int (freshness - age) else some 0) = some remaining ↔
        (cd.noCache = .fresh ∧ age < freshness ∧ IsInt (freshness - age) ∧ freshness - age = remaining) ∨
          (¬(cd.noCache = .fresh ∧ age < freshness) ∧ remaining = 0) := by
    intro age freshness remaining
    by_cases fresh : cd.noCache = .fresh ∧ age < freshness
    · simp [fresh, int_eq_some]
    · rw [if_neg fresh, some_inj]
      constructor
      · intro zero
        exact .inr ⟨fresh, zero.symm⟩
      · rintro (⟨allowed, less, -⟩ | ⟨-, zero⟩)
        · exact absurd ⟨allowed, less⟩ fresh
        · exact zero.symm
  simp only [rest]
  constructor
  · rintro ⟨_, ⟨apparent, rfl⟩, _, ⟨delay, rfl⟩, _, ⟨later, rfl⟩, _, ⟨elapsed, rfl⟩, _, ⟨current, rfl⟩, interval, some',
      remaining, left, rfl⟩
    exact ⟨apparent, delay, later, elapsed, current, some', left, rfl, rfl, rfl, rfl⟩
  · rintro ⟨apparent, delay, later, elapsed, current, some', left, date, received, age, freshness⟩
    obtain ⟨_, _, _, _, _, _⟩ := l
    dsimp only at *
    subst date received age freshness
    exact ⟨_, ⟨apparent, rfl⟩, _, ⟨delay, rfl⟩, _, ⟨later, rfl⟩, _, ⟨elapsed, rfl⟩, _, ⟨current, rfl⟩, _, some', _, left,
      rfl⟩

/-- The date of a response; one without a date has that of its arrival. -/
def dateOf (v : Values) (finished : Int) : Int := v.date.getD finished

/-- No value of a lifetime is too large for its type, and no time that is 0 matters. -/
structure Fits (v : Values) (reqTime resTime finished now : Int) : Prop where
  dated : v.date = some 0 → finished = 0
  apparent : IsLong (resTime - dateOf v finished)
  delay : IsLong (resTime - reqTime)
  later : IsLong (resTime - reqTime + now)
  received : v.receivedAge resTime (dateOf v finished) < 2 ^ 31
  current : IsInt (v.currentAge resTime reqTime now (dateOf v finished))
  nonzero : v.nonzero.freshness now (dateOf v finished) = v.freshness now (dateOf v finished)
  freshness : IsInt (v.freshness now (dateOf v finished))
  remaining : v.forbidden = false →
    v.freshness now (dateOf v finished) - v.currentAge resTime reqTime now (dateOf v finished) < 2 ^ 31

/-- A larger max-age never leaves less of a lifetime. -/
theorem Values.remaining_mono (v : Values) (resTime reqTime now date : Int) (le : n ≤ m) :
    { v with maxAge := some n }.remaining resTime reqTime now date ≤
      { v with maxAge := some m }.remaining resTime reqTime now date := by
  have aged : { v with maxAge := some n }.currentAge resTime reqTime now date =
      { v with maxAge := some m }.currentAge resTime reqTime now date := rfl
  simp only [Values.remaining, Values.freshness, aged]
  split <;> omega

/-- A larger Age never leaves more of it. -/
theorem Values.remaining_anti (v : Values) (resTime reqTime now date : Int) (le : n ≤ m) :
    { v with age := some m }.remaining resTime reqTime now date ≤
      { v with age := some n }.remaining resTime reqTime now date := by
  have fresh : { v with age := some m }.freshness now date = { v with age := some n }.freshness now date := rfl
  simp only [Values.remaining, Values.currentAge, Values.receivedAge, getD_some, fresh]
  split <;> omega

theorem Values.freshness_maxAge {v : Values} {now date : Int} (said : v.maxAge = some n) :
    v.freshness now date = n := by
  rw [Values.freshness, said]

theorem filter_nonzero (time : Option Int) :
    time.filter (· ≠ 0) = if time.getD 0 = 0 then none else some (time.getD 0) := by
  rcases time with _ | t
  · rfl
  · by_cases zero : t = 0 <;> simp [zero]

theorem date_iff {held : Int} {said : Option Int} (same : held = said.getD 0) :
    (if held = 0 then finished else held) = said.getD finished ↔ (said = some 0 → finished = 0) := by
  subst same
  rcases said with _ | t
  · simp
  · by_cases zero : t = 0 <;> simp [zero]

theorem isLong_of_tdiv (isInt : IsInt (x.tdiv 10)) : IsLong x := by
  rw [IsInt] at isInt
  rw [IsLong]
  rcases Int.le_total 0 x with positive | negative
  · rw [Int.tdiv_eq_ediv_of_nonneg positive] at isInt
    omega
  · have opposite : x.tdiv 10 = -((-x) / 10) := by
      rw [← Int.tdiv_eq_ediv_of_nonneg (by omega), Int.neg_tdiv, Int.neg_neg]
    rw [opposite] at isInt
    omega

theorem interval_iff {v : Values} {now : Int} (maxAge : Held cd.maxAge v.maxAge)
    (expires : cd.expires = v.expires.getD 0) (modified : cd.lastModified = v.lastModified.getD 0) (isInt : IsInt x) :
    cd.interval now = some x ∧ (∀ n, v.maxAge = some n → x = n) ↔
      v.nonzero.freshness now cd.date = x := by
  obtain ⟨-, absent, present⟩ := maxAge
  rw [Control.interval, Values.nonzero, Values.freshness]
  dsimp only
  rw [filter_nonzero, filter_nonzero, ← expires, ← modified]
  rcases said : v.maxAge with _ | n
  · rw [if_neg (fun some' => some' (absent said))]
    by_cases expire : cd.expires = 0
    · rw [if_neg (fun some' => some' expire), if_pos expire]
      by_cases modify : cd.lastModified = 0
      · rw [if_neg (fun some' => some' modify), if_pos modify]
        simp
      · rw [if_pos modify, if_neg modify]
        simp only [map_eq_some_iff, long_eq_some]
        constructor
        · rintro ⟨⟨_, ⟨-, rfl⟩, same⟩, -⟩
          exact same
        · intro same
          refine ⟨⟨_, ⟨isLong_of_tdiv ?_, rfl⟩, same⟩, fun n some' => nomatch some'⟩
          rwa [same]
    · rw [if_pos expire, if_neg expire]
      simp only [long_eq_some]
      constructor
      · rintro ⟨⟨-, same⟩, -⟩
        exact same
      · intro same
        refine ⟨⟨?_, same⟩, fun n some' => nomatch some'⟩
        rw [IsInt] at isInt
        rw [IsLong]
        omega
  · constructor
    · rintro ⟨-, same⟩
      exact (same n rfl).symm
    · intro same
      have small : n < 2 ^ 31 := by
        have high := isInt.2
        rw [← same] at high
        dsimp only at high
        omega
      have held := present n said small
      rw [if_pos (by rw [held, invalidAge]; omega), held]
      refine ⟨congrArg some same, ?_⟩
      rintro k some'
      cases some'
      exact same.symm

theorem receivedAge_iff {v : Values} (age : Held cd.age v.age) :
    cd.receivedAge = v.receivedAge cd.resTime cd.date ↔ v.receivedAge cd.resTime cd.date < 2 ^ 31 := by
  obtain ⟨isInt, absent, present⟩ := age
  rw [Control.receivedAge, Values.receivedAge]
  constructor
  · intro same
    rw [← same]
    have apparent := (isInt_toInt (max 0 (cd.resTime - cd.date))).2
    have high := isInt.2
    split
    · omega
    · omega
  · intro small
    have apparent : toInt (max 0 (cd.resTime - cd.date)) = max 0 (cd.resTime - cd.date) := by
      rw [toInt_eq_iff, IsInt]
      omega
    rw [apparent]
    rcases said : v.age with _ | n
    · rw [if_pos (absent said)]
      rfl
    · rw [said] at small
      dsimp only [getD_some] at small ⊢
      have held := present n said (by omega)
      rw [held, if_neg (by rw [invalidAge]; omega)]

/-- The lifetime is that of the headers exactly where all values fit. -/
theorem lifetime_iff {v : Values} {reqTime resTime now : Int} (holds : Holds cache v reqTime resTime) :
    rfc2616RemainingLifetime now (objectCacheUpdate finished cache) =
        some (v.lifetime resTime reqTime now (dateOf v finished)) ↔ Fits v reqTime resTime finished now := by
  obtain ⟨cd, updated⟩ : ∃ cd, objectCacheUpdate finished cache = cd := ⟨_, rfl⟩
  have fields : cd.reqTime = reqTime ∧ cd.resTime = resTime ∧ Held cd.age v.age ∧ Held cd.maxAge v.maxAge ∧
      cd.expires = v.expires.getD 0 ∧ cd.lastModified = v.lastModified.getD 0 ∧
      (cd.noCache = .fresh ↔ v.forbidden = false) ∧ cd.date = if cache.date = 0 then finished else cache.date := by
    rw [← updated, objectCacheUpdate]
    split
    · exact ⟨holds.reqTime, holds.resTime, holds.age, holds.maxAge, holds.expires, holds.lastModified, holds.noCache, rfl⟩
    · exact ⟨holds.reqTime, holds.resTime, holds.age, holds.maxAge, holds.expires, holds.lastModified, holds.noCache, rfl⟩
  obtain ⟨rfl, rfl, age, maxAge, expires, modified, noCache, date⟩ := fields
  have dated : cd.date = dateOf v finished ↔ (v.date = some 0 → finished = 0) := by
    rw [date, dateOf]
    exact date_iff holds.date
  have elapsed : v.currentAge cd.resTime cd.reqTime now cd.date =
      v.receivedAge cd.resTime cd.date + (cd.resTime - cd.reqTime + now - cd.resTime) := by
    rw [Values.currentAge]
    omega
  rw [updated, lifetime_eq_some]
  simp only [Values.lifetime]
  constructor
  · rintro ⟨apparent, delay, later, -, current, interval, remaining, sameDate, received, currentAge, freshness⟩
    have isInt : IsInt (v.freshness now (dateOf v finished)) := by
      rw [freshness]
      exact isInt_toInt _
    refine ⟨dated.mp sameDate.symm, ?_, delay, later, ?_, ?_, ?_, isInt, ?_⟩
    · rwa [sameDate]
    · rw [sameDate] at received ⊢
      exact (receivedAge_iff age).mp received.symm
    · rw [currentAge]
      exact isInt_toInt _
    · rw [sameDate] at isInt interval ⊢
      exact (interval_iff maxAge expires modified isInt).mp ⟨interval, fun n said => Values.freshness_maxAge said⟩
    · intro allowed
      rcases remaining with ⟨-, -, isInt, -⟩ | ⟨stale, -⟩
      · exact isInt.2
      · have old : v.freshness now (dateOf v finished) ≤ v.currentAge cd.resTime cd.reqTime now (dateOf v finished) :=
          Int.not_lt.mp fun less => stale ⟨noCache.mpr allowed, less⟩
        omega
  · intro fits
    have sameDate := dated.mpr fits.dated
    obtain ⟨-, apparent, delay, later, received, current, nonzero, isInt, remaining⟩ := fits
    rw [← sameDate] at *
    have receivedAge := (receivedAge_iff age).mpr received
    have zero : 0 ≤ v.receivedAge cd.resTime cd.date := le_max_of_le_left (le_max_left _ _)
    have currentAge := toInt_eq_iff.mpr current
    rw [elapsed] at currentAge
    refine ⟨apparent, delay, later, ?_, ?_, ?_, ?_, rfl, receivedAge.symm, ?_, (toInt_eq_iff.mpr isInt).symm⟩
    · rw [elapsed, IsInt] at current
      rw [IsLong]
      omega
    · rw [receivedAge, ← elapsed]
      rw [IsInt] at current
      rw [IsLong]
      omega
    · exact ((interval_iff maxAge expires modified isInt).mpr nonzero).1
    · rw [Values.remaining]
      rcases allowed : v.forbidden with _ | _
      · have small := remaining allowed
        rw [if_neg (by decide)]
        by_cases less : v.currentAge cd.resTime cd.reqTime now cd.date < v.freshness now cd.date
        · refine .inl ⟨noCache.mpr allowed, less, ?_, ?_⟩
          · rw [IsInt]
            omega
          · omega
        · exact .inr ⟨fun fresh => less fresh.2, by omega⟩
      · have marked : cd.noCache ≠ .fresh := fun fresh => by rw [noCache.mp fresh] at allowed; cases allowed
        exact .inr ⟨fun fresh => marked fresh.1, if_pos rfl⟩
    · rw [receivedAge, currentAge, elapsed]

/-- The lifetime that is taken from the control data, with all values on the way, is that of the headers, exactly where
    the values fit. -/
theorem lifetime_exact_iff (strntimet : List UInt8 → Option Int) (parse : Parse strntimet headers)
    (reqTime resTime finished now : Int) :
    rfc2616RemainingLifetime now (control strntimet headers reqTime resTime finished) =
        some ((values strntimet headers).lifetime resTime reqTime now (dateOf (values strntimet headers) finished)) ↔
      Fits (values strntimet headers) reqTime resTime finished now := by
  apply lifetime_iff
  apply holds_headers parse
  exact ⟨rfl, rfl, held_none, held_none, rfl, rfl, rfl, by simp⟩

theorem objectIsFresh_eq (parse : Parse strntimet headers) {reqTime resTime now : Int}
    (fits : Fits (values strntimet headers) reqTime resTime finished now) :
    objectIsFresh now (control strntimet headers reqTime resTime finished) true =
      some (decide (0 < (values strntimet headers).remaining resTime reqTime now
        (dateOf (values strntimet headers) finished))) := by
  have start : Holds { reqTime, resTime } {} reqTime resTime :=
    ⟨rfl, rfl, held_none, held_none, rfl, rfl, rfl, by simp⟩
  have holds := holds_headers parse start
  have noCache : (control strntimet headers reqTime resTime finished).noCache = .fresh ↔
      (values strntimet headers).forbidden = false := by
    rw [control, objectCacheUpdate]
    split
    · exact holds.noCache
    · exact holds.noCache
  rw [objectIsFresh, control, (lifetime_iff holds).mpr fits, map_some, ← control, ← values]
  rcases allowed : (values strntimet headers).forbidden with _ | _
  · rw [noCache.mpr allowed, Values.lifetime]
    simp
  · have marked : (control strntimet headers reqTime resTime finished).noCache ≠ .fresh := fun fresh => by
      rw [noCache.mp fresh] at allowed
      cases allowed
    simp [marked, Values.remaining, allowed]

theorem objectIsFresh_minute :
    objectIsFresh 1060 (control (fun _ => some 0) [(lit "Cache-Control", lit "max-age=60")] 1000 1000 1000) true =
      some (decide (0 < (values (fun _ => some 0) [(lit "Cache-Control", lit "max-age=60")]).remaining 1000 1000 1060
        (dateOf (values (fun _ => some 0) [(lit "Cache-Control", lit "max-age=60")]) 1000))) := by
  refine objectIsFresh_eq (fun _ _ _ => rfl) ?_
  have said : values (fun _ => some 0) [(lit "Cache-Control", lit "max-age=60")] = { maxAge := some 60 } := by
    decide +kernel
  rw [said]
  exact ⟨by decide, by decide, by decide, by decide, by decide, by decide, by decide, by decide, by decide⟩

/-- An hour. -/
theorem lifetime_exact_hour :
    Parse (fun _ => some 1000) [(lit "Date", lit "x"), (lit "Cache-Control", lit "max-age=3600"), (lit "Age", lit "60")] ∧
    rfc2616RemainingLifetime 1010 (control (fun _ => some 1000)
        [(lit "Date", lit "x"), (lit "Cache-Control", lit "max-age=3600"), (lit "Age", lit "60")] 990 1000 1000) =
      some ((values (fun _ => some 1000)
        [(lit "Date", lit "x"), (lit "Cache-Control", lit "max-age=3600"), (lit "Age", lit "60")]).lifetime
          1000 990 1010 1000) := by
  have parse : Parse (fun _ => some 1000)
      [(lit "Date", lit "x"), (lit "Cache-Control", lit "max-age=3600"), (lit "Age", lit "60")] := fun _ _ _ => rfl
  refine ⟨parse, (lifetime_exact_iff _ parse 990 1000 1000 1010).mpr ?_⟩
  have said : values (fun _ => some 1000)
      [(lit "Date", lit "x"), (lit "Cache-Control", lit "max-age=3600"), (lit "Age", lit "60")] =
        { age := some 60, maxAge := some 3600, date := some 1000 } := by decide +kernel
  rw [said]
  exact ⟨by decide, by decide, by decide, by decide, by decide, by decide, by decide, by decide, by decide⟩

/-- A max-age that is larger by a second makes an object stale, and an age that is larger by 136 years makes one fresh. -/
theorem larger_age_fresh :
    let lifetime := fun headers =>
      (rfc2616RemainingLifetime 1000 (control (fun _ => none) headers 1000 1000 1000)).map Lifetime.remaining
    let rfc := fun headers => (values (fun _ => none) headers).remaining 1000 1000 1000 1000
    lifetime [(lit "Cache-Control", lit "max-age=2147483647")] = some 2147483647 ∧
    lifetime [(lit "Cache-Control", lit "max-age=2147483648")] = some 0 ∧
    rfc [(lit "Cache-Control", lit "max-age=2147483648")] = 2147483647 ∧
    lifetime [(lit "Cache-Control", lit "max-age=60"), (lit "Age", lit "60")] = some 0 ∧
    lifetime [(lit "Cache-Control", lit "max-age=60"), (lit "Age", lit "4294967296")] = some 60 ∧
    rfc [(lit "Cache-Control", lit "max-age=60"), (lit "Age", lit "4294967296")] = 0 := by
  decide +kernel

end Besra.Freshness
