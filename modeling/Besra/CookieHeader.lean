import Besra.Urldb

/-!
Whether the buffer for a `Cookie` header is large enough. It is grown for each cookie to
the length that the cookie may need at most; but `snprintf` counts its output as
truncated when that fills the buffer to the end.
-/
namespace Besra.CookieHeader
open Lwc NsurlParse CText SetCookie Urldb List Option

/-- What `concat_netscape_cookie` gives to `snprintf`, one call after the other. -/
def netscapeParts (c : Cookie) : List (List UInt8) :=
  [lit "; " ++ c.name ++ lit "=", if c.valueWasQuoted then quote c.value else c.value]

/-- What `concat_rfc2965_cookie` gives to `snprintf`. -/
def rfc2965Parts (c : Cookie) : List (List UInt8) :=
  [lit "; " ++ c.name ++ lit "=", if c.valueWasQuoted || hasSeparator c.value then quote c.value else c.value] ++
    (if c.pathFromSet then [lit "; $Path=" ++ if hasSeparator c.path then quote c.path else c.path] else []) ++
    if c.domainFromSet then [lit "; $Domain=" ++ if hasSeparator c.domain then quote c.domain else c.domain] else []

def netscapeText (c : Cookie) : List UInt8 := (netscapeParts c).flatten.drop 2

def rfc2965Text (c : Cookie) : List UInt8 := (rfc2965Parts c).flatten.drop 2

section Runs
variable (parts : Cookie → List (List UInt8))

/-- `concat_netscape_cookie` and `concat_rfc2965_cookie`. -/
def concat (buf : Buffer) (c : Cookie) : Option Buffer := (parts c).foldlM Buffer.append (buf.reserve c)

/-- A call of `snprintf`, with the buffer before it. -/
structure Write where
  buf : Buffer
  text : List UInt8

/-- The room that `snprintf` is given, as a `size_t`. -/
def Write.size (w : Write) : Nat := (((w.buf.alloc : Int) - w.buf.used) % 2 ^ 64).toNat

/-- Where the bytes end that `snprintf` writes, the NUL with them. -/
def Write.end' (w : Write) : Nat := w.buf.used - 1 + min (w.text.length + 1) w.size

/-- The calls of `snprintf` for a cookie, up to one that fails. -/
def writes : Buffer → List (List UInt8) → List Write
  | _, [] => []
  | buf, text :: later => ⟨buf, text⟩ :: (buf.append text).elim [] (writes · later)

/-- The calls of `snprintf` for a list of cookies. -/
def allWrites : Buffer → List Cookie → List Write
  | _, [] => []
  | buf, c :: later => writes (buf.reserve c) (parts c) ++ (concat parts buf c).elim [] (allWrites · later)

def bytes (cookies : List Cookie) : List UInt8 := cookies.flatMap (fun c => (parts c).flatten)

/-- The length that the buffer is grown to for a cookie, if it is shorter: an `int`. -/
def need (front : List UInt8) (before : List Cookie) (c : Cookie) : Int :=
  narrow (maxLen ((front ++ bytes parts before).length + 1) c)

/-- With its NUL the text up to a cookie is shorter than the first allocation, or than what was asked for this cookie
or for one before it. -/
def FitsAt (front : List UInt8) (before : List Cookie) (c : Cookie) : Prop :=
  (front ++ bytes parts (before ++ [c])).length + 1 < 4096 ∨
    ∃ before' d after, before ++ [c] = before' ++ d :: after ∧
      (((front ++ bytes parts (before ++ [c])).length + 1 : Nat) : Int) < need parts front before' d

/-- The cookies all fit behind the text `front`. -/
def Fits (front : List UInt8) (cookies : List Cookie) : Prop :=
  ∀ before c after, cookies = before ++ c :: after → FitsAt parts front before c

end Runs

theorem append_eq (buf : Buffer) (text : List UInt8) : buf.append text =
    if buf.used + text.length < buf.alloc then some { buf with text := buf.text ++ text } else none := by
  rw [Buffer.append]
  by_cases room : buf.used + text.length < buf.alloc
  · rw [if_pos room, if_neg (by omega)]
  · rw [if_neg room, if_pos (by omega)]

variable {buf : Buffer} {cookies : List Cookie}

theorem foldlM_append (room : buf.used < buf.alloc) (texts : List (List UInt8)) :
    texts.foldlM Buffer.append buf = if buf.used + texts.flatten.length < buf.alloc then
      some { buf with text := buf.text ++ texts.flatten } else none := by
  induction texts generalizing buf with
  | nil => simp [room]
  | cons text later ih =>
    rw [foldlM_cons, append_eq]
    by_cases fits : buf.used + text.length < buf.alloc
    · rw [if_pos fits]
      have used : Buffer.used { buf with text := buf.text ++ text } = buf.used + text.length := by
        simp only [Buffer.used, length_append]
        omega
      have grown : Buffer.used { buf with text := buf.text ++ text } < buf.alloc := by
        rw [used]
        exact fits
      have next := ih grown
      rw [used] at next
      simp only [bind_eq_bind, bind_some, next, flatten_cons, length_append, append_assoc, Nat.add_assoc]
    · rw [if_neg fits, if_neg]
      · rfl
      · rw [flatten_cons, length_append]
        omega

theorem foldlM_append_cases (room : buf.used < buf.alloc) (texts : List (List UInt8)) :
    (buf.used + texts.flatten.length < buf.alloc ∧ ∃ buf', texts.foldlM Buffer.append buf = some buf' ∧
      buf'.text = buf.text ++ texts.flatten ∧ buf'.alloc = buf.alloc) ∨
    (¬buf.used + texts.flatten.length < buf.alloc ∧ texts.foldlM Buffer.append buf = none) := by
  rw [foldlM_append room]
  by_cases enough : buf.used + texts.flatten.length < buf.alloc
  · exact .inl ⟨enough, { buf with text := buf.text ++ texts.flatten }, if_pos enough, rfl, rfl⟩
  · exact .inr ⟨enough, if_neg enough⟩

theorem writes_inside (room : buf.used < buf.alloc) (texts : List (List UInt8)) :
    ∀ w ∈ writes buf texts, w.end' ≤ w.buf.alloc := by
  induction texts generalizing buf with
  | nil => exact fun w member => absurd member (not_mem_nil)
  | cons text later ih =>
    intro w member
    rw [writes, mem_cons] at member
    rcases member with rfl | member
    · have size : Write.size ⟨buf, text⟩ ≤ buf.alloc - buf.used := by
        rw [Write.size]
        simp only
        omega
      have used : 0 < buf.used := Nat.succ_pos _
      rw [Write.end']
      simp only
      omega
    · rw [append_eq] at member
      split at member
      next fits =>
        have grown : Buffer.used { buf with text := buf.text ++ text } < buf.alloc := by
          simp only [Buffer.used, length_append] at fits ⊢
          omega
        exact ih grown w member
      next => exact absurd member (not_mem_nil)

/-- The buffer is as long as the largest of the first allocation and of what was asked for since. -/
structure Holds (parts : Cookie → List (List UInt8)) (front : List UInt8) (before : List Cookie) (buf : Buffer) :
    Prop where
  text : buf.text = front ++ bytes parts before
  room : buf.used < buf.alloc
  alloc : ∀ n : Nat, n < buf.alloc ↔ n < 4096 ∨
    ∃ before' d after, before = before' ++ d :: after ∧ (n : Int) < need parts front before' d

theorem lt_reserve (buf : Buffer) (c : Cookie) (n : Nat) :
    n < (buf.reserve c).alloc ↔ n < buf.alloc ∨ (n : Int) < narrow (maxLen buf.used c) := by
  rw [Buffer.reserve]
  split
  next more =>
    simp only
    omega
  next => omega

theorem reserve_text (buf : Buffer) (c : Cookie) : (buf.reserve c).text = buf.text := by
  rw [Buffer.reserve]
  split <;> rfl

section Runs
variable {parts : Cookie → List (List UInt8)} {front : List UInt8}

theorem bytes_snoc (before : List Cookie) (c : Cookie) :
    bytes parts (before ++ [c]) = bytes parts before ++ (parts c).flatten := by
  rw [bytes, flatMap_append, flatMap_singleton, bytes]

variable {before : List Cookie} {buf : Buffer}

theorem snoc_split {before' after : List Cookie} {c d : Cookie} :
    before ++ [c] = before' ++ d :: after ↔
      (before = before' ∧ c = d ∧ after = []) ∨ ∃ after', after = after' ++ [c] ∧ before = before' ++ d :: after' := by
  rcases eq_nil_or_concat after with rfl | ⟨after', e, rfl⟩
  · simp
  · rw [concat_eq_append, ← cons_append, ← append_assoc, append_singleton_inj]
    simp only [append_eq_nil_iff, cons_ne_nil, and_false, false_or, append_singleton_inj]
    constructor
    · rintro ⟨same, rfl⟩
      exact ⟨after', ⟨rfl, rfl⟩, same⟩
    · rintro ⟨after₂, ⟨rfl, rfl⟩, same⟩
      exact ⟨same, rfl⟩

theorem used_snoc (holds : Holds parts front before buf) (c : Cookie) :
    (front ++ bytes parts (before ++ [c])).length + 1 = buf.used + (parts c).flatten.length := by
  rw [Buffer.used, holds.text, bytes_snoc, ← append_assoc, length_append]
  omega

theorem lt_reserved (holds : Holds parts front before buf) (c : Cookie) (n : Nat) :
    n < (buf.reserve c).alloc ↔ n < 4096 ∨
      ∃ before' d after, before ++ [c] = before' ++ d :: after ∧ (n : Int) < need parts front before' d := by
  have used : buf.used = (front ++ bytes parts before).length + 1 := by rw [Buffer.used, holds.text]
  rw [lt_reserve, holds.alloc, used]
  constructor
  · rintro ((first | ⟨before', d, after, split, less⟩) | less)
    · exact .inl first
    · exact .inr ⟨before', d, after ++ [c], by rw [split, append_assoc, cons_append], less⟩
    · exact .inr ⟨before, c, [], rfl, less⟩
  · rintro (first | ⟨before', d, after, split, less⟩)
    · exact .inl (.inl first)
    · rcases snoc_split.mp split with ⟨rfl, rfl, -⟩ | ⟨after', -, split'⟩
      · exact .inr less
      · exact .inl (.inr ⟨before', d, after', split', less⟩)

theorem room_reserve (room : buf.used < buf.alloc) (c : Cookie) : (buf.reserve c).used < (buf.reserve c).alloc := by
  have same : (buf.reserve c).used = buf.used := by rw [Buffer.used, reserve_text, Buffer.used]
  rw [same, lt_reserve]
  exact .inl room

theorem concat_fits (holds : Holds parts front before buf) (c : Cookie) :
    (FitsAt parts front before c ∧ ∃ buf', concat parts buf c = some buf' ∧ Holds parts front (before ++ [c]) buf') ∨
      (¬FitsAt parts front before c ∧ concat parts buf c = none) := by
  have reserved := lt_reserved holds c
  have room := room_reserve holds.room c
  have text := reserve_text buf c
  rw [concat]
  generalize buf.reserve c = grown at reserved room text ⊢
  have same : grown.used = buf.used := by rw [Buffer.used, text, Buffer.used]
  have fits : FitsAt parts front before c ↔ buf.used + (parts c).flatten.length < grown.alloc := by
    unfold FitsAt
    rw [used_snoc holds]
    exact (reserved _).symm
  rw [fits, ← same]
  rcases foldlM_append_cases room (parts c) with ⟨enough, buf', wrote, text', alloc'⟩ | refused
  · refine .inl ⟨enough, buf', wrote, ?_, ?_, ?_⟩
    · rw [text', text, holds.text, bytes_snoc, append_assoc]
    · rw [alloc', Buffer.used, text', length_append]
      rw [Buffer.used] at enough
      omega
    · rw [alloc']
      exact reserved
  · exact .inr refused

theorem foldlM_concat (holds : Holds parts front before buf) (cookies : List Cookie) :
    ((∀ b c a, cookies = b ++ c :: a → FitsAt parts front (before ++ b) c) ∧
      ∃ buf', cookies.foldlM (concat parts) buf = some buf' ∧ Holds parts front (before ++ cookies) buf') ∨
    (¬(∀ b c a, cookies = b ++ c :: a → FitsAt parts front (before ++ b) c) ∧
      cookies.foldlM (concat parts) buf = none) := by
  induction cookies generalizing before buf with
  | nil =>
    refine .inl ⟨fun b c a split => ?_, buf, rfl, by rwa [append_nil]⟩
    exact absurd split.symm (append_ne_nil_of_right_ne_nil b (cons_ne_nil c a))
  | cons c later ih =>
    rw [foldlM_cons]
    rcases concat_fits holds c with ⟨fits, buf', wrote, holds'⟩ | ⟨short, refused⟩
    · rw [wrote, bind_eq_bind, bind_some]
      have all : (∀ b d a, c :: later = b ++ d :: a → FitsAt parts front (before ++ b) d) ↔
          ∀ b d a, later = b ++ d :: a → FitsAt parts front (before ++ [c] ++ b) d := by
        constructor
        · rintro every b d a rfl
          have at' := every (c :: b) d a rfl
          rwa [append_cons] at at'
        · intro every b d a split
          rcases b with _ | ⟨e, b⟩
          · rw [nil_append, List.cons.injEq] at split
            rw [append_nil, ← split.1]
            exact fits
          · rw [cons_append, List.cons.injEq] at split
            rw [append_cons, ← split.1]
            exact every b d a split.2
      rw [all, append_cons before c later]
      exact ih holds'
    · refine .inr ⟨fun every => short ?_, ?_⟩
      · have first := every [] c later rfl
        rwa [append_nil] at first
      · rw [refused]
        rfl

theorem allWrites_inside (holds : Holds parts front before buf) (cookies : List Cookie) :
    ∀ w ∈ allWrites parts buf cookies, w.end' ≤ w.buf.alloc := by
  induction cookies generalizing before buf with
  | nil => exact fun w member => absurd member not_mem_nil
  | cons c later ih =>
    intro w member
    rw [allWrites, mem_append] at member
    rcases member with first | others
    · exact writes_inside (room_reserve holds.room c) (parts c) w first
    · rcases concat_fits holds c with ⟨-, buf', wrote, holds'⟩ | ⟨-, refused⟩
      · rw [wrote] at others
        exact ih holds' w others
      · rw [refused] at others
        exact absurd others not_mem_nil

end Runs

/-- The calls of `snprintf` in `get_netscape_cookie`. -/
def netscapeWrites (cookies : List Cookie) : List Write := allWrites netscapeParts { alloc := 4096 } cookies

/-- The text that `get_rfc2965_cookie` begins with. -/
def versionText (version : Nat) : List UInt8 := lit "$Version=" ++ decimal version

/-- The calls of `snprintf` in `get_rfc2965_cookie`. -/
def rfc2965Writes (version : Nat) (cookies : List Cookie) : List Write :=
  ⟨{ alloc := 4096 }, versionText version⟩ ::
    (({ alloc := 4096 } : Buffer).append (versionText version)).elim [] (allWrites rfc2965Parts · cookies)

/-- `get_netscape_cookie` returns all the cookies in order, and never writes past its buffer. -/
def NetscapeExact (cookies : List Cookie) : Prop :=
  getNetscapeCookie cookies = some ((lit "; ").intercalate (cookies.map netscapeText)) ∧
    ∀ w ∈ netscapeWrites cookies, w.end' ≤ w.buf.alloc

/-- `get_rfc2965_cookie` returns the version and all the cookies in order, and never writes past its buffer. -/
def Rfc2965Exact (version : Nat) (cookies : List Cookie) : Prop :=
  getRfc2965Cookie version cookies =
      some ((lit "; ").intercalate (versionText version :: cookies.map rfc2965Text)) ∧
    ∀ w ∈ rfc2965Writes version cookies, w.end' ≤ w.buf.alloc

theorem concatNetscapeCookie_eq (buf : Buffer) (c : Cookie) :
    concatNetscapeCookie buf c = concat netscapeParts buf c := by
  rw [concatNetscapeCookie, concat, netscapeParts]
  simp only [foldlM_cons, foldlM_nil, bind_eq_bind, Option.pure_def, bind_fun_some]

theorem concatRfc2965Cookie_eq (buf : Buffer) (c : Cookie) : concatRfc2965Cookie buf c = concat rfc2965Parts buf c := by
  rw [concatRfc2965Cookie, concat, rfc2965Parts]
  rcases c.pathFromSet <;> rcases c.domainFromSet <;>
    simp only [List.foldlM_append, foldlM_cons, foldlM_nil, bind_eq_bind, Option.pure_def,
      bind_fun_some, if_true, if_false, Bool.false_eq_true, bind_some, Option.bind_assoc]

theorem decimal_length {n : Nat} (narrow : n < 2 ^ 31) : (decimal n).length ≤ 10 := by
  rw [decimal]
  split
  · decide
  · rw [length_map, length_reverse, Nat.digits_length_le_iff (by decide)]
    exact Nat.lt_trans narrow (by decide)

theorem intercalate_cons (first : List UInt8) (texts : List (List UInt8)) :
    (lit "; ").intercalate (first :: texts) = first ++ texts.flatMap (lit "; " ++ ·) := by
  induction texts generalizing first with
  | nil => rw [intercalate_singleton, flatMap_nil, append_nil]
  | cons text later ih =>
    rw [intercalate_cons_cons, ih, flatMap_cons]
    simp only [append_assoc]

theorem bytes_eq {parts : Cookie → List (List UInt8)} {text : Cookie → List UInt8}
    (separated : ∀ c, (parts c).flatten = lit "; " ++ text c) (cookies : List Cookie) :
    bytes parts cookies = (cookies.map text).flatMap (lit "; " ++ ·) := by
  rw [bytes, flatMap_map]
  exact flatMap_congr fun c _ => separated c

theorem netscape_separated (c : Cookie) : (netscapeParts c).flatten = lit "; " ++ netscapeText c := rfl

theorem rfc2965_separated (c : Cookie) : (rfc2965Parts c).flatten = lit "; " ++ rfc2965Text c := rfl

theorem holds_start {parts : Cookie → List (List UInt8)} {front : List UInt8} (short : front.length + 1 < 4096) :
    Holds parts front [] { alloc := 4096, text := front } where
  text := (append_nil front).symm
  room := short
  alloc := by
    intro n
    refine ⟨fun less => .inl less, ?_⟩
    rintro (less | ⟨before', d, after, split, -⟩)
    · exact less
    · exact absurd split.symm (append_ne_nil_of_right_ne_nil before' (cons_ne_nil d after))

theorem getNetscapeCookie_cases (some' : cookies ≠ []) :
    (Fits netscapeParts [] cookies ∧
      getNetscapeCookie cookies = some ((lit "; ").intercalate (cookies.map netscapeText))) ∨
    (¬Fits netscapeParts [] cookies ∧ getNetscapeCookie cookies = none) := by
  have same : getNetscapeCookie cookies = (cookies.foldlM (concat netscapeParts) { alloc := 4096 }).bind
      (fun buf => if buf.used ≤ 2 then none else some (buf.text.drop 2)) := by
    rw [getNetscapeCookie, funext fun buf => funext (concatNetscapeCookie_eq buf)]
    rfl
  obtain ⟨c, later, rfl⟩ := exists_cons_of_ne_nil some'
  rw [same]
  have start : Holds netscapeParts [] [] { alloc := 4096 } := holds_start (by decide)
  rcases foldlM_concat start (c :: later) with ⟨fits, buf, wrote, holds⟩ | ⟨short, refused⟩
  · refine .inl ⟨fits, ?_⟩
    have text := holds.text
    rw [nil_append, nil_append, bytes_eq netscape_separated, map_cons, flatMap_cons,
      append_assoc, ← intercalate_cons] at text
    have long : ¬buf.used ≤ 2 := by
      have separator : (lit "; ").length = 2 := rfl
      have name : 0 < ((lit "; ").intercalate (netscapeText c :: later.map netscapeText)).length := by
        rw [intercalate_cons, length_append]
        refine Nat.add_pos_left ?_ _
        simp only [netscapeText, netscapeParts, flatten_cons, append_assoc, length_drop,
          length_append, separator, show (lit "=").length = 1 from rfl]
        omega
      rw [Buffer.used, text, length_append, separator]
      omega
    rw [wrote, bind_some, if_neg long, text]
    rfl
  · refine .inr ⟨short, ?_⟩
    rw [refused]
    rfl

theorem netscapeExact_iff (some' : cookies ≠ []) : NetscapeExact cookies ↔ Fits netscapeParts [] cookies := by
  have start : Holds netscapeParts [] [] { alloc := 4096 } := holds_start (by decide)
  have inside := allWrites_inside start cookies
  rcases getNetscapeCookie_cases some' with ⟨fits, whole⟩ | ⟨short, refused⟩
  · exact iff_of_true ⟨whole, inside⟩ fits
  · refine iff_of_false ?_ short
    rintro ⟨whole, -⟩
    rw [refused] at whole
    cases whole

theorem rfc2965Exact_iff {version : Nat} (narrow : version < 2 ^ 31) (cookies : List Cookie) :
    Rfc2965Exact version cookies ↔ Fits rfc2965Parts (versionText version) cookies := by
  have length : (versionText version).length ≤ 19 := by
    rw [versionText, length_append, show (lit "$Version=").length = 9 from rfl]
    have digits := decimal_length narrow
    omega
  have start : Holds rfc2965Parts (versionText version) [] { alloc := 4096, text := versionText version } :=
    holds_start (by omega)
  have first : ({ alloc := 4096 } : Buffer).append (versionText version) =
      some { alloc := 4096, text := versionText version } := by
    rw [append_eq, if_pos]
    · rfl
    · simp only [Buffer.used, length_nil]
      omega
  have same : getRfc2965Cookie version cookies =
      (cookies.foldlM (concat rfc2965Parts) { alloc := 4096, text := versionText version }).map Buffer.text := by
    rw [getRfc2965Cookie, funext fun buf => funext (concatRfc2965Cookie_eq buf)]
    change (({ alloc := 4096 } : Buffer).append (versionText version)).bind _ = _
    rw [first, bind_some, map_eq_bind]
    rfl
  have inside : ∀ w ∈ rfc2965Writes version cookies, w.end' ≤ w.buf.alloc := by
    intro w member
    rw [rfc2965Writes, first, mem_cons] at member
    rcases member with rfl | others
    · have room : Buffer.used { alloc := 4096 } < 4096 := by decide
      exact writes_inside room [versionText version] _ mem_cons_self
    · exact allWrites_inside start cookies w others
  rw [Rfc2965Exact, same]
  rcases foldlM_concat start cookies with ⟨fits, buf, wrote, holds⟩ | ⟨short, refused⟩
  · refine iff_of_true ⟨?_, inside⟩ fits
    rw [wrote, map_some, holds.text, nil_append, bytes_eq rfc2965_separated, ← intercalate_cons]
  · refine iff_of_false ?_ short
    rw [refused]
    rintro ⟨none, -⟩
    cases none

/-- Both headers are the list of all the cookies in order, and are written inside their buffers, exactly where every
cookie fits. -/
theorem headers_exact_iff (cookies : List Cookie) (some' : cookies ≠ []) :
    (NetscapeExact cookies ↔ Fits netscapeParts [] cookies) ∧
      ∀ version < 2 ^ 31, Rfc2965Exact version cookies ↔ Fits rfc2965Parts (versionText version) cookies :=
  ⟨netscapeExact_iff some', fun _ narrow => rfc2965Exact_iff narrow cookies⟩

theorem fits_of_short {parts : Cookie → List (List UInt8)} {front : List UInt8}
    (short : (front ++ bytes parts cookies).length + 1 < 4096) : Fits parts front cookies := by
  rintro before c after rfl
  left
  have split : bytes parts (before ++ c :: after) = bytes parts (before ++ [c]) ++ bytes parts after := by
    rw [append_cons, bytes, flatMap_append]
    rfl
  rw [split, ← append_assoc, length_append] at short
  omega

theorem fits_single {parts : Cookie → List (List UInt8)} {front : List UInt8} {c : Cookie}
    (fits : Fits parts front [c]) : (front ++ (parts c).flatten).length + 1 < 4096 ∨
      (((front ++ (parts c).flatten).length + 1 : Nat) : Int) < narrow (maxLen (front.length + 1) c) := by
  have single : bytes parts ([] ++ [c]) = (parts c).flatten := flatMap_singleton _ c
  have none : bytes parts [] = [] := rfl
  rcases fits [] c [] rfl with first | ⟨before', d, after, split, less⟩
  · rw [single] at first
    exact .inl first
  · rcases snoc_split.mp split with ⟨rfl, rfl, -⟩ | ⟨after', -, split'⟩
    · rw [single, need, none, append_nil] at less
      exact .inr less
    · exact absurd split'.symm (append_ne_nil_of_right_ne_nil before' (cons_ne_nil d after'))

/-- A cookie without attributes, as it is read from a header. -/
def plainCookie (name value : List UInt8) (valueWasQuoted : Bool) : Cookie where
  name := name
  value := value
  valueWasQuoted := valueWasQuoted
  comment := none
  domainFromSet := false
  domain := lit "example.org"
  pathFromSet := false
  path := lit "/"
  expires := -1
  lastUsed := 0
  secure := false
  httpOnly := false
  version := 0
  noDestroy := false

theorem headers_exact_of_two :
    NetscapeExact [plainCookie (lit "a") (lit "1") false, plainCookie (lit "b") (lit "2") true] ∧
      Rfc2965Exact 1 [plainCookie (lit "a") (lit "1") false, plainCookie (lit "b") (lit "2") true] := by
  have exact :=
    headers_exact_iff [plainCookie (lit "a") (lit "1") false, plainCookie (lit "b") (lit "2") true] (cons_ne_nil _ _)
  exact ⟨exact.1.mpr (fits_of_short (by decide)), (exact.2 1 (by decide)).mpr (fits_of_short (by decide))⟩

def longValue : List UInt8 := List.replicate 4090 (ch 'x')

/-- It fills its buffer to the end. -/
theorem long_value_dropped :
    getNetscapeCookie [plainCookie (lit "n") longValue true] = none ∧
      ¬NetscapeExact [plainCookie (lit "n") longValue true] ∧ ¬Rfc2965Exact 1 [plainCookie (lit "n") longValue true] := by
  have value : longValue.length = 4090 := length_replicate
  have some' : [plainCookie (lit "n") longValue true] ≠ [] := cons_ne_nil _ _
  have name : (lit "; " ++ lit "n" ++ lit "=").length = 4 := rfl
  have quoted : (quote longValue).length = 4092 := by
    rw [quote, length_append, length_append, value]
    rfl
  have needs : ∀ used, maxLen used (plainCookie (lit "n") longValue true) = used + 4096 := by
    intro used
    simp only [maxLen, plainCookie, value, show (lit "n").length = 1 from rfl, Bool.false_eq_true, if_false]
  have netscape : ((netscapeParts (plainCookie (lit "n") longValue true)).flatten).length = 4096 := by
    simp only [netscapeParts, plainCookie, if_true, flatten_cons, flatten_nil, append_nil]
    rw [length_append, name, quoted]
  have rfc2965 : ((rfc2965Parts (plainCookie (lit "n") longValue true)).flatten).length = 4096 := by
    simp only [rfc2965Parts, plainCookie, Bool.true_or, if_true, Bool.false_eq_true, if_false, append_nil,
      flatten_cons, flatten_nil]
    rw [length_append, name, quoted]
  have short : ¬Fits netscapeParts [] [plainCookie (lit "n") longValue true] := by
    intro fits
    have single := fits_single fits
    rw [nil_append, netscape, needs] at single
    revert single
    decide
  refine ⟨?_, fun exact => short ((netscapeExact_iff some').mp exact), fun exact => ?_⟩
  · rcases getNetscapeCookie_cases some' with ⟨fits, -⟩ | ⟨-, refused⟩
    · exact absurd fits short
    · exact refused
  · have single := fits_single ((rfc2965Exact_iff (by decide) _).mp exact)
    rw [length_append, rfc2965, needs, show (versionText 1).length = 10 by decide] at single
    revert single
    decide

end Besra.CookieHeader
