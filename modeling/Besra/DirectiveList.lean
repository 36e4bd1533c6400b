import Besra.StrictTransportSecurity

/-!
Lists of HTTP directives, with what may stand between them, and what the list parser of
`netsurf/utils/http` makes of them: all directives, in whatever order, as long as the list
does not begin with an empty element and no quoted string has an escaped character.
-/
namespace Besra.DirectiveList
open Lwc NsurlParse StrictTransportSecurity List

/-- `*LWS` on one line. -/
structure Blanks where
  text : List UInt8
  blank : ∀ c ∈ text, c = ch ' ' ∨ c = 0x09

structure Token where
  text : LwcString
  chars : ∀ c ∈ text, isTokenChar c = true
  nonempty : text ≠ []

/-- `qdtext` or `quoted-pair` -/
inductive Piece where
  | qdtext (c : UInt8) (valid : isQuotedChar c = true)
  | quotedPair (c : UInt8) (char : 0 < c ∧ c < 128)

def Piece.text : Piece → List UInt8
  | .qdtext c _ => [c]
  | .quotedPair c _ => [ch '\\', c]

def Piece.char : Piece → UInt8
  | .qdtext c _ => c
  | .quotedPair c _ => c

/-- `token | quoted-string` -/
inductive Value where
  | token (t : Token)
  | quotedString (pieces : List Piece)

def Value.text : Value → List UInt8
  | .token t => t.text
  | .quotedString pieces => ch '"' :: pieces.flatMap Piece.text ++ [ch '"']

def Value.string : Value → LwcString
  | .token t => t.text
  | .quotedString pieces => pieces.map Piece.char

/-- `token [ "=" ( token | quoted-string ) ]`, with white space around the equals sign. -/
structure Written where
  name : Token
  value : Option (Blanks × Blanks × Value)

def Written.text (d : Written) : List UInt8 :=
  match d.value with
  | none => d.name.text
  | some (before, after, value) => d.name.text ++ before.text ++ ch '=' :: after.text ++ value.text

def Written.directive (d : Written) : Directive := ⟨d.name.text, d.value.map (fun v => v.2.2.string)⟩

/-- An element of a list, with white space around it; it may be empty. -/
structure Element where
  before : Blanks
  written : Option (Written × Blanks)

def Element.text (e : Element) : List UInt8 :=
  e.before.text ++ e.written.elim [] (fun w => w.1.text ++ w.2.text)

/-- A list with a directive, behind any number of empty elements. -/
structure Header where
  skipped : List Blanks
  before : Blanks
  first : Written
  after : Blanks
  more : List Element

def Header.text (separator : UInt8) (h : Header) : List UInt8 :=
  h.skipped.flatMap (fun b => b.text ++ [separator]) ++
    (h.before.text ++ (h.first.text ++ (h.after.text ++ h.more.flatMap (fun e => separator :: e.text))))

/-- All directives, as they are written. -/
def Header.written (h : Header) : List Written := h.first :: h.more.filterMap (fun e => e.written.map Prod.fst)

def Header.directives (h : Header) : List Directive := h.written.map Written.directive

/-- No character of a quoted string is escaped. -/
def Value.Unescaped : Value → Prop
  | .token _ => True
  | .quotedString pieces => ∀ p ∈ pieces, ∃ c valid, p = .qdtext c valid

def Written.Unescaped (d : Written) : Prop := ∀ v, d.value = some v → v.2.2.Unescaped

def Header.Unescaped (h : Header) : Prop := ∀ d ∈ h.written, d.Unescaped

theorem skipLws_append (b : Blanks) (s : List UInt8) : skipLws (b.text ++ s) = skipLws s := by
  rw [skipLws, dropWhile_append_of_pos]
  · rfl
  · exact fun c member => decide_eq_true (b.blank c member)

def Solid (s : List UInt8) : Prop := ∀ c, s.head? = some c → ¬(c = ch ' ' ∨ c = 0x09)

variable {s : List UInt8} {c : UInt8}

theorem skipLws_solid (solid : Solid s) : skipLws s = s := by
  rcases s with _ | ⟨c, s⟩
  · rfl
  · rw [skipLws, dropWhile_cons_of_neg]
    simpa using solid c rfl

theorem isTokenChar_blank (blank : c = ch ' ' ∨ c = 0x09) : isTokenChar c = false := by
  rcases blank with rfl | rfl <;> rfl

theorem solid_of_token (token : isTokenChar c = true) (s : List UInt8) : Solid (c :: s) := by
  intro d first blank
  cases first
  rw [isTokenChar_blank blank] at token
  cases token

/-- The text goes on with no character of a token. -/
def Ended (s : List UInt8) : Prop := ∀ c, s.head? = some c → isTokenChar c = false

theorem ended_blanks (b : Blanks) (ended : Ended s) : Ended (b.text ++ s) := by
  rintro c first
  rcases text : b.text with _ | ⟨d, rest⟩
  · rw [text] at first
    exact ended c first
  · rw [text] at first
    cases first
    exact isTokenChar_blank (b.blank c (by rw [text]; exact mem_cons_self))

theorem parseToken_append (t : Token) (ended : Ended s) : parseToken (t.text ++ s) = some (t.text, s) := by
  have none' : s.takeWhile isTokenChar = [] ∧ s.dropWhile isTokenChar = s := by
    rcases s with _ | ⟨c, s⟩
    · exact ⟨rfl, rfl⟩
    · have other := ended c rfl
      exact ⟨takeWhile_cons_of_neg (by simp [other]), dropWhile_cons_of_neg (by simp [other])⟩
  rw [parseToken, takeWhile_append_of_pos t.chars, dropWhile_append_of_pos t.chars, none'.1, none'.2, append_nil]
  have nonempty := t.nonempty
  split
  · contradiction
  · rfl

theorem parseQuotedString_append {text : List UInt8} (valid : ∀ c ∈ text, isQuotedChar c = true) (s : List UInt8) :
    parseQuotedString (ch '"' :: text ++ [ch '"'] ++ s) = some (text, s) := by
  have stop : isQuotedChar (ch '"') = false := rfl
  have shape : ch '"' :: text ++ [ch '"'] ++ s = ch '"' :: (text ++ ch '"' :: s) := by simp
  rw [shape, parseQuotedString, if_neg (by simp), takeWhile_append_of_pos valid, dropWhile_append_of_pos valid,
    takeWhile_cons_of_neg (by simp [stop]), dropWhile_cons_of_neg (by simp [stop]), append_nil]
  rfl

theorem unescaped_text {pieces : List Piece} (unescaped : ∀ p ∈ pieces, ∃ c valid, p = .qdtext c valid) :
    pieces.flatMap Piece.text = pieces.map Piece.char ∧ ∀ c ∈ pieces.map Piece.char, isQuotedChar c = true := by
  induction pieces with
  | nil => exact ⟨rfl, fun _ member => absurd member not_mem_nil⟩
  | cons p pieces ih =>
    obtain ⟨same, valid⟩ := ih (fun q member => unescaped q (mem_cons_of_mem _ member))
    obtain ⟨c, quoted, rfl⟩ := unescaped p mem_cons_self
    rw [flatMap_cons, map_cons, same]
    refine ⟨rfl, fun d member => ?_⟩
    rcases mem_cons.mp member with rfl | later
    · exact quoted
    · exact valid d later

structure Separates (separator : UInt8) : Prop where
  token : isTokenChar separator = false
  solid : ¬(separator = ch ' ' ∨ separator = 0x09)
  equals : separator ≠ ch '='
  nonzero : separator ≠ 0

variable {separator : UInt8}

def Next (separator : UInt8) (s : List UInt8) : Prop := s = [] ∨ ∃ rest, s = separator :: rest

theorem Next.solid (next : Next separator s) (separates : Separates separator) : Solid s := by
  intro c first
  rcases next with rfl | ⟨rest, rfl⟩
  · cases first
  · cases first
    exact separates.solid

theorem Next.ended {s : List UInt8} (next : Next separator s) (separates : Separates separator) : Ended s := by
  intro c first
  rcases next with rfl | ⟨rest, rfl⟩
  · cases first
  · cases first
    exact separates.token

theorem Next.notEquals (next : Next separator s) (separates : Separates separator) : byteAt s 0 ≠ ch '=' := by
  rcases next with rfl | ⟨rest, rfl⟩
  · decide
  · exact separates.equals

theorem parseValue_append {value : Value} (unescaped : value.Unescaped) (ended : Ended s) :
    (if byteAt (value.text ++ s) 0 = ch '"' then parseQuotedString (value.text ++ s)
      else parseToken (value.text ++ s)) = some (value.string, s) ∧ Solid (value.text ++ s) := by
  rcases value with t | pieces
  · obtain ⟨c, rest, text⟩ := exists_cons_of_ne_nil t.nonempty
    have token := t.chars c (by rw [text]; exact mem_cons_self)
    have plain : byteAt ((Value.token t).text ++ s) 0 ≠ ch '"' := by
      rw [Value.text, text]
      intro same
      change c = ch '"' at same
      rw [same] at token
      cases token
    rw [if_neg plain]
    refine ⟨parseToken_append t ended, ?_⟩
    rw [Value.text, text]
    exact solid_of_token token _
  · obtain ⟨same, valid⟩ := unescaped_text unescaped
    have quote : byteAt ((Value.quotedString pieces).text ++ s) 0 = ch '"' := rfl
    rw [if_pos quote, Value.text, same]
    refine ⟨parseQuotedString_append valid s, ?_⟩
    intro c first
    cases first
    decide

theorem parseDirective_append {d : Written} (unescaped : d.Unescaped) (after : Blanks)
    (separates : Separates separator) (next : Next separator s) :
    ∃ rest, parseDirective (d.text ++ (after.text ++ s)) = some (d.directive, rest) ∧ skipLws rest = s := by
  have solid := next.solid separates
  rcases d with ⟨name, _ | ⟨before, behind, value⟩⟩
  · refine ⟨s, ?_, skipLws_solid solid⟩
    rw [Written.text, parseDirective, parseToken_append name (ended_blanks after (next.ended separates))]
    simp only [Option.bind_eq_bind, Option.bind_some]
    rw [skipLws_append, skipLws_solid solid, if_neg (next.notEquals separates)]
    rfl
  · obtain ⟨read, solid'⟩ := parseValue_append (unescaped _ rfl) (ended_blanks after (next.ended separates))
    have equals : Ended (ch '=' :: (behind.text ++ (value.text ++ (after.text ++ s)))) := by
      intro c first
      cases first
      rfl
    have solidEquals : Solid (ch '=' :: (behind.text ++ (value.text ++ (after.text ++ s)))) := by
      intro c first
      cases first
      decide
    have shape : Written.text ⟨name, some (before, behind, value)⟩ ++ (after.text ++ s) =
        name.text ++ (before.text ++ ch '=' :: (behind.text ++ (value.text ++ (after.text ++ s)))) := by
      simp [Written.text]
    refine ⟨after.text ++ s, ?_, by rw [skipLws_append, skipLws_solid solid]⟩
    rw [shape, parseDirective, parseToken_append name (ended_blanks before equals)]
    simp only [Option.bind_eq_bind, Option.bind_some]
    have here : byteAt (ch '=' :: (behind.text ++ (value.text ++ (after.text ++ s)))) 0 = ch '=' := rfl
    rw [skipLws_append, skipLws_solid solidEquals, if_pos here, tail_cons, skipLws_append, skipLws_solid solid']
    split at read
    next quote =>
      rw [if_pos quote, read]
      rfl
    next plain =>
      rw [if_neg plain, read]
      rfl

theorem parseDirective_none (separates : Separates separator) (next : Next separator s) : parseDirective s = none := by
  have none' : parseToken s = none := by
    rcases next with rfl | ⟨rest, rfl⟩
    · rfl
    · rw [parseToken, takeWhile_cons_of_neg (by simp [separates.token])]
  rw [parseDirective, none']
  rfl

theorem next_more (more : List Element) : Next separator (more.flatMap (fun e => separator :: e.text)) := by
  rcases more with _ | ⟨e, more⟩
  · exact .inl rfl
  · exact .inr ⟨e.text ++ more.flatMap (fun e => separator :: e.text), rfl⟩

theorem solid_written (d : Written) (s : List UInt8) : Solid (d.text ++ s) := by
  obtain ⟨name, value⟩ := d
  obtain ⟨c, rest, first⟩ := exists_cons_of_ne_nil name.nonempty
  have token := name.chars c (by rw [first]; exact mem_cons_self)
  rcases value with _ | ⟨before, behind, value⟩
  · rw [Written.text, first]
    exact solid_of_token token _
  · simp only [Written.text, first, cons_append]
    exact solid_of_token token _

theorem itemListParse_more (separates : Separates separator) {more : List Element}
    (unescaped : ∀ e ∈ more, ∀ w, e.written = some w → w.1.Unescaped) (list : List Directive) {fuel : Nat}
    (enough : more.length ≤ fuel) :
    itemListParse separator fuel list (more.flatMap (fun e => separator :: e.text)) =
      (more.filterMap (fun e => e.written.map (fun w => w.1.directive))).reverse ++ list := by
  induction more generalizing list fuel with
  | nil => cases fuel <;> rfl
  | cons e more ih =>
    obtain ⟨fuel, rfl⟩ := Nat.exists_eq_succ_of_ne_zero (Nat.ne_of_gt (Nat.lt_of_lt_of_le (Nat.succ_pos _) enough))
    have next : Next separator (more.flatMap (fun e => separator :: e.text)) := next_more more
    have ih := fun list => ih (fun e' member => unescaped e' (mem_cons_of_mem _ member)) list
      (Nat.le_of_succ_le_succ enough)
    rw [flatMap_cons, cons_append, itemListParse, if_neg (by simp)]
    obtain ⟨before, _ | ⟨d, after⟩⟩ := e
    · have text : Element.text ⟨before, none⟩ = before.text := by simp [Element.text]
      rw [text, skipLws_append, skipLws_solid (next.solid separates), parseDirective_none separates next]
      rw [ih]
      rfl
    · have text : Element.text ⟨before, some (d, after)⟩ = before.text ++ (d.text ++ after.text) := by simp [Element.text]
      obtain ⟨rest, read, left⟩ := parseDirective_append (unescaped _ mem_cons_self _ rfl) after separates next
      rw [text, append_assoc, append_assoc, skipLws_append, skipLws_solid (solid_written d _), read]
      simp only
      rw [left, ih]
      simp

def readDirectives (separator : UInt8) (s : List UInt8) : Option (List Directive) := do
  let (first, s) ← parseDirective (skipLws s)
  let s := skipLws s
  return if byteAt s 0 = separator then itemListParse separator s.length [first] s else [first]

theorem length_le_flatMap (more : List Element) : more.length ≤ (more.flatMap (fun e => separator :: e.text)).length := by
  induction more with
  | nil => exact Nat.le_refl _
  | cons e more ih =>
    rw [flatMap_cons, length_append, length_cons, length_cons]
    omega

theorem readDirectives_text (separates : Separates separator) {h : Header} (unescaped : h.Unescaped) :
    readDirectives separator (h.text separator) = if h.skipped = [] then some h.directives.reverse else none := by
  obtain ⟨skipped, before, first, after, more⟩ := h
  rcases skipped with _ | ⟨b, skipped⟩
  · have unescapedMore : ∀ e ∈ more, ∀ w, e.written = some w → w.1.Unescaped := by
      intro e member w written
      refine unescaped w.1 (mem_cons_of_mem _ (mem_filterMap.mpr ⟨e, member, ?_⟩))
      rw [written]
      rfl
    obtain ⟨rest, read, left⟩ := parseDirective_append (unescaped first mem_cons_self) after separates (next_more more)
    have text : Header.text separator ⟨[], before, first, after, more⟩ =
        before.text ++ (first.text ++ (after.text ++ more.flatMap (fun e => separator :: e.text))) := rfl
    have directives : Header.directives ⟨[], before, first, after, more⟩ =
        first.directive :: more.filterMap (fun e => e.written.map (fun w => w.1.directive)) := by
      simp only [Header.directives, Header.written, map_cons, map_filterMap, Option.map_map]
      rfl
    rw [if_pos rfl, text, readDirectives, skipLws_append, skipLws_solid (solid_written first _), read, directives,
      reverse_cons]
    simp only [Option.bind_eq_bind, Option.bind_some]
    rw [left, ← itemListParse_more separates unescapedMore [first.directive] (@length_le_flatMap separator more)]
    rcases more with _ | ⟨e, more⟩
    · rw [if_neg (by exact separates.nonzero.symm)]
      rfl
    · have here : byteAt ((e :: more).flatMap (fun e => separator :: e.text)) 0 = separator := rfl
      rw [if_pos here]
      rfl
  · have next : Next separator (separator :: (skipped.flatMap (fun b => b.text ++ [separator]) ++
        (before.text ++ (first.text ++ (after.text ++ more.flatMap (fun e => separator :: e.text)))))) := .inr ⟨_, rfl⟩
    have text : Header.text separator ⟨b :: skipped, before, first, after, more⟩ =
        b.text ++ separator :: (skipped.flatMap (fun b => b.text ++ [separator]) ++
          (before.text ++ (first.text ++ (after.text ++ more.flatMap (fun e => separator :: e.text))))) := by
      simp [Header.text]
    rw [if_neg (by simp), text, readDirectives, skipLws_append, skipLws_solid (next.solid separates),
      parseDirective_none separates next]
    rfl

end Besra.DirectiveList
