import Besra.Dom

/-!
Selectors and the matching of one compound selector, from `match_details` and
`match_detail` in `libcss/src/select/select.c`.
-/
namespace Besra.Selector
open Lwc Dom

/-- `css_selector_type`; the tests of an attribute's value are one constructor. -/
inductive DetailType where
  | element
  | cls
  | id
  | pseudoClass
  | pseudoElement
  | attribute
  | attributeValue (test : AttributeTest)
deriving DecidableEq

/-- `css_selector_detail`, without the fields that join it to others. -/
structure Detail where
  type : DetailType
  qname : Qname
  string : LwcString := []
  a : Int := 0
  b : Int := 0
  negate : Bool := false
deriving DecidableEq

/-- `css_combinator`, without NONE. -/
inductive Combinator where
  | ancestor
  | parent
  | sibling
  | genericSibling
deriving DecidableEq

/-- A compound selector: the name of its element detail, which is always first, and the details
after it. Among these the parser makes an element detail only for the inside of `:not()`. -/
structure Compound where
  name : Qname
  details : List Detail
  elements_negated : ∀ d ∈ details, d.type = .element → d.negate = true

/-- A selector chain from its subject on: `s`, `s->data.comb` and `s->combinator`. -/
inductive Chain where
  | last (compound : Compound)
  | step (compound : Compound) (comb : Combinator) (rest : Chain)

def Chain.head : Chain → Compound
  | .last compound => compound
  | .step compound _ _ => compound

/-- The name is that of the universal selector. -/
def Compound.isUniversal (c : Compound) : Bool := isEqual c.name.name (lit "*")

/-- `css_pseudo_element` -/
inductive PseudoElement where
  | none
  | firstLine
  | firstLetter
  | before
  | after
deriving DecidableEq

/-- `match_nth`; its numbers are `int32_t`, and so is the difference. -/
def matchNth (a b count : Int) : Bool :=
  if a = 0 then count = b
  else
    let delta := (count - b).bmod 4294967296
    if (decide (0 < delta) = decide (0 < a)) ∨ delta = 0 then Int.tmod delta a = 0 else false

variable {ν : Type} (client : Client ν) (n : ν)

/-- The number of siblings before an element or, with `after`, behind it. -/
def position (sameName after : Bool) : Int := client.nodeCountSiblings n sameName after

/-- The pseudo classes of `match_detail`. The structural ones are not those of the root. -/
def matchPseudoClass (d : Detail) : Bool :=
  let isRoot := client.nodeIsRoot n
  let name := d.qname.name
  if isRoot = false ∧ name = lit "first-child" then position client n false false = 0
  else if isRoot = false ∧ name = lit "nth-child" then matchNth d.a d.b (position client n false false + 1)
  else if isRoot = false ∧ name = lit "nth-last-child" then matchNth d.a d.b (position client n false true + 1)
  else if isRoot = false ∧ name = lit "nth-of-type" then matchNth d.a d.b (position client n true false + 1)
  else if isRoot = false ∧ name = lit "nth-last-of-type" then matchNth d.a d.b (position client n true true + 1)
  else if isRoot = false ∧ name = lit "last-child" then position client n false true = 0
  else if isRoot = false ∧ name = lit "first-of-type" then position client n true false = 0
  else if isRoot = false ∧ name = lit "last-of-type" then position client n true true = 0
  else if isRoot = false ∧ name = lit "only-child" then
    position client n false false = 0 ∧ position client n false true = 0
  else if isRoot = false ∧ name = lit "only-of-type" then
    position client n true false = 0 ∧ position client n true true = 0
  else if name = lit "root" then isRoot
  else if name = lit "empty" then client.nodeIsEmpty n
  else if name = lit "link" then client.nodeIsLink n
  else if name = lit "visited" then client.nodeIsVisited n
  else if name = lit "hover" then client.nodeIsHover n
  else if name = lit "active" then client.nodeIsActive n
  else if name = lit "focus" then client.nodeIsFocus n
  else if name = lit "target" then client.nodeIsTarget n
  else if name = lit "lang" then client.nodeIsLang n d.string
  else if name = lit "enabled" then client.nodeIsEnabled n
  else if name = lit "disabled" then client.nodeIsDisabled n
  else if name = lit "checked" then client.nodeIsChecked n
  else false

/-- The pseudo elements that `match_detail` knows. -/
def pseudoElement (name : LwcString) : Option PseudoElement :=
  if name = lit "first-line" then some .firstLine
  else if name = lit "first-letter" then some .firstLetter
  else if name = lit "before" then some .before
  else if name = lit "after" then some .after
  else none

/-- `match_detail`, before the inversion. An element detail is only tested inside `:not()`. -/
def matchPositive (d : Detail) : Bool :=
  match d.type with
  | .element => if d.negate then client.nodeHasName n d.qname else true
  | .cls => client.nodeHasClass n d.qname.name
  | .id => client.nodeHasId n d.qname.name
  | .pseudoClass => matchPseudoClass client n d
  | .pseudoElement => (pseudoElement d.qname.name).isSome
  | .attribute => client.nodeHasAttribute n d.qname
  | .attributeValue test => client.nodeHasAttributeValue test n d.qname d.string

def matchDetail (d : Detail) : Bool := matchPositive client n d != d.negate

def nextPseudo (pseudo : PseudoElement) (d : Detail) : PseudoElement :=
  match d.type with
  | .pseudoElement => (pseudoElement d.qname.name).getD pseudo
  | _ => pseudo

/-- The flags of `css_node_flags` that keep a style from being shared. -/
@[ext] structure Taints where
  pseudoClass : Bool := false
  attr : Bool := false
  sibling : Bool := false
deriving DecidableEq

def Taints.union (s t : Taints) : Taints where
  pseudoClass := s.pseudoClass || t.pseudoClass
  attr := s.attr || t.attr
  sibling := s.sibling || t.sibling

/-- The pseudo classes whose state is compared when a style is shared, so that they do not taint. -/
def comparedPseudoClasses : List LwcString := [lit "link", lit "visited", lit "hover", lit "active", lit "focus"]

def detailTaint (d : Detail) : Taints :=
  match d.type with
  | .pseudoClass => { pseudoClass := !comparedPseudoClasses.contains d.qname.name }
  | .attribute => { attr := true }
  | .attributeValue _ => { attr := true }
  | _ => {}

/-- `match_details` after the element detail: the details up to the first that fails, with the
pseudo element and the flags of those tested. -/
def matchDetails : List Detail → PseudoElement → Bool × PseudoElement × Taints
  | [], pseudo => (true, pseudo, {})
  | d :: rest, pseudo =>
    if matchDetail client n d then
      let (matched, pseudo, taints) := matchDetails rest (nextPseudo pseudo d)
      (matched, pseudo, (detailTaint d).union taints)
    else (false, pseudo, detailTaint d)

def detailsHold (c : Compound) : Bool := c.details.all (matchDetail client n)

theorem matchDetails_matched (details : List Detail) (pseudo : PseudoElement) :
    (matchDetails client n details pseudo).1 = details.all (matchDetail client n) := by
  induction details generalizing pseudo with
  | nil => rfl
  | cons d rest ih =>
    by_cases holds : matchDetail client n d = true
    · simp [matchDetails, holds, ih]
    · simp [matchDetails, holds]

end Besra.Selector
