import Besra.DomNode
import Besra.Lwc
import Besra.Trail

/-!
The look-ups of prefixes and namespaces in `libdom/src/core`, which go from a node to its parent through the virtual
functions of the node's type, and when each of them answers as the nearest declaring element does.
-/
namespace Besra.NamespaceLookup
open Lwc Trail DomNode

/-- `dom_attr_list`, with the value of its attribute. -/
structure Attribute where
  ns : Option LwcString
  name : LwcString
  value : LwcString
deriving DecidableEq

/-- What the look-ups read of a node. -/
structure Item where
  type : NodeType
  namePrefix : Option LwcString := none
  ns : Option LwcString := none
  attributes : List Attribute := []

/-- A tree of nodes; the parent of an attribute is the element that has it. -/
structure Names (ν : Type) where
  parents : Links ν
  item : ν → Item
  owned : ∀ {n p : ν}, parents.next n = some p → (item n).type = .attribute → (item p).type = .element
  permitted : ∀ {n p : ν}, parents.next n = some p → (item n).type ≠ .attribute →
    permittedType (item p).type (item n).type = true

variable {ν : Type} (tree : Names ν)

/-- `dom_string_isequal`, for which a string that is missing is empty. -/
def domStringIsequal (s t : Option LwcString) : Bool := s.getD [] == t.getD []

/-- `_dom_element_attr_list_find_by_name` -/
def attrListFindByName (list : List Attribute) (name ns : Option LwcString) : Option Attribute :=
  name.bind fun name => list.find? fun a => a.ns == ns && a.name == name

/-- `_dom_namespace_get_xmlns_prefix` -/
def xmlns : LwcString := lit "xmlns"

/-- `dom_namespaces[DOM_NAMESPACE_XMLNS]` -/
def xmlnsNamespace : LwcString := lit "http://www.w3.org/2000/xmlns/"

/-- `dom_node_lookup_prefix`, in so many calls; none where there is no result. -/
def lookupPrefix : Nat → ν → Option LwcString → Option (Option LwcString)
  | 0, _, _ => none
  | calls + 1, n, ns =>
    match (tree.item n).type with
    -- the table of an element has another function in the place of `dom_attr_get_owner_element`
    | .element => none
    | .attribute =>
      match tree.parents.next n with
      | none => some none
      | some owner => lookupPrefix calls owner ns
    | _ =>
      match tree.parents.next n with
      | some _ => lookupPrefix calls n ns
      | none => some none

/-- `dom_node_is_default_namespace` -/
def isDefaultNamespace : Nat → ν → Option LwcString → Option Bool
  | 0, _, _ => none
  | calls + 1, n, ns =>
    match (tree.item n).type with
    | .element =>
      if (tree.item n).namePrefix = none then some (domStringIsequal (tree.item n).ns ns)
      else
        match attrListFindByName (tree.item n).attributes (some xmlns) none with
        | some a => some (domStringIsequal (some a.value) ns)
        | none =>
          match tree.parents.next n with
          | some parent => isDefaultNamespace calls parent ns
          | none => some false
    | .attribute =>
      match tree.parents.next n with
      | none => some false
      | some owner => isDefaultNamespace calls owner ns
    | _ =>
      match tree.parents.next n with
      | some _ => isDefaultNamespace calls n ns
      | none => some false

/-- `dom_node_lookup_namespace`; the parent of an element is not tested. -/
def lookupNamespace : Nat → ν → Option LwcString → Option (Option LwcString)
  | 0, _, _ => none
  | calls + 1, n, namePrefix =>
    match (tree.item n).type with
    | .element =>
      if (tree.item n).ns.isSome ∧ domStringIsequal (tree.item n).namePrefix namePrefix = true then
        some (tree.item n).ns
      else if (attrListFindByName (tree.item n).attributes namePrefix (some xmlns)).isSome then
        some ((attrListFindByName (tree.item n).attributes namePrefix (some xmlnsNamespace)).map Attribute.value)
      else
        match attrListFindByName (tree.item n).attributes (some xmlns) none with
        | some a => some (some a.value)
        | none => (tree.parents.next n).bind fun parent => lookupNamespace calls parent namePrefix
    | _ =>
      match tree.parents.next n with
      | some parent => lookupNamespace calls parent namePrefix
      | none => some none

def Item.declares (e : Item) (namePrefix : Option LwcString) : Option (Option LwcString) :=
  if e.ns.isSome ∧ domStringIsequal e.namePrefix namePrefix = true then some e.ns
  else
    let declaration :=
      if namePrefix.getD [] = [] then
        e.attributes.find? fun a => (a.ns == none || a.ns == some xmlnsNamespace) && a.name == xmlns
      else attrListFindByName e.attributes namePrefix (some xmlnsNamespace)
    declaration.map fun a => if a.value = [] then none else some a.value

/-- The element's own prefix where that is for a namespace, and the prefixes that it declares for it. -/
def Item.prefixesFor (e : Item) (ns : LwcString) : List LwcString :=
  (if e.ns = some ns then e.namePrefix.toList else []) ++
    (e.attributes.filter fun a => a.ns == some xmlnsNamespace && a.name != xmlns && a.value == ns).map
      Attribute.name

def Names.elements (n : ν) : List Item :=
  ((n :: tree.parents.trail n).map tree.item).filter fun e => e.type = .element

def Names.namespaceOf (n : ν) (namePrefix : Option LwcString) : Option LwcString :=
  ((tree.elements n).findSome? (·.declares namePrefix)).join

/-- The default namespace that an element without a prefix has for its own, or an attribute declares. -/
def Item.defaultNamespace (e : Item) : Option (Option LwcString) :=
  if e.namePrefix = none then some e.ns
  else
    (e.attributes.find? fun a => (a.ns == none || a.ns == some xmlnsNamespace) && a.name == xmlns).map fun a =>
      some a.value

def Names.hasDefault (n : ν) (ns : Option LwcString) : Bool :=
  ((tree.elements n).findSome? (·.defaultNamespace)).any fun own => domStringIsequal own ns

/-- The prefix of a namespace, from the nearest element that declares one that still means it. -/
def Names.prefixOf (n : ν) (ns : Option LwcString) : Option LwcString :=
  ns.bind fun uri =>
    ((tree.elements n).flatMap (·.prefixesFor uri)).find? fun p => tree.namespaceOf n (some p) = some uri

def Item.named (e : Item) (namePrefix : Option LwcString) : Bool :=
  e.ns.isSome && domStringIsequal e.namePrefix namePrefix

/-- The element ends the look-up of a prefix: it is its own one, or it has an attribute of that name in the namespace
`xmlns`, which is no namespace of declarations, or an attribute `xmlns` without a namespace. -/
def Item.stops (e : Item) (namePrefix : Option LwcString) : Bool :=
  e.named namePrefix || (attrListFindByName e.attributes namePrefix (some xmlns)).isSome ||
    (attrListFindByName e.attributes (some xmlns) none).isSome

/-- The element has the namespace where the look-up takes it from. -/
def Item.Offers (e : Item) (namePrefix ns : Option LwcString) : Prop :=
  ns =
    if e.named namePrefix then e.ns
    else if (attrListFindByName e.attributes namePrefix (some xmlns)).isSome then
      (attrListFindByName e.attributes namePrefix (some xmlnsNamespace)).map Attribute.value
    else (attrListFindByName e.attributes (some xmlns) none).map Attribute.value

/-- The last node on the way up. -/
def Names.root (n : ν) : ν := (tree.parents.trail n).getLastD n

/-- The nearest element that ends the look-up has the namespace declared, or there is none, the prefix is not declared
and the walk does not end at an element, whose parent is not tested. -/
def Names.Found (n : ν) (namePrefix : Option LwcString) : Prop :=
  match (tree.elements n).find? (·.stops namePrefix) with
  | some e => e.Offers namePrefix (tree.namespaceOf n namePrefix)
  | none => tree.namespaceOf n namePrefix = none ∧ (tree.item (tree.root n)).type ≠ .element

/-- The default namespace of an element, as far as the look-up sees it: of the attributes `xmlns` that without a
namespace. -/
def Item.plainNamespace (e : Item) : Option (Option LwcString) :=
  if e.namePrefix = none then some e.ns
  else (attrListFindByName e.attributes (some xmlns) none).map fun a => some a.value

def Names.seesDefault (n : ν) (ns : Option LwcString) : Bool :=
  ((tree.elements n).findSome? (·.plainNamespace)).any fun own => domStringIsequal own ns

/-- Before an element of which the look-up sees the default namespace, the way up comes to a node that is neither an
element nor an attribute and has a parent. -/
inductive Names.Strays : ν → Prop
  | here {n parent : ν} (element : (tree.item n).type ≠ .element) (attr : (tree.item n).type ≠ .attribute)
      (linked : tree.parents.next n = some parent) : Strays n
  | above {n parent : ν} (linked : tree.parents.next n = some parent)
      (silent : (tree.item n).type = .element → (tree.item n).plainNamespace = none) (strays : Strays parent) : Strays n

variable {tree}

variable {n parent : ν} {e : Item} {namePrefix : Option LwcString}

theorem lookupPrefix_element (element : (tree.item n).type = .element) (calls : Nat) (ns : Option LwcString) :
    lookupPrefix tree calls n ns = none := by
  rcases calls with _ | calls
  · rfl
  · rw [lookupPrefix, element]

theorem lookupPrefix_below {n parent : ν} (below : tree.parents.next n = some parent) (calls : Nat)
    (ns : Option LwcString) : lookupPrefix tree calls n ns = none := by
  induction calls with
  | zero => rfl
  | succ calls ih =>
    rw [lookupPrefix]
    split
    · rfl
    next attr =>
      rw [below]
      exact lookupPrefix_element (tree.owned below attr) calls ns
    · rw [below]
      exact ih

theorem lookupPrefix_none (calls : Nat) (n : ν) (ns : Option LwcString) (p : LwcString) :
    lookupPrefix tree calls n ns ≠ some (some p) := by
  induction calls generalizing n with
  | zero => simp [lookupPrefix]
  | succ calls ih =>
    rcases linked : tree.parents.next n with _ | parent
    · rw [lookupPrefix]
      split
      · simp
      · simp [linked]
      · simp [linked]
    · simp [lookupPrefix_below linked]

theorem elements_cons (linked : tree.parents.next n = some parent) : tree.elements n =
    if (tree.item n).type = .element then tree.item n :: tree.elements parent else tree.elements parent := by
  rw [Names.elements, Links.trail_some linked, List.map_cons, List.filter_cons]
  simp only [decide_eq_true_eq]
  rfl

theorem elements_root (top : tree.parents.next n = none) : tree.elements n =
    if (tree.item n).type = .element then [tree.item n] else [] := by
  rw [Names.elements, Links.trail_none top]
  by_cases element : (tree.item n).type = .element <;> simp [element]

theorem plainNamespace_none : e.plainNamespace = none ↔
    e.namePrefix ≠ none ∧ attrListFindByName e.attributes (some xmlns) none = none := by
  by_cases bare : e.namePrefix = none <;> simp [Item.plainNamespace, bare]

theorem isDefaultNamespace_seen {own : Option LwcString} (element : (tree.item n).type = .element)
    (seen : (tree.item n).plainNamespace = some own) (calls : Nat) (ns : Option LwcString) :
    isDefaultNamespace tree (calls + 1) n ns = some (tree.seesDefault n ns) := by
  have first : ∃ es, tree.elements n = tree.item n :: es := by
    rcases linked : tree.parents.next n with _ | parent
    · exact ⟨[], by rw [elements_root linked, if_pos element]⟩
    · exact ⟨_, by rw [elements_cons linked, if_pos element]⟩
  obtain ⟨es, first⟩ := first
  rw [isDefaultNamespace, element, Names.seesDefault, first, List.findSome?_cons, seen]
  by_cases bare : (tree.item n).namePrefix = none
  · obtain rfl : (tree.item n).ns = own := by simpa [Item.plainNamespace, bare] using seen
    simp [bare]
  · obtain ⟨a, listed, rfl⟩ : ∃ a, attrListFindByName (tree.item n).attributes (some xmlns) none = some a ∧
        some a.value = own := by simpa [Item.plainNamespace, bare] using seen
    simp [bare, listed]

theorem seesDefault_passed (linked : tree.parents.next n = some parent)
    (silent : (tree.item n).type = .element → (tree.item n).plainNamespace = none) (ns : Option LwcString) :
    tree.seesDefault n ns = tree.seesDefault parent ns := by
  rw [Names.seesDefault, Names.seesDefault, elements_cons linked]
  split
  next element => rw [List.findSome?_cons, silent element]
  · rfl

theorem seesDefault_root (top : tree.parents.next n = none)
    (silent : (tree.item n).type = .element → (tree.item n).plainNamespace = none) (ns : Option LwcString) :
    tree.seesDefault n ns = false := by
  rw [Names.seesDefault, elements_root top]
  split
  next element => rw [List.findSome?_cons, silent element]; rfl
  · rfl

/-- A node of which no default namespace is seen asks its parent, if it is an element or an attribute. -/
theorem isDefaultNamespace_silent (silent : (tree.item n).type = .element → (tree.item n).plainNamespace = none)
    (calls : Nat) (ns : Option LwcString) : isDefaultNamespace tree (calls + 1) n ns =
      match tree.parents.next n with
      | none => some false
      | some parent =>
        if (tree.item n).type = .element ∨ (tree.item n).type = .attribute then isDefaultNamespace tree calls parent ns
        else isDefaultNamespace tree calls n ns := by
  rw [isDefaultNamespace]
  split
  next element =>
    obtain ⟨prefixed, absent⟩ := plainNamespace_none.mp (silent element)
    rw [if_neg prefixed, absent]
    rcases tree.parents.next n with _ | parent <;> simp [element]
  next attr => rcases tree.parents.next n with _ | parent <;> simp [attr]
  next element attr =>
    rcases tree.parents.next n with _ | parent
    · rfl
    · exact (if_neg fun up => up.elim element attr).symm

/-- Where the way up does not stray, the nearest element of which a default namespace is seen answers. -/
theorem isDefaultNamespace_answers (straight : ¬ tree.Strays n) (ns : Option LwcString) :
    isDefaultNamespace tree ((tree.parents.trail n).length + 1) n ns = some (tree.seesDefault n ns) := by
  induction n using tree.parents.induct with
  | step n ih =>
    by_cases seen : (tree.item n).type = .element ∧ (tree.item n).plainNamespace ≠ none
    · obtain ⟨own, has⟩ := Option.ne_none_iff_exists'.mp seen.2
      exact isDefaultNamespace_seen seen.1 has _ ns
    · have silent : (tree.item n).type = .element → (tree.item n).plainNamespace = none := by simpa using seen
      rw [isDefaultNamespace_silent silent]
      rcases linked : tree.parents.next n with _ | parent
      · rw [seesDefault_root linked silent]
      · have up : (tree.item n).type = .element ∨ (tree.item n).type = .attribute := by
          by_contra other
          exact straight (.here (fun element => other (.inl element)) (fun attr => other (.inr attr)) linked)
        dsimp only
        rw [if_pos up, seesDefault_passed linked silent, Links.trail_some linked]
        exact ih parent linked fun strays => straight (.above linked silent strays)

theorem isDefaultNamespace_strays (strays : tree.Strays n) (calls : Nat) (ns : Option LwcString) :
    isDefaultNamespace tree calls n ns = none := by
  induction strays generalizing calls with
  | here element attr linked =>
    induction calls with
    | zero => rfl
    | succ calls again =>
      rw [isDefaultNamespace_silent fun same => absurd same element, linked]
      dsimp only
      rw [if_neg fun up => up.elim element attr]
      exact again
  | @above n parent linked silent _ ih =>
    induction calls with
    | zero => rfl
    | succ calls again =>
      rw [isDefaultNamespace_silent silent, linked]
      dsimp only
      split
      · exact ih calls
      · exact again

theorem stops_false : e.stops namePrefix = false ↔
    e.named namePrefix = false ∧ attrListFindByName e.attributes namePrefix (some xmlns) = none ∧
      attrListFindByName e.attributes (some xmlns) none = none := by
  simp [Item.stops, and_assoc]

theorem lookupNamespace_stopped (element : (tree.item n).type = .element)
    (stops : (tree.item n).stops namePrefix = true) (calls : Nat) (ns : Option LwcString) :
    lookupNamespace tree (calls + 1) n namePrefix = some ns ↔ (tree.item n).Offers namePrefix ns := by
  rw [lookupNamespace, element, Item.Offers]
  dsimp only
  by_cases named : (tree.item n).named namePrefix = true
  · have own : (tree.item n).ns.isSome ∧ domStringIsequal (tree.item n).namePrefix namePrefix = true := by
      simpa [Item.named] using named
    rw [if_pos own, if_pos named, Option.some_inj, eq_comm]
  · have other : ¬ ((tree.item n).ns.isSome ∧ domStringIsequal (tree.item n).namePrefix namePrefix = true) := by
      simpa [Item.named] using named
    rw [if_neg other, if_neg named]
    split
    · rw [Option.some_inj, eq_comm]
    next absent =>
      obtain ⟨a, listed⟩ : ∃ a, attrListFindByName (tree.item n).attributes (some xmlns) none = some a := by
        simpa [Item.stops, named, absent, Option.isSome_iff_exists] using stops
      rw [listed, Option.map_some, Option.some_inj, eq_comm]

theorem lookupNamespace_passed (passed : (tree.item n).type = .element → (tree.item n).stops namePrefix = false)
    (calls : Nat) :
    lookupNamespace tree (calls + 1) n namePrefix =
      match tree.parents.next n with
      | none => if (tree.item n).type = .element then none else some none
      | some parent => lookupNamespace tree calls parent namePrefix := by
  rw [lookupNamespace]
  split
  next element =>
    obtain ⟨other, absent, silent⟩ := stops_false.mp (passed element)
    have other : ¬ ((tree.item n).ns.isSome ∧ domStringIsequal (tree.item n).namePrefix namePrefix = true) := by
      simpa [Item.named] using other
    rw [if_neg other, absent, silent]
    rcases tree.parents.next n with _ | parent <;> simp [element]
  next element =>
    rcases tree.parents.next n with _ | parent
    · exact (if_neg element).symm
    · rfl

/-- The walk of a look-up of a prefix, for any answer that is asked after. -/
theorem lookupNamespace_eq (n : ν) (namePrefix ns : Option LwcString) :
    lookupNamespace tree ((tree.parents.trail n).length + 1) n namePrefix = some ns ↔
      match (tree.elements n).find? (·.stops namePrefix) with
      | some e => e.Offers namePrefix ns
      | none => ns = none ∧ (tree.item (tree.root n)).type ≠ .element := by
  induction n using tree.parents.induct with
  | step n ih =>
    by_cases stopped : (tree.item n).type = .element ∧ (tree.item n).stops namePrefix = true
    · rw [lookupNamespace_stopped stopped.1 stopped.2]
      rcases linked : tree.parents.next n with _ | parent
      · rw [elements_root linked, if_pos stopped.1, List.find?_cons, stopped.2]
      · rw [elements_cons linked, if_pos stopped.1, List.find?_cons, stopped.2]
    · have passed : (tree.item n).type = .element → (tree.item n).stops namePrefix = false := by simpa using stopped
      rw [lookupNamespace_passed passed]
      rcases linked : tree.parents.next n with _ | parent
      · have none' : (tree.elements n).find? (·.stops namePrefix) = none := by
          rw [elements_root linked]
          split
          next element => simp [passed element]
          · rfl
        rw [none', Names.root, Links.trail_none linked]
        dsimp only
        by_cases element : (tree.item n).type = .element <;> simp [element, eq_comm]
      · have same : (tree.elements n).find? (·.stops namePrefix) =
            (tree.elements parent).find? (·.stops namePrefix) := by
          rw [elements_cons linked]
          split
          next element => rw [List.find?_cons, passed element]
          · rfl
        have top : tree.root n = tree.root parent := by
          rw [Names.root, Names.root, Links.trail_some linked, List.getLastD_cons]
        rw [same, top, Links.trail_some linked]
        exact ih parent linked

theorem lookupPrefix_answers (element : (tree.item n).type ≠ .element) (top : tree.parents.next n = none)
    (calls : Nat) (ns : Option LwcString) : lookupPrefix tree (calls + 1) n ns = some (tree.prefixOf n ns) := by
  have noPrefix : tree.prefixOf n ns = none := by
    rw [Names.prefixOf, elements_root top, if_neg element]
    rcases ns with _ | uri <;> rfl
  rw [noPrefix, lookupPrefix]
  split
  next same => exact absurd same element
  · rw [top]
  · rw [top]

/-- A document with an element `p:a` for a namespace, and a text in it. -/
def sample : Names (Fin 3) where
  parents := { next := fun n => [none, some 0, some 1].getD n none, rank := fun n => n, next_lt := by decide }
  item n := [{ type := .document }, { type := .element, namePrefix := some (lit "p"), ns := some (lit "urn:a") }].getD n
    { type := .text }
  owned := by decide
  permitted := by decide

end Besra.NamespaceLookup
