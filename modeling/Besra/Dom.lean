import Besra.Lwc
import Besra.Trail

/-!
The document as the selection engine sees it: elements with their parents and
previous siblings, and the client's answers about a single element (`css_select_handler`
of `libcss/select.h`). The callbacks that look for another element are derived from
the tree, as their documentation has it: the nearest one, or none.
-/
namespace Besra.Dom
open Lwc Trail

/-- The elements of a document. Parents and previous siblings come before an element in document
order; siblings have one parent. -/
structure Doc (ν : Type) where
  parent : ν → Option ν
  previous : ν → Option ν
  order : ν → Nat
  parent_lt : ∀ {n m : ν}, parent n = some m → order m < order n
  previous_lt : ∀ {n m : ν}, previous n = some m → order m < order n
  previous_parent : ∀ {n m : ν}, previous n = some m → parent m = parent n

namespace Doc

variable {ν : Type} (doc : Doc ν)

def parents : Links ν := ⟨doc.parent, doc.order, doc.parent_lt⟩

def siblings : Links ν := ⟨doc.previous, doc.order, doc.previous_lt⟩

def ancestors (n : ν) : List ν := doc.parents.trail n

/-- The siblings before an element, nearest first. -/
def earlier (n : ν) : List ν := doc.siblings.trail n

end Doc

/-- `css_qname` -/
structure Qname where
  ns : Option LwcString
  name : LwcString
deriving DecidableEq

inductive AttributeTest where
  | equal
  | dashmatch
  | includes
  | starts
  | ends
  | substring
deriving DecidableEq

/-- The part of `css_select_handler` that answers about one element. -/
structure Client (ν : Type) extends Doc ν where
  nodeName : ν → Qname
  nodeClasses : ν → List LwcString
  nodeId : ν → Option LwcString
  nodeHasName : ν → Qname → Bool
  nodeHasClass : ν → LwcString → Bool
  nodeHasId : ν → LwcString → Bool
  nodeHasAttribute : ν → Qname → Bool
  nodeHasAttributeValue : AttributeTest → ν → Qname → LwcString → Bool
  nodeIsRoot : ν → Bool
  nodeCountSiblings : ν → (sameName after : Bool) → Int
  nodeIsEmpty : ν → Bool
  nodeIsLink : ν → Bool
  nodeIsVisited : ν → Bool
  nodeIsHover : ν → Bool
  nodeIsActive : ν → Bool
  nodeIsFocus : ν → Bool
  nodeIsEnabled : ν → Bool
  nodeIsDisabled : ν → Bool
  nodeIsChecked : ν → Bool
  nodeIsTarget : ν → Bool
  nodeIsLang : ν → LwcString → Bool

namespace Client

variable {ν : Type} (client : Client ν)

def namedAncestorNode (n : ν) (q : Qname) : Option ν := (client.ancestors n).find? (client.nodeHasName · q)

def namedParentNode (n : ν) (q : Qname) : Option ν := (client.parent n).filter (client.nodeHasName · q)

def namedSiblingNode (n : ν) (q : Qname) : Option ν := (client.previous n).filter (client.nodeHasName · q)

def namedGenericSiblingNode (n : ν) (q : Qname) : Option ν := (client.earlier n).find? (client.nodeHasName · q)

end Client

end Besra.Dom
