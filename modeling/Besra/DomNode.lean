import Besra.PointerChain
import Mathlib.Logic.Function.Basic

/-!
The tree operations of `libdom/src/core/node.c`. A node is a pointer; the heap has
`size` of them. Listeners of mutation events run while the semaphore of the document
is up, when every change is refused, so an event changes nothing here; listeners do
not fail. `none` stands for what has no result: a failed assertion, a NULL pointer
that is followed, or a loop that does not end.
-/
namespace Besra.DomNode
open PointerChain

/-- `dom_node_type` -/
inductive NodeType where
  | element
  | attribute
  | text
  | cdataSection
  | entityReference
  | entity
  | processingInstruction
  | comment
  | document
  | documentType
  | documentFragment
  | notationNode
deriving DecidableEq

abbrev Ptr := Nat

/-- `dom_node_internal`, with `read_only` of an attribute. -/
structure Node where
  type : NodeType
  owner : Option Ptr
  readOnly : Bool := false
  parent : Option Ptr := none
  firstChild : Option Ptr := none
  lastChild : Option Ptr := none
  previous : Option Ptr := none
  next : Option Ptr := none
deriving DecidableEq

/-- The nodes, and of their document the list of pending nodes and the semaphore `dispatching_mutation`. -/
structure Dom where
  size : Nat
  node : Ptr → Node
  pending : List Ptr := []
  dispatching : Nat := 0

/-- `dom_exception`, but `DOM_NO_ERR`. -/
inductive DomException where
  | hierarchyRequest
  | wrongDocument
  | noModificationAllowed
  | notFound
  | notSupported
deriving DecidableEq

def Dom.set (dom : Dom) (n : Ptr) (f : Node → Node) : Dom :=
  { dom with node := Function.update dom.node n (f (dom.node n)) }

def someChild (dom : Dom) (p : Node → Bool) (n : Ptr) : Option Bool :=
  (walk (fun m => (dom.node m).next) dom.size (dom.node n).firstChild).map (·.any (fun m => p (dom.node m)))

def someAbove (dom : Dom) (p : Ptr → Bool) (n : Ptr) : Option Bool :=
  someOn (fun m => (dom.node m).parent) (fun m => some (p m)) dom.size (some n)

def permittedType (parent child : NodeType) : Bool :=
  match parent with
  | .element | .entityReference | .entity | .documentFragment =>
    child == .element || child == .text || child == .comment || child == .processingInstruction ||
      child == .cdataSection || child == .entityReference
  | .attribute => child == .text || child == .entityReference
  | .document =>
    child == .element || child == .processingInstruction || child == .comment || child == .documentType
  | .text | .cdataSection | .processingInstruction | .comment | .documentType | .notationNode => false

/-- `_dom_node_permitted_child` -/
def permittedChild (dom : Dom) (parent child : Ptr) : Option Bool :=
  let type := (dom.node child).type
  let valid := permittedType (dom.node parent).type type
  if (dom.node parent).type = .document ∧ (type = .element ∨ type = .documentType) then
    (someChild dom (fun n => n.type == type) parent).map (fun taken => valid && !taken)
  else some valid

/-- `_dom_node_readonly` -/
def readonly (dom : Dom) (n : Ptr) : Option Bool :=
  if (dom.node n).owner.isSome ∧ dom.dispatching > 0 then some true
  else if (dom.node n).type = .documentType ∨ (dom.node n).type = .notationNode then some true
  else if (dom.node n).type = .attribute then some (dom.node n).readOnly
  else someAbove dom (fun m => (dom.node m).type == .entity || (dom.node m).type == .entityReference) n

/-- `_dom_node_mark_pending` -/
def markPending (dom : Dom) (n : Ptr) : Option Dom :=
  if (dom.node n).owner = none then some dom
  else if n ∈ dom.pending then none
  else some { dom with pending := dom.pending ++ [n] }

/-- `_dom_node_remove_pending` -/
def removePending (dom : Dom) (n : Ptr) : Option Dom :=
  if (dom.node n).owner = none then some dom
  else if n ∈ dom.pending then some { dom with pending := dom.pending.erase n }
  else none

def Dom.linkAfter (dom : Dom) (parent : Ptr) (previous n : Option Ptr) : Dom :=
  match previous with
  | some p => dom.set p (fun m => { m with next := n })
  | none => dom.set parent (fun m => { m with firstChild := n })

def Dom.linkBefore (dom : Dom) (parent : Ptr) (next n : Option Ptr) : Dom :=
  match next with
  | some m => dom.set m (fun m => { m with previous := n })
  | none => dom.set parent (fun m => { m with lastChild := n })

theorem node_set (dom : Dom) (n m : Ptr) (f : Node → Node) :
    (dom.set n f).node m = if m = n then f (dom.node m) else dom.node m := by
  unfold Dom.set
  dsimp only
  rw [Function.update_apply]
  split
  next same => rw [same]
  next => rfl

theorem set_eq (dom : Dom) (n : Ptr) (f : Node → Node) :
    dom.set n f = { dom with node := fun m => if m = n then f (dom.node m) else dom.node m } := by
  rw [← show (dom.set n f).node = _ from funext (fun m => node_set dom n m f)]
  rfl

theorem linkAfter_eq (dom : Dom) (parent : Ptr) (previous n : Option Ptr) :
    dom.linkAfter parent previous n = { dom with node := fun m => { dom.node m with
      next := if previous = some m then n else (dom.node m).next
      firstChild := if previous = none ∧ m = parent then n else (dom.node m).firstChild } } := by
  unfold Dom.linkAfter
  rcases previous with _ | p
  all_goals
    dsimp only
    rw [set_eq]
    congr 1
    funext m
    split
  · simp [*]
  · simp [*]
  next same => simp [same]
  next other => simp [Ne.symm other]

theorem linkBefore_eq (dom : Dom) (parent : Ptr) (next n : Option Ptr) :
    dom.linkBefore parent next n = { dom with node := fun m => { dom.node m with
      previous := if next = some m then n else (dom.node m).previous
      lastChild := if next = none ∧ m = parent then n else (dom.node m).lastChild } } := by
  unfold Dom.linkBefore
  rcases next with _ | p
  all_goals
    dsimp only
    rw [set_eq]
    congr 1
    funext m
    split
  · simp [*]
  · simp [*]
  next same => simp [same]
  next other => simp [Ne.symm other]

/-- The loop that sets the parent of the nodes from one on, until the next one is `stop`; `ends` if it also ends at NULL. -/
def setParents (parent stop : Option Ptr) (ends : Bool) : Nat → Option Ptr → Dom → Option Dom
  | 0, n, dom => if n = stop ∨ (ends ∧ n = none) then some dom else none
  | fuel + 1, n, dom =>
    if n = stop then some dom
    else match n with
      | none => if ends then some dom else none
      | some n => setParents parent stop ends fuel (dom.node n).next (dom.set n (fun m => { m with parent }))

theorem setParents_eq {parent stop : Option Ptr} {ends : Bool} {fuel : Nat} {start : Option Ptr} {ns : List Ptr}
    {dom : Dom} (leads : Leads (fun n => (dom.node n).next) start ns stop) (apart : ∀ n ∈ ns, some n ≠ stop)
    (enough : ns.length ≤ fuel) :
    setParents parent stop ends fuel start dom =
      some { dom with node := fun n => if n ∈ ns then { dom.node n with parent } else dom.node n } := by
  induction ns generalizing start fuel dom with
  | nil =>
    obtain rfl := show start = stop from leads
    rcases fuel with _ | fuel <;> simp [setParents]
  | cons n ns ih =>
    obtain ⟨rfl, rest⟩ := leads
    rcases fuel with _ | fuel
    · simp at enough
    · have same : ∀ m, ((dom.set n (fun m => { m with parent })).node m).next = (dom.node m).next := by
        intro m
        rw [node_set]
        split <;> rfl
      rw [setParents, if_neg (apart n List.mem_cons_self)]
      refine (ih (leads_congr rest (fun m _ => same m)) (fun m member => apart m (List.mem_cons_of_mem _ member))
        (by simpa using enough)).trans ?_
      congr 2
      funext m
      rw [node_set]
      by_cases own : m = n
      · subst own
        split <;> simp
      · simp [own]

/-- `_dom_node_attach_range` -/
def attachRange (dom : Dom) (first last parent : Ptr) (previous next : Option Ptr) : Option Dom :=
  let dom := dom.set first (fun n => { n with previous })
  let dom := dom.set last (fun n => { n with next })
  let dom := dom.linkAfter parent previous (some first)
  let dom := dom.linkBefore parent next (some last)
  setParents (some parent) (dom.node last).next false dom.size (some first) dom

/-- `_dom_node_detach_range`, for the one node that `_dom_node_detach` gives it. -/
def detachRange (dom : Dom) (node : Ptr) : Option Dom := do
  let parent ← (dom.node node).parent
  let dom := dom.linkAfter parent (dom.node node).previous (dom.node node).next
  let dom := dom.linkBefore parent (dom.node node).next (dom.node node).previous
  let dom ← setParents none (dom.node node).next false dom.size (some node) dom
  return dom.set node (fun m => { m with previous := none, next := none })

/-- `_dom_node_detach` -/
def detach (dom : Dom) (node : Ptr) : Option Dom := do detachRange (← markPending dom node) node

/-- "All we're doing is removing old": what becomes of `old` and its parent, its siblings keep their links. -/
def removeOld (dom : Dom) (old parent : Ptr) : Dom :=
  let o := dom.node old
  let dom := if o.previous = none then dom.set parent (fun n => { n with firstChild := o.next }) else dom
  let dom := if o.next = none then dom.set parent (fun n => { n with lastChild := o.previous }) else dom
  dom.set old (fun n => { n with previous := none, next := none, parent := none })

def replaceRange (dom : Dom) (old first last parent : Ptr) : Option Dom := do
  let dom := dom.set first (fun n => { n with previous := (dom.node old).previous })
  let dom := dom.set last (fun n => { n with next := (dom.node old).next })
  let dom := dom.linkAfter parent (dom.node old).previous (some first)
  let dom := dom.linkBefore parent (dom.node old).next (some last)
  let dom ← setParents (some parent) (dom.node last).next true dom.size (some first) dom
  return dom.set old (fun n => { n with previous := none, next := none, parent := none })

/-- `_dom_node_replace` -/
def replace (dom : Dom) (old replacement : Ptr) : Option Dom := do
  let r := dom.node replacement
  let parent ← (dom.node old).parent
  if r.type = .documentFragment then
    let dom := dom.set replacement (fun n => { n with firstChild := none, lastChild := none })
    match r.firstChild with
    | none => return removeOld dom old parent
    | some first => replaceRange dom old first (← r.lastChild) parent
  else replaceRange dom old replacement replacement parent

/-- Whether a child of a fragment is not permitted as a child of `node`. -/
def refused (dom : Dom) (node fragment : Ptr) : Option Bool :=
  someOn (fun m => (dom.node m).next) (fun m => (permittedChild dom node m).map (!·)) dom.size
    (dom.node fragment).firstChild

/-- What an operation returns, `none` for `DOM_NO_ERR`, and the nodes after it. -/
abbrev Result := Option DomException × Dom

/-- The checks of `_dom_node_insert_before` before anything changes. -/
def insertChecks (dom : Dom) (node newChild : Ptr) (refChild : Option Ptr) : Option (Option DomException) := do
  let n := dom.node node
  let c := dom.node newChild
  if (c.type = .documentType ∧ c.owner ≠ none ∧ c.owner ≠ n.owner) ∨ (c.type ≠ .documentType ∧ c.owner ≠ n.owner) then
    some (some .wrongDocument)
  else if ← readonly dom node then some (some .noModificationAllowed)
  else if refChild.any (fun r => (dom.node r).parent ≠ some node) then some (some .notFound)
  else if ← someAbove dom (· == newChild) node then some (some .hierarchyRequest)
  else if c.type = .documentFragment then some none
  else if ← permittedChild dom node newChild then some none
  else some (some .hierarchyRequest)

/-- "If new_child is already in the tree and its parent isn't read only, remove it", and from the pending list. -/
def takeOut (dom : Dom) (newChild : Ptr) : Option Result := do
  match (dom.node newChild).parent with
  | none => return (none, ← removePending dom newChild)
  | some parent =>
    if ← readonly dom parent then return (some .noModificationAllowed, dom)
    else return (none, ← removePending (← detach dom newChild) newChild)

def previousOf (dom : Dom) (node : Ptr) : Option Ptr → Option Ptr
  | none => (dom.node node).lastChild
  | some r => (dom.node r).previous

def putIn (dom : Dom) (node newChild : Ptr) (refChild : Option Ptr) : Option Result := do
  let previous := previousOf dom node refChild
  if (dom.node newChild).type = .documentFragment then
    if ← refused dom node newChild then return (some .hierarchyRequest, dom)
    else
      match (dom.node newChild).firstChild, (dom.node newChild).lastChild with
      | none, _ => return (none, dom)
      | some _, none => none
      | some first, some last =>
        let dom ← attachRange dom first last node previous refChild
        return (none, dom.set newChild (fun n => { n with firstChild := none, lastChild := none }))
  else return (none, ← attachRange dom newChild newChild node previous refChild)

/-- `_dom_node_insert_before` -/
def insertBefore (dom : Dom) (node newChild : Ptr) (refChild : Option Ptr) : Option Result := do
  match ← insertChecks dom node newChild refChild with
  | some e => return (some e, dom)
  | none =>
    if some newChild = refChild then return (none, dom)
    else
      match ← takeOut dom newChild with
      | (some e, dom) => return (some e, dom)
      | (none, dom) =>
        match ← putIn dom node newChild refChild with
        | (some e, dom) => return (some e, dom)
        | (none, dom) =>
          if (dom.node node).type = .document ∧ (dom.node newChild).type = .documentType then
            return (none, dom.set newChild (fun n => { n with owner := some node }))
          else return (none, dom)

/-- `_dom_node_append_child` -/
def appendChild (dom : Dom) (node newChild : Ptr) : Option Result := insertBefore dom node newChild none

/-- The checks of `_dom_node_replace_child` before anything changes. -/
def replaceChecks (dom : Dom) (node newChild oldChild : Ptr) : Option (Option DomException) := do
  let n := dom.node node
  let c := dom.node newChild
  if n.type = .document ∧ (c.type = .documentType ∨ c.type = .element) then some (some .notSupported)
  else if c.owner ≠ n.owner then some (some .wrongDocument)
  else if ← readonly dom node then some (some .noModificationAllowed)
  else if (dom.node oldChild).parent ≠ some node then some (some .notFound)
  else if ← someAbove dom (· == newChild) node then some (some .hierarchyRequest)
  else if c.type = .documentFragment then
    if ← refused dom node newChild then some (some .hierarchyRequest) else some none
  else if ← permittedChild dom node newChild then some none
  else some (some .hierarchyRequest)

/-- `_dom_node_replace_child` -/
def replaceChild (dom : Dom) (node newChild oldChild : Ptr) : Option Result := do
  match ← replaceChecks dom node newChild oldChild with
  | some e => return (some e, dom)
  | none =>
    if newChild = oldChild then return (none, dom)
    else
      match ← takeOut dom newChild with
      | (some e, dom) => return (some e, dom)
      | (none, dom) => return (none, ← markPending (← replace dom oldChild newChild) oldChild)

/-- `_dom_node_remove_child` -/
def removeChild (dom : Dom) (node oldChild : Ptr) : Option Result := do
  let n := dom.node node
  let o := dom.node oldChild
  if n.type = .document ∧ (o.type = .documentType ∨ o.type = .element) then return (some .notSupported, dom)
  else if o.parent ≠ some node then return (some .notFound, dom)
  else if ← readonly dom node then return (some .noModificationAllowed, dom)
  else return (none, ← detach dom oldChild)

/-- A new node, as `_dom_node_initialise` leaves it; the document is node 0, and a document type has no document. -/
def create (dom : Dom) (type : NodeType) (readOnly : Bool) : Option Dom :=
  let owner := if type = .documentType then none else some 0
  markPending { dom with size := dom.size + 1, node := Function.update dom.node dom.size { type, owner, readOnly } }
    dom.size

inductive Op where
  | create (type : NodeType) (readOnly : Bool)
  | insertBefore (node newChild : Ptr) (refChild : Option Ptr)
  | appendChild (node newChild : Ptr)
  | replaceChild (node newChild oldChild : Ptr)
  | removeChild (node oldChild : Ptr)
deriving DecidableEq

def Op.nodes : Op → List Ptr
  | .create _ _ => []
  | .insertBefore node newChild refChild => [node, newChild] ++ refChild.toList
  | .appendChild node newChild => [node, newChild]
  | .replaceChild node newChild oldChild => [node, newChild, oldChild]
  | .removeChild node oldChild => [node, oldChild]

/-- An operation on nodes that there are; the one document is not created again. -/
def step (dom : Dom) (op : Op) : Option Result :=
  if op.nodes.any (fun n => decide (dom.size ≤ n)) then none
  else match op with
    | .create type readOnly => if type = .document then none else (create dom type readOnly).map (none, ·)
    | .insertBefore node newChild refChild => insertBefore dom node newChild refChild
    | .appendChild node newChild => appendChild dom node newChild
    | .replaceChild node newChild oldChild => replaceChild dom node newChild oldChild
    | .removeChild node oldChild => removeChild dom node oldChild

def newDocument : Dom := { size := 1, node := fun _ => { type := .document, owner := some 0 } }

/-- The nodes after a history, if every call of it returns. -/
def run (history : List Op) : Option Dom :=
  history.foldlM (fun dom op => (step dom op).map Prod.snd) newDocument

end Besra.DomNode
