import Mathlib
import Besra.DomTests
import Besra.Lwc

/-!
The node lists of `libdom/src/core/nodelist.c`. The length of a list and its items are found by the same walk over the
nodes below the root, by way of their pointers (`successor`); it passes all of them in document order and no others
(`passes_order`).
-/
namespace Besra.NodeLists
open PointerChain DomNode DomTree DomTests List
open Lwc (dolower)

/-! ### Filters -/

/-- What a filter looks at in a node, apart from its type. -/
structure Label where
  name : Option (List UInt8)
  inNamespace : Option (List UInt8)

/-- `nodelist_type`, with what the list was created for -/
inductive Filter where
  | children
  | byName (caseless : Bool) (name : List UInt8)
  | byNamespace (caseless : Bool) (inNamespace localName : Option (List UInt8))

/-- `dom_nodelist` -/
structure NodeList where
  root : Ptr
  filter : Filter

/-- `dom_string_isequal` and `dom_string_caseless_isequal`: NULL stands for the empty string. -/
def isEqual (caseless : Bool) (s t : Option (List UInt8)) : Bool :=
  if caseless then (s.getD []).map dolower == (t.getD []).map dolower else s.getD [] == t.getD []

/-- Whether a string is `*`. -/
def isAny (s : Option (List UInt8)) : Bool := s == some [0x2a]

variable (dom : Dom) (label : Ptr → Label)

def passesFilter (present : Bool) (filter : Filter) (n : Ptr) : Bool :=
  match filter with
  | .children => true
  | .byName caseless name =>
    (isAny (some name) || (label n).name.isSome && isEqual caseless (label n).name (some name)) &&
      (dom.node n).type == .element
  | .byNamespace caseless inNamespace localName =>
    (isAny inNamespace || (!present || (label n).inNamespace.isSome) &&
      isEqual caseless (label n).inNamespace inNamespace) &&
    ((isAny localName || (label n).name.isSome && isEqual caseless (label n).name localName) &&
      (dom.node n).type == .element)

/-- The test in `dom_nodelist_get_length` -/
def counted (filter : Filter) (n : Ptr) : Bool := passesFilter dom label false filter n

/-- The test in `_dom_nodelist_item` -/
def reached (filter : Filter) (n : Ptr) : Bool := passesFilter dom label true filter n

/-! ### The walk -/

/-- The loop that looks for the first unvisited relation; `none` where it runs into a NULL parent, or out of fuel. -/
def climb (root : Ptr) : Nat → Ptr → Option (Option Ptr)
  | 0, _ => none
  | fuel + 1, cur =>
    match (dom.node cur).parent with
    | none => none
    | some parent =>
      if parent ≠ root ∧ (dom.node parent).lastChild = some cur then climb root fuel parent
      else some (dom.node cur).next

def successor (list : NodeList) (cur : Ptr) : Option (Option Ptr) :=
  match list.filter with
  | .children => some (dom.node cur).next
  | _ =>
    match (dom.node cur).firstChild, (dom.node cur).next with
    | some child, _ => some (some child)
    | none, some next => some (some next)
    | none, none => climb dom list.root dom.size cur

variable {σ : Type}

def traverse (list : NodeList) (body : σ → Ptr → σ × Bool) : Nat → Option Ptr → σ → Option (σ × Option Ptr)
  | _, none, s => some (s, none)
  | 0, some _, _ => none
  | fuel + 1, some cur, s =>
    if (body s cur).2 then some ((body s cur).1, some cur)
    else (successor dom list cur).bind fun next => traverse list body fuel next (body s cur).1

def eachNode (list : NodeList) (body : σ → Ptr → σ × Bool) (s : σ) : Option (σ × Option Ptr) :=
  traverse dom list body dom.size (dom.node list.root).firstChild s

/-- `dom_nodelist_get_length` -/
def getLength (list : NodeList) : Option UInt32 :=
  (eachNode dom list (fun len n => (if counted dom label list.filter n then len + 1 else len, false)) 0).map Prod.fst

/-- The body of the loop in `_dom_nodelist_item`, which stops at the requested index. -/
def countTo (test : Ptr → Bool) (index count : UInt32) (n : Ptr) : UInt32 × Bool :=
  let count := if test n then count + 1 else count
  (count, index + 1 == count)

/-- `_dom_nodelist_item` -/
def item (list : NodeList) (index : UInt32) : Option (Option Ptr) :=
  (eachNode dom list (countTo (reached dom label list.filter) index) 0).map Prod.snd

/-! ### Document order -/

/-- The nodes of some siblings and below them, each before its children and these before its next sibling. -/
inductive Order (kids : Ptr → List Ptr) : List Ptr → List Ptr → Prop
  | nil : Order kids [] []
  | cons {n : Ptr} {rest inside others : List Ptr} (below : Order kids (kids n) inside)
      (beside : Order kids rest others) : Order kids (n :: rest) (n :: (inside ++ others))

/-- What a list is about: the children of its root, or all nodes below it. -/
def Listed (kids : Ptr → List Ptr) (list : NodeList) (nodes : List Ptr) : Prop :=
  match list.filter with
  | .children => nodes = kids list.root
  | _ => Order kids (kids list.root) nodes

def Below (list : NodeList) (n : Ptr) : Prop :=
  match list.filter with
  | .children => (dom.node n).parent = some list.root
  | _ => Relation.TransGen (fun a b => (dom.node a).parent = some b) n list.root

variable {dom label} {kids : Ptr → List Ptr}

variable {siblings ns as l rest : List Ptr} {c p root n : Ptr} {fuel count : Nat} {stop start : Option Ptr}
  {follow : Ptr → Option (Option Ptr)} {test : Ptr → Bool} {index : UInt32}

theorem mem_order {nodes : List Ptr} (order : Order kids siblings nodes) (x : Ptr) :
    x ∈ nodes ↔ ∃ n ∈ siblings, Relation.ReflTransGen (fun a b => b ∈ kids a) n x := by
  induction order with
  | nil => simp
  | @cons n rest inside others below beside ihBelow ihBeside =>
    rw [mem_cons, mem_append, ihBelow, ihBeside, exists_mem_cons_iff, or_assoc.symm]
    refine or_congr_left ?_
    constructor
    · rintro (rfl | ⟨c, child, steps⟩)
      · exact .refl
      · exact .head child steps
    · intro steps
      rcases steps.cases_head with rfl | ⟨c, child, steps⟩
      · exact .inl rfl
      · exact .inr ⟨c, child, steps⟩

theorem order_of_each (each : ∀ n ∈ ns, ∃ inside, Order kids (kids n) inside) : ∃ nodes, Order kids ns nodes := by
  induction ns with
  | nil => exact ⟨[], .nil⟩
  | cons n rest ih =>
    obtain ⟨inside, below⟩ := each n (by simp)
    obtain ⟨others, beside⟩ := ih (fun m member => each m (by simp [member]))
    exact ⟨_, .cons below beside⟩

theorem leads_child (tree : Tree dom kids) (child : c ∈ kids p)
    (leads : Leads (fun n => (dom.node n).parent) (some c) as none) :
    ∃ bs, as = c :: bs ∧ Leads (fun n => (dom.node n).parent) (some p) bs none := by
  cases as with
  | nil => cases leads
  | cons n bs =>
    obtain ⟨same, leads⟩ := leads
    cases same
    have up := (tree.child p c).mp child
    refine ⟨bs, rfl, ?_⟩
    simpa only [up] using leads

theorem order_exists (tree : Tree dom kids) (p : Ptr) : ∃ nodes, Order kids (kids p) nodes := by
  have deep : ∀ (room : Nat) (p : Ptr),
      (∀ as, Leads (fun n => (dom.node n).parent) (some p) as none → dom.size ≤ as.length + room) →
      ∃ nodes, Order kids (kids p) nodes := by
    intro room
    induction room with
    | zero =>
      intro p far
      apply order_of_each
      intro c child
      obtain ⟨as, leads, enough⟩ := above tree (tree.there c p ((tree.child p c).mp child)).1
      obtain ⟨bs, rfl, rest⟩ := leads_child tree child leads
      have := far bs rest
      simp only [length_cons] at enough
      omega
    | succ room ih =>
      intro p far
      apply order_of_each
      intro c child
      apply ih
      intro as leads
      obtain ⟨bs, rfl, rest⟩ := leads_child tree child leads
      have := far bs rest
      simp only [length_cons]
      omega
  exact deep dom.size p (fun as _ => Nat.le_add_left ..)

/-- The loop that goes up from a node comes to an end there. -/
inductive After (dom : Dom) (root : Ptr) : Ptr → Option Ptr → Prop
  | stop {cur parent : Ptr} (up : (dom.node cur).parent = some parent)
      (last : ¬ (parent ≠ root ∧ (dom.node parent).lastChild = some cur)) : After dom root cur (dom.node cur).next
  | up {cur parent : Ptr} {next : Option Ptr} (up : (dom.node cur).parent = some parent)
      (last : parent ≠ root ∧ (dom.node parent).lastChild = some cur) (after : After dom root parent next) :
      After dom root cur next

theorem climb_after {cur : Ptr} {next : Option Ptr} (after : After dom root cur next)
    (leads : Leads (fun n => (dom.node n).parent) (some cur) as none) (enough : as.length ≤ fuel) :
    climb dom root fuel cur = some next := by
  induction after generalizing as fuel with
  | @stop cur parent up last =>
    obtain ⟨c, as, rfl⟩ : ∃ c cs, as = c :: cs := by
      cases as with
      | nil => cases leads
      | cons c cs => exact ⟨c, cs, rfl⟩
    cases fuel with
    | zero => simp at enough
    | succ fuel => simp [climb, up, last]
  | @up cur parent next up last after ih =>
    cases as with
    | nil => cases leads
    | cons c as =>
      obtain ⟨same, leads⟩ := leads
      cases same
      simp only [up] at leads
      cases fuel with
      | zero => simp at enough
      | succ fuel =>
        have rest := ih leads (by simpa using enough)
        simp [climb, up, last, rest]

def Passes (follow : Ptr → Option (Option Ptr)) : Option Ptr → List Ptr → Option Ptr → Prop
  | start, [], stop => start = stop
  | start, n :: ns, stop => start = some n ∧ ∃ next, follow n = some next ∧ Passes follow next ns stop

theorem passes_append {between : Option Ptr} {r : List Ptr} (left : Passes follow start l between)
    (right : Passes follow between r stop) : Passes follow start (l ++ r) stop := by
  induction l generalizing start with
  | nil =>
    cases (show start = between from left)
    exact right
  | cons n l ih =>
    obtain ⟨same, next, step, rest⟩ := left
    exact ⟨same, next, step, ih rest⟩

theorem passes_nodup (passes : Passes follow start ns none) : ns.Nodup := by
  have leads : ∀ {start : Option Ptr} {ns : List Ptr}, Passes follow start ns none →
      Leads (fun n => (follow n).join) start ns none := by
    intro start ns passes
    induction ns generalizing start with
    | nil => exact passes
    | cons n ns ih =>
      obtain ⟨same, next, step, rest⟩ := passes
      exact ⟨same, by simpa [step] using ih rest⟩
  exact leads_nodup (leads passes)

theorem getLast_split (nodup : (l ++ c :: rest).Nodup) : (l ++ c :: rest).getLast? = some c ↔ rest = [] := by
  cases rest with
  | nil => simp
  | cons d rest =>
    have tail := (nodup_append.mp nodup).2.1
    have fresh : c ∉ d :: rest := (nodup_cons.mp tail).1
    have last : (l ++ c :: d :: rest).getLast? = (d :: rest).getLast? := by
      simp [List.getLast?_append, List.getLast?_cons]
    rw [last]
    exact ⟨fun same => absurd (List.mem_of_getLast? same) fresh, fun none => by cases none⟩

theorem next_split (tree : Tree dom kids) (split : kids p = l ++ c :: rest) : (dom.node c).next = rest.head? := by
  have threaded := tree.threaded p
  rw [split] at threaded
  obtain ⟨-, -, next, -⟩ := threaded_append.mp threaded
  exact next.trans Option.or_none

theorem after_child (tree : Tree dom kids) (split : kids p = l ++ c :: rest)
    (outside : p = root ∧ stop = none ∨ p ≠ root ∧ After dom root p stop) : After dom root c (rest.head?.or stop) := by
  have up : (dom.node c).parent = some p := (tree.child p c).mp (by simp [split])
  have next := next_split tree split
  have last : (dom.node p).lastChild = some c ↔ rest = [] := by
    have nodup := tree.nodup p
    rw [tree.last, split]
    exact getLast_split (split ▸ nodup)
  cases rest with
  | nil =>
    rcases outside with ⟨rfl, rfl⟩ | ⟨inner, after⟩
    · have here : After dom p c (dom.node c).next := After.stop up (fun inner => inner.1 rfl)
      rwa [next] at here
    · exact .up up ⟨inner, last.mpr rfl⟩ after
  | cons d rest =>
    have here : After dom root c (dom.node c).next := After.stop up (fun inner => by cases last.mp inner.2)
    rwa [next] at here

theorem successor_inside (tree : Tree dom kids) {list : NodeList} (deep : list.filter ≠ .children)
    (split : kids p = l ++ c :: rest) (after : After dom list.root c (rest.head?.or stop)) :
    successor dom list c = some ((kids c).head?.or (rest.head?.or stop)) := by
  have next := next_split tree split
  have child : c < dom.size := (tree.there c p ((tree.child p c).mp (by simp [split]))).1
  obtain ⟨as, leads, enough⟩ := above tree child
  have climbed := climb_after after leads enough
  have step : successor dom list c =
      match (dom.node c).firstChild, (dom.node c).next with
      | some child, _ => some (some child)
      | none, some next => some (some next)
      | none, none => climb dom list.root dom.size c := by
    unfold successor
    cases kind : list.filter with
    | children => exact absurd kind deep
    | byName caseless name => rfl
    | byNamespace caseless inNamespace localName => rfl
  rw [step, tree.first, next]
  cases kids c with
  | cons child others => rfl
  | nil =>
    cases rest with
    | cons beside others => rfl
    | nil => exact climbed

theorem passes_order (tree : Tree dom kids) {list : NodeList} (deep : list.filter ≠ .children) {nodes : List Ptr}
    (order : Order kids siblings nodes) (apart : list.root ∉ nodes) (split : kids p = l ++ siblings)
    (outside : p = list.root ∧ stop = none ∨ p ≠ list.root ∧ After dom list.root p stop) :
    Passes (successor dom list) (siblings.head?.or stop) nodes stop := by
  induction order generalizing p l stop with
  | nil => rfl
  | @cons n rest inside others below beside ihBelow ihBeside =>
    simp only [mem_cons, mem_append, not_or] at apart
    obtain ⟨other, apartBelow, apartBeside⟩ := apart
    have after := after_child tree split outside
    have inner := ihBelow apartBelow (p := n) (l := []) rfl (.inr ⟨fun same => other same.symm, after⟩)
    have outer := ihBeside apartBeside (l := l ++ [n]) (by simp [split]) outside
    exact ⟨rfl, _, successor_inside tree deep split after, passes_append inner outer⟩

theorem below_iff (tree : Tree dom kids) (p n : Ptr) :
    (∃ c ∈ kids p, Relation.ReflTransGen (fun a b => b ∈ kids a) c n) ↔
      Relation.TransGen (fun a b => (dom.node a).parent = some b) n p := by
  have same : (fun a b => b ∈ kids a) = Function.swap fun a b => (dom.node a).parent = some b := by
    funext a b
    exact propext (tree.child a b)
  rw [same, Relation.TransGen.tail'_iff]
  constructor
  · rintro ⟨c, child, steps⟩
    exact ⟨c, Relation.reflTransGen_swap.mp steps, (tree.child p c).mp child⟩
  · rintro ⟨c, steps, up⟩
    exact ⟨c, (tree.child p c).mpr up, Relation.reflTransGen_swap.mpr steps⟩

theorem passes_leads {link : Ptr → Option Ptr} (same : ∀ n, follow n = some (link n))
    (leads : Leads link start ns stop) : Passes follow start ns stop := by
  induction ns generalizing start with
  | nil => exact leads
  | cons n ns ih => exact ⟨leads.1, _, same n, ih leads.2⟩

theorem there_of_below (tree : Tree dom kids) {list : NodeList} (below : Below dom list n) : n < dom.size := by
  have up : ∃ p, (dom.node n).parent = some p := by
    unfold Below at below
    split at below
    · exact ⟨_, below⟩
    · obtain ⟨p, up, -⟩ := Relation.TransGen.head'_iff.mp below
      exact ⟨p, up⟩
  obtain ⟨p, up⟩ := up
  exact (tree.there n p up).1

theorem listed_exists (tree : Tree dom kids) (list : NodeList) : ∃ nodes, Listed kids list nodes ∧
    Passes (successor dom list) (dom.node list.root).firstChild nodes none ∧ nodes.Nodup ∧
    nodes.length ≤ dom.size ∧ ∀ n, n ∈ nodes ↔ Below dom list n := by
  have found : ∃ nodes, Listed kids list nodes ∧
      Passes (successor dom list) (dom.node list.root).firstChild nodes none ∧
      ∀ n, n ∈ nodes ↔ Below dom list n := by
    by_cases deep : list.filter = .children
    · refine ⟨kids list.root, by simp [Listed, deep], ?_, fun n => ?_⟩
      · exact passes_leads (fun n => by simp [successor, deep]) (kids_leads tree list.root)
      · simp only [Below, deep]
        exact tree.child list.root n
    · obtain ⟨nodes, order⟩ := order_exists tree list.root
      have member : ∀ n, n ∈ nodes ↔ Relation.TransGen (fun a b => (dom.node a).parent = some b) n list.root :=
        fun n => (mem_order order n).trans (below_iff tree list.root n)
      have apart : list.root ∉ nodes := fun inside =>
        not_after_itself (tree.rooted list.root) ((member list.root).mp inside)
      have passes := passes_order tree deep order apart (p := list.root) (l := []) rfl (.inl ⟨rfl, rfl⟩)
      rw [Option.or_none, ← tree.first] at passes
      refine ⟨nodes, ?_, passes, fun n => ?_⟩
      · unfold Listed
        split
        · exact absurd ‹_› deep
        · exact order
      · rw [member]
        unfold Below
        split
        · exact absurd ‹_› deep
        · rfl
  obtain ⟨nodes, listed, passes, member⟩ := found
  have nodup := passes_nodup passes
  exact ⟨nodes, listed, passes, nodup,
    length_le nodup fun n inside => there_of_below tree ((member n).mp inside), member⟩

/-! ### The loops -/

def scan (body : σ → Ptr → σ × Bool) : List Ptr → σ → σ × Option Ptr
  | [], s => (s, none)
  | n :: ns, s => if (body s n).2 then ((body s n).1, some n) else scan body ns (body s n).1

theorem traverse_eq {list : NodeList} {body : σ → Ptr → σ × Bool} {s : σ}
    (passes : Passes (successor dom list) start ns none) (enough : ns.length ≤ fuel) :
    traverse dom list body fuel start s = some (scan body ns s) := by
  induction ns generalizing start fuel s with
  | nil =>
    cases (show start = none from passes)
    cases fuel <;> rfl
  | cons n ns ih =>
    obtain ⟨rfl, next, step, rest⟩ := passes
    cases fuel with
    | zero => simp at enough
    | succ fuel =>
      rw [traverse, scan]
      split
      · rfl
      · rw [step]
        exact ih rest (by simpa using enough)

theorem scan_length (test : Ptr → Bool) (ns : List Ptr) (len : UInt32) :
    (scan (fun len n => (if test n then len + 1 else len, false)) ns len).1 =
      len + UInt32.ofNat (ns.filter test).length := by
  induction ns generalizing len with
  | nil => simp [scan]
  | cons n ns ih =>
    rw [scan, if_neg (by simp), ih]
    cases kind : test n with
    | false => simp [kind]
    | true => simp [kind, UInt32.ofNat_add, UInt32.add_assoc, UInt32.add_comm 1]

theorem scan_failed {count : UInt32} (ns : List Ptr) (fails : test n = false) (goes : (index + 1 == count) = false) :
    scan (countTo test index) (n :: ns) count = scan (countTo test index) ns count := by
  simp [scan, countTo, fails, goes]

theorem scan_passed (ns : List Ptr) (holds : test n = true) (goes : (index + 1 == UInt32.ofNat (count + 1)) = false) :
    scan (countTo test index) (n :: ns) (UInt32.ofNat count) =
      scan (countTo test index) ns (UInt32.ofNat (count + 1)) := by
  have next : UInt32.ofNat count + 1 = UInt32.ofNat (count + 1) := by
    rw [UInt32.ofNat_add]
    rfl
  simp only [scan, countTo, holds, if_true, next, goes, Bool.false_eq_true, if_false]

theorem scan_stopped (ns : List Ptr) (holds : test n = true) (stops : (index + 1 == UInt32.ofNat (count + 1)) = true) :
    (scan (countTo test index) (n :: ns) (UInt32.ofNat count)).2 = some n := by
  have next : UInt32.ofNat count + 1 = UInt32.ofNat (count + 1) := by
    rw [UInt32.ofNat_add]
    rfl
  simp only [scan, countTo, holds, if_true, next, stops]

theorem scan_item (test : Ptr → Bool) (small : index.toNat + 1 < 2 ^ 32) (ns : List Ptr) (le : count ≤ index.toNat) :
    (scan (countTo test index) ns (UInt32.ofNat count)).2 = (ns.filter test)[index.toNat - count]? := by
  have stops : ∀ {k : Nat}, k < 2 ^ 32 → ((index + 1 == UInt32.ofNat k) = true ↔ index.toNat + 1 = k) := by
    intro k fits
    rw [beq_iff_eq, ← UInt32.toNat_inj, UInt32.toNat_add, UInt32.toNat_ofNat', UInt32.toNat_one,
      Nat.mod_eq_of_lt small, Nat.mod_eq_of_lt fits]
  have goes : ∀ {k : Nat}, k < 2 ^ 32 → index.toNat + 1 ≠ k → (index + 1 == UInt32.ofNat k) = false := by
    intro k fits other
    rw [← Bool.not_eq_true, stops fits]
    exact other
  induction ns generalizing count with
  | nil => rfl
  | cons n ns ih =>
    cases kind : test n with
    | false =>
      rw [scan_failed ns kind (goes (by omega) (by omega)), ih le, filter_cons_of_neg (by simp [kind])]
    | true =>
      rw [filter_cons_of_pos kind]
      by_cases here : index.toNat = count
      · rw [scan_stopped ns kind ((stops (by omega)).mpr (by omega)), here, Nat.sub_self]
        rfl
      · have less : index.toNat - count = index.toNat - (count + 1) + 1 := by omega
        rw [scan_passed ns kind (goes (by omega) (by omega)), ih (by omega), less, List.getElem?_cons_succ]

theorem scan_last (test : Ptr → Bool) (zero : index + 1 = 0) (ns : List Ptr) (some : 0 < count)
    (fits : count + (ns.filter test).length < 2 ^ 32) :
    (scan (countTo test index) ns (UInt32.ofNat count)).2 = none := by
  have goes : ∀ {k : Nat}, 0 < k → k < 2 ^ 32 → (index + 1 == UInt32.ofNat k) = false := by
    intro k positive fits
    rw [zero, beq_eq_false_iff_ne, ne_eq, ← UInt32.toNat_inj, UInt32.toNat_ofNat', Nat.mod_eq_of_lt fits]
    exact Nat.ne_of_lt positive
  induction ns generalizing count with
  | nil => rfl
  | cons n ns ih =>
    cases kind : test n with
    | false =>
      rw [filter_cons_of_neg (by simp [kind])] at fits
      rw [scan_failed ns kind (goes some (by omega)), ih some fits]
    | true =>
      rw [filter_cons_of_pos kind, length_cons] at fits
      rw [scan_passed ns kind (goes (Nat.succ_pos count) (by omega)), ih (Nat.succ_pos count) (by omega)]

/-! ### Consistency -/

/-- Two strings are equal, in the way that a filter asks for; no string counts as the empty one. -/
def Same (caseless : Bool) (own wanted : Option (List UInt8)) : Prop :=
  if caseless then (own.getD []).map dolower = (wanted.getD []).map dolower else own.getD [] = wanted.getD []

def Named (label : Ptr → Label) (caseless : Bool) (wanted : Option (List UInt8)) (n : Ptr) : Prop :=
  wanted = some [0x2a] ∨ (label n).name ≠ none ∧ Same caseless (label n).name wanted

def Satisfies (dom : Dom) (label : Ptr → Label) (filter : Filter) (n : Ptr) : Prop :=
  match filter with
  | .children => True
  | .byName caseless name => Named label caseless (some name) n ∧ (dom.node n).type = .element
  | .byNamespace caseless inNamespace localName =>
    (inNamespace = some [0x2a] ∨ Same caseless (label n).inNamespace inNamespace) ∧
      Named label caseless localName n ∧ (dom.node n).type = .element

def Namespaced (label : Ptr → Label) (filter : Filter) (n : Ptr) : Prop :=
  match filter with
  | .byNamespace _ inNamespace _ => inNamespace = some [0x2a] ∨ (label n).inNamespace ≠ none
  | _ => True

theorem isEqual_iff (caseless : Bool) (s t : Option (List UInt8)) : isEqual caseless s t = true ↔ Same caseless s t := by
  cases caseless <;> simp [isEqual, Same]

theorem counted_iff (filter : Filter) (n : Ptr) : counted dom label filter n = true ↔ Satisfies dom label filter n := by
  cases filter <;>
    simp [counted, passesFilter, Satisfies, Named, isAny, isEqual_iff, Option.isSome_iff_ne_none]

theorem reached_iff (filter : Filter) (n : Ptr) :
    reached dom label filter n = true ↔ Satisfies dom label filter n ∧ Namespaced label filter n := by
  cases filter with
  | children => simp [reached, passesFilter, Satisfies, Namespaced]
  | byName caseless name =>
    simp [reached, passesFilter, Satisfies, Namespaced, Named, isAny, isEqual_iff, Option.isSome_iff_ne_none]
  | byNamespace caseless inNamespace localName =>
    simp only [reached, passesFilter, Satisfies, Namespaced, Named, isAny, isEqual_iff, Option.isSome_iff_ne_none,
      Bool.not_true, Bool.false_or, Bool.and_eq_true, Bool.or_eq_true, beq_iff_eq]
    tauto

/-- The items of a list at some indices are the nodes that satisfy the filter, in document order and each once, and as many
as the length says. -/
def ConsistentAt (indices : UInt32 → Prop) (dom : Dom) (label : Ptr → Label) (list : NodeList) (nodes : List Ptr) : Prop :=
  ∃ (length : UInt32) (found : List Ptr), getLength dom label list = some length ∧ found.length = length.toNat ∧
    found.Sublist nodes ∧ found.Nodup ∧ (∀ n, n ∈ found ↔ Below dom list n ∧ Satisfies dom label list.filter n) ∧
    ∀ index, indices index → item dom label list index = some found[index.toNat]?

def Consistent (dom : Dom) (label : Ptr → Label) (list : NodeList) (nodes : List Ptr) : Prop :=
  ConsistentAt (fun _ => True) dom label list nodes

/-- An index that has a next one. -/
def Inner (index : UInt32) : Prop := index.toNat + 1 < 2 ^ 32

abbrev counts (dom : Dom) (label : Ptr → Label) (list : NodeList) (nodes : List Ptr) : List Ptr :=
  nodes.filter (counted dom label list.filter)

theorem found_unique {list : NodeList} {nodes found : List Ptr} (nodup : nodes.Nodup)
    (below : ∀ n, n ∈ nodes ↔ Below dom list n) (sublist : found.Sublist nodes)
    (member : ∀ n, n ∈ found ↔ Below dom list n ∧ Satisfies dom label list.filter n) :
    found = counts dom label list nodes := by
  have same : ∀ n, n ∈ found ↔ n ∈ counts dom label list nodes := by
    intro n
    rw [member, mem_filter, below, counted_iff]
  have kept : found.filter (counted dom label list.filter) = found :=
    filter_eq_self.mpr fun n inside => (mem_filter.mp ((same n).mp inside)).2
  have part := sublist.filter (counted dom label list.filter)
  rw [kept] at part
  exact part.eq_of_length
    ((perm_ext_iff_of_nodup (sublist.nodup nodup) (nodup.filter _)).mpr same).length_eq

theorem getLength_eq {list : NodeList} {nodes : List Ptr}
    (passes : Passes (successor dom list) (dom.node list.root).firstChild nodes none)
    (enough : nodes.length ≤ dom.size) :
    getLength dom label list = some (UInt32.ofNat (counts dom label list nodes).length) := by
  rw [getLength, eachNode, traverse_eq passes enough, Option.map_some, scan_length]
  simp

theorem item_eq {list : NodeList} {nodes : List Ptr}
    (passes : Passes (successor dom list) (dom.node list.root).firstChild nodes none)
    (enough : nodes.length ≤ dom.size) (index : UInt32) :
    item dom label list index =
      some (scan (countTo (reached dom label list.filter) index) nodes (UInt32.ofNat 0)).2 := by
  rw [item, eachNode, traverse_eq passes enough]
  rfl

theorem passes_head {nodes : List Ptr} (passes : Passes follow (some c) nodes none) : ∃ rest, nodes = c :: rest := by
  cases nodes with
  | nil => cases passes
  | cons n rest =>
    cases passes.1
    exact ⟨rest, rfl⟩

theorem item_last {list : NodeList} {nodes : List Ptr}
    (passes : Passes (successor dom list) (dom.node list.root).firstChild nodes none) (enough : nodes.length ≤ dom.size)
    (few : (nodes.filter (reached dom label list.filter)).length < 2 ^ 32) (zero : index + 1 = 0) :
    item dom label list index = some none ↔
      ∀ c, (dom.node list.root).firstChild = some c → reached dom label list.filter c = true := by
  rw [item_eq passes enough]
  cases start : (dom.node list.root).firstChild with
  | none =>
    rw [start] at passes
    cases nodes with
    | nil => simp [scan]
    | cons n rest => cases passes.1
  | some c =>
    rw [start] at passes
    obtain ⟨rest, rfl⟩ := passes_head passes
    cases kind : reached dom label list.filter c with
    | false => simp [scan, countTo, kind, zero]
    | true =>
      rw [filter_cons_of_pos kind, length_cons] at few
      have goes : (index + 1 == UInt32.ofNat (0 + 1)) = false := by
        rw [zero]
        rfl
      rw [scan_passed rest kind goes, scan_last (reached dom label list.filter) zero rest Nat.one_pos (by omega)]
      simp [kind]

/-- When the two functions agree at inner indices: they count in 32 bits, and they look at nodes that all have the
namespace that is compared. -/
def Alike (dom : Dom) (label : Ptr → Label) (list : NodeList) (nodes : List Ptr) : Prop :=
  (counts dom label list nodes).length < 2 ^ 32 ∧
    ∀ n ∈ nodes, Satisfies dom label list.filter n → Namespaced label list.filter n

/-- When they agree at the last index too: the first node of the walk is an item. -/
def Agreeable (dom : Dom) (label : Ptr → Label) (list : NodeList) (nodes : List Ptr) : Prop :=
  Alike dom label list nodes ∧ ∀ c, (dom.node list.root).firstChild = some c → Satisfies dom label list.filter c

theorem seen_all (ns before : List Ptr) :
    scan (fun seen n => (seen ++ [n], false)) ns before = (before ++ ns, (none : Option Ptr)) := by
  induction ns generalizing before with
  | nil => simp [scan]
  | cons n ns ih => simp [scan, ih]

theorem all_reached_of_alike {list : NodeList} {nodes : List Ptr} (alike : Alike dom label list nodes) :
    nodes.filter (reached dom label list.filter) = counts dom label list nodes := by
  apply filter_congr
  intro n inside
  rw [Bool.eq_iff_iff, reached_iff, counted_iff]
  exact ⟨And.left, fun satisfied => ⟨satisfied, alike.2 n inside satisfied⟩⟩

section Walk
variable {list : NodeList} {nodes : List Ptr}
  (passes : Passes (successor dom list) (dom.node list.root).firstChild nodes none) (enough : nodes.length ≤ dom.size)
include passes enough

theorem all_reached (few : (counts dom label list nodes).length < 2 ^ 32)
    (items : ∀ index, Inner index → item dom label list index = some (counts dom label list nodes)[index.toNat]?) :
    nodes.filter (reached dom label list.filter) = counts dom label list nodes := by
  have part : (nodes.filter (reached dom label list.filter)).Sublist (counts dom label list nodes) := by
    apply monotone_filter_right
    intro n isReached
    exact (counted_iff list.filter n).mpr ((reached_iff list.filter n).mp isReached).1
  apply part.eq_of_length_le
  by_contra fewer
  have index : (UInt32.ofNat (nodes.filter (reached dom label list.filter)).length).toNat =
      (nodes.filter (reached dom label list.filter)).length := by
    rw [UInt32.toNat_ofNat', Nat.mod_eq_of_lt (by omega)]
  have place := items (UInt32.ofNat (nodes.filter (reached dom label list.filter)).length) (by rw [Inner, index]; omega)
  rw [item_eq passes enough, scan_item _ (by omega) nodes (Nat.zero_le _), index, Nat.sub_zero,
    List.getElem?_eq_none (Nat.le_refl _), List.getElem?_eq_getElem (by omega)] at place
  cases place

theorem alike_iff (nodup : nodes.Nodup) (below : ∀ n, n ∈ nodes ↔ Below dom list n) :
    ConsistentAt Inner dom label list nodes ↔ Alike dom label list nodes := by
  constructor
  · rintro ⟨length, found, isLength, fits, sublist, -, member, items⟩
    rw [found_unique nodup below sublist member] at fits items
    have few : (counts dom label list nodes).length < 2 ^ 32 := fits ▸ length.toNat_lt
    refine ⟨few, fun n inside satisfied => ?_⟩
    have isCounted : n ∈ counts dom label list nodes := mem_filter.mpr ⟨inside, (counted_iff _ n).mpr satisfied⟩
    rw [← all_reached passes enough few items] at isCounted
    exact ((reached_iff _ n).mp (mem_filter.mp isCounted).2).2
  · intro alike
    refine ⟨_, counts dom label list nodes, getLength_eq passes enough, ?_, filter_sublist, nodup.filter _, ?_, ?_⟩
    · rw [UInt32.toNat_ofNat', Nat.mod_eq_of_lt alike.1]
    · intro n
      rw [mem_filter, below, counted_iff]
    · intro index inner
      rw [item_eq passes enough, scan_item _ inner nodes (Nat.zero_le _), all_reached_of_alike alike, Nat.sub_zero]

theorem agreeable_of_consistent (nodup : nodes.Nodup) (below : ∀ n, n ∈ nodes ↔ Below dom list n)
    (consistent : Consistent dom label list nodes) : Agreeable dom label list nodes := by
  obtain ⟨length, found, isLength, fits, sublist, nodup', member, items⟩ := consistent
  have alike : Alike dom label list nodes := (alike_iff passes enough nodup below).mp
    ⟨length, found, isLength, fits, sublist, nodup', member, fun index _ => items index trivial⟩
  rw [found_unique nodup below sublist member] at items
  refine ⟨alike, fun c first => ?_⟩
  have greatest : (-1 : UInt32).toNat = 2 ^ 32 - 1 := rfl
  have few := alike.1
  have none : (counts dom label list nodes)[(-1 : UInt32).toNat]? = none := List.getElem?_eq_none (by omega)
  have last := items (-1) trivial
  rw [none, item_last passes enough (all_reached_of_alike alike ▸ few) rfl] at last
  exact ((reached_iff _ c).mp (last c first)).1

theorem consistent_of_agreeable (nodup : nodes.Nodup) (below : ∀ n, n ∈ nodes ↔ Below dom list n)
    (agreeable : Agreeable dom label list nodes) : Consistent dom label list nodes := by
  obtain ⟨alike, first⟩ := agreeable
  obtain ⟨length, found, isLength, fits, sublist, nodup', member, items⟩ := (alike_iff passes enough nodup below).mpr alike
  refine ⟨length, found, isLength, fits, sublist, nodup', member, fun index _ => ?_⟩
  by_cases inner : Inner index
  · exact items index inner
  · have few := alike.1
    have bound := index.toNat_lt
    rw [Inner] at inner
    have zero : index + 1 = 0 := by
      rw [← UInt32.toNat_inj, UInt32.toNat_add, show index.toNat = 2 ^ 32 - 1 by omega]
      rfl
    rw [found_unique nodup below sublist member, List.getElem?_eq_none (by omega),
      item_last passes enough (all_reached_of_alike alike ▸ few) zero]
    intro c start
    have inside : c ∈ nodes := by
      rw [start] at passes
      obtain ⟨rest, rfl⟩ := passes_head passes
      exact mem_cons_self
    have satisfied := first c start
    exact (reached_iff _ c).mpr ⟨satisfied, alike.2 c inside satisfied⟩

end Walk

/-- Every walk over a list ends, having passed the nodes of the list and no others. Its length and its items are
consistent just when it is agreeable, and those at inner indices just when it is alike. -/
theorem node_lists_consistent (tree : Tree dom kids) (label : Ptr → Label) (list : NodeList) :
    ∃ nodes, Listed kids list nodes ∧ (∀ n, n ∈ nodes ↔ Below dom list n) ∧
      eachNode dom list (fun seen n => (seen ++ [n], false)) [] = some (nodes, none) ∧
      (ConsistentAt Inner dom label list nodes ↔ Alike dom label list nodes) ∧
      (Consistent dom label list nodes ↔ Agreeable dom label list nodes) := by
  obtain ⟨nodes, listed, passes, nodup, enough, below⟩ := listed_exists tree list
  refine ⟨nodes, listed, below, ?_, alike_iff passes enough nodup below, agreeable_of_consistent passes enough nodup below,
    consistent_of_agreeable passes enough nodup below⟩
  rw [eachNode, traverse_eq passes enough, seen_all, nil_append]

/-- A document with an element that has a text and another element below it; the elements have a name and no namespace. -/
def nested : Dom where
  size := 4
  node
    | 0 => { type := .document, owner := some 0, firstChild := some 1, lastChild := some 1 }
    | 1 => { type := .element, owner := some 0, parent := some 0, firstChild := some 2, lastChild := some 3 }
    | 2 => { type := .text, owner := some 0, parent := some 1, next := some 3 }
    | 3 => { type := .element, owner := some 0, parent := some 1, previous := some 2 }
    | _ => { type := .text, owner := some 0 }

def nestedKids : Ptr → List Ptr
  | 0 => [1]
  | 1 => [2, 3]
  | _ => []

def plainLabel (_ : Ptr) : Label := { name := some [0x61], inNamespace := none }

theorem nested_parent (up : (nested.node n).parent = some p) : n < 4 ∧ p < n := by
  rcases n with _ | _ | _ | _ | n
  · cases up
  · cases up
    decide
  · cases up
    decide
  · cases up
    decide
  · cases up

theorem nested_rooted (n : Ptr) : Ends (fun n => (nested.node n).parent) (some n) := by
  induction n using Nat.strong_induction_on with
  | _ n ih =>
    apply ends_cons
    cases up : (nested.node n).parent with
    | none => exact ends_none _
    | some p => exact ih p (nested_parent up).2

theorem nested_tree : Tree nested nestedKids := by
  refine ⟨fun p => ?_, fun p => ?_, fun p => ?_, fun p c => ?_, fun p => ?_, fun c => ?_, nested_rooted, fun c p up => ?_⟩
  · rcases p with _ | _ | p <;> simp [nestedKids, Threaded, nested]
  · rcases p with _ | _ | _ | _ | p <;> rfl
  · rcases p with _ | _ | _ | _ | p <;> rfl
  · rcases p with _ | _ | p <;> rcases c with _ | _ | _ | _ | c <;> simp [nestedKids, nested]
  · rcases p with _ | _ | p <;> simp [nestedKids]
  · rcases c with _ | _ | _ | _ | c <;> simp [nested]
  · have small := nested_parent up
    exact ⟨small.1, small.2.trans small.1⟩

theorem order_unique {nodes nodes' : List Ptr} (order : Order kids siblings nodes)
    (order' : Order kids siblings nodes') : nodes = nodes' := by
  induction order generalizing nodes' with
  | nil =>
    cases order'
    rfl
  | cons _ _ ihBelow ihBeside =>
    cases order' with
    | cons below beside => rw [ihBelow below, ihBeside beside]

theorem nested_order : Order nestedKids [1] [1, 2, 3] := by
  have leaf (n : Ptr) : Order nestedKids (nestedKids (n + 2)) [] := .nil
  have below : Order nestedKids (nestedKids 1) [2, 3] := .cons (leaf 0) (.cons (leaf 1) .nil)
  exact .cons below .nil

/-- The list of the elements of a name is consistent. -/
theorem elements_consistent : Listed nestedKids { root := 0, filter := .byName false [0x61] } [1, 2, 3] ∧
    Consistent nested plainLabel { root := 0, filter := .byName false [0x61] } [1, 2, 3] := by
  obtain ⟨nodes, listed, -, -, -, agree⟩ :=
    node_lists_consistent nested_tree plainLabel { root := 0, filter := .byName false [0x61] }
  obtain rfl : nodes = [1, 2, 3] := order_unique listed nested_order
  refine ⟨listed, agree.mpr ⟨⟨by decide, fun _ _ _ => trivial⟩, fun c first => ?_⟩⟩
  obtain rfl : c = 1 := (Option.some_inj.mp first).symm
  exact ⟨.inr ⟨nofun, rfl⟩, rfl⟩

/-- The list of all elements of no namespace has the length 2, and no item 0. -/
theorem element_counted_not_listed :
    Tree nested nestedKids ∧
      Listed nestedKids { root := 0, filter := .byNamespace false none (some [0x2a]) } [1, 2, 3] ∧
      ¬ Consistent nested plainLabel { root := 0, filter := .byNamespace false none (some [0x2a]) } [1, 2, 3] := by
  refine ⟨nested_tree, nested_order, ?_⟩
  rintro ⟨length, found, isLength, fits, -, -, -, items⟩
  have two : length = 2 := (Option.some_inj.mp isLength).symm
  have first := Option.some_inj.mp (items 0 trivial)
  rw [two] at fits
  change found.length = 2 at fits
  change (none : Option Ptr) = found[0]? at first
  rw [List.getElem?_eq_getElem (by omega)] at first
  cases first

end Besra.NodeLists
