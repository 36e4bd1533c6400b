import Besra.AaBalance
import Besra.HostNames

/-!
The search trees of `netsurf/content/urldb.c` in memory. Every pointer to a subtree that is empty leads to one node on
level 0 that all trees share, `empty`, whose own pointers lead back to it.
-/
namespace Besra.SearchNodes
open Lwc NsurlParse CText UrldbTree HostNames List Function Option

/-- A `host_part` below `db_root`: its part of the name, and those of its parents. -/
structure HostNode where
  part : List UInt8
  above : List (List UInt8)
deriving DecidableEq

/-- The parts of the name of a host, the first part first. -/
def HostNode.name (h : HostNode) : List (List UInt8) := h.part :: h.above

/-- The loop of `urldb_search_match_host`, with the parts on the way up. -/
def matchAbove : List (List UInt8) → List (List UInt8) → Ordering
  | a :: as, b :: bs =>
    match strcasecmp a b with
    | .eq => matchAbove as bs
    | different => different
  | _ :: _, [] => .gt
  | [], _ :: _ => .lt
  | [], [] => .eq

/-- `urldb_search_match_host` -/
def searchMatchHost (a b : HostNode) : Ordering := matchAbove a.name b.name

instance : Ord HostNode := ⟨searchMatchHost⟩

/-- The name in lower case, by which hosts are compared. -/
def HostNode.key (h : HostNode) : HostName := h.name.map insensitive

theorem matchAbove_eq (a b : List (List UInt8)) : matchAbove a b = compare (a.map insensitive) (b.map insensitive) := by
  induction a generalizing b with
  | nil => rcases b with _ | ⟨b, bs⟩ <;> rfl
  | cons a as ih =>
    rcases b with _ | ⟨b, bs⟩
    · rfl
    · rw [matchAbove, ih, map_cons, map_cons, List.compare_cons_cons]
      have parts : strcasecmp a b = compare (insensitive a) (insensitive b) := rfl
      rw [parts]
      rcases compare (insensitive a) (insensitive b) <;> rfl

theorem compare_eq (a b : HostNode) : compare a b = compare a.key b.key := matchAbove_eq a.name b.name

instance : Std.TransOrd HostNode where
  eq_swap := fun {a b} => by
    rw [compare_eq, compare_eq]
    exact Std.OrientedCmp.eq_swap
  isLE_trans := fun {a b c} => by
    rw [compare_eq, compare_eq, compare_eq]
    exact Std.TransCmp.isLE_trans

abbrev Ptr := Nat

structure SearchNode where
  data : Option HostNode
  level : Nat
  left : Ptr
  right : Ptr
deriving DecidableEq

/-- The address of `empty`. -/
def empty : Ptr := 0

/-- `empty`, as it is initialised. -/
def sentinel : SearchNode := ⟨none, 0, empty, empty⟩

/-- The nodes that are allocated and not freed, and `empty`. -/
abbrev Heap := Ptr → Option SearchNode

def write (heap : Heap) (p : Ptr) (node : SearchNode) : Heap := update heap p (some node)

/-- `urldb_search_skew` -/
def searchSkew (heap : Heap) (root : Ptr) : Option (Heap × Ptr) := do
  let node ← heap root
  let left ← heap node.left
  if left.level = node.level then
    let temp := node.left
    let heap := write heap root { node with left := left.right }
    let heap := write heap temp { (← heap temp) with right := root }
    return (heap, temp)
  else return (heap, root)

/-- `urldb_search_split` -/
def searchSplit (heap : Heap) (root : Ptr) : Option (Heap × Ptr) := do
  let node ← heap root
  let right ← heap node.right
  let far ← heap right.right
  if far.level = node.level then
    let temp := node.right
    let heap := write heap root { node with right := right.left }
    let heap := write heap temp { (← heap temp) with left := root }
    let node ← heap temp
    return (write heap temp { node with level := node.level + 1 }, temp)
  else return (heap, root)

/-- `urldb_search_insert_internal` -/
def searchInsertInternal : Nat → Heap → Ptr → Ptr → Option (Heap × Ptr)
  | 0, _, _, _ => none
  | fuel + 1, heap, root, n =>
    if root = empty then some (heap, n)
    else do
      let node ← heap root
      let new ← heap n
      match searchMatchHost (← node.data) (← new.data) with
      | .gt =>
        let (heap, left) ← searchInsertInternal fuel heap node.left n
        let heap := write heap root { (← heap root) with left }
        let (heap, root) ← searchSkew heap root
        searchSplit heap root
      | .lt =>
        let (heap, right) ← searchInsertInternal fuel heap node.right n
        let heap := write heap root { (← heap root) with right }
        let (heap, root) ← searchSkew heap root
        searchSplit heap root
      | .eq =>
        -- "exact match"
        some (update heap n none, root)

/-- `urldb_search_find` -/
def searchFind : Nat → Heap → Ptr → List UInt8 → Option (Option HostNode)
  | 0, _, _, _ => none
  | fuel + 1, heap, root, host =>
    if root = empty then some none
    else do
      let node ← heap root
      let data ← node.data
      match searchMatchString host data.name with
      | .gt => searchFind fuel heap node.left host
      | .lt => searchFind fuel heap node.right host
      | .eq => some (some data)

structure Entry where
  ptr : Ptr
  data : HostNode
deriving DecidableEq

instance : Ord Entry := ⟨fun d e => compare d.data e.data⟩

instance : Std.TransOrd Entry where
  eq_swap := fun {a b} => @Std.OrientedCmp.eq_swap HostNode compare _ a.data b.data
  isLE_trans := fun {a b c} => @Std.TransCmp.isLE_trans HostNode compare _ a.data b.data c.data

def rootOf : AaTree Entry → Ptr
  | .empty => empty
  | .node _ _ d _ => d.ptr

def Holds (heap : Heap) : AaTree Entry → Prop
  | .empty => True
  | .node lv l d r =>
    d.ptr ≠ empty ∧ heap d.ptr = some ⟨some d.data, lv, rootOf l, rootOf r⟩ ∧ Holds heap l ∧ Holds heap r

def ptrs (t : AaTree Entry) : List Ptr := t.toList.map Entry.ptr

variable {heap heap' : Heap}

theorem ptrs_node (lv : Nat) (l r : AaTree Entry) (d : Entry) : ptrs (.node lv l d r) = ptrs l ++ d.ptr :: ptrs r := by
  rw [ptrs, AaTree.toList, map_append, map_cons]
  rfl

variable {t l r : AaTree Entry} {p : Ptr} {lv : Nat} {d n : Entry}

theorem holds_congr (holds : Holds heap t) (same : ∀ p ∈ ptrs t, heap' p = heap p) : Holds heap' t := by
  induction t with
  | empty => trivial
  | node lv l d r ihl ihr =>
    rw [ptrs_node] at same
    obtain ⟨real, here, left, right⟩ := holds
    refine ⟨real, ?_, ihl left ?_, ihr right ?_⟩
    · rw [same d.ptr (by simp), here]
    · exact fun p member => same p (mem_append_left _ member)
    · exact fun p member => same p (mem_append_right _ (mem_cons_of_mem _ member))

theorem ne_empty_of_mem (holds : Holds heap t) (member : p ∈ ptrs t) : p ≠ empty := by
  induction t with
  | empty => exact absurd member not_mem_nil
  | node lv l d r ihl ihr =>
    obtain ⟨real, -, left, right⟩ := holds
    rw [ptrs_node, mem_append, mem_cons] at member
    rcases member with before | rfl | after
    · exact ihl left before
    · exact real
    · exact ihr right after

theorem level_of_holds (intact : heap empty = some sentinel) (holds : Holds heap t) :
    ∃ node, heap (rootOf t) = some node ∧ node.level = t.level := by
  rcases t with _ | ⟨lv, l, d, r⟩
  · exact ⟨sentinel, intact, rfl⟩
  · exact ⟨_, holds.2.1, rfl⟩

theorem write_self (heap : Heap) (p : Ptr) (node : SearchNode) : write heap p node p = some node :=
  update_self _ _ _

theorem write_of_ne {q : Ptr} (other : q ≠ p) (node : SearchNode) : write heap p node q = heap q :=
  update_of_ne other _ _

theorem apart_of_nodup {A B C : List Ptr} {x y : Ptr} (nodup : (A ++ x :: (B ++ y :: C)).Nodup) :
    x ≠ y ∧ (∀ p ∈ A, p ≠ x ∧ p ≠ y) ∧ (∀ p ∈ B, p ≠ x ∧ p ≠ y) ∧ ∀ p ∈ C, p ≠ x ∧ p ≠ y := by
  rw [nodup_append, nodup_cons, nodup_append, nodup_cons] at nodup
  obtain ⟨-, ⟨outX, -, ⟨outY, -⟩, apartB⟩, apartA⟩ := nodup
  rw [mem_append, mem_cons, not_or, not_or] at outX
  obtain ⟨notB, different, notC⟩ := outX
  refine ⟨different, fun p member => ⟨?_, ?_⟩, fun p member => ⟨?_, ?_⟩, fun p member => ⟨?_, ?_⟩⟩
  · exact apartA p member x mem_cons_self
  · exact apartA p member y (by simp)
  · rintro rfl
    exact notB member
  · exact apartB p member y mem_cons_self
  · rintro rfl
    exact notC member
  · rintro rfl
    exact outY member

/-- What a rotation gives: the pointer to a tree that the heap holds, with no other node written to. -/
def Gives (heap : Heap) (t t' : AaTree Entry) (result : Option (Heap × Ptr)) : Prop :=
  ∃ heap', result = some (heap', rootOf t') ∧ Holds heap' t' ∧ ∀ p, p ∉ ptrs t → heap' p = heap p

theorem searchSkew_spec (intact : heap empty = some sentinel) (holds : Holds heap (.node lv l d r))
    (nodup : (ptrs (.node lv l d r)).Nodup) (positive : 0 < lv) :
    Gives heap (.node lv l d r) (AaTree.skew (.node lv l d r)) (searchSkew heap d.ptr) := by
  obtain ⟨real, here, left, right⟩ := holds
  obtain ⟨below, at', level⟩ := level_of_holds intact left
  have start : searchSkew heap d.ptr = if below.level = lv then
      (do
        let heap := write heap d.ptr ⟨some d.data, lv, below.right, rootOf r⟩
        let heap := write heap (rootOf l) { (← heap (rootOf l)) with right := d.ptr }
        return (heap, rootOf l)) else some (heap, d.ptr) := by
    rw [searchSkew, here]
    simp only [bind_eq_bind, bind_some]
    rw [at']
    rfl
  rw [start, level]
  rcases l with _ | ⟨lv', a, x, b⟩
  · have apart : ¬(AaTree.empty : AaTree Entry).level = lv := fun same => absurd same positive.ne
    rw [if_neg apart]
    exact ⟨heap, rfl, ⟨real, here, left, right⟩, fun _ _ => rfl⟩
  · have level' : (AaTree.node lv' a x b).level = lv' := rfl
    rw [level', AaTree.skew]
    by_cases flat : lv' = lv
    · obtain ⟨realX, hereX, leftA, leftB⟩ := left
      have same : below = ⟨some x.data, lv', rootOf a, rootOf b⟩ := some_inj.mp (at'.symm.trans hereX)
      rw [if_pos flat, if_pos flat]
      rw [ptrs_node, ptrs_node] at nodup
      rw [append_assoc, cons_append] at nodup
      obtain ⟨apart, inA, inB, inR⟩ := apart_of_nodup nodup
      let turned := write (write heap d.ptr ⟨some d.data, lv, rootOf b, rootOf r⟩) x.ptr
        ⟨some x.data, lv', rootOf a, d.ptr⟩
      have others : ∀ p, p ≠ x.ptr → p ≠ d.ptr → turned p = heap p := fun p notX notD =>
        (write_of_ne notX _).trans (write_of_ne notD _)
      refine ⟨turned, ?_, ⟨realX, write_self _ _ _, ?_, real, ?_, ?_, ?_⟩, ?_⟩
      · have root : rootOf (.node lv' a x b) = x.ptr := rfl
        rw [root, same]
        simp only [bind_eq_bind]
        rw [write_of_ne apart, hereX]
        rfl
      · exact holds_congr leftA (fun p member => others p (inA p member).1 (inA p member).2)
      · exact (write_of_ne apart.symm _).trans (write_self _ _ _)
      · exact holds_congr leftB (fun p member => others p (inB p member).1 (inB p member).2)
      · exact holds_congr right (fun p member => others p (inR p member).1 (inR p member).2)
      · intro p out
        rw [ptrs_node, ptrs_node] at out
        refine others p ?_ ?_ <;> rintro rfl <;> simp at out
    · rw [if_neg flat, if_neg flat]
      exact ⟨heap, rfl, ⟨real, here, left, right⟩, fun _ _ => rfl⟩

theorem searchSplit_spec {a : AaTree Entry} {x : Entry} (intact : heap empty = some sentinel)
    (holds : Holds heap (.node lv a x r)) (nodup : (ptrs (.node lv a x r)).Nodup) (positive : 0 < lv) :
    Gives heap (.node lv a x r) (AaTree.split (.node lv a x r)) (searchSplit heap x.ptr) := by
  obtain ⟨real, here, left, right⟩ := holds
  rcases r with _ | ⟨lv', b, y, c⟩
  · have still : searchSplit heap x.ptr = some (heap, x.ptr) := by
      have apart : ¬sentinel.level = lv := fun same => absurd same positive.ne
      rw [searchSplit, here]
      simp only [bind_eq_bind, bind_some]
      have none' : rootOf (.empty : AaTree Entry) = empty := rfl
      rw [none', intact, bind_some]
      have again : sentinel.right = empty := rfl
      rw [again, intact, bind_some, if_neg apart]
      rfl
    rw [still]
    exact ⟨heap, rfl, ⟨real, here, left, trivial⟩, fun _ _ => rfl⟩
  · obtain ⟨realY, hereY, leftB, rightC⟩ := right
    obtain ⟨far, at', level⟩ := level_of_holds intact rightC
    have start : searchSplit heap x.ptr = if far.level = lv then
        (do
          let heap := write heap x.ptr ⟨some x.data, lv, rootOf a, rootOf b⟩
          let heap := write heap y.ptr { (← heap y.ptr) with left := x.ptr }
          let node ← heap y.ptr
          return (write heap y.ptr { node with level := node.level + 1 }, y.ptr)) else some (heap, x.ptr) := by
      rw [searchSplit, here]
      simp only [bind_eq_bind, bind_some]
      have root : rootOf (.node lv' b y c) = y.ptr := rfl
      rw [root, hereY]
      simp only [bind_some]
      rw [at']
      rfl
    rw [start, level, AaTree.split]
    by_cases flat : c.level = lv
    · rw [if_pos flat, if_pos flat]
      rw [ptrs_node, ptrs_node] at nodup
      obtain ⟨apart, inA, inB, inC⟩ := apart_of_nodup nodup
      let turned := write (write (write heap x.ptr ⟨some x.data, lv, rootOf a, rootOf b⟩) y.ptr
        ⟨some y.data, lv', x.ptr, rootOf c⟩) y.ptr ⟨some y.data, lv' + 1, x.ptr, rootOf c⟩
      have others : ∀ p, p ≠ x.ptr → p ≠ y.ptr → turned p = heap p := fun p notX notY =>
        (write_of_ne notY _).trans ((write_of_ne notY _).trans (write_of_ne notX _))
      refine ⟨turned, ?_, ⟨realY, write_self _ _ _, ⟨real, ?_, ?_, ?_⟩, ?_⟩, ?_⟩
      · simp only [bind_eq_bind]
        rw [write_of_ne apart.symm, hereY]
        simp only [bind_some]
        rw [write_self]
        rfl
      · exact (write_of_ne apart _).trans ((write_of_ne apart _).trans (write_self _ _ _))
      · exact holds_congr left (fun p member => others p (inA p member).1 (inA p member).2)
      · exact holds_congr leftB (fun p member => others p (inB p member).1 (inB p member).2)
      · exact holds_congr rightC (fun p member => others p (inC p member).1 (inC p member).2)
      · intro p out
        rw [ptrs_node, ptrs_node] at out
        refine others p ?_ ?_ <;> rintro rfl <;> simp at out
    · rw [if_neg flat, if_neg flat]
      exact ⟨heap, rfl, ⟨real, here, left, realY, hereY, leftB, rightC⟩, fun _ _ => rfl⟩

theorem rotations_spec (intact : heap empty = some sentinel) (holds : Holds heap (.node lv l d r))
    (nodup : (ptrs (.node lv l d r)).Nodup) (positive : 0 < lv) :
    Gives heap (.node lv l d r) (AaTree.split (AaTree.skew (.node lv l d r)))
      ((searchSkew heap d.ptr).bind (fun (heap, root) => searchSplit heap root)) := by
  obtain ⟨heap₁, skewed, holds₁, others₁⟩ := searchSkew_spec intact holds nodup positive
  have listed : ptrs (AaTree.skew (.node lv l d r)) = ptrs (.node lv l d r) := by
    rw [ptrs, AaTree.toList_skew, ptrs]
  have out : empty ∉ ptrs (.node lv l d r) := fun member => ne_empty_of_mem holds member rfl
  have intact₁ : heap₁ empty = some sentinel := (others₁ empty out).trans intact
  obtain ⟨lv', a, x, b, shape, positive'⟩ : ∃ lv' a x b, AaTree.skew (.node lv l d r) = .node lv' a x b ∧ 0 < lv' := by
    rcases l with _ | ⟨lv', a, x, b⟩
    · exact ⟨lv, .empty, d, r, rfl, positive⟩
    · rw [AaTree.skew]
      split
      next flat => exact ⟨lv', a, x, _, rfl, by omega⟩
      next => exact ⟨lv, _, d, r, rfl, positive⟩
  rw [shape] at holds₁ skewed listed ⊢
  obtain ⟨heap₂, splitted, holds₂, others₂⟩ := searchSplit_spec intact₁ holds₁ (by rwa [listed]) positive'
  refine ⟨heap₂, ?_, holds₂, fun p member => ?_⟩
  · rw [skewed, bind_some]
    exact splitted
  · rw [others₂ p (by rwa [listed]), others₁ p member]

theorem relinked_spec (intact : heap empty = some sentinel) (real : d.ptr ≠ empty) (left : Holds heap l)
    (right : Holds heap r) (nodup : (ptrs (.node lv l d r)).Nodup) (positive : 0 < lv) :
    Gives heap (.node lv l d r) (AaTree.split (AaTree.skew (.node lv l d r)))
      ((searchSkew (write heap d.ptr ⟨some d.data, lv, rootOf l, rootOf r⟩) d.ptr).bind
        (fun (heap, root) => searchSplit heap root)) := by
  have distinct := nodup
  rw [ptrs_node] at distinct
  obtain ⟨-, distinctR, across⟩ := nodup_append.mp distinct
  obtain ⟨outR, -⟩ := nodup_cons.mp distinctR
  have outL : d.ptr ∉ ptrs l := fun member => across d.ptr member d.ptr mem_cons_self rfl
  have linked : Holds (write heap d.ptr ⟨some d.data, lv, rootOf l, rootOf r⟩) (.node lv l d r) := by
    refine ⟨real, write_self _ _ _, holds_congr left (fun p member => ?_), holds_congr right (fun p member => ?_)⟩
    · exact write_of_ne (fun same : p = d.ptr => outL (same ▸ member)) _
    · exact write_of_ne (fun same : p = d.ptr => outR (same ▸ member)) _
  have intact' : write heap d.ptr ⟨some d.data, lv, rootOf l, rootOf r⟩ empty = some sentinel := by
    rw [write_of_ne real.symm, intact]
  obtain ⟨heap', turned, holds, others⟩ := rotations_spec intact' linked nodup positive
  refine ⟨heap', turned, holds, fun p out => ?_⟩
  have other : p ≠ d.ptr := fun same => out (by rw [ptrs_node, same]; simp)
  rw [others p out, write_of_ne other]

theorem ptrs_insert (n : Entry) (t : AaTree Entry) : ptrs (t.insert n) = ptrs t ∨
    ∃ A B, ptrs t = A ++ B ∧ ptrs (t.insert n) = A ++ n.ptr :: B := by
  rcases AaTree.toList_insert n t with same | ⟨l, r, whole, put⟩
  · exact .inl (by rw [ptrs, same, ptrs])
  · exact .inr ⟨l.map Entry.ptr, r.map Entry.ptr, by rw [ptrs, whole, map_append], by rw [ptrs, put]; simp⟩

theorem mem_ptrs_insert (member : p ∈ ptrs (t.insert n)) : p = n.ptr ∨ p ∈ ptrs t := by
  obtain ⟨e, inside, rfl⟩ := List.mem_map.mp member
  rcases AaTree.mem_of_mem_insert inside with rfl | old
  · exact .inl rfl
  · exact .inr (List.mem_map_of_mem old)

theorem nodup_insert {n : Entry} {t : AaTree Entry} {before after : List Ptr}
    (nodup : (before ++ ptrs t ++ after).Nodup) (fresh : n.ptr ∉ before ++ ptrs t ++ after) :
    (before ++ ptrs (t.insert n) ++ after).Nodup := by
  rcases ptrs_insert n t with same | ⟨A, B, whole, put⟩
  · rwa [same]
  · rw [whole] at nodup fresh
    rw [put]
    have moved : (before ++ (A ++ n.ptr :: B) ++ after).Perm (n.ptr :: (before ++ (A ++ B) ++ after)) := by
      have middle := @perm_middle _ n.ptr (before ++ A) (B ++ after)
      simpa using middle
    exact moved.nodup_iff.mpr (nodup_cons.mpr ⟨fresh, nodup⟩)

theorem searchInsertInternal_node {left right : Ptr} (fuel : Nat) (real : d.ptr ≠ empty)
    (here : heap d.ptr = some ⟨some d.data, lv, left, right⟩) (new : heap n.ptr = some ⟨some n.data, 1, empty, empty⟩) :
    searchInsertInternal (fuel + 1) heap d.ptr n.ptr =
      match compare d n with
      | .gt => (searchInsertInternal fuel heap left n.ptr).bind (fun (heap, left) =>
          (heap d.ptr).bind (fun node =>
            (searchSkew (write heap d.ptr { node with left }) d.ptr).bind (fun (heap, root) => searchSplit heap root)))
      | .lt => (searchInsertInternal fuel heap right n.ptr).bind (fun (heap, right) =>
          (heap d.ptr).bind (fun node =>
            (searchSkew (write heap d.ptr { node with right }) d.ptr).bind (fun (heap, root) => searchSplit heap root)))
      | .eq => some (update heap n.ptr none, d.ptr) := by
  rw [searchInsertInternal, if_neg real, here]
  simp only [bind_eq_bind, bind_some]
  rw [new]
  rfl

/-- The insertion gives the pointer to the tree with the new datum, and writes to no other node. -/
theorem searchInsertInternal_spec {fuel : Nat} (intact : heap empty = some sentinel) (holds : Holds heap t)
    (balanced : t.Balanced) (nodup : (ptrs t).Nodup) (fresh : n.ptr ∉ ptrs t) (real : n.ptr ≠ empty)
    (new : heap n.ptr = some ⟨some n.data, 1, empty, empty⟩) (enough : t.toList.length < fuel) :
    ∃ heap', searchInsertInternal fuel heap (rootOf t) n.ptr = some (heap', rootOf (t.insert n)) ∧
      Holds heap' (t.insert n) ∧ ∀ p, p ∉ ptrs t → p ≠ n.ptr → heap' p = heap p := by
  induction t generalizing fuel with
  | empty =>
    obtain ⟨fuel, rfl⟩ := Nat.exists_eq_succ_of_ne_zero (Nat.ne_of_gt (Nat.lt_of_le_of_lt (Nat.zero_le _) enough))
    exact ⟨heap, rfl, ⟨real, new, trivial, trivial⟩, fun _ _ _ => rfl⟩
  | node lv l d r ihl ihr =>
    obtain ⟨fuel, rfl⟩ := Nat.exists_eq_succ_of_ne_zero (Nat.ne_of_gt (Nat.lt_of_le_of_lt (Nat.zero_le _) enough))
    have unlisted : empty ∉ ptrs (.node lv l d r) := fun member => ne_empty_of_mem holds member rfl
    obtain ⟨realD, here, left, right⟩ := holds
    have shape := ptrs_node lv l r d
    rw [shape] at nodup fresh unlisted
    obtain ⟨nodupL, nodupR, across⟩ := nodup_append.mp nodup
    obtain ⟨outR, nodupR⟩ := nodup_cons.mp nodupR
    have outL : d.ptr ∉ ptrs l := fun member => across d.ptr member d.ptr mem_cons_self rfl
    have notL : n.ptr ∉ ptrs l := fun member => fresh (mem_append_left _ member)
    have notR : n.ptr ∉ ptrs r := fun member => fresh (by simp [member])
    have notD : d.ptr ≠ n.ptr := fun same => fresh (by simp [same])
    rw [AaTree.toList, length_append, length_cons] at enough
    have root : rootOf (.node lv l d r) = d.ptr := rfl
    rw [root, searchInsertInternal_node fuel realD here new, AaTree.insert]
    rcases compare d n
    · -- to the right
      have short : r.toList.length < fuel := by omega
      obtain ⟨heap₁, inserted, holds₁, others₁⟩ := ihr right balanced.2.2.2.2 nodupR notR short
      have own : heap₁ d.ptr = some ⟨some d.data, lv, rootOf l, rootOf r⟩ := (others₁ d.ptr outR notD).trans here
      have intact₁ : heap₁ empty = some sentinel :=
        (others₁ empty (fun member => unlisted (by simp [member])) real.symm).trans intact
      have left₁ : Holds heap₁ l := holds_congr left (fun p member => others₁ p
        (fun later => across p member p (mem_cons_of_mem _ later) rfl)
        (fun same : p = n.ptr => notL (same ▸ member)))
      have distinct : (ptrs (.node lv l d (r.insert n))).Nodup := by
        rw [ptrs_node]
        have grown := @nodup_insert n r (ptrs l ++ [d.ptr]) [] (by simpa using nodup) (by simpa using fresh)
        simpa using grown
      obtain ⟨heap₂, turned, holds₂, others₂⟩ := relinked_spec intact₁ realD left₁ holds₁ distinct balanced.pos
      refine ⟨heap₂, ?_, holds₂, fun p out other => ?_⟩
      · dsimp only
        rw [inserted, bind_some]
        dsimp only
        rw [own, bind_some]
        exact turned
      · rw [shape, mem_append, mem_cons, not_or, not_or] at out
        have out₂ : p ∉ ptrs (.node lv l d (r.insert n)) := by
          rw [ptrs_node, mem_append, mem_cons, not_or, not_or]
          exact ⟨out.1, out.2.1, fun member => (mem_ptrs_insert member).elim other out.2.2⟩
        rw [others₂ p out₂, others₁ p out.2.2 other]
    · -- the new node is freed
      refine ⟨_, rfl, ⟨realD, ?_, holds_congr left ?_, holds_congr right ?_⟩, fun p _ other => ?_⟩
      · rw [update_of_ne notD, here]
      · exact fun p member => update_of_ne (fun same : p = n.ptr => notL (same ▸ member)) _ _
      · exact fun p member => update_of_ne (fun same : p = n.ptr => notR (same ▸ member)) _ _
      · exact update_of_ne other _ _
    · -- to the left
      have short : l.toList.length < fuel := by omega
      obtain ⟨heap₁, inserted, holds₁, others₁⟩ := ihl left balanced.2.2.2.1 nodupL notL short
      have own : heap₁ d.ptr = some ⟨some d.data, lv, rootOf l, rootOf r⟩ := (others₁ d.ptr outL notD).trans here
      have intact₁ : heap₁ empty = some sentinel :=
        (others₁ empty (fun member => unlisted (by simp [member])) real.symm).trans intact
      have right₁ : Holds heap₁ r := holds_congr right (fun p member => others₁ p
        (fun before => across p before p (mem_cons_of_mem _ member) rfl)
        (fun same : p = n.ptr => notR (same ▸ member)))
      have distinct : (ptrs (.node lv (l.insert n) d r)).Nodup := by
        rw [ptrs_node]
        exact @nodup_insert n l [] (d.ptr :: ptrs r) nodup fresh
      obtain ⟨heap₂, turned, holds₂, others₂⟩ := relinked_spec intact₁ realD holds₁ right₁ distinct balanced.pos
      refine ⟨heap₂, ?_, holds₂, fun p out other => ?_⟩
      · dsimp only
        rw [inserted, bind_some]
        dsimp only
        rw [own, bind_some]
        exact turned
      · rw [shape, mem_append, mem_cons, not_or, not_or] at out
        have out₂ : p ∉ ptrs (.node lv (l.insert n) d r) := by
          rw [ptrs_node, mem_append, mem_cons, not_or, not_or]
          exact ⟨fun member => (mem_ptrs_insert member).elim other out.1, out.2.1, out.2.2⟩
        rw [others₂ p out₂, others₁ p out.1 other]

end Besra.SearchNodes
