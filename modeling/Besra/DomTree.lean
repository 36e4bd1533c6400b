import Besra.DomNode

/-!
What it is for the nodes of a document to form trees, and the one way in which the
operations change them: of the children of a node a part is cut out, and nodes that are
loose, or all children of a fragment, are put in its place.
-/
namespace Besra.DomTree
open PointerChain DomNode List

/-- The links of all nodes agree with each other and with lists of children. -/
structure Tree (dom : Dom) (kids : Ptr → List Ptr) : Prop where
  threaded : ∀ p, Threaded (fun n => (dom.node n).next) (fun n => (dom.node n).previous) none (kids p) none
  first : ∀ p, (dom.node p).firstChild = (kids p).head?
  last : ∀ p, (dom.node p).lastChild = (kids p).getLast?
  child : ∀ p c, c ∈ kids p ↔ (dom.node c).parent = some p
  nodup : ∀ p, (kids p).Nodup
  loose : ∀ c, (dom.node c).parent = none → (dom.node c).previous = none ∧ (dom.node c).next = none
  rooted : ∀ n, Ends (fun n => (dom.node n).parent) (some n)
  there : ∀ c p, (dom.node c).parent = some p → c < dom.size ∧ p < dom.size

/-- `mid` is cut out of the children of `p`, which were `l ++ mid ++ r`, and `ns` put in its place, the children of `src`. -/
structure Spliced (dom dom' : Dom) (p : Ptr) (l mid ns r : List Ptr) (src : Option Ptr) : Prop where
  size : dom'.size = dom.size
  next : ∀ n, (dom'.node n).next =
    if l.getLast? = some n then (ns ++ r).head? else if ns.getLast? = some n then r.head?
    else if n ∈ mid then none else (dom.node n).next
  previous : ∀ n, (dom'.node n).previous =
    if r.head? = some n then (l ++ ns).getLast? else if ns.head? = some n then l.getLast?
    else if n ∈ mid then none else (dom.node n).previous
  parent : ∀ n, (dom'.node n).parent = if n ∈ mid then none else if n ∈ ns then some p else (dom.node n).parent
  first : ∀ q, (dom'.node q).firstChild =
    if q = p then (l ++ ns ++ r).head? else if src = some q then none else (dom.node q).firstChild
  last : ∀ q, (dom'.node q).lastChild =
    if q = p then (l ++ ns ++ r).getLast? else if src = some q then none else (dom.node q).lastChild

/-- The nodes `ns` may be put among the children of `p`. -/
structure Movable (dom : Dom) (kids : Ptr → List Ptr) (p : Ptr) (ns : List Ptr) (src : Option Ptr) : Prop where
  threaded : Threaded (fun n => (dom.node n).next) (fun n => (dom.node n).previous) none ns none
  nodup : ns.Nodup
  parent : ∀ c ∈ ns, (dom.node c).parent = src
  source : ∀ f, src = some f → f ≠ p ∧ kids f = ns
  notAbove : ∀ as, Leads (fun n => (dom.node n).parent) (some p) as none → ∀ c ∈ ns, c ∉ as
  there : ∀ c ∈ ns, c < dom.size ∧ p < dom.size

variable {dom dom' : Dom} {kids : Ptr → List Ptr} {p : Ptr} {l mid ns r : List Ptr} {src : Option Ptr}

def spliceKids (kids : Ptr → List Ptr) (p : Ptr) (ks : List Ptr) (src : Option Ptr) (q : Ptr) : List Ptr :=
  if q = p then ks else if src = some q then [] else kids q

theorem spliced_rooted (tree : Tree dom kids) (spliced : Spliced dom dom' p l mid ns r src)
    (movable : Movable dom kids p ns src) (n : Ptr) : Ends (fun n => (dom'.node n).parent) (some n) := by
  have above : Ends (fun n => (dom'.node n).parent) (some p) := by
    obtain ⟨as, leads⟩ := tree.rooted p
    refine ends_of leads (fun m member => ?_)
    have fresh : m ∉ ns := fun inside => movable.notAbove as leads m inside member
    rw [spliced.parent m, if_neg fresh]
    split
    · exact .inr (ends_none _)
    · exact .inl rfl
  obtain ⟨as, leads⟩ := tree.rooted n
  refine ends_of leads (fun m _ => ?_)
  rw [spliced.parent m]
  split
  · exact .inr (ends_none _)
  · split
    · exact .inr above
    · exact .inl rfl

theorem movable_outside (tree : Tree dom kids) (movable : Movable dom kids p ns src) {c : Ptr} (member : c ∈ ns) :
    c ∉ kids p := by
  intro inside
  rw [tree.child, movable.parent c member] at inside
  exact (movable.source p inside).1 rfl

theorem ne_last {ns : List Ptr} {n : Ptr} (fresh : n ∉ ns) : ns.getLast? ≠ some n :=
  fun last => fresh (List.mem_of_getLast? last)

theorem ne_first {ns : List Ptr} {n : Ptr} (fresh : n ∉ ns) : ns.head? ≠ some n :=
  fun first => fresh (List.mem_of_head? first)

theorem spliced_threaded (tree : Tree dom kids) (spliced : Spliced dom dom' p l mid ns r src)
    (movable : Movable dom kids p ns src) (own : kids p = l ++ mid ++ r) :
    Threaded (fun n => (dom'.node n).next) (fun n => (dom'.node n).previous) none (l ++ ns ++ r) none := by
  have nodup := tree.nodup p
  have threaded := tree.threaded p
  have outside : ∀ c ∈ ns, c ∉ l ∧ c ∉ mid ∧ c ∉ r := by
    intro c member
    have fresh := movable_outside tree movable member
    rw [own, mem_append, mem_append] at fresh
    exact ⟨fun m => fresh (.inl (.inl m)), fun m => fresh (.inl (.inr m)), fun m => fresh (.inr m)⟩
  rw [own] at nodup threaded
  obtain ⟨nodup', nodupR, apartR⟩ := nodup_append.mp nodup
  obtain ⟨nodupL, -, apartM⟩ := nodup_append.mp nodup'
  rw [append_assoc, threaded_append] at threaded
  rw [append_assoc, threaded_append, threaded_append]
  obtain ⟨left, right⟩ := threaded
  obtain ⟨-, right⟩ := threaded_append.mp right
  refine ⟨left.ends nodupL ?_ ?_, movable.threaded.ends movable.nodup ?_ ?_, right.ends nodupR ?_ ?_⟩
  all_goals intro n member
  · have notNew : n ∉ ns := fun inside => (outside n inside).1 member
    have notCut : n ∉ mid := fun inside => apartM n member n inside rfl
    rw [spliced.next, if_neg (ne_last notNew), if_neg notCut, Option.or_none]
  · have notNew : n ∉ ns := fun inside => (outside n inside).1 member
    have notCut : n ∉ mid := fun inside => apartM n member n inside rfl
    have notRight : n ∉ r := fun inside => apartR n (mem_append_left _ member) n inside rfl
    rw [spliced.previous, if_neg (ne_first notRight), if_neg (ne_first notNew), if_neg notCut]
    split
    next first => exact left.previous_first first
    next => rfl
  · obtain ⟨notLeft, notCut, -⟩ := outside n member
    rw [spliced.next, if_neg (ne_last notLeft), if_neg notCut, Option.or_none]
  · obtain ⟨-, notCut, notRight⟩ := outside n member
    rw [spliced.previous, if_neg (ne_first notRight), if_neg notCut, Option.or_none]
  · have notNew : n ∉ ns := fun inside => (outside n inside).2.2 member
    have notLeft : n ∉ l := fun inside => apartR n (mem_append_left _ inside) n member rfl
    have notCut : n ∉ mid := fun inside => apartR n (mem_append_right _ inside) n member rfl
    rw [spliced.next, if_neg (ne_last notLeft), if_neg (ne_last notNew), if_neg notCut]
    split
    next last => exact right.next_last last
    next => rfl
  · have notNew : n ∉ ns := fun inside => (outside n inside).2.2 member
    have notCut : n ∉ mid := fun inside => apartR n (mem_append_right _ inside) n member rfl
    rw [spliced.previous, if_neg (ne_first notNew), if_neg notCut, List.getLast?_append, Option.or_none]

theorem spliced_child (tree : Tree dom kids) (spliced : Spliced dom dom' p l mid ns r src)
    (movable : Movable dom kids p ns src) (own : kids p = l ++ mid ++ r) (q c : Ptr) :
    c ∈ spliceKids kids p (l ++ ns ++ r) src q ↔ (dom'.node c).parent = some q := by
  have inside : ∀ k ∈ mid, (dom.node k).parent = some p :=
    fun k member => (tree.child p k).mp (by rw [own]; simp [member])
  have outside : ∀ k ∈ ns, k ∉ l ++ mid ++ r := fun k member => own ▸ movable_outside tree movable member
  have before := tree.child q c
  rw [spliced.parent c]
  unfold spliceKids
  split
  next same =>
    subst same
    have nodup := tree.nodup q
    rw [own] at nodup before
    split
    next cut =>
      obtain ⟨nodup', -, apartR⟩ := nodup_append.mp nodup
      have notLeft : c ∉ l := fun left => (nodup_append.mp nodup').2.2 c left c cut rfl
      have notRight : c ∉ r := fun right => apartR c (mem_append_right _ cut) c right rfl
      have notNew : c ∉ ns := fun new => outside c new (by simp [cut])
      simp [notLeft, notRight, notNew]
    next notCut =>
      split
      next new => simp [new]
      next notNew => simpa [notCut, notNew] using before
  next other =>
    have apart : c ∈ mid → (dom.node c).parent ≠ some q := by
      intro cut same
      exact other (Option.some_inj.mp ((inside c cut).symm.trans same)).symm
    split
    next source =>
      obtain ⟨-, all⟩ := movable.source q source
      rw [all] at before
      have notSelf : p ≠ q := fun same => other same.symm
      split
      · simp
      · split
        · simp [notSelf]
        next notNew => simpa [notNew] using before
    next notSource =>
      split
      next cut => simp [before, apart cut]
      · split
        next new =>
          have notSelf : p ≠ q := fun same => other same.symm
          rw [before, movable.parent c new]
          simp [notSource, notSelf]
        next => exact before

theorem spliced_same (tree : Tree dom kids) (spliced : Spliced dom dom' p l mid ns r src)
    (own : kids p = l ++ mid ++ r) {c : Ptr} (apart : (dom.node c).parent ≠ some p) (notNew : c ∉ ns) :
    (dom'.node c).next = (dom.node c).next ∧ (dom'.node c).previous = (dom.node c).previous := by
  have outside : c ∉ l ++ mid ++ r := fun inside => apart ((tree.child p c).mp (own ▸ inside))
  rw [mem_append, mem_append] at outside
  have notLeft : c ∉ l := fun inside => outside (.inl (.inl inside))
  have notCut : c ∉ mid := fun inside => outside (.inl (.inr inside))
  have notRight : c ∉ r := fun inside => outside (.inr inside)
  constructor
  · rw [spliced.next, if_neg (ne_last notLeft), if_neg (ne_last notNew), if_neg notCut]
  · rw [spliced.previous, if_neg (ne_first notRight), if_neg (ne_first notNew), if_neg notCut]

theorem spliced_tree (tree : Tree dom kids) (spliced : Spliced dom dom' p l mid ns r src)
    (movable : Movable dom kids p ns src) (own : kids p = l ++ mid ++ r) :
    Tree dom' (spliceKids kids p (l ++ ns ++ r) src) := by
  have outside : ∀ c ∈ ns, c ∉ l ++ mid ++ r := fun c member => own ▸ movable_outside tree movable member
  have child := spliced_child tree spliced movable own
  have nodup := tree.nodup p
  rw [own] at nodup
  refine ⟨fun q => ?_, fun q => ?_, fun q => ?_, child, fun q => ?_, fun c lone => ?_,
    spliced_rooted tree spliced movable, fun c q below => ?_⟩
  · unfold spliceKids
    split
    · exact spliced_threaded tree spliced movable own
    next other =>
      split
      · trivial
      next notSource =>
        have same : ∀ c ∈ kids q, (dom'.node c).next = (dom.node c).next ∧
            (dom'.node c).previous = (dom.node c).previous := by
          intro c member
          have parent := (tree.child q c).mp member
          refine spliced_same tree spliced own (fun below => ?_) (fun new => ?_)
          · exact other (Option.some_inj.mp (parent.symm.trans below))
          · exact notSource ((movable.parent c new).symm.trans parent)
        exact threaded_congr (tree.threaded q) (fun c member => (same c member).1) (fun c member => (same c member).2)
  · rw [spliced.first]
    unfold spliceKids
    split
    · rfl
    · split
      · rfl
      · exact tree.first q
  · rw [spliced.last]
    unfold spliceKids
    split
    · rfl
    · split
      · rfl
      · exact tree.last q
  · unfold spliceKids
    split
    · obtain ⟨nodup', nodupR, apartR⟩ := nodup_append.mp nodup
      obtain ⟨nodupL, -, -⟩ := nodup_append.mp nodup'
      refine nodup_append.mpr ⟨nodup_append.mpr ⟨nodupL, movable.nodup, ?_⟩, nodupR, ?_⟩
      · rintro a left b new rfl
        exact outside a new (by simp [left])
      · rintro a inside b right rfl
        rcases mem_append.mp inside with left | new
        · exact apartR a (mem_append_left _ left) a right rfl
        · exact outside a new (by simp [right])
    · split
      · exact nodup_nil
      · exact tree.nodup q
  · rw [spliced.parent] at lone
    split at lone
    next cut =>
      obtain ⟨nodup', -, apartR⟩ := nodup_append.mp nodup
      have notLeft : c ∉ l := fun left => (nodup_append.mp nodup').2.2 c left c cut rfl
      have notRight : c ∉ r := fun right => apartR c (mem_append_right _ cut) c right rfl
      have notNew : c ∉ ns := fun new => outside c new (by simp [cut])
      rw [spliced.previous, spliced.next, if_neg (ne_last notLeft), if_neg (ne_last notNew), if_neg (ne_first notRight),
        if_neg (ne_first notNew), if_pos cut, if_pos cut]
      exact ⟨rfl, rfl⟩
    · split at lone
      · cases lone
      next notNew =>
        obtain ⟨next, previous⟩ := spliced_same tree spliced own (by simp [lone]) notNew
        rw [next, previous]
        exact tree.loose c lone
  · rw [spliced.parent] at below
    rw [spliced.size]
    split at below
    · cases below
    · split at below
      next new => exact Option.some_inj.mp below ▸ movable.there c new
      next => exact tree.there c q below

end Besra.DomTree
