import Besra.DomTree

/-!
What the functions that write links do: attaching a range, detaching a node and replacing
one each splice the children of a node.
-/
namespace Besra.DomLinks
open PointerChain DomNode DomTree Option

variable {dom dom' : Dom} {kids : Ptr → List Ptr} {p : Ptr} {l mid ns r : List Ptr} {src : Option Ptr}

/-- The nodes `ns` linked between two siblings under `p`, but for their parent. -/
def linked (dom : Dom) (p : Ptr) (ns : List Ptr) (previous next : Option Ptr) : Dom :=
  { dom with node := fun n => { dom.node n with
      next := if previous = some n then ns.head? else if ns.getLast? = some n then next else (dom.node n).next
      previous := if next = some n then ns.getLast? else if ns.head? = some n then previous else (dom.node n).previous
      firstChild := if previous = none ∧ n = p then ns.head? else (dom.node n).firstChild
      lastChild := if next = none ∧ n = p then ns.getLast? else (dom.node n).lastChild } }

/-- The nodes `ns` linked between two siblings under `p`. -/
def attached (dom : Dom) (p : Ptr) (ns : List Ptr) (previous next : Option Ptr) : Dom :=
  { linked dom p ns previous next with node := fun n =>
      if n ∈ ns then { (linked dom p ns previous next).node n with parent := some p }
      else (linked dom p ns previous next).node n }

theorem node_attached (dom : Dom) (p : Ptr) (ns : List Ptr) (previous next : Option Ptr) (n : Ptr) :
    (attached dom p ns previous next).node n = { dom.node n with
      next := if previous = some n then ns.head? else if ns.getLast? = some n then next else (dom.node n).next
      previous := if next = some n then ns.getLast? else if ns.head? = some n then previous else (dom.node n).previous
      parent := if n ∈ ns then some p else (dom.node n).parent
      firstChild := if previous = none ∧ n = p then ns.head? else (dom.node n).firstChild
      lastChild := if next = none ∧ n = p then ns.getLast? else (dom.node n).lastChild } := by
  unfold attached linked
  dsimp only
  split <;> rfl

theorem set_previous (dom : Dom) (n : Ptr) (previous : Option Ptr) :
    dom.set n (fun n => { n with previous }) = { dom with node := fun m =>
      { dom.node m with previous := if some n = some m then previous else (dom.node m).previous } } := by
  rw [set_eq]
  congr 1
  funext m
  split
  next same => simp [same]
  next other => simp [Ne.symm other]

theorem set_next (dom : Dom) (n : Ptr) (next : Option Ptr) :
    dom.set n (fun n => { n with next }) = { dom with node := fun m =>
      { dom.node m with next := if some n = some m then next else (dom.node m).next } } := by
  rw [set_eq]
  congr 1
  funext m
  split
  next same => simp [same]
  next other => simp [Ne.symm other]

variable {next previous : Option Ptr} {last first node old : Ptr}

theorem linked_eq (begins : ns.head? = some first) (stops : ns.getLast? = some last) :
    (((dom.set first (fun n => { n with previous })).set last (fun n => { n with next })).linkAfter p previous
      (some first)).linkBefore p next (some last) = linked dom p ns previous next := by
  rw [set_previous, set_next, linkAfter_eq, linkBefore_eq, ← begins, ← stops]
  rfl

theorem link_range {ends : Bool}
    (threaded : Threaded (fun n => (dom.node n).next) (fun n => (dom.node n).previous) none ns none)
    (nodup : ns.Nodup) (size : ns.length ≤ dom.size) (begins : ns.head? = some first)
    (before : ∀ n ∈ ns, previous ≠ some n) (after : ∀ n ∈ ns, next ≠ some n) :
    setParents (some p) next ends dom.size (some first) (linked dom p ns previous next) =
      some (attached dom p ns previous next) := by
  refine setParents_eq (show Leads _ _ ns _ from ?_) (fun n member => (after n member).symm) size
  have along : Threaded (fun n => ((linked dom p ns previous next).node n).next)
      (fun n => (dom.node n).previous) none ns next := by
    refine threaded.ends nodup (fun n member => ?_) (fun n member => ?_)
    · show (if _ then _ else _) = _
      rw [if_neg (before n member)]
    · split
      next first => exact threaded.previous_first first
      next => rfl
  have leads := along.leads
  rw [begins] at leads
  exact leads

theorem attachRange_eq (threaded : Threaded (fun n => (dom.node n).next) (fun n => (dom.node n).previous) none ns none)
    (nodup : ns.Nodup) (size : ns.length ≤ dom.size) (begins : ns.head? = some first) (stops : ns.getLast? = some last)
    (before : ∀ n ∈ ns, previous ≠ some n) (after : ∀ n ∈ ns, next ≠ some n) :
    attachRange dom first last p previous next = some (attached dom p ns previous next) := by
  have stop : ((linked dom p ns previous next).node last).next = next := by
    show (if _ then _ else _) = _
    rw [if_neg (before last (List.mem_of_getLast? stops)), if_pos stops]
  unfold attachRange
  dsimp only
  rw [linked_eq begins stops, stop]
  exact link_range threaded nodup size begins before after

def emptied (dom : Dom) : Option Ptr → Dom
  | none => dom
  | some f => dom.set f (fun n => { n with firstChild := none, lastChild := none })

theorem node_emptied (dom : Dom) (src : Option Ptr) (n : Ptr) :
    (emptied dom src).node n = { dom.node n with
      firstChild := if src = some n then none else (dom.node n).firstChild
      lastChild := if src = some n then none else (dom.node n).lastChild } := by
  rcases src with _ | f
  · rfl
  · unfold emptied
    rw [node_set]
    split
    next same => simp [same]
    next other => simp [Ne.symm other]

/-- The nodes `mid` lose their links. -/
def cut (dom : Dom) (mid : List Ptr) : Dom :=
  { dom with node := fun n =>
      if n ∈ mid then { dom.node n with previous := none, next := none, parent := none } else dom.node n }

theorem node_cut (dom : Dom) (mid : List Ptr) (n : Ptr) :
    (cut dom mid).node n = { dom.node n with
      previous := if n ∈ mid then none else (dom.node n).previous
      next := if n ∈ mid then none else (dom.node n).next
      parent := if n ∈ mid then none else (dom.node n).parent } := by
  unfold cut
  dsimp only
  split <;> rfl

theorem head?_splice (tree : Tree dom kids) (own : kids p = l ++ mid ++ r) (nonempty : ns ≠ []) :
    (l ++ ns ++ r).head? = if l.getLast? = none then ns.head? else (dom.node p).firstChild := by
  rw [tree.first, own]
  rcases l with _ | ⟨c, l⟩
  · rcases ns with _ | ⟨n, ns⟩
    · exact absurd rfl nonempty
    · rfl
  · simp

theorem getLast?_splice (tree : Tree dom kids) (own : kids p = l ++ mid ++ r) (nonempty : ns ≠ []) :
    (l ++ ns ++ r).getLast? = if r.head? = none then ns.getLast? else (dom.node p).lastChild := by
  rw [tree.last, own]
  rcases r with _ | ⟨c, r⟩
  · obtain ⟨n, last⟩ := ne_none_iff_exists'.mp (fun none => nonempty (List.getLast?_eq_none_iff.mp none))
    simp [List.getLast?_append, last]
  · obtain ⟨n, last⟩ := ne_none_iff_exists'.mp
      (fun none => List.cons_ne_nil c r (List.getLast?_eq_none_iff.mp none))
    simp [List.getLast?_append, last]

theorem attached_spliced (tree : Tree dom kids) (own : kids p = l ++ mid ++ r) (movable : Movable dom kids p ns src)
    (nonempty : ns ≠ []) : Spliced dom (cut (emptied (attached dom p ns l.getLast? r.head?) src) mid) p l mid ns r src := by
  obtain ⟨first, begins⟩ := ne_none_iff_exists'.mp (fun none => nonempty (List.head?_eq_none_iff.mp none))
  obtain ⟨last, stops⟩ := ne_none_iff_exists'.mp (fun none => nonempty (List.getLast?_eq_none_iff.mp none))
  have nodup := tree.nodup p
  rw [own] at nodup
  obtain ⟨nodup', -, apartR⟩ := List.nodup_append.mp nodup
  have apart : ∀ n ∈ mid, n ∉ l ∧ n ∉ ns ∧ n ∉ r := by
    intro n inside
    refine ⟨fun left => (List.nodup_append.mp nodup').2.2 n left n inside rfl, fun new => ?_,
      fun right => apartR n (List.mem_append_right _ inside) n right rfl⟩
    exact movable_outside tree movable new (by rw [own]; simp [inside])
  have notSource : src ≠ some p := fun source => (movable.source p source).1 rfl
  refine ⟨?_, fun n => ?_, fun n => ?_, fun n => ?_, fun q => ?_, fun q => ?_⟩
  · rcases src with _ | f <;> rfl
  all_goals rw [node_cut, node_emptied, node_attached]
  · rw [List.head?_append, begins, some_or]
    by_cases inside : n ∈ mid
    · simp [inside, ne_last (apart n inside).1, ne_last (apart n inside).2.1]
    · simp [inside]
  · rw [List.getLast?_append, stops, some_or]
    by_cases inside : n ∈ mid
    · simp [inside, ne_first (apart n inside).2.2, ne_first (apart n inside).2.1]
    · simp [inside]
  · show (if src = some q then none else if l.getLast? = none ∧ q = p then ns.head? else (dom.node q).firstChild) = _
    rw [head?_splice tree own nonempty]
    by_cases same : q = p
    · subst same
      simp [notSource]
    · simp [same]
  · show (if src = some q then none else if r.head? = none ∧ q = p then ns.getLast? else (dom.node q).lastChild) = _
    rw [getLast?_splice tree own nonempty]
    by_cases same : q = p
    · subst same
      simp [notSource]
    · simp [same]

theorem cut_nil (dom : Dom) : cut dom [] = dom := by
  unfold cut
  simp

def detached (dom : Dom) (p node : Ptr) (previous next : Option Ptr) : Dom :=
  cut ((dom.linkAfter p previous next).linkBefore p next previous) [node]

theorem siblings (tree : Tree dom kids) (own : kids p = l ++ [node] ++ r) :
    (dom.node node).parent = some p ∧ (dom.node node).previous = l.getLast? ∧ (dom.node node).next = r.head? := by
  have threaded := tree.threaded p
  rw [own, List.append_assoc, threaded_append] at threaded
  obtain ⟨-, back, link, -⟩ := threaded
  rw [or_none] at back
  exact ⟨(tree.child p node).mp (by rw [own]; simp), back, by simpa using link⟩

theorem detached_spliced (tree : Tree dom kids) (own : kids p = l ++ [node] ++ r) :
    Spliced dom (detached dom p node l.getLast? r.head?) p l [node] [] r none := by
  have nodup := tree.nodup p
  rw [own] at nodup
  obtain ⟨nodup', -, apartR⟩ := List.nodup_append.mp nodup
  have notLeft : node ∉ l := fun left => (List.nodup_append.mp nodup').2.2 node left node (by simp) rfl
  have notRight : node ∉ r := fun right => apartR node (by simp) node right rfl
  unfold detached
  refine ⟨?_, fun n => ?_, fun n => ?_, fun n => ?_, fun q => ?_, fun q => ?_⟩
  · rw [linkBefore_eq, linkAfter_eq]
    rfl
  all_goals rw [node_cut, linkBefore_eq, linkAfter_eq]
  · by_cases same : n = node
    · simp [same, ne_last notLeft]
    · simp [same]
  · by_cases same : n = node
    · simp [same, ne_first notRight]
    · simp [same]
  · simp
  · show (if l.getLast? = none ∧ q = p then r.head? else (dom.node q).firstChild) = _
    by_cases same : q = p
    · subst same
      rw [tree.first, own]
      rcases l with _ | ⟨c, l⟩ <;> simp
    · simp [same]
  · show (if r.head? = none ∧ q = p then l.getLast? else (dom.node q).lastChild) = _
    by_cases same : q = p
    · subst same
      rw [tree.last, own]
      rcases r with _ | ⟨c, r⟩
      · simp
      · simp [List.getLast?_append, List.getLast?_cons]
    · simp [same]

theorem detachRange_eq (tree : Tree dom kids) (own : kids p = l ++ [node] ++ r) :
    detachRange dom node = some (detached dom p node l.getLast? r.head?) := by
  obtain ⟨parent, previous, next⟩ := siblings tree own
  have nodup := tree.nodup p
  rw [own] at nodup
  obtain ⟨nodup', -, apartR⟩ := List.nodup_append.mp nodup
  have notLeft : node ∉ l := fun left => (List.nodup_append.mp nodup').2.2 node left node (by simp) rfl
  have notRight : node ∉ r := fun right => apartR node (by simp) node right rfl
  have there := (tree.there node p parent).1
  have links : ∀ dom' : Dom, dom' = (dom.linkAfter p l.getLast? r.head?).linkBefore p r.head? l.getLast? →
      (setParents none (dom'.node node).next false dom'.size (some node) dom').bind
        (fun dom => some (dom.set node (fun m => { m with previous := none, next := none }))) = some (cut dom' [node]) := by
    rintro dom' rfl
    have link : (((dom.linkAfter p l.getLast? r.head?).linkBefore p r.head? l.getLast?).node node).next = r.head? := by
      rw [linkBefore_eq, linkAfter_eq]
      exact (if_neg (ne_last notLeft)).trans next
    have size : [node].length ≤ ((dom.linkAfter p l.getLast? r.head?).linkBefore p r.head? l.getLast?).size := by
      rw [linkBefore_eq, linkAfter_eq]
      exact Nat.lt_of_le_of_lt (Nat.zero_le _) there
    have leads : Leads (fun n => (((dom.linkAfter p l.getLast? r.head?).linkBefore p r.head? l.getLast?).node n).next)
        (some node) [node] r.head? := ⟨rfl, link⟩
    rw [link, setParents_eq leads (fun n member => List.mem_singleton.mp member ▸ (ne_first notRight).symm) size,
      bind_some, set_eq]
    unfold cut
    congr 2
    funext n
    by_cases same : n = node <;> simp [same]
  unfold detachRange detached
  rw [parent, bind_eq_bind, bind_some, previous, next]
  have between : ((dom.linkAfter p l.getLast? r.head?).node node).next = r.head? ∧
      ((dom.linkAfter p l.getLast? r.head?).node node).previous = l.getLast? := by
    rw [linkAfter_eq]
    exact ⟨(if_neg (ne_last notLeft)).trans next, previous⟩
  dsimp only
  rw [between.1, between.2]
  exact links _ rfl

theorem attached_emptied {f : Ptr} (apart : f ≠ p) (ns : List Ptr) (previous next : Option Ptr) :
    attached (emptied dom (some f)) p ns previous next = emptied (attached dom p ns previous next) (some f) := by
  have nodes : (attached (emptied dom (some f)) p ns previous next).node =
      (emptied (attached dom p ns previous next) (some f)).node := by
    funext n
    rw [node_attached, node_emptied, node_emptied, node_attached]
    by_cases same : n = f
    · subst same
      simp [apart]
    · simp [Ne.symm same]
  exact congrArg (fun node => { dom with node }) nodes

theorem replaceRange_eq (fresh : old ∉ ns)
    (threaded : Threaded (fun n => (dom.node n).next) (fun n => (dom.node n).previous) none ns none)
    (nodup : ns.Nodup) (size : ns.length ≤ dom.size) (begins : ns.head? = some first)
    (stops : ns.getLast? = some last) (before : ∀ n ∈ ns, (dom.node old).previous ≠ some n)
    (after : ∀ n ∈ ns, (dom.node old).next ≠ some n) (notPrevious : (dom.node old).previous ≠ some old) :
    replaceRange dom old first last p =
      some (cut (attached dom p ns (dom.node old).previous (dom.node old).next) [old]) := by
  have notFirst : first ≠ old := fun same => fresh (same ▸ List.mem_of_head? begins)
  have notLast : last ≠ old := fun same => fresh (same ▸ List.mem_of_getLast? stops)
  have stop : ((linked dom p ns (dom.node old).previous (dom.node old).next).node last).next = (dom.node old).next := by
    show (if _ then _ else _) = _
    rw [if_neg (before last (List.mem_of_getLast? stops)), if_pos stops]
  have one : ((dom.set first (fun n => { n with previous := (dom.node old).previous })).node old).next =
      (dom.node old).next := by
    rw [node_set, if_neg notFirst.symm]
  have two : ∀ x, (((dom.set first (fun n => { n with previous := (dom.node old).previous })).set last
      (fun n => { n with next := x })).node old).previous = (dom.node old).previous := by
    intro x
    rw [node_set, if_neg notLast.symm, node_set, if_neg notFirst.symm]
  have three : ∀ x, ((((dom.set first (fun n => { n with previous := (dom.node old).previous })).set last
      (fun n => { n with next := x })).linkAfter p (dom.node old).previous (some first)).node old).next =
      (dom.node old).next := by
    intro x
    rw [linkAfter_eq]
    dsimp only
    rw [if_neg notPrevious, node_set, if_neg notLast.symm, node_set, if_neg notFirst.symm]
  unfold replaceRange
  dsimp only
  rw [one, two, three, linked_eq begins stops, stop, bind_eq_bind]
  have fuel : (linked dom p ns (dom.node old).previous (dom.node old).next).size = dom.size := rfl
  rw [fuel, link_range threaded nodup size begins before after, bind_some, set_eq]
  unfold cut
  refine congrArg some ?_
  congr 1
  funext n
  by_cases same : n = old <;> simp [same]

theorem removeOld_eq (previous : (dom.node old).previous = none) (next : (dom.node old).next = none) :
    removeOld dom old p = detached dom p old none none := by
  unfold removeOld detached
  dsimp only
  rw [if_pos previous, if_pos next, previous, next, set_eq]
  unfold cut
  congr 1
  funext n
  by_cases same : n = old
  · simp [same, Dom.linkBefore, Dom.linkAfter]
  · simp [same, Dom.linkBefore, Dom.linkAfter]

end Besra.DomLinks
