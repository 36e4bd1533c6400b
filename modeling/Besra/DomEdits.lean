import Besra.DomLinks
import Besra.DomTests

/-!
The parts of the operations: taking a node out of the tree, putting nodes in, and
replacing one. Each leaves a tree, and says which nodes have another parent then.
-/
namespace Besra.DomEdits
open PointerChain DomNode DomTree DomLinks DomTests Option

variable {dom dom' : Dom} {kids : Ptr → List Ptr} {p : Ptr} {l ns r : List Ptr} {src : Option Ptr}

def Node.links (n : Node) : Option Ptr × Option Ptr × Option Ptr × Option Ptr × Option Ptr :=
  (n.parent, n.firstChild, n.lastChild, n.previous, n.next)

theorem tree_congr (tree : Tree dom kids) (size : dom.size ≤ dom'.size)
    (same : ∀ n, Node.links (dom'.node n) = Node.links (dom.node n)) : Tree dom' kids := by
  have parents : ∀ n, (dom'.node n).parent = (dom.node n).parent := fun n => congrArg (·.1) (same n)
  have nexts : ∀ n, (dom'.node n).next = (dom.node n).next := fun n => congrArg (·.2.2.2.2) (same n)
  have previouses : ∀ n, (dom'.node n).previous = (dom.node n).previous := fun n => congrArg (·.2.2.2.1) (same n)
  refine ⟨fun q => ?_, fun q => ?_, fun q => ?_, fun q c => ?_, tree.nodup, fun c lone => ?_, fun n => ?_,
    fun c q below => ?_⟩
  · exact threaded_congr (tree.threaded q) (fun n _ => nexts n) (fun n _ => previouses n)
  · exact (congrArg (·.2.1) (same q)).trans (tree.first q)
  · exact (congrArg (·.2.2.1) (same q)).trans (tree.last q)
  · rw [parents]
    exact tree.child q c
  · rw [parents] at lone
    rw [nexts, previouses]
    exact tree.loose c lone
  · rw [show (fun n => (dom'.node n).parent) = (fun n => (dom.node n).parent) from funext parents]
    exact tree.rooted n
  · rw [parents] at below
    obtain ⟨child, parent⟩ := tree.there c q below
    exact ⟨Nat.lt_of_lt_of_le child size, Nat.lt_of_lt_of_le parent size⟩

/-- No operation changes what kind of node a node is. -/
structure Same (dom dom' : Dom) : Prop where
  size : dom'.size = dom.size
  dispatching : dom'.dispatching = dom.dispatching
  type : ∀ n, (dom'.node n).type = (dom.node n).type
  owner : ∀ n, (dom'.node n).owner = (dom.node n).owner
  readOnly : ∀ n, (dom'.node n).readOnly = (dom.node n).readOnly

theorem Same.rfl (dom : Dom) : Same dom dom := ⟨.refl _, .refl _, fun _ => .refl _, fun _ => .refl _, fun _ => .refl _⟩

theorem Same.trans {dom'' : Dom} (one : Same dom dom') (other : Same dom' dom'') : Same dom dom'' :=
  ⟨other.size.trans one.size, other.dispatching.trans one.dispatching, fun n => (other.type n).trans (one.type n),
    fun n => (other.owner n).trans (one.owner n), fun n => (other.readOnly n).trans (one.readOnly n)⟩

variable {n c f first last old : Ptr} {refChild : Option Ptr}

theorem markPending_some (ran : markPending dom n = some dom') : ∃ pending, dom' = { dom with pending } := by
  unfold markPending at ran
  split at ran
  · exact ⟨dom.pending, (some_inj.mp ran).symm⟩
  · split at ran
    · cases ran
    · exact ⟨_, (some_inj.mp ran).symm⟩

theorem removePending_some (ran : removePending dom n = some dom') : ∃ pending, dom' = { dom with pending } := by
  unfold removePending at ran
  split at ran
  · exact ⟨dom.pending, (some_inj.mp ran).symm⟩
  · split at ran
    · exact ⟨_, (some_inj.mp ran).symm⟩
    · cases ran

theorem same_pending (pending : List Ptr) : Same dom { dom with pending } :=
  ⟨rfl, rfl, fun _ => rfl, fun _ => rfl, fun _ => rfl⟩

theorem same_detached (p node : Ptr) (previous next : Option Ptr) : Same dom (detached dom p node previous next) := by
  unfold detached
  rw [linkBefore_eq, linkAfter_eq]
  refine ⟨rfl, rfl, fun n => ?_, fun n => ?_, fun n => ?_⟩
  all_goals
    rw [node_cut]

theorem same_attached (p : Ptr) (ns mid : List Ptr) (previous next src : Option Ptr) :
    Same dom (cut (emptied (attached dom p ns previous next) src) mid) := by
  refine ⟨by rcases src with _ | f <;> rfl, by rcases src with _ | f <;> rfl, fun n => ?_, fun n => ?_, fun n => ?_⟩
  all_goals
    rw [node_cut, node_emptied, node_attached]

/-- The nodes form a tree again, where some have `p` for a parent now and some have none. -/
structure Moved (dom dom' : Dom) (p : Ptr) (mid ns : List Ptr) : Prop where
  tree : ∃ kids, Tree dom' kids
  same : Same dom dom'
  parent : ∀ n, (dom'.node n).parent = if n ∈ mid then none else if n ∈ ns then some p else (dom.node n).parent

theorem split_at (tree : Tree dom kids) (below : (dom.node c).parent = some p) : ∃ l r, kids p = l ++ [c] ++ r := by
  obtain ⟨l, r, own⟩ := List.append_of_mem ((tree.child p c).mpr below)
  exact ⟨l, r, by rw [own]; simp⟩

theorem detached_moved (tree : Tree dom kids) (own : kids p = l ++ [c] ++ r) :
    Moved dom (detached dom p c l.getLast? r.head?) p [c] [] := by
  have none : Movable dom kids p [] none :=
    ⟨trivial, List.nodup_nil, fun _ member => (nomatch member), fun _ source => (nomatch source),
      fun _ _ _ member => (nomatch member), fun _ member => (nomatch member)⟩
  have spliced := detached_spliced tree own
  exact ⟨⟨_, spliced_tree tree spliced none own⟩, same_detached _ _ _ _, spliced.parent⟩

theorem detach_moved (tree : Tree dom kids) (below : (dom.node c).parent = some p) (ran : detach dom c = some dom') :
    Moved dom dom' p [c] [] := by
  obtain ⟨marked, mark, ran⟩ := bind_eq_some_iff.mp ran
  obtain ⟨pending, rfl⟩ := markPending_some mark
  have tree' : Tree { dom with pending } kids := tree_congr tree (Nat.le_refl _) (fun _ => rfl)
  obtain ⟨l, r, own⟩ := split_at tree below
  rw [detachRange_eq tree' own] at ran
  obtain rfl := some_inj.mp ran
  obtain ⟨trees, same, parent⟩ := detached_moved tree' own
  exact ⟨trees, (same_pending pending).trans same, parent⟩

theorem takeOut_moved (tree : Tree dom kids) {e : Option DomException} (ran : takeOut dom c = some (e, dom')) :
    e.isSome ∧ dom' = dom ∨ e = none ∧ Moved dom dom' p [c] [] := by
  unfold takeOut at ran
  split at ran
  next lone =>
    obtain ⟨d, removed, ran⟩ := bind_eq_some_iff.mp ran
    obtain ⟨rfl, rfl⟩ := Prod.mk.inj (some_inj.mp ran)
    obtain ⟨pending, rfl⟩ := removePending_some removed
    refine .inr ⟨rfl, ⟨kids, tree_congr tree (Nat.le_refl _) (fun _ => rfl)⟩, same_pending pending, fun n => ?_⟩
    split
    next own =>
      rw [← lone, List.mem_singleton.mp own]
    next => rfl
  next q below =>
    obtain ⟨readOnly, -, ran⟩ := bind_eq_some_iff.mp ran
    split at ran
    · obtain ⟨rfl, rfl⟩ := Prod.mk.inj (some_inj.mp ran)
      exact .inl ⟨rfl, rfl⟩
    · obtain ⟨d, out, ran⟩ := bind_eq_some_iff.mp ran
      obtain ⟨d', removed, ran⟩ := bind_eq_some_iff.mp ran
      obtain ⟨rfl, rfl⟩ := Prod.mk.inj (some_inj.mp ran)
      obtain ⟨⟨kids', tree'⟩, same, parent⟩ := detach_moved tree below out
      obtain ⟨pending, rfl⟩ := removePending_some removed
      exact .inr ⟨rfl, ⟨kids', tree_congr tree' (Nat.le_refl _) (fun _ => rfl)⟩, same.trans (same_pending pending), parent⟩

theorem place (tree : Tree dom kids) (below : ∀ c, refChild = some c → (dom.node c).parent = some p) :
    ∃ l r, kids p = l ++ r ∧ r.head? = refChild ∧ l.getLast? = previousOf dom p refChild := by
  rcases refChild with _ | c
  · exact ⟨kids p, [], by simp, rfl, (tree.last p).symm⟩
  · obtain ⟨l, r, own⟩ := split_at tree (below c rfl)
    exact ⟨l, [c] ++ r, by rw [own, List.append_assoc], rfl, (siblings tree own).2.1.symm⟩

theorem movable_node (tree : Tree dom kids) (lone : (dom.node c).parent = none) (there : c < dom.size ∧ p < dom.size)
    (notAbove : ∀ as, Leads (fun n => (dom.node n).parent) (some p) as none → c ∉ as) :
    Movable dom kids p [c] none := by
  obtain ⟨previous, next⟩ := tree.loose c lone
  refine ⟨⟨previous, next, trivial⟩, by simp, fun n member => ?_, fun f source => (nomatch source),
    fun as leads n member => ?_, fun n member => ?_⟩
  all_goals obtain rfl := List.mem_singleton.mp member
  · exact lone
  · exact notAbove as leads
  · exact there

theorem movable_kids (tree : Tree dom kids) (there : p < dom.size)
    (notAbove : ∀ as, Leads (fun n => (dom.node n).parent) (some p) as none → f ∉ as) :
    Movable dom kids p (kids f) (some f) := by
  refine ⟨tree.threaded f, tree.nodup f, fun c member => (tree.child f c).mp member, fun g source => ?_,
    fun as leads c member inside => ?_, fun c member => ⟨(tree.there c f ((tree.child f c).mp member)).1, there⟩⟩
  · obtain rfl := some_inj.mp source
    obtain ⟨as, leads⟩ := tree.rooted p
    refine ⟨fun same => notAbove as leads ?_, rfl⟩
    rcases as with _ | ⟨a, as⟩
    · exact absurd leads (by simp [Leads])
    · rw [same, some_inj.mp leads.1]
      exact List.mem_cons_self
  · exact notAbove as leads (leads_closed leads inside ((tree.child f c).mp member))

theorem attach_moved (tree : Tree dom kids) (movable : Movable dom kids p ns src) (own : kids p = l ++ r)
    (begins : ns.head? = some first) (stops : ns.getLast? = some last) :
    attachRange dom first last p l.getLast? r.head? = some (attached dom p ns l.getLast? r.head?) ∧
      Moved dom (emptied (attached dom p ns l.getLast? r.head?) src) p [] ns := by
  have outside : ∀ n ∈ ns, n ∉ l ∧ n ∉ r := by
    intro n member
    have fresh := movable_outside tree movable member
    rw [own, List.mem_append] at fresh
    exact ⟨fun left => fresh (.inl left), fun right => fresh (.inr right)⟩
  have nonempty : ns ≠ [] := by
    rintro rfl
    cases begins
  have whole : kids p = l ++ [] ++ r := by rw [own, List.append_nil]
  have spliced := attached_spliced tree whole movable nonempty
  refine ⟨attachRange_eq movable.threaded movable.nodup
    (length_le movable.nodup (fun n member => (movable.there n member).1)) begins stops
    (fun n member => ne_last (outside n member).1) (fun n member => ne_first (outside n member).2), ?_⟩
  have same : Same dom _ := same_attached p ns [] l.getLast? r.head? src
  rw [cut_nil] at spliced same
  exact ⟨⟨_, spliced_tree tree spliced movable whole⟩, same, spliced.parent⟩

theorem putIn_node (tree : Tree dom kids) (notFragment : (dom.node c).type ≠ .documentFragment)
    (below : ∀ r, refChild = some r → (dom.node r).parent = some p) (movable : Movable dom kids p [c] none) :
    ∃ dom', putIn dom p c refChild = some (none, dom') ∧ Moved dom dom' p [] [c] ∧ dom'.pending = dom.pending := by
  obtain ⟨l, r, own, next, previous⟩ := place tree below
  obtain ⟨ran, moved⟩ := attach_moved tree movable own rfl (show [c].getLast? = some c from rfl)
  rw [next, previous] at ran moved
  refine ⟨_, ?_, moved, rfl⟩
  unfold putIn
  dsimp only
  rw [if_neg notFragment, ran]
  rfl

theorem moved_refl (tree : Tree dom kids) (p : Ptr) : Moved dom dom p [] [] :=
  ⟨⟨kids, tree⟩, .rfl dom, fun _ => by simp⟩

theorem putIn_fragment (tree : Tree dom kids) (fragment : (dom.node f).type = .documentFragment)
    (below : ∀ r, refChild = some r → (dom.node r).parent = some p) (movable : Movable dom kids p (kids f) (some f)) :
    putIn dom p f refChild = some (some .hierarchyRequest, dom) ∨
      (∀ c ∈ kids f, permittedChild dom p c = some true) ∧
        ∃ dom', putIn dom p f refChild = some (none, dom') ∧ Moved dom dom' p [] (kids f) := by
  obtain ⟨no, is, permitted⟩ := refused_eq tree p f
  unfold putIn
  dsimp only
  rw [if_pos fragment, is, Option.bind_eq_bind, Option.bind_some]
  rcases no with _ | _
  · refine .inr ⟨permitted.mp rfl, ?_⟩
    rw [if_neg (by simp), tree.first f, tree.last f]
    rcases childless : kids f with _ | ⟨c, cs⟩
    · exact ⟨dom, rfl, moved_refl tree p⟩
    · obtain ⟨last, stops⟩ := ne_none_iff_exists'.mp
        (fun none => List.cons_ne_nil c cs (List.getLast?_eq_none_iff.mp none))
      obtain ⟨l, r, own, next, previous⟩ := place tree below
      rw [childless] at movable
      obtain ⟨ran, moved⟩ := attach_moved tree movable own rfl stops
      rw [next, previous] at ran moved
      refine ⟨_, ?_, moved⟩
      rw [stops]
      dsimp only [List.head?_cons]
      rw [ran]
      rfl
  · exact .inl (if_pos rfl)

theorem emptied_childless (tree : Tree dom kids) (childless : kids f = []) : emptied dom (some f) = dom := by
  have nodes : (emptied dom (some f)).node = dom.node := by
    funext n
    rw [node_emptied]
    by_cases same : f = n
    · subst same
      have first := tree.first f
      have last := tree.last f
      rw [childless] at first last
      rcases h : dom.node f
      rw [h] at first last
      cases first
      cases last
      simp
    · simp [same]
  exact congrArg (fun node => { dom with node }) nodes

theorem replaced_moved (tree : Tree dom kids) (movable : Movable dom kids p ns src) (own : kids p = l ++ [old] ++ r)
    (begins : ns.head? = some first) (stops : ns.getLast? = some last) :
    replaceRange (emptied dom src) old first last p = some (cut (emptied (attached dom p ns l.getLast? r.head?) src) [old]) ∧
      Moved dom (cut (emptied (attached dom p ns l.getLast? r.head?) src) [old]) p [old] ns := by
  obtain ⟨-, previous, next⟩ := siblings tree own
  have outside : ∀ n ∈ ns, n ∉ l ∧ n ∉ [old] ∧ n ∉ r := by
    intro n member
    have fresh := movable_outside tree movable member
    rw [own, List.mem_append, List.mem_append] at fresh
    exact ⟨fun m => fresh (.inl (.inl m)), fun m => fresh (.inl (.inr m)), fun m => fresh (.inr m)⟩
  have nonempty : ns ≠ [] := by
    rintro rfl
    cases begins
  have nodup := tree.nodup p
  rw [own] at nodup
  have notLeft : old ∉ l := fun left =>
    (List.nodup_append.mp (List.nodup_append.mp nodup).1).2.2 old left old (by simp) rfl
  have spliced := attached_spliced tree own movable nonempty
  refine ⟨?_, ⟨_, spliced_tree tree spliced movable own⟩, same_attached p ns [old] _ _ src, spliced.parent⟩
  have links : ∀ n, ((emptied dom src).node n).next = (dom.node n).next ∧
      ((emptied dom src).node n).previous = (dom.node n).previous := fun n => by rw [node_emptied]; exact ⟨rfl, rfl⟩
  have size : (emptied dom src).size = dom.size := by rcases src with _ | f <;> rfl
  have fresh : old ∉ ns := fun new => (outside old new).2.1 (by simp)
  have ran : replaceRange (emptied dom src) old first last p = _ := replaceRange_eq fresh
    (threaded_congr movable.threaded (fun n _ => (links n).1) (fun n _ => (links n).2)) movable.nodup
    (by rw [size]; exact length_le movable.nodup (fun n member => (movable.there n member).1)) begins stops
    (by rw [(links old).2, previous]; exact fun n member => ne_last (outside n member).1)
    (by rw [(links old).1, next]; exact fun n member => ne_first (outside n member).2.2)
    (by rw [(links old).2, previous]; exact ne_last notLeft)
  rw [(links old).1, (links old).2, previous, next] at ran
  rw [ran]
  rcases src with _ | f
  · rfl
  · rw [attached_emptied (movable.source f rfl).1]

theorem replace_node (tree : Tree dom kids) (notFragment : (dom.node c).type ≠ .documentFragment)
    (below : (dom.node old).parent = some p) (movable : Movable dom kids p [c] none) :
    ∃ dom', replace dom old c = some dom' ∧ Moved dom dom' p [old] [c] ∧ dom'.pending = dom.pending := by
  obtain ⟨l, r, own⟩ := split_at tree below
  obtain ⟨ran, moved⟩ := replaced_moved tree movable own rfl (show [c].getLast? = some c from rfl)
  refine ⟨_, ?_, moved, rfl⟩
  unfold replace
  dsimp only
  rw [below, Option.bind_eq_bind, Option.bind_some, if_neg notFragment]
  exact ran

theorem replace_fragment (tree : Tree dom kids) (fragment : (dom.node f).type = .documentFragment)
    (below : (dom.node old).parent = some p) (movable : Movable dom kids p (kids f) (some f))
    (linked : (dom.node f).firstChild = none → (dom.node old).previous = none ∧ (dom.node old).next = none) :
    ∃ dom', replace dom old f = some dom' ∧ Moved dom dom' p [old] (kids f) := by
  obtain ⟨l, r, own⟩ := split_at tree below
  unfold replace
  dsimp only
  rw [below, Option.bind_eq_bind, Option.bind_some, if_pos fragment, tree.first f]
  rcases childless : kids f with _ | ⟨c, cs⟩
  · rw [tree.first f, childless] at linked
    obtain ⟨previous, next⟩ := linked rfl
    obtain ⟨-, first, last⟩ := siblings tree own
    have moved := detached_moved tree own
    rw [← first, ← last, previous, next] at moved
    have same : dom.set f (fun n => { n with firstChild := none, lastChild := none }) = dom :=
      emptied_childless tree childless
    rw [same]
    exact ⟨_, congrArg some (removeOld_eq previous next), moved⟩
  · obtain ⟨last, stops⟩ := ne_none_iff_exists'.mp
      (fun none => List.cons_ne_nil c cs (List.getLast?_eq_none_iff.mp none))
    rw [childless] at movable
    obtain ⟨ran, moved⟩ := replaced_moved tree movable own rfl stops
    rw [tree.last f, childless, stops]
    exact ⟨_, ran, moved⟩

end Besra.DomEdits
