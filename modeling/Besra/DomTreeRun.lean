import Besra.DomEdits
import Besra.Runs

/-!
The document stays a tree through any history of insertions, replacements and removals,
as long as two things do not happen: that a fragment with two elements is put into a
document, since each of them is tested against the document as it was before, and that
a node with siblings is replaced by a fragment without children, since the siblings are
not linked to each other then.
-/
namespace Besra.DomTreeRun
open PointerChain DomNode DomTree DomTests DomEdits Option List

variable {dom dom' : Dom} {kids : Ptr → List Ptr}

/-- Each child is permitted, and a document has one Element and one DocumentType at most. -/
structure Shaped (dom : Dom) : Prop where
  permitted : ∀ c p, (dom.node c).parent = some p → permittedType (dom.node p).type (dom.node c).type = true
  single : ∀ d c c', (dom.node d).type = .document → (dom.node c).parent = some d → (dom.node c').parent = some d →
    (dom.node c).type = (dom.node c').type → Singular (dom.node c).type → c = c'

def Fitting (dom : Dom) (p : Ptr) (mid ns : List Ptr) : Prop :=
  (∀ n ∈ ns, permittedType (dom.node p).type (dom.node n).type = true) ∧
    ((dom.node p).type = .document → ∀ n ∈ ns, Singular (dom.node n).type →
      (∀ m, (dom.node m).parent = some p → m ∉ mid → (dom.node m).type ≠ (dom.node n).type) ∧
        ∀ n' ∈ ns, (dom.node n').type = (dom.node n).type → n' = n)

variable {p c node old f : Ptr} {mid ns : List Ptr} {refChild : Option Ptr} {e : Option DomException}
  {history : List Op}

theorem shaped_moved (shaped : Shaped dom) (moved : Moved dom dom' p mid ns) (fitting : Fitting dom p mid ns) :
    Shaped dom' := by
  obtain ⟨each, once⟩ := fitting
  have below : ∀ {c q}, (dom'.node c).parent = some q →
      c ∉ mid ∧ (c ∈ ns ∧ q = p ∨ (dom.node c).parent = some q) := by
    intro c q parent
    rw [moved.parent] at parent
    split at parent
    · cases parent
    next keep =>
      split at parent
      next new => exact ⟨keep, .inl ⟨new, (some_inj.mp parent).symm⟩⟩
      next => exact ⟨keep, .inr parent⟩
  refine ⟨fun c q parent => ?_, fun d c c' document one other same singular => ?_⟩
  · rw [moved.same.type, moved.same.type]
    rcases (below parent).2 with ⟨new, rfl⟩ | old
    · exact each c new
    · exact shaped.permitted c q old
  · rw [moved.same.type] at document singular
    rw [moved.same.type, moved.same.type] at same
    obtain ⟨keep, one⟩ := below one
    obtain ⟨keep', other⟩ := below other
    rcases one with ⟨new, rfl⟩ | old
    · rcases other with ⟨new', -⟩ | old'
      · exact ((once document c new singular).2 c' new' same.symm).symm
      · exact absurd same.symm ((once document c new singular).1 c' old' keep')
    · rcases other with ⟨new', rfl⟩ | old'
      · exact absurd same ((once document c' new' (same ▸ singular)).1 c old keep)
      · exact shaped.single d c c' document old old' same singular

theorem insertChecks_none (checked : insertChecks dom node c refChild = some none) :
    (∀ r, refChild = some r → (dom.node r).parent = some node) ∧ someAbove dom (· == c) node = some false ∧
      ((dom.node c).type ≠ .documentFragment → permittedChild dom node c = some true) := by
  unfold insertChecks at checked
  dsimp only at checked
  split at checked
  · cases checked
  obtain ⟨readOnly, -, checked⟩ := bind_eq_some_iff.mp checked
  split at checked
  · cases checked
  split at checked
  · cases checked
  next below =>
    obtain ⟨found, isAbove, checked⟩ := bind_eq_some_iff.mp checked
    split at checked
    · cases checked
    next notFound =>
      refine ⟨fun r own => ?_, by rw [isAbove, Bool.eq_false_iff.mpr notFound], fun notFragment => ?_⟩
      · subst own
        simpa using below
      · rw [if_neg notFragment] at checked
        obtain ⟨valid, is, checked⟩ := bind_eq_some_iff.mp checked
        split at checked
        next yes => rw [is, yes]
        · cases checked

theorem replaceChecks_none (checked : replaceChecks dom node c old = some none) :
    ¬ ((dom.node node).type = .document ∧ Singular (dom.node c).type) ∧
      (dom.node old).parent = some node ∧ someAbove dom (· == c) node = some false ∧
      ((dom.node c).type ≠ .documentFragment → permittedChild dom node c = some true) ∧
      ((dom.node c).type = .documentFragment → refused dom node c = some false) := by
  unfold replaceChecks at checked
  dsimp only at checked
  split at checked
  · cases checked
  next notRoot =>
  split at checked
  · cases checked
  obtain ⟨readOnly, -, checked⟩ := bind_eq_some_iff.mp checked
  split at checked
  · cases checked
  split at checked
  · cases checked
  next below =>
    obtain ⟨found, isAbove, checked⟩ := bind_eq_some_iff.mp checked
    split at checked
    · cases checked
    next notFound =>
      refine ⟨fun root => notRoot ⟨root.1, root.2.symm⟩, not_not.mp below,
        by rw [isAbove, Bool.eq_false_iff.mpr notFound], fun notFragment => ?_, fun fragment => ?_⟩
      · rw [if_neg notFragment] at checked
        obtain ⟨valid, is, checked⟩ := bind_eq_some_iff.mp checked
        split at checked
        next yes => rw [is, yes]
        · cases checked
      · rw [if_pos fragment] at checked
        obtain ⟨no, is, checked⟩ := bind_eq_some_iff.mp checked
        split at checked
        · cases checked
        next yes => rw [is, Bool.eq_false_iff.mpr yes]

/-- What holds of the nodes all the time. -/
structure Proper (dom : Dom) : Prop where
  tree : ∃ kids, Tree dom kids
  shaped : Shaped dom

def elements (dom : Dom) (n : Ptr) : List Ptr :=
  (List.range dom.size).filter (fun c => (dom.node c).parent = some n ∧ (dom.node c).type = .element)

def TwoRoots (dom : Dom) (node fragment : Ptr) : Prop :=
  (dom.node node).type = .document ∧ (dom.node fragment).type = .documentFragment ∧
    refused dom node fragment = some false ∧ 2 ≤ (elements dom fragment).length
deriving Decidable

def Unlinked (dom : Dom) (fragment old : Ptr) : Prop :=
  (dom.node fragment).type = .documentFragment ∧ (dom.node fragment).firstChild = none ∧
    ¬ ((dom.node old).previous = none ∧ (dom.node old).next = none)
deriving Decidable

/-- The call is not one that gets past the checks and then breaks the tree. -/
def Sound (dom : Dom) : Op → Prop
  | .insertBefore node newChild refChild =>
    insertChecks dom node newChild refChild = some none → ¬ TwoRoots dom node newChild
  | .appendChild node newChild => insertChecks dom node newChild none = some none → ¬ TwoRoots dom node newChild
  | .replaceChild node newChild oldChild =>
    replaceChecks dom node newChild oldChild = some none →
      ¬ TwoRoots dom node newChild ∧ ¬ Unlinked dom newChild oldChild
  | .create _ _ | .removeChild _ _ => True

instance (dom : Dom) : (op : Op) → Decidable (Sound dom op)
  | .insertBefore node newChild refChild =>
    inferInstanceAs (Decidable (insertChecks dom node newChild refChild = some none → ¬ TwoRoots dom node newChild))
  | .appendChild node newChild =>
    inferInstanceAs (Decidable (insertChecks dom node newChild none = some none → ¬ TwoRoots dom node newChild))
  | .replaceChild node newChild oldChild =>
    inferInstanceAs (Decidable (replaceChecks dom node newChild oldChild = some none →
      ¬ TwoRoots dom node newChild ∧ ¬ Unlinked dom newChild oldChild))
  | .create _ _ | .removeChild _ _ => isTrue trivial

theorem notAbove_moved (tree : Tree dom kids) (there : node < dom.size)
    (free : someAbove dom (· == c) node = some false) (moved : Moved dom dom' p [c] []) :
    ∀ as, Leads (fun n => (dom'.node n).parent) (some node) as none → c ∉ as := by
  obtain ⟨as, leads, enough⟩ := above tree there
  rw [someAbove_eq leads enough, some_inj, List.any_eq_false] at free
  have fresh : c ∉ as := fun member => by simpa using free c member
  have same : Leads (fun n => (dom'.node n).parent) (some node) as none := by
    refine leads_congr leads (fun n member => ?_)
    have other : n ∉ [c] := fun own => fresh (mem_singleton.mp own ▸ member)
    rw [moved.parent, if_neg other, if_neg not_mem_nil]
  exact fun bs others => leads_unique others same ▸ fresh

/-- A node that has been taken out can be put in again, and what was below `node` still is. -/
theorem tree_without {dom₁ : Dom} (tree : Tree dom kids) (there : c < dom.size ∧ node < dom.size)
    (free : someAbove dom (· == c) node = some false) (moved : Moved dom dom₁ node [c] []) :
    ∃ kids₁, Tree dom₁ kids₁ ∧ Movable dom₁ kids₁ node [c] none ∧
      ∀ r, c ≠ r → (dom.node r).parent = some node → (dom₁.node r).parent = some node := by
  obtain ⟨kids₁, tree₁⟩ := moved.tree
  have lone₁ : (dom₁.node c).parent = none := by rw [moved.parent, if_pos (by simp)]
  have movable := movable_node tree₁ lone₁ (moved.same.size ▸ there) (notAbove_moved tree there.2 free moved)
  refine ⟨kids₁, tree₁, movable, fun r other below => ?_⟩
  rw [moved.parent, if_neg (by simp [other.symm]), if_neg not_mem_nil]
  exact below

theorem two_elements {n : Ptr} (tree : Tree dom kids) {c' : Ptr} (one : (dom.node c).parent = some n)
    (other : (dom.node c').parent = some n) (type : (dom.node c).type = .element)
    (type' : (dom.node c').type = .element) (apart : c ≠ c') : 2 ≤ (elements dom n).length := by
  have within : [c, c'] ⊆ elements dom n := by
    intro m member
    unfold elements
    rcases mem_cons.mp member with rfl | member
    · exact mem_filter.mpr ⟨mem_range.mpr (tree.there m n one).1, by simp [one, type]⟩
    · obtain rfl := mem_singleton.mp member
      exact mem_filter.mpr ⟨mem_range.mpr (tree.there m n other).1, by simp [other, type']⟩
  exact (subperm_of_subset (by simpa using apart) within).length_le

theorem fitting_kids (tree : Tree dom kids) (shaped : Shaped dom) (fragment : (dom.node f).type = .documentFragment)
    (permitted : refused dom p f = some false) (sound : ¬ TwoRoots dom p f) : Fitting dom p mid (kids f) := by
  obtain ⟨no, is, each⟩ := refused_eq tree p f
  obtain rfl := some_inj.mp (is.symm.trans permitted)
  have valid := each.mp rfl
  refine ⟨fun n member => ?_, fun document n member singular => ⟨fun m old _ => ?_, fun n' member' same => ?_⟩⟩
  · obtain ⟨ok, is, iff⟩ := permittedChild_eq tree p n
    rw [valid n member] at is
    exact (iff.mp (some_inj.mp is).symm).1
  · obtain ⟨ok, is, iff⟩ := permittedChild_eq tree p n
    rw [valid n member] at is
    exact (iff.mp (some_inj.mp is).symm).2 document singular m ((tree.child p m).mpr old)
  · by_contra apart
    have below := (tree.child f n).mp member
    have below' := (tree.child f n').mp member'
    rcases singular with element | doctype
    · exact sound ⟨document, fragment, permitted,
        two_elements tree below below' element (same.trans element) (Ne.symm apart)⟩
    · have never := shaped.permitted n f below
      rw [fragment, doctype] at never
      exact absurd never (by decide)

theorem fitting_node (tree : Tree dom kids) (permitted : permittedChild dom p c = some true) :
    Fitting dom p mid [c] := by
  obtain ⟨ok, is, iff⟩ := permittedChild_eq tree p c
  obtain rfl := some_inj.mp (permitted.symm.trans is)
  obtain ⟨type, once⟩ := iff.mp rfl
  refine ⟨fun n member => ?_, fun document n member singular => ⟨fun m old _ => ?_, fun n' member' _ => ?_⟩⟩
  all_goals obtain rfl := mem_singleton.mp member
  · exact type
  · exact once document singular m ((tree.child p m).mpr old)
  · exact mem_singleton.mp member'

theorem fitting_moved {q : Ptr} {out : List Ptr} (fitting : Fitting dom p mid ns) (moved : Moved dom dom' q out []) :
    Fitting dom' p mid ns := by
  unfold Fitting
  simp only [moved.same.type]
  refine ⟨fitting.1, fun document n member singular => ⟨fun m below keep => ?_, (fitting.2 document n member singular).2⟩⟩
  rw [moved.parent, if_neg not_mem_nil] at below
  split at below
  · cases below
  · exact (fitting.2 document n member singular).1 m below keep

theorem proper_moved (proper : Proper dom) (moved : Moved dom dom' p mid ns) (fitting : Fitting dom p mid ns) :
    Proper dom' :=
  ⟨moved.tree, shaped_moved proper.shaped moved fitting⟩

theorem fitting_nil (p : Ptr) (mid : List Ptr) : Fitting dom p mid [] :=
  ⟨fun _ member => (nomatch member), fun _ _ member => (nomatch member)⟩

theorem proper_pending (proper : Proper dom) (pending : List Ptr) : Proper { dom with pending } := by
  obtain ⟨⟨kids, tree⟩, permitted, single⟩ := proper
  exact ⟨⟨kids, tree_congr tree (Nat.le_refl _) (fun _ => rfl)⟩, permitted, single⟩

theorem proper_owner (proper : Proper dom) (n : Ptr) (owner : Option Ptr) :
    Proper (dom.set n (fun m => { m with owner })) := by
  obtain ⟨⟨kids, tree⟩, permitted, single⟩ := proper
  have links : ∀ m, Node.links ((dom.set n (fun m => { m with owner })).node m) = Node.links (dom.node m) := by
    intro m
    rw [node_set]
    split <;> rfl
  have parents : ∀ m, ((dom.set n (fun m => { m with owner })).node m).parent = (dom.node m).parent :=
    fun m => congrArg (·.1) (links m)
  have types : ∀ m, ((dom.set n (fun m => { m with owner })).node m).type = (dom.node m).type := by
    intro m
    rw [node_set]
    split <;> rfl
  refine ⟨⟨kids, tree_congr tree (Nat.le_refl _) links⟩, fun c p => ?_, fun d c c' => ?_⟩
  · rw [parents, types, types]
    exact permitted c p
  · rw [parents, parents, types, types, types]
    exact single d c c'

theorem fragment_lone (shaped : Shaped dom) (fragment : (dom.node f).type = .documentFragment) :
    (dom.node f).parent = none := by
  rcases below : (dom.node f).parent with _ | p
  · rfl
  · have never := shaped.permitted f p below
    rw [fragment] at never
    rcases type : (dom.node p).type <;> rw [type] at never <;> exact absurd never (by decide)

theorem takeOut_lone (lone : (dom.node c).parent = none) (ran : takeOut dom c = some (e, dom')) :
    e = none ∧ ∃ pending, dom' = { dom with pending } := by
  unfold takeOut at ran
  rw [lone] at ran
  obtain ⟨d, removed, ran⟩ := bind_eq_some_iff.mp ran
  obtain ⟨rfl, rfl⟩ := Prod.mk.inj (some_inj.mp ran)
  exact ⟨rfl, removePending_some removed⟩

theorem lone_moved (tree : Tree dom kids) {pending : List Ptr} (lone : (dom.node c).parent = none) :
    Moved dom { dom with pending } p [c] [] := by
  refine ⟨⟨kids, tree_congr tree (Nat.le_refl _) (fun _ => rfl)⟩, same_pending pending, fun n => ?_⟩
  split
  next own => rw [mem_singleton.mp own, lone]
  next => rfl

theorem putIn_proper (proper : Proper dom) {e' : Option DomException} {dom₁ : Dom}
    (there : c < dom.size ∧ node < dom.size) (checked : insertChecks dom node c refChild = some none)
    (sound : ¬ TwoRoots dom node c) (other : some c ≠ refChild) (taken : takeOut dom c = some (e, dom₁))
    (ran : putIn dom₁ node c refChild = some (e', dom')) (fine : e = none) : Proper dom' := by
  obtain ⟨below, free, permitted⟩ := insertChecks_none checked
  obtain ⟨kids, tree⟩ := proper.tree
  by_cases fragment : (dom.node c).type = .documentFragment
  · obtain ⟨-, pending, rfl⟩ := takeOut_lone (fragment_lone proper.shaped fragment) taken
    have tree₁ : Tree { dom with pending } kids := tree_congr tree (Nat.le_refl _) (fun _ => rfl)
    have alone : Moved dom { dom with pending } node [c] [] := lone_moved tree (fragment_lone proper.shaped fragment)
    have movable := movable_kids tree₁ there.2 (notAbove_moved tree there.2 free alone)
    have proper₁ := proper_pending proper pending
    rcases putIn_fragment tree₁ fragment below movable with refusal | ⟨permitted, dom₂, put, moved⟩
    · obtain ⟨-, rfl⟩ := Prod.mk.inj (some_inj.mp (refusal.symm.trans ran))
      exact proper₁
    · obtain ⟨-, rfl⟩ := Prod.mk.inj (some_inj.mp (put.symm.trans ran))
      obtain ⟨no, is, each⟩ := refused_eq tree₁ node c
      obtain rfl := each.mpr permitted
      exact proper_moved proper₁ moved (fitting_kids tree₁ proper₁.shaped fragment is sound)
  · obtain ⟨failed, -⟩ | ⟨-, moved₁⟩ := takeOut_moved (p := node) tree taken
    · rw [fine] at failed
      cases failed
    · obtain ⟨kids₁, tree₁, movable, stays⟩ := tree_without tree there free moved₁
      have below₁ := fun r (same : refChild = some r) => stays r (fun own => other (by rw [own, same])) (below r same)
      obtain ⟨dom₂, put, moved₂, -⟩ := putIn_node tree₁ (moved₁.same.type c ▸ fragment) below₁ movable
      obtain ⟨-, rfl⟩ := Prod.mk.inj (some_inj.mp (put.symm.trans ran))
      have fitting : Fitting dom node [] [c] := fitting_node tree (permitted fragment)
      exact proper_moved (proper_moved proper moved₁ (fitting_nil _ _)) moved₂ (fitting_moved fitting moved₁)

theorem insertBefore_proper (proper : Proper dom) (there : c < dom.size ∧ node < dom.size)
    (sound : insertChecks dom node c refChild = some none → ¬ TwoRoots dom node c)
    (ran : insertBefore dom node c refChild = some (e, dom')) : Proper dom' := by
  unfold insertBefore at ran
  obtain ⟨outcome, checked, ran⟩ := bind_eq_some_iff.mp ran
  rcases outcome with _ | failed
  · dsimp only at ran
    split at ran
    · cases ran
      exact proper
    next other =>
      obtain ⟨⟨e₁, dom₁⟩, taken, ran⟩ := bind_eq_some_iff.mp ran
      rcases e₁ with _ | failed
      · obtain ⟨⟨e₂, dom₂⟩, put, ran⟩ := bind_eq_some_iff.mp ran
        have proper₂ := putIn_proper proper there checked (sound checked) other taken put rfl
        rcases e₂ with _ | failed
        · dsimp only at ran
          split at ran
          · cases ran
            exact proper_owner proper₂ c _
          · cases ran
            exact proper₂
        · cases ran
          exact proper₂
      · cases ran
        obtain ⟨kids, tree⟩ := proper.tree
        obtain ⟨-, rfl⟩ | ⟨none, -⟩ := takeOut_moved (p := node) tree taken
        · exact proper
        · cases none
  · cases ran
    exact proper

theorem replaceChild_proper (proper : Proper dom) (there : c < dom.size ∧ node < dom.size)
    (sound : replaceChecks dom node c old = some none → ¬ TwoRoots dom node c ∧ ¬ Unlinked dom c old)
    (ran : replaceChild dom node c old = some (e, dom')) : Proper dom' := by
  obtain ⟨kids, tree⟩ := proper.tree
  unfold replaceChild at ran
  obtain ⟨outcome, checked, ran⟩ := bind_eq_some_iff.mp ran
  rcases outcome with _ | failed
  · dsimp only at ran
    split at ran
    · cases ran
      exact proper
    next other =>
      obtain ⟨⟨e₁, dom₁⟩, taken, ran⟩ := bind_eq_some_iff.mp ran
      obtain ⟨oneRoot, linked⟩ := sound checked
      obtain ⟨-, below, free, permitted, allowed⟩ := replaceChecks_none checked
      rcases e₁ with _ | failed
      · obtain ⟨dom₂, replaced, ran⟩ := bind_eq_some_iff.mp ran
        obtain ⟨dom₃, marked, ran⟩ := bind_eq_some_iff.mp ran
        cases ran
        obtain ⟨pending, rfl⟩ := markPending_some marked
        refine proper_pending ?_ pending
        by_cases fragment : (dom.node c).type = .documentFragment
        · obtain ⟨-, pending, rfl⟩ := takeOut_lone (fragment_lone proper.shaped fragment) taken
          have tree₁ : Tree { dom with pending } kids := tree_congr tree (Nat.le_refl _) (fun _ => rfl)
          have alone : Moved dom { dom with pending } node [c] [] := lone_moved tree (fragment_lone proper.shaped fragment)
          have movable := movable_kids tree₁ there.2 (notAbove_moved tree there.2 free alone)
          have proper₁ := proper_pending proper pending
          obtain ⟨dom₂, replaced', moved⟩ := replace_fragment tree₁ fragment below movable
            (fun childless => by_contra (fun siblings => linked ⟨fragment, childless, siblings⟩))
          obtain rfl := some_inj.mp (replaced'.symm.trans replaced)
          exact proper_moved proper₁ moved (fitting_kids tree₁ proper₁.shaped fragment (allowed fragment) oneRoot)
        · obtain ⟨failed, -⟩ | ⟨-, moved₁⟩ := takeOut_moved (p := node) tree taken
          · cases failed
          · obtain ⟨kids₁, tree₁, movable, stays⟩ := tree_without tree there free moved₁
            obtain ⟨dom₂, replaced', moved₂, -⟩ :=
              replace_node tree₁ (moved₁.same.type c ▸ fragment) (stays old other below) movable
            obtain rfl := some_inj.mp (replaced'.symm.trans replaced)
            have fitting : Fitting dom node [old] [c] := fitting_node tree (permitted fragment)
            exact proper_moved (proper_moved proper moved₁ (fitting_nil _ _)) moved₂ (fitting_moved fitting moved₁)
      · cases ran
        obtain ⟨-, rfl⟩ | ⟨none, -⟩ := takeOut_moved (p := node) tree taken
        · exact proper
        · cases none
  · cases ran
    exact proper

theorem removeChild_proper (proper : Proper dom) (ran : removeChild dom node old = some (e, dom')) : Proper dom' := by
  obtain ⟨kids, tree⟩ := proper.tree
  unfold removeChild at ran
  dsimp only at ran
  split at ran
  · cases ran
    exact proper
  · split at ran
    · cases ran
      exact proper
    next below =>
      obtain ⟨readOnly, -, ran⟩ := bind_eq_some_iff.mp ran
      split at ran
      · cases ran
        exact proper
      · obtain ⟨dom₁, out, ran⟩ := bind_eq_some_iff.mp ran
        cases ran
        exact proper_moved proper (detach_moved tree (not_not.mp below) out) (fitting_nil _ _)

theorem create_proper (proper : Proper dom) {type : NodeType} {readOnly : Bool}
    (ran : create dom type readOnly = some dom') : Proper dom' := by
  obtain ⟨⟨kids, tree⟩, permitted, single⟩ := proper
  obtain ⟨pending, rfl⟩ := markPending_some ran
  have unlinked : Node.links (dom.node dom.size) = (none, none, none, none, none) := by
    have childless : kids dom.size = [] := by
      refine eq_nil_iff_forall_not_mem.mpr (fun c member => ?_)
      exact Nat.lt_irrefl _ (tree.there c dom.size ((tree.child _ c).mp member)).2
    have lone : (dom.node dom.size).parent = none := by
      rcases below : (dom.node dom.size).parent with _ | p
      · rfl
      · exact absurd (tree.there _ p below).1 (Nat.lt_irrefl _)
    obtain ⟨previous, next⟩ := tree.loose _ lone
    unfold Node.links
    rw [lone, tree.first, tree.last, childless, previous, next]
    rfl
  have old : ∀ n, n ≠ dom.size → ∀ m : Node, Function.update dom.node dom.size m n = dom.node n :=
    fun n other m => Function.update_of_ne other m dom.node
  have links : ∀ n, Node.links (Function.update dom.node dom.size
      { type, owner := if type = .documentType then none else some 0, readOnly } n) = Node.links (dom.node n) := by
    intro n
    by_cases own : n = dom.size
    · rw [own, unlinked, Function.update_self]
      rfl
    · rw [old n own]
  have inside : ∀ {c p}, (Function.update dom.node dom.size
      { type, owner := if type = .documentType then none else some 0, readOnly } c).parent = some p →
      (dom.node c).parent = some p ∧ c ≠ dom.size ∧ p ≠ dom.size := by
    intro c p below
    have before : (dom.node c).parent = some p := (congrArg (·.1) (links c)).symm.trans below
    obtain ⟨child, parent⟩ := tree.there c p before
    exact ⟨before, Nat.ne_of_lt child, Nat.ne_of_lt parent⟩
  refine ⟨⟨kids, tree_congr tree (Nat.le_succ _) links⟩, fun c p below => ?_, fun d c c' document one other => ?_⟩
  · obtain ⟨before, child, parent⟩ := inside below
    dsimp only
    rw [old c child, old p parent]
    exact permitted c p before
  · obtain ⟨one, child, parent⟩ := inside one
    obtain ⟨other, child', -⟩ := inside other
    dsimp only at document ⊢
    rw [old d parent] at document
    rw [old c child, old c' child']
    exact single d c c' document one other

theorem step_proper (proper : Proper dom) {op : Op} (sound : Sound dom op) (ran : step dom op = some (e, dom')) :
    Proper dom' := by
  unfold step at ran
  split at ran
  · cases ran
  next there =>
    have inside : ∀ n ∈ op.nodes, n < dom.size := by simpa using there
    cases op with
    | create type readOnly =>
      dsimp only at ran
      split at ran
      · cases ran
      · obtain ⟨created, is, same⟩ := map_eq_some_iff.mp ran
        obtain ⟨-, rfl⟩ := Prod.mk.inj same
        exact create_proper proper is
    | insertBefore node c refChild =>
      exact insertBefore_proper proper ⟨inside c (by simp [Op.nodes]), inside node (by simp [Op.nodes])⟩ sound ran
    | appendChild node c =>
      exact insertBefore_proper proper ⟨inside c (by simp [Op.nodes]), inside node (by simp [Op.nodes])⟩ sound ran
    | replaceChild node c old =>
      exact replaceChild_proper proper ⟨inside c (by simp [Op.nodes]), inside node (by simp [Op.nodes])⟩ sound ran
    | removeChild node old => exact removeChild_proper proper ran

theorem newDocument_proper : Proper newDocument := by
  refine ⟨⟨fun _ => [], fun _ => trivial, fun _ => rfl, fun _ => rfl, fun p c => ?_, fun _ => nodup_nil,
    fun _ _ => ⟨rfl, rfl⟩, fun n => ends_cons (ends_none _), fun c p below => ?_⟩, fun c p below => ?_,
    fun d c c' _ below => ?_⟩
  · exact ⟨fun member => (nomatch member), fun below => (nomatch below)⟩
  all_goals cases below

theorem run_proper {dom : Dom}
    (sound : ∀ before op after, history = before ++ op :: after → ∀ mid, run before = some mid → Sound mid op)
    (ran : run history = some dom) : Proper dom := by
  refine Runs.run_keeps (I := fun _ => Proper) ran newDocument_proper ?_
  intro before op after split mid s' earlier proper one
  obtain ⟨⟨e, s'⟩, returns, rfl⟩ := map_eq_some_iff.mp one
  exact step_proper proper (sound before op after split mid earlier) returns

/-- Each node is among the children of its parent, and there once, the links agree with each other, no node is above
itself, and a document has one Element and one DocumentType at most. -/
def IsTree (dom : Dom) : Prop :=
  (∃ kids, Tree dom kids) ∧ (∀ n, ¬ Relation.TransGen (fun a b => (dom.node a).parent = some b) n n) ∧
    ∀ d c c', (dom.node d).type = .document → (dom.node c).parent = some d → (dom.node c').parent = some d →
      (dom.node c).type = (dom.node c').type → (dom.node c).type = .element ∨ (dom.node c).type = .documentType → c = c'

/-- The nodes are a tree after any history in which no fragment gives a document two elements or leaves siblings unlinked. -/
theorem tree_stays {dom : Dom}
    (sound : ∀ before op after, history = before ++ op :: after → ∀ mid, run before = some mid → Sound mid op)
    (ran : run history = some dom) : IsTree dom := by
  obtain ⟨⟨kids, tree⟩, shaped⟩ := run_proper sound ran
  exact ⟨⟨kids, tree⟩, fun n => not_after_itself (tree.rooted n), shaped.single⟩

/-- A fragment with an element and a comment put into a document, and the element's text replaced. -/
theorem tree_stays_with_fragment :
    ∃ dom, run [.create .documentFragment false, .create .element false, .create .comment false, .appendChild 1 2,
      .insertBefore 1 3 (some 2), .appendChild 0 1, .create .text false, .appendChild 2 4, .create .text false,
      .replaceChild 2 5 4] = some dom ∧ IsTree dom := by
  have returns : (run [.create .documentFragment false, .create .element false, .create .comment false,
      .appendChild 1 2, .insertBefore 1 3 (some 2), .appendChild 0 1, .create .text false, .appendChild 2 4,
      .create .text false, .replaceChild 2 5 4]).isSome = true := by decide +kernel
  have each : ∀ n < 10, ∀ op ∈ ([.create .documentFragment false, .create .element false, .create .comment false,
      .appendChild 1 2, .insertBefore 1 3 (some 2), .appendChild 0 1, .create .text false, .appendChild 2 4,
      .create .text false, .replaceChild 2 5 4] : List Op)[n]?, ∀ mid ∈ run (([.create .documentFragment false,
      .create .element false, .create .comment false, .appendChild 1 2, .insertBefore 1 3 (some 2), .appendChild 0 1,
      .create .text false, .appendChild 2 4, .create .text false, .replaceChild 2 5 4] : List Op).take n),
      Sound mid op := by decide +kernel
  obtain ⟨dom, ran⟩ := isSome_iff_exists.mp returns
  refine ⟨dom, ran, tree_stays (fun before op after same mid ran' => ?_) ran⟩
  have size : before.length < 10 := by
    have lengths := congrArg List.length same
    simp only [length_append, length_cons, length_nil] at lengths
    omega
  refine each before.length size op ?_ mid ?_
  · rw [same]
    simp
  · rw [same, take_left]
    exact ran'

/-- A fragment gives a document two elements; and of two texts one is replaced by a fragment without children, and is
still the previous sibling of the other. -/
theorem tree_lost :
    (∃ dom, run [.create .documentFragment false, .create .element false, .create .element false, .appendChild 1 2,
      .appendChild 1 3, .appendChild 0 1] = some dom ∧ ¬ IsTree dom) ∧
    ∃ dom, run [.create .element false, .create .text false, .create .text false, .create .documentFragment false,
      .appendChild 1 2, .appendChild 1 3, .replaceChild 1 4 2] = some dom ∧ ¬ IsTree dom := by
  have roots : (run [.create .documentFragment false, .create .element false, .create .element false, .appendChild 1 2,
      .appendChild 1 3, .appendChild 0 1]).map (fun dom => ((dom.node 0).type, dom.node 2, dom.node 3)) =
      some (.document, { type := .element, owner := some 0, parent := some 0, next := some 3 },
        { type := .element, owner := some 0, parent := some 0, previous := some 2 }) := by decide +kernel
  have stale : (run [.create .element false, .create .text false, .create .text false, .create .documentFragment false,
      .appendChild 1 2, .appendChild 1 3, .replaceChild 1 4 2]).map
        (fun dom => ((dom.node 1).firstChild, (dom.node 3).previous)) = some (some 3, some 2) := by decide +kernel
  obtain ⟨dom, ran, facts⟩ := map_eq_some_iff.mp roots
  obtain ⟨dom', ran', facts'⟩ := map_eq_some_iff.mp stale
  refine ⟨⟨dom, ran, fun tree => ?_⟩, dom', ran', fun tree => ?_⟩
  · obtain ⟨document, nodes⟩ := Prod.mk.inj facts
    obtain ⟨two, three⟩ := Prod.mk.inj nodes
    exact absurd (tree.2.2 0 2 3 document (by rw [two]) (by rw [three]) (by rw [two, three]) (.inl (by rw [two]))) (by decide)
  · obtain ⟨first, previous⟩ := Prod.mk.inj facts'
    obtain ⟨⟨kids, tree⟩, -⟩ := tree
    rw [tree.first] at first
    have before : (dom'.node 3).previous = none := (tree.threaded 1).previous_first first
    rw [before] at previous
    cases previous

end Besra.DomTreeRun
