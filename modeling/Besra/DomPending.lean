import Besra.DomTreeRun

/-!
The list of pending nodes, and what a call that fails leaves behind. Both are as they
should be as long as no fragment gets past the checks of a call: a fragment is taken off
the list before its children are looked at, and is not put back, whether they are
permitted or not.
-/
namespace Besra.DomPending
open PointerChain DomNode DomTree DomLinks DomTests DomEdits DomTreeRun List Option

variable {dom dom' : Dom} {kids : Ptr → List Ptr}

/-- The list holds the nodes that have no parent, of those that the document owns; the document itself is not on it. -/
structure Listed (dom : Dom) : Prop where
  nodup : dom.pending.Nodup
  there : ∀ n ∈ dom.pending, n < dom.size
  owned : ∀ n ∈ dom.pending, (dom.node n).owner ≠ none
  exact : ∀ n < dom.size, (dom.node n).type ≠ .document → (dom.node n).owner ≠ none →
    (n ∈ dom.pending ↔ (dom.node n).parent = none)

variable {c p node old : Ptr} {dom₁ : Dom} {refChild : Option Ptr} {op : Op} {history : List Op}

theorem markPending_eq (listed : Listed dom) (there : c < dom.size) (type : (dom.node c).type ≠ .document)
    (below : (dom.node c).parent ≠ none) :
    markPending dom c =
      some { dom with pending := if (dom.node c).owner = none then dom.pending else dom.pending ++ [c] } := by
  unfold markPending
  split
  · rfl
  next owned =>
    rw [if_neg (fun pending => below ((listed.exact c there type owned).mp pending))]

theorem removePending_lone (listed : Listed dom) (there : c < dom.size) (type : (dom.node c).type ≠ .document)
    (lone : (dom.node c).parent = none) : removePending dom c = some { dom with pending := dom.pending.erase c } := by
  unfold removePending
  split
  next free =>
    rw [erase_of_not_mem (fun pending => listed.owned c pending free)]
  next owned => rw [if_pos ((listed.exact c there type owned).mpr lone)]

theorem detach_total (tree : Tree dom kids) (listed : Listed dom) (type : (dom.node c).type ≠ .document)
    (below : (dom.node c).parent = some p) : ∃ dom', detach dom c = some dom' ∧ Moved dom dom' p [c] [] ∧
      dom'.pending = if (dom.node c).owner = none then dom.pending else dom.pending ++ [c] := by
  obtain ⟨l, r, own⟩ := split_at tree below
  have marked := markPending_eq listed (tree.there c p below).1 type (by simp [below])
  have ran : ∃ dom', detach dom c = some dom' ∧
      dom'.pending = if (dom.node c).owner = none then dom.pending else dom.pending ++ [c] := by
    have tree' : ∀ pending, Tree { dom with pending } kids :=
      fun _ => tree_congr tree (Nat.le_refl _) (fun _ => rfl)
    unfold detach
    rw [marked, bind_eq_bind, bind_some, detachRange_eq (tree' _) own]
    refine ⟨_, rfl, ?_⟩
    unfold detached
    rw [linkBefore_eq, linkAfter_eq]
    rfl
  obtain ⟨dom', ran, pending⟩ := ran
  exact ⟨dom', ran, detach_moved tree below ran, pending⟩

theorem takeOut_total (tree : Tree dom kids) (listed : Listed dom) (there : c < dom.size)
    (type : (dom.node c).type ≠ .document) (p : Ptr) : (∃ e, takeOut dom c = some (some e, dom)) ∨
      ∃ dom', takeOut dom c = some (none, dom') ∧ Moved dom dom' p [c] [] ∧ dom'.pending = dom.pending.erase c := by
  have ran : (∃ e, takeOut dom c = some (some e, dom)) ∨
      ∃ dom', takeOut dom c = some (none, dom') ∧ dom'.pending = dom.pending.erase c := by
    unfold takeOut
    rcases below : (dom.node c).parent with _ | q
    · dsimp only
      rw [removePending_lone listed there type below]
      exact .inr ⟨_, rfl, rfl⟩
    · dsimp only
      obtain ⟨readOnly, is⟩ := readonly_total tree (tree.there c q below).2
      obtain ⟨dom', out, moved, pending⟩ := detach_total tree listed type below
      rw [is, out, bind_eq_bind, bind_some]
      split
      · exact .inl ⟨_, rfl⟩
      · refine .inr ?_
        rw [bind_eq_bind, bind_some]
        unfold removePending
        rw [moved.same.owner]
        split
        next free =>
          rw [if_pos free] at pending
          refine ⟨dom', rfl, ?_⟩
          rw [pending, erase_of_not_mem (fun pending => listed.owned c pending free)]
        next owned =>
          have absent : c ∉ dom.pending := fun member => by simp [(listed.exact c there type owned).mp member] at below
          rw [if_neg owned] at pending
          rw [if_pos (by rw [pending]; simp)]
          refine ⟨_, rfl, ?_⟩
          dsimp only
          rw [pending, erase_append_right _ absent, erase_of_not_mem absent]
          simp
  rcases ran with failed | ⟨dom', ran, pending⟩
  · exact .inl failed
  · obtain ⟨failed, -⟩ | ⟨-, moved⟩ := takeOut_moved (p := p) tree ran
    · cases failed
    · exact .inr ⟨dom', ran, moved, pending⟩

theorem insertChecks_total (tree : Tree dom kids) (there : node < dom.size) (c : Ptr) (refChild : Option Ptr) :
    ∃ outcome, insertChecks dom node c refChild = some outcome := by
  obtain ⟨readOnly, is⟩ := readonly_total tree there
  obtain ⟨as, leads, enough⟩ := above tree there
  obtain ⟨valid, permitted, -⟩ := permittedChild_eq tree node c
  unfold insertChecks
  rw [is, someAbove_eq leads enough, permitted]
  dsimp only [bind_eq_bind, bind_some]
  split_ifs <;> exact ⟨_, rfl⟩

theorem replaceChecks_total (tree : Tree dom kids) (there : node < dom.size) (c old : Ptr) :
    ∃ outcome, replaceChecks dom node c old = some outcome := by
  obtain ⟨readOnly, is⟩ := readonly_total tree there
  obtain ⟨as, leads, enough⟩ := above tree there
  obtain ⟨valid, permitted, -⟩ := permittedChild_eq tree node c
  obtain ⟨no, refusal, -⟩ := refused_eq tree node c
  unfold replaceChecks
  rw [is, someAbove_eq leads enough, permitted, refusal]
  dsimp only [bind_eq_bind, bind_some]
  split_ifs <;> exact ⟨_, rfl⟩

/-- What holds of the nodes and the list all the time. -/
structure Exact (dom : Dom) : Prop where
  proper : Proper dom
  listed : Listed dom

theorem permitted_type (tree : Tree dom kids) (permitted : permittedChild dom p c = some true) :
    (dom.node c).type ≠ .document := by
  obtain ⟨ok, is, iff⟩ := permittedChild_eq tree p c
  obtain rfl := some_inj.mp (permitted.symm.trans is)
  intro document
  have type := (iff.mp rfl).1
  rw [document] at type
  rcases parent : (dom.node p).type <;> rw [parent] at type <;> exact absurd type (by decide)

theorem child_type (shaped : Shaped dom) (below : (dom.node c).parent = some p) : (dom.node c).type ≠ .document := by
  intro document
  have type := shaped.permitted c p below
  rw [document] at type
  rcases parent : (dom.node p).type <;> rw [parent] at type <;> exact absurd type (by decide)

theorem listed_in (listed : Listed dom) (same : Same dom dom') (pending : dom'.pending = dom.pending.erase c)
    (parent : ∀ n, (dom'.node n).parent = if n = c then some p else (dom.node n).parent) : Listed dom' := by
  refine ⟨?_, fun n member => ?_, fun n member => ?_, fun n => ?_⟩
  · rw [pending]
    exact listed.nodup.erase c
  · rw [pending] at member
    rw [same.size]
    exact listed.there n (mem_of_mem_erase member)
  · rw [pending] at member
    rw [same.owner]
    exact listed.owned n (mem_of_mem_erase member)
  · rw [same.size, same.type, same.owner, pending, parent, listed.nodup.mem_erase_iff]
    intro there type owned
    split
    next own => simp [own]
    next other => rw [listed.exact n there type owned, and_iff_right other]

theorem listed_out (listed : Listed dom) (same : Same dom dom') (there : old < dom.size)
    (type : (dom.node old).type ≠ .document) (below : (dom.node old).parent ≠ none)
    (pending : dom'.pending = if (dom.node old).owner = none then dom.pending else dom.pending ++ [old])
    (parent : ∀ n, (dom'.node n).parent = if n = old then none else (dom.node n).parent) : Listed dom' := by
  have fresh : (dom.node old).owner ≠ none → old ∉ dom.pending :=
    fun owned member => below ((listed.exact old there type owned).mp member)
  have members : ∀ n, n ∈ dom'.pending ↔ n ∈ dom.pending ∨ n = old ∧ (dom.node old).owner ≠ none := by
    intro n
    rw [pending]
    split
    next free => simp [free]
    next owned => simp [owned]
  refine ⟨?_, fun n member => ?_, fun n member => ?_, fun n => ?_⟩
  · rw [pending]
    split
    · exact listed.nodup
    next owned =>
      refine nodup_append.mpr ⟨listed.nodup, by simp, ?_⟩
      rintro a member b own rfl
      exact fresh owned (mem_singleton.mp own ▸ member)
  · rw [same.size]
    rcases (members n).mp member with before | ⟨rfl, -⟩
    · exact listed.there n before
    · exact there
  · rw [same.owner]
    rcases (members n).mp member with before | ⟨rfl, owned⟩
    · exact listed.owned n before
    · exact owned
  · rw [same.size, same.type, same.owner, members, parent]
    intro there type owned
    split
    next own => simp [own, own ▸ owned]
    next other => simp [other, listed.exact n there type owned]

theorem listed_owner (listed : Listed dom) (below : (dom.node c).parent ≠ none) (absent : c ∉ dom.pending)
    (owner : Option Ptr) : Listed (dom.set c (fun m => { m with owner })) := by
  have other : ∀ n, n ≠ c → (dom.set c (fun m => { m with owner })).node n = dom.node n := by
    intro n apart
    rw [node_set, if_neg apart]
  refine ⟨listed.nodup, listed.there, fun n member => ?_, fun n there type owned => ?_⟩
  · have apart : n ≠ c := fun own => absent (own ▸ member)
    rw [other n apart]
    exact listed.owned n member
  · by_cases own : n = c
    · subst own
      rw [node_set, if_pos rfl]
      exact ⟨fun member => absurd member absent, fun lone => absurd lone below⟩
    · rw [other n own] at type owned ⊢
      exact listed.exact n there type owned

def Leaves (dom : Dom) (outcome : Option Result) : Prop :=
  ∃ e dom', outcome = some (e, dom') ∧ (e ≠ none → dom' = dom) ∧ Listed dom'

theorem leaves_same (listed : Listed dom) (e : Option DomException) : Leaves dom (some (e, dom)) :=
  ⟨e, dom, rfl, fun _ => rfl, listed⟩

theorem putIn_listed (tree : Tree dom kids) (listed : Listed dom) (there : c < dom.size ∧ node < dom.size)
    (notFragment : (dom.node c).type ≠ .documentFragment) (free : someAbove dom (· == c) node = some false)
    (below : ∀ r, refChild = some r → (dom.node r).parent = some node) (other : some c ≠ refChild)
    (moved₁ : Moved dom dom₁ node [c] []) (pending₁ : dom₁.pending = dom.pending.erase c) :
    ∃ dom₂, putIn dom₁ node c refChild = some (none, dom₂) ∧ Listed dom₂ ∧ (dom₂.node c).parent ≠ none ∧
      c ∉ dom₂.pending := by
  obtain ⟨kids₁, tree₁, movable, stays⟩ := tree_without tree there free moved₁
  have below₁ := fun r (same : refChild = some r) => stays r (fun own => other (by rw [own, same])) (below r same)
  obtain ⟨dom₂, put, moved₂, pending₂⟩ := putIn_node tree₁ (moved₁.same.type c ▸ notFragment) below₁ movable
  have parent : ∀ n, (dom₂.node n).parent = if n = c then some node else (dom.node n).parent := by
    intro n
    rw [moved₂.parent, moved₁.parent]
    by_cases own : n = c <;> simp [own]
  refine ⟨dom₂, put, listed_in listed (moved₁.same.trans moved₂.same) (pending₂.trans pending₁) parent, ?_, ?_⟩
  · rw [parent]
    simp
  · rw [pending₂, pending₁]
    exact listed.nodup.not_mem_erase

theorem insertBefore_leaves (exact : Exact dom) (there : c < dom.size ∧ node < dom.size)
    (plain : insertChecks dom node c refChild = some none → (dom.node c).type ≠ .documentFragment) :
    Leaves dom (insertBefore dom node c refChild) := by
  obtain ⟨⟨⟨kids, tree⟩, -⟩, listed⟩ := exact
  obtain ⟨outcome, checked⟩ := insertChecks_total tree there.2 c refChild
  unfold insertBefore
  rw [checked, bind_eq_bind, bind_some]
  rcases outcome with _ | failed
  · obtain ⟨below, free, permitted⟩ := insertChecks_none checked
    have notFragment := plain checked
    dsimp only
    split
    · exact leaves_same listed _
    next other =>
      rcases takeOut_total tree listed there.1 (permitted_type tree (permitted notFragment)) node
        with ⟨e, failed⟩ | ⟨dom₁, taken, moved₁, pending₁⟩
      · rw [failed]
        exact leaves_same listed _
      · obtain ⟨dom₂, put, listed₂, below₂, absent⟩ :=
          putIn_listed tree listed there notFragment free below other moved₁ pending₁
        rw [taken, bind_eq_bind, bind_some]
        dsimp only
        rw [put, bind_some]
        dsimp only
        split
        · exact ⟨_, _, rfl, fun failed => absurd rfl failed, listed_owner listed₂ below₂ absent _⟩
        · exact ⟨_, _, rfl, fun failed => absurd rfl failed, listed₂⟩
  · exact leaves_same listed _

theorem replace_listed (tree : Tree dom kids) (shaped : Shaped dom) (listed : Listed dom)
    (there : c < dom.size ∧ node < dom.size) (notFragment : (dom.node c).type ≠ .documentFragment)
    (free : someAbove dom (· == c) node = some false) (below : (dom.node old).parent = some node) (other : c ≠ old)
    (moved₁ : Moved dom dom₁ node [c] []) (pending₁ : dom₁.pending = dom.pending.erase c) :
    ∃ dom₂, replace dom₁ old c = some dom₂ ∧ ∃ dom₃, markPending dom₂ old = some dom₃ ∧ Listed dom₃ := by
  obtain ⟨kids₁, tree₁, movable, stays⟩ := tree_without tree there free moved₁
  obtain ⟨dom₂, replaced, moved₂, pending₂⟩ :=
    replace_node tree₁ (moved₁.same.type c ▸ notFragment) (stays old other below) movable
  refine ⟨dom₂, replaced, ?_⟩
  -- the nodes as if the one that comes had its parent already, and the one that goes had it still
  let mid : Dom := { dom with
    node := fun n => { dom.node n with parent := if n = c then some node else (dom.node n).parent }
    pending := dom.pending.erase c }
  have sameMid : Same dom mid := ⟨rfl, rfl, fun _ => rfl, fun _ => rfl, fun _ => rfl⟩
  have listedMid : Listed mid := listed_in listed sameMid rfl (fun _ => rfl)
  have type := child_type shaped below
  have inside := (tree.there old node below).1
  have belowMid : (mid.node old).parent ≠ none := by
    show (if old = c then some node else (dom.node old).parent) ≠ none
    rw [if_neg other.symm, below]
    simp
  have same := moved₁.same.trans moved₂.same
  have pending : dom₂.pending = mid.pending := pending₂.trans pending₁
  have marked : markPending dom₂ old = some { dom₂ with
      pending := if (dom.node old).owner = none then mid.pending else mid.pending ++ [old] } := by
    unfold markPending
    rw [same.owner, ← pending]
    split
    · rfl
    next owned =>
      rw [if_neg (fun member => belowMid ((listedMid.exact old inside type owned).mp (pending ▸ member)))]
  refine ⟨_, marked, listed_out listedMid ⟨same.size, same.dispatching, same.type, same.owner, same.readOnly⟩ inside type
    belowMid rfl (fun n => ?_)⟩
  show (dom₂.node n).parent = if n = old then none else if n = c then some node else (dom.node n).parent
  rw [moved₂.parent, moved₁.parent]
  by_cases own : n = c <;> simp [own]

theorem replaceChild_leaves (exact : Exact dom) (there : c < dom.size ∧ node < dom.size)
    (plain : replaceChecks dom node c old = some none → (dom.node c).type ≠ .documentFragment) :
    Leaves dom (replaceChild dom node c old) := by
  obtain ⟨⟨⟨kids, tree⟩, shaped⟩, listed⟩ := exact
  obtain ⟨outcome, checked⟩ := replaceChecks_total tree there.2 c old
  unfold replaceChild
  rw [checked, bind_eq_bind, bind_some]
  rcases outcome with _ | failed
  · obtain ⟨-, below, free, permitted, -⟩ := replaceChecks_none checked
    have notFragment := plain checked
    dsimp only
    split
    · exact leaves_same listed _
    next other =>
      rcases takeOut_total tree listed there.1 (permitted_type tree (permitted notFragment)) node
        with ⟨e, failed⟩ | ⟨dom₁, taken, moved₁, pending₁⟩
      · rw [failed]
        exact leaves_same listed _
      · obtain ⟨dom₂, replaced, dom₃, marked, listed₃⟩ :=
          replace_listed tree shaped listed there notFragment free below other moved₁ pending₁
        rw [taken, bind_eq_bind, bind_some]
        dsimp only
        rw [replaced, bind_eq_bind, bind_some, marked]
        exact ⟨_, _, rfl, fun failed => absurd rfl failed, listed₃⟩
  · exact leaves_same listed _

theorem removeChild_leaves (exact : Exact dom) (there : node < dom.size) : Leaves dom (removeChild dom node old) := by
  obtain ⟨⟨⟨kids, tree⟩, shaped⟩, listed⟩ := exact
  obtain ⟨readOnly, is⟩ := readonly_total tree there
  unfold removeChild
  dsimp only
  split
  · exact leaves_same listed _
  · split
    · exact leaves_same listed _
    next below =>
      rw [is, bind_eq_bind, bind_some]
      split
      · exact leaves_same listed _
      · have below := not_not.mp below
        have type := child_type shaped below
        obtain ⟨dom', out, moved, pending⟩ := detach_total tree listed type below
        rw [out]
        refine ⟨_, _, rfl, fun failed => absurd rfl failed, listed_out listed moved.same (tree.there _ _ below).1 type
          (by simp [below]) pending (fun n => ?_)⟩
        rw [moved.parent]
        simp

theorem create_leaves (listed : Listed dom) (type : NodeType) (readOnly : Bool) :
    Leaves dom ((create dom type readOnly).map (none, ·)) := by
  have absent : dom.size ∉ dom.pending := fun member => Nat.lt_irrefl _ (listed.there _ member)
  let owner : Option Ptr := if type = .documentType then none else some 0
  have node : ∀ n ≠ dom.size, Function.update dom.node dom.size { type, owner, readOnly } n = dom.node n :=
    fun n other => Function.update_of_ne other _ _
  have apart : ∀ n ∈ dom.pending, n ≠ dom.size := fun n member own => absent (own ▸ member)
  have members : ∀ n, n ∈ (if owner = none then dom.pending else dom.pending ++ [dom.size]) ↔
      n ∈ dom.pending ∨ n = dom.size ∧ owner ≠ none := by
    intro n
    split
    next free => simp [free]
    next owned => simp [owned]
  have created : create dom type readOnly = some { dom with
      size := dom.size + 1
      node := Function.update dom.node dom.size { type, owner, readOnly }
      pending := if owner = none then dom.pending else dom.pending ++ [dom.size] } := by
    unfold create markPending
    by_cases doctype : type = .documentType <;> simp [doctype, owner, absent]
  rw [created]
  refine ⟨none, _, rfl, fun failed => absurd rfl failed, ?_, fun n member => ?_, fun n member => ?_, fun n there => ?_⟩
  · dsimp only
    split
    · exact listed.nodup
    · refine nodup_append.mpr ⟨listed.nodup, by simp, ?_⟩
      rintro a member b own rfl
      exact apart a member (mem_singleton.mp own)
  · dsimp only at member ⊢
    rcases (members n).mp member with before | ⟨rfl, -⟩
    · exact Nat.lt_succ_of_lt (listed.there n before)
    · exact Nat.lt_succ_self _
  · dsimp only at member ⊢
    rcases (members n).mp member with before | ⟨rfl, owned⟩
    · rw [node n (apart n before)]
      exact listed.owned n before
    · rw [Function.update_self]
      exact owned
  · dsimp only at there ⊢
    rw [members]
    by_cases own : n = dom.size
    · rw [own, Function.update_self]
      intro _ owned
      exact ⟨fun _ => rfl, fun _ => .inr ⟨rfl, owned⟩⟩
    · rw [node n own]
      intro type owned
      rw [listed.exact n (Nat.lt_of_le_of_ne (Nat.le_of_lt_succ there) own) type owned]
      exact ⟨fun member => member.elim id (fun new => absurd new.1 own), .inl⟩

/-- No fragment gets past the checks of the call. -/
def Plain (dom : Dom) : Op → Prop
  | .insertBefore node newChild refChild =>
    insertChecks dom node newChild refChild = some none → (dom.node newChild).type ≠ .documentFragment
  | .appendChild node newChild =>
    insertChecks dom node newChild none = some none → (dom.node newChild).type ≠ .documentFragment
  | .replaceChild node newChild oldChild =>
    replaceChecks dom node newChild oldChild = some none → (dom.node newChild).type ≠ .documentFragment
  | .create _ _ | .removeChild _ _ => True

instance (dom : Dom) : (op : Op) → Decidable (Plain dom op)
  | .insertBefore node newChild refChild =>
    inferInstanceAs (Decidable (insertChecks dom node newChild refChild = some none →
      (dom.node newChild).type ≠ .documentFragment))
  | .appendChild node newChild =>
    inferInstanceAs (Decidable (insertChecks dom node newChild none = some none →
      (dom.node newChild).type ≠ .documentFragment))
  | .replaceChild node newChild oldChild =>
    inferInstanceAs (Decidable (replaceChecks dom node newChild oldChild = some none →
      (dom.node newChild).type ≠ .documentFragment))
  | .create _ _ | .removeChild _ _ => isTrue trivial

/-- A call on nodes that there are, and not one that creates a second document. -/
def Callable (dom : Dom) (op : Op) : Prop :=
  (∀ n ∈ op.nodes, n < dom.size) ∧ ∀ readOnly, op ≠ .create .document readOnly

theorem sound_of_plain (plain : Plain dom op) : Sound dom op := by
  cases op with
  | insertBefore node c refChild => exact fun checked roots => plain checked roots.2.1
  | appendChild node c => exact fun checked roots => plain checked roots.2.1
  | replaceChild node c old =>
    exact fun checked => ⟨fun roots => plain checked roots.2.1, fun unlinked => plain checked unlinked.1⟩
  | create | removeChild => trivial

theorem step_leaves (exact : Exact dom) (callable : Callable dom op) (plain : Plain dom op) :
    Leaves dom (step dom op) := by
  obtain ⟨there, known⟩ := callable
  unfold step
  rw [if_neg (by simpa using there)]
  cases op with
  | create type readOnly =>
    dsimp only
    rw [if_neg (fun document => known readOnly (by rw [document]))]
    exact create_leaves exact.listed type readOnly
  | insertBefore node c refChild =>
    exact insertBefore_leaves exact ⟨there c (by simp [Op.nodes]), there node (by simp [Op.nodes])⟩ plain
  | appendChild node c =>
    exact insertBefore_leaves exact ⟨there c (by simp [Op.nodes]), there node (by simp [Op.nodes])⟩ plain
  | replaceChild node c old =>
    exact replaceChild_leaves exact ⟨there c (by simp [Op.nodes]), there node (by simp [Op.nodes])⟩ plain
  | removeChild node old => exact removeChild_leaves exact (there node (by simp [Op.nodes]))

theorem step_callable {e : Option DomException} (ran : step dom op = some (e, dom')) : Callable dom op := by
  unfold step at ran
  split at ran
  · cases ran
  next there =>
    refine ⟨by simpa using there, ?_⟩
    rintro readOnly rfl
    simp at ran

theorem newDocument_listed : Listed newDocument :=
  ⟨nodup_nil, fun _ member => (nomatch member), fun _ member => (nomatch member), fun _ _ type => absurd rfl type⟩

theorem run_exact {dom : Dom}
    (plain : ∀ before op after, history = before ++ op :: after → ∀ mid, run before = some mid → Plain mid op)
    (ran : run history = some dom) : Exact dom := by
  refine Runs.run_keeps (I := fun _ => Exact) ran ⟨newDocument_proper, newDocument_listed⟩ ?_
  intro before op after split mid s' earlier exact one
  obtain ⟨⟨e, s'⟩, returns, rfl⟩ := map_eq_some_iff.mp one
  have now := plain before op after split mid earlier
  obtain ⟨e', dom', returns', -, listed⟩ := step_leaves exact (step_callable returns) now
  obtain ⟨-, rfl⟩ := Prod.mk.inj (some_inj.mp (returns'.symm.trans returns))
  exact ⟨step_proper exact.proper (sound_of_plain now) returns, listed⟩

/-- Where no fragment has got past the checks of a call, each call returns, so that no assertion fails; it changes
nothing if it fails, and after it a node of the document is on the list of pending nodes if and only if it has no parent. -/
theorem edits_exact {dom : Dom}
    (plain : ∀ before op after, history = before ++ op :: after → ∀ mid, run before = some mid → Plain mid op)
    (ran : run history = some dom) (callable : Callable dom op) (now : Plain dom op) :
    ∃ e dom', step dom op = some (e, dom') ∧ (e ≠ none → dom' = dom) ∧
      ∀ n < dom'.size, (dom'.node n).type ≠ .document → (dom'.node n).owner ≠ none →
        (n ∈ dom'.pending ↔ (dom'.node n).parent = none) := by
  obtain ⟨e, dom', returns, unchanged, listed⟩ := step_leaves (run_exact plain ran) callable now
  exact ⟨e, dom', returns, unchanged, listed.exact⟩

/-- A node moved from one parent to another where the old one has a text left. -/
theorem edits_exact_moving :
    ∃ dom, run [.create .element false, .create .element false, .appendChild 0 1, .appendChild 1 2,
      .create .text false, .insertBefore 1 3 (some 2), .create .comment false, .replaceChild 1 4 2] = some dom ∧
      ∃ e dom', step dom (.appendChild 3 4) = some (e, dom') ∧ (e ≠ none → dom' = dom) ∧
        ∀ n < dom'.size, (dom'.node n).type ≠ .document → (dom'.node n).owner ≠ none →
          (n ∈ dom'.pending ↔ (dom'.node n).parent = none) := by
  have each : ∀ n < 8, ∀ op ∈ ([.create .element false, .create .element false, .appendChild 0 1, .appendChild 1 2,
      .create .text false, .insertBefore 1 3 (some 2), .create .comment false, .replaceChild 1 4 2] : List Op)[n]?,
      ∀ mid ∈ run (([.create .element false, .create .element false, .appendChild 0 1, .appendChild 1 2,
        .create .text false, .insertBefore 1 3 (some 2), .create .comment false, .replaceChild 1 4 2] : List Op).take n),
      Plain mid op := by decide +kernel
  have last : (run [.create .element false, .create .element false, .appendChild 0 1, .appendChild 1 2,
      .create .text false, .insertBefore 1 3 (some 2), .create .comment false, .replaceChild 1 4 2]).map
      (fun dom => (dom.size, decide (Plain dom (.appendChild 3 4)))) = some (5, true) := by decide +kernel
  obtain ⟨dom, ran, facts⟩ := map_eq_some_iff.mp last
  obtain ⟨size, now⟩ := Prod.mk.inj facts
  refine ⟨dom, ran, edits_exact (fun before op after same mid ran' => ?_) ran ⟨fun n member => ?_, by simp⟩
    (of_decide_eq_true now)⟩
  · have size : before.length < 8 := by
      have lengths := congrArg List.length same
      simp only [length_append, length_cons, length_nil] at lengths
      omega
    refine each before.length size op ?_ mid ?_
    · rw [same]
      simp
    · rw [same, take_left]
      exact ran'
  · rw [size]
    simp only [Op.nodes, mem_cons, not_mem_nil, or_false] at member
    rcases member with rfl | rfl <;> decide

/-- A fragment that was put in once is on no list and has no parent, and the call that puts it in again has an assertion
fail; and a fragment whose text a document refuses is off the list though the call fails. -/
theorem edits_inexact :
    ((run [.create .documentFragment false, .create .element false, .appendChild 1 2, .create .element false,
      .appendChild 3 1]).map (fun dom => (decide (1 ∈ dom.pending), (dom.node 1).parent, (dom.node 1).owner)) =
        some (false, none, some 0)) ∧
    ((run [.create .documentFragment false, .create .element false, .appendChild 1 2, .create .element false,
      .appendChild 3 1]).map (fun dom => (step dom (.appendChild 3 1)).isNone) = some true) ∧
    (run [.create .documentFragment false, .create .text false, .appendChild 1 2]).map (fun dom =>
      (dom.pending, (step dom (.appendChild 0 1)).map (fun result => (result.1, result.2.pending)))) =
        some ([1], some (some .hierarchyRequest, [])) := by
  decide +kernel

end Besra.DomPending
