import Besra.AdjacentText
import Besra.DomTreeRun

/-!
`_dom_node_normalize` of `libdom/src/core/node.c` on the pointers of the nodes, and the tree
that they form before and after it. It does to the tree what `normal` does, so that it leaves
the texts below first children as they are (`normalize_iff`).
-/
namespace Besra.Normalize
open PointerChain DomNode DomTree DomLinks DomTests DomEdits DomTreeRun List Option
  AdjacentText

/-! ### Texts -/

/-- The nodes, the data of those that have some, and the references that are held on nodes from outside. -/
structure State where
  dom : Dom
  value : Ptr → Option (List UInt8)
  refs : Ptr → Nat

abbrev Outcome := Option DomException × State

def State.isText (s : State) (n : Ptr) : Prop := (s.dom.node n).type = .text

instance (s : State) (n : Ptr) : Decidable (s.isText n) := inferInstanceAs (Decidable (_ = _))

/-- `_dom_characterdata_append_data` -/
def appendData (s : State) (p : Ptr) (data : Option (List UInt8)) : Option Outcome := do
  if ← readonly s.dom p then return (some .noModificationAllowed, s)
  else
    let joined := (← s.value p) ++ (← data)
    return (none, { s with value := Function.update s.value p (some joined) })

/-- `_dom_merge_adjacent_text` -/
def mergeAdjacentText (s : State) (p n : Ptr) : Option Outcome :=
  if s.isText p ∧ s.isText n then appendData s p (s.value n) else none

/-- `_dom_node_try_destroy`; a node that is destroyed is taken off the pending list. -/
def tryDestroy (s : State) (n : Ptr) : Option State :=
  if (s.dom.node n).parent ≠ none then some s
  else if s.refs n = 0 then some { s with dom := { s.dom with pending := s.dom.pending.erase n } }
  else if n ∈ s.dom.pending then some s
  else if (s.dom.node n).owner = none then none
  else some { s with dom := { s.dom with pending := s.dom.pending ++ [n] } }

/-! ### The loop -/

mutual
/-- `_dom_node_normalize`, with a limit on its steps. -/
def normalize : Nat → State → Ptr → Option Outcome
  | 0, _, _ => none
  | fuel + 1, s, node => do
    if ← readonly s.dom node then return (some .noModificationAllowed, s)
    else
      match (s.dom.node node).firstChild with
      | none => return (none, s)
      | some p => normalizeLoop fuel s p (s.dom.node p).next

/-- `while (n != NULL)` -/
def normalizeLoop : Nat → State → Ptr → Option Ptr → Option Outcome
  | _, s, _, none => some (none, s)
  | 0, _, _, some _ => none
  | fuel + 1, s, p, some n =>
    if s.isText n ∧ s.isText p then do
      match ← mergeAdjacentText s p n with
      | (some e, s) => return (some e, s)
      | (none, s) =>
        let s ← tryDestroy { s with dom := ← detach s.dom n } n
        normalizeLoop fuel s p (s.dom.node p).next
    else if ¬s.isText n then do
      match ← normalize fuel s n with
      | (some e, s) => return (some e, s)
      | (none, s) => normalizeLoop fuel s n (s.dom.node n).next
    else normalizeLoop fuel s n (s.dom.node n).next
end

/-! ### The tree of the nodes -/

/-- From a pointer on, siblings and what is below them form a tree. -/
def Shows (s : State) : Option Ptr → Forest Item → Prop
  | start, .null => start = none
  | start, .node v cs next =>
    start = some v.ptr ∧ (s.isText v.ptr ↔ v.text.isSome = true) ∧
      (∀ text, v.text = some text → (s.value v.ptr).getD [] = text) ∧
      Shows s (s.dom.node v.ptr).firstChild cs ∧ Shows s (s.dom.node v.ptr).next next

mutual
def Open (s : State) : Forest Item → Prop
  | .null => True
  | .node _ _ next => OpenFrom s next

def OpenFrom (s : State) : Forest Item → Prop
  | .null => True
  | .node w ds next => (w.text = none → readonly s.dom w.ptr = some false ∧ Open s ds) ∧ OpenFrom s next
end

structure Leaves (s s' : State) (ps : List Ptr) : Prop where
  tree : ∃ kids, Tree s'.dom kids
  same : Same s.dom s'.dom
  first : ∀ m ∉ ps, (s'.dom.node m).firstChild = (s.dom.node m).firstChild
  next : ∀ m ∉ ps, (s'.dom.node m).next = (s.dom.node m).next
  parent : ∀ m ∉ ps, (s'.dom.node m).parent = (s.dom.node m).parent
  value : ∀ m ∉ ps, s'.value m = s.value m
  readonly : ∀ m, m ∉ ps ∨ ¬s.isText m → readonly s'.dom m = readonly s.dom m

variable {s s' s'' : State} {kids : Ptr → List Ptr}

variable {ps qs as : List Ptr} {t : Forest Item} {start : Option Ptr} {m n p : Ptr} {dom dom' : Dom}

theorem Leaves.isText (leaves : Leaves s s' ps) (n : Ptr) : s'.isText n ↔ s.isText n := by
  rw [State.isText, State.isText, leaves.same.type]

theorem Leaves.trans {rs : List Ptr} (one : Leaves s s' ps) (other : Leaves s' s'' qs) (left : ∀ m ∈ ps, m ∈ rs)
    (right : ∀ m ∈ qs, m ∈ rs) : Leaves s s'' rs := by
  refine ⟨other.tree, one.same.trans other.same, fun m out => ?_, fun m out => ?_, fun m out => ?_, fun m out => ?_,
    fun m unchanged => ?_⟩
  · exact (other.first m (fun inside => out (right m inside))).trans (one.first m (fun inside => out (left m inside)))
  · exact (other.next m (fun inside => out (right m inside))).trans (one.next m (fun inside => out (left m inside)))
  · exact (other.parent m (fun inside => out (right m inside))).trans (one.parent m (fun inside => out (left m inside)))
  · exact (other.value m (fun inside => out (right m inside))).trans (one.value m (fun inside => out (left m inside)))
  · rcases unchanged with out | text
    · exact (other.readonly m (.inl fun inside => out (right m inside))).trans
        (one.readonly m (.inl fun inside => out (left m inside)))
    · exact (other.readonly m (.inr fun text' => text ((one.isText m).mp text'))).trans (one.readonly m (.inr text))

theorem Leaves.shows (leaves : Leaves s s' ps) (shows : Shows s start t) (out : ∀ m ∈ ptrs t, m ∉ ps) :
    Shows s' start t := by
  induction t generalizing start with
  | null => exact shows
  | node v cs next below later =>
    obtain ⟨rfl, type, text, inside, rest⟩ := shows
    have here := out v.ptr (by rw [ptrs]; simp)
    refine ⟨rfl, (leaves.isText _).trans type, ?_, ?_, ?_⟩
    · rw [leaves.value _ here]
      exact text
    · rw [leaves.first _ here]
      exact below inside (fun m member => out m (by rw [ptrs]; simp [member]))
    · rw [leaves.next _ here]
      exact later rest (fun m member => out m (by rw [ptrs]; simp [member]))

theorem Leaves.openFrom (leaves : Leaves s s' ps) (t : Forest Item) :
    (∀ start, Shows s' start t → Open s t → Open s' t) ∧ ∀ start, Shows s' start t → OpenFrom s t → OpenFrom s' t := by
  induction t with
  | null => exact ⟨fun _ _ _ => trivial, fun _ _ _ => trivial⟩
  | node v cs next below later =>
    refine ⟨fun start shows open' => later.2 _ shows.2.2.2.2 open', fun start shows open' => ?_⟩
    obtain ⟨-, type, -, inside, rest⟩ := shows
    refine ⟨fun none' => ?_, later.2 _ rest open'.2⟩
    obtain ⟨writable, open''⟩ := open'.1 none'
    refine ⟨?_, below.1 _ inside open''⟩
    have other : ¬s.isText v.ptr := by
      rw [← leaves.isText, type, none']
      decide
    rw [leaves.readonly _ (.inr other)]
    exact writable

theorem shows_unique {t' : Forest Item} (shows : Shows s start t) (shows' : Shows s start t') : t = t' := by
  induction t generalizing start t' with
  | null =>
    rcases t' with _ | ⟨v, cs, next⟩
    · rfl
    · rw [shows] at shows'
      cases shows'.1
  | node v cs next below later =>
    obtain ⟨rfl, type, text, inside, rest⟩ := shows
    rcases t' with _ | ⟨w, ds, next'⟩
    · cases shows'
    · obtain ⟨first, type', text', inside', rest'⟩ := shows'
      obtain ⟨p, v⟩ := v
      obtain ⟨q, w⟩ := w
      cases first
      have same : v = w := by
        rcases v with _ | v <;> rcases w with _ | w
        · rfl
        · exact absurd (type.mp (type'.mpr rfl)) (by simp)
        · exact absurd (type'.mp (type.mpr rfl)) (by simp)
        · rw [← text v rfl, ← text' w rfl]
      rw [below inside inside', later rest rest', same]

/-! ### The tree of a node -/

/-- The way up from a node of the tree passes one of some siblings, and then goes on from their parent. -/
def Under (s : State) (cs as : List Ptr) (m : Ptr) : Prop :=
  ∃ pre, ∃ c ∈ cs, Leads (fun n => (s.dom.node n).parent) (some m) (pre ++ c :: as) none

theorem under_unique {cs ds : List Ptr} (one : Under s cs as m) (other : Under s ds as m) : ∃ c ∈ cs, c ∈ ds := by
  obtain ⟨pre, c, inside, leads⟩ := one
  obtain ⟨pre', d, inside', leads'⟩ := other
  have same := leads_unique leads leads'
  have ends : (pre ++ [c]) ++ as = (pre' ++ [d]) ++ as := by simpa using same
  have last := congrArg List.getLast? (append_cancel_right ends)
  rw [List.getLast?_concat, List.getLast?_concat] at last
  cases last
  exact ⟨c, inside, inside'⟩

/-- The children of a node show a tree. -/
theorem exists_shows (tree : Tree s.dom kids) (shaped : Shaped s.dom) (k : Nat) (there : n < s.dom.size)
    (leads : Leads (fun n => (s.dom.node n).parent) (some n) as none) (enough : s.dom.size < as.length + k) :
    ∃ t, Shows s (s.dom.node n).firstChild t ∧ Childless t ∧ (ptrs t).Nodup ∧
      ∀ m ∈ ptrs t, Under s (kids n) as m := by
  induction k generalizing n as with
  | zero =>
    obtain ⟨as', leads', short⟩ := above tree there
    rw [leads_unique leads leads'] at enough
    omega
  | succ k ih =>
    have siblings' : ∀ r l, kids n = l ++ r → ∃ t, Shows s r.head? t ∧ Childless t ∧ (ptrs t).Nodup ∧
        ∀ m ∈ ptrs t, Under s r as m := by
      intro r
      induction r with
      | nil => exact fun l _ => ⟨.null, rfl, trivial, nodup_nil, fun m member => nomatch member⟩
      | cons c r more =>
        intro l own
        have own' : kids n = l ++ [c] ++ r := by rw [own]; simp
        obtain ⟨parent, -, next⟩ := siblings tree own'
        have up : Leads (fun n => (s.dom.node n).parent) (some c) (c :: as) none :=
          ⟨rfl, Eq.mpr (congrArg (Leads _ · as none) parent) leads⟩
        obtain ⟨t, shows, childless, nodup, under⟩ := ih (tree.there c n parent).1 up (by rw [length_cons]; omega)
        obtain ⟨t', shows', childless', nodup', under'⟩ := more (l ++ [c]) own'
        have fresh : c ∉ r := by
          have whole := tree.nodup n
          rw [own'] at whole
          exact fun member => (nodup_append.mp whole).2.2 c (by simp) c member rfl
        have here : Under s [c] as c := ⟨[], c, mem_singleton_self c, up⟩
        have below : ∀ m ∈ ptrs t, Under s [c] as m := by
          intro m member
          obtain ⟨pre, d, -, leads'⟩ := under m member
          exact ⟨pre ++ [d], c, mem_singleton_self c, by simpa using leads'⟩
        refine ⟨.node ⟨c, if s.isText c then some ((s.value c).getD []) else none⟩ t t', ⟨rfl, ?_, ?_, shows, ?_⟩,
          ⟨fun text => ?_, childless, childless'⟩, ?_, fun m member => ?_⟩
        · by_cases text : s.isText c <;> simp [text]
        · intro text same
          by_cases isText : s.isText c
          · rw [if_pos isText] at same
            exact some_inj.mp same
          · rw [if_neg isText] at same
            cases same
        · rw [next]
          exact shows'
        · have isText : s.isText c := by
            by_contra other
            rw [if_neg other] at text
            cases text
          rcases t with _ | ⟨v, ds, next'⟩
          · rfl
          · have child := (tree.child c v.ptr).mp (List.mem_of_mem_head? ((tree.first c).symm.trans shows.1))
            have permitted := shaped.permitted _ _ child
            rw [State.isText] at isText
            rw [isText] at permitted
            cases permitted
        · change (c :: (ptrs t ++ ptrs t')).Nodup
          rw [nodup_cons, mem_append, not_or, nodup_append]
          refine ⟨⟨fun member => ?_, fun member => ?_⟩, nodup, nodup', fun m member m' member' same => ?_⟩
          · obtain ⟨pre, d, -, leads'⟩ := under c member
            have length := congrArg List.length (leads_unique up leads')
            rw [length_append, length_cons, length_cons, length_cons] at length
            omega
          · obtain ⟨d, one, other⟩ := under_unique here (under' c member)
            rw [mem_singleton] at one
            exact fresh (one ▸ other)
          · subst same
            obtain ⟨d, one, other⟩ := under_unique (below m member) (under' m member')
            rw [mem_singleton] at one
            exact fresh (one ▸ other)
        · rw [ptrs, cons_append, mem_cons, mem_append] at member
          rcases member with here' | member | member
          · rw [here']
            exact ⟨[], c, mem_cons_self, up⟩
          · obtain ⟨pre, d, one, leads'⟩ := below m member
            rw [mem_singleton] at one
            exact ⟨pre, c, mem_cons_self, one ▸ leads'⟩
          · obtain ⟨pre, d, inside, leads'⟩ := under' m member
            exact ⟨pre, d, mem_cons_of_mem _ inside, leads'⟩
    obtain ⟨t, shows, facts⟩ := siblings' (kids n) [] rfl
    rw [← tree.first] at shows
    exact ⟨t, shows, facts⟩

theorem shows_sound (tree : Tree s.dom kids) (shaped : Shaped s.dom) (there : n < s.dom.size)
    (shows : Shows s (s.dom.node n).firstChild t) : Childless t ∧ n ∉ ptrs t ∧ (ptrs t).Nodup := by
  obtain ⟨as, leads, short⟩ := above tree there
  obtain ⟨t', shows', childless, nodup, under⟩ := exists_shows tree shaped (s.dom.size + 1) there leads (by omega)
  rw [shows_unique shows shows']
  refine ⟨childless, fun member => ?_, nodup⟩
  obtain ⟨pre, c, inside, leads'⟩ := under n member
  have length := congrArg List.length (leads_unique leads leads')
  rw [length_append, length_cons] at length
  omega

/-! ### A text taken out -/

theorem tryDestroy_some (ran : tryDestroy s n = some s') :
    ∃ pending, s' = { s with dom := { s.dom with pending } } := by
  rw [tryDestroy] at ran
  split at ran
  · cases ran
    exact ⟨s.dom.pending, rfl⟩
  · split at ran
    · cases ran
      exact ⟨_, rfl⟩
    · split at ran
      · cases ran
        exact ⟨s.dom.pending, rfl⟩
      · split at ran
        · cases ran
        · cases ran
          exact ⟨_, rfl⟩

theorem next_child (tree : Tree dom kids) {par : Ptr} (parent : (dom.node p).parent = some par)
    (next : (dom.node p).next = some n) : ∃ l r, kids par = l ++ [p] ++ [n] ++ r := by
  obtain ⟨l, r, own⟩ := split_at tree parent
  obtain ⟨-, -, first⟩ := siblings tree own
  rw [next] at first
  rcases r with _ | ⟨m, r⟩
  · cases first
  · cases first
    exact ⟨l, r, by rw [own]; simp⟩

theorem readonly_detached (same : Same dom dom')
    (parent : ∀ m, (dom'.node m).parent = if m = n then none else (dom.node m).parent)
    (childless : ∀ m, (dom.node m).parent ≠ some n) (other : m ≠ n) : readonly dom' m = readonly dom m := by
  have above : ∀ (p : Ptr → Bool) fuel start, start ≠ some n →
      someOn (fun m => (dom'.node m).parent) (fun m => some (p m)) fuel start =
        someOn (fun m => (dom.node m).parent) (fun m => some (p m)) fuel start := by
    intro p fuel
    induction fuel with
    | zero => rintro (_ | m) - <;> rfl
    | succ fuel ih =>
      rintro (_ | m) different
      · rfl
      · rw [someOn, someOn, parent m, if_neg (fun equal => different (congrArg some equal)), ih _ (childless m)]
  rw [readonly, readonly, same.owner, same.dispatching, same.type, same.readOnly, someAbove, someAbove, same.size,
    above _ _ _ (fun equal => other (some_inj.mp equal))]
  simp only [same.type]

theorem detach_next (tree : Tree dom kids) {par : Ptr} (parent : (dom.node p).parent = some par)
    (next : (dom.node p).next = some n) (childless : (dom.node n).firstChild = none) (ran : detach dom n = some dom') :
    (∃ kids', Tree dom' kids') ∧ Same dom dom' ∧ (∀ m, (dom'.node m).firstChild = (dom.node m).firstChild) ∧
      (∀ m, (dom'.node m).next =
        if m = p then (dom.node n).next else if m = n then none else (dom.node m).next) ∧
      (∀ m, (dom'.node m).parent = if m = n then none else (dom.node m).parent) ∧
      ∀ m, m ≠ n → readonly dom' m = readonly dom m := by
  obtain ⟨l, r, own⟩ := next_child tree parent next
  obtain ⟨marked, mark, ran⟩ := bind_eq_some_iff.mp ran
  obtain ⟨pending, rfl⟩ := markPending_some mark
  have tree' : Tree { dom with pending } kids := tree_congr tree (Nat.le_refl _) (fun _ => rfl)
  obtain ⟨-, -, later⟩ := siblings tree own
  rw [detachRange_eq tree' own] at ran
  obtain rfl := some_inj.mp ran
  have spliced := detached_spliced tree' own
  obtain ⟨trees, same, parents⟩ := detached_moved tree' own
  have parent' : ∀ m, ((detached { dom with pending } par n (l ++ [p]).getLast? r.head?).node m).parent =
      if m = n then none else (dom.node m).parent := by
    intro m
    rw [parents]
    simp
  have lone : ∀ m, (dom.node m).parent ≠ some n := by
    intro m below
    have member := (tree.child n m).mpr below
    have none' := tree.first n
    rw [childless, eq_comm, List.head?_eq_none_iff] at none'
    rw [none'] at member
    cases member
  refine ⟨trees, (same_pending pending).trans same, fun m => ?_, fun m => ?_, parent', fun m other => ?_⟩
  · rw [spliced.first]
    split
    next here =>
      subst here
      have first := tree.first m
      rw [own] at first
      rw [first]
      rcases l with _ | ⟨a, l⟩ <;> rfl
    next => rfl
  · rw [spliced.next]
    simp only [List.getLast?_append, List.getLast?_singleton, some_or, some_inj, nil_append,
      List.getLast?_nil, mem_singleton, later]
    by_cases here : m = p
    · rw [if_pos here.symm, if_pos here]
    · rw [if_neg (Ne.symm here), if_neg here]
      simp
  · exact readonly_detached ((same_pending pending).trans same) parent' lone other

/-! ### Runs -/

/-- A text joined with the one behind it. -/
theorem merge_step {v w : Item} {cs ds next : Forest Item} {par : Ptr} {s₁ : State} {dom₂ : Dom}
    (tree : Tree s.dom kids) (parent : (s.dom.node v.ptr).parent = some par)
    (shows : Shows s (some v.ptr) (.node v cs (.node w ds next))) (childless : Childless (.node v cs (.node w ds next)))
    (nodup : (ptrs (.node v cs (.node w ds next))).Nodup) (both : v.both w = true)
    (merged : mergeAdjacentText s v.ptr w.ptr = some (none, s₁)) (detached : detach s₁.dom w.ptr = some dom₂)
    (destroyed : tryDestroy { s₁ with dom := dom₂ } w.ptr = some s') :
    Leaves s s' [v.ptr, w.ptr] ∧ Shows s' (some v.ptr) (.node (v.join w) cs next) ∧
      (s'.dom.node v.ptr).parent = some par := by
  rw [Item.both, Bool.and_eq_true] at both
  obtain ⟨-, type, text, inside, linked, type', text', inside', rest⟩ := shows
  obtain ⟨alone, -, alone', -, -⟩ := childless
  obtain rfl := alone both.1
  obtain rfl := alone' both.2
  have isText := type.mpr both.1
  obtain ⟨apart, out, out'⟩ : v.ptr ≠ w.ptr ∧ v.ptr ∉ ptrs next ∧ w.ptr ∉ ptrs next := by
    simp only [ptrs, nil_append, cons_append, nodup_cons, mem_cons, not_or] at nodup
    exact ⟨nodup.1.1, nodup.1.2, nodup.2.1⟩
  -- what the calls did
  rw [mergeAdjacentText, if_pos ⟨isText, type'.mpr both.2⟩, appendData] at merged
  obtain ⟨locked, -, merged⟩ := bind_eq_some_iff.mp merged
  rcases locked with _ | _
  swap
  · cases merged
  obtain ⟨own, is, merged⟩ := bind_eq_some_iff.mp merged
  obtain ⟨data, is', merged⟩ := bind_eq_some_iff.mp merged
  cases merged
  obtain ⟨pending, rfl⟩ := tryDestroy_some destroyed
  obtain ⟨⟨kids', tree'⟩, same, first, next', parents, readonlys⟩ := detach_next tree parent linked inside' detached
  have leaves : Leaves s { s with
      dom := { dom₂ with pending }, value := Function.update s.value v.ptr (some (own ++ data)) } [v.ptr, w.ptr] := by
    refine ⟨⟨kids', tree_congr tree' (Nat.le_refl _) fun _ => rfl⟩, same.trans (same_pending pending), fun m _ => first m,
      fun m out => ?_, fun m out => ?_, fun m out => ?_, fun m unchanged => ?_⟩
    · rw [mem_cons, mem_singleton, not_or] at out
      exact (next' m).trans (by rw [if_neg out.1, if_neg out.2])
    · rw [mem_cons, mem_singleton, not_or] at out
      exact (parents m).trans (if_neg out.2)
    · rw [mem_cons, mem_singleton, not_or] at out
      exact Function.update_of_ne out.1 _ _
    · refine readonlys m fun here => ?_
      rcases unchanged with out | other
      · rw [here] at out
        exact out (by simp)
      · rw [here] at other
        exact other (type'.mpr both.2)
  refine ⟨leaves, ⟨rfl, ?_, ?_, ?_, ?_⟩, ?_⟩
  · rw [leaves.isText]
    exact ⟨fun _ => rfl, fun _ => isText⟩
  · intro joined same
    cases same
    change (Function.update s.value v.ptr (some (own ++ data)) v.ptr).getD [] = _
    rw [Function.update_self, getD_some]
    obtain ⟨p, _ | a⟩ := v
    · cases both.1
    · obtain ⟨q, _ | b⟩ := w
      · cases both.2
      · rw [← text a rfl, ← text' b rfl, is, is']
        rfl
  · exact (first v.ptr).trans inside
  · have onward : (dom₂.node v.ptr).next = (s.dom.node w.ptr).next := (next' v.ptr).trans (if_pos rfl)
    change Shows _ (dom₂.node v.ptr).next next
    rw [onward]
    refine leaves.shows rest fun m member here => ?_
    rw [mem_cons, mem_singleton] at here
    rcases here with rfl | rfl
    · exact out member
    · exact out' member
  · exact (parents v.ptr).trans ((if_neg apart).trans parent)

theorem Leaves.refl (tree : Tree s.dom kids) (ps : List Ptr) : Leaves s s ps :=
  ⟨⟨kids, tree⟩, .rfl _, fun _ _ => rfl, fun _ _ => rfl, fun _ _ => rfl, fun _ _ => rfl, fun _ _ => rfl⟩

theorem Leaves.mono (leaves : Leaves s s' ps) (within : ∀ m ∈ ps, m ∈ qs) : Leaves s s' qs :=
  ⟨leaves.tree, leaves.same, fun m out => leaves.first m fun inside => out (within m inside),
    fun m out => leaves.next m fun inside => out (within m inside),
    fun m out => leaves.parent m fun inside => out (within m inside),
    fun m out => leaves.value m fun inside => out (within m inside),
    fun m unchanged => leaves.readonly m (unchanged.imp_left fun out inside => out (within m inside))⟩

/-- What a run of the loop leaves, from the last node that is done. -/
structure Ran (s s' : State) (v : Item) (cs t u : Forest Item) : Prop where
  leaves : Leaves s s' (v.ptr :: ptrs t)
  shows : Shows s' (some v.ptr) u
  opens : Open s' u
  opensFrom : (v.text = none → readonly s.dom v.ptr = some false ∧ Open s cs) → OpenFrom s' u

theorem Ran.onward {v w : Item} {cs ds next u : Forest Item} (leaves : Leaves s s' (ptrs (.node w ds next)))
    (before : Shows s (some v.ptr) (.node v cs (.node w ds next))) (nodup : (ptrs (.node v cs (.node w ds next))).Nodup)
    (shows : Shows s' (some w.ptr) u) (opensFrom : OpenFrom s' u) : Ran s s' v cs (.node w ds next) (.node v cs u) := by
  obtain ⟨-, type, text, inside, linked, -⟩ := before
  have whole : (v.ptr :: (ptrs cs ++ ptrs (.node w ds next))).Nodup := nodup
  obtain ⟨out, nodup'⟩ := nodup_cons.mp whole
  obtain ⟨-, -, apart⟩ := nodup_append.mp nodup'
  have fresh : v.ptr ∉ ptrs (.node w ds next) := fun member => out (mem_append_right _ member)
  have below : Shows s' (s'.dom.node v.ptr).firstChild cs := by
    rw [leaves.first _ fresh]
    exact leaves.shows inside fun m member here => apart m member m here rfl
  refine ⟨leaves.mono fun m member => mem_cons_of_mem _ member, ⟨rfl, (leaves.isText _).trans type, ?_, below, ?_⟩,
    opensFrom, fun from' => ⟨fun none' => ?_, opensFrom⟩⟩
  · rw [leaves.value _ fresh]
    exact text
  · rw [leaves.next _ fresh, linked]
    exact shows
  · obtain ⟨writable, open'⟩ := from' none'
    have other : ¬s.isText v.ptr := by
      rw [type, none']
      decide
    refine ⟨?_, (leaves.openFrom cs).1 _ below open'⟩
    rw [leaves.readonly _ (.inr other)]
    exact writable

/-- The normalization of the children of a node comes to the normal tree, in at most so many calls. -/
def NormalizesTo (fuel : Nat) : Prop :=
  ∀ ⦃s s' kids node t⦄, Tree s.dom kids → Shows s (s.dom.node node).firstChild t → Childless t → node ∉ ptrs t →
    (ptrs t).Nodup → normalize fuel s node = some (none, s') →
      readonly s.dom node = some false ∧ Leaves s s' (ptrs t) ∧
        Shows s' (s'.dom.node node).firstChild (normal t) ∧ Open s' (normal t)

/-- The loop over the children does, from one of them on. -/
def LoopsTo (fuel : Nat) : Prop :=
  ∀ ⦃s s' kids v cs t par⦄, Tree s.dom kids → (s.dom.node v.ptr).parent = some par →
    Shows s (some v.ptr) (.node v cs t) → Childless (.node v cs t) → (ptrs (.node v cs t)).Nodup →
      normalizeLoop fuel s v.ptr (s.dom.node v.ptr).next = some (none, s') →
        Ran s s' v cs t (normalFrom v cs t)

theorem normalizesTo_succ {fuel : Nat} (loops : LoopsTo fuel) : NormalizesTo (fuel + 1) := by
  intro s s' kids node t tree shows childless out nodup ran
  rw [normalize] at ran
  obtain ⟨locked, writable, ran⟩ := bind_eq_some_iff.mp ran
  rcases locked with _ | _
  swap
  · cases ran
  refine ⟨writable, ?_⟩
  rcases t with _ | ⟨v, cs, next⟩
  · have none' : (s.dom.node node).firstChild = none := shows
    rw [none'] at ran
    cases ran
    exact ⟨.refl tree _, shows, trivial⟩
  · have first : (s.dom.node node).firstChild = some v.ptr := shows.1
    rw [first] at ran shows
    have parent : (s.dom.node v.ptr).parent = some node := by
      rw [← tree.child]
      rw [tree.first] at first
      exact List.mem_of_mem_head? first
    obtain ⟨leaves, shows', opens, -⟩ := loops tree parent shows childless nodup ran
    have within : ∀ m ∈ v.ptr :: ptrs next, m ∈ ptrs (.node v cs next) := by
      intro m member
      rw [ptrs, cons_append, mem_cons, mem_append]
      exact (mem_cons.mp member).imp id .inr
    have leaves' := leaves.mono within
    refine ⟨leaves', ?_, opens⟩
    rw [leaves'.first _ out, first]
    exact shows'

theorem ran_last {v : Item} {cs : Forest Item} {fuel : Nat} (tree : Tree s.dom kids)
    (shows : Shows s (some v.ptr) (.node v cs .null))
    (ran : normalizeLoop fuel s v.ptr (s.dom.node v.ptr).next = some (none, s')) :
    Ran s s' v cs .null (normalFrom v cs .null) := by
  have stop : (s.dom.node v.ptr).next = none := shows.2.2.2.2
  rw [stop] at ran
  cases fuel <;> cases ran <;> exact ⟨.refl tree _, shows, trivial, fun from' => ⟨from', trivial⟩⟩

section Loop
variable {v w : Item} {cs ds next : Forest Item} {par : Ptr} {fuel : Nat} (tree : Tree s.dom kids)
  (shows : Shows s (some v.ptr) (.node v cs (.node w ds next)))
  (childless : Childless (.node v cs (.node w ds next))) (nodup : (ptrs (.node v cs (.node w ds next))).Nodup)
  (loops : LoopsTo fuel) (ran : normalizeLoop (fuel + 1) s v.ptr (some w.ptr) = some (none, s'))
include tree shows childless nodup loops ran

/-- Two texts: the second is joined with the first, and the loop stays there. -/
theorem ran_joined (parent : (s.dom.node v.ptr).parent = some par) (both : v.both w = true) :
    Ran s s' v cs (.node w ds next) (normalFrom v cs (.node w ds next)) := by
  have type := shows.2.1
  obtain ⟨linked, type', text', inside, rest⟩ := shows.2.2.2.2
  have texts := both
  rw [Item.both, Bool.and_eq_true] at texts
  rw [normalizeLoop, if_pos ⟨type'.mpr texts.2, type.mpr texts.1⟩] at ran
  obtain ⟨⟨e, s₁⟩, merged, ran⟩ := bind_eq_some_iff.mp ran
  rcases e with _ | e
  swap
  · cases ran
  obtain ⟨dom₂, detached, ran⟩ := bind_eq_some_iff.mp ran
  obtain ⟨s₃, destroyed, ran⟩ := bind_eq_some_iff.mp ran
  obtain ⟨merge, shows', parent''⟩ := merge_step tree parent shows childless nodup both merged detached destroyed
  obtain ⟨kids', tree'⟩ := merge.tree
  have nodup'' : (ptrs (.node (v.join w) cs next)).Nodup := by
    have shorter := (sublist_append_right (w.ptr :: ptrs ds) (ptrs next)).append_left (v.ptr :: ptrs cs)
    exact shorter.nodup nodup
  obtain ⟨lone, childless, -, -, childless''⟩ := childless
  obtain ⟨leaves, shows'', opens, opensFrom⟩ := @loops s₃ s' kids' (v.join w) cs next par tree' parent'' shows'
    ⟨fun _ => lone texts.1, childless, childless''⟩ nodup'' ran
  rw [normalFrom, if_pos both]
  refine ⟨merge.trans leaves (fun m member => ?_) (fun m member => ?_), shows'', opens,
    fun _ => opensFrom fun none' => absurd none' (some_ne_none _)⟩
  · rcases mem_cons.mp member with rfl | member
    · exact mem_cons_self
    · rw [mem_singleton] at member
      rw [member, ptrs]
      simp
  · rcases mem_cons.mp member with rfl | member
    · exact mem_cons_self
    · rw [ptrs]
      simp [member]

omit tree childless nodup loops ran in
theorem apart_of_not_both (both : ¬ v.both w = true) : ¬(s.isText w.ptr ∧ s.isText v.ptr) := by
  have type := shows.2.1
  obtain ⟨-, type', -, -, -⟩ := shows.2.2.2.2
  rw [type, type']
  rintro ⟨text, text''⟩
  exact both (by rw [Item.both, text, text'']; rfl)

/-- The second is a text and the first is none, and the loop goes on from the second. -/
theorem ran_passed (parent : (s.dom.node w.ptr).parent = some par) (both : ¬ v.both w = true)
    (text : w.text.isSome = true) : Ran s s' v cs (.node w ds next) (normalFrom v cs (.node w ds next)) := by
  have apart := apart_of_not_both shows both
  obtain ⟨linked, type', text', inside, rest⟩ := shows.2.2.2.2
  have nodup' := (nodup_append.mp (show (v.ptr :: ptrs cs ++ ptrs (.node w ds next)).Nodup from nodup)).2.1
  rw [normalizeLoop, if_neg apart, if_neg (not_not_intro (type'.mpr text))] at ran
  rw [normalFrom, if_neg both, if_pos text]
  obtain ⟨leaves, shows', opens, opensFrom⟩ := loops tree parent ⟨rfl, type', text', inside, rest⟩
    childless.2.2 nodup' ran
  refine .onward (leaves.mono fun m member => ?_) shows nodup shows' (opensFrom fun none' => ?_)
  · rw [ptrs]
    rcases mem_cons.mp member with rfl | member
    · simp
    · simp [member]
  · rw [none'] at text
    cases text

/-- The second is another node, which is normalized first. -/
theorem ran_entered (runs : NormalizesTo fuel) (parent : (s.dom.node w.ptr).parent = some par)
    (both : ¬ v.both w = true) (text : ¬ w.text.isSome = true) :
    Ran s s' v cs (.node w ds next) (normalFrom v cs (.node w ds next)) := by
  have apart := apart_of_not_both shows both
  obtain ⟨linked, type', text', inside, rest⟩ := shows.2.2.2.2
  obtain ⟨-, -, lone', childless', childless''⟩ := childless
  have nodup' := (nodup_append.mp (show (v.ptr :: ptrs cs ++ ptrs (.node w ds next)).Nodup from nodup)).2.1
  rw [ptrs] at nodup'
  obtain ⟨front, -, disjoint⟩ := nodup_append.mp nodup'
  obtain ⟨fresh, nodupBelow⟩ := nodup_cons.mp front
  rw [normalizeLoop, if_neg apart, if_pos (fun isText => text (type'.mp isText))] at ran
  rw [normalFrom, if_neg both, if_neg text]
  obtain ⟨⟨e, s₁⟩, normalized, ran⟩ := bind_eq_some_iff.mp ran
  rcases e with _ | e
  swap
  · cases ran
  obtain ⟨writable, below, showsBelow, opensBelow⟩ := runs tree inside childless' fresh nodupBelow normalized
  obtain ⟨kids', tree'⟩ := below.tree
  have apart' : ∀ m ∈ ptrs next, m ∉ ptrs ds :=
    fun m member here => disjoint m (mem_cons_of_mem _ here) m member rfl
  have shows₁ : Shows s₁ (some w.ptr) (.node w (normal ds) next) := by
    refine ⟨rfl, (below.isText _).trans type', ?_, showsBelow, ?_⟩
    · rw [below.value _ fresh]
      exact text'
    · rw [below.next _ fresh]
      exact below.shows rest apart'
  have nodup₁ : (ptrs (.node w (normal ds) next)).Nodup := by
    have shorter := ((ptrs_normalFrom ds).1.cons_cons w.ptr).append_right (ptrs next)
    exact shorter.nodup nodup'
  obtain ⟨leaves, shows', opens, opensFrom⟩ := loops tree' ((below.parent _ fresh).trans parent) shows₁
    ⟨fun text' => absurd text' text, (childless_normalFrom ds childless').1, childless''⟩ nodup₁ ran
  have other : ¬s.isText w.ptr := fun isText => text (type'.mp isText)
  refine .onward (below.trans leaves (fun m member => ?_) fun m member => ?_) shows nodup shows'
    (opensFrom fun _ => ⟨(below.readonly _ (.inr other)).trans writable, opensBelow⟩)
  · rw [ptrs]
    simp [member]
  · rw [ptrs]
    rcases mem_cons.mp member with rfl | member
    · simp
    · simp [member]

end Loop

theorem loopsTo_succ {fuel : Nat} (runs : NormalizesTo fuel) (loops : LoopsTo fuel) : LoopsTo (fuel + 1) := by
  intro s s' kids v cs t par tree parent shows childless nodup ran
  rcases t with _ | ⟨w, ds, next⟩
  · exact ran_last tree shows ran
  have linked : (s.dom.node v.ptr).next = some w.ptr := shows.2.2.2.2.1
  have parent' : (s.dom.node w.ptr).parent = some par := by
    obtain ⟨l, r, own⟩ := next_child tree parent linked
    exact (siblings tree own).1
  rw [linked] at ran
  by_cases both : v.both w = true
  · exact ran_joined tree shows childless nodup loops ran parent both
  · by_cases text : w.text.isSome = true
    · exact ran_passed tree shows childless nodup loops ran parent' both text
    · exact ran_entered tree shows childless nodup loops ran runs parent' both text

/-- A run does to the tree of the nodes what `normal` does. -/
theorem run_shows (fuel : Nat) : NormalizesTo fuel ∧ LoopsTo fuel := by
  induction fuel with
  | zero =>
    refine ⟨fun s s' kids node t _ _ _ _ _ ran => (nomatch ran), ?_⟩
    intro s s' kids v cs t par tree parent shows childless nodup ran
    rcases t with _ | ⟨w, ds, next⟩
    · exact ran_last tree shows ran
    · have linked : (s.dom.node v.ptr).next = some w.ptr := shows.2.2.2.2.1
      rw [linked] at ran
      cases ran
  | succ fuel ih => exact ⟨normalizesTo_succ ih.2, loopsTo_succ ih.1 ih.2⟩

/-! ### A second run -/

theorem run_settled (t : Forest Item) :
    (∀ {s : State} {node : Ptr}, Shows s (s.dom.node node).firstChild t → Settled t → Open s t →
      readonly s.dom node = some false → ∃ k, ∀ fuel ≥ k, normalize fuel s node = some (none, s)) ∧
    ∀ {s : State} {v : Item}, (s.isText v.ptr ↔ v.text.isSome = true) → Shows s (s.dom.node v.ptr).next t →
      SettledFrom v t → OpenFrom s t →
        ∃ k, ∀ fuel ≥ k, normalizeLoop fuel s v.ptr (s.dom.node v.ptr).next = some (none, s) := by
  induction t with
  | null =>
    constructor
    · intro s node shows _ _ writable
      have none' : (s.dom.node node).firstChild = none := shows
      refine ⟨1, fun fuel enough => ?_⟩
      obtain ⟨fuel, rfl⟩ := Nat.exists_eq_add_of_le' enough
      rw [normalize, writable, none']
      rfl
    · intro s v _ shows _ _
      have none' : (s.dom.node v.ptr).next = none := shows
      refine ⟨0, fun fuel _ => ?_⟩
      rw [none', normalizeLoop]
  | node w ds next below later =>
    constructor
    · intro s node shows settled opens writable
      obtain ⟨first, type, -, -, rest⟩ := shows
      obtain ⟨k, loops⟩ := later.2 type rest settled opens
      refine ⟨k + 1, fun fuel enough => ?_⟩
      obtain ⟨fuel, rfl⟩ := Nat.exists_eq_add_of_le' (Nat.le_trans (Nat.le_add_left 1 k) enough)
      rw [normalize, writable, first]
      exact loops fuel (by omega)
    · intro s v type shows settled opens
      obtain ⟨linked, type', -, inside, rest⟩ := shows
      obtain ⟨apart, settledBelow, settledRest⟩ := settled
      obtain ⟨openBelow, openRest⟩ := opens
      obtain ⟨k, loops⟩ := later.2 type' rest settledRest openRest
      have other : ¬(s.isText w.ptr ∧ s.isText v.ptr) := by
        rw [type, type']
        rintro ⟨text, text'⟩
        rw [Item.both, text, text'] at apart
        cases apart
      rcases text : w.text with _ | data
      · obtain ⟨writable, opens⟩ := openBelow text
        obtain ⟨j, runs⟩ := below.1 inside (settledBelow text) opens writable
        have isOther : ¬s.isText w.ptr := by
          rw [type', text]
          decide
        refine ⟨max j k + 1, fun fuel enough => ?_⟩
        obtain ⟨fuel, rfl⟩ := Nat.exists_eq_add_of_le' (Nat.le_trans (Nat.le_add_left 1 _) enough)
        rw [linked, normalizeLoop, if_neg other, if_pos isOther, runs fuel (by omega)]
        exact loops fuel (by omega)
      · have isText : s.isText w.ptr := by
          rw [type', text]
          rfl
        refine ⟨k + 1, fun fuel enough => ?_⟩
        obtain ⟨fuel, rfl⟩ := Nat.exists_eq_add_of_le' (Nat.le_trans (Nat.le_add_left 1 k) enough)
        rw [linked, normalizeLoop, if_neg other, if_neg (not_not_intro isText)]
        exact loops fuel (by omega)

/-! ### Normal forms -/

/-- What there is to be below a node that was normalized: no texts that are adjacent, the same text and the same
    other nodes on each level, and nothing for a second run to change. -/
def Normalized (s' : State) (node : Ptr) (t : Forest Item) : Prop :=
  ∃ t', Shows s' (s'.dom.node node).firstChild t' ∧ Separate t' ∧ stream t' = stream t ∧ content t' = content t ∧
    ∃ k, ∀ fuel ≥ k, normalize fuel s' node = some (none, s')

/-- A node is normalized as it is to be exactly where no texts are adjacent below a first child. The text, the other
    nodes and what a second run changes are as they are to be in any case. -/
theorem normalize_iff {node fuel : Nat} (proper : Proper s.dom) (there : node < s.dom.size)
    (shows : Shows s (s.dom.node node).firstChild t) (ran : normalize fuel s node = some (none, s')) :
    (∃ t', Shows s' (s'.dom.node node).firstChild t' ∧ stream t' = stream t ∧ content t' = content t ∧
      ∃ k, ∀ fuel ≥ k, normalize fuel s' node = some (none, s')) ∧
    (Normalized s' node t ↔ FirstsSeparate t) := by
  obtain ⟨⟨kids, tree⟩, shaped⟩ := proper
  obtain ⟨childless, out, nodup⟩ := shows_sound tree shaped there shows
  obtain ⟨writable, leaves, shows', opens⟩ := (run_shows fuel).1 tree shows childless out nodup ran
  obtain ⟨streams, contents⟩ := content_normal childless
  have writable' : readonly s'.dom node = some false := (leaves.readonly node (.inl out)).trans writable
  obtain ⟨k, again⟩ := (run_settled (normal t)).1 shows' (settled_normal t) opens writable'
  refine ⟨⟨normal t, shows', streams, contents, k, again⟩, ?_⟩
  rw [← separate_normal childless]
  constructor
  · rintro ⟨t', shown, separate, -⟩
    rwa [shows_unique shows' shown]
  · intro separate
    exact ⟨normal t, shows', separate, streams, contents, k, again⟩

/-- An element with two texts in it. -/
theorem normalize_two_texts :
    ∃ dom s', run [.create .element false, .create .text false, .create .text false, .appendChild 1 2, .appendChild 1 3] =
        some dom ∧ normalize 5 ⟨dom, fun n => some [UInt8.ofNat n], fun _ => 0⟩ 1 = some (none, s') ∧
      Normalized s' 1 (.node ⟨2, some [2]⟩ .null (.node ⟨3, some [3]⟩ .null .null)) := by
  have returns : ((run [.create .element false, .create .text false, .create .text false, .appendChild 1 2,
      .appendChild 1 3]).bind fun dom => (normalize 5 ⟨dom, fun n => some [UInt8.ofNat n], fun _ => 0⟩ 1).map fun o =>
        decide (o.1 = none ∧ dom.size = 4 ∧ (dom.node 1).firstChild = some 2 ∧
          ((dom.node 2).type = .text ∧ (dom.node 2).firstChild = none ∧ (dom.node 2).next = some 3) ∧
          (dom.node 3).type = .text ∧ (dom.node 3).firstChild = none ∧ (dom.node 3).next = none)) = some true := by
    decide +kernel
  have each : ∀ n < 5, ∀ op ∈ ([.create .element false, .create .text false, .create .text false, .appendChild 1 2,
      .appendChild 1 3] : List Op)[n]?, ∀ mid ∈ run (([.create .element false, .create .text false, .create .text false,
      .appendChild 1 2, .appendChild 1 3] : List Op).take n), Sound mid op := by decide +kernel
  obtain ⟨dom, ran, returns⟩ := bind_eq_some_iff.mp returns
  obtain ⟨⟨e, s'⟩, normalized, facts⟩ := map_eq_some_iff.mp returns
  obtain ⟨rfl, size, first, ⟨type, below, next⟩, type', below', next'⟩ := of_decide_eq_true facts
  refine ⟨dom, s', ran, normalized, (normalize_iff (run_proper (fun before op after same mid ran' => ?_) ran)
    (by rw [size]; decide) ?_ normalized).2.mpr ⟨trivial, trivial, trivial⟩⟩
  · have short : before.length < 5 := by
      have lengths := congrArg List.length same
      simp only [length_append, length_cons, length_nil] at lengths
      omega
    refine each before.length short op ?_ mid ?_
    · rw [same]
      simp
    · rw [same, take_left]
      exact ran'
  · refine ⟨first, ⟨fun _ => rfl, fun _ => type⟩, ?_, below, next, ⟨fun _ => rfl, fun _ => type'⟩, ?_, below', next'⟩
    · rintro _ ⟨⟩
      rfl
    · rintro _ ⟨⟩
      rfl

/-- The same element where it is the first child keeps its two texts. -/
theorem first_child_kept :
    ∃ dom s', run [.create .element false, .create .element false, .create .text false, .create .text false,
        .appendChild 2 3, .appendChild 2 4, .appendChild 1 2] = some dom ∧
      normalize 9 ⟨dom, fun n => some [UInt8.ofNat n], fun _ => 0⟩ 1 = some (none, s') ∧
      ¬Normalized s' 1 (.node ⟨2, none⟩ (.node ⟨3, some [3]⟩ .null (.node ⟨4, some [4]⟩ .null .null)) .null) := by
  have returns : ((run [.create .element false, .create .element false, .create .text false, .create .text false,
      .appendChild 2 3, .appendChild 2 4, .appendChild 1 2]).bind fun dom =>
        (normalize 9 ⟨dom, fun n => some [UInt8.ofNat n], fun _ => 0⟩ 1).map fun o =>
          decide (o.1 = none ∧ (o.2.dom.node 1).firstChild = some 2 ∧ (o.2.dom.node 2).firstChild = some 3 ∧
            (o.2.dom.node 3).type = .text ∧ (o.2.dom.node 3).next = some 4 ∧ (o.2.dom.node 4).type = .text)) =
      some true := by decide +kernel
  obtain ⟨dom, ran, returns⟩ := bind_eq_some_iff.mp returns
  obtain ⟨⟨e, s'⟩, normalized, facts⟩ := map_eq_some_iff.mp returns
  obtain ⟨rfl, first, inside, type, next, type'⟩ := of_decide_eq_true facts
  refine ⟨dom, s', ran, normalized, ?_⟩
  rintro ⟨t', shows, separate, -⟩
  rw [first] at shows
  rcases t' with _ | ⟨u, cs, t'⟩
  · cases shows
  obtain ⟨here, -, -, below, -⟩ := shows
  rw [← some_inj.mp here, inside] at below
  rcases cs with _ | ⟨v, ds, more⟩
  · cases below
  obtain ⟨here, text, -, -, later⟩ := below
  rw [← some_inj.mp here] at text later
  rw [next] at later
  rcases more with _ | ⟨w, ds', more⟩
  · cases later
  obtain ⟨here, text', -⟩ := later
  rw [← some_inj.mp here] at text'
  exact separate.2.1.1 ⟨text.mp type, text'.mp type'⟩

end Besra.Normalize
