import Besra.Bloom
import Besra.MatchChain
import Besra.Merge
import Besra.MqGrammar

/-!
The selector hash of `libcss/src/select/hash.c` and the order in which `match_selectors_in_sheet` visits what it finds
there.
-/
namespace Besra.SelectorHash
open Lwc Trail Dom Selector MatchChain Bloom Merge MqParse Function
  MqGrammar

/-- `css_rule_selector`: its place in the sheet, its style, and the lists of the media rules around
it from the inside out. -/
structure Rule (δ : Type) where
  index : Nat
  style : Option δ
  media : List (List Query)

/-- `css_selector`, with the compounds of its chain in place of the pointers to them. -/
structure CssSelector (δ : Type) where
  chain : Chain
  specificity : Nat
  rule : Rule δ

/-- `mq_rule_good_for_media`; a list whose matching reads a NULL part is taken not to match. -/
def mqRuleGoodForMedia {δ : Type} (media : Media) (rule : Rule δ) : Bool :=
  rule.media.all fun queries => mqListMatch media queries == some true

/-- `_selector_less_specific` for two selectors, the candidate first. -/
def lessSpecific {δ : Type} (cand ref : CssSelector δ) : Bool :=
  cand.specificity < ref.specificity || (cand.specificity == ref.specificity && cand.rule.index < ref.rule.index)

theorem lessSpecific_iff {δ : Type} {cand ref : CssSelector δ} :
    lessSpecific cand ref = true ↔ cand.specificity < ref.specificity ∨
      cand.specificity = ref.specificity ∧ cand.rule.index < ref.rule.index := by
  simp [lessSpecific]

/-- `_class_name`: the first class that is not negated. -/
def className (c : Compound) : Option LwcString :=
  (c.details.find? fun d => d.type == .cls && !d.negate).map fun d => d.qname.name

/-- `_id_name`: the first id that is not negated. -/
def idName (c : Compound) : Option LwcString :=
  (c.details.find? fun d => d.type == .id && !d.negate).map fun d => d.qname.name

/-- What `_chain_bloom_add_detail` adds for a detail. -/
def detailHash (type : DetailType) (name : LwcString) : Option UInt32 :=
  match type with
  | .element => if isEqual name (lit "*") then none else some (caselessHashValue name)
  | .cls => some (caselessHashValue name)
  | .id => some (caselessHashValue name)
  | _ => none

def compoundHashes (c : Compound) : List UInt32 :=
  (detailHash .element c.name.name).toList ++
    c.details.filterMap fun d => if d.negate then none else detailHash d.type d.qname.name

def chainHashes : Chain → List UInt32
  | .last _ => []
  | .step _ comb rest => (if Combinator.isUp comb then compoundHashes rest.head else []) ++ chainHashes rest

def chainBloomGenerate (chain : Chain) : CssBloom := addHashes init (chainHashes chain)

/-- `hash_entry`, without the pointer to the next one. The selector is known by its address. -/
structure HashEntry (σ : Type) where
  sel : σ
  selChainBloom : CssBloom

/-- The heads of the hash chains: the slots of the three tables, and that of the universal chain. -/
inductive Place where
  | elements (slot : Fin 64)
  | classes (slot : Fin 64)
  | ids (slot : Fin 64)
  | universal
deriving DecidableEq

/-- `css_selector_hash`; a head without a selector is an empty chain. -/
abbrev CssSelectorHash (σ : Type) := Place → List (HashEntry σ)

/-- `css__selector_hash_create` -/
def selectorHashCreate {σ : Type} : CssSelectorHash σ := fun _ => []

def slot (name : LwcString) : Fin 64 := Fin.ofNat 64 (caselessHashValue name).toNat

theorem slot_congr {s t : LwcString} (same : caselessIsEqual s t = true) : slot s = slot t := by
  rw [slot, slot, caselessHashValue_congr same]

/-- The chain that a selector goes into. -/
def place (c : Compound) : Place :=
  match idName c with
  | some name => .ids (slot name)
  | none =>
    match className c with
    | some name => .classes (slot name)
    | none => if isEqual c.name.name (lit "*") then .universal else .elements (slot c.name.name)

variable {σ δ : Type} (heap : σ → CssSelector δ)

/-- The chain that the selector at an address goes into. -/
def placeOf (p : σ) : Place := place (heap p).chain.head

def newEntry (p : σ) : HashEntry σ := ⟨p, chainBloomGenerate (heap p).chain⟩

/-- `_insert_into_chain`: in front of the first entry that is more specific or of a later rule. -/
def insertIntoChain (p : σ) : List (HashEntry σ) → List (HashEntry σ)
  | [] => [newEntry heap p]
  | e :: entries =>
    if lessSpecific (heap p) (heap e.sel) then newEntry heap p :: e :: entries
    else e :: insertIntoChain p entries

def unlink [DecidableEq σ] (p : σ) : List (HashEntry σ) → Option (List (HashEntry σ))
  | [] => none
  | e :: entries => if e.sel = p then some entries else (unlink p entries).map (e :: ·)

/-- `_remove_from_chain`; without a value for CSS_INVALID. The head of a chain takes over the selector
of the entry behind it, but not its filter. -/
def removeFromChain [DecidableEq σ] (p : σ) : List (HashEntry σ) → Option (List (HashEntry σ))
  | [] => none
  | [head] => if head.sel = p then some [] else none
  | head :: next :: entries =>
    if head.sel = p then some ({ head with sel := next.sel } :: entries)
    else (unlink p (next :: entries)).map (head :: ·)

/-- `css__selector_hash_insert` -/
def selectorHashInsert (hash : CssSelectorHash σ) (p : σ) : CssSelectorHash σ :=
  update hash (placeOf heap p) (insertIntoChain heap p (hash (placeOf heap p)))

/-- `css__selector_hash_remove`, which changes nothing when it fails. -/
def selectorHashRemove [DecidableEq σ] (hash : CssSelectorHash σ) (p : σ) : CssSelectorHash σ :=
  update hash (placeOf heap p) ((removeFromChain p (hash (placeOf heap p))).getD (hash (placeOf heap p)))

/-- A call that changes the hash. -/
inductive Op (σ : Type) where
  | insert (p : σ)
  | remove (p : σ)
deriving DecidableEq

def apply [DecidableEq σ] (hash : CssSelectorHash σ) : Op σ → CssSelectorHash σ
  | .insert p => selectorHashInsert heap hash p
  | .remove p => selectorHashRemove heap hash p

def run [DecidableEq σ] (hash : CssSelectorHash σ) (ops : List (Op σ)) : CssSelectorHash σ := ops.foldl (apply heap) hash

/-- The selectors that a sequence of calls leaves in the hash. -/
def contents [DecidableEq σ] (selectors : List σ) (ops : List (Op σ)) : List σ :=
  ops.foldl (fun selectors op => match op with
    | .insert p => p :: selectors
    | .remove p => selectors.erase p) selectors

def chainLt (p q : σ) : Bool := lessSpecific (heap p) (heap q)

theorem chainLt_weak : Weak (chainLt heap) where
  asymm := by
    intro p q less
    rw [chainLt, lessSpecific_iff] at less
    rw [← Bool.not_eq_true, chainLt, lessSpecific_iff]
    omega
  trans := by
    intro p q r first second
    rw [← Bool.not_eq_true, chainLt, lessSpecific_iff] at *
    omega

theorem insertIntoChain_sels (p : σ) (entries : List (HashEntry σ)) :
    (insertIntoChain heap p entries).map (·.sel) = (entries.map (·.sel)).orderedInsert (chainLt heap · · = true) p := by
  induction entries with
  | nil => rfl
  | cons e entries ih =>
    rw [insertIntoChain, List.map_cons, List.orderedInsert, chainLt]
    split
    · rfl
    · rw [List.map_cons, ih]

variable {e : HashEntry σ} {entries : List (HashEntry σ)} {p : σ} {selectors : List σ} {hash : CssSelectorHash σ}

theorem mem_insertIntoChain (among : e ∈ insertIntoChain heap p entries) : e = newEntry heap p ∨ e ∈ entries := by
  induction entries with
  | nil => exact .inl (List.mem_singleton.mp among)
  | cons first entries ih =>
    rw [insertIntoChain] at among
    split at among
    · exact List.mem_cons.mp among
    · rcases List.mem_cons.mp among with rfl | later
      · exact .inr (by simp)
      · exact (ih later).imp id (List.mem_cons_of_mem first)

variable [DecidableEq σ]

theorem unlink_sels (p : σ) (entries : List (HashEntry σ)) :
    ((unlink p entries).getD entries).map (·.sel) = (entries.map (·.sel)).erase p := by
  induction entries with
  | nil => rfl
  | cons e entries ih =>
    rw [unlink]
    split
    · rename_i found
      simp [found]
    · rename_i other
      rw [List.map_cons, List.erase_cons_tail (by simpa using other), ← ih]
      cases unlink p entries <;> rfl

theorem removeFromChain_sels (p : σ) (entries : List (HashEntry σ)) :
    ((removeFromChain p entries).getD entries).map (·.sel) = (entries.map (·.sel)).erase p := by
  match entries with
  | [] => rfl
  | [head] =>
    rw [removeFromChain]
    split
    · rename_i found
      simp [found]
    · rename_i other
      simp [List.erase_cons_tail, other]
  | head :: next :: entries =>
    rw [removeFromChain]
    split
    · rename_i found
      simp [found]
    · rename_i other
      rw [List.map_cons, List.erase_cons_tail (by simpa using other), ← unlink_sels p (next :: entries)]
      cases unlink p (next :: entries) <;> rfl

theorem mem_unlink {left : List (HashEntry σ)} (unlinked : unlink p entries = some left) (among : e ∈ left) :
    e ∈ entries := by
  induction entries generalizing left with
  | nil => cases unlinked
  | cons first entries ih =>
    rw [unlink] at unlinked
    split at unlinked
    · cases unlinked
      exact List.mem_cons_of_mem first among
    · obtain ⟨others, found, rfl⟩ := Option.map_eq_some_iff.mp unlinked
      rcases List.mem_cons.mp among with rfl | later
      · simp
      · exact List.mem_cons_of_mem first (ih found later)

/-- The call does not leave a filter behind that is wrong for the selector that comes to its entry:
when the head of a chain with others behind it is removed, its filter is inside that of the next. -/
def KeepsBloom (hash : CssSelectorHash σ) : Op σ → Prop
  | .insert _ => True
  | .remove p =>
    match hash (placeOf heap p) with
    | head :: next :: _ =>
      head.sel = p → inBloom head.selChainBloom (chainBloomGenerate (heap next.sel).chain) = true
    | _ => True

/-- Every call of a sequence keeps the filters right. -/
def Careful : CssSelectorHash σ → List (Op σ) → Prop
  | _, [] => True
  | hash, op :: ops => KeepsBloom heap hash op ∧ Careful (apply heap hash op) ops

/-- An entry asks for no more than its selector does. -/
def Fresh (e : HashEntry σ) : Prop := inBloom e.selChainBloom (chainBloomGenerate (heap e.sel).chain) = true

/-- The hash holds these selectors, each in its chain and the chains in order. -/
structure Stores (hash : CssSelectorHash σ) (selectors : List σ) : Prop where
  sels : ∀ place, ((hash place).map (·.sel)).Perm (selectors.filter (placeOf heap · = place))
  ascending : ∀ place, Ascending (chainLt heap) ((hash place).map (·.sel))

def AllFresh (hash : CssSelectorHash σ) : Prop := ∀ place, ∀ e ∈ hash place, Fresh heap e

theorem stores_apply (stores : Stores heap hash selectors) (op : Op σ) :
    Stores heap (apply heap hash op) (contents selectors [op]) := by
  cases op with
  | insert p =>
    constructor
    · intro here
      by_cases same : here = placeOf heap p
      · subst same
        simp only [apply, selectorHashInsert, update_self, insertIntoChain_sels, contents, List.foldl_cons,
          List.foldl_nil, List.filter_cons, decide_true, if_true]
        exact (List.perm_orderedInsert _ p _).trans ((stores.sels _).cons p)
      · have other : ¬ placeOf heap p = here := fun equal => same equal.symm
        simp only [apply, selectorHashInsert, update_of_ne same, contents, List.foldl_cons,
          List.foldl_nil, List.filter_cons, decide_eq_true_eq, other, if_false]
        exact stores.sels here
    · intro here
      by_cases same : here = placeOf heap p
      · subst same
        simp only [apply, selectorHashInsert, update_self, insertIntoChain_sels]
        exact ascending_orderedInsert (chainLt_weak heap) p (stores.ascending _)
      · simp only [apply, selectorHashInsert, update_of_ne same]
        exact stores.ascending here
  | remove p =>
    constructor
    · intro here
      have filtered : (selectors.erase p).filter (placeOf heap · = here) =
          (selectors.filter (placeOf heap · = here)).erase p := by
        rw [List.erase_filter]
      by_cases same : here = placeOf heap p
      · subst same
        simp only [apply, selectorHashRemove, update_self, removeFromChain_sels, contents, List.foldl_cons,
          List.foldl_nil, filtered]
        exact (stores.sels _).erase p
      · have absent : p ∉ selectors.filter (placeOf heap · = here) := by
          intro among
          exact same (of_decide_eq_true (List.mem_filter.mp among).2).symm
        simp only [apply, selectorHashRemove, update_of_ne same, contents, List.foldl_cons,
          List.foldl_nil, filtered, List.erase_of_not_mem absent]
        exact stores.sels here
    · intro here
      by_cases same : here = placeOf heap p
      · subst same
        simp only [apply, selectorHashRemove, update_self, removeFromChain_sels]
        exact (stores.ascending _).sublist List.erase_sublist
      · simp only [apply, selectorHashRemove, update_of_ne same]
        exact stores.ascending here

theorem stores_run (stores : Stores heap hash selectors) (ops : List (Op σ)) :
    Stores heap (run heap hash ops) (contents selectors ops) := by
  induction ops generalizing hash selectors with
  | nil => exact stores
  | cons op ops ih => exact ih (stores_apply heap stores op)

theorem removeFromChain_fresh (fresh : ∀ e ∈ entries, Fresh heap e)
    (keeps : ∀ head next rest, entries = head :: next :: rest → head.sel = p → inBloom head.selChainBloom (chainBloomGenerate (heap next.sel).chain) = true) :
    ∀ e ∈ (removeFromChain p entries).getD entries, Fresh heap e := by
  match entries with
  | [] => exact fresh
  | [head] =>
    rw [removeFromChain]
    split
    · simp
    · exact fresh
  | head :: next :: rest =>
    rw [removeFromChain]
    split
    · rename_i found
      intro e among
      rcases List.mem_cons.mp among with rfl | later
      · exact keeps head next rest rfl found
      · exact fresh e (by simp [later])
    · rcases unlinked : unlink p (next :: rest) with _ | left
      · exact fresh
      · intro e among
        rcases List.mem_cons.mp among with rfl | later
        · exact fresh e (by simp)
        · exact fresh e (List.mem_cons_of_mem head (mem_unlink unlinked later))

theorem fresh_apply {op : Op σ} (fresh : AllFresh heap hash) (keeps : KeepsBloom heap hash op) :
    AllFresh heap (apply heap hash op) := by
  intro here e among
  cases op with
  | insert p =>
    by_cases same : here = placeOf heap p
    · subst same
      rw [apply, selectorHashInsert, update_self] at among
      rcases mem_insertIntoChain heap among with rfl | old
      · exact inBloom_refl _
      · exact fresh _ e old
    · rw [apply, selectorHashInsert, update_of_ne same] at among
      exact fresh here e among
  | remove p =>
    by_cases same : here = placeOf heap p
    · subst same
      rw [apply, selectorHashRemove, update_self] at among
      refine removeFromChain_fresh heap (fresh _) ?_ e among
      intro head next rest shape found
      rw [KeepsBloom, shape] at keeps
      exact keeps found
    · rw [apply, selectorHashRemove, update_of_ne same] at among
      exact fresh here e among

theorem fresh_run {ops : List (Op σ)} (fresh : AllFresh heap hash) (careful : Careful heap hash ops) :
    AllFresh heap (run heap hash ops) := by
  induction ops generalizing hash with
  | nil => exact fresh
  | cons op ops ih => exact ih (fresh_apply heap fresh careful.1) careful.2

def chainGoodForElementName (c : Compound) (q : Qname) : Bool := c.isUniversal || caselessIsEqual c.name.name q.name

/-- `css_hash_selection_requirments`, without the fields that are taken from the element. -/
structure Requirements where
  media : Media
  nodeBloom : CssBloom

def passes (req : Requirements) (e : HashEntry σ) : Bool :=
  (heap e.sel).rule.style.isSome && inBloom e.selChainBloom req.nodeBloom &&
    mqRuleGoodForMedia req.media (heap e.sel).rule

/-- `css__selector_hash_find` and its iterator: what they come to, in the order of the chain. -/
def selectorHashFind (req : Requirements) (hash : CssSelectorHash σ) (q : Qname) : List σ :=
  ((hash (.elements (slot q.name))).filter fun e =>
    caselessIsEqual q.name (heap e.sel).chain.head.name.name && passes heap req e).map (·.sel)

/-- `css__selector_hash_find_by_class` and its iterator. -/
def selectorHashFindByClass (req : Requirements) (hash : CssSelectorHash σ) (q : Qname) (cls : LwcString) : List σ :=
  ((hash (.classes (slot cls))).filter fun e =>
    (className (heap e.sel).chain.head).any (caselessIsEqual cls) && passes heap req e &&
      chainGoodForElementName (heap e.sel).chain.head q).map (·.sel)

/-- `css__selector_hash_find_by_id` and its iterator. -/
def selectorHashFindById (req : Requirements) (hash : CssSelectorHash σ) (q : Qname) (id : LwcString) : List σ :=
  ((hash (.ids (slot id))).filter fun e =>
    (idName (heap e.sel).chain.head).any (caselessIsEqual id) && passes heap req e &&
      chainGoodForElementName (heap e.sel).chain.head q).map (·.sel)

/-- `css__selector_hash_find_universal` and its iterator. -/
def selectorHashFindUniversal (req : Requirements) (hash : CssSelectorHash σ) : List σ :=
  ((hash .universal).filter (passes heap req)).map (·.sel)

variable {ν : Type} (client : Client ν)

/-- The selectors that `match_selectors_in_sheet` hands to `match_selector_chain`, in their order:
of those pending in the four kinds of chains it takes the least specific (`_selector_next`). -/
def visits (req : Requirements) (hash : CssSelectorHash σ) (n : ν) : List σ :=
  let q := client.nodeName n
  merge (chainLt heap)
    (selectorHashFind heap req hash q ::
      ((client.nodeId n).map (selectorHashFindById heap req hash q)).getD [] ::
      selectorHashFindUniversal heap req hash ::
      (client.nodeClasses n).map (selectorHashFindByClass heap req hash q))

variable {heap client}

omit [DecidableEq σ] in
theorem found_sublist {req : Requirements} {hash : CssSelectorHash σ} {n : ν} {list : List σ}
    (among : list ∈ selectorHashFind heap req hash (client.nodeName n) ::
      ((client.nodeId n).map (selectorHashFindById heap req hash (client.nodeName n))).getD [] ::
      selectorHashFindUniversal heap req hash ::
      (client.nodeClasses n).map (selectorHashFindByClass heap req hash (client.nodeName n))) :
    ∃ place, list.Sublist ((hash place).map (·.sel)) := by
  simp only [List.mem_cons, List.mem_map] at among
  rcases among with rfl | rfl | rfl | ⟨cls, -, rfl⟩
  · exact ⟨_, List.filter_sublist.map _⟩
  · cases client.nodeId n with
    | none => exact ⟨.universal, List.nil_sublist _⟩
    | some id => exact ⟨_, List.filter_sublist.map _⟩
  · exact ⟨_, List.filter_sublist.map _⟩
  · exact ⟨_, List.filter_sublist.map _⟩

omit [DecidableEq σ] in
theorem mem_of_visited {req : Requirements} {hash : CssSelectorHash σ} {selectors : List σ} {n : ν} {p : σ}
    (stores : Stores heap hash selectors) (visited : p ∈ visits heap client req hash n) : p ∈ selectors := by
  rw [visits, mem_merge] at visited
  obtain ⟨list, among, member⟩ := visited
  obtain ⟨here, sublist⟩ := found_sublist among
  exact List.mem_of_mem_filter ((stores.sels here).mem_iff.mp (sublist.subset member))

omit [DecidableEq σ] in
theorem visits_ascending {req : Requirements} {hash : CssSelectorHash σ} {selectors : List σ} {n : ν}
    (stores : Stores heap hash selectors) : Ascending (chainLt heap) (visits heap client req hash n) := by
  refine merge_ascending (chainLt_weak heap) fun list among => ?_
  obtain ⟨here, sublist⟩ := found_sublist among
  exact (stores.ascending here).sublist sublist

section
variable {ε : Type} (heap) (heap' : σ → CssSelector ε)

structure SameSelectors : Prop where
  chain : ∀ p, (heap' p).chain = (heap p).chain
  specificity : ∀ p, (heap' p).specificity = (heap p).specificity
  index : ∀ p, (heap' p).rule.index = (heap p).rule.index
  media : ∀ p, (heap' p).rule.media = (heap p).rule.media
  styled : ∀ p, (heap' p).rule.style.isSome = (heap p).rule.style.isSome

variable {heap heap'}

theorem SameSelectors.run (same : SameSelectors heap heap') (hash : CssSelectorHash σ) (ops : List (Op σ)) :
    run heap' hash ops = SelectorHash.run heap hash ops := by
  have inserted : ∀ p entries, insertIntoChain heap' p entries = insertIntoChain heap p entries := by
    intro p entries
    induction entries with
    | nil => rw [insertIntoChain, insertIntoChain, newEntry, newEntry, same.chain]
    | cons e entries ih =>
      rw [insertIntoChain, insertIntoChain, ih, newEntry, newEntry, same.chain, lessSpecific, lessSpecific,
        same.specificity, same.specificity, same.index, same.index]
  have called : apply heap' = apply heap := by
    funext hash op
    cases op with
    | insert p => rw [apply, apply, selectorHashInsert, selectorHashInsert, inserted, placeOf, placeOf, same.chain]
    | remove p => rw [apply, apply, selectorHashRemove, selectorHashRemove, placeOf, placeOf, same.chain]
  rw [SelectorHash.run, SelectorHash.run, called]

omit [DecidableEq σ] in
theorem SameSelectors.visits (same : SameSelectors heap heap') (req : Requirements) (hash : CssSelectorHash σ) (n : ν) :
    visits heap' client req hash n = SelectorHash.visits heap client req hash n := by
  have passing : ∀ e, passes heap' req e = passes heap req e := by
    intro e
    rw [passes, passes, same.styled, mqRuleGoodForMedia, mqRuleGoodForMedia, same.media]
  have ordered : chainLt heap' = chainLt heap := by
    funext p q
    simp only [chainLt, lessSpecific, same.specificity, same.index]
  have byName : selectorHashFind heap' req hash = selectorHashFind heap req hash := by
    funext q
    simp only [selectorHashFind, passing, same.chain]
  have byClass : selectorHashFindByClass heap' req hash = selectorHashFindByClass heap req hash := by
    funext q cls
    simp only [selectorHashFindByClass, passing, same.chain]
  have byId : selectorHashFindById heap' req hash = selectorHashFindById heap req hash := by
    funext q id
    simp only [selectorHashFindById, passing, same.chain]
  have universal : selectorHashFindUniversal heap' req hash = selectorHashFindUniversal heap req hash := by
    simp only [selectorHashFindUniversal, funext passing]
  rw [SelectorHash.visits, SelectorHash.visits, ordered, byName, byClass, byId, universal]

end

variable (client)

/-- The answers of the client about names, classes and ids agree, letter case apart. -/
structure Consistent : Prop where
  name : ∀ n q, client.nodeHasName n q = true → q.name ≠ lit "*" → caselessIsEqual (client.nodeName n).name q.name = true
  cls : ∀ n c, client.nodeHasClass n c = true → ∃ d ∈ client.nodeClasses n, caselessIsEqual d c = true
  id : ∀ n i, client.nodeHasId n i = true → ∃ j, client.nodeId n = some j ∧ caselessIsEqual j i = true

end Besra.SelectorHash
