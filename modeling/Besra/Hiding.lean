import Besra.SelectorHash

/-!
What the short cuts of the selection hide. The hash leaves out the selectors whose key or filter the element cannot
have, and the reject cache ends a match whose ancestor was looked for in vain before.
-/
namespace Besra.Hiding
open Lwc Trail Dom Selector MatchChain Bloom Merge SelectorHash
  MqGrammar

variable {ν : Type} {client : Client ν}

variable {n m : ν} {c target : Compound} {comb : Combinator} {bloom : CssBloom} {chain : Chain} {req : Requirements}
  {r : Reject} {cache : List Reject} {mayOptimise : Bool}

theorem compoundHashes_sub (consistent : Consistent client) (holds : Satisfies client n c) :
    ∀ hash ∈ compoundHashes c, hash ∈ nodeHashes client n := by
  intro hash among
  obtain ⟨named, details⟩ := holds
  rcases List.mem_append.mp among with element | other
  · simp only [detailHash, Option.mem_toList, Option.ite_none_left_eq_some, isEqual_iff, Option.some.injEq] at element
    obtain ⟨proper, rfl⟩ := element
    rcases named with universal | has
    · exact absurd ((isEqual_iff _ _).mp universal) proper
    · rw [nodeHashes, caselessHashValue_congr (consistent.name n _ has proper)]
      exact List.mem_cons_self
  · obtain ⟨d, member, some_hash⟩ := List.mem_filterMap.mp other
    have holds := List.all_eq_true.mp details d member
    split at some_hash
    · cases some_hash
    · rename_i positive
      have positive : d.negate = false := by simpa using positive
      rw [matchDetail, positive, Bool.bne_false, matchPositive] at holds
      rcases kind : d.type with _ | _ | _ | _ | _ | _ | test <;> simp only [kind, detailHash] at some_hash holds
      · exact absurd (c.elements_negated d member kind) (by simp [positive])
      · obtain ⟨cls, listed, same⟩ := consistent.cls n _ holds
        rw [← Option.some.inj some_hash, ← caselessHashValue_congr same]
        simp only [nodeHashes, List.mem_cons, List.mem_append, List.mem_map]
        exact .inr (.inr ⟨cls, listed, rfl⟩)
      · obtain ⟨id, given, same⟩ := consistent.id n _ holds
        rw [← Option.some.inj some_hash, ← caselessHashValue_congr same]
        simp [nodeHashes, given]
      all_goals cases some_hash

theorem covers_of_related (covers : Covers client bloom n) (related : Related client comb n m) :
    Covers client bloom m := by
  intro k reached
  cases comb with
  | ancestor => exact covers k (Relation.TransGen.trans related reached)
  | parent => exact covers k (.head related reached)
  | sibling => exact covers k (ancestors_of_siblings client (client.previous_parent related) reached)
  | genericSibling => exact covers k (ancestors_of_siblings client (parent_of_siblings client related) reached)

theorem reaches_of_up (up : Combinator.isUp comb = true) (related : Related client comb n m) :
    client.parents.Reaches n m := by
  cases comb with
  | ancestor => exact related
  | parent => exact .single related
  | sibling => cases up
  | genericSibling => cases up

theorem chainHashes_had (consistent : Consistent client) (covers : Covers client bloom n)
    (completes : Completes client chain n) : ∀ hash ∈ chainHashes chain, hasHash bloom hash = true := by
  induction chain generalizing n with
  | last => simp [chainHashes]
  | step c comb rest ih =>
    obtain ⟨-, m, related, others⟩ := (completes_step client).mp completes
    intro hash among
    rcases List.mem_append.mp among with here | later
    · split at here
      · rename_i up
        exact covers m (reaches_of_up up related) hash (compoundHashes_sub consistent others.satisfies hash here)
      · cases here
    · exact ih (covers_of_related covers related) others hash later

variable {σ δ : Type} {heap : σ → CssSelector δ}

/-- A selector that applies to an element and can be matched from it. -/
structure Applies (heap : σ → CssSelector δ) (client : Client ν) (media : Media) (n : ν) (p : σ) : Prop where
  styled : (heap p).rule.style.isSome = true
  good : mqRuleGoodForMedia media (heap p).rule = true
  completes : Completes client (heap p).chain n

theorem find_name {type : DetailType} {name : LwcString}
    (found : (c.details.find? fun d => d.type == type && !d.negate).map (fun d => d.qname.name) = some name) :
    ∃ d ∈ c.details, d.type = type ∧ d.negate = false ∧ d.qname.name = name := by
  obtain ⟨d, first, rfl⟩ := Option.map_eq_some_iff.mp found
  have suits := List.find?_some first
  simp only [Bool.and_eq_true, beq_iff_eq, Bool.not_eq_true'] at suits
  exact ⟨d, List.mem_of_find?_eq_some first, suits.1, suits.2, rfl⟩

theorem proper_of_named (named : ¬ c.isUniversal = true) : c.name.name ≠ lit "*" :=
  fun star => named ((isEqual_iff _ _).mpr star)

theorem name_good_of_satisfies (consistent : Consistent client) (holds : Satisfies client n c) :
    chainGoodForElementName c (client.nodeName n) = true := by
  by_cases universal : c.isUniversal = true
  · simp [chainGoodForElementName, universal]
  · have same := consistent.name n _ (holds.1.resolve_left universal) (proper_of_named universal)
    rw [caselessIsEqual_iff] at same
    simp [chainGoodForElementName, caselessIsEqual_iff, same]

variable {p : σ} {ops : List (Op σ)}

theorem passes_of_fresh (consistent : Consistent client) {e : HashEntry σ} (fresh : Fresh heap e)
    (covers : Covers client req.nodeBloom n) (applies : Applies heap client req.media n e.sel) :
    passes heap req e = true := by
  have covered : inBloom e.selChainBloom req.nodeBloom = true :=
    inBloom_trans fresh
      (addHashes_inBloom (init_inBloom _) (chainHashes_had consistent covers applies.completes))
  simp [passes, applies.styled, applies.good, covered]

theorem visited_of_stored (consistent : Consistent client) {hash : CssSelectorHash σ} {selectors : List σ}
    (stores : Stores heap hash selectors) (fresh : AllFresh heap hash) (covers : Covers client req.nodeBloom n)
    (stored : p ∈ selectors) (applies : Applies heap client req.media n p) : p ∈ visits heap client req hash n := by
  obtain ⟨e, among, rfl⟩ : ∃ e ∈ hash (placeOf heap p), e.sel = p := by
    simpa using (stores.sels (placeOf heap p)).mem_iff.mpr (List.mem_filter.mpr ⟨stored, by simp⟩)
  have passed := passes_of_fresh consistent (fresh _ e among) covers applies
  have name_good := name_good_of_satisfies consistent applies.completes.satisfies
  obtain ⟨named, details⟩ := applies.completes.satisfies
  have holds : ∀ d ∈ (heap e.sel).chain.head.details, d.negate = false → matchPositive client n d = true := by
    intro d member positive
    simpa [matchDetail, positive] using List.all_eq_true.mp details d member
  rw [visits, mem_merge]
  rw [placeOf, place] at among
  rcases by_id : idName (heap e.sel).chain.head with _ | id
  · rcases by_class : className (heap e.sel).chain.head with _ | cls
    · by_cases universal : isEqual (heap e.sel).chain.head.name.name (lit "*") = true
      · refine ⟨_, List.mem_cons_of_mem _ (List.mem_cons_of_mem _ List.mem_cons_self), ?_⟩
        simp only [by_id, by_class, universal, if_true] at among
        exact List.mem_map.mpr ⟨e, List.mem_filter.mpr ⟨among, passed⟩, rfl⟩
      · refine ⟨_, List.mem_cons_self, ?_⟩
        have same := consistent.name n _ (named.resolve_left universal) (proper_of_named universal)
        simp only [by_id, by_class, universal, ← slot_congr same] at among
        exact List.mem_map.mpr ⟨e, List.mem_filter.mpr ⟨among, by simp [same, passed]⟩, rfl⟩
    · obtain ⟨d, member, kind, positive, rfl⟩ := find_name by_class
      have has := holds d member positive
      simp only [matchPositive, kind] at has
      obtain ⟨listed, among_classes, same⟩ := consistent.cls n _ has
      refine ⟨_, List.mem_cons_of_mem _ (List.mem_cons_of_mem _ (List.mem_cons_of_mem _
        (List.mem_map_of_mem among_classes))), ?_⟩
      simp only [by_id, by_class, ← slot_congr same] at among
      exact List.mem_map.mpr ⟨e, List.mem_filter.mpr ⟨among, by simp [by_class, same, passed, name_good]⟩, rfl⟩
  · obtain ⟨d, member, kind, positive, rfl⟩ := find_name by_id
    have has := holds d member positive
    simp only [matchPositive, kind] at has
    obtain ⟨given, own, same⟩ := consistent.id n _ has
    refine ⟨_, List.mem_cons_of_mem _ List.mem_cons_self, ?_⟩
    simp only [by_id, ← slot_congr same] at among
    rw [own]
    exact List.mem_map.mpr ⟨e, List.mem_filter.mpr ⟨among, by simp [by_id, same, passed, name_good]⟩, rfl⟩

def endsInCache (client : Client ν) (cache : List Reject) : Chain → ν → (mayOptimise : Bool) → Bool
  | .last _, _, _ => false
  | .step _ comb rest, n, mayOptimise =>
    let mayOptimise := mayOptimise && Combinator.isUp comb
    (rest.head.isUniversal && rejectedByCache cache mayOptimise comb rest.head) ||
      (nextNode client comb rest.head n).any fun m => endsInCache client cache rest m mayOptimise

/-- The detail that a chain can put into the reject cache. -/
def written : Chain → Option Detail
  | .step _ .ancestor rest =>
    match rest.head.details with
    | [d] => if rest.head.isUniversal && isCached d then some d else none
    | _ => none
  | _ => none

def lookedUp : Chain → List Detail
  | .last _ => []
  | .step _ comb rest =>
    if Combinator.isUp comb then
      (if rest.head.isUniversal then (rest.head.details.head?.filter isCached).toList else []) ++ lookedUp rest
    else []

def item (d : Detail) : Reject := ⟨d.type, d.qname.name⟩

def Absent (client : Client ν) (n : ν) (d : Detail) : Prop :=
  ∀ k, client.parents.Reaches n k → matchDetail client k d = false

def Justified (client : Client ν) (n : ν) (cache : List Reject) (chains : List Chain) : Prop :=
  ∀ r ∈ cache, ∃ chain ∈ chains, ∃ d, written chain = some d ∧ item d = r ∧ Absent client n d

theorem matchCombinators_cache_later (cache : List Reject) (pseudo : PseudoElement) (taints : Taints) (chain : Chain)
    (n : ν) (mayOptimise : Bool) :
    (matchCombinators client cache pseudo taints chain n mayOptimise false).cache = cache := by
  induction chain generalizing taints n mayOptimise with
  | last => rfl
  | step c comb rest ih =>
    rw [matchCombinators]
    split
    · rfl
    · split
      · exact ih ..
      · simp

theorem absent_of_nextNode {d : Detail} (universal : target.isUniversal = true) (single : target.details = [d])
    (failed : nextNode client .ancestor target n = none) : Absent client n d := by
  rw [nextNode_eq_nearest] at failed
  intro k reached
  by_contra satisfied
  have holds : Satisfies client k target := ⟨.inl universal, by simpa [detailsHold, single] using satisfied⟩
  obtain ⟨m, found⟩ := nearest_exists client (show Related client .ancestor n k from reached) holds
  rw [failed] at found
  cases found

theorem cache_of_update (among : r ∈ updateRejectCache cache comb target) :
    r ∈ cache ∨ comb = .ancestor ∧ ∃ d, target.details = [d] ∧ isCached d = true ∧ item d = r := by
  rw [updateRejectCache] at among
  split at among
  · rename_i d single
    split at among
    · rename_i room
      rcases List.mem_cons.mp among with rfl | old
      · exact .inr ⟨room.2.1, d, single, room.2.2, rfl⟩
      · exact .inl old
    · exact .inl among
  · exact .inl among

theorem cache_of_combinators {pseudo : PseudoElement} {taints : Taints}
    (among : r ∈ (matchCombinators client cache pseudo taints chain n mayOptimise true).cache) :
    r ∈ cache ∨ ∃ d, written chain = some d ∧ item d = r ∧ Absent client n d := by
  cases chain with
  | last => exact .inl among
  | step c comb rest =>
    rw [matchCombinators] at among
    split at among
    · exact .inl among
    · split at among
      · rw [matchCombinators_cache_later] at among
        exact .inl among
      · rename_i failed
        dsimp only at among
        split at among
        · rename_i optimised
          simp only [Bool.and_eq_true] at optimised
          refine (cache_of_update among).imp id ?_
          rintro ⟨rfl, d, single, cached, rfl⟩
          refine ⟨d, ?_, rfl, absent_of_nextNode optimised.1.1 single failed⟩
          simp [written, single, optimised.1.1, cached]
        · exact .inl among

theorem cache_of_attempt (among : r ∈ (matchSelectorChain client cache n chain).cache) :
    r ∈ cache ∨ ∃ d, written chain = some d ∧ item d = r ∧ Absent client n d := by
  simp only [matchSelectorChain] at among
  split at among
  · exact cache_of_combinators among
  · exact .inl among

/-- The reject cache after the attempts for some chains, in their order. -/
def cacheAfter (client : Client ν) (n : ν) (chains : List Chain) : List Reject :=
  chains.foldl (fun cache chain => (matchSelectorChain client cache n chain).cache) []

theorem justified_attempt {chains : List Chain} (justified : Justified client n cache chains) (chain : Chain) :
    Justified client n (matchSelectorChain client cache n chain).cache (chains ++ [chain]) := by
  intro r among
  rcases cache_of_attempt among with old | ⟨d, writes, same, absent⟩
  · obtain ⟨earlier, member, others⟩ := justified r old
    exact ⟨earlier, by simp [member], others⟩
  · exact ⟨chain, by simp, d, writes, same, absent⟩

theorem justified_cacheAfter (n : ν) (chains : List Chain) : Justified client n (cacheAfter client n chains) chains := by
  induction chains using List.reverseRecOn with
  | nil => simp [Justified, cacheAfter]
  | append_singleton chains chain ih =>
    rw [cacheAfter, List.foldl_append]
    exact justified_attempt ih chain

theorem not_endsInCache_of_sideways (cache : List Reject) (chain : Chain) (n : ν) :
    endsInCache client cache chain n false = false := by
  induction chain generalizing n with
  | last => rfl
  | step c comb rest ih =>
    simp only [endsInCache, Bool.false_and, rejectedByCache, Bool.and_false, Bool.false_or, ih]
    cases nextNode client comb rest.head n <;> rfl

theorem lookedUp_of_endsInCache (ends : endsInCache client cache chain n mayOptimise = true) :
    ∃ d ∈ lookedUp chain, item d ∈ cache := by
  induction chain generalizing n mayOptimise with
  | last => cases ends
  | step c comb rest ih =>
    rw [endsInCache, Bool.or_eq_true] at ends
    have up : Combinator.isUp comb = true := by
      by_contra other
      have other : Combinator.isUp comb = false := by simpa using other
      simp only [other, Bool.and_false] at ends
      rcases ends with here | later
      · simp [rejectedByCache] at here
      · obtain ⟨m, -, further⟩ := Option.any_eq_true _ _ |>.mp later
        rw [not_endsInCache_of_sideways] at further
        cases further
    rw [lookedUp, if_pos up]
    rcases ends with here | later
    · obtain ⟨universal, rejected⟩ := Bool.and_eq_true _ _ |>.mp here
      simp only [rejectedByCache, Bool.and_eq_true, Option.any_eq_true] at rejected
      obtain ⟨-, d, first, cached, held⟩ := rejected
      refine ⟨d, List.mem_append_left _ ?_, by simpa [item] using held⟩
      simp [universal, first, cached]
    · obtain ⟨m, -, further⟩ := Option.any_eq_true _ _ |>.mp later
      obtain ⟨d, among, held⟩ := ih further
      exact ⟨d, List.mem_append_right _ among, held⟩

theorem present_of_lookedUp (completes : Completes client chain n) :
    ∀ d ∈ lookedUp chain, isCached d = true ∧ ∃ k, client.parents.Reaches n k ∧ matchDetail client k d = true := by
  induction chain generalizing n with
  | last => simp [lookedUp]
  | step c comb rest ih =>
    obtain ⟨-, m, related, others⟩ := (completes_step client).mp completes
    intro d among
    rw [lookedUp] at among
    split at among
    · rename_i up
      have ancestor := reaches_of_up up related
      rcases List.mem_append.mp among with here | later
      · split at here
        · obtain ⟨first, cached⟩ := Option.filter_eq_some_iff.mp (Option.mem_toList.mp here)
          exact ⟨cached, m, ancestor, List.all_eq_true.mp others.satisfies.2 d (List.mem_of_mem_head? first)⟩
        · cases here
      · obtain ⟨cached, k, reached, holds⟩ := ih others d later
        exact ⟨cached, k, Relation.TransGen.trans ancestor reached, holds⟩
    · cases among

/-- A chain writes a detail into the cache, for no ancestor satisfies it, and the other looks up its
opposite. -/
def Clashes (client : Client ν) (n : ν) (earlier later : Chain) : Prop :=
  ∃ w r, written earlier = some w ∧ r ∈ lookedUp later ∧ item w = item r ∧ w.negate ≠ r.negate ∧ Absent client n w

theorem matchDetail_congr {k : ν} {w r : Detail} (same : item w = item r) (sign : w.negate = r.negate)
    (cached : isCached r = true) : matchDetail client k w = matchDetail client k r := by
  obtain ⟨kind, name⟩ := Reject.mk.injEq .. |>.mp same
  simp only [isCached, Bool.or_eq_true, beq_iff_eq] at cached
  rcases cached with type | type <;> simp [matchDetail, matchPositive, kind, type, name, sign]

theorem not_endsInCache {earlier : List Chain} (completes : Completes client chain n)
    (calm : ∀ other ∈ earlier, ¬ Clashes client n other chain) :
    endsInCache client (cacheAfter client n earlier) chain n true = false := by
  by_contra ends
  obtain ⟨r, among, held⟩ := lookedUp_of_endsInCache (by simpa using ends)
  obtain ⟨cached, k, reached, holds⟩ := present_of_lookedUp completes r among
  obtain ⟨other, member, w, writes, same, absent⟩ := justified_cacheAfter n earlier _ held
  have sign : w.negate = r.negate := by
    by_contra differ
    exact calm other member ⟨w, r, writes, among, same, differ, absent⟩
  have fails := absent k reached
  rw [matchDetail_congr same sign cached, holds] at fails
  cases fails

theorem climbs_of_not_endsInCache (open_ : endsInCache client cache chain n mayOptimise = false) :
    climbs client cache chain n mayOptimise = climbs client [] chain n mayOptimise := by
  induction chain generalizing n mayOptimise with
  | last => rfl
  | step c comb rest ih =>
    rw [endsInCache, Bool.or_eq_false_iff, nextNode_eq_nearest] at open_
    obtain ⟨here, later⟩ := open_
    have empty : rejectedByCache [] (mayOptimise && Combinator.isUp comb) comb rest.head = false := by
      simp [rejectedByCache]
    rw [climbs, climbs]
    simp only [here, empty, Bool.and_false, Bool.not_false, Bool.true_and]
    rcases found : nearest client comb rest.head n with _ | m
    · rfl
    · rw [found, Option.any_some] at later
      simp only [Option.any_some, ih later]

theorem attempt_of_not_endsInCache (open_ : endsInCache client cache chain n true = false) :
    (matchSelectorChain client cache n chain).pseudo.isSome = (matchSelectorChain client [] n chain).pseudo.isSome := by
  simp only [matchSelectorChain]
  split
  · rw [matchCombinators_isSome, matchCombinators_isSome, climbs_of_not_endsInCache open_]
  · rfl

variable [DecidableEq σ]

/-- After any careful sequence of calls, a selector in the hash that applies to an element is handed to
the matching, and whatever was matched before without a clash, its match does not end in the reject
cache. -/
theorem nothing_hidden (consistent : Consistent client) (careful : Careful heap selectorHashCreate ops)
    (covers : Covers client req.nodeBloom n) (stored : p ∈ contents [] ops)
    (applies : Applies heap client req.media n p) :
    p ∈ visits heap client req (run heap selectorHashCreate ops) n ∧
      ∀ earlier : List Chain, (∀ other ∈ earlier, ¬ Clashes client n other (heap p).chain) →
        endsInCache client (cacheAfter client n earlier) (heap p).chain n true = false ∧
          (matchSelectorChain client (cacheAfter client n earlier) n (heap p).chain).pseudo.isSome =
            (matchSelectorChain client [] n (heap p).chain).pseudo.isSome := by
  have empty : Stores heap (selectorHashCreate : CssSelectorHash σ) [] :=
    ⟨fun _ => .refl _, fun _ => List.Pairwise.nil⟩
  have stores := stores_run heap empty ops
  have fresh : AllFresh heap (run heap selectorHashCreate ops) :=
    fresh_run heap (fun _ e among => by cases among) careful
  refine ⟨visited_of_stored consistent stores fresh covers stored applies, fun earlier calm => ?_⟩
  have open_ := not_endsInCache applies.completes calm
  exact ⟨open_, attempt_of_not_endsInCache open_⟩

/-- The filters of elements, each made from that of the parent as `css__create_node_bloom` makes it. -/
def Blooms (client : Client ν) (bloom : ν → CssBloom) : Prop :=
  ∀ n, bloom n = (client.parent n).elim init fun m => createNodeBloom client (bloom m) m

/-- Wherever an element stands in a document with such filters, no selector that applies to it is passed over. -/
theorem created_blooms_hide_nothing (consistent : Consistent client) {bloom : ν → CssBloom}
    (made : Blooms client bloom) (careful : Careful heap selectorHashCreate ops) {media : Media}
    (stored : p ∈ contents [] ops) (applies : Applies heap client media n p) :
    p ∈ visits heap client ⟨media, bloom n⟩ (run heap selectorHashCreate ops) n := by
  have covers : Covers client (bloom n) n := by
    refine covers_of_created client (fun n root => ?_) (fun n m child => ?_) n
    · rw [made, root]
      rfl
    · rw [made m, child]
      rfl
  have empty : Stores heap (selectorHashCreate : CssSelectorHash σ) [] :=
    ⟨fun _ => .refl _, fun _ => List.Pairwise.nil⟩
  have fresh := fresh_run heap (fun _ e among => by cases among) careful
  exact visited_of_stored consistent (stores_run heap empty ops) fresh covers stored applies

/-- A selector for an element `c` below an element of the name. -/
def below (name : String) (index : Nat) : CssSelector Unit where
  chain := .step (typed "c") .ancestor (.last (typed name))
  specificity := 2
  rule := ⟨index, some (), []⟩

/-- `x c` and `b c` -/
def twoRules (p : Bool) : CssSelector Unit := if p then below "b" 1 else below "x" 0

/-- What the innermost element of `nested` is selected with. -/
def innermost : Requirements where
  media := screen
  nodeBloom := addHashes init ((List.finRange 5).dropLast.flatMap (nodeHashes nested))

theorem nested_consistent : Consistent nested where
  name n q has _ := by
    simp only [nested, beq_iff_eq] at has
    simp [nested, has]
  cls n c has := by simp [nested] at has
  id n i has := by simp [nested] at has

theorem innermost_covers : Covers nested innermost.nodeBloom 4 := by
  intro k reached hash among
  refine hasHash_addHashes ?_
  have above : ∀ k : Fin 5, k.val < 4 → k ∈ (List.finRange 5).dropLast := by decide
  exact List.mem_flatMap.mpr ⟨k, above k reached.rank_lt, among⟩

theorem below_b_applies : Applies twoRules nested innermost.media 4 true where
  styled := rfl
  good := rfl
  completes := ⟨[3], ⟨.inr rfl, rfl⟩, .single rfl, .inr rfl, rfl⟩

/-- When `x c` is removed from the head of the chain, `b c` takes its entry and is tested with the
filter of `x`. -/
theorem filter_left_behind :
    Consistent nested ∧ Covers nested innermost.nodeBloom 4 ∧
      true ∈ contents [] [Op.insert false, .insert true, .remove false] ∧
      Applies twoRules nested innermost.media 4 true ∧
      true ∉ visits twoRules nested innermost (run twoRules selectorHashCreate [.insert false, .insert true, .remove false]) 4 :=
  ⟨nested_consistent, innermost_covers, by decide, below_b_applies, by decide⟩

theorem nothing_hidden_of_two :
    true ∈ visits twoRules nested innermost (run twoRules selectorHashCreate [.insert false, .insert true]) 4 ∧
      ∀ earlier : List Chain, (∀ other ∈ earlier, ¬ Clashes nested 4 other (twoRules true).chain) →
        endsInCache nested (cacheAfter nested 4 earlier) (twoRules true).chain 4 true = false ∧
          (matchSelectorChain nested (cacheAfter nested 4 earlier) 4 (twoRules true).chain).pseudo.isSome =
            (matchSelectorChain nested [] 4 (twoRules true).chain).pseudo.isSome :=
  nothing_hidden nested_consistent
    (show Careful twoRules selectorHashCreate [.insert false, .insert true] from ⟨trivial, trivial, trivial⟩)
    innermost_covers (by decide) below_b_applies

/-- The filters of the elements of `nested`. -/
def nestedBlooms (n : Fin 5) : CssBloom :=
  ((List.finRange 5).take n).foldl (createNodeBloom nested) init

theorem created_blooms_hide_nothing_nested :
    true ∈ visits twoRules nested ⟨screen, nestedBlooms 4⟩ (run twoRules selectorHashCreate [.insert false, .insert true]) 4 := by
  refine created_blooms_hide_nothing nested_consistent (fun n => ?_)
    (show Careful twoRules selectorHashCreate [.insert false, .insert true] from ⟨trivial, trivial, trivial⟩)
    (by decide) below_b_applies
  fin_cases n <;> rfl

end Besra.Hiding
