import Besra.Selector

/-!
Selector chains, from `match_selector_chain`, `match_named_combinator` and
`match_universal_combinator` in `libcss/src/select/select.c`. The code goes from an
element to the nearest one that satisfies the next compound selector and on from
there; it never goes back to try the one behind it.
-/
namespace Besra.MatchChain
open Lwc Trail Dom Selector Option

/-- `reject_item`: a class or an id that no ancestor of the element has. -/
structure Reject where
  type : DetailType
  value : LwcString
deriving DecidableEq

def isCached (d : Detail) : Bool := d.type == .cls || d.type == .id

def Combinator.isUp (comb : Combinator) : Bool := comb == .ancestor || comb == .parent

/-- The look into the reject cache in `match_universal_combinator`. -/
def rejectedByCache (cache : List Reject) (mayOptimise : Bool) (comb : Combinator) (target : Compound) : Bool :=
  mayOptimise && Combinator.isUp comb &&
    target.details.head?.any fun d => isCached d && cache.contains ⟨d.type, d.qname.name⟩

/-- `update_reject_cache`, with the newest item first and room for 128. -/
def updateRejectCache (cache : List Reject) (comb : Combinator) (target : Compound) : List Reject :=
  match target.details with
  | [d] => if cache.length < 128 ∧ comb = .ancestor ∧ isCached d = true then ⟨d.type, d.qname.name⟩ :: cache else cache
  | _ => cache

variable {ν : Type} (client : Client ν)

/-- The candidate after a node in `match_named_combinator`. -/
def namedCandidate (comb : Combinator) (q : Qname) (n : ν) : Option ν :=
  match comb with
  | .ancestor => client.namedAncestorNode n q
  | .parent => client.namedParentNode n q
  | .sibling => client.namedSiblingNode n q
  | .genericSibling => client.namedGenericSiblingNode n q

/-- The candidate after a node in `match_universal_combinator`. -/
def universalCandidate (comb : Combinator) (n : ν) : Option ν :=
  match comb with
  | .ancestor | .parent => client.parent n
  | .sibling | .genericSibling => client.previous n

def Combinator.isAdjacent (comb : Combinator) : Bool := comb == .parent || comb == .sibling

def matchNamedCombinator (comb : Combinator) (target : Compound) (n : ν) : Option ν :=
  Links.seek (namedCandidate client comb target.name) (Combinator.isAdjacent comb)
    (detailsHold client · target) (client.order n) n

/-- `match_universal_combinator`, past the reject cache. -/
def matchUniversalCombinator (comb : Combinator) (target : Compound) (n : ν) : Option ν :=
  Links.seek (universalCandidate client comb) (Combinator.isAdjacent comb)
    (detailsHold client · target) (client.order n) n

def nextNode (comb : Combinator) (target : Compound) (n : ν) : Option ν :=
  if target.isUniversal then matchUniversalCombinator client comb target n
  else matchNamedCombinator client comb target n

structure Attempt where
  pseudo : Option PseudoElement
  taints : Taints
  cache : List Reject

/-- The loop of `match_selector_chain` up the chain, after the details of its first compound.
`first` says that the node is still the element that is selected for. -/
def matchCombinators (cache : List Reject) (pseudo : PseudoElement) (taints : Taints) :
    Chain → ν → (mayOptimise first : Bool) → Attempt
  | .last _, _, _, _ => ⟨some pseudo, taints, cache⟩
  | .step _ comb rest, n, mayOptimise, first =>
    let mayOptimise := mayOptimise && Combinator.isUp comb
    let taints := { taints with sibling := taints.sibling || (first && !Combinator.isUp comb) }
    if rest.head.isUniversal && rejectedByCache cache mayOptimise comb rest.head then ⟨none, taints, cache⟩
    else
      match nextNode client comb rest.head n with
      | some m => matchCombinators cache pseudo taints rest m mayOptimise false
      | none =>
        ⟨none, taints,
          if rest.head.isUniversal && mayOptimise && first then updateRejectCache cache comb rest.head else cache⟩

/-- `match_selector_chain`, up to the cascade of the rule for the pseudo element found. -/
def matchSelectorChain (cache : List Reject) (n : ν) (chain : Chain) : Attempt :=
  let (matched, pseudo, taints) := matchDetails client n chain.head.details .none
  if matched then matchCombinators client cache pseudo taints chain n true true else ⟨none, taints, cache⟩

def Satisfies (n : ν) (c : Compound) : Prop :=
  (c.isUniversal = true ∨ client.nodeHasName n c.name = true) ∧ detailsHold client n c = true

def Related (comb : Combinator) (n m : ν) : Prop :=
  match comb with
  | .ancestor => client.parents.Reaches n m
  | .parent => client.parent n = some m
  | .sibling => client.previous n = some m
  | .genericSibling => client.siblings.Reaches n m

/-- Elements assigned to the compound selectors of a chain, from its subject on. -/
def Assigns : Chain → List ν → Prop
  | .last c, [n] => Satisfies client n c
  | .step c comb rest, n :: m :: ns => Satisfies client n c ∧ Related client comb n m ∧ Assigns rest (m :: ns)
  | _, _ => False

def Completes (chain : Chain) (n : ν) : Prop := ∃ ns, Assigns client chain (n :: ns)

variable {c target : Compound} {n m k : ν} {comb : Combinator} {rest chain : Chain} {mayOptimise : Bool}
  {cache : List Reject}

theorem completes_last : Completes client (.last c) n ↔ Satisfies client n c := by
  constructor
  · rintro ⟨ns, assigned⟩
    cases ns with
    | nil => exact assigned
    | cons => exact assigned.elim
  · intro holds
    exact ⟨[], holds⟩

theorem completes_step :
    Completes client (.step c comb rest) n ↔
      Satisfies client n c ∧ ∃ m, Related client comb n m ∧ Completes client rest m := by
  constructor
  · rintro ⟨ns, assigned⟩
    cases ns with
    | nil => exact assigned.elim
    | cons m ns =>
      obtain ⟨holds, related, others⟩ := assigned
      exact ⟨holds, m, related, ns, others⟩
  · rintro ⟨holds, m, related, ns, others⟩
    exact ⟨m :: ns, holds, related, others⟩

theorem Completes.satisfies (completes : Completes client chain n) : Satisfies client n chain.head := by
  cases chain with
  | last c => exact (completes_last client).mp completes
  | step c comb rest => exact ((completes_step client).mp completes).1

def suits (c : Compound) (n : ν) : Bool := (c.isUniversal || client.nodeHasName n c.name) && detailsHold client n c

theorem suits_iff : suits client c n = true ↔ Satisfies client n c := by
  simp [suits, Satisfies]

/-- What the search for a combinator comes to: the first related element that satisfies the compound. -/
def nearest (comb : Combinator) (target : Compound) (n : ν) : Option ν :=
  match comb with
  | .ancestor => (client.ancestors n).find? (suits client target)
  | .parent => (client.parent n).filter (suits client target)
  | .sibling => (client.previous n).filter (suits client target)
  | .genericSibling => (client.earlier n).find? (suits client target)

theorem seek_adjacent {step : ν → Option ν} {good : ν → Bool} {k : Nat} (enough : step n ≠ none → k ≠ 0) :
    Links.seek step true good k n = (step n).filter good := by
  cases k with
  | zero =>
    have none_left : step n = none := by
      by_contra some_left
      exact enough some_left rfl
    simp [Links.seek, none_left]
  | succ k =>
    rcases found : step n with _ | m
    · simp [Links.seek, found]
    · simp only [Links.seek, found, filter_some]
      split <;> rfl

theorem suits_of_universal (universal : c.isUniversal = true) : suits client c = (detailsHold client · c) := by
  funext n
  simp [suits, universal]

theorem suits_of_named (named : c.isUniversal = false) :
    suits client c = fun n => client.nodeHasName n c.name && detailsHold client n c := by
  funext n
  simp [suits, named]

theorem nextNode_eq_nearest (comb : Combinator) (target : Compound) (n : ν) :
    nextNode client comb target n = nearest client comb target n := by
  have up : client.parent n ≠ none → client.order n ≠ 0 := by
    intro some_parent
    obtain ⟨m, linked⟩ := ne_none_iff_exists'.mp some_parent
    have smaller := client.parent_lt linked
    omega
  have back : client.previous n ≠ none → client.order n ≠ 0 := by
    intro some_sibling
    obtain ⟨m, linked⟩ := ne_none_iff_exists'.mp some_sibling
    have smaller := client.previous_lt linked
    omega
  by_cases universal : target.isUniversal = true
  · rw [nextNode, if_pos universal, matchUniversalCombinator]
    cases comb with
    | ancestor =>
      rw [nearest, suits_of_universal client universal]
      exact Links.seek_next client.parents (Nat.le_refl _)
    | parent =>
      rw [nearest, suits_of_universal client universal]
      exact seek_adjacent up
    | sibling =>
      rw [nearest, suits_of_universal client universal]
      exact seek_adjacent back
    | genericSibling =>
      rw [nearest, suits_of_universal client universal]
      exact Links.seek_next client.siblings (Nat.le_refl _)
  · have named : target.isUniversal = false := by simpa using universal
    rw [nextNode, if_neg universal, matchNamedCombinator]
    cases comb with
    | ancestor =>
      rw [nearest, suits_of_named client named]
      exact Links.seek_find client.parents (Nat.le_refl _)
    | parent =>
      rw [nearest, suits_of_named client named]
      refine (seek_adjacent fun some_named => up fun none_left => some_named ?_).trans ?_
      · simp [namedCandidate, Client.namedParentNode, none_left]
      · simp [namedCandidate, Client.namedParentNode, filter_filter, Bool.and_comm]
    | sibling =>
      rw [nearest, suits_of_named client named]
      refine (seek_adjacent fun some_named => back fun none_left => some_named ?_).trans ?_
      · simp [namedCandidate, Client.namedSiblingNode, none_left]
      · simp [namedCandidate, Client.namedSiblingNode, filter_filter, Bool.and_comm]
    | genericSibling =>
      rw [nearest, suits_of_named client named]
      exact Links.seek_find client.siblings (Nat.le_refl _)

theorem nearest_related (found : nearest client comb target n = some m) :
    Related client comb n m ∧ Satisfies client m target := by
  rw [← suits_iff]
  cases comb with
  | ancestor => exact Links.find_eq_some client.parents found
  | parent => exact filter_eq_some_iff.mp found
  | sibling => exact filter_eq_some_iff.mp found
  | genericSibling => exact Links.find_eq_some client.siblings found

theorem nearest_exists (related : Related client comb n k) (holds : Satisfies client k target) :
    ∃ m, nearest client comb target n = some m := by
  rw [← suits_iff] at holds
  cases comb with
  | ancestor =>
    exact isSome_iff_exists.mp (List.find?_isSome.mpr ⟨k, Links.mem_trail.mpr related, holds⟩)
  | parent => exact ⟨k, filter_eq_some_iff.mpr ⟨related, holds⟩⟩
  | sibling => exact ⟨k, filter_eq_some_iff.mpr ⟨related, holds⟩⟩
  | genericSibling =>
    exact isSome_iff_exists.mp (List.find?_isSome.mpr ⟨k, Links.mem_trail.mpr related, holds⟩)

def climbs (cache : List Reject) : Chain → ν → (mayOptimise : Bool) → Bool
  | .last _, _, _ => true
  | .step _ comb rest, n, mayOptimise =>
    let mayOptimise := mayOptimise && Combinator.isUp comb
    !(rest.head.isUniversal && rejectedByCache cache mayOptimise comb rest.head) &&
      (nearest client comb rest.head n).any fun m => climbs cache rest m mayOptimise

theorem matchCombinators_isSome (cache : List Reject) (pseudo : PseudoElement) (taints : Taints) (chain : Chain)
    (n : ν) (mayOptimise first : Bool) :
    (matchCombinators client cache pseudo taints chain n mayOptimise first).pseudo.isSome =
      climbs client cache chain n mayOptimise := by
  induction chain generalizing taints n mayOptimise first with
  | last => rfl
  | step c comb rest ih =>
    rw [matchCombinators, climbs]
    split
    · rename_i rejected
      simp [rejected]
    · rename_i open_
      rw [nextNode_eq_nearest]
      rcases found : nearest client comb rest.head n with _ | m
      · simp
      · simp only [ih, any_some]
        simp [open_]

theorem climbs_sound (climbed : climbs client cache chain n mayOptimise = true)
    (holds : Satisfies client n chain.head) : Completes client chain n := by
  induction chain generalizing n mayOptimise with
  | last c => exact (completes_last client).mpr holds
  | step c comb rest ih =>
    simp only [climbs, Bool.and_eq_true, any_eq_true] at climbed
    obtain ⟨-, m, found, further⟩ := climbed
    obtain ⟨related, fits⟩ := nearest_related client found
    exact (completes_step client).mpr ⟨holds, m, related, ih further fits⟩

theorem Related.order_lt (related : Related client comb n m) : client.order m < client.order n := by
  cases comb with
  | ancestor => exact Links.Reaches.rank_lt related
  | parent => exact client.parent_lt related
  | sibling => exact client.previous_lt related
  | genericSibling => exact Links.Reaches.rank_lt related

/-- The related element that satisfies a compound with no such element before it. -/
def First (comb : Combinator) (c : Compound) (n m : ν) : Prop :=
  Related client comb n m ∧ Satisfies client m c ∧
    ∀ k, Related client comb n k → Satisfies client k c → k = m ∨ Related client comb m k

theorem First.unique (first : First client comb c n m) (other : First client comb c n k) : m = k := by
  rcases first.2.2 k other.1 other.2.1 with same | further
  · exact same.symm
  rcases other.2.2 m first.1 first.2.1 with same | back
  · exact same
  have lower := further.order_lt
  have upper := back.order_lt
  omega

theorem nearest_first (found : nearest client comb c n = some m) : First client comb c n m := by
  obtain ⟨related, holds⟩ := nearest_related client found
  refine ⟨related, holds, fun k reached fits => ?_⟩
  rw [← suits_iff] at fits
  cases comb with
  | ancestor => exact Links.find_first client.parents found reached fits
  | parent => exact .inl (Option.some.inj (reached.symm.trans related))
  | sibling => exact .inl (Option.some.inj (reached.symm.trans related))
  | genericSibling => exact Links.find_first client.siblings found reached fits

theorem parent_of_siblings (reached : client.siblings.Reaches n m) : client.parent m = client.parent n := by
  induction reached with
  | single linked => exact client.previous_parent linked
  | tail _ linked ih => exact (client.previous_parent linked).trans ih

theorem ancestors_of_siblings (same : client.parent m = client.parent n) (reached : client.parents.Reaches m k) :
    client.parents.Reaches n k := by
  obtain ⟨j, first, further⟩ := Relation.TransGen.head'_iff.mp reached
  exact Relation.TransGen.head'_iff.mpr ⟨j, same.symm.trans first, further⟩

/-- A step of a chain where it matters which of the related elements is taken: an ancestor of which more
than an ancestor is asked, or an earlier sibling whose neighbour is asked for. -/
def Loose : Combinator → Chain → Prop
  | .ancestor, .step _ next _ => next ≠ .ancestor
  | .genericSibling, .step _ next _ => next = .sibling
  | _, _ => False

/-- At the other steps what completes the rest from one element completes it from those before. -/
theorem completes_of_further (firm : ¬ Loose comb rest) (first : First client comb rest.head n m)
    (related : Related client comb n k) (others : Completes client rest k) : Completes client rest m := by
  rcases first.2.2 k related others.satisfies with rfl | further
  · exact others
  cases rest with
  | last c => exact (completes_last client).mpr first.2.1
  | step c next rest =>
    obtain ⟨-, j, onward, above⟩ := (completes_step client).mp others
    refine (completes_step client).mpr ⟨first.2.1, j, ?_, above⟩
    cases comb with
    | ancestor =>
      obtain rfl : next = .ancestor := by simpa [Loose] using firm
      exact Relation.TransGen.trans further onward
    | parent =>
      obtain rfl : m = k := Option.some.inj (first.1.symm.trans related)
      exact onward
    | sibling =>
      obtain rfl : m = k := Option.some.inj (first.1.symm.trans related)
      exact onward
    | genericSibling =>
      have same := parent_of_siblings client further
      cases next with
      | ancestor => exact ancestors_of_siblings client same onward
      | parent => exact same.symm.trans onward
      | sibling => exact (firm rfl).elim
      | genericSibling => exact Relation.TransGen.trans further onward

/-- Going from an element to the first that satisfies the next compound leads, at a loose step, to one
from which the rest of the chain has no assignment, though it has from another. -/
inductive Misled : Chain → ν → Prop
  | here {c : Compound} {comb : Combinator} {rest : Chain} {n m k : ν} (holds : Satisfies client n c)
    (loose : Loose comb rest) (first : First client comb rest.head n m) (stuck : ¬ Completes client rest m)
    (related : Related client comb n k) (others : Completes client rest k) : Misled (.step c comb rest) n
  | further {c : Compound} {comb : Combinator} {rest : Chain} {n m : ν} (holds : Satisfies client n c)
    (first : First client comb rest.head n m) (misled : Misled rest m) : Misled (.step c comb rest) n

theorem Misled.completes (misled : Misled client chain n) : Completes client chain n := by
  induction misled with
  | here holds _ _ _ related others => exact (completes_step client).mpr ⟨holds, _, related, others⟩
  | further holds first _ ih => exact (completes_step client).mpr ⟨holds, _, first.1, ih⟩

/-- A chain without a loose step misleads nowhere. -/
def Firm : Chain → Prop
  | .last _ => True
  | .step _ comb rest => ¬ Loose comb rest ∧ Firm rest

theorem Firm.not_misled (firm : Firm chain) : ¬ Misled client chain n := by
  intro misled
  induction misled with
  | here _ loose => exact firm.1 loose
  | further _ _ _ ih => exact ih firm.2

/-- Behind none but ancestor and parent combinators the chain has a universal compound whose first
detail is a class or an id that the cache holds. -/
def Recorded (cache : List Reject) : Chain → Prop
  | .last _ => False
  | .step _ comb rest =>
    Combinator.isUp comb = true ∧
      (rest.head.isUniversal = true ∧
          (∃ d, rest.head.details.head? = some d ∧ isCached d = true ∧ (⟨d.type, d.qname.name⟩ : Reject) ∈ cache) ∨
        Recorded cache rest)

/-- From an element with an assignment the code climbs the chain unless it is misled or the cache stops it. -/
theorem climbs_iff (completes : Completes client chain n) :
    climbs client cache chain n mayOptimise = true ↔
      ¬ Misled client chain n ∧ ¬ (mayOptimise = true ∧ Recorded cache chain) := by
  induction chain generalizing n mayOptimise with
  | last c =>
    refine iff_of_true rfl ⟨fun misled => ?_, fun stopped => stopped.2⟩
    cases misled
  | step c comb rest ih =>
    obtain ⟨holds, k, related, others⟩ := (completes_step client).mp completes
    obtain ⟨m, found⟩ := nearest_exists client related others.satisfies
    have first := nearest_first client found
    by_cases onward : Completes client rest m
    · have path : Misled client (.step c comb rest) n ↔ Misled client rest m := by
        refine ⟨fun misled => ?_, .further holds first⟩
        cases misled with
        | here _ _ first' stuck => exact (stuck (first.unique client first' ▸ onward)).elim
        | further _ first' misled => exact first.unique client first' ▸ misled
      rw [climbs, found, any_some, Bool.and_eq_true, ih onward, path]
      simp only [rejectedByCache, Recorded, Bool.not_eq_true', Bool.and_eq_false_iff, Bool.and_eq_true]
      cases mayOptimise <;> cases up : Combinator.isUp comb <;>
        cases rest.head.isUniversal <;> cases rest.head.details.head? <;> simp
      tauto
    · have loose : Loose comb rest := by
        by_contra firm
        exact onward (completes_of_further client firm first related others)
      refine iff_of_false ?_ fun neither => neither.1 (.here holds loose first onward related others)
      simp only [climbs, found, any_some, Bool.and_eq_true]
      rintro ⟨-, climbed⟩
      exact onward (climbs_sound client climbed first.2.1)

/-- A chain whose subject has the right name is matched exactly where it has an assignment, if and only
if no first element misleads and the cache holds nothing against a chain that has one. -/
theorem chain_exact_iff (named : chain.head.isUniversal = true ∨ client.nodeHasName n chain.head.name = true) :
    ((matchSelectorChain client cache n chain).pseudo.isSome = true ↔ ∃ ns, Assigns client chain (n :: ns)) ↔
      ¬ Misled client chain n ∧ ¬ (Recorded cache chain ∧ ∃ ns, Assigns client chain (n :: ns)) := by
  have details := matchDetails_matched client n chain.head.details .none
  unfold matchSelectorChain
  by_cases assigned : Completes client chain n
  · have hold : chain.head.details.all (matchDetail client n) = true := assigned.satisfies.2
    rw [hold] at details
    simp only [details, if_true, matchCombinators_isSome]
    rw [climbs_iff client assigned]
    simp [show ∃ ns, Assigns client chain (n :: ns) from assigned]
  · have refused : ¬ ∃ ns, Assigns client chain (n :: ns) := assigned
    refine iff_of_true (iff_of_false ?_ refused) ⟨fun misled => assigned misled.completes, fun both => refused both.2⟩
    by_cases hold : chain.head.details.all (matchDetail client n) = true
    · rw [hold] at details
      simp only [details, if_true, matchCombinators_isSome]
      exact fun climbed => assigned (climbs_sound client climbed ⟨named, hold⟩)
    · rw [Bool.eq_false_iff.mpr hold] at details
      simp [details]

/-- Five elements, each the only child of the one before: `a`, `b`, `d`, `b`, `c`. -/
def nested : Client (Fin 5) where
  parent n := if h : n.val = 0 then none else some ⟨n.val - 1, by omega⟩
  previous _ := none
  order n := n.val
  parent_lt := by
    intro n m linked
    split at linked
    · cases linked
    · obtain rfl := Option.some.inj linked
      simp only
      omega
  previous_lt := by simp
  previous_parent := by simp
  nodeName n := ⟨none, lit (["a", "b", "d", "b", "c"].getD n.val "")⟩
  nodeClasses _ := []
  nodeId _ := none
  nodeHasName n q := q.name == lit (["a", "b", "d", "b", "c"].getD n.val "")
  nodeHasClass _ _ := false
  nodeHasId _ _ := false
  nodeHasAttribute _ _ := false
  nodeHasAttributeValue _ _ _ _ := false
  nodeIsRoot n := n == 0
  nodeCountSiblings _ _ _ := 0
  nodeIsEmpty _ := false
  nodeIsLink _ := false
  nodeIsVisited _ := false
  nodeIsHover _ := false
  nodeIsActive _ := false
  nodeIsFocus _ := false
  nodeIsEnabled _ := false
  nodeIsDisabled _ := false
  nodeIsChecked _ := false
  nodeIsTarget _ := false
  nodeIsLang _ _ := false

def typed (name : String) : Compound := ⟨⟨none, lit name⟩, [], by simp⟩

/-- `a > b c` -/
def childOfDescendant : Chain := .step (typed "c") .ancestor (.step (typed "b") .parent (.last (typed "a")))

/-- The `b` nearest to the element `c` is no child of an `a`, though the one behind it is. -/
theorem nearest_b_misleads :
    ¬ ((matchSelectorChain nested [] 4 childOfDescendant).pseudo.isSome = true ↔
      ∃ ns, Assigns nested childOfDescendant (4 :: ns)) := by
  intro exact_
  have refused : (matchSelectorChain nested [] 4 childOfDescendant).pseudo = none := rfl
  have assigned : ∃ ns, Assigns nested childOfDescendant (4 :: ns) := by
    refine ⟨[1, 0], ⟨.inr rfl, rfl⟩, ?_, ⟨.inr rfl, rfl⟩, rfl, .inr rfl, rfl⟩
    exact .head (b := 3) rfl (.head (b := 2) rfl (.single rfl))
  have matched := exact_.mpr assigned
  simp [refused] at matched

/-- `b c` -/
def descendant : Chain := .step (typed "c") .ancestor (.last (typed "b"))

theorem chain_exact_descendant :
    ((matchSelectorChain nested [] 4 descendant).pseudo.isSome = true ↔ ∃ ns, Assigns nested descendant (4 :: ns)) ↔
      ¬ Misled nested descendant 4 ∧ ¬ (Recorded [] descendant ∧ ∃ ns, Assigns nested descendant (4 :: ns)) :=
  chain_exact_iff nested (.inr rfl)

end Besra.MatchChain
