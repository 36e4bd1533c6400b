import Besra.Hiding
import Besra.HashChain

/-!
Runs of `css__selector_hash_insert` and `css__selector_hash_remove` on the hash in memory. In every run each chain
holds the selectors inserted and not yet removed in ascending order, those of one specificity and rule in the order of
their insertion, and the size is right (`chains_exact_iff`).
-/
namespace Besra.HashChainRun
open Selector Bloom Merge SelectorHash PointerChain HashChain List Option Function

variable {σ δ : Type} (heap : σ → CssSelector δ)

/-- A call, with the memory that an insertion is given. -/
inductive Call (σ : Type) where
  | insert (p : σ) (mem : Malloc)
  | remove (p : σ)

/-- `css__selector_hash_insert` or `css__selector_hash_remove`. -/
def call [DecidableEq σ] (hash : Hash σ) : Call σ → Option (Hash σ × CssError)
  | .insert p mem => HashChain.insertIntoChain heap hash (placeOf heap p) p mem
  | .remove p => HashChain.removeFromChain hash (placeOf heap p) p

/-- The selectors inserted and not yet removed, in the order of the insertions, after one more call. -/
def standing [DecidableEq σ] (selectors : List σ) : Call σ → CssError → List σ
  | .insert p _, .ok => selectors ++ [p]
  | .remove p, .ok => selectors.erase p
  | _, _ => selectors

def run [DecidableEq σ] : Hash σ × List σ → List (Call σ) → Option (Hash σ × List σ)
  | start, [] => some start
  | (hash, selectors), c :: calls =>
    (call heap hash c).bind fun (hash', error) => run (hash', standing selectors c error) calls

def key (p : σ) : Nat × Nat := ((heap p).specificity, (heap p).rule.index)

def Entries (hash : Hash σ) (place : Place) (ps : List Ptr) : Prop := Leads (link hash) (first hash place) ps none

/-- The selectors of a chain: those that stand and belong to it, in ascending order of specificity and rule, and
those with the same of both in the order of their insertion. -/
structure Sorted (selectors : List σ) (place : Place) (sels : List σ) : Prop where
  perm : sels.Perm (selectors.filter (placeOf heap · = place))
  ascending : sels.Pairwise fun p q => toLex (key heap p) ≤ toLex (key heap q)
  stable : ∀ k, sels.filter (key heap · = k) = (selectors.filter (placeOf heap · = place)).filter (key heap · = k)

/-- The hash is what the calls have left. -/
structure Exact (hash : Hash σ) (selectors : List σ) : Prop where
  chains : ∀ place, ∃ ps sels, Entries hash place ps ∧ ps.map (fun ptr => (hash.node ptr).sel) = sels.map some ∧
    Sorted heap selectors place sels
  blooms : ∀ place ps, Entries hash place ps → ∀ ptr ∈ ps, ∀ p, (hash.node ptr).sel = some p →
    (hash.node ptr).selChainBloom = chainBloomGenerate (heap p).chain
  size : hash.hashSize = baseSize + sizeofHashEntry * hash.allocated.length

/-- Every allocated entry stands in a chain. -/
def AllLinked (hash : Hash σ) : Prop := ∀ a ∈ hash.allocated, ∃ place ps, Entries hash place ps ∧ .entry a ∈ ps

/-- A removed head leaves its entry to a selector with the same filter. -/
def KeepsFilter (hash : Hash σ) : Call σ → Prop
  | .insert _ _ => True
  | .remove p => (hash.node (.head (placeOf heap p))).sel = some p →
      ∀ next, (hash.node (.head (placeOf heap p))).next = some next →
        ∀ q, (hash.node next).sel = some q → chainBloomGenerate (heap p).chain = chainBloomGenerate (heap q).chain

/-- A removed head is the only entry of its chain. -/
def RemovesNoHead (hash : Hash σ) : Call σ → Prop
  | .insert _ _ => True
  | .remove p => (hash.node (.head (placeOf heap p))).sel = some p → (hash.node (.head (placeOf heap p))).next = none

variable [DecidableEq σ]

/-- A condition on a call and the hash that it finds holds of all calls of a run. -/
def Always (condition : Hash σ → Call σ → Prop) (calls : List (Call σ)) : Prop :=
  ∀ done c, done ++ [c] <+: calls → ∀ s, run heap (create, []) done = some s → condition s.1 c

/-- A property of the hash and the selectors that stand holds in all states of a run. -/
def Throughout (property : Hash σ → List σ → Prop) (calls : List (Call σ)) : Prop :=
  ∀ done, done <+: calls → ∃ s, run heap (create, []) done = some s ∧ property s.1 s.2

variable {heap}

omit [DecidableEq σ] in
theorem chainLt_iff {p q : σ} : chainLt heap p q = true ↔ toLex (key heap p) < toLex (key heap q) := by
  rw [chainLt, lessSpecific_iff, Prod.Lex.toLex_lt_toLex]
  rfl

omit [DecidableEq σ] in
theorem ascending_iff {sels : List σ} :
    Ascending (chainLt heap) sels ↔ sels.Pairwise fun p q => toLex (key heap p) ≤ toLex (key heap q) := by
  rw [Ascending]
  refine ⟨fun sorted => sorted.imp ?_, fun sorted => sorted.imp ?_⟩
  · intro p q notLess
    rw [← Bool.not_eq_true, chainLt_iff, not_lt] at notLess
    exact notLess
  · intro p q le
    rw [← Bool.not_eq_true, chainLt_iff, not_lt]
    exact le

omit [DecidableEq σ] in
theorem filter_orderedInsert {p : σ} {sels : List σ} (sorted : Ascending (chainLt heap) sels) (k : Nat × Nat) :
    (sels.orderedInsert (chainLt heap · · = true) p).filter (key heap · = k) =
      (sels ++ [p]).filter (key heap · = k) := by
  induction sels with
  | nil => rfl
  | cons q sels ih =>
    obtain ⟨least, rest⟩ := pairwise_cons.mp sorted
    rw [List.orderedInsert]
    split
    next less =>
      by_cases same : key heap p = k
      · -- the rest of the chain is greater
        have none_left : (q :: sels).filter (key heap · = k) = [] := by
          rw [filter_eq_nil_iff]
          intro r among
          have greater : toLex (key heap p) < toLex (key heap r) := by
            refine lt_of_lt_of_le (chainLt_iff.mp less) ?_
            rcases mem_cons.mp among with rfl | later
            · exact le_refl _
            · have notLess := least r later
              rw [← Bool.not_eq_true, chainLt_iff, not_lt] at notLess
              exact notLess
          intro equal
          rw [of_decide_eq_true equal, ← same] at greater
          exact lt_irrefl _ greater
        rw [filter_cons, filter_append, none_left]
        simp [same]
      · rw [filter_cons, filter_append]
        simp [same]
    next =>
      rw [filter_cons, ih rest, cons_append, filter_cons]

omit [DecidableEq σ] in
theorem sorted_nil (place : Place) : Sorted heap [] place [] := ⟨.nil, .nil, fun _ => rfl⟩

omit [DecidableEq σ] in
theorem Sorted.insert {selectors sels : List σ} {p : σ} (sorted : Sorted heap selectors (placeOf heap p) sels) :
    Sorted heap (selectors ++ [p]) (placeOf heap p) (sels.orderedInsert (chainLt heap · · = true) p) := by
  have ascending := ascending_iff.mpr sorted.ascending
  have filtered : (selectors ++ [p]).filter (placeOf heap · = placeOf heap p) =
      selectors.filter (placeOf heap · = placeOf heap p) ++ [p] := by
    rw [filter_append]
    simp
  refine ⟨?_, ascending_iff.mp (ascending_orderedInsert (chainLt_weak heap) p ascending), fun k => ?_⟩
  · rw [filtered]
    exact (perm_orderedInsert _ p _).trans ((sorted.perm.cons p).trans (perm_append_singleton p _).symm)
  · rw [filter_orderedInsert ascending, filtered, filter_append, filter_append, sorted.stable]

omit [DecidableEq σ] in
theorem Sorted.insert_elsewhere {selectors sels : List σ} {p : σ} {place : Place} (sorted : Sorted heap selectors place sels)
    (other : place ≠ placeOf heap p) : Sorted heap (selectors ++ [p]) place sels := by
  have filtered : (selectors ++ [p]).filter (placeOf heap · = place) = selectors.filter (placeOf heap · = place) := by
    rw [filter_append]
    simp [other.symm]
  exact ⟨filtered ▸ sorted.perm, sorted.ascending, fun k => filtered ▸ sorted.stable k⟩

theorem Sorted.erase {selectors sels : List σ} {p : σ} {place : Place} (sorted : Sorted heap selectors place sels) :
    Sorted heap (selectors.erase p) place (sels.erase p) := by
  refine ⟨?_, sorted.ascending.sublist erase_sublist, fun k => ?_⟩
  · rw [← erase_filter]
    exact sorted.perm.erase p
  · rw [← erase_filter, ← erase_filter, ← erase_filter, sorted.stable]

theorem Sorted.erase_elsewhere {selectors sels : List σ} {p : σ} {place : Place}
    (sorted : Sorted heap selectors place sels) (other : place ≠ placeOf heap p) :
    Sorted heap (selectors.erase p) place sels := by
  have absent : p ∉ sels := by
    intro among
    exact other (of_decide_eq_true (mem_filter.mp (sorted.perm.mem_iff.mp among)).2).symm
  have erased := sorted.erase (p := p)
  rwa [erase_of_not_mem absent] at erased

variable (heap)

/-- What every call keeps: the lists that the pointers show are in order, and the size is right. -/
structure Kept (hash : Hash σ) (selectors : List σ) (lists : CssSelectorHash σ) (own : Place → List Ptr) : Prop where
  shows : Shows hash lists own
  sorted : ∀ place, Sorted heap selectors place ((lists place).map (·.sel))
  nodup : hash.allocated.Nodup
  size : hash.hashSize = baseSize + sizeofHashEntry * hash.allocated.length

def AllOwn (lists : CssSelectorHash σ) : Prop :=
  ∀ place, ∀ e ∈ lists place, e.selChainBloom = chainBloomGenerate (heap e.sel).chain

variable {heap} {hash : Hash σ} {selectors : List σ} {lists : CssSelectorHash σ} {own : Place → List Ptr}

omit [DecidableEq σ] in
theorem Kept.exact_iff (kept : Kept heap hash selectors lists own) : Exact heap hash selectors ↔ AllOwn heap lists := by
  have paired : ∀ place ptr, ptr ∈ own place → ∃ e ∈ lists place, content hash ptr = shown e := by
    intro place ptr among
    have member : content hash ptr ∈ (lists place).map shown := by
      rw [← kept.shows.contents place]
      exact List.mem_map_of_mem among
    obtain ⟨e, among', same⟩ := List.mem_map.mp member
    exact ⟨e, among', same.symm⟩
  constructor
  · intro exact place e among
    have member : shown e ∈ (own place).map (content hash) := by
      rw [kept.shows.contents place]
      exact List.mem_map_of_mem among
    obtain ⟨ptr, among', same⟩ := List.mem_map.mp member
    obtain ⟨sel, bloom⟩ := Prod.mk.inj same
    rw [← bloom]
    exact exact.blooms place _ (kept.shows.leads place) ptr among' e.sel sel
  · intro blooms
    refine ⟨fun place => ⟨own place, _, kept.shows.leads place, ?_, kept.sorted place⟩, ?_, kept.size⟩
    · have contents := congrArg (List.map Prod.fst) (kept.shows.contents place)
      rw [List.map_map, List.map_map] at contents
      rw [List.map_map]
      exact contents
    · intro place ps entries ptr among p sel
      rw [leads_unique entries (kept.shows.leads place)] at among
      obtain ⟨e, among', same⟩ := paired place ptr among
      obtain ⟨sel', bloom⟩ := Prod.mk.inj same
      rw [sel] at sel'
      rw [bloom, some_inj.mp sel']
      exact blooms place e among'

omit [DecidableEq σ] in
theorem Kept.allLinked_iff (kept : Kept heap hash selectors lists own) :
    AllLinked hash ↔ ∀ a ∈ hash.allocated, ∃ place, .entry a ∈ own place := by
  refine forall₂_congr fun a _ => exists_congr fun place => ⟨?_, fun among => ⟨_, kept.shows.leads place, among⟩⟩
  rintro ⟨ps, entries, among⟩
  rw [← leads_unique entries (kept.shows.leads place)]
  exact among

omit [DecidableEq σ] in
theorem Kept.head_sel (kept : Kept heap hash selectors lists own) {place : Place} {p : σ}
    (head : (hash.node (.head place)).sel = some p) : ∃ e es, lists place = e :: es ∧ e.sel = p := by
  have contents := kept.shows.contents place
  rcases chain : own place with _ | ⟨ptr, r⟩
  · rw [(kept.shows.empty_iff place).mpr chain] at head
    cases head
  rcases shape : lists place with _ | ⟨e, es⟩
  · rw [chain, shape] at contents
    cases contents
  obtain ⟨rfl, -⟩ := kept.shows.head_eq chain
  rw [chain, shape] at contents
  have sel : (hash.node (.head place)).sel = some e.sel := congrArg Prod.fst (List.cons.inj contents).1
  rw [head] at sel
  exact ⟨e, es, rfl, (some_inj.mp sel).symm⟩

theorem Kept.insert (kept : Kept heap hash selectors lists own) (p : σ) (mem : Malloc) :
    ∃ hash' error lists' own', call heap hash (.insert p mem) = some (hash', error) ∧
      Kept heap hash' (standing selectors (.insert p mem) error) lists' own' ∧ (AllOwn heap lists → AllOwn heap lists') ∧
      ((∀ a ∈ hash.allocated, ∃ place, .entry a ∈ own place) → ∀ a ∈ hash'.allocated, ∃ place, .entry a ∈ own' place) := by
  rcases insertIntoChain_shows heap kept.shows (placeOf heap p) p mem with
    ⟨failed, -⟩ | ⟨hash', ps, inserted, shows', superset, memory⟩
  · exact ⟨hash, .nomem, lists, own, failed, kept, id, id⟩
  refine ⟨hash', .ok, _, _, inserted, ⟨shows', ?_, ?_, ?_⟩, ?_, ?_⟩
  · intro place
    by_cases same : place = placeOf heap p
    · subst same
      rw [update_self, insertIntoChain_sels]
      exact (kept.sorted _).insert
    · rw [update_of_ne same]
      exact (kept.sorted place).insert_elsewhere same
  · rcases memory with ⟨allocated, -⟩ | ⟨a, fresh, -, allocated, -⟩
    · rw [allocated]
      exact kept.nodup
    · rw [allocated]
      exact nodup_cons.mpr ⟨fresh, kept.nodup⟩
  · rcases memory with ⟨allocated, size⟩ | ⟨a, -, -, allocated, size⟩
    · rw [allocated, size, kept.size]
    · rw [allocated, size, kept.size, length_cons, Nat.mul_succ, Nat.add_assoc]
  · intro blooms place e among
    by_cases same : place = placeOf heap p
    · subst same
      rw [update_self] at among
      rcases mem_insertIntoChain heap among with rfl | old
      · rfl
      · exact blooms _ e old
    · rw [update_of_ne same] at among
      exact blooms place e among
  · intro linked
    have stays : ∀ place ptr, ptr ∈ own place → ptr ∈ update own (placeOf heap p) ps place := by
      intro place ptr among
      by_cases same : place = placeOf heap p
      · subst same
        rw [update_self]
        exact superset ptr among
      · rwa [update_of_ne same]
    rcases memory with ⟨allocated, -⟩ | ⟨a, -, inserted, allocated, -⟩
    · intro b inUse
      obtain ⟨place, among⟩ := linked b (allocated ▸ inUse)
      exact ⟨place, stays place _ among⟩
    · intro b inUse
      rw [allocated] at inUse
      rcases mem_cons.mp inUse with rfl | old
      · exact ⟨placeOf heap p, by rwa [update_self]⟩
      · obtain ⟨place, among⟩ := linked b old
        exact ⟨place, stays place _ among⟩

/-- An insertion fails only where `malloc` gives NULL, and changes nothing then. -/
theorem Kept.insert_fails (kept : Kept heap hash selectors lists own) {p : σ} {mem : Malloc} {hash' : Hash σ}
    (failed : call heap hash (.insert p mem) = some (hash', .nomem)) :
    hash' = hash ∧ mem.malloc hash.allocated = none := by
  rcases insertIntoChain_shows heap kept.shows (placeOf heap p) p mem with ⟨nomem, given⟩ | ⟨hash'', ps, inserted, -⟩
  · rw [call, nomem] at failed
    cases failed
    exact ⟨rfl, given⟩
  · rw [call, inserted] at failed
    cases failed

/-- The entries of a chain whose head stays were in it before. -/
theorem Kept.mem_of_notHead (kept : Kept heap hash selectors lists own) {here : Place} {p : σ}
    {entries : List (HashEntry σ)} (listed : SelectorHash.removeFromChain p (lists here) = some entries)
    (notHead : (hash.node (.head here)).sel ≠ some p) {e : HashEntry σ} (among : e ∈ entries) : e ∈ lists here := by
  have contents := kept.shows.contents here
  rcases shape : lists here with _ | ⟨first, _ | ⟨second, rest⟩⟩
  · rw [shape] at listed
    cases listed
  · rw [shape, SelectorHash.removeFromChain] at listed
    split at listed
    · cases listed
      cases among
    · cases listed
  · rw [shape, SelectorHash.removeFromChain] at listed
    split at listed
    next head =>
      rcases chain : own here with _ | ⟨ptr, r⟩
      · simp [chain, shape] at contents
      obtain ⟨rfl, -⟩ := kept.shows.head_eq chain
      rw [chain, shape] at contents
      exact absurd ((congrArg Prod.fst (List.cons.inj contents).1).trans (congrArg some head)) notHead
    next =>
      obtain ⟨rest', unlinked, rfl⟩ := map_eq_some_iff.mp listed
      rcases mem_cons.mp among with rfl | later
      · exact mem_cons_self
      · exact mem_cons_of_mem _ (mem_unlink unlinked later)

section Removal
variable {here : Place} {p : σ} {entries : List (HashEntry σ)} {ps : List Ptr} {hash' : Hash σ}
  (removal : Removal hash hash' here p (own here) ps)
include removal

omit [DecidableEq σ] in
theorem Kept.nodup_remove (kept : Kept heap hash selectors lists own) : hash'.allocated.Nodup := by
  cases removal with
  | alone _ allocated | head _ _ _ allocated => exact allocated ▸ kept.nodup
  | behind _ _ allocated => exact allocated ▸ kept.nodup.erase _

omit [DecidableEq σ] in
theorem Kept.size_remove (kept : Kept heap hash selectors lists own) :
    hash'.hashSize = baseSize + sizeofHashEntry * hash'.allocated.length := by
  cases removal with
  | alone _ allocated size | head _ _ _ allocated size => rw [allocated, size, kept.size]
  | behind _ inUse allocated size =>
    have some_in_use := length_pos_of_mem inUse
    rw [allocated, size, kept.size, length_erase_of_mem inUse, Nat.mul_sub]
    have whole := Nat.le_mul_of_pos_right sizeofHashEntry some_in_use
    omega

/-- The filters stay right if the head leaves its entry to a selector with the same filter. -/
theorem Kept.filters_remove (kept : Kept heap hash selectors lists own) (stands : placeOf heap p = here)
    (listed : SelectorHash.removeFromChain p (lists here) = some entries) (blooms : AllOwn heap lists) :
    AllOwn heap (update lists here entries) ↔ KeepsFilter heap hash (.remove p) := by
  have others : AllOwn heap (update lists here entries) ↔
      ∀ e ∈ entries, e.selChainBloom = chainBloomGenerate (heap e.sel).chain := by
    refine ⟨fun all e among => all here e (by rwa [update_self]), fun all place e among => ?_⟩
    by_cases same : place = here
    · subst same
      rw [update_self] at among
      exact all e among
    · rw [update_of_ne same] at among
      exact blooms place e among
  rw [others, KeepsFilter, stands]
  have contents := kept.shows.contents here
  have leads := kept.shows.leads here
  cases removal with
  | alone chain =>
    rw [chain] at contents leads
    rcases shape : lists here with _ | ⟨e, _ | ⟨n, er⟩⟩
    · simp [shape] at contents
    · rw [shape, SelectorHash.removeFromChain] at listed
      split at listed
      · cases listed
        refine ⟨fun _ _ next follows => ?_, fun _ e among => absurd among not_mem_nil⟩
        have last : link hash (.head here) = none := leads.2
        rw [link, follows] at last
        cases last
      · cases listed
    · simp [shape] at contents
  | @head next r head chain =>
    rw [chain] at contents leads
    obtain ⟨-, second, -⟩ := leads
    obtain ⟨e, _ | ⟨n, er⟩, shape, sel⟩ := kept.head_sel head
    · simp [shape] at contents
    rw [shape, SelectorHash.removeFromChain, if_pos sel, some_inj] at listed
    subst listed
    rw [shape] at contents
    have nextSel : (hash.node next).sel = some n.sel :=
      congrArg Prod.fst (List.cons.inj (List.cons.inj contents).2).1
    have filter : e.selChainBloom = chainBloomGenerate (heap p).chain := by
      rw [← sel]
      exact blooms here e (by simp [shape])
    constructor
    · intro all _ next' follows q nextSel'
      rw [link, follows] at second
      rw [some_inj.mp second, nextSel] at nextSel'
      rw [← filter, ← some_inj.mp nextSel']
      exact all _ mem_cons_self
    · intro keeps e' among
      rcases mem_cons.mp among with rfl | later
      · exact filter.trans (keeps head next second n.sel nextSel)
      · exact blooms here e' (by simp [shape, later])
  | behind notHead =>
    refine ⟨fun _ head => absurd head notHead, fun _ e among => blooms here e ?_⟩
    exact kept.mem_of_notHead listed notHead among

omit [DecidableEq σ] in
/-- The entries stay linked if the head is the last of its chain. -/
theorem Kept.linked_remove (kept : Kept heap hash selectors lists own) (stands : placeOf heap p = here)
    (linked : ∀ a ∈ hash.allocated, ∃ place, .entry a ∈ own place) :
    (∀ a ∈ hash'.allocated, ∃ place, .entry a ∈ update own here ps place) ↔
      RemovesNoHead heap hash (.remove p) := by
  have leads := kept.shows.leads here
  rw [RemovesNoHead, stands]
  have elsewhere : ∀ place ≠ here, ∀ ptr, ptr ∈ own place → ptr ∈ update own here ps place := by
    intro place other ptr among
    rwa [update_of_ne other]
  cases removal with
  | alone chain allocated =>
    rw [chain] at leads
    refine ⟨fun _ _ => leads.2, fun _ a inUse => ?_⟩
    obtain ⟨place, among⟩ := linked a (allocated ▸ inUse)
    refine ⟨place, elsewhere place ?_ _ among⟩
    rintro rfl
    simp [chain] at among
  | @head next r head chain rest allocated =>
    have nodup := leads_nodup leads
    rw [chain] at leads nodup
    have follows : (hash.node (.head here)).next = some next := leads.2.1
    constructor
    · intro all
      -- the entry that the head has taken over from is in no chain any more
      exfalso
      rcases kept.shows.inUse here next (by simp [chain]) with rfl | ⟨a, inUse, rfl⟩
      · simp at nodup
      obtain ⟨place, among⟩ := all a (allocated ▸ inUse)
      by_cases same : place = here
      · subst same
        rw [update_self, rest] at among
        simp only [nodup_cons, mem_cons, not_or] at nodup among
        rcases among with equal | later
        · cases equal
        · exact nodup.2.1 later
      · rw [update_of_ne same] at among
        exact kept.shows.apart place here same _ among (by simp [chain])
    · intro alone
      rw [alone head] at follows
      cases follows
  | @behind a notHead inUse allocated _ stay =>
    refine ⟨fun _ head => absurd head notHead, fun _ b inUse' => ?_⟩
    rw [allocated] at inUse'
    have other : b ≠ a := ((kept.nodup.mem_erase_iff).mp inUse').1
    obtain ⟨place, among⟩ := linked b (mem_of_mem_erase inUse')
    by_cases same : place = here
    · subst same
      exact ⟨place, by rw [update_self]; exact stay _ among (by simpa using other)⟩
    · exact ⟨place, elsewhere place same _ among⟩

end Removal

/-- A removal keeps what is kept; the filters stay right if the head leaves its entry to a selector with the same
filter, and the entries stay linked if the head is the last of its chain. -/
theorem Kept.remove (kept : Kept heap hash selectors lists own) (p : σ) :
    ∃ hash' error lists' own', call heap hash (.remove p) = some (hash', error) ∧
      Kept heap hash' (standing selectors (.remove p) error) lists' own' ∧
      (AllOwn heap lists → (AllOwn heap lists' ↔ KeepsFilter heap hash (.remove p))) ∧
      ((∀ a ∈ hash.allocated, ∃ place, .entry a ∈ own place) →
        ((∀ a ∈ hash'.allocated, ∃ place, .entry a ∈ own' place) ↔ RemovesNoHead heap hash (.remove p))) := by
  have chains := removeFromChain_shows kept.shows (placeOf heap p) p
  generalize here_eq : placeOf heap p = here at chains
  rcases chains with ⟨failed, absent⟩ | ⟨hash', ps, entries, removed, listed, shows', removal⟩
  · have notHead : (hash.node (.head here)).sel ≠ some p := by
      intro head
      obtain ⟨e, es, shape, sel⟩ := kept.head_sel head
      exact absent (by simp [shape, sel])
    refine ⟨hash, .invalid, lists, own, by rw [call, here_eq]; exact failed, kept, ?_, ?_⟩
    · exact fun blooms => ⟨fun _ head => absurd (here_eq ▸ head) notHead, fun _ => blooms⟩
    · exact fun linked => ⟨fun _ head => absurd (here_eq ▸ head) notHead, fun _ => linked⟩
  have sels := removeFromChain_sels p (lists here)
  rw [listed, getD_some] at sels
  refine ⟨hash', .ok, _, _, by rw [call, here_eq]; exact removed,
    ⟨shows', fun place => ?_, kept.nodup_remove removal, kept.size_remove removal⟩,
    kept.filters_remove removal here_eq listed, kept.linked_remove removal here_eq⟩
  by_cases same : place = here
  · subst same
    rw [update_self, sels]
    exact (kept.sorted place).erase
  · rw [update_of_ne same]
    exact (kept.sorted place).erase_elsewhere (here_eq ▸ same)

theorem run_append (start : Hash σ × List σ) (calls : List (Call σ)) (c : Call σ) :
    run heap start (calls ++ [c]) = (run heap start calls).bind fun s =>
      (call heap s.1 c).map fun r => (r.1, standing s.2 c r.2) := by
  induction calls generalizing start with
  | nil =>
    simp only [nil_append, run, bind_some]
    rcases call heap start.1 c <;> rfl
  | cons first calls ih =>
    simp only [cons_append, run, Option.bind_assoc, ih]

omit [DecidableEq σ] in
theorem kept_create : Kept heap (create (σ := σ)) [] selectorHashCreate fun _ => [] :=
  ⟨shows_create, sorted_nil, nodup_nil, rfl⟩

theorem kept_run (heap : σ → CssSelector δ) (calls : List (Call σ)) :
    ∃ s lists own, run heap (create, []) calls = some s ∧ Kept heap s.1 s.2 lists own := by
  induction calls using List.reverseRecOn with
  | nil => exact ⟨_, _, _, rfl, kept_create⟩
  | append_singleton calls c ih =>
    obtain ⟨s, lists, own, reached, kept⟩ := ih
    rw [run_append, reached, bind_some]
    cases c with
    | insert p mem =>
      obtain ⟨hash', error, lists', own', called, kept', -, -⟩ := kept.insert p mem
      exact ⟨_, lists', own', by rw [called]; rfl, kept'⟩
    | remove p =>
      obtain ⟨hash', error, lists', own', called, kept', -, -⟩ := kept.remove p
      exact ⟨_, lists', own', by rw [called]; rfl, kept'⟩

theorem throughout_iff {property : Hash σ → List σ → Prop} {condition : Hash σ → Call σ → Prop}
    (starts : property create []) (step : ∀ calls c s s', run heap (create, []) calls = some s →
      run heap (create, []) (calls ++ [c]) = some s' → property s.1 s.2 → (property s'.1 s'.2 ↔ condition s.1 c))
    (calls : List (Call σ)) : Throughout heap property calls ↔ Always heap condition calls := by
  induction calls using List.reverseRecOn with
  | nil =>
    constructor
    · intro _ done c begins
      simp at begins
    · intro _ done begins
      rw [prefix_nil.mp begins]
      exact ⟨_, rfl, starts⟩
  | append_singleton calls c ih =>
    obtain ⟨s, _, _, reached, -⟩ := kept_run heap calls
    obtain ⟨s', _, _, reached', -⟩ := kept_run heap (calls ++ [c])
    constructor
    · intro all done c' begins
      rcases prefix_concat_iff.mp begins with same | earlier
      · obtain ⟨rfl, last⟩ := append_inj' same rfl
        obtain rfl := head_eq_of_cons_eq last
        intro t reaches
        rw [some_inj.mp (reaches.symm.trans reached)]
        obtain ⟨t, reaches, before⟩ := all done (prefix_append _ _)
        obtain ⟨t', reaches', after⟩ := all _ (prefix_refl _)
        rw [some_inj.mp (reaches.symm.trans reached)] at before
        exact (step done c' s t' reached reaches' before).mp after
      · exact ih.mp (fun done begins => all done (begins.trans (prefix_append _ _))) done c' earlier
    · intro all done begins
      have before := ih.mpr fun done c' begins => all done c' (begins.trans (prefix_append _ _))
      rcases prefix_concat_iff.mp begins with rfl | earlier
      · obtain ⟨t, reaches, held⟩ := before calls (prefix_refl _)
        rw [some_inj.mp (reaches.symm.trans reached)] at held
        exact ⟨s', reached', (step calls c s s' reached reached' held).mpr (all calls c (prefix_refl _) s reached)⟩
      · exact before done earlier

/-- One call: the filters stay right when it leaves every entry to a selector with the same filter, and with that
all entries stay linked when it removes no head that has others behind it. -/
theorem exact_step {calls : List (Call σ)} {c : Call σ} {s s' : Hash σ × List σ}
    (reached : run heap (create, []) calls = some s) (reached' : run heap (create, []) (calls ++ [c]) = some s')
    (exact : Exact heap s.1 s.2) : (Exact heap s'.1 s'.2 ↔ KeepsFilter heap s.1 c) ∧
      (AllLinked s.1 → (AllLinked s'.1 ↔ RemovesNoHead heap s.1 c)) := by
  obtain ⟨t, lists, own, reaches, kept⟩ := kept_run heap calls
  obtain rfl := some_inj.mp (reaches.symm.trans reached)
  rw [run_append, reaches, bind_some] at reached'
  have blooms := kept.exact_iff.mp exact
  cases c with
  | insert p mem =>
    obtain ⟨hash', error, lists', own', called, kept', blooms', linked'⟩ := kept.insert p mem
    rw [called] at reached'
    obtain rfl := some_inj.mp reached'
    rw [kept'.exact_iff, kept.allLinked_iff, kept'.allLinked_iff]
    exact ⟨⟨fun _ => trivial, fun _ => blooms' blooms⟩, fun linked => ⟨fun _ => trivial, fun _ => linked' linked⟩⟩
  | remove p =>
    obtain ⟨hash', error, lists', own', called, kept', blooms', linked'⟩ := kept.remove p
    rw [called] at reached'
    obtain rfl := some_inj.mp reached'
    rw [kept'.exact_iff, kept.allLinked_iff, kept'.allLinked_iff]
    exact ⟨blooms' blooms, linked'⟩

omit [DecidableEq σ] in
theorem exact_create : Exact heap (create (σ := σ)) [] :=
  kept_create.exact_iff.mpr fun _ _ among => absurd among not_mem_nil

omit [DecidableEq σ] in
theorem keepsFilter_of_removesNoHead {hash : Hash σ} {c : Call σ} (alone : RemovesNoHead heap hash c) :
    KeepsFilter heap hash c := by
  cases c with
  | insert p mem => trivial
  | remove p =>
    intro head next follows
    rw [alone head] at follows
    cases follows

/-- The chains are sorted and complete, the filters and the size right throughout exactly the runs in which no
removed head leaves its entry to a selector that needs another filter. All entries that are allocated stand in the
chains throughout exactly the runs in which no head is removed that has others behind it. -/
theorem chains_exact_iff (calls : List (Call σ)) :
    (Throughout heap (Exact heap) calls ↔ Always heap (KeepsFilter heap) calls) ∧
      (Throughout heap (fun hash selectors => Exact heap hash selectors ∧ AllLinked hash) calls ↔
        Always heap (RemovesNoHead heap) calls) := by
  constructor
  · exact throughout_iff exact_create (fun calls c s s' reached reached' exact =>
      (exact_step reached reached' exact).1) calls
  · refine throughout_iff ⟨exact_create, fun a inUse => absurd inUse not_mem_nil⟩ ?_ calls
    rintro calls c s s' reached reached' ⟨exact, linked⟩
    obtain ⟨exact_iff, linked_iff⟩ := exact_step reached reached' exact
    rw [exact_iff, linked_iff linked]
    exact ⟨And.right, fun alone => ⟨keepsFilter_of_removesNoHead alone, alone⟩⟩

/-- `x c` is inserted and then `b c`, and `x c` is removed. -/
def leavesFilter : List (Call Bool) := [.insert false (memory 0), .insert true (memory 0), .remove false]

/-- `b c` stands in the head of the chain with the filter of `x c`. -/
theorem filter_left_in_head : ¬ Throughout Hiding.twoRules (Exact Hiding.twoRules) leavesFilter := by
  intro all
  obtain ⟨s, reached, exact⟩ := all _ (prefix_refl _)
  have head : ((run Hiding.twoRules (create, []) leavesFilter).map fun s => (s.1.node (.head (placeOf Hiding.twoRules true))).sel) =
      some (some true) := by decide
  have alone : ((run Hiding.twoRules (create, []) leavesFilter).map fun s => (s.1.node (.head (placeOf Hiding.twoRules true))).next) =
      some none := by decide
  have filter : ((run Hiding.twoRules (create, []) leavesFilter).map fun s =>
      decide ((s.1.node (.head (placeOf Hiding.twoRules true))).selChainBloom =
        chainBloomGenerate (Hiding.twoRules true).chain)) = some false := by decide
  rw [reached, map_some, some_inj] at head alone filter
  have entries : Entries s.1 (placeOf Hiding.twoRules true) [.head (placeOf Hiding.twoRules true)] := by
    refine ⟨if_pos (by rw [head]; rfl), alone⟩
  exact of_decide_eq_false filter (exact.blooms _ _ entries _ (mem_singleton_self _) true head)

end Besra.HashChainRun
