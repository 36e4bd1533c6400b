import Mathlib.Data.List.Nodup
import Besra.PointerChain

/-!
Chains of nodes in which a node knows where the pointer at it is. Each chain starts at a place of its own; every other
pointer is inside the node before.
-/
namespace Besra.BackPointers
open PointerChain List

/-- Where a pointer at a node is: at the top of a chain, or inside the node before. -/
inductive Place (ι α : Type) where
  | top (i : ι)
  | inside (n : α)
deriving DecidableEq

variable {ι α : Type}

/-- From a pointer at a place the nodes are linked to the end, and each links back to the pointer at it. -/
def Hooked (next : α → Option α) (back : α → Option (Place ι α)) : Place ι α → Option α → List α → Prop
  | _, first, [] => first = none
  | place, first, n :: ns => first = some n ∧ back n = some place ∧ Hooked next back (.inside n) (next n) ns

variable {next next' : α → Option α} {back back' : α → Option (Place ι α)}

variable {ns r l : List α} {place p : Place ι α} {first : Option α} {n : α} {i : ι}

theorem Hooked.leads (hooked : Hooked next back place first ns) : Leads next first ns none := by
  induction ns generalizing place first with
  | nil => exact hooked
  | cons n ns ih => exact ⟨hooked.1, ih hooked.2.2⟩

theorem hooked_congr (hooked : Hooked next back place first ns) (nexts : ∀ n ∈ ns, next' n = next n)
    (backs : ∀ n ∈ ns, back' n = back n) : Hooked next' back' place first ns := by
  induction ns generalizing place first with
  | nil => exact hooked
  | cons n ns ih =>
    obtain ⟨head, own, rest⟩ := hooked
    refine ⟨head, (backs n mem_cons_self).trans own, ?_⟩
    rw [nexts n mem_cons_self]
    exact ih rest (fun m member => nexts m (mem_cons_of_mem _ member)) fun m member =>
      backs m (mem_cons_of_mem _ member)

theorem Hooked.back_among (hooked : Hooked next back place first ns) (member : n ∈ ns) :
    back n = some place ∨ ∃ m ∈ ns, back n = some (.inside m) := by
  induction ns generalizing place first with
  | nil => cases member
  | cons m ns ih =>
    obtain ⟨-, own, rest⟩ := hooked
    rcases mem_cons.mp member with rfl | later
    · exact .inl own
    · rcases ih rest later with inside | ⟨k, listed, inside⟩
      · exact .inr ⟨m, mem_cons_self, inside⟩
      · exact .inr ⟨k, mem_cons_of_mem _ listed, inside⟩

theorem Hooked.points (hooked : Hooked next back place first ns) (member : n ∈ ns) :
    back n = some place ∧ first = some n ∨ ∃ m ∈ ns, back n = some (.inside m) ∧ next m = some n := by
  induction ns generalizing place first with
  | nil => cases member
  | cons m ns ih =>
    obtain ⟨rfl, own, rest⟩ := hooked
    rcases mem_cons.mp member with rfl | later
    · exact .inl ⟨own, rfl⟩
    · rcases ih rest later with ⟨inside, link⟩ | ⟨k, listed, inside, link⟩
      · exact .inr ⟨m, mem_cons_self, inside, link⟩
      · exact .inr ⟨k, mem_cons_of_mem _ listed, inside, link⟩

theorem Hooked.first_ne_none (hooked : Hooked next back place first ns) (member : n ∈ ns) : first ≠ none := by
  rcases ns with _ | ⟨m, ns⟩
  · cases member
  · rw [hooked.1]
    simp

variable [DecidableEq α]

theorem hooked_move {place' : Place ι α} (hooked : Hooked next back place first ns)
    (nexts : ∀ n ∈ ns, next' n = next n) (backs : ∀ n ∈ ns, back' n = if first = some n then some place' else back n) :
    Hooked next' back' place' first ns := by
  rcases ns with _ | ⟨n, ns⟩
  · exact hooked
  · have nodup := leads_nodup hooked.leads
    obtain ⟨rfl, -, rest⟩ := hooked
    refine ⟨rfl, (backs n mem_cons_self).trans (if_pos rfl), ?_⟩
    rw [nexts n mem_cons_self]
    refine hooked_congr rest (fun m member => nexts m (mem_cons_of_mem _ member)) fun m member => ?_
    rw [backs m (mem_cons_of_mem _ member), if_neg]
    rintro same
    exact (nodup_cons.mp nodup).1 (Option.some.inj same ▸ member)

variable [DecidableEq ι]

theorem hooked_remove (hooked : Hooked next back place first (l ++ n :: r)) (own : back n = some p)
    (outside : ∀ m ∈ l ++ n :: r, place ≠ .inside m)
    (nexts : ∀ m ∈ l ++ r, next' m = if p = .inside m then next n else next m)
    (backs : ∀ m ∈ l ++ r, back' m = if next n = some m then some p else back m) :
    Hooked next' back' place (if p = place then next n else first) (l ++ r) := by
  have nodup := leads_nodup hooked.leads
  induction l generalizing place first with
  | nil =>
    obtain ⟨-, own', rest⟩ := hooked
    obtain rfl := Option.some.inj (own'.symm.trans own)
    rw [if_pos rfl]
    exact hooked_move rest
      (fun m member => (nexts m member).trans (if_neg (outside m (mem_cons_of_mem _ member)))) backs
  | cons m l ih =>
    have last : n ∈ l ++ n :: r := by simp
    obtain ⟨rfl, own', rest⟩ := hooked
    obtain ⟨fresh, nodup'⟩ := nodup_cons.mp nodup
    have elsewhere : p ≠ place := by
      rintro rfl
      rcases rest.back_among last with inside | ⟨k, listed, inside⟩
      · exact outside m mem_cons_self (Option.some.inj (own.symm.trans inside))
      · exact outside k (mem_cons_of_mem _ listed) (Option.some.inj (own.symm.trans inside))
    have before : next n ≠ some m := fun again => fresh (leads_closed rest.leads last again)
    rw [if_neg elsewhere]
    refine ⟨rfl, ?_, ?_⟩
    · rw [backs m (by simp), if_neg before, own']
    · rw [nexts m (by simp)]
      refine ih rest ?_ (fun k member => nexts k (mem_cons_of_mem _ member))
        (fun k member => backs k (mem_cons_of_mem _ member)) nodup'
      rintro k listed same
      exact fresh (Place.inside.inj same ▸ listed)

/-- Each chain is linked from its top, and no node is in two of them. -/
structure Hung (next : α → Option α) (back : α → Option (Place ι α)) (tops : ι → Option α) (chains : ι → List α) : Prop where
  hooked : ∀ i, Hooked next back (.top i) (tops i) (chains i)
  apart : ∀ i j n, n ∈ chains i → n ∈ chains j → i = j

variable {tops tops' : ι → Option α} {chains chains' : ι → List α}

omit [DecidableEq α] [DecidableEq ι] in
theorem Hung.nodup (hung : Hung next back tops chains) (i : ι) : (chains i).Nodup := leads_nodup (hung.hooked i).leads

omit [DecidableEq α] [DecidableEq ι] in
theorem Hung.top_mem (hung : Hung next back tops chains) (top : tops i = some n) : n ∈ chains i := by
  have start := leads_start (hung.hooked i).leads
  rw [top, Option.or_none] at start
  exact List.mem_of_head? start.symm

omit [DecidableEq α] [DecidableEq ι] in
theorem Hung.congr (hung : Hung next back tops chains) (first : ∀ i, tops' i = tops i)
    (nexts : ∀ i, ∀ n ∈ chains i, next' n = next n) (backs : ∀ i, ∀ n ∈ chains i, back' n = back n) :
    Hung next' back' tops' chains := by
  refine ⟨fun i => ?_, hung.apart⟩
  rw [first i]
  exact hooked_congr (hung.hooked i) (nexts i) (backs i)

theorem Hung.push (hung : Hung next back tops chains) (fresh : ∀ j, n ∉ chains j)
    (first : ∀ j, tops' j = if j = i then some n else tops j) (link : next' n = tops i)
    (own : back' n = some (.top i)) (nexts : ∀ m, m ≠ n → next' m = next m)
    (backs : ∀ m, m ≠ n → back' m = if tops i = some m then some (.inside n) else back m) :
    Hung next' back' tops' fun j => if j = i then n :: chains i else chains j := by
  have other : ∀ {j : ι} {m : α}, m ∈ chains j → m ≠ n := fun member same => fresh _ (same ▸ member)
  refine ⟨fun j => ?_, fun j k m one two => ?_⟩
  · rw [first]
    by_cases here : j = i
    · simp only [if_pos here]
      refine ⟨rfl, here ▸ own, ?_⟩
      rw [link]
      exact hooked_move (hung.hooked i) (fun m member => nexts m (other member)) fun m member => backs m (other member)
    · simp only [if_neg here]
      refine hooked_congr (hung.hooked j) (fun m member => nexts m (other member)) fun m member => ?_
      rw [backs m (other member), if_neg]
      exact fun top => here (hung.apart j i m member (hung.top_mem top))
  · by_cases left : j = i
    · by_cases right : k = i
      · rw [left, right]
      · simp only [if_pos left, if_neg right] at one two
        rcases mem_cons.mp one with rfl | member
        · exact absurd two (fresh k)
        · exact left.trans (hung.apart i k m member two)
    · by_cases right : k = i
      · simp only [if_neg left, if_pos right] at one two
        rcases mem_cons.mp two with rfl | member
        · exact absurd one (fresh j)
        · exact (hung.apart j i m one member).trans right.symm
      · simp only [if_neg left, if_neg right] at one two
        exact hung.apart j k m one two

omit [DecidableEq α] [DecidableEq ι] in
theorem ne_of_nodup (nodup : (l ++ n :: r).Nodup) : ∀ m ∈ l ++ r, m ≠ n := by
  rintro m member rfl
  exact (nodup_cons.mp (nodup_middle.mp nodup)).1 member

omit [DecidableEq ι] in
theorem filter_ne_of_nodup (nodup : (l ++ n :: r).Nodup) : (l ++ n :: r).filter (· ≠ n) = l ++ r := by
  rw [filter_append, filter_cons_of_neg (by simp), ← filter_append]
  exact filter_eq_self.mpr fun m member => by simpa using ne_of_nodup nodup m member

theorem Hung.remove (hung : Hung next back tops chains) (member : n ∈ chains i) (own : back n = some p)
    (first : ∀ j, tops' j = if p = .top j then next n else tops j)
    (nexts : ∀ m, m ≠ n → next' m = if p = .inside m then next n else next m)
    (backs : ∀ m, m ≠ n → back' m = if next n = some m then some p else back m) :
    Hung next' back' tops' fun j => (chains j).filter (· ≠ n) := by
  refine ⟨fun j => ?_, fun j k m one two => ?_⟩
  · rw [first]
    by_cases here : j = i
    · subst here
      have nodup := hung.nodup j
      have hooked := hung.hooked j
      obtain ⟨l, r, split⟩ := append_of_mem member
      rw [split] at nodup hooked ⊢
      have fresh := ne_of_nodup nodup
      rw [filter_ne_of_nodup nodup]
      exact hooked_remove hooked own (fun m _ => by simp) (fun m listed => nexts m (fresh m listed)) fun m listed =>
        backs m (fresh m listed)
    · have absent : n ∉ chains j := fun again => here (hung.apart j i n again member)
      have other : ∀ m ∈ chains j, m ≠ n := fun m listed same => absent (same ▸ listed)
      have same : (chains j).filter (· ≠ n) = chains j := filter_eq_self.mpr fun m listed => by simpa using other m listed
      have elsewhere : p ≠ .top j ∧ ∀ m ∈ chains j, p ≠ .inside m := by
        rcases (hung.hooked i).back_among member with inside | ⟨m, listed, inside⟩
        · obtain rfl := Option.some.inj (own.symm.trans inside)
          exact ⟨fun same => here (Place.top.inj same).symm, fun m _ => by simp⟩
        · obtain rfl := Option.some.inj (own.symm.trans inside)
          refine ⟨by simp, fun k listed' same => ?_⟩
          obtain rfl := Place.inside.inj same
          exact here (hung.apart j i m listed' listed)
      rw [same, if_neg elsewhere.1]
      refine hooked_congr (hung.hooked j) (fun m listed => ?_) fun m listed => ?_
      · rw [nexts m (other m listed), if_neg (elsewhere.2 m listed)]
      · rw [backs m (other m listed), if_neg]
        exact fun after => here (hung.apart j i m listed (leads_closed (hung.hooked i).leads member after))
  · exact hung.apart j k m (mem_of_mem_filter one) (mem_of_mem_filter two)

end Besra.BackPointers
