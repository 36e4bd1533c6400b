import Mathlib.Data.List.Basic
import Mathlib.Logic.Relation

/-!
Chains of pointers. `Leads` says that links lead from one pointer over a list of nodes to another; `Threaded` that a
list is linked in both directions, with what comes before and after it.
-/
namespace Besra.PointerChain
open List

variable {α : Type}

/-- The links lead from `start` over the nodes of the list to `stop`. -/
def Leads (link : α → Option α) : Option α → List α → Option α → Prop
  | start, [], stop => start = stop
  | start, n :: ns, stop => start = some n ∧ Leads link (link n) ns stop

/-- The nodes from `start` to the end of the links; none where the fuel is too little. -/
def walk (link : α → Option α) : Nat → Option α → Option (List α)
  | _, none => some []
  | 0, some _ => none
  | fuel + 1, some n => (walk link fuel (link n)).map (n :: ·)

variable {link link' : α → Option α} {start stop after before : Option α} {fuel : Nat} {ns r l : List α} {n m : α}

theorem walk_eq (leads : Leads link start ns none) (enough : ns.length ≤ fuel) : walk link fuel start = some ns := by
  induction ns generalizing start fuel with
  | nil =>
    rw [show start = none from leads]
    rcases fuel with _ | fuel <;> rfl
  | cons n ns ih =>
    obtain ⟨rfl, rest⟩ := leads
    rcases fuel with _ | fuel
    · simp at enough
    · rw [walk, ih rest (by simpa using enough)]
      rfl

def someOn (link : α → Option α) (p : α → Option Bool) : Nat → Option α → Option Bool
  | _, none => some false
  | 0, some _ => none
  | fuel + 1, some n => (p n).bind (fun found => if found then some true else someOn link p fuel (link n))

theorem someOn_eq {p : α → Option Bool} {q : α → Bool} (leads : Leads link start ns none) (enough : ns.length ≤ fuel)
    (each : ∀ n ∈ ns, p n = some (q n)) : someOn link p fuel start = some (ns.any q) := by
  induction ns generalizing start fuel with
  | nil =>
    rw [show start = none from leads]
    rcases fuel with _ | fuel <;> rfl
  | cons n ns ih =>
    obtain ⟨rfl, rest⟩ := leads
    rcases fuel with _ | fuel
    · simp at enough
    · rw [someOn, any_cons, each n mem_cons_self, Option.bind_some]
      rcases q n
      · rw [if_neg (by simp), Bool.false_or]
        exact ih rest (by simpa using enough) (fun m member => each m (mem_cons_of_mem _ member))
      · rfl

theorem leads_congr (leads : Leads link start ns stop) (same : ∀ n ∈ ns, link' n = link n) :
    Leads link' start ns stop := by
  induction ns generalizing start with
  | nil => exact leads
  | cons n ns ih =>
    obtain ⟨rfl, rest⟩ := leads
    refine ⟨rfl, ?_⟩
    rw [same n mem_cons_self]
    exact ih rest (fun m member => same m (mem_cons_of_mem _ member))

theorem leads_append :
    Leads link start (l ++ r) stop ↔ ∃ between, Leads link start l between ∧ Leads link between r stop := by
  induction l generalizing start with
  | nil => exact ⟨fun leads => ⟨start, rfl, leads⟩, fun ⟨between, same, leads⟩ => same ▸ leads⟩
  | cons n l ih =>
    constructor
    · rintro ⟨rfl, rest⟩
      obtain ⟨between, left, right⟩ := ih.mp rest
      exact ⟨between, ⟨rfl, left⟩, right⟩
    · rintro ⟨between, ⟨rfl, left⟩, right⟩
      exact ⟨rfl, ih.mpr ⟨between, left, right⟩⟩

theorem leads_start (leads : Leads link start ns stop) : start = ns.head?.or stop := by
  cases ns with
  | nil => exact leads
  | cons n ns => exact leads.1

theorem leads_relink {between between' : List α} (leads : Leads link start (l ++ n :: (between ++ r)) stop)
    (before : ∀ m ∈ l, link' m = link m) (after : ∀ m ∈ r, link' m = link m)
    (relinked : Leads link' (link' n) between' (r.head?.or stop)) :
    Leads link' start (l ++ n :: (between' ++ r)) stop := by
  obtain ⟨middle, left, rfl, rest⟩ := leads_append.mp leads
  obtain ⟨_, -, right⟩ := leads_append.mp rest
  have goesOn := leads_congr right after
  rw [leads_start right] at goesOn
  exact leads_append.mpr ⟨_, leads_congr left before, rfl, leads_append.mpr ⟨_, relinked, goesOn⟩⟩

theorem leads_closed (leads : Leads link start ns none) (member : n ∈ ns) (step : link n = some m) : m ∈ ns := by
  obtain ⟨l, r, rfl⟩ := append_of_mem member
  obtain ⟨between, -, -, rest⟩ := leads_append.mp leads
  rw [step] at rest
  rcases r with _ | ⟨k, r⟩
  · exact absurd rest (by simp [Leads])
  · rw [Option.some_inj.mp rest.1]
    simp

theorem leads_unique {ms : List α} (one : Leads link start ns none) (other : Leads link start ms none) : ns = ms := by
  induction ns generalizing start ms with
  | nil =>
    rw [show start = none from one] at other
    rcases ms with _ | ⟨m, ms⟩
    · rfl
    · exact absurd other.1 (by simp)
  | cons n ns ih =>
    obtain ⟨rfl, rest⟩ := one
    rcases ms with _ | ⟨m, ms⟩
    · exact absurd other (by simp [Leads])
    · obtain ⟨same, rest'⟩ := other
      obtain rfl := Option.some_inj.mp same
      rw [ih rest rest']

theorem leads_nodup (leads : Leads link start ns none) : ns.Nodup := by
  induction ns generalizing start with
  | nil => exact nodup_nil
  | cons n ns ih =>
    obtain ⟨rfl, rest⟩ := leads
    refine nodup_cons.mpr ⟨fun again => ?_, ih rest⟩
    obtain ⟨l, r, rfl⟩ := append_of_mem again
    obtain ⟨between, -, second⟩ := leads_append.mp rest
    obtain rfl := second.1
    have whole : Leads link (some n) (n :: (l ++ n :: r)) none := ⟨rfl, rest⟩
    have same := congrArg List.length (leads_unique second whole)
    simp only [length_cons, length_append] at same
    omega

def Ends (link : α → Option α) (start : Option α) : Prop := ∃ ns, Leads link start ns none

theorem ends_none (link : α → Option α) : Ends link none := ⟨[], rfl⟩

theorem ends_cons (rest : Ends link (link n)) : Ends link (some n) := by
  obtain ⟨ns, leads⟩ := rest
  exact ⟨n :: ns, rfl, leads⟩

theorem ends_of (leads : Leads link start ns none) (same : ∀ n ∈ ns, link' n = link n ∨ Ends link' (link' n)) :
    Ends link' start := by
  induction ns generalizing start with
  | nil => exact (show start = none from leads) ▸ ends_none link'
  | cons n ns ih =>
    obtain ⟨rfl, rest⟩ := leads
    refine ends_cons ?_
    rcases same n mem_cons_self with own | done
    · exact own ▸ ih rest (fun m member => same m (mem_cons_of_mem _ member))
    · exact done

theorem leads_later (steps : Relation.TransGen (fun a b => link a = some b) n m) (leads : Leads link (some n) ns none) :
    ∃ ms, Leads link (some m) ms none ∧ ms.length < ns.length := by
  have one : ∀ {a b : α} {as : List α}, link a = some b → Leads link (some a) as none →
      ∃ bs, Leads link (some b) bs none ∧ bs.length < as.length := by
    intro a b as step leads
    rcases as with _ | ⟨c, as⟩
    · exact absurd leads (by simp [Leads])
    · obtain ⟨same, rest⟩ := leads
      rw [← Option.some_inj.mp same, step] at rest
      exact ⟨as, rest, Nat.lt_succ_self _⟩
  induction steps with
  | single step => exact one step leads
  | tail steps step ih =>
    obtain ⟨ms, leads', shorter⟩ := ih
    obtain ⟨ks, leads'', shorter'⟩ := one step leads'
    exact ⟨ks, leads'', Nat.lt_trans shorter' shorter⟩

theorem not_after_itself (ends : Ends link (some n)) : ¬ Relation.TransGen (fun a b => link a = some b) n n := by
  intro around
  obtain ⟨ns, leads⟩ := ends
  obtain ⟨ms, again, shorter⟩ := leads_later around leads
  rw [leads_unique again leads] at shorter
  exact Nat.lt_irrefl _ shorter

/-- The nodes are linked in both directions, after `before` and before `after`. -/
def Threaded (next previous : α → Option α) : Option α → List α → Option α → Prop
  | _, [], _ => True
  | before, n :: ns, after =>
    previous n = before ∧ next n = ns.head?.or after ∧ Threaded next previous (some n) ns after

variable {next previous next' previous' : α → Option α}

theorem threaded_append :
    Threaded next previous before (l ++ r) after ↔
      Threaded next previous before l (r.head?.or after) ∧ Threaded next previous (l.getLast?.or before) r after := by
  induction l generalizing before with
  | nil => simp [Threaded]
  | cons n l ih =>
    have last : ((n :: l).getLast?).or before = (l.getLast?).or (some n) := by
      rw [List.getLast?_cons]
      rcases l.getLast? with _ | m <;> rfl
    have first : ((l ++ r).head?).or after = (l.head?).or ((r.head?).or after) := by
      rcases l with _ | ⟨m, l⟩ <;> rfl
    rw [cons_append, Threaded, Threaded, ih, last, first, and_assoc, and_assoc]

theorem threaded_congr (threaded : Threaded next previous before ns after) (nexts : ∀ n ∈ ns, next' n = next n)
    (previouses : ∀ n ∈ ns, previous' n = previous n) : Threaded next' previous' before ns after := by
  induction ns generalizing before with
  | nil => trivial
  | cons n ns ih =>
    obtain ⟨back, link, rest⟩ := threaded
    refine ⟨previouses n mem_cons_self ▸ back, nexts n mem_cons_self ▸ link, ?_⟩
    exact ih rest (fun m member => nexts m (mem_cons_of_mem _ member))
      (fun m member => previouses m (mem_cons_of_mem _ member))

theorem Threaded.ends [DecidableEq α] {before' after' : Option α} (threaded : Threaded next previous before ns after)
    (nodup : ns.Nodup) (nexts : ∀ n ∈ ns, next' n = if ns.getLast? = some n then after' else next n)
    (previouses : ∀ n ∈ ns, previous' n = if ns.head? = some n then before' else previous n) :
    Threaded next' previous' before' ns after' := by
  induction ns generalizing before before' with
  | nil => trivial
  | cons n ns ih =>
    obtain ⟨-, link, rest⟩ := threaded
    obtain ⟨fresh, nodup⟩ := nodup_cons.mp nodup
    refine ⟨by rw [previouses n mem_cons_self, List.head?_cons, if_pos rfl], ?_, ?_⟩
    · rw [nexts n mem_cons_self]
      rcases ns with _ | ⟨m, ns⟩
      · exact if_pos rfl
      · rw [if_neg, link]
        · rfl
        · intro same
          rw [List.getLast?_cons_cons] at same
          exact fresh (List.mem_of_getLast? same)
    · refine ih rest nodup ?_ ?_
      · intro m member
        rw [nexts m (mem_cons_of_mem _ member)]
        rcases ns with _ | ⟨k, ns⟩
        · cases member
        · rw [List.getLast?_cons_cons]
      · intro m member
        rw [previouses m (mem_cons_of_mem _ member), List.head?_cons]
        have other : n ≠ m := fun same => fresh (same ▸ member)
        rw [if_neg (by simpa using other)]
        rcases ns with _ | ⟨k, ns⟩
        · cases member
        · obtain ⟨own, -⟩ := rest
          rw [List.head?_cons]
          split
          next same => rw [← Option.some_inj.mp same, own]
          next => rfl

theorem Threaded.previous_first (threaded : Threaded next previous before ns after) (first : ns.head? = some n) :
    previous n = before := by
  rcases ns with _ | ⟨m, ns⟩
  · cases first
  · exact Option.some_inj.mp first ▸ threaded.1

theorem Threaded.next_last (threaded : Threaded next previous before ns after) (last : ns.getLast? = some n) :
    next n = after := by
  obtain ⟨l, rfl⟩ := List.getLast?_eq_some_iff.mp last
  obtain ⟨-, -, link, -⟩ := threaded_append.mp threaded
  exact link

theorem Threaded.leads (threaded : Threaded next previous before ns after) :
    Leads next (ns.head?.or after) ns after := by
  induction ns generalizing before with
  | nil => rfl
  | cons n ns ih =>
    obtain ⟨-, link, rest⟩ := threaded
    refine ⟨rfl, ?_⟩
    rw [link]
    exact ih rest

end Besra.PointerChain
