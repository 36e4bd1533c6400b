import Besra.PointerChain
import Mathlib.Data.List.Nodup

/-!
Circular lists with links in both directions and no element of their own at the ends: a list is known by one of its
elements, the head, and `del` and `append` change only links.
-/
namespace Besra.Circular
open PointerChain Function Option List

variable {α σ : Type}

/-- The links of all elements. -/
structure Links (α : Type) where
  next : α → α
  prev : α → α

/-- The elements of a list are linked in its order, the last one with the first. -/
structure Ring (links : Links α) (ns : List α) : Prop where
  nodup : ns.Nodup
  threaded : Threaded (fun n => some (links.next n)) (fun n => some (links.prev n)) ns.getLast? ns ns.head?

namespace Links

variable [DecidableEq α] (links : Links α)

/-- `list_init` -/
def init (ent : α) : Links α := ⟨update links.next ent ent, update links.prev ent ent⟩

/-- `entry->next = target` -/
def setNext (ent target : α) : Links α := { links with next := update links.next ent target }

/-- `entry->prev = target` -/
def setPrev (ent target : α) : Links α := { links with prev := update links.prev ent target }

/-- `list_append`, the four assignments in their order. -/
def append (head new : α) : Links α :=
  let l := (links.setNext new head).setPrev new (links.prev head)
  (l.setNext (l.prev head) new).setPrev head new

/-- `list_del` -/
def del (ent : α) : Links α :=
  let l := links.setNext (links.prev ent) (links.next ent)
  ((l.setPrev (l.next ent) (l.prev ent)).setPrev ent ent).setNext ent ent

end Links

/-- A `do` loop from an element along the links, until it would come to the head or the body breaks. -/
def doWhile [DecidableEq α] (links : Links α) (head : α) (body : α → σ → Option (σ × Bool)) : Nat → α → σ → Option σ
  | 0, _, _ => none
  | fuel + 1, e, s =>
    (body e s).bind fun (s', stopped) =>
      if stopped then some s'
      else if links.next e = head then some s' else doWhile links head body fuel (links.next e) s'

def foldUntil (body : α → σ → Option (σ × Bool)) : List α → σ → Option σ
  | [], s => some s
  | e :: es, s =>
    (body e s).bind fun (s', stopped) => if stopped then some s' else foldUntil body es s'

variable {body : α → σ → Option (σ × Bool)} {s : σ} {ns r l : List α} {n : α}

theorem foldUntil_keeps {P : σ → Prop} (step : ∀ e s, P s → ∃ s' stopped, body e s = some (s', stopped) ∧ P s')
    (es : List α) (start : P s) : ∃ s', foldUntil body es s = some s' ∧ P s' := by
  induction es generalizing s with
  | nil => exact ⟨s, rfl, start⟩
  | cons e es ih =>
    obtain ⟨s', stopped, done, kept⟩ := step e s start
    rw [foldUntil, done, bind_some]
    cases stopped with
    | true => exact ⟨s', rfl, kept⟩
    | false => exact ih kept

theorem Ring.leads {links : Links α} (ring : Ring links ns) :
    Leads (fun n => some (links.next n)) ns.head? ns ns.head? := by
  have leads := ring.threaded.leads
  rwa [Option.or_self] at leads

theorem Ring.next_eq {links : Links α} (ring : Ring links (l ++ n :: r)) :
    some (links.next n) = (r ++ l).head?.or (some n) := by
  obtain ⟨-, -, link, -⟩ := threaded_append.mp ring.threaded
  refine link.trans ?_
  rcases r with _ | ⟨m, r⟩
  · rcases l with _ | ⟨m, l⟩ <;> rfl
  · rfl

theorem Ring.prev_head {links : Links α} (ring : Ring links (n :: r)) :
    some (links.prev n) = (n :: r).getLast? := ring.threaded.1

theorem Ring.prev_head_mem {links : Links α} (ring : Ring links (n :: r)) :
    links.prev n ∈ n :: r := List.mem_of_getLast? ring.prev_head.symm

theorem Ring.next_head_mem {links : Links α} (ring : Ring links (n :: r)) : links.next n ∈ n :: r := by
  have link := ring.threaded.2.1
  rcases r with _ | ⟨m, r⟩
  · rw [show links.next n = n from some_inj.mp link]
    simp
  · rw [some_inj.mp link]
    simp

theorem Ring.rotate {links : Links α} (ring : Ring links (l ++ r)) : Ring links (r ++ l) := by
  rcases l with _ | ⟨n, l⟩
  · simpa using ring
  rcases r with _ | ⟨m, r⟩
  · simpa using ring
  obtain ⟨left, right⟩ := threaded_append.mp ring.threaded
  have lastOf : ∀ (a b : α) (as bs : List α), (as ++ b :: bs).getLast? = (b :: bs).getLast? := fun _ b as bs =>
    List.getLast?_append_of_ne_nil as (cons_ne_nil b bs)
  refine ⟨nodup_append_comm.mp ring.nodup, threaded_append.mpr ⟨?_, ?_⟩⟩
  · rw [lastOf n n]
    rwa [List.getLast?_cons, some_or, ← List.getLast?_cons] at right
  · rw [List.getLast?_cons, some_or, ← List.getLast?_cons]
    rwa [lastOf n m] at left

theorem Ring.congr {links links' : Links α} (ring : Ring links ns) (nexts : ∀ n ∈ ns, links'.next n = links.next n)
    (prevs : ∀ n ∈ ns, links'.prev n = links.prev n) : Ring links' ns :=
  ⟨ring.nodup, threaded_congr ring.threaded (fun n member => congrArg some (nexts n member))
    (fun n member => congrArg some (prevs n member))⟩

theorem doWhile_eq [DecidableEq α] {links : Links α} {head : α} {fuel : Nat} (ring : Ring links (head :: r))
    (enough : (head :: r).length ≤ fuel) : doWhile links head body fuel head s = foldUntil body (head :: r) s := by
  have along : ∀ (rest : List α) (e : α) (fuel : Nat) (s : σ), head ∉ rest → (e :: rest).length ≤ fuel →
      Leads (fun n => some (links.next n)) (some e) (e :: rest) (some head) →
      doWhile links head body fuel e s = foldUntil body (e :: rest) s := by
    intro rest
    induction rest with
    | nil =>
      intro e fuel s _ enough leads
      rcases fuel with _ | fuel
      · simp at enough
      · have back : links.next e = head := some_inj.mp leads.2
        simp only [doWhile, foldUntil, back]
        rfl
    | cons e' rest ih =>
      intro e fuel s fresh enough leads
      rcases fuel with _ | fuel
      · simp at enough
      · obtain ⟨-, leads⟩ := leads
        obtain rfl : links.next e = e' := some_inj.mp leads.1
        have away : links.next e ≠ head := fun same => fresh (same ▸ mem_cons_self)
        have goesOn := fun s => ih (links.next e) fuel s (fun again => fresh (mem_cons_of_mem _ again))
          (by simpa using enough) leads
        simp only [doWhile, foldUntil, if_neg away, goesOn]
  exact along r head fuel s (nodup_cons.mp ring.nodup).1 enough ring.leads

section
variable [DecidableEq α] {links : Links α}

theorem ring_init (links : Links α) (ent : α) : Ring (links.init ent) [ent] := by
  refine ⟨by simp, ?_, ?_, trivial⟩ <;> simp [Links.init]

variable {new head ent : α} {r l ms : List α}

theorem append_next (other : new ≠ head) (n : α) :
    (links.append head new).next n =
      if n = links.prev head then new else if n = new then head else links.next n := by
  simp [Links.append, Links.setNext, Links.setPrev, update_apply, other.symm]

theorem append_prev (head new n : α) :
    (links.append head new).prev n =
      if n = head then new else if n = new then links.prev head else links.prev n := by
  simp [Links.append, Links.setNext, Links.setPrev, update_apply]

theorem del_next (ent n : α) :
    (links.del ent).next n = if n = ent then ent else if n = links.prev ent then links.next ent else links.next n := by
  simp [Links.del, Links.setNext, Links.setPrev, update_apply]

theorem del_prev (ent n : α) :
    (links.del ent).prev n = if n = ent then ent else if n = links.next ent then links.prev ent else links.prev n := by
  have same : (if ent = links.prev ent then links.next ent else links.next ent) = links.next ent := ite_self _
  simp [Links.del, Links.setNext, Links.setPrev, update_apply]

theorem Ring.append (ring : Ring links (head :: r)) (fresh : new ∉ head :: r) :
    Ring (links.append head new) (head :: r ++ [new]) := by
  have other : new ≠ head := fun same => fresh (same ▸ mem_cons_self)
  have last := ring.prev_head
  have lastNew : (head :: r ++ [new]).getLast? = some new := List.getLast?_concat
  refine ⟨nodup_append.mpr ⟨ring.nodup, by simp, ?_⟩, threaded_append.mpr ⟨?_, ?_⟩⟩
  · rintro n member m single rfl
    exact fresh (mem_singleton.mp single ▸ member)
  · rw [lastNew]
    refine ring.threaded.ends ring.nodup ?_ ?_
    · intro n member
      have away : n ≠ new := fun same => fresh (same ▸ member)
      rw [append_next other, ← last, if_neg away]
      by_cases atLast : n = links.prev head
      · simp [atLast]
      · simp [atLast, Ne.symm atLast]
    · intro n member
      have away : n ≠ new := fun same => fresh (same ▸ member)
      rw [append_prev, if_neg away]
      by_cases atHead : n = head
      · simp [atHead]
      · simp [atHead, Ne.symm atHead]
  · have back : new ≠ links.prev head := fun same => fresh (same ▸ ring.prev_head_mem)
    rw [← last, lastNew]
    refine ⟨?_, ?_, trivial⟩
    · simp [append_prev, other]
    · simp [append_next other, back]

theorem Ring.del_head {ns : List α} (ring : Ring links (ent :: ns)) : Ring (links.del ent) ns := by
  obtain ⟨fresh, nodup⟩ := nodup_cons.mp ring.nodup
  obtain ⟨first, link, rest⟩ := ring.threaded
  rcases ns with _ | ⟨m, ms⟩
  · exact ⟨nodup_nil, trivial⟩
  rw [List.getLast?_cons_cons] at first
  refine ⟨nodup, rest.ends nodup ?_ ?_⟩
  · intro n member
    have away : n ≠ ent := fun same => fresh (same ▸ member)
    rw [del_next, if_neg away, ← first, List.head?_cons]
    by_cases atLast : n = links.prev ent
    · rw [if_pos atLast, if_pos (congrArg some atLast.symm)]
      exact link
    · rw [if_neg atLast, if_neg (fun same => atLast (some_inj.mp same).symm)]
  · intro n member
    have away : n ≠ ent := fun same => fresh (same ▸ member)
    have link : links.next ent = m := some_inj.mp link
    rw [del_prev, if_neg away, ← first, List.head?_cons, link]
    by_cases atHead : n = m
    · rw [if_pos atHead, if_pos (congrArg some atHead.symm)]
    · rw [if_neg atHead, if_neg (fun same => atHead (some_inj.mp same).symm)]

theorem Ring.del (ring : Ring links (l ++ ent :: r)) : Ring (links.del ent) (r ++ l) := by
  have turned : Ring links (ent :: (r ++ l)) := by simpa using ring.rotate
  exact turned.del_head

theorem Ring.apart_append (other : Ring links ms) (ring : Ring links (head :: r)) (fresh : new ∉ head :: r)
    (apart : ∀ n ∈ ms, n ∉ head :: r ++ [new]) : Ring (links.append head new) ms := by
  have away : new ≠ head := fun same => fresh (same ▸ mem_cons_self)
  have back := ring.prev_head_mem
  refine other.congr (fun n member => ?_) (fun n member => ?_)
  · have outside := apart n member
    rw [append_next away, if_neg (fun same : n = links.prev head => outside (mem_append_left _ (same ▸ back))),
      if_neg (fun same => outside (by simp [same]))]
  · have outside := apart n member
    rw [append_prev, if_neg (fun same => outside (by simp [same])), if_neg (fun same => outside (by simp [same]))]

theorem Ring.apart_del (other : Ring links ms) (ring : Ring links (l ++ ent :: r))
    (apart : ∀ n ∈ ms, n ∉ l ++ ent :: r) : Ring (links.del ent) ms := by
  have turned : Ring links (ent :: (r ++ l)) := by simpa using ring.rotate
  have inside : ∀ n ∈ ms, n ∉ ent :: (r ++ l) := fun n member among => apart n member (by
    simp only [mem_cons, mem_append] at among ⊢
    tauto)
  have nextInside := turned.next_head_mem
  have prevInside := turned.prev_head_mem
  refine other.congr (fun n member => ?_) (fun n member => ?_)
  · have outside := inside n member
    rw [del_next, if_neg (fun same => outside (by simp [same])),
      if_neg (fun same : n = links.prev ent => outside (same ▸ prevInside))]
  · have outside := inside n member
    rw [del_prev, if_neg (fun same => outside (by simp [same])),
      if_neg (fun same : n = links.next ent => outside (same ▸ nextInside))]

end

end Besra.Circular
