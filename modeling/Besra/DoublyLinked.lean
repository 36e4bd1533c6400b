import Mathlib.Logic.Function.Basic
import Besra.PointerChain

/-!
Doubly linked lists with a pointer to the first and to the last node of each, in one
memory. A node can be taken out (`Linked.unlink`), another one put in its place
(`Linked.replace`), and one put behind the last (`Linked.append`); the lists stay linked,
and those of others are as they were.
-/
namespace Besra.DoublyLinked
open PointerChain Function List

structure Chains (ι α : Type) where
  next : α → Option α
  prev : α → Option α
  first : ι → Option α
  last : ι → Option α

variable {ι α : Type}

structure Linked (c : Chains ι α) (lists : ι → List α) : Prop where
  threaded : ∀ i, Threaded c.next c.prev none (lists i) none
  first : ∀ i, c.first i = (lists i).head?
  last : ∀ i, c.last i = (lists i).getLast?
  apart : ∀ i j n, n ∈ lists i → n ∈ lists j → i = j

theorem Linked.leads {c : Chains ι α} {lists : ι → List α} (linked : Linked c lists) (i : ι) :
    Leads c.next (c.first i) (lists i) none := by
  have leads := (linked.threaded i).leads
  rwa [Option.or_none, ← linked.first] at leads

theorem Linked.nodup {c : Chains ι α} {lists : ι → List α} (linked : Linked c lists) (i : ι) : (lists i).Nodup :=
  leads_nodup (linked.leads i)

variable [DecidableEq ι] [DecidableEq α]

def Chains.linkAfter (c : Chains ι α) (i : ι) (p v : Option α) : Chains ι α :=
  match p with
  | some n => { c with next := update c.next n v }
  | none => { c with first := update c.first i v }

def Chains.linkBefore (c : Chains ι α) (i : ι) (q v : Option α) : Chains ι α :=
  match q with
  | some n => { c with prev := update c.prev n v }
  | none => { c with last := update c.last i v }

theorem update_eq (h : α → Option α) (n : α) (v : Option α) : update h n v = fun m => if n = m then v else h m :=
  funext fun m => by rw [update_apply]; simp only [eq_comm]

theorem linkAfter_eq (c : Chains ι α) (i : ι) (p v : Option α) : c.linkAfter i p v = { c with
    next := fun n => if p = some n then v else c.next n
    first := fun j => if p = none ∧ j = i then v else c.first j } := by
  rcases p with _ | n
  · simp only [Chains.linkAfter, funext (update_apply c.first i v), reduceCtorEq, if_false, true_and]
  · simp only [Chains.linkAfter, update_eq, reduceCtorEq, false_and, if_false, Option.some_inj]

theorem linkBefore_eq (c : Chains ι α) (i : ι) (q v : Option α) : c.linkBefore i q v = { c with
    prev := fun n => if q = some n then v else c.prev n
    last := fun j => if q = none ∧ j = i then v else c.last j } := by
  rcases q with _ | n
  · simp only [Chains.linkBefore, funext (update_apply c.last i v), reduceCtorEq, if_false, true_and]
  · simp only [Chains.linkBefore, update_eq, reduceCtorEq, false_and, if_false, Option.some_inj]

def Chains.unlink (c : Chains ι α) (i : ι) (n : α) : Chains ι α :=
  let c := c.linkAfter i (c.prev n) (c.next n)
  c.linkBefore i (c.next n) (c.prev n)

def Chains.unlinkBack (c : Chains ι α) (i : ι) (n : α) : Chains ι α :=
  let c := c.linkBefore i (c.next n) (c.prev n)
  c.linkAfter i (c.prev n) (c.next n)

def Chains.replace (c : Chains ι α) (i : ι) (n m : α) : Chains ι α :=
  let c := { c with prev := update c.prev m (c.prev n) }
  let c := { c with next := update c.next m (c.next n) }
  let c := c.linkBefore i (c.next m) (some m)
  c.linkAfter i (c.prev m) (some m)

def Chains.append (c : Chains ι α) (i : ι) (m : α) : Chains ι α :=
  let c := { c with prev := update c.prev m (c.last i), next := update c.next m none }
  let c := c.linkAfter i (c.last i) (some m)
  { c with last := update c.last i (some m) }

variable {c c' : Chains ι α} {lists : ι → List α} {i : ι} {l r : List α}

/-- Other nodes in the middle of one list. -/
theorem Linked.splice {old new : List α} (linked : Linked c lists) (is : lists i = l ++ old ++ r)
    (middle : Threaded c'.next c'.prev (l.getLast?) new r.head?) (fresh : ∀ j, ∀ n ∈ new, n ∉ lists j)
    (nexts : ∀ n, n ∉ new → n ∉ old → c'.next n = if l.getLast? = some n then (new ++ r).head? else c.next n)
    (prevs : ∀ n, n ∉ new → n ∉ old → c'.prev n = if r.head? = some n then (l ++ new).getLast? else c.prev n)
    (firsts : ∀ j, c'.first j = if j = i then (l ++ new ++ r).head? else c.first j)
    (lasts : ∀ j, c'.last j = if j = i then (l ++ new ++ r).getLast? else c.last j) :
    Linked c' (update lists i (l ++ new ++ r)) := by
  have nodup := linked.nodup i
  rw [is, append_assoc, nodup_append, nodup_append] at nodup
  obtain ⟨nodupL, ⟨-, nodupR, oldR⟩, apartL⟩ := nodup
  have inL : ∀ {n}, n ∈ l → n ∈ lists i := fun member => by rw [is]; simp [member]
  have inR : ∀ {n}, n ∈ r → n ∈ lists i := fun member => by rw [is]; simp [member]
  have threaded := linked.threaded i
  rw [is, append_assoc, threaded_append] at threaded
  obtain ⟨front, back⟩ := threaded
  rw [threaded_append] at back
  refine ⟨?_, ?_, ?_, ?_⟩
  · intro j
    by_cases same : j = i
    · subst same
      rw [update_self, append_assoc, threaded_append, threaded_append]
      refine ⟨?_, ?_, ?_⟩
      · refine front.ends nodupL ?_ ?_
        · intro n member
          rw [nexts n (fun inside => fresh j n inside (inL member))
            (fun inside => apartL n member n (mem_append_left _ inside) rfl), Option.or_none]
        · intro n member
          have unmoved : r.head? ≠ some n := fun head =>
            apartL n member n (mem_append_right _ (List.mem_of_head? head)) rfl
          rw [prevs n (fun inside => fresh j n inside (inL member))
            (fun inside => apartL n member n (mem_append_left _ inside) rfl), if_neg unmoved]
          split
          next head => rw [front.previous_first head]
          next => rfl
      · rwa [Option.or_none, Option.or_none]
      · refine back.2.ends nodupR ?_ ?_
        · intro n member
          have unmoved : l.getLast? ≠ some n := fun last =>
            apartL n (List.mem_of_getLast? last) n (mem_append_right _ member) rfl
          rw [nexts n (fun inside => fresh j n inside (inR member)) (fun inside => oldR n inside n member rfl),
            if_neg unmoved]
          split
          next last => rw [back.2.next_last last]
          next => rfl
        · intro n member
          rw [prevs n (fun inside => fresh j n inside (inR member)) (fun inside => oldR n inside n member rfl),
            List.getLast?_append, Option.or_none]
    · rw [update_of_ne same]
      have out : ∀ n ∈ lists j, n ∉ lists i := fun n member inside => same (linked.apart j i n member inside)
      refine threaded_congr (linked.threaded j) ?_ ?_
      · intro n member
        have notOld : n ∉ old := fun inside => out n member (by rw [is]; simp [inside])
        rw [nexts n (fun inside => fresh j n inside member) notOld, if_neg]
        exact fun last => out n member (inL (List.mem_of_getLast? last))
      · intro n member
        have notOld : n ∉ old := fun inside => out n member (by rw [is]; simp [inside])
        rw [prevs n (fun inside => fresh j n inside member) notOld, if_neg]
        exact fun head => out n member (inR (List.mem_of_head? head))
  · intro j
    rw [firsts, update_apply]
    split
    · rfl
    · exact linked.first j
  · intro j
    rw [lasts, update_apply]
    split
    · rfl
    · exact linked.last j
  · have inside : ∀ j n, n ∈ update lists i (l ++ new ++ r) j → n ∈ lists j ∨ j = i ∧ n ∈ new := by
      intro j n member
      by_cases same : j = i
      · subst same
        rw [update_self, mem_append, mem_append] at member
        rcases member with (inside | inside) | inside
        · exact .inl (inL inside)
        · exact .inr ⟨rfl, inside⟩
        · exact .inl (inR inside)
      · rw [update_of_ne same] at member
        exact .inl member
    intro j k n here there
    rcases inside j n here with before | ⟨rfl, added⟩ <;> rcases inside k n there with before' | ⟨rfl, added'⟩
    · exact linked.apart j k n before before'
    · exact absurd before (fresh j n added')
    · exact absurd before' (fresh k n added)
    · rfl

omit [DecidableEq ι] [DecidableEq α] in
theorem Linked.around (linked : Linked c lists) {n : α} (is : lists i = l ++ n :: r) :
    c.prev n = l.getLast? ∧ c.next n = r.head? := by
  have threaded := linked.threaded i
  rw [is, threaded_append] at threaded
  obtain ⟨-, before, after, -⟩ := threaded
  rw [Option.or_none] at before after
  exact ⟨before, after⟩

theorem unlink_eq (linked : Linked c lists) {n : α} (is : lists i = l ++ n :: r) : c.unlink i n =
    { next := fun k => if l.getLast? = some k then r.head? else c.next k
      prev := fun k => if r.head? = some k then l.getLast? else c.prev k
      first := fun j => if l.getLast? = none ∧ j = i then r.head? else c.first j
      last := fun j => if r.head? = none ∧ j = i then l.getLast? else c.last j } := by
  obtain ⟨before, after⟩ := linked.around is
  rw [Chains.unlink, before, after, linkAfter_eq]
  dsimp only
  have apart : l.getLast? ≠ some n := by
    intro last
    have nodup := linked.nodup i
    rw [is, nodup_append] at nodup
    exact nodup.2.2 n (List.mem_of_getLast? last) n mem_cons_self rfl
  rw [if_neg apart, after, linkBefore_eq, before]

theorem unlinkBack_eq (linked : Linked c lists) {n : α} (is : lists i = l ++ n :: r) :
    c.unlinkBack i n = c.unlink i n := by
  obtain ⟨before, after⟩ := linked.around is
  have apart : r.head? ≠ some n := by
    intro head
    have nodup := linked.nodup i
    rw [is, nodup_append] at nodup
    exact (nodup_cons.mp nodup.2.1).1 (List.mem_of_head? head)
  rw [unlink_eq linked is, Chains.unlinkBack, before, after, linkBefore_eq]
  dsimp only
  rw [if_neg apart, before, after, linkAfter_eq]

theorem Linked.unlink (linked : Linked c lists) {n : α} (is : lists i = l ++ n :: r) :
    Linked (c.unlink i n) (update lists i (l ++ r)) := by
  have spliced := @Linked.splice ι α _ _ c (c.unlink i n) lists i l r [n] [] linked (by rw [is]; simp) trivial
    (fun _ _ inside => absurd inside not_mem_nil)
  rw [append_nil] at spliced
  refine spliced ?_ ?_ ?_ ?_ <;> rw [unlink_eq linked is]
  · intro k _ _
    rfl
  · intro k _ _
    rfl
  · intro j
    dsimp only
    rw [linked.first, List.head?_append]
    by_cases same : j = i
    · subst same
      rcases l with _ | ⟨m, l⟩ <;> simp [is]
    · simp [same]
  · intro j
    dsimp only
    rw [linked.last, List.getLast?_append]
    by_cases same : j = i
    · subst same
      rcases r with _ | ⟨m, r⟩ <;> simp [is]
    · simp [same]

/-- A new node between the front and the back of a list, in place of what is there. -/
theorem Linked.put (linked : Linked c lists) {old : List α} {m : α} (is : lists i = l ++ old ++ r)
    (fresh : ∀ j, m ∉ lists j) :
    Linked
      { next := fun k => if l.getLast? = some k then some m else if k = m then r.head? else c.next k
        prev := fun k => if r.head? = some k then some m else if k = m then l.getLast? else c.prev k
        first := fun j => if l.getLast? = none ∧ j = i then some m else c.first j
        last := fun j => if r.head? = none ∧ j = i then some m else c.last j } (update lists i (l ++ m :: r)) := by
  have inL : l.getLast? ≠ some m := fun last => fresh i (by rw [is]; simp [List.mem_of_getLast? last])
  have inR : r.head? ≠ some m := fun head => fresh i (by rw [is]; simp [List.mem_of_head? head])
  have whole : l ++ m :: r = l ++ [m] ++ r := by simp
  rw [whole]
  refine linked.splice is ?_ ?_ ?_ ?_ ?_ ?_
  · exact ⟨by simp [inR], by simp [inL], trivial⟩
  · intro j k inside
    rw [mem_singleton.mp inside]
    exact fresh j
  · intro k notNew _
    have other : k ≠ m := fun same => notNew (mem_singleton.mpr same)
    simp [other]
  · intro k notNew _
    have other : k ≠ m := fun same => notNew (mem_singleton.mpr same)
    simp [other]
  · intro j
    by_cases same : j = i
    · subst same
      rcases l with _ | ⟨k, l⟩ <;> simp [linked.first, is, List.getLast?_cons]
    · simp [same]
  · intro j
    by_cases same : j = i
    · subst same
      rcases r with _ | ⟨k, r⟩ <;> simp [linked.last, is, List.getLast?_cons]
    · simp [same]

theorem Linked.replace (linked : Linked c lists) {n m : α} (is : lists i = l ++ n :: r) (fresh : ∀ j, m ∉ lists j) :
    Linked (c.replace i n m) (update lists i (l ++ m :: r)) := by
  obtain ⟨before, after⟩ := linked.around is
  have inR : r.head? ≠ some m := fun head => fresh i (by rw [is]; simp [List.mem_of_head? head])
  rw [append_cons] at is
  refine Eq.subst (motive := fun c => Linked c _) ?_ (linked.put is fresh)
  rw [Chains.replace]
  dsimp only
  rw [update_self, before, after, linkBefore_eq]
  dsimp only
  rw [if_neg inR, update_self, linkAfter_eq]
  simp only [update_apply]

theorem Linked.append (linked : Linked c lists) {m : α} (fresh : ∀ j, m ∉ lists j) :
    Linked (c.append i m) (update lists i (lists i ++ [m])) := by
  refine Eq.subst (motive := fun c => Linked c _) ?_ (@Linked.put _ _ _ _ c lists i (lists i) [] linked [] m (by simp) fresh)
  rw [Chains.append]
  dsimp only
  rw [linked.last, linkAfter_eq, funext (update_apply c.prev m _), funext (update_apply c.last i _)]
  simp only [update_apply, head?_nil, reduceCtorEq, if_false, true_and]

end Besra.DoublyLinked
