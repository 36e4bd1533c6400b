import Besra.Circular
import Besra.HashChain

/-!
The listeners of the nodes, each node with a circular list of them in memory: `_dom_event_target_add_event_listener`
and `_dom_event_target_remove_event_listener` of `libdom/src/events/event_target.c`. What a node's list is from its
head on is kept by lists alone (`track`), and every call keeps the memory as these lists say (`Shows`).
-/
namespace Besra.EventTarget
open Circular Function List
open HashChain (Malloc)

/-- The bytes of a `dom_string`; NULL compares as the empty one. -/
abbrev DomString := List UInt8

/-- `listener_entry` without its links. `since` is not in memory: the number of the call that has
registered the listener. -/
structure ListenerEntry (ℓ : Type) where
  type : DomString
  listener : ℓ
  capture : Bool
  since : Nat
deriving DecidableEq

/-- `dom_event_target_internal` of all nodes, with the memory that the entries are in, the addresses in use
and the number of calls so far. -/
structure EventTargets (ν ℓ : Type) where
  listeners : ν → Option Nat
  entry : Nat → Option (ListenerEntry ℓ)
  links : Links Nat
  allocated : List Nat
  calls : Nat

inductive DomException where
  | noErr
  | noMemErr
  | dispatchRequestErr
  | unspecifiedEventTypeErr
deriving DecidableEq

/-- `_dom_event_target_internal_initialise` of all nodes. -/
def initialise {ν ℓ : Type} : EventTargets ν ℓ := ⟨fun _ => none, fun _ => none, ⟨id, id⟩, [], 0⟩

variable {ν ℓ : Type} [DecidableEq ν] [DecidableEq ℓ]

omit [DecidableEq ℓ] in
/-- `_dom_event_target_add_event_listener` -/
def addEventListener (targets : EventTargets ν ℓ) (et : ν) (type : DomString) (listener : ℓ) (capture : Bool)
    (mem : Malloc) : EventTargets ν ℓ × DomException :=
  match mem.malloc targets.allocated with
  | none => ({ targets with calls := targets.calls + 1 }, .noMemErr)
  | some le =>
    let added : EventTargets ν ℓ :=
      { targets with
        entry := update targets.entry le (some ⟨type, listener, capture, targets.calls⟩)
        links := targets.links.init le
        allocated := le :: targets.allocated
        calls := targets.calls + 1 }
    match targets.listeners et with
    | none => ({ added with listeners := update targets.listeners et (some le) }, .noErr)
    | some head => ({ added with links := added.links.append head le }, .noErr)

def isAbout (type : Option DomString) (listener : ℓ) (capture : Bool) (le : ListenerEntry ℓ) : Bool :=
  match type with
  | none => le.listener == listener
  | some type => le.type == type && le.listener == listener && le.capture == capture

/-- The loop of a removal: the first entry that it is about. Without a value where freed memory is read. -/
def findEntry (targets : EventTargets ν ℓ) (about : ListenerEntry ℓ → Bool) (head : Nat) : Option (Option Nat) :=
  doWhile targets.links head
    (fun le _ => (targets.entry le).map fun entry => if about entry then (some le, true) else (none, false))
    targets.allocated.length head none

def unlinkEntry (targets : EventTargets ν ℓ) (et : ν) (le : Nat) : EventTargets ν ℓ :=
  { targets with
    listeners := update targets.listeners et
      (if targets.links.next le = le then none else some (targets.links.next le))
    links := targets.links.del le
    entry := update targets.entry le none
    allocated := targets.allocated.erase le }

/-- `_dom_event_target_remove_event_listener` -/
def removeEventListener (targets : EventTargets ν ℓ) (et : ν) (type : Option DomString) (listener : ℓ)
    (capture : Bool) : Option (EventTargets ν ℓ × DomException) :=
  let targets := { targets with calls := targets.calls + 1 }
  match targets.listeners et with
  | none => some (targets, .noErr)
  | some head =>
    (findEntry targets (isAbout type listener capture) head).map fun
      | none => (targets, .noErr)
      | some le => (unlinkEntry targets et le, .noErr)

abbrev Lists (ν ℓ : Type) := ν → List (ListenerEntry ℓ)

def turned (about : ListenerEntry ℓ → Bool) (entries : List (ListenerEntry ℓ)) : List (ListenerEntry ℓ) :=
  match entries.dropWhile (!about ·) with
  | [] => entries
  | _ :: rest => rest ++ entries.takeWhile (!about ·)

/-- A call on the listeners of a node, with the memory that an addition is given. -/
inductive Call (ν ℓ : Type) where
  | add (et : ν) (type : DomString) (listener : ℓ) (capture : Bool) (mem : Malloc)
  | remove (et : ν) (type : Option DomString) (listener : ℓ) (capture : Bool)

def call (targets : EventTargets ν ℓ) : Call ν ℓ → Option (EventTargets ν ℓ × DomException)
  | .add et type listener capture mem => some (addEventListener targets et type listener capture mem)
  | .remove et type listener capture => removeEventListener targets et type listener capture

def track (number : Nat) (lists : Lists ν ℓ) : Call ν ℓ → DomException → Lists ν ℓ
  | .add et type listener capture _, .noErr =>
    update lists et (lists et ++ [⟨type, listener, capture, number⟩])
  | .remove et type listener capture, .noErr =>
    update lists et (turned (isAbout type listener capture) (lists et))
  | _, _ => lists

def run : EventTargets ν ℓ × Lists ν ℓ → List (Call ν ℓ) → Option (EventTargets ν ℓ × Lists ν ℓ)
  | start, [] => some start
  | (targets, lists), c :: calls =>
    (call targets c).bind fun (targets', error) => run (targets', track targets.calls lists c error) calls

/-- In memory the lists of the nodes are these, with these addresses. -/
structure Shows (targets : EventTargets ν ℓ) (lists : Lists ν ℓ) (own : ν → List Nat) : Prop where
  rings : ∀ et, Ring targets.links (own et)
  heads : ∀ et, targets.listeners et = (own et).head?
  entries : ∀ et, (own et).map targets.entry = (lists et).map some
  inUse : ∀ et, own et ⊆ targets.allocated
  apart : ∀ et et', et ≠ et' → ∀ le ∈ own et, le ∉ own et'
  numbered : ∀ et, ∀ e ∈ lists et, e.since < targets.calls

variable {targets targets' : EventTargets ν ℓ} {lists : Lists ν ℓ} {own : ν → List Nat}

omit [DecidableEq ν] [DecidableEq ℓ] in
theorem shows_initialise : Shows (initialise : EventTargets ν ℓ) (fun _ => []) (fun _ => []) where
  rings _ := ⟨nodup_nil, trivial⟩
  heads _ := rfl
  entries _ := rfl
  inUse _ := nil_subset _
  apart _ _ _ _ among := absurd among not_mem_nil
  numbered _ _ among := absurd among not_mem_nil

omit [DecidableEq ν] [DecidableEq ℓ] in
theorem Shows.enough (shows : Shows targets lists own) (et : ν) : (own et).length ≤ targets.allocated.length :=
  ((shows.rings et).nodup.subperm (shows.inUse et)).length_le

omit [DecidableEq ν] [DecidableEq ℓ] in
theorem Shows.counted (shows : Shows targets lists own) :
    Shows { targets with calls := targets.calls + 1 } lists own where
  rings := shows.rings
  heads := shows.heads
  entries := shows.entries
  inUse := shows.inUse
  apart := shows.apart
  numbered et e among := Nat.lt_succ_of_lt (shows.numbered et e among)

omit [DecidableEq ν] [DecidableEq ℓ] in
theorem Shows.foldUntil_eq (shows : Shows targets lists own) {σ : Type} {et : ν} {head : Nat}
    (first : targets.listeners et = some head) (body : ListenerEntry ℓ → σ → Option (σ × Bool)) (s : σ) :
    doWhile targets.links head (fun le s => (targets.entry le).bind fun entry => body entry s)
      targets.allocated.length head s = foldUntil body (lists et) s := by
  have enough := shows.enough et
  have entries := shows.entries et
  have ring := shows.rings et
  rw [shows.heads et] at first
  obtain ⟨r, owned⟩ := List.head?_eq_some_iff.mp first
  rw [owned] at ring enough
  rw [doWhile_eq ring enough, ← owned]
  clear owned ring enough first
  generalize own et = as at entries
  generalize lists et = es at entries
  induction as generalizing es s with
  | nil =>
    rw [map_nil, eq_comm, map_eq_nil_iff] at entries
    rw [entries]
    rfl
  | cons a as ih =>
    rcases es with _ | ⟨e, es⟩
    · simp at entries
    · obtain ⟨entry, rest⟩ := List.cons.inj entries
      simp only [foldUntil, entry, Option.bind_some, ih _ _ rest]

omit [DecidableEq ν] [DecidableEq ℓ] in
theorem Shows.findEntry_eq (shows : Shows targets lists own) {et : ν} {head : Nat}
    (first : targets.listeners et = some head) (about : ListenerEntry ℓ → Bool) :
    ∃ found, findEntry targets about head = some found ∧
      ((found = none ∧ (lists et).dropWhile (!about ·) = []) ∨
        ∃ le l r entry rest, found = some le ∧ own et = l ++ le :: r ∧
          (lists et).dropWhile (!about ·) = entry :: rest ∧ l.map targets.entry =
            ((lists et).takeWhile (!about ·)).map some ∧ r.map targets.entry = rest.map some) := by
  have enough := shows.enough et
  have entries := shows.entries et
  have ring := shows.rings et
  rw [shows.heads et] at first
  obtain ⟨r, owned⟩ := List.head?_eq_some_iff.mp first
  rw [owned] at ring enough
  unfold findEntry
  rw [doWhile_eq ring enough, ← owned]
  clear owned ring enough first r
  generalize own et = as at entries
  generalize lists et = es at entries
  induction as generalizing es with
  | nil =>
    rw [map_nil, eq_comm, map_eq_nil_iff] at entries
    exact ⟨none, rfl, .inl ⟨rfl, by simp [entries]⟩⟩
  | cons a as ih =>
    rcases es with _ | ⟨e, es⟩
    · simp at entries
    · obtain ⟨entry, rest⟩ := List.cons.inj entries
      by_cases hit : about e = true
      · refine ⟨some a, by simp [foldUntil, entry, hit], .inr ⟨a, [], as, e, es, rfl, rfl, ?_, ?_, rest⟩⟩
        · simp [hit]
        · simp [hit]
      · obtain ⟨found, done, cases⟩ := ih es rest
        refine ⟨found, by simpa [foldUntil, entry, hit] using done, ?_⟩
        rcases cases with ⟨missing, none⟩ | ⟨le, l, r, entry', rest', hitAt, whole, dropped, before, after⟩
        · exact .inl ⟨missing, by simpa [hit] using none⟩
        · exact .inr ⟨le, a :: l, r, entry', rest', hitAt, by rw [whole]; rfl, by simpa [hit] using dropped,
            by simpa [hit, entry] using before, after⟩

omit [DecidableEq ℓ] in
theorem Shows.change (shows : Shows targets lists own) {et : ν} {as : List Nat} {es : List (ListenerEntry ℓ)}
    (heads : targets'.listeners = update targets.listeners et as.head?) (ring : Ring targets'.links as)
    (rings : ∀ et', et' ≠ et → Ring targets'.links (own et')) (entries : as.map targets'.entry = es.map some)
    (same : ∀ et', et' ≠ et → ∀ le ∈ own et', targets'.entry le = targets.entry le ∧ le ∈ targets'.allocated ∧ le ∉ as)
    (inUse : as ⊆ targets'.allocated) (numbered : ∀ e ∈ es, e.since < targets'.calls)
    (later : targets.calls ≤ targets'.calls) :
    Shows targets' (update lists et es) (update own et as) where
  rings et' := by
    by_cases here : et' = et
    · rwa [here, update_self]
    · rw [update_of_ne here]
      exact rings et' here
  heads et' := by
    rw [heads]
    by_cases here : et' = et
    · rw [here, update_self, update_self]
    · rw [update_of_ne here, update_of_ne here, shows.heads]
  entries et' := by
    by_cases here : et' = et
    · rwa [here, update_self, update_self]
    · rw [update_of_ne here, update_of_ne here, ← shows.entries]
      exact map_congr_left fun le member => (same et' here le member).1
  inUse et' := by
    by_cases here : et' = et
    · rwa [here, update_self]
    · rw [update_of_ne here]
      exact fun le member => (same et' here le member).2.1
  apart et₁ et₂ other le member := by
    by_cases here : et₁ = et
    · subst here
      rw [update_self] at member
      rw [update_of_ne (Ne.symm other)]
      exact fun among => (same et₂ (Ne.symm other) le among).2.2 member
    · rw [update_of_ne here] at member
      by_cases there : et₂ = et
      · rw [there, update_self]
        exact (same et₁ here le member).2.2
      · rw [update_of_ne there]
        exact shows.apart et₁ et₂ other le member
  numbered et' e among := by
    by_cases here : et' = et
    · rw [here, update_self] at among
      exact numbered e among
    · rw [update_of_ne here] at among
      exact Nat.lt_of_lt_of_le (shows.numbered et' e among) later

theorem Shows.add (shows : Shows targets lists own) (et : ν) (type : DomString) (listener : ℓ) (capture : Bool)
    (mem : Malloc) :
    ∃ own', Shows (addEventListener targets et type listener capture mem).1
      (track targets.calls lists (.add et type listener capture mem)
        (addEventListener targets et type listener capture mem).2) own' := by
  unfold addEventListener
  rcases given : mem.malloc targets.allocated with _ | le
  · exact ⟨own, shows.counted⟩
  have fresh : le ∉ targets.allocated := mem.fresh _ _ given
  have outside : ∀ et', le ∉ own et' := fun et' among => fresh (shows.inUse et' among)
  have away : ∀ et', ∀ a ∈ own et', a ≠ le := fun et' a member same => outside et' (same ▸ member)
  have entries : (own et ++ [le]).map
      (update targets.entry le (some (⟨type, listener, capture, targets.calls⟩ : ListenerEntry ℓ))) =
        (lists et ++ [(⟨type, listener, capture, targets.calls⟩ : ListenerEntry ℓ)]).map some := by
    rw [map_append, map_append, ← shows.entries]
    simp only [map_cons, map_nil, update_self]
    rw [map_congr_left fun a member => update_of_ne (away et a member) _ _]
  have initRing : ∀ et', Ring (targets.links.init le) (own et') := fun et' => (shows.rings et').congr
    (fun a member => update_of_ne (away et' a member) _ _)
    (fun a member => update_of_ne (away et' a member) _ _)
  have same : ∀ et', et' ≠ et → ∀ a ∈ own et',
      update targets.entry le (some ⟨type, listener, capture, targets.calls⟩) a = targets.entry a ∧
        a ∈ le :: targets.allocated ∧ a ∉ own et ++ [le] := by
    intro et' other a member
    refine ⟨update_of_ne (away et' a member) _ _,
      mem_cons_of_mem _ (shows.inUse et' member), fun among => ?_⟩
    rcases mem_append.mp among with own | new
    · exact shows.apart et' et other a member own
    · exact outside et' (mem_singleton.mp new ▸ member)
  have inUse : own et ++ [le] ⊆ le :: targets.allocated := by
    intro a among
    rcases mem_append.mp among with own | new
    · exact mem_cons_of_mem _ (shows.inUse et own)
    · exact mem_singleton.mp new ▸ mem_cons_self
  have numbered : ∀ e ∈ lists et ++ [(⟨type, listener, capture, targets.calls⟩ : ListenerEntry ℓ)],
      e.since < targets.calls + 1 := by
    intro e among
    rcases mem_append.mp among with old | new
    · exact Nat.lt_succ_of_lt (shows.numbered et e old)
    · rw [mem_singleton.mp new]
      exact Nat.lt_succ_self _
  rcases first : targets.listeners et with _ | head
  · have empty : own et = [] := by simpa [shows.heads et] using first
    rw [empty] at entries same inUse
    refine ⟨update own et [le], shows.change (by rw [List.head?_cons]) (ring_init _ le)
      (fun et' _ => initRing et') entries same inUse numbered (Nat.le_succ _)⟩
  · obtain ⟨r, owned⟩ := List.head?_eq_some_iff.mp ((shows.heads et).symm.trans first)
    have ring := initRing et
    have freshHere := outside et
    rw [owned] at ring freshHere entries inUse
    refine ⟨update own et (head :: r ++ [le]), shows.change ?_ (ring.append freshHere) ?_ entries ?_ inUse
      numbered (Nat.le_succ _)⟩
    · exact (update_eq_self_iff.mpr (by rw [first]; rfl)).symm
    · intro et' other
      refine (initRing et').apart_append ring freshHere fun a member => ?_
      rw [← owned]
      exact (same et' other a member).2.2
    · rwa [owned] at same

omit [DecidableEq ℓ] in
variable {entries : List (ListenerEntry ℓ)} {about : ListenerEntry ℓ → Bool}

theorem turned_of_missing (missing : entries.dropWhile (!about ·) = []) : turned about entries = entries := by
  rw [turned, missing]

omit [DecidableEq ℓ] in
theorem turned_of_found {rest : List (ListenerEntry ℓ)} {entry : ListenerEntry ℓ}
    (found : entries.dropWhile (!about ·) = entry :: rest) :
    turned about entries = rest ++ entries.takeWhile (!about ·) := by
  rw [turned, found]

omit [DecidableEq ℓ] in
theorem mem_of_mem_turned {e : ListenerEntry ℓ} (among : e ∈ turned about entries) : e ∈ entries := by
  have whole := takeWhile_append_dropWhile (p := (!about ·)) (l := entries)
  rcases dropped : entries.dropWhile (!about ·) with _ | ⟨entry, rest⟩
  · rwa [turned_of_missing dropped] at among
  · rw [turned_of_found dropped] at among
    rw [← whole, dropped]
    simp only [mem_append, mem_cons] at among ⊢
    tauto

theorem Shows.remove (shows : Shows targets lists own) (et : ν) (type : Option DomString) (listener : ℓ)
    (capture : Bool) :
    ∃ targets' own', removeEventListener targets et type listener capture = some (targets', .noErr) ∧
      Shows targets' (update lists et (turned (isAbout type listener capture) (lists et))) own' := by
  have shows := shows.counted
  have unchanged : (lists et).dropWhile (!isAbout type listener capture ·) = [] →
      update lists et (turned (isAbout type listener capture) (lists et)) = lists := fun missing => by
    rw [turned_of_missing missing, update_eq_self]
  unfold removeEventListener
  generalize { targets with calls := targets.calls + 1 } = targets at shows
  rcases first : targets.listeners et with _ | head
  · have empty : own et = [] := List.head?_eq_none_iff.mp ((shows.heads et).symm.trans first)
    have missing : lists et = [] := map_eq_nil_iff.mp ((shows.entries et).symm.trans (by rw [empty]; rfl))
    refine ⟨targets, own, by simp only [first], ?_⟩
    rw [unchanged (by rw [missing]; rfl)]
    exact shows
  obtain ⟨found, done, cases⟩ := shows.findEntry_eq first (isAbout type listener capture)
  rcases cases with ⟨rfl, missing⟩ | ⟨le, l, r, entry, rest, rfl, owned, dropped, before, after⟩
  · refine ⟨targets, own, by simp only [first, done]; rfl, ?_⟩
    rw [unchanged missing]
    exact shows
  refine ⟨unlinkEntry targets et le, update own et (r ++ l), by simp only [first, done]; rfl, ?_⟩
  have ring := shows.rings et
  rw [owned] at ring
  have away : ∀ a ∈ r ++ l, a ≠ le := by
    rintro a member rfl
    have turned := ring.rotate
    rw [cons_append] at turned
    exact (nodup_cons.mp turned.nodup).1 member
  have inside : ∀ a ∈ r ++ l, a ∈ own et := fun a member => by
    rw [owned]
    simp only [mem_append, mem_cons] at member ⊢
    tauto
  have leaves : ∀ et', ∀ a ∈ own et', a ≠ le → a ∈ targets.allocated.erase le := fun et' a member other =>
    (mem_erase_of_ne other).mpr (shows.inUse et' member)
  refine shows.change ?_ ring.del ?_ ?_ ?_ ?_ ?_ le_rfl
  · have link := ring.next_eq
    simp only [unlinkEntry]
    rcases around : r ++ l with _ | ⟨a, as⟩
    · rw [around] at link
      rw [if_pos (Option.some_inj.mp link)]
      rfl
    · rw [around] at link away
      have other := away a mem_cons_self
      rw [← Option.some_inj.mp link] at other
      rw [if_neg other, List.head?_cons, ← Option.some_inj.mp link]
  · intro et' other
    refine (shows.rings et').apart_del ring fun a member => ?_
    rw [← owned]
    exact shows.apart et' et other a member
  · rw [turned_of_found dropped, map_append, map_append, ← after, ← before]
    simp only [unlinkEntry, ← map_append]
    exact map_congr_left fun a member => update_of_ne (away a member) _ _
  · intro et' other a member
    have elsewhere : a ∉ own et := shows.apart et' et other a member
    have notIt : a ≠ le := fun same => elsewhere (by rw [same, owned]; simp)
    exact ⟨update_of_ne notIt _ _, leaves et' a member notIt, fun among => elsewhere (inside a among)⟩
  · exact fun a member => leaves et a (inside a member) (away a member)
  · exact fun e among => shows.numbered et e (mem_of_mem_turned among)

theorem Shows.call (shows : Shows targets lists own) (c : Call ν ℓ) :
    ∃ targets' error own', call targets c = some (targets', error) ∧
      Shows targets' (track targets.calls lists c error) own' := by
  cases c with
  | add et type listener capture mem =>
    obtain ⟨own', shows'⟩ := shows.add et type listener capture mem
    exact ⟨_, _, own', rfl, shows'⟩
  | remove et type listener capture =>
    obtain ⟨targets', own', done, shows'⟩ := shows.remove et type listener capture
    exact ⟨targets', .noErr, own', done, shows'⟩

theorem run_shows (calls : List (Call ν ℓ)) (shows : Shows targets lists own) :
    ∃ targets' lists' own', run (targets, lists) calls = some (targets', lists') ∧ Shows targets' lists' own' := by
  induction calls generalizing targets lists own with
  | nil => exact ⟨targets, lists, own, rfl, shows⟩
  | cons c calls ih =>
    obtain ⟨targets', error, own', done, shows'⟩ := shows.call c
    obtain ⟨targets'', lists'', own'', rest, last⟩ := ih shows'
    exact ⟨targets'', lists'', own'', by rw [run, done]; exact rest, last⟩

end Besra.EventTarget
