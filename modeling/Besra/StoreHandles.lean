import Besra.EvictionOrder

/-!
The blocks of memory that the callers of the backing store are given. A caller that stored or fetched an element has a
handle to it until it releases the element; the reference count of an element is the number of its handles, which is so
while none is lost (`handles_counted`). One is where a store fails after its element was set up, and 256 handles to an
element are more than its count can say.
-/
namespace Besra.StoreHandles
open List
open BackingStore (ElemIdx UseMap)
open StoreFaults EvictionOrder

/-- What a caller was given for an element, and has to release. -/
structure Handle (Url : Type) where
  url : Url
  elemIdx : ElemIdx
  data : Nat
deriving DecidableEq

/-- A call of the backing store. A block of memory is handed to it where an element is stored. -/
inductive Call (Url : Type) where
  | store (url : Url) (elemIdx : ElemIdx) (data datalen : Nat)
  | fetch (url : Url) (elemIdx : ElemIdx)
  | release (url : Url) (elemIdx : ElemIdx)
  | invalidate (url : Url)
deriving DecidableEq

variable {Url : Type} [DecidableEq Url]

def Handle.of (url : Url) (elemIdx : ElemIdx) (h : Handle Url) : Bool := decide (h.url = url ∧ h.elemIdx = elemIdx)

def outstanding (handles : List (Handle Url)) (url : Url) (elemIdx : ElemIdx) : Nat := handles.countP (Handle.of url elemIdx)

/-- The store and the handles after a call. -/
def after (q : Qsort Url) (a : Answers Url) (s : Store Url) (handles : List (Handle Url)) :
    Call Url → Store Url × List (Handle Url)
  | .store url elemIdx data datalen =>
    match guiLlcacheStore q a s url elemIdx data datalen with
    | (.ok, s) => (s, ⟨url, elemIdx, data⟩ :: handles)
    | (_, s) => (s, handles)
  | .fetch url elemIdx =>
    match guiLlcacheFetch a s url elemIdx with
    | (.ok, s, data) => (s, ⟨url, elemIdx, data⟩ :: handles)
    | (_, s, _) => (s, handles)
  | .release url elemIdx => ((guiLlcacheRelease a s url elemIdx).2, handles.eraseP (Handle.of url elemIdx))
  | .invalidate url => ((guiLlcacheInvalidate a s url).2, handles)

/-- A block that is made or handed over is not in use, and a release matches a handle. -/
def Proper (a : Answers Url) (s : Store Url) (handles : List (Handle Url)) (c : Call Url) : Prop :=
  (∀ data, a.malloc = some data → data ∉ s.memory) ∧
    match c with
    | .store _ _ data _ => data ∉ s.memory
    | .release url elemIdx => 0 < outstanding handles url elemIdx
    | _ => True

/-- The store and the handles after some calls, each of which meets a condition. -/
inductive Reached (q : Qsort Url) (meets : Answers Url → List (Handle Url) → Call Url → Prop) (start : Store Url) :
    Store Url → List (Handle Url) → Prop
  | start : Reached q meets start start []
  | call {s : Store Url} {handles : List (Handle Url)} (reached : Reached q meets start s handles) (a : Answers Url)
      (c : Call Url) (proper : Proper a s handles c) (met : meets a handles c) :
      Reached q meets start (after q a s handles c).1 (after q a s handles c).2

/-- What is stored is written, and there are not as many handles to an element that is fetched as its count can say. -/
def Countable (a : Answers Url) (handles : List (Handle Url)) : Call Url → Prop
  | .store .. => a.done = true
  | .fetch url elemIdx => outstanding handles url elemIdx < 255
  | _ => True

/-- An element of an entry; of an entry that there is not it is empty. -/
def Store.elem (s : Store Url) (url : Url) (elemIdx : ElemIdx) : Element := ((s.entries.lookup url).getD {}).elem elemIdx

/-- The reference counts are the numbers of handles, and what is in memory is what there are handles to. -/
structure Counted (s : Store Url) (handles : List (Handle Url)) : Prop where
  refs : ∀ url elemIdx, (Store.elem s url elemIdx).ref.toNat = outstanding handles url elemIdx
  kept : ∀ h ∈ handles, h.url ∈ s.entries
  given : ∀ h ∈ handles, (Store.elem s h.url h.elemIdx).heap = true ∧ (Store.elem s h.url h.elemIdx).data = h.data
  held : ∀ url elemIdx, (Store.elem s url elemIdx).heap = true → 0 < outstanding handles url elemIdx
  apart : ∀ h ∈ handles, ∀ h' ∈ handles, h.data = h'.data → h.url = h'.url ∧ h.elemIdx = h'.elemIdx
  memory : ∀ data, data ∈ s.memory ↔ ∃ h ∈ handles, h.data = data
  freed : s.misfreed = false

variable {s s' : Store Url} {handles : List (Handle Url)} {url : Url} {elemIdx : ElemIdx} {ent : Entry} {a : Answers Url}

theorem elem_eq (found : s.entries.lookup url = some ent) (elemIdx : ElemIdx) : Store.elem s url elemIdx = ent.elem elemIdx := by
  rw [Store.elem, found, Option.getD_some]

theorem elem_none (none : s.entries.lookup url = none) (elemIdx : ElemIdx) : Store.elem s url elemIdx = {} := by
  rw [Store.elem, none, Option.getD_none]

theorem elem_setEntry (s : Store Url) (url : Url) (ent : Entry) (url' : Url) (elemIdx : ElemIdx) :
    Store.elem (s.setEntry url ent) url' elemIdx = if url' = url then ent.elem elemIdx else Store.elem s url' elemIdx := by
  split
  next same =>
    subst same
    exact elem_eq (AList.lookup_insert s.entries) elemIdx
  next other =>
    simp only [Store.elem, Store.setEntry, AList.lookup_insert_ne other]

theorem elem_setElem (ent : Entry) (elemIdx : ElemIdx) (elem : Element) (elemIdx' : ElemIdx) :
    (ent.setElem elemIdx elem).elem elemIdx' = if elemIdx' = elemIdx then elem else ent.elem elemIdx' :=
  Function.update_apply ..

theorem mem_of_heap (heap : (Store.elem s url elemIdx).heap = true) : url ∈ s.entries := by
  cases found : s.entries.lookup url with
  | none =>
    rw [elem_none found] at heap
    cases heap
  | some ent => exact AList.lookup_isSome.mp (by rw [found]; rfl)

theorem outstanding_cons (h : Handle Url) (handles : List (Handle Url)) (url : Url) (elemIdx : ElemIdx) :
    outstanding (h :: handles) url elemIdx = outstanding handles url elemIdx + if h.of url elemIdx then 1 else 0 :=
  countP_cons ..

theorem outstanding_pos_iff : 0 < outstanding handles url elemIdx ↔ ∃ h ∈ handles, h.url = url ∧ h.elemIdx = elemIdx := by
  rw [outstanding, countP_pos_iff]
  simp only [Handle.of, decide_eq_true_eq]

theorem released_split (some : 0 < outstanding handles url elemIdx) :
    ∃ before h rest, handles = before ++ h :: rest ∧ handles.eraseP (Handle.of url elemIdx) = before ++ rest ∧
      h.url = url ∧ h.elemIdx = elemIdx := by
  obtain ⟨h, member, here⟩ := outstanding_pos_iff.mp some
  obtain ⟨h', before, rest, -, here', split, erased⟩ := @exists_of_eraseP _ (Handle.of url elemIdx) _ _ member (decide_eq_true here)
  exact ⟨before, h', rest, split, erased, of_decide_eq_true here'⟩

theorem Counted.unused (counted : Counted s handles) (free : (Store.elem s url elemIdx).heap = false) :
    outstanding handles url elemIdx = 0 := by
  by_contra used
  obtain ⟨h, member, rfl, rfl⟩ := outstanding_pos_iff.mp (Nat.pos_of_ne_zero used)
  rw [(counted.given h member).1] at free
  cases free

def Idle (elem elem' : Element) : Prop :=
  elem.heap = false ∧ elem'.heap = false ∧ (elem'.ref = elem.ref ∨ elem'.ref = 0)

/-- What is in memory stays, and elements with an allocation are left alone. -/
structure Keeps (s s' : Store Url) : Prop where
  elem : ∀ url elemIdx, Store.elem s' url elemIdx = Store.elem s url elemIdx ∨
    Idle (Store.elem s url elemIdx) (Store.elem s' url elemIdx)
  memory : s'.memory = s.memory
  freed : s'.misfreed = s.misfreed

theorem Keeps.refl (s : Store Url) : Keeps s s := ⟨fun _ _ => .inl rfl, rfl, rfl⟩

theorem Keeps.trans {s'' : Store Url} (first : Keeps s s') (second : Keeps s' s'') : Keeps s s'' := by
  refine ⟨fun url elemIdx => ?_, second.memory.trans first.memory, second.freed.trans first.freed⟩
  rcases first.elem url elemIdx with same | ⟨free, free', ref⟩
  · rw [← same]
    exact second.elem url elemIdx
  · rcases second.elem url elemIdx with same' | ⟨-, free'', ref'⟩
    · exact .inr ⟨free, same' ▸ free', same' ▸ ref⟩
    · refine .inr ⟨free, free'', ?_⟩
      rcases ref' with same' | zero
      · rwa [same']
      · exact .inr zero

theorem Counted.keeps (counted : Counted s handles) (keeps : Keeps s s') : Counted s' handles := by
  have given : ∀ h ∈ handles, (Store.elem s' h.url h.elemIdx).heap = true ∧ (Store.elem s' h.url h.elemIdx).data = h.data := by
    intro h member
    have here := counted.given h member
    rcases keeps.elem h.url h.elemIdx with same | ⟨free, -⟩
    · rwa [same]
    · rw [here.1] at free
      cases free
  refine ⟨fun url elemIdx => ?_, fun h member => mem_of_heap (given h member).1, given, fun url elemIdx heap => ?_,
    counted.apart, fun data => ?_, keeps.freed.trans counted.freed⟩
  · have refs := counted.refs url elemIdx
    rcases keeps.elem url elemIdx with same | ⟨free, -, ref | zero⟩
    · rwa [same]
    · rwa [ref]
    · rw [zero, counted.unused free]
      rfl
  · rcases keeps.elem url elemIdx with same | ⟨-, free, -⟩
    · exact counted.held url elemIdx (same ▸ heap)
    · rw [free] at heap
      cases heap
  · rw [keeps.memory]
    exact counted.memory data

theorem keeps_setEntry (same : ∀ elemIdx, ent.elem elemIdx = Store.elem s url elemIdx) : Keeps s (s.setEntry url ent) := by
  refine ⟨fun url' elemIdx => .inl ?_, rfl, rfl⟩
  rw [elem_setEntry]
  split
  next here => rw [same, here]
  next => rfl

theorem keeps_invalidateElement (a : Answers Url) (s : Store Url) (url : Url) (elem : Element) (elemIdx : ElemIdx) :
    Keeps s (invalidateElement a s url elem elemIdx).2 := by
  unfold invalidateElement
  split
  · exact ⟨fun _ _ => .inl rfl, rfl, rfl⟩
  · split
    · exact ⟨fun _ _ => .inl rfl, rfl, rfl⟩
    · exact .refl s

theorem held_eq_false (free : ent.held = false) (elemIdx : ElemIdx) : (ent.elem elemIdx).heap = false := by
  obtain ⟨data, metadata⟩ := Bool.or_eq_false_iff.mp free
  cases elemIdx with
  | data => exact data
  | metadata => exact metadata

theorem keeps_erase (free : ∀ elemIdx, (Store.elem s url elemIdx).heap = false) :
    Keeps s { s with entries := s.entries.erase url } := by
  refine ⟨fun url' elemIdx => ?_, rfl, rfl⟩
  by_cases here : url' = url
  · subst here
    have dropped : Store.elem { s with entries := s.entries.erase url' } url' elemIdx = {} :=
      elem_none (AList.lookup_erase url' s.entries) elemIdx
    exact .inr ⟨free elemIdx, by rw [dropped], .inr (by rw [dropped])⟩
  · refine .inl ?_
    simp only [Store.elem, AList.lookup_erase_ne here]

theorem keeps_invalidateEntry (a : Answers Url) (s : Store Url) (url : Url) : Keeps s (invalidateEntry a s url) := by
  unfold invalidateEntry
  split
  · exact .refl s
  next bse found =>
    have marked : Keeps s (s.setEntry url { bse with invalid := true }) := keeps_setEntry (fun k => (elem_eq found k).symm)
    dsimp only
    split
    · exact marked
    next free =>
      have first := keeps_invalidateElement a (s.setEntry url { bse with invalid := true }) url (bse.elem .metadata) .metadata
      generalize (invalidateElement a _ url (bse.elem .metadata) .metadata).2 = s₁ at first ⊢
      have second := keeps_invalidateElement a s₁ url (bse.elem .data) .data
      refine marked.trans (first.trans (second.trans (keeps_erase (fun elemIdx => ?_))))
      rcases (first.trans second).elem url elemIdx with same | ⟨-, dropped, -⟩
      · rw [same, elem_setEntry, if_pos rfl]
        exact held_eq_false (Bool.eq_false_iff.mpr free) elemIdx
      · exact dropped

theorem keeps_evictLoop (a : Answers Url) (elist : List Url) (removed : UInt64) (s : Store Url) :
    Keeps s (evictLoop a elist removed s) := by
  induction elist generalizing removed s with
  | nil => exact .refl s
  | cons url elist ih =>
    have first := keeps_invalidateEntry a s url
    unfold evictLoop
    dsimp only
    split
    · exact first
    · exact first.trans (ih _ _)

theorem keeps_storeEvict (q : Qsort Url) (a : Answers Url) (s : Store Url) : Keeps s (storeEvict q a s).2 := by
  unfold storeEvict
  split
  · exact .refl s
  · split
    · exact .refl s
    · exact keeps_evictLoop a _ 0 s

theorem getStoreEntry_some (got : getStoreEntry a s url = some (ent, s')) :
    Keeps s s' ∧ s'.entries.lookup url = some ent := by
  unfold getStoreEntry at got
  split at got
  · cases got
  next bse found =>
    obtain ⟨rfl, rfl⟩ := Prod.mk.inj (Option.some.inj got)
    exact ⟨keeps_setEntry (fun k => (elem_eq found k).symm), AList.lookup_insert s.entries⟩

variable {elem : Element} {data : Nat}

theorem elem_set (found : s.entries.lookup url = some ent) (elemIdx : ElemIdx) (elem : Element) (url' : Url)
    (elemIdx' : ElemIdx) :
    Store.elem (s.setEntry url (ent.setElem elemIdx elem)) url' elemIdx' =
      if url' = url ∧ elemIdx' = elemIdx then elem else Store.elem s url' elemIdx' := by
  rw [elem_setEntry]
  by_cases here : url' = url
  · rw [if_pos here, elem_setElem, here, elem_eq found]
    simp only [true_and]
  · rw [if_neg here, if_neg (fun both => here both.1)]

theorem Counted.set (counted : Counted s handles) (free : (Store.elem s url elemIdx).heap = false) (new : data ∉ s.memory)
    (others : ∀ url' elemIdx', Store.elem s' url' elemIdx' =
      if url' = url ∧ elemIdx' = elemIdx then elem else Store.elem s url' elemIdx')
    (set : elem.data = data ∧ elem.ref = 1 ∧ elem.heap = true) (memory : s'.memory = insert data s.memory)
    (freed : s'.misfreed = s.misfreed) : Counted s' (⟨url, elemIdx, data⟩ :: handles) := by
  obtain ⟨rfl, ref, heap⟩ := set
  have unused := counted.unused free
  have apart : ∀ h ∈ handles, ¬(h.url = url ∧ h.elemIdx = elemIdx) := fun h member here =>
    Nat.ne_of_gt (outstanding_pos_iff.mpr ⟨h, member, here⟩) unused
  have old : ∀ h ∈ handles, h.data ≠ elem.data := fun h member same =>
    new ((counted.memory elem.data).mpr ⟨h, member, same⟩)
  have given : ∀ h ∈ (⟨url, elemIdx, elem.data⟩ : Handle Url) :: handles,
      (Store.elem s' h.url h.elemIdx).heap = true ∧ (Store.elem s' h.url h.elemIdx).data = h.data := by
    intro h member
    rw [others]
    rcases mem_cons.mp member with rfl | member
    · rw [if_pos ⟨rfl, rfl⟩]
      exact ⟨heap, rfl⟩
    · rw [if_neg (apart h member)]
      exact counted.given h member
  refine ⟨fun url' elemIdx' => ?_, fun h member => mem_of_heap (given h member).1, given, fun url' elemIdx' allocated => ?_,
    fun h member h' member' same => ?_, fun data' => ?_, freed.trans counted.freed⟩
  · rw [others, outstanding_cons]
    simp only [Handle.of, decide_eq_true_eq]
    by_cases here : url' = url ∧ elemIdx' = elemIdx
    · obtain ⟨rfl, rfl⟩ := here
      rw [if_pos ⟨rfl, rfl⟩, if_pos ⟨rfl, rfl⟩, ref, unused]
      rfl
    · rw [if_neg here, if_neg (fun both => here ⟨both.1.symm, both.2.symm⟩)]
      exact counted.refs url' elemIdx'
  · rw [outstanding_cons]
    rw [others] at allocated
    split at allocated
    next here =>
      obtain ⟨rfl, rfl⟩ := here
      simp only [Handle.of, and_self, decide_true, if_true]
      exact Nat.succ_pos _
    next => exact Nat.lt_of_lt_of_le (counted.held url' elemIdx' allocated) (Nat.le_add_right ..)
  · rcases mem_cons.mp member with rfl | member <;> rcases mem_cons.mp member' with rfl | member'
    · exact ⟨rfl, rfl⟩
    · exact absurd same.symm (old h' member')
    · exact absurd same (old h member)
    · exact counted.apart h member h' member' same
  · rw [memory, Finset.mem_insert, counted.memory data', exists_mem_cons_iff]
    exact or_congr_left eq_comm

theorem Counted.eq_of (counted : Counted s handles) (found : s.entries.lookup url = some ent) {h : Handle Url}
    (member : h ∈ handles) (of_url : h.url = url) (of_elemIdx : h.elemIdx = elemIdx) :
    h = ⟨url, elemIdx, (ent.elem elemIdx).data⟩ := by
  have data := (counted.given h member).2
  obtain ⟨url', elemIdx', data'⟩ := h
  obtain rfl := of_url
  obtain rfl := of_elemIdx
  rw [elem_eq found] at data
  rw [data]

theorem Counted.recount (counted : Counted s handles) (found : s.entries.lookup url = some ent) {handles' : List (Handle Url)}
    (members : ∀ h, h ∈ handles' ↔ h ∈ handles)
    (others : ∀ url' elemIdx', ¬(url' = url ∧ elemIdx' = elemIdx) →
      outstanding handles' url' elemIdx' = outstanding handles url' elemIdx')
    {ref : UInt8} (count : ref.toNat = outstanding handles' url elemIdx) :
    Counted (s.setEntry url (ent.setElem elemIdx { ent.elem elemIdx with ref })) handles' := by
  have set := elem_set found elemIdx { ent.elem elemIdx with ref }
  have same := elem_eq found elemIdx
  have given : ∀ h ∈ handles', (Store.elem (s.setEntry url (ent.setElem elemIdx { ent.elem elemIdx with ref })) h.url
      h.elemIdx).heap = true ∧ (Store.elem (s.setEntry url (ent.setElem elemIdx { ent.elem elemIdx with ref })) h.url
      h.elemIdx).data = h.data := by
    intro h member
    have here := counted.given h ((members h).mp member)
    rw [set]
    split
    next at_elem =>
      rw [at_elem.1, at_elem.2, same] at here
      exact here
    next => exact here
  refine ⟨fun url' elemIdx' => ?_, fun h member => mem_of_heap (given h member).1, given, fun url' elemIdx' allocated => ?_,
    fun h member h' member' => counted.apart h ((members h).mp member) h' ((members h').mp member'), fun data => ?_,
    counted.freed⟩
  · rw [set]
    split
    next here => rw [here.1, here.2, count]
    next other => rw [others url' elemIdx' other, counted.refs]
  · have allocated' : (Store.elem s url' elemIdx').heap = true := by
      rw [set] at allocated
      split at allocated
      next here =>
        rw [here.1, here.2, same]
        exact allocated
      next => exact allocated
    obtain ⟨h, member, here⟩ := outstanding_pos_iff.mp (counted.held url' elemIdx' allocated')
    exact outstanding_pos_iff.mpr ⟨h, (members h).mpr member, here⟩
  · show data ∈ s.memory ↔ _
    rw [counted.memory data]
    exact exists_congr (fun h => and_congr_left (fun _ => (members h).symm))

theorem Counted.shared (counted : Counted s handles) (found : s.entries.lookup url = some ent)
    (heap : (ent.elem elemIdx).heap = true) (few : outstanding handles url elemIdx < 255) :
    Counted (s.setEntry url (ent.setElem elemIdx { ent.elem elemIdx with ref := (ent.elem elemIdx).ref + 1 }))
      (⟨url, elemIdx, (ent.elem elemIdx).data⟩ :: handles) := by
  have same := elem_eq found elemIdx
  obtain ⟨h, member, of_url, of_elemIdx⟩ := outstanding_pos_iff.mp (counted.held url elemIdx (same ▸ heap))
  have first := counted.eq_of found member of_url of_elemIdx
  refine counted.recount found (fun h' => ?_) (fun url' elemIdx' other => ?_) ?_
  · rw [mem_cons]
    refine ⟨fun either => either.elim (fun new => ?_) id, .inr⟩
    rw [new, ← first]
    exact member
  · rw [outstanding_cons, Handle.of, if_neg (fun here => other ?_), Nat.add_zero]
    obtain ⟨at_url, at_elemIdx⟩ := of_decide_eq_true here
    exact ⟨at_url.symm, at_elemIdx.symm⟩
  · have refs := counted.refs url elemIdx
    rw [same] at refs
    rw [outstanding_cons, Handle.of, if_pos (decide_eq_true ⟨rfl, rfl⟩), ← refs, UInt8.toNat_add]
    exact Nat.mod_eq_of_lt (by rw [refs]; exact Nat.succ_lt_succ few)

theorem Counted.last (counted : Counted s handles) (found : s.entries.lookup url = some ent) {h : Handle Url}
    {handles' : List (Handle Url)} (here : h.url = url ∧ h.elemIdx = elemIdx)
    (members : ∀ h', h' ∈ handles ↔ h' = h ∨ h' ∈ handles') (none : outstanding handles' url elemIdx = 0)
    (others : ∀ url' elemIdx', ¬(url' = url ∧ elemIdx' = elemIdx) →
      outstanding handles' url' elemIdx' = outstanding handles url' elemIdx')
    {ref : UInt8} (zero : ref = 0) :
    Counted ((s.free (ent.elem elemIdx).data).setEntry url
      (ent.setElem elemIdx { ent.elem elemIdx with ref, heap := false })) handles' := by
  have listed : h ∈ handles := (members h).mpr (.inl rfl)
  have block : h.data = (ent.elem elemIdx).data := by rw [counted.eq_of found listed here.1 here.2]
  have elsewhere : ∀ h' ∈ handles', ¬(h'.url = url ∧ h'.elemIdx = elemIdx) := fun h' member at_elem =>
    Nat.ne_of_gt (outstanding_pos_iff.mpr ⟨h', member, at_elem⟩) none
  have set : ∀ url' elemIdx', Store.elem ((s.free (ent.elem elemIdx).data).setEntry url
      (ent.setElem elemIdx { ent.elem elemIdx with ref, heap := false })) url' elemIdx' =
        if url' = url ∧ elemIdx' = elemIdx then { ent.elem elemIdx with ref, heap := false }
        else Store.elem s url' elemIdx' :=
    @elem_set _ _ (s.free (ent.elem elemIdx).data) _ _ found elemIdx _
  have given : ∀ h' ∈ handles', (Store.elem ((s.free (ent.elem elemIdx).data).setEntry url
      (ent.setElem elemIdx { ent.elem elemIdx with ref, heap := false })) h'.url h'.elemIdx).heap = true ∧
      (Store.elem ((s.free (ent.elem elemIdx).data).setEntry url
        (ent.setElem elemIdx { ent.elem elemIdx with ref, heap := false })) h'.url h'.elemIdx).data = h'.data := by
    intro h' member
    rw [set, if_neg (elsewhere h' member)]
    exact counted.given h' ((members h').mpr (.inr member))
  refine ⟨fun url' elemIdx' => ?_, fun h' member => mem_of_heap (given h' member).1, given,
    fun url' elemIdx' allocated => ?_, fun h₁ member₁ h₂ member₂ =>
      counted.apart h₁ ((members h₁).mpr (.inr member₁)) h₂ ((members h₂).mpr (.inr member₂)), fun data => ?_, ?_⟩
  · rw [set]
    split
    next at_elem =>
      rw [at_elem.1, at_elem.2, none, zero]
      rfl
    next other => rw [others url' elemIdx' other, counted.refs]
  · rw [set] at allocated
    split at allocated
    · cases allocated
    next other =>
      rw [others url' elemIdx' other]
      exact counted.held url' elemIdx' allocated
  · show data ∈ s.memory.erase (ent.elem elemIdx).data ↔ _
    rw [Finset.mem_erase, counted.memory data, ← block]
    constructor
    · rintro ⟨other, h', member, rfl⟩
      rcases (members h').mp member with rfl | member'
      · exact absurd rfl other
      · exact ⟨h', member', rfl⟩
    · rintro ⟨h', member, rfl⟩
      refine ⟨fun same => elsewhere h' member ?_, h', (members h').mpr (.inr member), rfl⟩
      obtain ⟨same_url, same_elemIdx⟩ := counted.apart h' ((members h').mpr (.inr member)) h listed same
      exact ⟨same_url.trans here.1, same_elemIdx.trans here.2⟩
  · have known : (ent.elem elemIdx).data ∈ s.memory := (counted.memory _).mpr ⟨h, listed, block⟩
    show (s.misfreed || decide ((ent.elem elemIdx).data ∉ s.memory)) = false
    rw [counted.freed, decide_eq_false (not_not_intro known), Bool.or_false]

theorem Counted.release (counted : Counted s handles) (used : 0 < outstanding handles url elemIdx)
    (found : s.entries.lookup url = some ent) :
    Counted (entryReleaseAlloc s url ent elemIdx) (handles.eraseP (Handle.of url elemIdx)) := by
  obtain ⟨before, h, rest, split, erased, here⟩ := released_split used
  have same := elem_eq found elemIdx
  have listed : h ∈ handles := by
    rw [split]
    exact mem_append_right _ mem_cons_self
  have heap := (counted.given h listed).1
  rw [here.1, here.2, same] at heap
  have members : ∀ h', h' ∈ handles ↔ h' = h ∨ h' ∈ before ++ rest := by
    intro h'
    rw [split, mem_append, mem_cons, mem_append]
    exact or_left_comm
  have count : ∀ url' elemIdx', outstanding handles url' elemIdx' =
      outstanding (before ++ rest) url' elemIdx' + if h.of url' elemIdx' then 1 else 0 := by
    intro url' elemIdx'
    simp only [outstanding, split, countP_append, countP_cons]
    exact (Nat.add_assoc ..).symm
  have others : ∀ url' elemIdx', ¬(url' = url ∧ elemIdx' = elemIdx) →
      outstanding (before ++ rest) url' elemIdx' = outstanding handles url' elemIdx' := by
    intro url' elemIdx' other
    rw [count, Handle.of, if_neg (fun at_elem => other ?_), Nat.add_zero]
    obtain ⟨at_url, at_elemIdx⟩ := of_decide_eq_true at_elem
    exact ⟨at_url.symm.trans here.1, at_elemIdx.symm.trans here.2⟩
  have refs := counted.refs url elemIdx
  rw [same] at refs
  have one : outstanding handles url elemIdx = outstanding (before ++ rest) url elemIdx + 1 := by
    rw [count, Handle.of, if_pos (decide_eq_true here)]
  have less : ((ent.elem elemIdx).ref - 1).toNat = outstanding (before ++ rest) url elemIdx := by
    rw [UInt8.toNat_sub_of_le _ _ (UInt8.le_iff_toNat_le.mpr (by rw [refs]; exact used)), refs, one]
    rfl
  rw [erased]
  unfold entryReleaseAlloc
  rw [if_pos heap]
  dsimp only
  split
  next zero =>
    have none : outstanding (before ++ rest) url elemIdx = 0 := by
      rw [← less, zero]
      rfl
    exact counted.last found here members none others zero
  next more =>
    refine counted.recount found (fun h' => ?_) others less
    rw [members h']
    refine ⟨.inr, fun either => either.elim (fun first => ?_) id⟩
    -- there is another handle, which is the same
    have left : 0 < outstanding (before ++ rest) url elemIdx := by
      rw [← less]
      exact Nat.pos_of_ne_zero (fun zero => more (UInt8.toNat_inj.mp zero))
    obtain ⟨h₂, member₂, at_url, at_elemIdx⟩ := outstanding_pos_iff.mp left
    rw [first, counted.eq_of found listed here.1 here.2,
      ← counted.eq_of found ((members h₂).mpr (.inr member₂)) at_url at_elemIdx]
    exact member₂

omit [DecidableEq Url] in
theorem entries_allocBlock (s : Store Url) (elemIdx : ElemIdx) :
    (allocBlock s elemIdx).1.entries = s.entries ∧ (allocBlock s elemIdx).1.memory = s.memory ∧
      (allocBlock s elemIdx).1.misfreed = s.misfreed := by
  unfold allocBlock
  split
  · exact ⟨rfl, rfl, rfl⟩
  · exact ⟨rfl, rfl, rfl⟩

theorem setElement_spec {data : Nat} (datalen : Nat) (found : s.entries.lookup url = some ent) :
    ∃ elem : Element, (elem.data = data ∧ elem.ref = 1 ∧ elem.heap = true) ∧
      (∀ url' elemIdx', Store.elem (setElement a s url elemIdx data datalen ent) url' elemIdx' =
        if url' = url ∧ elemIdx' = elemIdx then elem else Store.elem s url' elemIdx') ∧
      (setElement a s url elemIdx data datalen ent).memory = insert data s.memory ∧
      (setElement a s url elemIdx data datalen ent).misfreed = s.misfreed := by
  unfold setElement
  dsimp only
  split
  · obtain ⟨entries, memory, misfreed⟩ := entries_allocBlock { s with
      memory := insert data s.memory
      totalAlloc := s.totalAlloc - (ent.elem elemIdx).size.toUInt64 + (UInt32.ofNat datalen).toUInt64 } elemIdx
    generalize allocBlock _ elemIdx = allocated at entries memory misfreed ⊢
    refine ⟨{ data, size := .ofNat datalen, block := allocated.2, ref := 1, heap := true }, ⟨rfl, rfl, rfl⟩,
      fun url' elemIdx' => ?_, memory, misfreed⟩
    have same : Store.elem s url' elemIdx' = Store.elem allocated.1 url' elemIdx' := by rw [Store.elem, Store.elem, entries]
    have still : allocated.1.entries.lookup url = some ent := by rw [entries]; exact found
    rw [same, elem_setEntry]
    by_cases here : url' = url
    · rw [if_pos here, elem_setElem, here, elem_eq still]
      simp only [true_and]
    · rw [if_neg here, if_neg (fun both => here both.1)]
  · refine ⟨{ data, size := .ofNat datalen, block := (ent.elem elemIdx).block, ref := 1, heap := true }, ⟨rfl, rfl, rfl⟩,
      fun url' elemIdx' => ?_, rfl, rfl⟩
    rw [elem_setEntry]
    by_cases here : url' = url
    · rw [if_pos here, elem_setElem, here, elem_eq found]
      simp only [true_and]
    · rw [if_neg here, if_neg (fun both => here both.1)]
      rfl

theorem setStoreEntry_cases (q : Qsort Url) (a : Answers Url) (s : Store Url) (url : Url) (elemIdx : ElemIdx)
    (data datalen : Nat) :
    (∃ ret s', setStoreEntry q a s url elemIdx data datalen = (ret, s') ∧ ret ≠ .ok ∧ Keeps s s') ∨
      ∃ s' se, setStoreEntry q a s url elemIdx data datalen = (.ok, setElement a s' url elemIdx data datalen se) ∧
        Keeps s s' ∧ s'.entries.lookup url = some se ∧ (se.elem elemIdx).heap = false := by
  have keeps := keeps_storeEvict q a s
  unfold setStoreEntry
  split
  next s' evicted =>
    rw [evicted] at keeps
    split
    next none =>
      split
      · have fresh : Keeps s' (s'.setEntry url {}) := keeps_setEntry (fun k => (elem_none none k).symm)
        exact .inr ⟨_, _, rfl, keeps.trans fresh, AList.lookup_insert s'.entries, rfl⟩
      · exact .inl ⟨_, _, rfl, nofun, keeps⟩
    next se found =>
      split
      · exact .inl ⟨_, _, rfl, nofun, keeps⟩
      next free => exact .inr ⟨_, _, rfl, keeps, found, Bool.eq_false_iff.mpr free⟩
  next ret s' failed evicted =>
    rw [evicted] at keeps
    exact .inl ⟨_, _, rfl, failed, keeps⟩

theorem Counted.store (counted : Counted s handles) {data : Nat} (datalen : Nat) (new : data ∉ s.memory)
    (written : a.done = true) (q : Qsort Url) :
    Counted (after q a s handles (.store url elemIdx data datalen)).1
      (after q a s handles (.store url elemIdx data datalen)).2 := by
  rcases setStoreEntry_cases q a s url elemIdx data datalen with ⟨ret, s', result, failed, keeps⟩ |
    ⟨s', se, result, keeps, found, free⟩
  · simp only [after, guiLlcacheStore, result]
    cases ret with
    | ok => exact absurd rfl failed
    | nomem => exact counted.keeps keeps
    | notFound => exact counted.keeps keeps
    | permission => exact counted.keeps keeps
    | saveFailed => exact counted.keeps keeps
  · simp only [after, guiLlcacheStore, result, written, if_true]
    obtain ⟨elem, set, others, memory, misfreed⟩ := @setElement_spec _ _ _ _ elemIdx _ a data datalen found
    exact (counted.keeps keeps).set ((elem_eq found elemIdx).symm ▸ free) (keeps.memory.symm ▸ new) others set memory misfreed

theorem Counted.fetch (counted : Counted s handles) (new : ∀ data, a.malloc = some data → data ∉ s.memory)
    (few : outstanding handles url elemIdx < 255) (q : Qsort Url) :
    Counted (after q a s handles (.fetch url elemIdx)).1 (after q a s handles (.fetch url elemIdx)).2 := by
  simp only [after, guiLlcacheFetch]
  cases got : getStoreEntry a s url with
  | none => exact counted
  | some found =>
    obtain ⟨bse, s'⟩ := found
    obtain ⟨keeps, found⟩ := getStoreEntry_some got
    have counted' := counted.keeps keeps
    dsimp only
    by_cases heap : (bse.elem elemIdx).heap = true
    · simp only [if_pos heap]
      exact counted'.shared found heap few
    · have free : (Store.elem s' url elemIdx).heap = false := (elem_eq found elemIdx).symm ▸ Bool.eq_false_iff.mpr heap
      simp only [if_neg heap]
      cases made : a.malloc with
      | none =>
        have nulled : Keeps s' (s'.setEntry url (bse.setElem elemIdx { bse.elem elemIdx with data := 0 })) := by
          refine ⟨fun url' elemIdx' => ?_, rfl, rfl⟩
          rw [elem_set found]
          split
          next here =>
            rw [here.1, here.2, elem_eq found]
            exact .inr ⟨Bool.eq_false_iff.mpr heap, Bool.eq_false_iff.mpr heap, .inl rfl⟩
          next => exact .inl rfl
        exact counted'.keeps nulled
      | some data =>
        have others := @elem_set _ _ { s' with memory := insert data s'.memory } _ _ found elemIdx
          { bse.elem elemIdx with data, ref := 1, heap := true }
        have given : Counted _ (⟨url, elemIdx, data⟩ :: handles) :=
          counted'.set free (keeps.memory.symm ▸ new data made) others ⟨rfl, rfl, rfl⟩ rfl rfl
        by_cases done : a.done = true
        · simp only [if_pos done]
          exact given
        · have released := @Counted.release _ _ _ _ url elemIdx _ given
            (outstanding_pos_iff.mpr ⟨_, mem_cons_self, rfl, rfl⟩) (AList.lookup_insert s'.entries)
          have erased : List.eraseP (Handle.of url elemIdx) (⟨url, elemIdx, data⟩ :: handles) = handles :=
            eraseP_cons_of_pos (decide_eq_true ⟨rfl, rfl⟩)
          rw [erased] at released
          simp only [if_neg done]
          by_cases block : (bse.elem elemIdx).block ≠ 0
          · simp only [if_pos block]
            exact released
          · simp only [if_neg block]
            exact released

theorem Counted.step (counted : Counted s handles) (q : Qsort Url) {c : Call Url} (proper : Proper a s handles c)
    (met : Countable a handles c) : Counted (after q a s handles c).1 (after q a s handles c).2 := by
  cases c with
  | store url elemIdx data datalen => exact counted.store datalen proper.2 met q
  | fetch url elemIdx => exact counted.fetch proper.1 met q
  | release url elemIdx =>
    simp only [after, guiLlcacheRelease]
    have used : 0 < outstanding handles url elemIdx := proper.2
    cases got : getStoreEntry a s url with
    | none =>
      obtain ⟨h, member, here, -⟩ := outstanding_pos_iff.mp used
      have listed := AList.lookup_isSome.mpr (here ▸ counted.kept h member)
      unfold getStoreEntry at got
      split at got
      next none =>
        rw [none] at listed
        cases listed
      next => cases got
    | some found =>
      obtain ⟨bse, s'⟩ := found
      obtain ⟨keeps, found⟩ := getStoreEntry_some got
      have released := (counted.keeps keeps).release used found
      dsimp only
      split
      · exact released.keeps (keeps_invalidateEntry a _ url)
      · exact released
  | invalidate url =>
    simp only [after, guiLlcacheInvalidate]
    cases got : getStoreEntry a s url with
    | none => exact counted
    | some found =>
      obtain ⟨bse, s'⟩ := found
      exact (counted.keeps (getStoreEntry_some got).1).keeps (keeps_invalidateEntry a s' url)

variable {file : List (Url × Entry)}

theorem counted_readEntries (uncounted : ∀ e ∈ file, ∀ elemIdx, (e.2.elem elemIdx).ref = 0) (counted : Counted s []) :
    Counted (readEntries s file) [] := by
  unfold readEntries
  induction file generalizing s with
  | nil => exact counted
  | cons e file ih =>
    refine ih (fun e' member => uncounted e' (mem_cons_of_mem _ member)) (counted.keeps ⟨fun url elemIdx => ?_, rfl, rfl⟩)
    show Store.elem (s.setEntry e.1 e.2.unheld) url elemIdx = _ ∨ Idle _ (Store.elem (s.setEntry e.1 e.2.unheld) url elemIdx)
    rw [elem_setEntry]
    split
    next =>
      have free : (Store.elem s url elemIdx).heap = false :=
        Bool.eq_false_iff.mpr (fun heap => Nat.lt_irrefl 0 (counted.held url elemIdx heap))
      exact .inr ⟨free, rfl, .inr (uncounted e mem_cons_self elemIdx)⟩
    next => exact .inl rfl

theorem counted_initialise (limit hysteresis : UInt64) (useMap : UseMap)
    (uncounted : ∀ e ∈ file, ∀ elemIdx, (e.2.elem elemIdx).ref = 0) :
    Counted (guiLlcacheInitialise limit hysteresis useMap file) [] := by
  refine counted_readEntries uncounted ⟨fun _ _ => rfl, nofun, nofun, fun _ _ heap => (nomatch heap), nofun, fun data => ?_, rfl⟩
  exact ⟨fun made => absurd made (Finset.notMem_empty data), nofun⟩

/-- In a run where what is stored is written and no element has more than 255 handles, which starts with entries without
reference counts, the count of an element is the number of its handles, and what there are handles to is in memory. -/
theorem handles_counted (q : Qsort Url) (limit hysteresis : UInt64) (useMap : UseMap)
    (uncounted : ∀ e ∈ file, ∀ elemIdx, (e.2.elem elemIdx).ref = 0)
    (reached : Reached q Countable (guiLlcacheInitialise limit hysteresis useMap file) s handles) :
    Counted s handles := by
  induction reached with
  | start => exact counted_initialise limit hysteresis useMap uncounted
  | call reached a c proper met ih => exact ih.step q proper met

/-- A call of a run in which no memory is needed and nothing fails. -/
def next (s : Store Nat × List (Handle Nat)) (c : Call Nat) : Store Nat × List (Handle Nat) :=
  after (mergeSort Nat) {} s.1 s.2 c

/-- An element that is stored and fetched, and released once. -/
def shared : Store Nat × List (Handle Nat) :=
  next (next (next (guiLlcacheInitialise 100 0 (fun _ _ _ => 0) [], []) (.store 7 .data 1 10)) (.fetch 7 .data)) (.release 7 .data)

theorem handles_counted_released : shared.2 = [⟨7, .data, 1⟩] ∧ Counted shared.1 shared.2 ∧
    Counted (next shared (.release 7 .data)).1 [] := by
  have reached : Reached (mergeSort Nat) Countable (guiLlcacheInitialise 100 0 (fun _ _ _ => 0) []) shared.1 shared.2 :=
    .call (.call (.call .start {} (.store 7 .data 1 10) ⟨nofun, Finset.notMem_empty 1⟩ rfl) {} (.fetch 7 .data)
      ⟨nofun, trivial⟩ (show outstanding _ 7 .data < 255 by decide)) {} (.release 7 .data) ⟨nofun, by decide⟩ trivial
  have empty : ∀ e ∈ ([] : List (Nat × Entry)), ∀ elemIdx, (e.2.elem elemIdx).ref = 0 := nofun
  exact ⟨rfl, handles_counted (mergeSort Nat) 100 0 (fun _ _ _ => 0) empty reached,
    handles_counted (mergeSort Nat) 100 0 (fun _ _ _ => 0) empty
      (.call reached {} (.release 7 .data) ⟨nofun, by decide⟩ trivial)⟩

/-- An element that is not written keeps its block, which no caller was given. -/
theorem block_kept_unwritten : ¬ ∀ (q : Qsort Nat) (s : Store Nat) (handles : List (Handle Nat)),
    Reached q (fun _ _ _ => True) (guiLlcacheInitialise 100 0 (fun _ _ _ => 0) []) s handles → Counted s handles := by
  intro all
  have counted := all (mergeSort Nat) _ _
    (.call .start { done := false } (.store 7 .data 1 10) ⟨nofun, Finset.notMem_empty 1⟩ trivial)
  have kept := (counted.memory 1).mp (Finset.mem_insert_self 1 ∅)
  exact absurd kept nofun

end Besra.StoreHandles
