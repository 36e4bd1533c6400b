import Besra.EventTarget
import Besra.Trail

/-!
`_dom_node_dispatch_event` of `libdom/src/core/node.c`, which calls the listeners of a node and its ancestors.
Handlers are functions of what has been heard so far.
-/
namespace Besra.EventDispatch
open Circular EventTarget

/-- `dom_event_flow_phase` -/
inductive Phase where
  | capturing
  | atTarget
  | bubbling
deriving DecidableEq

/-- `dom_event`, with what a dispatch and the calls of handlers read and write. -/
structure Event (ν : Type) where
  type : DomString
  target : Option ν
  current : Option ν
  phase : Option Phase
  bubble : Bool
  stop : Bool
  stopNow : Bool
  preventDefault : Bool
  inDispatch : Bool
deriving DecidableEq

inductive EventCall where
  | stopPropagation
  | stopImmediatePropagation
  | preventDefault
  | init (type : DomString) (bubble : Bool)
deriving DecidableEq

/-- `_dom_event_stop_propagation` and so on. `_dom_event_init` does not ask whether the event is dispatched. -/
def Event.act {ν : Type} (evt : Event ν) : EventCall → Event ν
  | .stopPropagation => { evt with stop := true }
  | .stopImmediatePropagation => { evt with stopNow := true }
  | .preventDefault => { evt with preventDefault := true }
  | .init type bubble => { evt with type, bubble }

structure Heard (ν ℓ : Type) where
  node : ν
  phase : Phase
  entry : ListenerEntry ℓ
deriving DecidableEq

/-- What the handlers do with the event, given all the calls so far, the last one being their own. -/
abbrev Handlers (ν ℓ : Type) := List (Heard ν ℓ) → Event ν → List EventCall

/-- `dom_default_action_phase` -/
inductive DefaultActionPhase where
  | started
  | prevented
  | ended
  | finished
deriving DecidableEq

/-- `dom_document`: the semaphore of mutation events, and `dei.actions` with the callbacks that it gives. -/
structure Document (ν : Type) where
  dispatchingMutation : UInt32
  actions : Option (DomString → DefaultActionPhase → Option (Event ν → List EventCall))

/-- The names of `_event_is_mutation`. -/
def mutationNames : List DomString :=
  ["DOMNodeInserted", "DOMNodeRemoved", "DOMNodeInsertedIntoDocument", "DOMNodeRemovedFromDocument",
    "DOMAttrModified", "DOMCharacterDataModified", "DOMSubtreeModified"].map fun name =>
      name.toList.map fun c => c.toNat.toUInt8

def eventIsMutation {ν : Type} (evt : Event ν) : Bool := mutationNames.any (evt.type == ·)

/-- An event on its way, `*success`, and the calls of listeners so far. -/
structure Progress (ν ℓ : Type) where
  event : Event ν
  success : Bool
  heard : List (Heard ν ℓ)

variable {ν ℓ : Type} [DecidableEq ν]

def hear (handlers : Handlers ν ℓ) (et : ν) (phase : Phase) (entry : ListenerEntry ℓ) (s : Progress ν ℓ) :
    Progress ν ℓ :=
  let heard := s.heard ++ [⟨et, phase, entry⟩]
  { s with event := (handlers heard s.event).foldl Event.act s.event, heard }

def takesPart (evt : Event ν) (phase : Phase) (entry : ListenerEntry ℓ) : Bool :=
  (entry.capture && phase == .capturing) || (!entry.capture && phase == .bubbling) ||
    (evt.target == evt.current && phase == .atTarget)

/-- The body of the loop of `_dom_event_target_dispatch`. -/
def offer (handlers : Handlers ν ℓ) (et : ν) (phase : Phase) (entry : ListenerEntry ℓ) (s : Progress ν ℓ) :
    Option (Progress ν ℓ × Bool) :=
  if entry.type == s.event.type then
    if takesPart s.event phase entry then
      let s := hear handlers et phase entry s
      some (s, s.event.stopNow)
    else some (s, false)
  else some (s, false)

/-- `if (evt->prevent_default == true) *success = false` -/
def Progress.settle (s : Progress ν ℓ) : Progress ν ℓ :=
  if s.event.preventDefault then { s with success := false } else s

/-- `_dom_event_target_dispatch` -/
def eventTargetDispatch (targets : EventTargets ν ℓ) (handlers : Handlers ν ℓ) (et : ν) (phase : Phase)
    (s : Progress ν ℓ) : Option (Progress ν ℓ) :=
  let passed := match targets.listeners et with
    | none => some s
    | some head =>
      doWhile targets.links head (fun le s => (targets.entry le).bind fun entry => offer handlers et phase entry s)
        targets.allocated.length head { s with event := { s.event with current := some et } }
  passed.map Progress.settle

def isListening (targets : EventTargets ν ℓ) (type : DomString) (et : ν) : Option Bool :=
  match targets.listeners et with
  | none => some false
  | some head =>
    doWhile targets.links head
      (fun le found => (targets.entry le).bind fun entry =>
        if entry.type == type then some (true, true) else some (found, false))
      targets.allocated.length head false

/-- The loop that fills the array of targets from the nodes of a path, with the size of the array: `none` if it
cannot be expanded. `expand` says whether there is memory for a size. -/
def addTargets (targets : EventTargets ν ℓ) (type : DomString) (expand : Nat → Bool) :
    List ν → List ν → Nat → Option (Option (List ν))
  | [], array, _ => some (some array)
  | et :: path, array, allocated =>
    (isListening targets type et).bind fun listening =>
      if listening then
        if array.length = allocated then
          let size := if allocated = 0 then 64 else allocated * 2
          if expand size then addTargets targets type expand path (array ++ [et]) size else some none
        else addTargets targets type expand path (array ++ [et]) allocated
      else addTargets targets type expand path array allocated

/-- The loops of the capturing and the bubbling phase, and whether they end by `goto cleanup`. -/
def dispatchPhase (targets : EventTargets ν ℓ) (handlers : Handlers ν ℓ) (phase : Phase) :
    List ν → Progress ν ℓ → Option (Progress ν ℓ × Bool)
  | [], s => some (s, false)
  | et :: ets, s =>
    (eventTargetDispatch targets handlers et phase s).bind fun s =>
      if s.event.stopNow || s.event.stop then some (s, true) else dispatchPhase targets handlers phase ets s

def callAction (doc : Document ν) (phase : DefaultActionPhase) (s : Progress ν ℓ) : Progress ν ℓ :=
  match doc.actions.bind fun actions => actions s.event.type phase with
  | none => s
  | some action => { s with event := (action s.event).foldl Event.act s.event }

/-- The three phases, and whether they end by `goto cleanup`. -/
def dispatchPhases (targets : EventTargets ν ℓ) (handlers : Handlers ν ℓ) (et : ν) (array : List ν)
    (s : Progress ν ℓ) : Option (Progress ν ℓ × Bool) :=
  (dispatchPhase targets handlers .capturing array.reverse s).bind fun (s, stopped) =>
    if stopped then some (s, true)
    else
      let s := { s with event := { s.event with phase := some .atTarget, current := some et } }
      (eventTargetDispatch targets handlers et .atTarget s).bind fun s =>
        if s.event.stopNow || s.event.stop then some (s, true)
        else
          let s := { s with event := { s.event with phase := some .bubbling } }
          dispatchPhase targets handlers .bubbling array s

/-- What a dispatch returns, the event and the calls, and the semaphore of the document. -/
structure Outcome (ν ℓ : Type) where
  exception : DomException
  progress : Progress ν ℓ
  dispatchingMutation : Option UInt32

/-- `goto cleanup` and what comes after it. The actions are those of `dei`, if that is set. -/
def cleanup (doc : Document ν) (semaphore : UInt32) (dei : Bool) (exception : DomException) (s : Progress ν ℓ) :
    Outcome ν ℓ :=
  let semaphore := if eventIsMutation s.event then semaphore - 1 else semaphore
  let s := s.settle
  ⟨exception, if dei then callAction doc .finished s else s, some semaphore⟩

/-- `_dom_node_dispatch_event`, where `owner` is the document of the target, if it has one. -/
def dispatchEvent (targets : EventTargets ν ℓ) (parents : Trail.Links ν) (owner : Option (Document ν))
    (expand : Nat → Bool) (handlers : Handlers ν ℓ) (et : ν) (evt : Event ν) (success : Bool) :
    Option (Outcome ν ℓ) :=
  let semaphore := owner.map Document.dispatchingMutation
  if evt.inDispatch then some ⟨.dispatchRequestErr, ⟨evt, success, []⟩, semaphore⟩
  else
    let evt := { evt with inDispatch := true }
    if evt.type = [] then some ⟨.unspecifiedEventTypeErr, ⟨evt, success, []⟩, semaphore⟩
    else
      match owner with
      | none => some ⟨.noErr, ⟨evt, success, []⟩, none⟩
      | some doc =>
        let semaphore := if eventIsMutation evt then doc.dispatchingMutation + 1 else doc.dispatchingMutation
        let s : Progress ν ℓ := ⟨evt, true, []⟩
        (addTargets targets evt.type expand (et :: parents.trail et) [] 0).bind fun
          | none => some (cleanup doc semaphore false .noMemErr s)
          | some array =>
            let s := { s with event := { s.event with target := some et, phase := some .capturing } }
            let s := callAction doc .started s
            (dispatchPhases targets handlers et array s).map fun (s, stopped) =>
              let s := if stopped then s
                else callAction doc (if s.event.preventDefault then .prevented else .ended) s
              cleanup doc semaphore true .noErr s

/-- Part of an event that a dispatch with these handlers leaves as it is. -/
structure Lasting (handlers : Handlers ν ℓ) {κ : Type} (part : Event ν → κ) : Prop where
  placed : ∀ (evt : Event ν) current phase, part { evt with current, phase } = part evt
  acted : ∀ heard evt, part ((handlers heard evt).foldl Event.act evt) = part evt

def Event.fixed (evt : Event ν) : Option ν × Bool := (evt.target, evt.inDispatch)

omit [DecidableEq ν] in
theorem fixed_acts (calls : List EventCall) (evt : Event ν) : (calls.foldl Event.act evt).fixed = evt.fixed := by
  induction calls generalizing evt with
  | nil => rfl
  | cons c calls ih =>
    rw [List.foldl_cons, ih]
    cases c <;> rfl

omit [DecidableEq ν] in
theorem lasting_fixed (handlers : Handlers ν ℓ) : Lasting handlers Event.fixed where
  placed _ _ _ := rfl
  acted _ _ := fixed_acts _ _

omit [DecidableEq ν] in
theorem settle_event (s : Progress ν ℓ) : s.settle.event = s.event := by
  unfold Progress.settle
  split <;> rfl

omit [DecidableEq ν] in
theorem settle_heard (s : Progress ν ℓ) : s.settle.heard = s.heard := by
  unfold Progress.settle
  split <;> rfl

omit [DecidableEq ν] in
theorem fixed_callAction (doc : Document ν) (phase : DefaultActionPhase) (s : Progress ν ℓ) :
    (callAction doc phase s).event.fixed = s.event.fixed := by
  unfold callAction
  split
  · rfl
  · exact fixed_acts _ _

omit [DecidableEq ν] in
theorem callAction_heard (doc : Document ν) (phase : DefaultActionPhase) (s : Progress ν ℓ) :
    (callAction doc phase s).heard = s.heard := by
  unfold callAction
  split <;> rfl

variable {targets : EventTargets ν ℓ} {lists : Lists ν ℓ} {own : ν → List Nat}

variable {handlers : Handlers ν ℓ} {κ : Type} {part : Event ν → κ}

theorem Lasting.offer (lasting : Lasting handlers part) (et : ν) (phase : Phase) (entry : ListenerEntry ℓ)
    (s : Progress ν ℓ) :
    ∃ s' stopped, offer handlers et phase entry s = some (s', stopped) ∧ part s'.event = part s.event := by
  unfold EventDispatch.offer
  split
  · split
    · exact ⟨_, _, rfl, lasting.acted _ _⟩
    · exact ⟨_, _, rfl, rfl⟩
  · exact ⟨_, _, rfl, rfl⟩

omit [DecidableEq ν] in
theorem unheard (shows : Shows targets lists own) {et : ν} (first : targets.listeners et = none) : lists et = [] := by
  have empty : own et = [] := List.head?_eq_none_iff.mp ((shows.heads et).symm.trans first)
  exact List.map_eq_nil_iff.mp ((shows.entries et).symm.trans (by rw [empty]; rfl))

theorem eventTargetDispatch_eq (shows : Shows targets lists own) (handlers : Handlers ν ℓ) (et : ν) (phase : Phase)
    (s : Progress ν ℓ) :
    eventTargetDispatch targets handlers et phase s =
      (if (lists et).isEmpty then some s
        else foldUntil (offer handlers et phase) (lists et)
          { s with event := { s.event with current := some et } }).map Progress.settle := by
  have entries := shows.entries et
  unfold eventTargetDispatch
  rcases first : targets.listeners et with _ | head
  · rw [unheard shows first]
    rfl
  · have some : lists et ≠ [] := by
      intro none
      rw [none, List.map_nil, List.map_eq_nil_iff] at entries
      rw [shows.heads, entries] at first
      cases first
    rw [if_neg (by simpa using some), ← shows.foldUntil_eq first]

theorem Lasting.dispatch (lasting : Lasting handlers part) (shows : Shows targets lists own) (et : ν) (phase : Phase)
    (s : Progress ν ℓ) :
    ∃ s', eventTargetDispatch targets handlers et phase s = some s' ∧ part s'.event = part s.event := by
  rw [eventTargetDispatch_eq shows]
  split
  · exact ⟨s.settle, rfl, by rw [settle_event]⟩
  · have step : ∀ entry (t : Progress ν ℓ), part t.event = part s.event → ∃ t' stopped,
        EventDispatch.offer handlers et phase entry t = some (t', stopped) ∧ part t'.event = part s.event := by
      intro entry t kept
      obtain ⟨t', stopped, done, same⟩ := lasting.offer et phase entry t
      exact ⟨t', stopped, done, same.trans kept⟩
    obtain ⟨s', done, kept⟩ := foldUntil_keeps step (lists et)
      (s := { s with event := { s.event with current := some et } }) (lasting.placed s.event _ s.event.phase)
    exact ⟨s'.settle, by rw [done]; rfl, by rw [settle_event, kept]⟩

theorem Lasting.dispatchPhase (lasting : Lasting handlers part) (shows : Shows targets lists own) (phase : Phase)
    (ets : List ν) (s : Progress ν ℓ) :
    ∃ s' stopped, dispatchPhase targets handlers phase ets s = some (s', stopped) ∧ part s'.event = part s.event := by
  induction ets generalizing s with
  | nil => exact ⟨s, false, rfl, rfl⟩
  | cons et ets ih =>
    obtain ⟨s', done, kept⟩ := lasting.dispatch shows et phase s
    rw [EventDispatch.dispatchPhase, done, Option.bind_some]
    split
    · exact ⟨s', true, rfl, kept⟩
    · obtain ⟨s'', stopped, rest, kept'⟩ := ih s'
      exact ⟨s'', stopped, rest, kept'.trans kept⟩

theorem Lasting.dispatchPhases (lasting : Lasting handlers part) (shows : Shows targets lists own) (et : ν)
    (array : List ν) (s : Progress ν ℓ) :
    ∃ s' stopped, dispatchPhases targets handlers et array s = some (s', stopped) ∧
      part s'.event = part s.event := by
  obtain ⟨s₁, stopped₁, first, kept₁⟩ := lasting.dispatchPhase shows .capturing array.reverse s
  rw [EventDispatch.dispatchPhases, first, Option.bind_some]
  cases stopped₁ with
  | true => exact ⟨s₁, true, rfl, kept₁⟩
  | false =>
    obtain ⟨s₂, second, kept₂⟩ := lasting.dispatch shows et .atTarget
      { s₁ with event := { s₁.event with phase := some .atTarget, current := some et } }
    have kept₂ := kept₂.trans ((lasting.placed s₁.event _ _).trans kept₁)
    simp only [second, Option.bind_some, Bool.false_eq_true, if_false]
    split
    · exact ⟨s₂, true, rfl, kept₂⟩
    · obtain ⟨s₃, stopped₃, third, kept₃⟩ := lasting.dispatchPhase shows .bubbling array
        { s₂ with event := { s₂.event with phase := some .bubbling } }
      exact ⟨s₃, stopped₃, third, kept₃.trans ((lasting.placed s₂.event s₂.event.current _).trans kept₂)⟩

omit [DecidableEq ν] in
theorem isListening_eq (shows : Shows targets lists own) (type : DomString) (et : ν) :
    isListening targets type et = some ((lists et).any (·.type == type)) := by
  have entries := shows.entries et
  unfold isListening
  rcases first : targets.listeners et with _ | head
  · rw [unheard shows first]
    rfl
  · simp only
    rw [shows.foldUntil_eq first (fun entry found => if entry.type == type then some (true, true) else some (found, false))]
    generalize lists et = es
    induction es with
    | nil => rfl
    | cons e es ih =>
      rw [foldUntil, List.any_cons]
      by_cases hit : (e.type == type) = true
      · simp [hit]
      · simpa [hit] using ih

omit [DecidableEq ν] in
theorem addTargets_eq (shows : Shows targets lists own) (type : DomString) (expand : Nat → Bool) (path array : List ν)
    (allocated : Nat) :
    (addTargets targets type expand path array allocated = some none ∧ ∃ size, expand size = false) ∨
      addTargets targets type expand path array allocated =
        some (some (array ++ path.filter fun n => (lists n).any (·.type == type))) := by
  induction path generalizing array allocated with
  | nil => exact .inr (by simp [addTargets])
  | cons et path ih =>
    rw [addTargets, isListening_eq shows, Option.bind_some, List.filter_cons]
    by_cases listening : (lists et).any (·.type == type) = true
    · have more := fun size => ih (array ++ [et]) size
      simp only [List.append_assoc, List.singleton_append] at more
      simp only [listening, if_true]
      generalize (if allocated = 0 then 64 else allocated * 2) = size
      by_cases room : array.length = allocated
      · rw [if_pos room]
        by_cases granted : expand size = true
        · rw [if_pos granted]
          exact more size
        · rw [if_neg granted]
          exact .inl ⟨rfl, size, by simpa using granted⟩
      · rw [if_neg room]
        exact more allocated
    · simp only [listening, Bool.false_eq_true, if_false]
      exact ih array allocated

omit [DecidableEq ν] in
theorem fixed_cleanup (doc : Document ν) (semaphore : UInt32) (dei : Bool) (exception : DomException)
    (s : Progress ν ℓ) : (cleanup doc semaphore dei exception s).progress.event.fixed = s.event.fixed := by
  unfold cleanup
  cases dei with
  | true => simp only [if_true, fixed_callAction, settle_event]
  | false => simp only [Bool.false_eq_true, if_false, settle_event]

theorem dispatchEvent_total (shows : Shows targets lists own) (parents : Trail.Links ν) (owner : Option (Document ν))
    (expand : Nat → Bool) (handlers : Handlers ν ℓ) (et : ν) (evt : Event ν) (success : Bool) :
    ∃ outcome, dispatchEvent targets parents owner expand handlers et evt success = some outcome ∧
      outcome.progress.event.inDispatch = true := by
  unfold dispatchEvent
  by_cases already : evt.inDispatch = true
  · exact ⟨_, if_pos already, already⟩
  rw [if_neg already]
  simp only
  split
  · exact ⟨_, rfl, rfl⟩
  rcases owner with _ | doc
  · exact ⟨_, rfl, rfl⟩
  simp only
  rcases addTargets_eq shows evt.type expand (et :: parents.trail et) [] 0 with ⟨full, -⟩ | filled
  · rw [full]
    exact ⟨_, rfl, (congrArg Prod.snd (fixed_cleanup doc _ false _ _) :)⟩
  · rw [filled, Option.bind_some]
    simp only
    obtain ⟨s, stopped, done, kept⟩ := (lasting_fixed handlers).dispatchPhases shows et
      ([] ++ (et :: parents.trail et).filter fun n => (lists n).any (·.type == evt.type))
      (callAction doc .started ⟨{ evt with inDispatch := true, target := some et, phase := some .capturing }, true, []⟩)
    rw [done]
    refine ⟨_, rfl, ?_⟩
    have out := kept.trans (fixed_callAction doc .started _)
    refine (congrArg Prod.snd (fixed_cleanup doc _ true _ _) :).trans ?_
    cases stopped with
    | true => exact congrArg Prod.snd out
    | false => exact congrArg Prod.snd ((fixed_callAction doc _ s).trans out)

end Besra.EventDispatch
