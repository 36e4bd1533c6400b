import Besra.EventDispatch
import Mathlib.Data.List.Sort

/-!
In which order a dispatch calls the listeners, and when that is the order that one expects of
it: the capturing listeners of the ancestors from the root down, the listeners of the
target, then, if the event bubbles, the other listeners of the ancestors upwards, on a node
in the order of registration, and none once the event has been stopped.
-/
namespace Besra.EventOrder
open Circular EventTarget EventDispatch List Option

variable {ν ℓ : Type}

def isFor (phase : Phase) (entry : ListenerEntry ℓ) : Bool :=
  match phase with
  | .capturing => entry.capture
  | .atTarget => true
  | .bubbling => !entry.capture

def listening (lists : Lists ν ℓ) (type : DomString) (phase : Phase) (et : ν) : List (ListenerEntry ℓ) :=
  (lists et).filter fun entry => entry.type == type && isFor phase entry

def group (phase : Phase) (et : ν) (entries : List (ListenerEntry ℓ)) : List (Heard ν ℓ) :=
  entries.map fun entry => ⟨et, phase, entry⟩

def play (handlers : Handlers ν ℓ) (c : Heard ν ℓ) (s : Progress ν ℓ) : Progress ν ℓ :=
  hear handlers c.node c.phase c.entry
    { s with event := { s.event with current := some c.node, phase := some c.phase } }

def playGroup (handlers : Handlers ν ℓ) : List (Heard ν ℓ) → Progress ν ℓ → Progress ν ℓ
  | [], s => s
  | c :: cs, s => if s.event.stopNow then s else playGroup handlers cs (play handlers c s)

def playGroups (handlers : Handlers ν ℓ) : List (List (Heard ν ℓ)) → Progress ν ℓ → Progress ν ℓ
  | [], s => s
  | cs :: groups, s =>
    if s.event.stopNow || s.event.stop then s else playGroups handlers groups (playGroup handlers cs s)

def inOrder (entries : List (ListenerEntry ℓ)) : List (ListenerEntry ℓ) :=
  entries.insertionSort (·.since ≤ ·.since)

def promisedGroups (lists : Lists ν ℓ) (ancestors : List ν) (et : ν) (type : DomString) (bubble : Bool) :
    List (List (Heard ν ℓ)) :=
  let groupOf := fun phase n => group phase n (inOrder (listening lists type phase n))
  ancestors.reverse.map (groupOf .capturing) ++ [groupOf .atTarget et] ++
    if bubble then ancestors.map (groupOf .bubbling) else []

def begin (doc : Document ν) (et : ν) (evt : Event ν) : Progress ν ℓ :=
  callAction doc .started ⟨{ evt with inDispatch := true, target := some et, phase := some .capturing }, true, []⟩

def promisedCalls (lists : Lists ν ℓ) (parents : Trail.Links ν) (owner : Option (Document ν)) (handlers : Handlers ν ℓ)
    (et : ν) (evt : Event ν) (exception : DomException) : List (Heard ν ℓ) :=
  match owner with
  | none => []
  | some doc =>
    if evt.inDispatch || evt.type.isEmpty || exception = .noMemErr then []
    else (playGroups handlers (promisedGroups lists (parents.trail et) et evt.type evt.bubble) (begin doc et evt)).heard

/-- A dispatch does what it should. -/
structure Promised (lists : Lists ν ℓ) (parents : Trail.Links ν) (owner : Option (Document ν))
    (handlers : Handlers ν ℓ) (et : ν) (evt : Event ν) (outcome : Outcome ν ℓ) : Prop where
  heard : outcome.progress.heard = promisedCalls lists parents owner handlers et evt outcome.exception
  released : outcome.progress.event.inDispatch = false
  semaphore : outcome.dispatchingMutation = owner.map Document.dispatchingMutation

/-- The groups of calls of a dispatch to the first node of a path: the target is in all the phases. -/
def doneGroups (lists : Lists ν ℓ) (path : List ν) (et : ν) (type : DomString) : List (List (Heard ν ℓ)) :=
  let groupOf := fun phase n => group phase n (listening lists type phase n)
  path.reverse.map (groupOf .capturing) ++ [groupOf .atTarget et] ++ path.map (groupOf .bubbling)

/-- Handlers that do not initialise the event anew. -/
def Calm (handlers : Handlers ν ℓ) : Prop := ∀ heard evt, ∀ c ∈ handlers heard evt, ∀ type bubble, c ≠ .init type bubble

/-- Default actions that do not either. -/
def CalmActions (doc : Document ν) : Prop :=
  ∀ actions, doc.actions = some actions → ∀ type phase action, actions type phase = some action →
    ∀ evt, ∀ c ∈ action evt, ∀ type bubble, c ≠ .init type bubble

variable {targets : EventTargets ν ℓ} {lists : Lists ν ℓ} {own : ν → List Nat} {handlers : Handlers ν ℓ}

theorem named_acts {calls : List EventCall} (calm : ∀ c ∈ calls, ∀ type bubble, c ≠ .init type bubble) (evt : Event ν) :
    (calls.foldl Event.act evt).type = evt.type ∧ (calls.foldl Event.act evt).bubble = evt.bubble := by
  induction calls generalizing evt with
  | nil => exact ⟨rfl, rfl⟩
  | cons c calls ih =>
    obtain ⟨type, bubble⟩ := ih (fun c' member => calm c' (mem_cons_of_mem _ member)) (evt.act c)
    rw [foldl_cons, type, bubble]
    cases c with
    | init type bubble => exact absurd rfl (calm _ mem_cons_self _ _)
    | _ => exact ⟨rfl, rfl⟩

theorem placed_acts (calls : List EventCall) (evt : Event ν) :
    (calls.foldl Event.act evt).current = evt.current ∧ (calls.foldl Event.act evt).phase = evt.phase := by
  induction calls generalizing evt with
  | nil => exact ⟨rfl, rfl⟩
  | cons c calls ih =>
    obtain ⟨current, phase⟩ := ih (evt.act c)
    rw [foldl_cons, current, phase]
    cases c <;> exact ⟨rfl, rfl⟩

def pass (handlers : Handlers ν ℓ) : List (Heard ν ℓ) → Progress ν ℓ → Progress ν ℓ
  | [], s => s
  | c :: cs, s =>
    let s := play handlers c s
    if s.event.stopNow then s else pass handlers cs s

variable {s t : Progress ν ℓ} {cs : List (Heard ν ℓ)} {et n : ν} {type : DomString} {phase : Phase}
  {ancestors : List ν} {bubble : Bool} {doc : Document ν}

theorem playGroup_stopped (stopped : s.event.stopNow = true) : playGroup handlers cs s = s := by
  cases cs with
  | nil => rfl
  | cons c cs => rw [playGroup, if_pos stopped]

theorem pass_eq (going : s.event.stopNow = false) : pass handlers cs s = playGroup handlers cs s := by
  induction cs generalizing s with
  | nil => rfl
  | cons c cs ih =>
    show (if (play handlers c s).event.stopNow then play handlers c s else pass handlers cs (play handlers c s)) =
      if s.event.stopNow then s else playGroup handlers cs (play handlers c s)
    rw [going, if_neg Bool.false_ne_true]
    by_cases stopped : (play handlers c s).event.stopNow = true
    · rw [if_pos stopped, playGroup_stopped stopped]
    · rw [if_neg stopped]
      exact ih (by simpa using stopped)

structure Ready (s : Progress ν ℓ) (et : ν) (type : DomString) (phase : Phase) : Prop where
  type : s.event.type = type
  target : s.event.target = some et
  phase : s.event.phase = some phase

theorem Ready.play (ready : Ready s et type phase) (calm : Calm handlers) {c : Heard ν ℓ} (same : c.phase = phase) :
    Ready (play handlers c s) et type phase where
  type := (named_acts (calm _ _) _).1.trans ready.type
  target := (congrArg Prod.fst (fixed_acts _ _) :).trans ready.target
  phase := (placed_acts _ _).2.trans (congrArg some same)

theorem Ready.pass {s : Progress ν ℓ} {et : ν} {type : DomString} {phase : Phase} (ready : Ready s et type phase)
    (calm : Calm handlers) {cs : List (Heard ν ℓ)} (same : ∀ c ∈ cs, c.phase = phase) :
    Ready (pass handlers cs s) et type phase := by
  induction cs generalizing s with
  | nil => exact ready
  | cons c cs ih =>
    have ready := ready.play calm (same c mem_cons_self)
    rw [EventOrder.pass]
    split
    · exact ready
    · exact ih ready (fun c' member => same c' (mem_cons_of_mem _ member))

/-- The same but for the node and the phase at which the event is, which a call sets anew, and `*success`. -/
structure Agree (s t : Progress ν ℓ) : Prop where
  heard : s.heard = t.heard
  event : ∀ current phase, { s.event with current, phase } = { t.event with current, phase }

theorem Agree.rfl : Agree s s := ⟨Eq.refl _, fun _ _ => Eq.refl _⟩

theorem Agree.trans {u : Progress ν ℓ} (one : Agree s t) (other : Agree t u) : Agree s u :=
  ⟨one.heard.trans other.heard, fun current phase => (one.event current phase).trans (other.event current phase)⟩

theorem Agree.settle (agree : Agree s t) : Agree s.settle t :=
  ⟨(settle_heard s).trans agree.heard, fun current phase => by rw [settle_event]; exact agree.event current phase⟩

theorem Agree.stopNow (agree : Agree s t) : s.event.stopNow = t.event.stopNow :=
  (congrArg Event.stopNow (agree.event none none) :)

theorem Agree.stopped (agree : Agree s t) : (s.event.stopNow || s.event.stop) = (t.event.stopNow || t.event.stop) :=
  (congrArg (fun evt => evt.stopNow || evt.stop) (agree.event none none) :)

theorem Agree.play (handlers : Handlers ν ℓ) (agree : Agree s t) (c : Heard ν ℓ) :
    Agree (play handlers c s) (play handlers c t) := by
  have same := agree.event (some c.node) (some c.phase)
  refine ⟨?_, fun current phase => ?_⟩
  · simp only [EventOrder.play, hear, agree.heard]
  · simp only [EventOrder.play, hear, agree.heard, same]

theorem Agree.pass (handlers : Handlers ν ℓ) {s t : Progress ν ℓ} (agree : Agree s t) (cs : List (Heard ν ℓ)) :
    Agree (pass handlers cs s) (pass handlers cs t) := by
  induction cs generalizing s t with
  | nil => exact agree
  | cons c cs ih =>
    have agree := agree.play handlers c
    simp only [EventOrder.pass, agree.stopNow]
    split
    · exact agree
    · exact ih agree

theorem Agree.playGroup (agree : Agree s t) (cs : List (Heard ν ℓ)) :
    Agree (playGroup handlers cs s) (playGroup handlers cs t) := by
  by_cases stopped : s.event.stopNow = true
  · rwa [playGroup_stopped stopped, playGroup_stopped (agree.stopNow ▸ stopped)]
  · have going : s.event.stopNow = false := by simpa using stopped
    rw [← pass_eq going, ← pass_eq (agree.stopNow ▸ going)]
    exact agree.pass handlers cs

theorem Agree.playGroups (handlers : Handlers ν ℓ) (agree : Agree s t) (groups : List (List (Heard ν ℓ))) :
    Agree (playGroups handlers groups s) (playGroups handlers groups t) := by
  induction groups generalizing s t with
  | nil => exact agree
  | cons cs groups ih =>
    simp only [EventOrder.playGroups, agree.stopped]
    split
    · exact agree
    · exact ih (agree.playGroup cs)

theorem playGroups_stopped {groups : List (List (Heard ν ℓ))} (stopped : (s.event.stopNow || s.event.stop) = true) :
    playGroups handlers groups s = s := by
  cases groups with
  | nil => rfl
  | cons cs groups => rw [playGroups, if_pos stopped]

theorem playGroups_append (before after : List (List (Heard ν ℓ))) (s : Progress ν ℓ) :
    playGroups handlers (before ++ after) s = playGroups handlers after (playGroups handlers before s) := by
  induction before generalizing s with
  | nil => rfl
  | cons cs before ih =>
    rw [cons_append, playGroups, playGroups]
    split
    next stopped => rw [playGroups_stopped stopped]
    next => exact ih _

theorem playGroups_nil (groups : List (List (Heard ν ℓ))) (s : Progress ν ℓ) :
    playGroups handlers ([] :: groups) s = playGroups handlers groups s := by
  rw [playGroups]
  split
  next stopped => rw [playGroups_stopped stopped]
  next => rfl

theorem playGroups_filter (nodes : List ν) (p : ν → Bool) (groupOf : ν → List (Heard ν ℓ))
    (silent : ∀ n, p n = false → groupOf n = []) (s : Progress ν ℓ) :
    playGroups handlers ((nodes.filter p).map groupOf) s = playGroups handlers (nodes.map groupOf) s := by
  induction nodes generalizing s with
  | nil => rfl
  | cons n nodes ih =>
    by_cases listens : p n = true
    · simp only [filter_cons, listens, if_true, map_cons, playGroups, ih]
    · rw [filter_cons, if_neg listens, map_cons, silent n (by simpa using listens), playGroups_nil]
      exact ih s

theorem listening_silent (silent : (lists n).any (·.type == type) = false) (phase : Phase) :
    listening lists type phase n = [] := by
  refine filter_eq_nil_iff.mpr fun entry member => ?_
  have other := List.any_eq_false.mp silent entry member
  simp [other]

theorem playGroups_array (path : List ν) (et : ν) (type : DomString) (s : Progress ν ℓ) :
    playGroups handlers (doneGroups lists (path.filter fun n => (lists n).any (·.type == type)) et type) s =
      playGroups handlers (doneGroups lists path et type) s := by
  have silent : ∀ phase n, (lists n).any (·.type == type) = false →
      group phase n (listening lists type phase n) = [] := fun phase n silent => by
    rw [listening_silent silent]
    rfl
  simp only [doneGroups, playGroups_append, ← filter_reverse, playGroups_filter _ _ _ (silent _)]

def Registered (entries : List (ListenerEntry ℓ)) : Prop := entries.Pairwise (·.since ≤ ·.since)

/-- The target listens to nothing, an event that does not bubble has no listeners of the bubbling phase, and the
other listeners stand in the order of their registration. -/
structure TargetDeaf (lists : Lists ν ℓ) (ancestors : List ν) (et : ν) (type : DomString) (bubble : Bool) : Prop where
  target : listening lists type .atTarget et = []
  capturing : ∀ n ∈ ancestors, Registered (listening lists type .capturing n)
  bubbling : ∀ n ∈ ancestors,
    if bubble then Registered (listening lists type .bubbling n) else listening lists type .bubbling n = []

theorem inOrder_eq_iff {entries : List (ListenerEntry ℓ)} : inOrder entries = entries ↔ Registered entries := by
  have total : Std.Total fun a b : ListenerEntry ℓ => a.since ≤ b.since := ⟨fun a b => Nat.le_total a.since b.since⟩
  have transitive : IsTrans (ListenerEntry ℓ) fun a b => a.since ≤ b.since := ⟨fun _ _ _ => Nat.le_trans⟩
  constructor
  · intro same
    have sorted := pairwise_insertionSort (fun a b : ListenerEntry ℓ => a.since ≤ b.since) entries
    exact same ▸ sorted
  · exact List.Pairwise.insertionSort_eq

theorem length_inOrder (entries : List (ListenerEntry ℓ)) : (inOrder entries).length = entries.length :=
  length_insertionSort _ _

theorem listening_atTarget (capturing : listening lists type .capturing n = [])
    (bubbling : listening lists type .bubbling n = []) : listening lists type .atTarget n = [] := by
  refine filter_eq_nil_iff.mpr fun entry member hit => ?_
  have typed : (entry.type == type) = true := (Bool.and_eq_true_iff.mp hit).1
  have notUp := filter_eq_nil_iff.mp bubbling entry member
  have notDown := filter_eq_nil_iff.mp capturing entry member
  rw [typed] at notUp notDown
  rcases capture : entry.capture with _ | _
  · exact notUp (by simp [isFor, capture])
  · exact notDown (by simp [isFor, capture])

theorem listening_of_atTarget (deaf : listening lists type .atTarget n = []) (phase : Phase) :
    listening lists type phase n = [] := by
  refine filter_eq_nil_iff.mpr fun entry member hit => ?_
  refine filter_eq_nil_iff.mp deaf entry member ?_
  rw [(Bool.and_eq_true_iff.mp hit).1]
  rfl

theorem TargetDeaf.heard (deaf : TargetDeaf lists ancestors et type bubble) (handlers : Handlers ν ℓ)
    (s : Progress ν ℓ) :
    playGroups handlers (doneGroups lists (et :: ancestors) et type) s =
      playGroups handlers (promisedGroups lists ancestors et type bubble) s := by
  have capturing : ancestors.reverse.map (fun n => group .capturing n (inOrder (listening lists type .capturing n))) =
      ancestors.reverse.map fun n => group .capturing n (listening lists type .capturing n) :=
    map_congr_left fun n member => by rw [inOrder_eq_iff.mpr (deaf.capturing n (mem_reverse.mp member))]
  have nothing : group .atTarget et (inOrder (listening lists type .atTarget et)) = [] := by
    rw [deaf.target]
    rfl
  have own : ∀ phase, group phase et (listening lists type phase et) = [] := fun phase => by
    rw [listening_of_atTarget deaf.target]
    rfl
  simp only [doneGroups, promisedGroups, reverse_cons, map_append, map_cons, map_nil, own, nothing,
    playGroups_append, playGroups_nil, capturing]
  have up := deaf.bubbling
  cases bubble with
  | true =>
    have bubbling : ancestors.map (fun n => group .bubbling n (inOrder (listening lists type .bubbling n))) =
        ancestors.map fun n => group .bubbling n (listening lists type .bubbling n) :=
      map_congr_left fun n member => by rw [inOrder_eq_iff.mpr (up n member)]
    simp only [if_true, bubbling]
    rfl
  | false =>
    have none : ancestors.map (fun n => group .bubbling n (listening lists type .bubbling n)) =
        ancestors.map fun _ => ([] : List (Heard ν ℓ)) :=
      map_congr_left fun n member => by rw [show listening lists type .bubbling n = [] from up n member]; rfl
    rw [none, ← playGroups_filter ancestors (fun _ => false) _ (fun _ _ => rfl), filter_false]
    rfl

def silent : Handlers ν ℓ := fun _ _ => []

theorem silent_calm : Calm (silent : Handlers ν ℓ) := fun _ _ _ member => absurd member not_mem_nil

theorem silent_playGroup (cs : List (Heard ν ℓ)) (going : (s.event.stopNow || s.event.stop) = false) :
    (playGroup silent cs s).heard = s.heard ++ cs ∧
      ((playGroup silent cs s).event.stopNow || (playGroup silent cs s).event.stop) = false := by
  induction cs generalizing s with
  | nil => exact ⟨(append_nil _).symm, going⟩
  | cons c cs ih =>
    rw [playGroup, if_neg (by simp [(Bool.or_eq_false_iff.mp going).1])]
    obtain ⟨heard, still⟩ := ih (s := play silent c s) going
    exact ⟨heard.trans (append_assoc s.heard [c] cs), still⟩

theorem silent_playGroups (groups : List (List (Heard ν ℓ))) (going : (s.event.stopNow || s.event.stop) = false) :
    (playGroups silent groups s).heard = s.heard ++ groups.flatten := by
  induction groups generalizing s with
  | nil => exact (append_nil _).symm
  | cons cs groups ih =>
    obtain ⟨heard, still⟩ := silent_playGroup cs going
    rw [playGroups, going, if_neg Bool.false_ne_true, ih still, heard, flatten_cons, append_assoc]

theorem group_inj {es es' : List (ListenerEntry ℓ)} (same : group phase n es = group phase n es') : es = es' :=
  map_injective_iff.mpr (fun _ _ same => (Heard.mk.inj same).2.2) same

theorem parts_eq {α β : Type} {f g : α → List β} {l : List α} (lengths : ∀ n ∈ l, (f n).length = (g n).length)
    (same : (l.map f).flatten = (l.map g).flatten) : ∀ n ∈ l, f n = g n := by
  induction l with
  | nil => simp
  | cons n l ih =>
    rw [map_cons, map_cons, flatten_cons, flatten_cons] at same
    obtain ⟨first, rest⟩ := append_inj same (lengths n mem_cons_self)
    rintro m (_ | ⟨_, member⟩)
    · exact first
    · exact ih (fun m member => lengths m (mem_cons_of_mem _ member)) rest m member

theorem length_parts {α β : Type} {f g : α → List β} {l : List α} (lengths : ∀ n ∈ l, (f n).length = (g n).length) :
    (l.map f).flatten.length = (l.map g).flatten.length := by
  simp only [length_flatten, List.map_map]
  exact congrArg List.sum (map_congr_left lengths)

theorem targetDeaf_of_silent (going : (s.event.stopNow || s.event.stop) = false)
    (same : (playGroups silent (doneGroups lists (et :: ancestors) et type) s).heard = (playGroups silent (promisedGroups lists ancestors et type bubble) s).heard) :
    TargetDeaf lists ancestors et type bubble := by
  rw [silent_playGroups _ going, silent_playGroups _ going] at same
  have same := append_cancel_left same
  simp only [doneGroups, promisedGroups, reverse_cons, map_append, map_cons, map_nil,
    flatten_append, flatten_cons, flatten_nil, append_nil, append_assoc] at same
  have lengths : ∀ phase n, (group phase n (listening lists type phase n)).length =
      (group phase n (inOrder (listening lists type phase n))).length := fun phase n => by
    simp [group, length_inOrder]
  have down := length_parts (l := ancestors.reverse) fun n _ => lengths .capturing n
  have up := length_parts (l := ancestors) fun n _ => lengths .bubbling n
  have atTarget := lengths .atTarget et
  -- the calls on the target in the other phases are in excess
  have counted := congrArg List.length same
  simp only [length_append] at counted
  have excess : (group .capturing et (listening lists type .capturing et)).length = 0 ∧
      (group .bubbling et (listening lists type .bubbling et)).length = 0 ∧ (bubble = false →
        (ancestors.map fun n => group .bubbling n (listening lists type .bubbling n)).flatten.length = 0) := by
    cases bubble with
    | true =>
      simp only [if_true] at counted
      exact ⟨by omega, by omega, fun no => by cases no⟩
    | false =>
      simp only [Bool.false_eq_true, if_false, flatten_nil, length_nil] at counted
      exact ⟨by omega, by omega, fun _ => by omega⟩
  obtain ⟨noCapturing, noBubbling, onlyBubbling⟩ := excess
  have none : ∀ phase n, (group phase n (listening lists type phase n)).length = 0 → listening lists type phase n = [] :=
    fun phase n empty => by simpa [group] using empty
  have target := listening_atTarget (none _ _ noCapturing) (none _ _ noBubbling)
  rw [listening_of_atTarget target .capturing, listening_of_atTarget target .bubbling, target] at same
  obtain ⟨downSame, upSame⟩ := append_inj same down
  refine ⟨target, fun n member => ?_, fun n member => ?_⟩
  · have parts := parts_eq (fun n _ => lengths .capturing n) downSame n (mem_reverse.mpr member)
    exact inOrder_eq_iff.mp (group_inj parts).symm
  · cases bubble with
    | true =>
      exact inOrder_eq_iff.mp (group_inj (parts_eq (fun n _ => lengths .bubbling n) upSame n member)).symm
    | false =>
      have empty := flatten_eq_nil_iff.mp (eq_nil_of_length_eq_zero (onlyBubbling rfl)) _
        (List.mem_map_of_mem member)
      exact none _ _ (by rw [empty]; rfl)

theorem promised_iff_targetDeaf (going : (s.event.stopNow || s.event.stop) = false) :
    (∀ handlers, Calm handlers → (playGroups handlers (doneGroups lists (et :: ancestors) et type) s).heard =
      (playGroups handlers (promisedGroups lists ancestors et type bubble) s).heard) ↔
      TargetDeaf lists ancestors et type bubble :=
  ⟨fun all => targetDeaf_of_silent going (all silent silent_calm), fun deaf handlers _ => by rw [deaf.heard]⟩

theorem type_callAction (calm : CalmActions doc) (phase : DefaultActionPhase) (s : Progress ν ℓ) :
    (callAction doc phase s).event.type = s.event.type := by
  unfold callAction
  split
  · rfl
  next action given =>
    obtain ⟨actions, has, gives⟩ := bind_eq_some_iff.mp given
    exact (named_acts (calm actions has _ _ action gives _) _).1

theorem lasting_type (calm : Calm handlers) : Lasting handlers Event.type where
  placed _ _ _ := rfl
  acted _ _ := (named_acts (calm _ _) _).1

theorem cleanup_semaphore {evt : Event ν} (same : s.event.type = evt.type) (dei : Bool) (exception : DomException) :
    (cleanup doc (if eventIsMutation evt then doc.dispatchingMutation + 1 else doc.dispatchingMutation) dei exception
      s).dispatchingMutation = some doc.dispatchingMutation := by
  unfold cleanup eventIsMutation
  rw [same]
  split
  · exact congrArg some (by simp)
  · rfl

section
variable [DecidableEq ν]

variable {phase : Phase} {n et : ν} {evt : Event ν} {type : DomString} {s : Progress ν ℓ}

theorem takesPart_eq (current : evt.current = some n) (target : evt.target = some et)
    (there : phase = .atTarget → n = et) (entry : ListenerEntry ℓ) : takesPart evt phase entry = isFor phase entry := by
  unfold takesPart isFor
  cases phase with
  | capturing =>
    show (entry.capture && true || !entry.capture && false || evt.target == evt.current && false) = entry.capture
    simp
  | bubbling =>
    show (entry.capture && false || !entry.capture && true || evt.target == evt.current && false) = !entry.capture
    simp
  | atTarget => simp [current, target, there rfl]

theorem foldUntil_offer (calm : Calm handlers) (ready : Ready s et type phase) (current : s.event.current = some n)
    (there : phase = .atTarget → n = et) (entries : List (ListenerEntry ℓ)) :
    foldUntil (offer handlers n phase) entries s =
      some (pass handlers (group phase n (entries.filter fun e => e.type == type && isFor phase e)) s) := by
  induction entries generalizing s with
  | nil => rfl
  | cons e es ih =>
    rw [foldUntil, offer, ready.type, takesPart_eq current ready.target there, filter_cons]
    by_cases typed : (e.type == type) = true
    · by_cases fit : isFor phase e = true
      · have placed : play handlers ⟨n, phase, e⟩ s = hear handlers n phase e s := by
          unfold play
          rw [← current, ← ready.phase]
        simp only [typed, fit, Bool.and_self, if_true, bind_some, group, map_cons, pass, placed]
        by_cases stopped : (hear handlers n phase e s).event.stopNow = true
        · rw [if_pos stopped, if_pos stopped]
        · rw [if_neg stopped, if_neg stopped]
          have ready' := ready.play calm (c := ⟨n, phase, e⟩) rfl
          rw [placed] at ready'
          exact ih ready' ((placed_acts _ _).1.trans current)
      · simp only [typed, fit, Bool.and_false, Bool.false_eq_true, if_true, if_false, bind_some]
        exact ih ready current
    · simp only [typed, Bool.false_and, Bool.false_eq_true, if_false, bind_some]
      exact ih ready current

theorem dispatch_agree (shows : Shows targets lists own) (calm : Calm handlers) (ready : Ready s et type phase)
    (there : phase = .atTarget → n = et) :
    ∃ s', eventTargetDispatch targets handlers n phase s = some s' ∧
      Agree s' (pass handlers (group phase n (listening lists type phase n)) s) ∧ Ready s' et type phase := by
  have settled : ∀ t : Progress ν ℓ, Ready t et type phase → Ready t.settle et type phase := fun t ready =>
    ⟨by rw [settle_event, ready.type], by rw [settle_event, ready.target], by rw [settle_event, ready.phase]⟩
  rw [eventTargetDispatch_eq shows]
  by_cases none : lists n = []
  · refine ⟨s.settle, by rw [none]; rfl, ?_, settled s ready⟩
    rw [listening, none]
    exact Agree.rfl.settle
  · rw [if_neg (by simpa using none)]
    have here : Ready { s with event := { s.event with current := some n } } et type phase :=
      ⟨ready.type, ready.target, ready.phase⟩
    rw [foldUntil_offer calm here rfl there]
    have same : Agree { s with event := { s.event with current := some n } } s := ⟨rfl, fun _ _ => rfl⟩
    refine ⟨_, rfl, (same.pass handlers _).settle, settled _ (here.pass calm ?_)⟩
    intro c member
    obtain ⟨entry, -, rfl⟩ := List.mem_map.mp member
    rfl

theorem dispatchPhase_agree (shows : Shows targets lists own) (calm : Calm handlers) (phase : Phase)
    (upOrDown : phase ≠ .atTarget) (ets : List ν) (ready : Ready s et type phase)
    (going : (s.event.stopNow || s.event.stop) = false) :
    ∃ s' stopped, dispatchPhase targets handlers phase ets s = some (s', stopped) ∧
      Agree s' (playGroups handlers (ets.map fun n => group phase n (listening lists type phase n)) s) ∧
      Ready s' et type phase ∧ stopped = (s'.event.stopNow || s'.event.stop) := by
  induction ets generalizing s with
  | nil => exact ⟨s, false, rfl, Agree.rfl, ready, going.symm⟩
  | cons n ets ih =>
    obtain ⟨s₁, done, agree, ready₁⟩ := dispatch_agree shows calm (n := n) ready (fun same => absurd same upOrDown)
    rw [pass_eq (Bool.or_eq_false_iff.mp going).1] at agree
    rw [dispatchPhase, done, bind_some, map_cons, playGroups, going, if_neg Bool.false_ne_true]
    by_cases stopped : (s₁.event.stopNow || s₁.event.stop) = true
    · rw [if_pos stopped, playGroups_stopped (agree.stopped ▸ stopped)]
      exact ⟨s₁, true, rfl, agree, ready₁, stopped.symm⟩
    · rw [if_neg stopped]
      obtain ⟨s₂, stopped₂, done₂, agree₂, rest⟩ := ih ready₁ (by simpa using stopped)
      exact ⟨s₂, stopped₂, done₂, agree₂.trans (agree.playGroups handlers _), rest⟩

theorem dispatchPhases_agree (shows : Shows targets lists own) (calm : Calm handlers) (array : List ν)
    (ready : Ready s et type .capturing) (going : (s.event.stopNow || s.event.stop) = false) :
    ∃ s' stopped, dispatchPhases targets handlers et array s = some (s', stopped) ∧
      Agree s' (playGroups handlers (doneGroups lists array et type) s) := by
  obtain ⟨s₁, stopped₁, done₁, agree₁, ready₁, is₁⟩ := dispatchPhase_agree shows calm .capturing
    (by decide) array.reverse ready going
  rw [dispatchPhases, done₁, bind_some, doneGroups, append_assoc, playGroups_append]
  by_cases stop₁ : stopped₁ = true
  · subst stop₁
    rw [playGroups_stopped (agree₁.stopped ▸ is₁.symm)]
    exact ⟨s₁, true, rfl, agree₁⟩
  have going₁ : (s₁.event.stopNow || s₁.event.stop) = false := by rw [← is₁]; simpa using stop₁
  have ready₁' : Ready { s₁ with event := { s₁.event with phase := some .atTarget, current := some et } } et type
      .atTarget := ⟨ready₁.type, ready₁.target, rfl⟩
  have same : Agree { s₁ with event := { s₁.event with phase := some .atTarget, current := some et } } s₁ :=
    ⟨rfl, fun _ _ => rfl⟩
  obtain ⟨s₂, done₂, agree₂, ready₂⟩ := dispatch_agree shows calm (n := et) ready₁' (fun _ => rfl)
  have agree₂ : Agree s₂ (playGroups handlers [group .atTarget et (listening lists type .atTarget et)]
      (playGroups handlers (array.reverse.map fun n => group .capturing n (listening lists type .capturing n)) s)) := by
    have first := same.pass handlers (group .atTarget et (listening lists type .atTarget et))
    rw [pass_eq (s := s₁) (Bool.or_eq_false_iff.mp going₁).1] at first
    have whole := agree₁.playGroups handlers [group .atTarget et (listening lists type .atTarget et)]
    rw [playGroups, going₁, if_neg Bool.false_ne_true] at whole
    exact agree₂.trans (first.trans whole)
  simp only [stop₁, Bool.false_eq_true, if_false, done₂, bind_some, playGroups_append]
  by_cases stop₂ : (s₂.event.stopNow || s₂.event.stop) = true
  · rw [if_pos stop₂, playGroups_stopped (agree₂.stopped ▸ stop₂)]
    exact ⟨s₂, true, rfl, agree₂⟩
  rw [if_neg stop₂]
  have ready₂' : Ready { s₂ with event := { s₂.event with phase := some .bubbling } } et type .bubbling :=
    ⟨ready₂.type, ready₂.target, rfl⟩
  obtain ⟨s₃, stopped₃, done₃, agree₃, -⟩ := dispatchPhase_agree shows calm .bubbling (by decide) array ready₂'
    (by simpa using stop₂)
  have same₂ : Agree { s₂ with event := { s₂.event with phase := some .bubbling } } s₂ := ⟨rfl, fun _ _ => rfl⟩
  exact ⟨s₃, stopped₃, done₃, agree₃.trans ((same₂.trans agree₂).playGroups handlers _)⟩

theorem semaphore_restored (shows : Shows targets lists own) (parents : Trail.Links ν) (owner : Option (Document ν))
    (calmActions : ∀ doc, owner = some doc → CalmActions doc) (expand : Nat → Bool) (calm : Calm handlers) (et : ν)
    (evt : Event ν) (success : Bool) :
    ∃ outcome, dispatchEvent targets parents owner expand handlers et evt success = some outcome ∧
      outcome.dispatchingMutation = owner.map Document.dispatchingMutation := by
  unfold dispatchEvent
  simp only
  split
  · exact ⟨_, rfl, rfl⟩
  split
  · exact ⟨_, rfl, rfl⟩
  rcases owner with _ | doc
  · exact ⟨_, rfl, rfl⟩
  simp only
  rcases addTargets_eq shows evt.type expand (et :: parents.trail et) [] 0 with ⟨full, -⟩ | filled
  · rw [full]
    exact ⟨_, rfl, cleanup_semaphore rfl false _⟩
  · rw [filled, bind_some]
    have calmDoc := calmActions doc rfl
    obtain ⟨s, stopped, done, kept⟩ := (lasting_type calm).dispatchPhases shows et
      ([] ++ (et :: parents.trail et).filter fun n => (lists n).any (·.type == evt.type))
      (callAction doc .started ⟨{ evt with inDispatch := true, target := some et, phase := some .capturing }, true, []⟩)
    have out : s.event.type = evt.type := kept.trans (type_callAction calmDoc .started _)
    simp only
    rw [done]
    refine ⟨_, rfl, cleanup_semaphore ?_ true _⟩
    cases stopped with
    | true => exact out
    | false => exact (type_callAction calmDoc _ s).trans out

theorem dispatchEvent_heard (shows : Shows targets lists own) (parents : Trail.Links ν) {doc : Document ν}
    (calmActions : CalmActions doc) (calm : Calm handlers) (idle : evt.inDispatch = false) (typed : evt.type ≠ [])
    (success : Bool)
    (going : ((begin doc et evt : Progress ν ℓ).event.stopNow || (begin doc et evt : Progress ν ℓ).event.stop) = false) :
    ∃ outcome, dispatchEvent targets parents (some doc) (fun _ => true) handlers et evt success = some outcome ∧
      outcome.exception = .noErr ∧ outcome.progress.heard =
        (playGroups handlers (doneGroups lists (et :: parents.trail et) et evt.type) (begin doc et evt)).heard := by
  have ready : Ready (begin doc et evt : Progress ν ℓ) et evt.type .capturing := by
    refine ⟨type_callAction calmActions .started _, (congrArg Prod.fst (fixed_callAction doc .started _) :), ?_⟩
    unfold begin callAction
    split
    · rfl
    · exact (placed_acts _ _).2
  obtain ⟨s, stopped, done, agree⟩ := dispatchPhases_agree shows calm
    ((et :: parents.trail et).filter fun n => (lists n).any (·.type == evt.type)) ready going
  unfold dispatchEvent
  rcases addTargets_eq shows evt.type (fun _ => true) (et :: parents.trail et) [] 0 with ⟨-, size, refused⟩ | filled
  · cases refused
  simp only [idle, Bool.false_eq_true, if_false, typed, filled, bind_some, nil_append]
  unfold begin at done
  rw [done, ← playGroups_array]
  refine ⟨_, rfl, rfl, ?_⟩
  simp only [cleanup, if_true, callAction_heard, settle_heard]
  split
  · exact agree.heard
  · rw [callAction_heard, agree.heard]

variable [DecidableEq ℓ]

/-- In whatever order listeners have been added and removed, no dispatch does what it should, as it leaves the event
in dispatch. Its calls are the promised ones for all handlers exactly where the target listens to nothing and
the lists of the ancestors are in order, and the semaphore is as before unless a handler initialises the event. -/
theorem never_released (calls : List (EventTarget.Call ν ℓ)) (parents : Trail.Links ν) (et : ν) (success : Bool) :
    ∃ targets lists, run (initialise, fun _ => []) calls = some (targets, lists) ∧
      (∀ (owner : Option (Document ν)) expand handlers evt, ∃ outcome,
        dispatchEvent targets parents owner expand handlers et evt success = some outcome ∧
          ¬ Promised lists parents owner handlers et evt outcome) ∧
      (∀ (doc : Document ν) (evt : Event ν), CalmActions doc → evt.inDispatch = false → evt.type ≠ [] →
        ((begin doc et evt : Progress ν ℓ).event.stopNow || (begin doc et evt : Progress ν ℓ).event.stop) = false →
        ((∀ handlers, Calm handlers → ∃ outcome,
            dispatchEvent targets parents (some doc) (fun _ => true) handlers et evt success = some outcome ∧
              outcome.progress.heard =
                promisedCalls lists parents (some doc) handlers et evt outcome.exception) ↔
          TargetDeaf lists (parents.trail et) et evt.type evt.bubble)) ∧
      (∀ (owner : Option (Document ν)) expand handlers evt, (∀ doc, owner = some doc → CalmActions doc) →
        Calm handlers → ∃ outcome,
          dispatchEvent targets parents owner expand handlers et evt success = some outcome ∧
            outcome.dispatchingMutation = owner.map Document.dispatchingMutation) := by
  obtain ⟨targets, lists, own, ran, shows⟩ := run_shows calls shows_initialise
  refine ⟨targets, lists, ran, ?_, ?_, ?_⟩
  · intro owner expand handlers evt
    obtain ⟨outcome, done, inDispatch⟩ := dispatchEvent_total shows parents owner expand handlers et evt success
    exact ⟨outcome, done, fun promised => Bool.noConfusion (inDispatch.symm.trans promised.released)⟩
  · intro doc evt calmActions idle typed going
    have promised : ∀ handlers : Handlers ν ℓ, promisedCalls lists parents (some doc) handlers et evt .noErr =
        (playGroups handlers (promisedGroups lists (parents.trail et) et evt.type evt.bubble) (begin doc et evt)).heard := by
      intro handlers
      have nonempty : evt.type.isEmpty = false := by simpa using typed
      simp [promisedCalls, idle, nonempty]
    rw [← promised_iff_targetDeaf going]
    constructor
    · intro all handlers calm
      obtain ⟨outcome, done, same⟩ := all handlers calm
      obtain ⟨outcome', done', noErr, heard⟩ :=
        dispatchEvent_heard shows parents calmActions calm idle typed success going
      obtain rfl := some_inj.mp (done.symm.trans done')
      rw [← heard, same, noErr, promised]
    · intro all handlers calm
      obtain ⟨outcome, done, noErr, heard⟩ :=
        dispatchEvent_heard shows parents calmActions calm idle typed success going
      exact ⟨outcome, done, by rw [noErr, promised, heard, all handlers calm]⟩
  · intro owner expand handlers evt calmActions calm
    exact semaphore_restored shows parents owner calmActions expand calm et evt success

end

def click : DomString := [99, 108, 105, 99, 107]

def lone : Trail.Links Unit := ⟨fun _ => none, fun _ => 0, fun same => by cases same⟩

def page : Document Unit := ⟨0, none⟩

def clicked : Event Unit := ⟨click, none, none, none, true, false, false, false, false⟩

/-- The node listens to clicks, not in the capturing phase. -/
def listens : List (EventTarget.Call Unit Unit) := [.add () click () false (HashChain.memory 0)]

/-- The listener is called when the event is at its target and again when it bubbles, and the event stays in
dispatch. -/
theorem target_heard_twice :
    ∃ targets lists outcome, run (initialise, fun _ => []) listens = some (targets, lists) ∧
      dispatchEvent targets lone (some page) (fun _ => true) silent () clicked true = some outcome ∧
      outcome.progress.heard.map (fun c => (c.phase, c.entry.since)) = [(.atTarget, 0), (.bubbling, 0)] ∧
      outcome.progress.event.inDispatch = true ∧ ¬ Promised lists lone (some page) silent () clicked outcome := by
  refine ⟨_, _, _, rfl, rfl, by decide +kernel, by decide +kernel, fun promised => ?_⟩
  exact absurd promised.released (by decide +kernel)

end Besra.EventOrder
