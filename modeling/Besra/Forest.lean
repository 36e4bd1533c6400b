import Mathlib.Data.List.Infix

/-!
Trees in which a node points to its first child and to its next sibling, and in which a key finds a node among its
siblings.
-/
namespace Besra
open List Option

inductive Forest (α : Type) where
  | null
  | node (value : α) (children next : Forest α)
deriving DecidableEq

namespace Forest

variable {α κ : Type} (key : α → κ)

/-! ### The nodes and their addresses -/

def siblings : Forest α → List (α × Forest α)
  | .null => []
  | .node v cs next => (v, cs) :: siblings next

def entries : Forest α → List (List κ × α)
  | .null => []
  | .node v cs next => ([key v], v) :: (entries cs).map (fun e => (key v :: e.1, e.2)) ++ entries next

variable {w v : α} {a ks : List κ} {cs next t : Forest α} {k k' : κ} {after : α → α → Bool} {vs : List α} {f : α → α}

theorem mem_entries_node :
    (a, w) ∈ entries key (.node v cs next) ↔
      (a = [key v] ∧ w = v) ∨ (∃ b, a = key v :: b ∧ (b, w) ∈ entries key cs) ∨ (a, w) ∈ entries key next := by
  rw [entries, cons_append, mem_cons, mem_append, List.mem_map, Prod.mk.injEq]
  constructor
  · rintro (same | ⟨e, inside, same⟩ | later)
    · exact .inl same
    · obtain ⟨rfl, rfl⟩ := Prod.mk.inj same
      exact .inr (.inl ⟨e.1, rfl, inside⟩)
    · exact .inr (.inr later)
  · rintro (same | ⟨b, rfl, inside⟩ | later)
    · exact .inl same
    · exact .inr (.inl ⟨(b, w), inside, rfl⟩)
    · exact .inr (.inr later)

theorem ne_nil_of_mem_entries : ([], v) ∉ entries key t := by
  induction t with
  | null => simp [entries]
  | node w cs next ihc ihn =>
    rw [mem_entries_node]
    rintro (⟨impossible, -⟩ | ⟨b, impossible, -⟩ | later)
    · exact absurd impossible (by simp)
    · exact absurd impossible (by simp)
    · exact ihn later

theorem mem_entries_of_sibling (sibling : (v, cs) ∈ siblings t) :
    ([key v], v) ∈ entries key t ∧ ∀ a w, (a, w) ∈ entries key cs → (key v :: a, w) ∈ entries key t := by
  induction t with
  | null => simp [siblings] at sibling
  | node w ws next _ ih =>
    rcases mem_cons.mp sibling with same | later
    · obtain ⟨rfl, rfl⟩ := Prod.mk.inj same
      refine ⟨(mem_entries_node key).mpr (.inl ⟨rfl, rfl⟩), ?_⟩
      intro a w inside
      exact (mem_entries_node key).mpr (.inr (.inl ⟨a, rfl, inside⟩))
    · obtain ⟨here, below⟩ := ih later
      refine ⟨(mem_entries_node key).mpr (.inr (.inr here)), ?_⟩
      intro a w inside
      exact (mem_entries_node key).mpr (.inr (.inr (below a w inside)))

/-! ### Operations -/

variable [DecidableEq κ]

def find (k : κ) : Forest α → Option (α × Forest α)
  | .null => none
  | .node v cs next => if key v = k then some (v, cs) else find k next

/-- The nodes on the way down an address, as far as it leads. -/
def line : List κ → Forest α → List (α × Forest α)
  | [], _ => []
  | k :: ks, t =>
    match find key k t with
    | none => []
    | some (v, cs) => (v, cs) :: line ks cs

def lookup : List κ → Forest α → Option α
  | [], _ => none
  | k :: ks, t =>
    match find key k t with
    | none => none
    | some (v, cs) => if ks = [] then some v else lookup ks cs

/-- A sibling without children, put before the first one that `after` says comes after it. -/
def insertBefore (after : α → Bool) (v : α) : Forest α → Forest α
  | .null => .node v .null .null
  | .node w cs next => if after w then .node v .null (.node w cs next) else .node w cs (insertBefore after v next)

def under (k : κ) (g : Forest α → Forest α) : Forest α → Forest α
  | .null => .null
  | .node v cs next => if key v = k then .node v (g cs) next else .node v cs (under k g next)

/-- The way down the keys of `vs`, with the nodes of `vs` themselves where there were none. -/
def extend (after : α → α → Bool) : List α → Forest α → Forest α
  | [], t => t
  | v :: vs, t =>
    under key (key v) (extend after vs) (if (find key (key v) t).isSome then t else insertBefore (after v) v t)

def alter (k : κ) (f : α → α) : Forest α → Forest α
  | .null => .null
  | .node v cs next => if key v = k then .node (f v) cs next else .node v cs (alter k f next)

def update (f : α → α) : List κ → Forest α → Forest α
  | [], t => t
  | [k], t => alter key k f t
  | k :: k' :: ks, t => under key k (update f (k' :: ks)) t

def mapSiblings (f : α → α) : Forest α → Forest α
  | .null => .null
  | .node v cs next => .node (f v) cs (mapSiblings f next)

/-! ### The way down -/

theorem key_of_find (found : find key k t = some (v, cs)) : key v = k ∧ (v, cs) ∈ siblings t := by
  induction t with
  | null => simp [find] at found
  | node w ws next _ ih =>
    rw [find] at found
    by_cases same : key w = k
    · rw [if_pos same] at found
      obtain ⟨rfl, rfl⟩ := Prod.mk.inj (Option.some.inj found)
      exact ⟨same, mem_cons_self⟩
    · rw [if_neg same] at found
      exact ⟨(ih found).1, mem_cons_of_mem _ (ih found).2⟩

theorem mem_entries_of_line (on : (v, cs) ∈ line key ks t) :
    ∃ before, before ++ [key v] <+: ks ∧ (before ++ [key v], v) ∈ entries key t ∧
      ∀ a w, (a, w) ∈ entries key cs → (before ++ key v :: a, w) ∈ entries key t := by
  induction ks generalizing t with
  | nil => simp [line] at on
  | cons k ks ih =>
    rw [line] at on
    split at on
    · simp at on
    next u us found =>
      obtain ⟨rfl, sibling⟩ := key_of_find key found
      obtain ⟨here, below⟩ := mem_entries_of_sibling key sibling
      rcases mem_cons.mp on with same | later
      · obtain ⟨rfl, rfl⟩ := Prod.mk.inj same
        refine ⟨[], ?_, here, below⟩
        exact ⟨ks, rfl⟩
      · obtain ⟨before, shorter, inside, deeper⟩ := ih later
        refine ⟨key u :: before, ?_, below _ _ inside, ?_⟩
        · exact cons_prefix_cons.mpr ⟨rfl, shorter⟩
        · intro a w member
          exact below _ _ (deeper a w member)

theorem mem_entries_of_lookup (found : lookup key ks t = some v) : (ks, v) ∈ entries key t := by
  induction ks generalizing t with
  | nil => simp [lookup] at found
  | cons k ks ih =>
    rw [lookup] at found
    split at found
    · cases found
    next w cs first =>
      obtain ⟨rfl, sibling⟩ := key_of_find key first
      obtain ⟨here, below⟩ := mem_entries_of_sibling key sibling
      split at found
      next last =>
        cases found
        rw [last]
        exact here
      · exact below ks v (ih found)

/-! ### What the operations do to the nodes -/

variable {key}

omit [DecidableEq κ] in
theorem mem_entries_insertBefore {after : α → Bool} (member : (a, w) ∈ entries key (insertBefore after v t)) :
    (a = [key v] ∧ w = v) ∨ (a, w) ∈ entries key t := by
  induction t with
  | null =>
    rw [insertBefore, mem_entries_node] at member
    simpa [entries] using member
  | node u us next _ ih =>
    rw [insertBefore] at member
    split at member
    · rw [mem_entries_node] at member
      rcases member with here | ⟨b, -, impossible⟩ | later
      · exact .inl here
      · simp [entries] at impossible
      · exact .inr later
    · rw [mem_entries_node] at member ⊢
      rcases member with here | below | later
      · exact .inr (.inl here)
      · exact .inr (.inr (.inl below))
      · rcases ih later with new | old
        · exact .inl new
        · exact .inr (.inr (.inr old))

theorem mem_entries_under {g : Forest α → Forest α} (member : (a, w) ∈ entries key (under key k g t)) :
    (a, w) ∈ entries key t ∨ ∃ v cs, find key k t = some (v, cs) ∧ ∃ b, a = k :: b ∧ (b, w) ∈ entries key (g cs) := by
  induction t with
  | null => exact .inl member
  | node u us next _ ih =>
    rw [under] at member
    by_cases same : key u = k
    · rw [if_pos same, mem_entries_node] at member
      rw [mem_entries_node, find, if_pos same]
      rcases member with here | ⟨b, rfl, below⟩ | later
      · exact .inl (.inl here)
      · exact .inr ⟨u, us, rfl, b, by rw [same], below⟩
      · exact .inl (.inr (.inr later))
    · rw [if_neg same, mem_entries_node] at member
      rw [mem_entries_node, find, if_neg same]
      rcases member with here | below | later
      · exact .inl (.inl here)
      · exact .inl (.inr (.inl below))
      · rcases ih later with old | new
        · exact .inl (.inr (.inr old))
        · exact .inr new

theorem mem_entries_extend (member : (a, w) ∈ entries key (extend key after vs t)) :
    (a, w) ∈ entries key t ∨ ∃ before, before ++ [w] <+: vs ∧ a = (before ++ [w]).map key := by
  induction vs generalizing t a with
  | nil => exact .inl member
  | cons v vs ih =>
    rw [extend] at member
    have base : ∀ {b : List κ} {u : α},
        (b, u) ∈ entries key (if (find key (key v) t).isSome then t else insertBefore (after v) v t) →
        (b, u) ∈ entries key t ∨ (b = [key v] ∧ u = v) := by
      intro b u inside
      split at inside
      · exact .inl inside
      · exact (mem_entries_insertBefore inside).symm
    have first : ∃ before, before ++ [v] <+: v :: vs ∧ [key v] = (before ++ [v]).map key :=
      ⟨[], ⟨vs, rfl⟩, rfl⟩
    rcases mem_entries_under member with old | ⟨u, us, found, b, rfl, below⟩
    · rcases base old with old | ⟨rfl, rfl⟩
      · exact .inl old
      · exact .inr first
    · rcases ih below with inside | ⟨before, on, rfl⟩
      · obtain ⟨same, sibling⟩ := key_of_find key found
        have deeper := (mem_entries_of_sibling key sibling).2 b w inside
        rw [same] at deeper
        rcases base deeper with old | ⟨short, rfl⟩
        · exact .inl old
        · rw [short]
          exact .inr first
      · exact .inr ⟨v :: before, cons_prefix_cons.mpr ⟨rfl, on⟩, rfl⟩

theorem mem_entries_alter (member : (a, w) ∈ entries key (alter key k f t)) (keeps : ∀ v, key (f v) = key v) :
    (a, w) ∈ entries key t ∨ (a = [k] ∧ ∃ v, (a, v) ∈ entries key t ∧ w = f v) := by
  induction t with
  | null => exact .inl member
  | node u us next _ ih =>
    rw [alter] at member
    by_cases same : key u = k
    · rw [if_pos same, mem_entries_node, keeps] at member
      rcases member with ⟨rfl, rfl⟩ | below | later
      · exact .inr ⟨by rw [same], u, (mem_entries_node key).mpr (.inl ⟨rfl, rfl⟩), rfl⟩
      · exact .inl ((mem_entries_node key).mpr (.inr (.inl below)))
      · exact .inl ((mem_entries_node key).mpr (.inr (.inr later)))
    · rw [if_neg same, mem_entries_node] at member
      rcases member with here | below | later
      · exact .inl ((mem_entries_node key).mpr (.inl here))
      · exact .inl ((mem_entries_node key).mpr (.inr (.inl below)))
      · rcases ih later with old | ⟨rfl, v, old, changed⟩
        · exact .inl ((mem_entries_node key).mpr (.inr (.inr old)))
        · exact .inr ⟨rfl, v, (mem_entries_node key).mpr (.inr (.inr old)), changed⟩

theorem mem_entries_update (member : (a, w) ∈ entries key (update key f ks t)) (keeps : ∀ v, key (f v) = key v) :
    (a, w) ∈ entries key t ∨ (a = ks ∧ ∃ v, (a, v) ∈ entries key t ∧ w = f v) := by
  induction ks generalizing t a with
  | nil => exact .inl member
  | cons k ks ih =>
    rcases ks with _ | ⟨k', ks⟩
    · exact mem_entries_alter member keeps
    · rcases mem_entries_under member with old | ⟨u, us, found, b, rfl, below⟩
      · exact .inl old
      · obtain ⟨rfl, sibling⟩ := key_of_find key found
        have deeper := (mem_entries_of_sibling key sibling).2
        rcases ih below with old | ⟨rfl, v, old, changed⟩
        · exact .inl (deeper _ _ old)
        · exact .inr ⟨rfl, v, deeper _ _ old, changed⟩

omit [DecidableEq κ] in
theorem mem_entries_mapSiblings (member : (a, w) ∈ entries key (mapSiblings f t)) (keeps : ∀ v, key (f v) = key v) :
    (a, w) ∈ entries key t ∨ ∃ v, (a, v) ∈ entries key t ∧ w = f v := by
  induction t with
  | null => exact .inl member
  | node u us next _ ih =>
    rw [mapSiblings, mem_entries_node, keeps] at member
    rcases member with ⟨rfl, rfl⟩ | below | later
    · exact .inr ⟨u, (mem_entries_node key).mpr (.inl ⟨rfl, rfl⟩), rfl⟩
    · exact .inl ((mem_entries_node key).mpr (.inr (.inl below)))
    · rcases ih later with old | ⟨v, old, changed⟩
      · exact .inl ((mem_entries_node key).mpr (.inr (.inr old)))
      · exact .inr ⟨v, (mem_entries_node key).mpr (.inr (.inr old)), changed⟩

/-! ### What is found -/

theorem find_insertBefore {after : α → Bool} (absent : find key (key v) t = none) :
    find key k (insertBefore after v t) = if key v = k then some (v, .null) else find key k t := by
  induction t with
  | null => rfl
  | node w cs next _ ih =>
    rw [find] at absent
    have other : key w ≠ key v := by
      intro same
      rw [if_pos same] at absent
      cases absent
    rw [if_neg other] at absent
    rw [insertBefore]
    split
    · rw [find]
    · rw [find, find, ih absent]
      by_cases same : key w = k
      · have new : key v ≠ k := fun also => other (same.trans also.symm)
        rw [if_pos same, if_pos same, if_neg new]
      · rw [if_neg same, if_neg same]

theorem find_under {g : Forest α → Forest α} :
    find key k' (under key k g t) =
      if k = k' then (find key k t).map (fun e => (e.1, g e.2)) else find key k' t := by
  induction t with
  | null => simp [under, find]
  | node w cs next _ ih =>
    rw [under, find]
    by_cases same : key w = k
    · rw [if_pos same, if_pos same, find, find, same]
      split <;> rfl
    · rw [if_neg same, if_neg same, find, find, ih]
      by_cases here : key w = k'
      · have other : k ≠ k' := fun also => same (here.trans also.symm)
        rw [if_pos here, if_pos here, if_neg other]
      · rw [if_neg here, if_neg here]

theorem find_alter (keeps : ∀ v, key (f v) = key v) :
    find key k' (alter key k f t) =
      if k = k' then (find key k t).map (fun e => (f e.1, e.2)) else find key k' t := by
  induction t with
  | null => simp [alter, find]
  | node w cs next _ ih =>
    rw [alter, find]
    by_cases same : key w = k
    · rw [if_pos same, if_pos same, find, find, keeps, same]
      split <;> rfl
    · rw [if_neg same, if_neg same, find, find, ih]
      by_cases here : key w = k'
      · have other : k ≠ k' := fun also => same (here.trans also.symm)
        rw [if_pos here, if_pos here, if_neg other]
      · rw [if_neg here, if_neg here]

theorem find_extend :
    find key k (extend key after (v :: vs) t) =
      if key v = k then
        some (((find key (key v) t).getD (v, .null)).1, extend key after vs ((find key (key v) t).getD (v, .null)).2)
      else find key k t := by
  rw [extend, find_under]
  rcases there : find key (key v) t with _ | ⟨w, ws⟩
  · rw [if_neg (by simp : ¬ (none : Option (α × Forest α)).isSome = true), find_insertBefore there,
      find_insertBefore there, if_pos rfl]
    split <;> rfl
  · rw [isSome_some, if_pos rfl, there]
    split <;> rfl

theorem lookup_cons :
    lookup key (k :: ks) t =
      (find key k t).bind (fun e => if ks = [] then some e.1 else lookup key ks e.2) := by
  rw [lookup]
  rcases find key k t with _ | ⟨v, cs⟩ <;> rfl

theorem line_ne_nil (there : (lookup key ks t).isSome) : line key ks t ≠ [] := by
  rcases ks with _ | ⟨k, ks⟩
  · simp [lookup] at there
  · rw [lookup_cons] at there
    obtain ⟨v, found⟩ := isSome_iff_exists.mp there
    obtain ⟨⟨w, cs⟩, first, -⟩ := bind_eq_some_iff.mp found
    simp [line, first]

theorem lookup_extend (nonempty : vs ≠ []) : (lookup key (vs.map key) (extend key after vs t)).isSome := by
  induction vs generalizing t with
  | nil => exact absurd rfl nonempty
  | cons v vs ih =>
    rw [map_cons, lookup_cons, find_extend, if_pos rfl, bind_some]
    rcases vs with _ | ⟨w, vs⟩
    · rfl
    · rw [if_neg (by simp)]
      exact ih (by simp)

theorem lookup_extend_of_some (found : lookup key ks t = some v) : lookup key ks (extend key after vs t) = some v := by
  induction vs generalizing t ks with
  | nil => exact found
  | cons w vs ih =>
    rcases ks with _ | ⟨k, ks⟩
    · simp [lookup] at found
    rw [lookup_cons] at found ⊢
    obtain ⟨⟨u, us⟩, first, rest⟩ := bind_eq_some_iff.mp found
    rw [find_extend]
    by_cases same : key w = k
    · rw [if_pos same, same, first, getD_some, bind_some]
      dsimp only at rest ⊢
      split at rest
      next last => rw [if_pos last, ← rest]
      next more =>
        rw [if_neg more]
        exact ih rest
    · rw [if_neg same, first]
      exact rest

theorem lookup_update {ks' : List κ} (keeps : ∀ v, key (f v) = key v) :
    lookup key ks' (update key f ks t) = if ks' = ks then (lookup key ks' t).map f else lookup key ks' t := by
  induction ks generalizing t ks' with
  | nil =>
    rw [update]
    split
    next same =>
      rw [same]
      rfl
    next => rfl
  | cons k ks ih =>
    rcases ks' with _ | ⟨k', ks'⟩
    · rw [if_neg (by simp)]
      rfl
    rw [lookup_cons, lookup_cons]
    rcases ks with _ | ⟨k₂, ks⟩
    · rw [update, find_alter keeps]
      by_cases same : k = k'
      · subst same
        rw [if_pos rfl]
        rcases find key k t with _ | ⟨v, cs⟩
        · simp
        · rw [map_some, bind_some, bind_some]
          dsimp only
          by_cases last : ks' = []
          · rw [if_pos last, if_pos (by rw [last]), if_pos last]
            rfl
          · rw [if_neg last, if_neg (by simpa using last), if_neg last]
      · rw [if_neg same, if_neg (by simp [Ne.symm same])]
    · rw [update, find_under]
      by_cases same : k = k'
      · subst same
        rw [if_pos rfl]
        rcases find key k t with _ | ⟨v, cs⟩
        · simp
        · rw [map_some, bind_some, bind_some]
          dsimp only
          by_cases last : ks' = []
          · rw [if_pos last, if_neg (by simp [last]), if_pos last]
          · rw [if_neg last, ih, if_neg last]
            simp only [List.cons.injEq, true_and]
      · rw [if_neg same, if_neg (by simp [Ne.symm same])]

theorem find_mapSiblings (keeps : ∀ v, key (f v) = key v) :
    find key k (mapSiblings f t) = (find key k t).map (fun e => (f e.1, e.2)) := by
  induction t with
  | null => rfl
  | node w cs next _ ih =>
    rw [mapSiblings, find, find, keeps, ih]
    split <;> rfl

/-! ### A view of the nodes that a change leaves as it is -/

section
variable {β : Type} {g : α → β}

theorem view_update {f : α → α} {ks ks' : List κ} {t : Forest α} (keeps : ∀ v, key (f v) = key v)
    (same : ∀ v, g (f v) = g v) : (lookup key ks' (update key f ks t)).map g = (lookup key ks' t).map g := by
  rw [lookup_update keeps]
  split
  · rw [Option.map_map]
    congr 1
    funext v
    exact same v
  · rfl

variable {t : Forest α} {ks' : List κ} {k : κ} {f : α → α}

theorem view_alter (keeps : ∀ v, key (f v) = key v) (same : ∀ v, g (f v) = g v) :
    (lookup key ks' (alter key k f t)).map g = (lookup key ks' t).map g :=
  @view_update _ _ _ _ _ g f [k] ks' t keeps same

theorem view_mapSiblings (keeps : ∀ v, key (f v) = key v) (same : ∀ v, g (f v) = g v) :
    (lookup key ks' (mapSiblings f t)).map g = (lookup key ks' t).map g := by
  rcases ks' with _ | ⟨k, ks⟩
  · rfl
  · rw [lookup_cons, lookup_cons, find_mapSiblings keeps]
    rcases find key k t with _ | ⟨v, cs⟩
    · rfl
    · simp only [map_some, bind_some]
      split
      · rw [map_some, map_some, same]
      · rfl

theorem view_under {h : Forest α → Forest α}
    (same : ∀ ks' cs, (lookup key ks' (h cs)).map g = (lookup key ks' cs).map g) :
    (lookup key ks' (under key k h t)).map g = (lookup key ks' t).map g := by
  rcases ks' with _ | ⟨k', ks⟩
  · rfl
  · rw [lookup_cons, lookup_cons, find_under]
    by_cases here : k = k'
    · subst here
      rw [if_pos rfl]
      rcases find key k t with _ | ⟨v, cs⟩
      · rfl
      · simp only [map_some, bind_some]
        split
        · rfl
        · exact same _ _
    · rw [if_neg here]

end

/-! ### The order of siblings -/

variable (key)

omit [DecidableEq κ] in
def keys : Forest α → List κ
  | .null => []
  | .node v _ next => key v :: keys next

omit [DecidableEq κ] in
/-- A relation holds from every node to the siblings after it, on every level. With `≠` it says that keys are unique
    among siblings. -/
def Ordered (r : κ → κ → Prop) : Forest α → Prop
  | .null => True
  | .node v cs next => (∀ k ∈ keys key next, r (key v) k) ∧ Ordered r cs ∧ Ordered r next

variable {key} {r : κ → κ → Prop}

omit [DecidableEq κ] in
theorem key_mem_keys (sibling : (v, cs) ∈ siblings t) : key v ∈ keys key t := by
  induction t with
  | null => simp [siblings] at sibling
  | node w ws next _ ih =>
    rcases mem_cons.mp sibling with same | later
    · rw [(Prod.mk.inj same).1]
      exact mem_cons_self
    · exact mem_cons_of_mem _ (ih later)

theorem find_eq_none_iff : find key k t = none ↔ k ∉ keys key t := by
  induction t with
  | null => simp [find, keys]
  | node w ws next _ ih =>
    rw [find, keys, mem_cons, not_or]
    by_cases same : key w = k
    · simp [same]
    · rw [if_neg same, ih]
      exact ⟨fun other => ⟨Ne.symm same, other⟩, And.right⟩

theorem keys_under {g : Forest α → Forest α} : keys key (under key k g t) = keys key t := by
  induction t with
  | null => rfl
  | node w ws next _ ih =>
    rw [under]
    split
    · rfl
    · rw [keys, keys, ih]

theorem keys_alter (keeps : ∀ v, key (f v) = key v) : keys key (alter key k f t) = keys key t := by
  induction t with
  | null => rfl
  | node w ws next _ ih =>
    rw [alter]
    split
    · rw [keys, keys, keeps]
    · rw [keys, keys, ih]

theorem keys_update (keeps : ∀ v, key (f v) = key v) : keys key (update key f ks t) = keys key t := by
  rcases ks with _ | ⟨k, _ | ⟨k', ks⟩⟩
  · rfl
  · exact keys_alter keeps
  · exact keys_under

omit [DecidableEq κ] in
theorem keys_mapSiblings (keeps : ∀ v, key (f v) = key v) : keys key (mapSiblings f t) = keys key t := by
  induction t with
  | null => rfl
  | node w ws next _ ih => rw [mapSiblings, keys, keys, keeps, ih]

omit [DecidableEq κ] in
theorem mem_keys_insertBefore {after : α → Bool} (member : k ∈ keys key (insertBefore after v t)) :
    k = key v ∨ k ∈ keys key t := by
  induction t with
  | null => exact mem_cons.mp member
  | node w ws next _ ih =>
    rw [insertBefore] at member
    split at member
    · exact mem_cons.mp member
    · rcases mem_cons.mp member with here | later
      · exact .inr (here ▸ mem_cons_self)
      · exact (ih later).imp_right (mem_cons_of_mem _)

omit [DecidableEq κ] in
theorem ordered_insertBefore {after : α → Bool} (ordered : Ordered key r t)
    (before : ∀ w, key w ∈ keys key t → after w = false → r (key w) (key v))
    (behind : ∀ w k, key w ∈ keys key t → k ∈ keys key t → after w = true → (k = key w ∨ r (key w) k) → r (key v) k) :
    Ordered key r (insertBefore after v t) := by
  induction t with
  | null => exact ⟨by simp [keys], trivial, trivial⟩
  | node w ws next _ ih =>
    obtain ⟨here, below, later⟩ := ordered
    rw [insertBefore]
    split
    next comes =>
      refine ⟨?_, trivial, here, below, later⟩
      intro k member
      refine behind w k mem_cons_self member comes ?_
      rcases mem_cons.mp member with same | member
      · exact .inl same
      · exact .inr (here k member)
    next goes =>
      refine ⟨?_, below, ih later ?_ ?_⟩
      · intro k member
        rcases mem_keys_insertBefore member with rfl | old
        · exact before w mem_cons_self (by simpa using goes)
        · exact here k old
      · intro u member no
        exact before u (mem_cons_of_mem _ member) no
      · intro u k member member' yes related
        exact behind u k (mem_cons_of_mem _ member) (mem_cons_of_mem _ member') yes related

theorem ordered_under {g : Forest α → Forest α} (ordered : Ordered key r t)
    (keeps : ∀ cs, Ordered key r cs → Ordered key r (g cs)) : Ordered key r (under key k g t) := by
  induction t with
  | null => exact trivial
  | node w ws next _ ih =>
    obtain ⟨here, below, later⟩ := ordered
    rw [under]
    split
    · exact ⟨here, keeps ws below, later⟩
    · refine ⟨?_, below, ih later⟩
      rw [keys_under]
      exact here

theorem ordered_alter (ordered : Ordered key r t) (keeps : ∀ v, key (f v) = key v) :
    Ordered key r (alter key k f t) := by
  induction t with
  | null => exact trivial
  | node w ws next _ ih =>
    obtain ⟨here, below, later⟩ := ordered
    rw [alter]
    split
    · refine ⟨?_, below, later⟩
      rw [keeps]
      exact here
    · refine ⟨?_, below, ih later⟩
      rw [keys_alter keeps]
      exact here

omit [DecidableEq κ] in
theorem ordered_mapSiblings (ordered : Ordered key r t) (keeps : ∀ v, key (f v) = key v) :
    Ordered key r (mapSiblings f t) := by
  induction t with
  | null => exact trivial
  | node w ws next _ ih =>
    obtain ⟨here, below, later⟩ := ordered
    refine ⟨?_, below, ih later⟩
    rw [keeps, keys_mapSiblings keeps]
    exact here

theorem ordered_update (ordered : Ordered key r t) (keeps : ∀ v, key (f v) = key v) :
    Ordered key r (update key f ks t) := by
  induction ks generalizing t with
  | nil => exact ordered
  | cons k ks ih =>
    rcases ks with _ | ⟨k', ks⟩
    · exact ordered_alter ordered keeps
    · exact ordered_under ordered (fun cs inside => ih inside)

theorem ordered_extend (ordered : Ordered key r t)
    (fits : ∀ v ∈ vs, ∀ t, Ordered key r t → key v ∉ keys key t → Ordered key r (insertBefore (after v) v t)) :
    Ordered key r (extend key after vs t) := by
  induction vs generalizing t with
  | nil => exact ordered
  | cons v vs ih =>
    rw [extend]
    refine ordered_under ?_ (fun cs inside => ih inside (fun w member => fits w (mem_cons_of_mem _ member)))
    split
    · exact ordered
    next absent =>
      refine fits v mem_cons_self t ordered (find_eq_none_iff.mp ?_)
      simpa using absent

theorem mem_keys_extend (member : k ∈ keys key (extend key after (v :: vs) t)) : k = key v ∨ k ∈ keys key t := by
  rw [extend, keys_under] at member
  split at member
  · exact .inr member
  · exact mem_keys_insertBefore member

/-! ### Unique keys -/

theorem ordered_of_find (ordered : Ordered key r t) (found : find key k t = some (v, cs)) : Ordered key r cs := by
  induction t with
  | null => simp [find] at found
  | node w ws next _ ih =>
    rw [find] at found
    split at found
    · cases found
      exact ordered.2.1
    · exact ih ordered.2.2 found

theorem lookup_of_mem_entries (ordered : Ordered key r t) (irrefl : ∀ k, ¬ r k k) (member : (a, v) ∈ entries key t) :
    lookup key a t = some v := by
  induction t generalizing a with
  | null => simp [entries] at member
  | node w ws next ihc ihn =>
    obtain ⟨here, below, later⟩ := ordered
    rcases (mem_entries_node key).mp member with ⟨rfl, rfl⟩ | ⟨b, rfl, inside⟩ | after
    · rw [lookup_cons, find, if_pos rfl]
      rfl
    · rw [lookup_cons, find, if_pos rfl, bind_some]
      have nonempty : b ≠ [] := by
        rintro rfl
        exact ne_nil_of_mem_entries key inside
      rw [if_neg nonempty]
      exact ihc below inside
    · have found := ihn later after
      rcases a with _ | ⟨k, a⟩
      · exact absurd after (ne_nil_of_mem_entries key)
      · rw [lookup_cons] at found ⊢
        obtain ⟨⟨u, us⟩, first, rest⟩ := bind_eq_some_iff.mp found
        obtain ⟨rfl, sibling⟩ := key_of_find key first
        have other : key w ≠ key u := by
          intro same
          have related := here _ (key_mem_keys sibling)
          rw [same] at related
          exact irrefl _ related
        rw [find, if_neg other, first]
        exact rest

/-! ### What the nodes hold together -/

variable {β : Type}

omit [DecidableEq κ] in
theorem flatMap_node {g : List κ × α → List β} :
    (entries key (.node v cs next)).flatMap g =
      g ([key v], v) ++ ((entries key cs).flatMap (fun e => g (key v :: e.1, e.2)) ++ (entries key next).flatMap g) := by
  rw [entries, cons_append, flatMap_cons, flatMap_append, flatMap_map]

omit [DecidableEq κ] in
theorem flatMap_insertBefore {after : α → Bool} {g : List κ × α → List β} (silent : ∀ a, g (a, v) = []) :
    (entries key (insertBefore after v t)).flatMap g = (entries key t).flatMap g := by
  induction t with
  | null =>
    rw [insertBefore, flatMap_node, silent]
    rfl
  | node w ws next _ ih =>
    rw [insertBefore]
    split
    · rw [flatMap_node, silent]
      rfl
    · rw [flatMap_node, flatMap_node, ih]

theorem flatMap_under {f : Forest α → Forest α} {g : List κ × α → List β}
    (same : ∀ cs, (entries key (f cs)).flatMap (fun e => g (k :: e.1, e.2)) = (entries key cs).flatMap (fun e => g (k :: e.1, e.2))) :
    (entries key (under key k f t)).flatMap g = (entries key t).flatMap g := by
  induction t with
  | null => rfl
  | node w ws next _ ih =>
    rw [under]
    split
    next here =>
      subst here
      rw [flatMap_node, flatMap_node, same]
    · rw [flatMap_node, flatMap_node, ih]

theorem flatMap_extend {g : List κ × α → List β} (silent : ∀ v ∈ vs, ∀ a, g (a, v) = []) :
    (entries key (extend key after vs t)).flatMap g = (entries key t).flatMap g := by
  induction vs generalizing t g with
  | nil => rfl
  | cons v vs ih =>
    rw [extend, flatMap_under (fun cs => ih (fun w member a => silent w (mem_cons_of_mem _ member) _))]
    split
    · rfl
    · exact flatMap_insertBefore (silent v mem_cons_self)

theorem flatMap_alter {g : List κ × α → List β} (keeps : ∀ v, key (f v) = key v) (same : ∀ a v, g (a, f v) = g (a, v)) :
    (entries key (alter key k f t)).flatMap g = (entries key t).flatMap g := by
  induction t with
  | null => rfl
  | node w ws next _ ih =>
    rw [alter]
    split
    · rw [flatMap_node, flatMap_node, keeps, same]
    · rw [flatMap_node, flatMap_node, ih]

theorem flatMap_update {g : List κ × α → List β} (keeps : ∀ v, key (f v) = key v)
    (same : ∀ a v, g (a, f v) = g (a, v)) :
    (entries key (update key f ks t)).flatMap g = (entries key t).flatMap g := by
  induction ks generalizing t g with
  | nil => rfl
  | cons k ks ih =>
    rcases ks with _ | ⟨k', ks⟩
    · exact flatMap_alter keeps same
    · exact flatMap_under (fun cs => ih (fun a v => same _ v))

/-! ### What some of the nodes hold -/

omit [DecidableEq κ] in
theorem last_of_mem_entries (member : (a, v) ∈ entries key t) : a.getLast? = some (key v) := by
  induction t generalizing a with
  | null => simp [entries] at member
  | node w ws next ihc ihn =>
    rcases (mem_entries_node key).mp member with ⟨rfl, rfl⟩ | ⟨b, rfl, inside⟩ | after
    · rfl
    · rw [List.getLast?_cons, ihc inside]
      rfl
    · exact ihn after

omit [DecidableEq κ] in
theorem first_of_mem_entries (member : (k :: a, v) ∈ entries key t) : k ∈ keys key t := by
  induction t generalizing k a with
  | null => simp [entries] at member
  | node w ws next _ ihn =>
    rw [keys, mem_cons]
    rcases (mem_entries_node key).mp member with ⟨same, -⟩ | ⟨b, same, -⟩ | after
    · exact .inl (List.cons.inj same).1
    · exact .inl (List.cons.inj same).1
    · exact .inr (ihn after)

omit [DecidableEq κ] in
theorem flatMap_siblings {g : α → List β} {t : Forest α} :
    (entries key t).flatMap (fun e => if e.1.length = 1 then g e.2 else []) = (siblings t).flatMap (fun n => g n.1) := by
  induction t with
  | null => rfl
  | node w ws next _ ih =>
    have deeper : (entries key ws).flatMap (fun e => if (key w :: e.1).length = 1 then g e.2 else []) = [] := by
      rw [flatMap_eq_nil_iff]
      rintro ⟨a, v⟩ inside
      have nonempty : a ≠ [] := by
        rintro rfl
        exact ne_nil_of_mem_entries key inside
      rw [if_neg]
      simpa using nonempty
    rw [flatMap_node, deeper, ih, siblings, flatMap_cons]
    rfl

theorem flatMap_of_silent (ordered : Ordered key r t) (irrefl : ∀ k, ¬ r k k) {g : List κ × α → List β}
    (silent : ∀ k' a v, k' ≠ k → g (k' :: a, v) = []) :
    (entries key t).flatMap g =
      (find key k t).elim [] (fun n => g ([k], n.1) ++ (entries key n.2).flatMap (fun e => g (k :: e.1, e.2))) := by
  have others : ∀ {next : Forest α}, k ∉ keys key next → (entries key next).flatMap g = [] := by
    intro next absent
    rw [flatMap_eq_nil_iff]
    rintro ⟨a, v⟩ inside
    rcases a with _ | ⟨k', a⟩
    · exact absurd inside (ne_nil_of_mem_entries key)
    · exact silent k' a v (fun same => absent (same ▸ first_of_mem_entries inside))
  induction t with
  | null => rfl
  | node w ws next _ ih =>
    obtain ⟨here, -, later⟩ := ordered
    rw [flatMap_node, find]
    by_cases same : key w = k
    · subst same
      rw [if_pos rfl, others (fun member => irrefl _ (here _ member)), append_nil]
      rfl
    · rw [if_neg same, silent _ _ _ same, ih later]
      have below : (entries key ws).flatMap (fun e => g (key w :: e.1, e.2)) = [] :=
        flatMap_eq_nil_iff.mpr (fun e _ => silent _ _ _ same)
      rw [below]
      rfl

theorem flatMap_line {t : Forest α} (ordered : Ordered key r t) (irrefl : ∀ k, ¬ r k k) {ks : List κ} {g : α → List β} :
    (entries key t).flatMap (fun e => if e.1 <+: ks then g e.2 else []) = (line key ks t).flatMap (fun n => g n.1) := by
  induction ks generalizing t with
  | nil =>
    rw [line, flatMap_nil, flatMap_eq_nil_iff]
    rintro ⟨a, v⟩ inside
    rw [if_neg]
    intro start
    obtain rfl : a = [] := prefix_nil.mp start
    exact ne_nil_of_mem_entries key inside
  | cons k ks ih =>
    rw [flatMap_of_silent ordered irrefl (k := k), line]
    · rcases found : find key k t with _ | ⟨v, cs⟩
      · rfl
      · have below : Ordered key r cs := ordered_of_find ordered found
        simp only [elim_some, cons_prefix_cons, nil_prefix, and_true, if_true, true_and]
        rw [ih below, flatMap_cons]
    · intro k' a v other
      rw [if_neg]
      intro start
      exact other (cons_prefix_cons.mp start).1

theorem flatMap_lookup (ordered : Ordered key r t) (irrefl : ∀ k, ¬ r k k) (found : lookup key ks t = some v)
    {g : List κ × α → List β} (silent : ∀ a w, a ≠ ks → g (a, w) = []) : (entries key t).flatMap g = g (ks, v) := by
  induction ks generalizing t g with
  | nil => simp [lookup] at found
  | cons k ks ih =>
    rw [lookup_cons] at found
    obtain ⟨⟨w, cs⟩, first, rest⟩ := bind_eq_some_iff.mp found
    rw [flatMap_of_silent ordered irrefl (k := k) (fun k' a w other => silent _ _ (by simp [other])), first, elim_some]
    dsimp only at rest ⊢
    split at rest
    next last =>
      cases rest
      subst last
      have below : (entries key cs).flatMap (fun e => g (k :: e.1, e.2)) = [] := by
        rw [flatMap_eq_nil_iff]
        rintro ⟨a, u⟩ inside
        refine silent _ _ ?_
        intro same
        obtain rfl : a = [] := (List.cons.inj same).2
        exact ne_nil_of_mem_entries key inside
      rw [below, append_nil]
    next more =>
      rw [silent _ _ (by simpa using Ne.symm more), nil_append]
      exact ih (ordered_of_find ordered first) rest (fun a u other => silent _ _ (by simpa using other))

end Forest

end Besra
