import Mathlib.Data.List.Basic
import Besra.Forest

/-!
Walks over trees by a loop without a stack: a node has a pointer to its first child, to its next sibling and to its
parent.
-/
namespace Besra.TreeWalk
open List

variable {α σ : Type}

/-- Where a walk stands: a node, its children, the siblings behind it, and the siblings behind each of the nodes above
it up to the one with which the walk began. -/
structure Cursor (α : Type) where
  value : α
  children : Forest α
  next : Forest α
  above : List (Forest α)

/-- The next sibling or the next one of a node above; none when that leads back to where the walk began. -/
def climb : Forest α → List (Forest α) → Option (Cursor α)
  | _, [] => none
  | .node v cs next, above => some ⟨v, cs, next, above⟩
  | .null, next :: above => climb next above

/-- The loop. The body is told whether a node has no children; it can fail, and it can say that the walk is over. -/
def walk (body : α → Bool → σ → Option (σ × Bool)) : Nat → Cursor α → σ → Option (σ × Bool)
  | 0, _, _ => none
  | fuel + 1, ⟨value, .node v cs next', next, above⟩, s =>
    match body value false s with
    | some (s, true) => walk body fuel ⟨v, cs, next', next :: above⟩ s
    | stopped => stopped
  | fuel + 1, ⟨value, .null, next, above⟩, s =>
    match body value true s with
    | some (s, true) =>
      match climb next above with
      | some cursor => walk body fuel cursor s
      | none => some (s, true)
    | stopped => stopped

/-- The nodes in the order of a walk, each with whether it has no children. -/
def nodes : Forest α → List (α × Bool)
  | .null => []
  | .node v .null next => (v, true) :: nodes next
  | .node v (.node v' cs next') next => (v, false) :: (nodes (.node v' cs next') ++ nodes next)

/-- The same body, once for every node of a list. -/
def visit (body : α → Bool → σ → Option (σ × Bool)) : List (α × Bool) → σ → Option (σ × Bool)
  | [], s => some (s, true)
  | (v, leaf) :: later, s =>
    match body v leaf s with
    | some (s, true) => visit body later s
    | stopped => stopped

theorem visit_append (body : α → Bool → σ → Option (σ × Bool)) (l r : List (α × Bool)) (s : σ) :
    visit body (l ++ r) s = match visit body l s with
      | some (s, true) => visit body r s
      | stopped => stopped := by
  induction l generalizing s with
  | nil => rfl
  | cons v l ih =>
    obtain ⟨v, leaf⟩ := v
    rw [cons_append, visit, visit]
    rcases body v leaf s with _ | ⟨s', _ | _⟩
    · rfl
    · rfl
    · exact ih s'

def behind : Forest α → List (Forest α) → List (α × Bool)
  | _, [] => []
  | next, next' :: above => nodes next ++ behind next' above

def ahead : Cursor α → List (α × Bool)
  | ⟨v, cs, next, above⟩ => nodes (.node v cs .null) ++ behind next above

theorem climb_behind (next : Forest α) (above : List (Forest α)) :
    behind next above = (climb next above).elim [] ahead := by
  induction above generalizing next with
  | nil => cases next <;> rfl
  | cons next' above ih =>
    rcases next with _ | ⟨v, cs, next⟩
    · rw [behind, climb, ← ih]
      rfl
    · rw [behind, climb, Option.elim_some, ahead, behind]
      · rcases cs with _ | ⟨v', cs, next''⟩ <;> simp [nodes]
      · exact cons_ne_nil _ _

theorem walk_eq (body : α → Bool → σ → Option (σ × Bool)) (fuel : Nat) (cursor : Cursor α) (s : σ)
    (enough : (ahead cursor).length ≤ fuel) : walk body fuel cursor s = visit body (ahead cursor) s := by
  induction fuel generalizing cursor s with
  | zero =>
    obtain ⟨v, _ | ⟨v', cs, next'⟩, next, above⟩ := cursor <;> simp [ahead, nodes] at enough
  | succ fuel ih =>
    obtain ⟨v, _ | ⟨v', cs, next'⟩, next, above⟩ := cursor
    · rw [ahead, nodes, nodes, cons_append, nil_append] at enough ⊢
      rw [walk, visit]
      split
      next s' _ =>
        have remaining := climb_behind next above
        rcases climbed : climb next above with _ | cursor
        · rw [climbed] at remaining
          rw [remaining]
          rfl
        · rw [climbed] at remaining
          rw [remaining] at enough ⊢
          exact ih cursor s' (by simpa using enough)
      next => rfl
    · rw [ahead, nodes, cons_append] at enough ⊢
      rw [walk, visit]
      split
      next s' _ =>
        have same : nodes (.node v' cs next') ++ nodes .null ++ behind next above =
            ahead ⟨v', cs, next', next :: above⟩ := by
          rcases cs with _ | ⟨v'', cs, next''⟩ <;> simp [ahead, nodes, behind]
        rw [same] at enough ⊢
        exact ih _ s' (by simpa using enough)
      next => rfl

theorem walk_from (body : α → Bool → σ → Option (σ × Bool)) {fuel : Nat} (v : α) (cs next : Forest α) (s : σ)
    (enough : (nodes (.node v cs .null)).length ≤ fuel) :
    walk body fuel ⟨v, cs, next, []⟩ s = visit body (nodes (.node v cs .null)) s := by
  have all : ahead ⟨v, cs, next, []⟩ = nodes (.node v cs .null) := by
    rw [ahead, behind, append_nil]
  rw [walk_eq body fuel _ s (by rwa [all]), all]

/-- Every node with its place: how many siblings are before it, and so for the nodes above it, the nearest first. -/
def numbered (above : List Nat) : Nat → Forest α → Forest (List Nat × α)
  | _, .null => .null
  | i, .node v cs next => .node (i :: above, v) (numbered (i :: above) 0 cs) (numbered above (i + 1) next)

/-- The nodes of a tree without a record of their children. -/
def values : Forest α → List α
  | .null => []
  | .node v cs next => v :: (values cs ++ values next)

theorem values_nodes (t : Forest α) : (nodes t).map Prod.fst = values t := by
  induction t with
  | null => rfl
  | node v cs next ihc ihn =>
    rcases cs with _ | ⟨v', cs, next'⟩
    · rw [nodes, map_cons, ihn]
      rfl
    · rw [nodes, map_cons, map_append, ihn, ihc]
      rfl

theorem place_numbered {above : List Nat} {i : Nat} {t : Forest α} {p : List Nat × α}
    (member : p ∈ values (numbered above i t)) : ∃ j, i ≤ j ∧ j :: above <:+ p.1 := by
  induction t generalizing above i with
  | null => exact absurd member not_mem_nil
  | node v cs next ihc ihn =>
    rw [numbered, values, mem_cons, mem_append] at member
    rcases member with rfl | below | later
    · exact ⟨i, le_rfl, suffix_refl _⟩
    · obtain ⟨j, -, ends⟩ := ihc below
      exact ⟨i, le_rfl, (suffix_cons j _).trans ends⟩
    · obtain ⟨j, least, ends⟩ := ihn later
      exact ⟨j, by omega, ends⟩

theorem nodup_numbered (above : List Nat) (i : Nat) (t : Forest α) : (values (numbered above i t)).Nodup := by
  induction t generalizing above i with
  | null => exact nodup_nil
  | node v cs next ihc ihn =>
    rw [numbered, values, nodup_cons, mem_append, nodup_append]
    refine ⟨?_, ihc _ 0, ihn _ (i + 1), ?_⟩
    · rintro (below | later)
      · obtain ⟨j, -, ends⟩ := place_numbered below
        have longer := ends.length_le
        rw [length_cons] at longer
        exact Nat.not_succ_le_self _ longer
      · obtain ⟨j, least, ends⟩ := place_numbered later
        have same := List.IsSuffix.eq_of_length ends rfl
        have number := (List.cons.inj same).1
        omega
    · rintro p below q later rfl
      obtain ⟨k, -, under⟩ := place_numbered below
      obtain ⟨j, least, ends⟩ := place_numbered later
      have here : i :: above <:+ p.1 := (suffix_cons k _).trans under
      have same := List.IsSuffix.eq_of_length (suffix_of_suffix_length_le ends here le_rfl) rfl
      have number := (List.cons.inj same).1
      omega

/-- Every leaf with the nodes above it. -/
def lines : Forest α → List (List α × α)
  | .null => []
  | .node p .null next => ([], p) :: lines next
  | .node p (.node q cs next') next => (lines (.node q cs next')).map (fun l => (p :: l.1, l.2)) ++ lines next

def leaves (t : Forest α) : List α := (lines t).map Prod.snd

theorem leaves_node (p : α) (children next : Forest α) :
    leaves (.node p children next) = leaves (.node p children .null) ++ leaves next := by
  rcases children with _ | ⟨q, cs, next'⟩
  · rfl
  · simp [leaves, lines]

theorem leaves_below (p q : α) (cs next : Forest α) :
    leaves (.node p (.node q cs next) .null) = leaves (.node q cs next) := by
  simp [leaves, lines, Function.comp_def]

theorem leaves_ne_nil (p : α) (children next : Forest α) : leaves (.node p children next) ≠ [] := by
  induction children generalizing p next with
  | null => exact cons_ne_nil _ _
  | node q cs next' ihc _ =>
    rw [leaves_node, leaves_below]
    exact append_ne_nil_of_left_ne_nil (ihc q next') _

theorem leaves_sublist (t : Forest α) : (leaves t).Sublist (values t) := by
  induction t with
  | null => exact List.Sublist.refl _
  | node p children next ihc ihn =>
    rw [leaves_node, values]
    rcases children with _ | ⟨q, cs, next'⟩
    · exact ihn.cons_cons p
    · rw [leaves_below]
      exact (ihc.append ihn).cons p

theorem lines_numbered (above : List Nat) (i : Nat) (t : Forest α) :
    (lines (numbered above i t)).map (fun l => (l.1.map Prod.snd, l.2.2)) = lines t := by
  induction t generalizing above i with
  | null => rfl
  | node v cs next ihc ihn =>
    rcases cs with _ | ⟨q, cs, next'⟩
    · rw [numbered, numbered, lines, map_cons, ihn]
      rfl
    · have below := ihc (i :: above) 0
      rw [numbered] at below
      rw [numbered, numbered, lines, lines, map_append, ihn, map_map, ← below, map_map]
      rfl

theorem mem_leaves_iff {p : α} {t : Forest α} : p ∈ leaves t ↔
    ∃ q cs, (q, cs) ∈ t.siblings ∧ (cs = .null ∧ p = q ∨ p ∈ leaves cs) := by
  induction t with
  | null => simp [leaves, lines, Forest.siblings]
  | node v cs next _ ihn =>
    rw [leaves_node, mem_append, ihn, Forest.siblings]
    have own : p ∈ leaves (.node v cs .null) ↔ cs = .null ∧ p = v ∨ p ∈ leaves cs := by
      rcases cs with _ | ⟨q, ds, next'⟩
      · simp [leaves, lines]
      · rw [leaves_below]
        simp
    rw [own]
    constructor
    · rintro (here | ⟨q, ds, sibling, inside⟩)
      · exact ⟨v, cs, mem_cons_self, here⟩
      · exact ⟨q, ds, mem_cons_of_mem _ sibling, inside⟩
    · rintro ⟨q, ds, sibling, inside⟩
      rcases mem_cons.mp sibling with same | later
      · obtain ⟨rfl, rfl⟩ := Prod.mk.inj same
        exact .inl inside
      · exact .inr ⟨q, ds, later, inside⟩

section Put
variable {κ : Type} [DecidableEq κ] {key : α → κ} {f : α → α} {after : α → α → Bool} {P : α → Prop}

variable {t ds : Forest α} {k : κ} {w v : α} {g : Forest α → Forest α} {before : α → Bool} {vs : List α}

/-- `op` changes the first of the siblings that has the key. -/
structure Edits (key : α → κ) (k : κ) (f : α → α) (g op : Forest α → Forest α) : Prop where
  null : op .null = .null
  node : ∀ v cs next, op (.node v cs next) = if key v = k then .node (f v) (g cs) next else .node v cs (op next)

theorem edits_alter : Edits key k f id (Forest.alter key k f) := ⟨rfl, fun _ _ _ => rfl⟩

theorem edits_under : Edits key k id g (Forest.under key k g) := ⟨rfl, fun _ _ _ => rfl⟩

variable {op : Forest α → Forest α}

theorem Edits.siblings (edits : Edits key k f g op) (member : (w, ds) ∈ (op t).siblings) :
    (w, ds) ∈ t.siblings ∨ ∃ q cs, (q, cs) ∈ t.siblings ∧ w = f q ∧ ds = g cs := by
  induction t with
  | null =>
    rw [edits.null] at member
    exact absurd member not_mem_nil
  | node v cs next _ ih =>
    rw [Forest.siblings]
    rw [edits.node] at member
    split at member <;> rcases mem_cons.mp member with same | later
    · obtain ⟨rfl, rfl⟩ := Prod.mk.inj same
      exact .inr ⟨v, cs, mem_cons_self, rfl, rfl⟩
    · exact .inl (mem_cons_of_mem _ later)
    · exact .inl (by rw [same]; exact mem_cons_self)
    · rcases ih later with old | ⟨q, cs', old, changed⟩
      · exact .inl (mem_cons_of_mem _ old)
      · exact .inr ⟨q, cs', mem_cons_of_mem _ old, changed⟩

theorem Edits.siblings_new (edits : Edits key (key v) f g op) (absent : t.find key (key v) = none)
    (member : (w, ds) ∈ (op (t.insertBefore before v)).siblings) : (w, ds) ∈ t.siblings ∨ w = f v ∧ ds = g .null := by
  induction t with
  | null =>
    rw [Forest.insertBefore, edits.node, if_pos rfl] at member
    exact .inr (Prod.mk.inj (mem_singleton.mp member))
  | node u cs next _ ih =>
    rw [Forest.find] at absent
    split at absent
    · cases absent
    next other =>
      rw [Forest.siblings]
      rw [Forest.insertBefore] at member
      split at member
      · rw [edits.node, if_pos rfl] at member
        rcases mem_cons.mp member with same | later
        · exact .inr (Prod.mk.inj same)
        · exact .inl later
      · rw [edits.node, if_neg other] at member
        rcases mem_cons.mp member with same | later
        · exact .inl (by rw [same]; exact mem_cons_self)
        · exact (ih absent later).imp_left (mem_cons_of_mem _)

theorem Edits.siblings_put (edits : Edits key (key v) f g op)
    (member : (w, ds) ∈ (op (if (t.find key (key v)).isSome then t else t.insertBefore before v)).siblings) :
    (w, ds) ∈ t.siblings ∨ (∃ q cs, (q, cs) ∈ t.siblings ∧ w = f q ∧ ds = g cs) ∨ w = f v ∧ ds = g .null := by
  split at member
  · exact (edits.siblings member).imp_right .inl
  next absent => exact (edits.siblings_new (Option.not_isSome_iff_eq_none.mp absent) member).imp_right .inr

theorem under_id (t : Forest α) : t.under key k (fun cs => cs) = t := by
  induction t with
  | null => rfl
  | node v cs next _ ih => rw [Forest.under, ih, ite_self]

theorem under_under {g' : Forest α → Forest α} (t : Forest α) :
    (t.under key k g').under key k g = t.under key k (fun cs => g (g' cs)) := by
  induction t with
  | null => rfl
  | node v cs next _ ih =>
    rw [Forest.under, Forest.under]
    split
    next same => rw [Forest.under, if_pos same]
    next other => rw [Forest.under, if_neg other, ih]

theorem under_ne_null (some' : t ≠ .null) : t.under key k g ≠ .null := by
  rcases t with _ | ⟨v, cs, next⟩
  · exact absurd rfl some'
  · rw [Forest.under]
    split <;> simp

theorem alter_ne_null (some' : t ≠ .null) : t.alter key k f ≠ .null := by
  rcases t with _ | ⟨v, cs, next⟩
  · exact absurd rfl some'
  · rw [Forest.alter]
    split <;> simp

theorem base_ne_null : (if (t.find key (key v)).isSome then t else t.insertBefore (after v) v) ≠ .null := by
  split
  next there =>
    rintro rfl
    cases there
  · rcases t with _ | ⟨u, cs, next⟩
    · simp [Forest.insertBefore]
    · rw [Forest.insertBefore]
      split <;> simp

theorem put_ne_null : Forest.update key f ((v :: vs).map key) (Forest.extend key after (v :: vs) t) ≠ .null := by
  have grown : Forest.extend key after (v :: vs) t ≠ .null := by
    rw [Forest.extend]
    exact under_ne_null base_ne_null
  rcases vs with _ | ⟨v', vs⟩
  · exact alter_ne_null grown
  · exact under_ne_null grown

variable (key) in
theorem leaves_put (changed : ∀ v, P (f v)) (some' : vs ≠ []) (old : ∀ p ∈ leaves t, P p) :
    ∀ p ∈ leaves (Forest.update key f (vs.map key) (Forest.extend key after vs t)), P p := by
  induction vs generalizing t with
  | nil => exact absurd rfl some'
  | cons v vs ih =>
    intro p member
    rcases vs with _ | ⟨v', vs⟩
    · have same : Forest.update key f ([v].map key) (Forest.extend key after [v] t) =
          (if (t.find key (key v)).isSome then t else t.insertBefore (after v) v).alter key (key v) f := by
        rw [Forest.extend]
        exact congrArg _ (under_id _)
      rw [same] at member
      obtain ⟨w, ds, sibling, here⟩ := mem_leaves_iff.mp member
      rcases edits_alter.siblings_put sibling with before | ⟨q, ds, before, rfl, rfl⟩ | ⟨rfl, rfl⟩
      · exact old p (mem_leaves_iff.mpr ⟨w, ds, before, here⟩)
      · rcases here with ⟨-, rfl⟩ | below
        · exact changed q
        · exact old p (mem_leaves_iff.mpr ⟨q, ds, before, .inr below⟩)
      · rcases here with ⟨-, rfl⟩ | below
        · exact changed v
        · exact absurd below not_mem_nil
    · have same : Forest.update key f ((v :: v' :: vs).map key) (Forest.extend key after (v :: v' :: vs) t) =
          (if (t.find key (key v)).isSome then t else t.insertBefore (after v) v).under key (key v)
            (fun cs => Forest.update key f ((v' :: vs).map key) (Forest.extend key after (v' :: vs) cs)) := by
        rw [Forest.extend]
        exact under_under _
      rw [same] at member
      obtain ⟨w, ds, sibling, here⟩ := mem_leaves_iff.mp member
      have known : (w, ds) ∈ t.siblings ∨ ∃ cs, (∀ q ∈ leaves cs, P q) ∧
          ds = Forest.update key f ((v' :: vs).map key) (Forest.extend key after (v' :: vs) cs) := by
        rcases edits_under.siblings_put sibling with before | ⟨q, cs, before, rfl, changed⟩ | ⟨-, changed⟩
        · exact .inl before
        · exact .inr ⟨cs, fun p below => old p (mem_leaves_iff.mpr ⟨_, cs, before, .inr below⟩), changed⟩
        · exact .inr ⟨.null, fun p below => absurd below not_mem_nil, changed⟩
      rcases known with before | ⟨cs, below, rfl⟩
      · exact old p (mem_leaves_iff.mpr ⟨w, ds, before, here⟩)
      · rcases here with ⟨empty, -⟩ | inside
        · exact absurd empty put_ne_null
        · exact ih (cons_ne_nil _ _) below p inside

end Put

section Kept
variable {κ : Type} [DecidableEq κ] (key : α → κ) {f : α → α} {P : α → Prop}

variable {t : Forest α} {k : κ} {ks : List κ}

theorem leaves_alter (keeps : ∀ v, P v → P (f v)) (old : ∀ p ∈ leaves t, P p) :
    ∀ p ∈ leaves (t.alter key k f), P p := by
  intro p member
  obtain ⟨w, ds, sibling, here⟩ := mem_leaves_iff.mp member
  rcases edits_alter.siblings sibling with before | ⟨q, ds, before, rfl, rfl⟩
  · exact old p (mem_leaves_iff.mpr ⟨w, ds, before, here⟩)
  · rcases here with ⟨empty, rfl⟩ | below
    · exact keeps q (old q (mem_leaves_iff.mpr ⟨q, ds, before, .inl ⟨empty, rfl⟩⟩))
    · exact old p (mem_leaves_iff.mpr ⟨q, ds, before, .inr below⟩)

theorem leaves_under {g : Forest α → Forest α} (keeps : ∀ t, (∀ p ∈ leaves t, P p) → ∀ p ∈ leaves (g t), P p)
    (stays : ∀ t, g t = .null → t = .null) (old : ∀ p ∈ leaves t, P p) : ∀ p ∈ leaves (t.under key k g), P p := by
  intro p member
  obtain ⟨w, ds, sibling, here⟩ := mem_leaves_iff.mp member
  rcases edits_under.siblings sibling with before | ⟨q, cs, before, rfl, rfl⟩
  · exact old p (mem_leaves_iff.mpr ⟨w, ds, before, here⟩)
  · rcases here with ⟨empty, rfl⟩ | below
    · exact old p (mem_leaves_iff.mpr ⟨p, cs, before, .inl ⟨stays cs empty, rfl⟩⟩)
    · exact keeps cs (fun q inside => old q (mem_leaves_iff.mpr ⟨w, cs, before, .inr inside⟩)) p below

theorem leaves_mapSiblings (keeps : ∀ v, P v → P (f v)) (old : ∀ p ∈ leaves t, P p) :
    ∀ p ∈ leaves (t.mapSiblings f), P p := by
  induction t with
  | null => exact old
  | node v cs next _ ih =>
    intro p member
    rw [leaves_node] at old
    rw [Forest.mapSiblings, leaves_node] at member
    rcases mem_append.mp member with here | later
    · rcases cs with _ | ⟨q, ds, next'⟩
      · rw [mem_singleton.mp here]
        exact keeps v (old v (mem_append_left _ mem_cons_self))
      · rw [leaves_below] at here old
        exact old p (mem_append_left _ here)
    · exact ih (fun q inside => old q (mem_append_right _ inside)) p later

theorem update_eq_null (empty : Forest.update key f ks t = .null) : t = .null := by
  by_contra some'
  rcases ks with _ | ⟨k, _ | ⟨k', ks⟩⟩
  · exact some' empty
  · exact alter_ne_null some' empty
  · exact under_ne_null some' empty

theorem leaves_update (keeps : ∀ v, P v → P (f v)) (old : ∀ p ∈ leaves t, P p) :
    ∀ p ∈ leaves (Forest.update key f ks t), P p := by
  induction ks generalizing t with
  | nil => exact old
  | cons k ks ih =>
    rcases ks with _ | ⟨k', ks⟩
    · exact leaves_alter key keeps old
    · exact leaves_under key (fun _ below => ih below) (fun _ => update_eq_null key) old

end Kept

end Besra.TreeWalk
