import Mathlib.Data.List.Basic
import Mathlib.Logic.Relation

/-!
Links that lead back. Each node has at most one next node, of a smaller rank, so the nodes reached from it form a
finite trail, nearest first.
-/
namespace Besra.Trail

/-- A partial function on nodes along which a rank goes down. -/
structure Links (ν : Type) where
  next : ν → Option ν
  rank : ν → Nat
  next_lt : ∀ {n m : ν}, next n = some m → rank m < rank n

namespace Links

variable {ν : Type} (links : Links ν)

def walk : Nat → ν → List ν
  | 0, _ => []
  | k + 1, n =>
    match links.next n with
    | none => []
    | some m => m :: walk k m

/-- All the nodes reached, nearest first. -/
def trail (n : ν) : List ν := links.walk (links.rank n) n

/-- Go on with `step` until a node will do; with `adjacent`, only one step is made. -/
def seek (step : ν → Option ν) (adjacent : Bool) (good : ν → Bool) : Nat → ν → Option ν
  | 0, _ => none
  | k + 1, n =>
    match step n with
    | none => none
    | some m => if good m then some m else if adjacent then none else seek step adjacent good k m

variable {links}

variable {n m : ν} {k : Nat} {good better : ν → Bool}

theorem walk_bound {j : Nat} (enough : links.rank n ≤ k) (enough' : links.rank n ≤ j) :
    links.walk k n = links.walk j n := by
  induction k generalizing j n with
  | zero =>
    rcases linked : links.next n with _ | m
    · cases j <;> simp [walk, linked]
    · have smaller := links.next_lt linked
      omega
  | succ k ih =>
    rcases linked : links.next n with _ | m
    · cases j <;> simp [walk, linked]
    · have smaller := links.next_lt linked
      obtain ⟨j, rfl⟩ : ∃ i, j = i + 1 := ⟨j - 1, by omega⟩
      simp only [walk, linked]
      rw [ih (by omega) (show links.rank m ≤ j by omega)]

theorem trail_none (last : links.next n = none) : links.trail n = [] := by
  unfold trail
  cases links.rank n <;> simp [walk, last]

theorem trail_some (linked : links.next n = some m) : links.trail n = m :: links.trail m := by
  have smaller := links.next_lt linked
  obtain ⟨k, bound⟩ : ∃ k, links.rank n = k + 1 := ⟨links.rank n - 1, by omega⟩
  unfold trail
  rw [bound]
  simp only [walk, linked]
  rw [walk_bound (show links.rank m ≤ k by omega) (Nat.le_refl _)]

theorem induct (links : Links ν) {motive : ν → Prop} (step : ∀ n, (∀ m, links.next n = some m → motive m) → motive n) (n : ν) :
    motive n := by
  induction rank : links.rank n using Nat.strongRecOn generalizing n with
  | _ r ih =>
    refine step n fun m linked => ih (links.rank m) ?_ m rfl
    have smaller := links.next_lt linked
    omega

def Reaches (links : Links ν) (n m : ν) : Prop := Relation.TransGen (fun a b => links.next a = some b) n m

theorem mem_trail : m ∈ links.trail n ↔ links.Reaches n m := by
  induction n using induct links with
  | step n ih =>
    rcases linked : links.next n with _ | k
    · rw [trail_none linked]
      constructor
      · simp
      · intro reached
        rcases Relation.TransGen.head'_iff.mp reached with ⟨k, first, -⟩
        simp [linked] at first
    · rw [trail_some linked, List.mem_cons, ih k linked]
      constructor
      · rintro (rfl | further)
        · exact .single linked
        · exact .head linked further
      · intro reached
        obtain ⟨j, first, further⟩ := Relation.TransGen.head'_iff.mp reached
        obtain rfl : k = j := by simpa [linked] using first
        rcases Relation.reflTransGen_iff_eq_or_transGen.mp further with same | later
        · exact .inl same
        · exact .inr later

theorem Reaches.rank_lt (reached : links.Reaches n m) : links.rank m < links.rank n := by
  induction reached with
  | single linked => exact links.next_lt linked
  | tail _ linked ih => exact Nat.lt_trans (links.next_lt linked) ih

theorem find_eq_some (links : Links ν) (found : (links.trail n).find? good = some m) :
    links.Reaches n m ∧ good m = true :=
  ⟨mem_trail.mp (List.mem_of_find?_eq_some found), List.find?_some found⟩

/-- Any other good node on the trail is behind the one found. -/
theorem find_first (links : Links ν) {k : ν} (found : (links.trail n).find? good = some m)
    (reached : links.Reaches n k) (fits : good k = true) : k = m ∨ links.Reaches m k := by
  induction n using induct links with
  | step n ih =>
    obtain ⟨j, linked, further⟩ := Relation.TransGen.head'_iff.mp reached
    rw [trail_some linked] at found
    by_cases here : good j = true
    · obtain rfl : j = m := by simpa [here] using found
      exact (Relation.reflTransGen_iff_eq_or_transGen.mp further)
    · rcases Relation.reflTransGen_iff_eq_or_transGen.mp further with rfl | later
      · exact (here fits).elim
      · exact ih j linked (by simpa [here] using found) later

theorem find_and (n : ν) :
    (links.trail n).find? (fun m => good m && better m) =
      match (links.trail n).find? good with
      | none => none
      | some m => if better m then some m else (links.trail m).find? fun m => good m && better m := by
  induction n using induct links with
  | step n ih =>
    rcases linked : links.next n with _ | j
    · simp [trail_none linked]
    · rw [trail_some linked]
      by_cases first : good j = true
      · by_cases second : better j = true
        · simp [first, second]
        · simp [first, second]
      · simp [first, ih j linked]

theorem seek_next (links : Links ν) (enough : links.rank n ≤ k) :
    seek links.next false good k n = (links.trail n).find? good := by
  induction k generalizing n with
  | zero =>
    rcases linked : links.next n with _ | m
    · simp [seek, trail_none linked]
    · have smaller := links.next_lt linked
      omega
  | succ k ih =>
    rcases linked : links.next n with _ | m
    · simp [seek, linked, trail_none linked]
    · have smaller := links.next_lt linked
      rw [trail_some linked]
      by_cases first : good m = true
      · simp [seek, linked, first]
      · simp [seek, linked, first, ih (show links.rank m ≤ k by omega)]

theorem seek_find (links : Links ν) (enough : links.rank n ≤ k) :
    seek (fun n => (links.trail n).find? good) false better k n =
      (links.trail n).find? fun m => good m && better m := by
  induction k generalizing n with
  | zero =>
    rcases linked : links.next n with _ | m
    · simp [seek, trail_none linked]
    · have smaller := links.next_lt linked
      omega
  | succ k ih =>
    rw [find_and]
    rcases found : (links.trail n).find? good with _ | m
    · simp [seek, found]
    · have smaller := (find_eq_some links found).1.rank_lt
      by_cases second : better m = true
      · simp [seek, found, second]
      · simp [seek, found, second, ih (show links.rank m ≤ k by omega)]

end Links

end Besra.Trail
