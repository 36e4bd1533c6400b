import Mathlib.Data.List.Induction

/-!
Runs of a step that can fail, from a first state over a list of operations, and what they keep.
-/
namespace Besra.Runs
open List

variable {σ ω : Type} {f : σ → ω → Option σ} {start s : σ} {history : List ω}

theorem run_keeps {I : List ω → σ → Prop} (ran : history.foldlM f start = some s) (first : I [] start)
    (keeps : ∀ before op after, history = before ++ op :: after → ∀ mid s', before.foldlM f start = some mid →
      I before mid → f mid op = some s' → I (before ++ [op]) s') : I history s := by
  induction history using List.reverseRecOn generalizing s with
  | nil =>
    cases ran
    exact first
  | append_singleton before op ih =>
    rw [foldlM_append] at ran
    obtain ⟨mid, earlier, stepped⟩ := Option.bind_eq_some_iff.mp ran
    obtain ⟨s', one, same⟩ := Option.bind_eq_some_iff.mp stepped
    cases same
    have held := ih earlier (fun b o a split => keeps b o (a ++ [op]) (by rw [split]; simp))
    exact keeps before op [] rfl mid _ earlier held one

theorem run_stays {P : σ → Prop} (ran : history.foldlM f start = some s) (first : P start)
    (keeps : ∀ op ∈ history, ∀ s s', P s → f s op = some s' → P s') : P s :=
  run_keeps (I := fun _ => P) ran first
    (fun _ op _ split _ _ _ held one => keeps op (by simp [split]) _ _ held one)

end Besra.Runs
