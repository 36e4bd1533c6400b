import Besra.Substitution
import Mathlib.Logic.Relation

/-!
Custom properties that refer to themselves. `substitute_tokens` keeps no set of the names
that it is in; it ends because of a counter of its nested calls, for values and fallbacks
alike. Its run is given here with the counter and the flag `*ok` as they are (`substituteRun`).
-/
namespace Besra.VarCycles
open Lwc Besra.Lex CustomProperties Substitution Option

def maxVarDepth : Nat := 10

def varTarget (env : Env) (name : LwcString) (fallback : List Token) : Option (List Token) :=
  match lookupVar env name with
  | some entry => some entry.tokens
  | none => if fallback = [] then none else some fallback

/-- `substitute_tokens` at a depth: `*ok` and what it appends to `out`, or nothing where the bound on its
nested calls and rounds is too small. A round that goes on is a call at the same depth. -/
def substituteRun (env : Env) : Nat → Nat → List Token → Option (Bool × List Token)
  | 0, _, _ => none
  | fuel + 1, depth, ts =>
    if maxVarDepth < depth then some (false, [])
    else
      match ts with
      | [] => some (true, [])
      | t :: rest =>
        if isVarFunction t then
          match findParenClose 1 rest with
          | none => some (false, [])
          | some (body, after) =>
            match parseVarBody body with
            | none => some (false, [])
            | some (name, fallback) =>
              match varTarget env name fallback with
              | none => some (false, [])
              | some target =>
                match substituteRun env fuel (depth + 1) target with
                | none => none
                | some (false, out) => some (false, out)
                | some (true, out) => (substituteRun env fuel depth after).map fun (ok, more) => (ok, out ++ more)
        else (substituteRun env fuel depth rest).map fun (ok, more) => (ok, t :: more)

/-- A call at depth 0 ends, with this value of `*ok`. -/
def Returns (env : Env) (ts : List Token) (ok : Bool) : Prop :=
  ∃ enough out, ∀ fuel, enough ≤ fuel → substituteRun env fuel 0 ts = some (ok, out)

/-- Tokens that come in the place of a reference which is always expanded: the value of a property that is
defined, or the fallback of one that is not. -/
inductive Expands (env : Env) (ts : List Token) : List Token → Prop where
  | value {name : LwcString} {fallback : Option (List Token)} {entry : Entry} (refers : Refers ts name fallback)
      (defined : lookupVar env name = some entry) : Expands env ts entry.tokens
  | fallback {name : LwcString} {instead : List Token} (refers : Refers ts name (some instead))
      (undefined : lookupVar env name = none) : Expands env ts instead

abbrev Reaches (env : Env) : List Token → List Token → Prop := Relation.ReflTransGen (Expands env)

def Through (env : Env) (ts : List Token) (entry : Entry) : Prop :=
  ∃ ts' name fallback, Reaches env ts ts' ∧ Refers ts' name fallback ∧ lookupVar env name = some entry

inductive Formed : List Token → Prop where
  | nil : Formed []
  | copy {t : Token} {ts : List Token} (plain : isVarFunction t = false) (rest : Formed ts) : Formed (t :: ts)
  | var {t : Token} {ts after : List Token} {name : LwcString} {fallback : Option (List Token)}
      (reference : isVarFunction t = true) (is : IsVar ts name fallback after) (rest : Formed after) : Formed (t :: ts)

/-- Every reference that the expansion comes to can be resolved: it is well formed, and its property has a definition or
it has a fallback. -/
def Resolvable (env : Env) (ts : List Token) : Prop :=
  ∀ ts', Reaches env ts ts' → Formed ts' ∧ ∀ name, Refers ts' name none → (lookupVar env name).isSome = true

/-- So many references are expanded one inside of the other. -/
def Deep (env : Env) : Nat → List Token → Prop
  | 0, _ => True
  | n + 1, ts => ∃ ts', Expands env ts ts' ∧ Deep env n ts'

/-- No reference with nothing after its comma is one of an undefined property. -/
def Filled (env : Env) (ts : List Token) : Prop :=
  ∀ ts' name, Reaches env ts ts' → Refers ts' name (some []) → (lookupVar env name).isSome = true

/-- The substitution ends; it refuses what passes through a property that refers to itself, so that the declaration is
dropped; and it refuses nothing else within the bound on the depth. -/
structure Guarded (env : Env) (ts : List Token) : Prop where
  ends : ∃ ok, Returns env ts ok
  cyclic : ∀ entry, Through env ts entry → Through env entry.tokens entry → Returns env ts false ∧
    ∀ (σ : Type) (handlers : Handlers σ) (decl : DeferredDecl), decl.tokens = ts →
      deferredDeclResolve handlers env decl = none
  resolvable : Resolvable env ts → ¬ Deep env (maxVarDepth + 1) ts → Returns env ts true

variable {env : Env}

theorem varValue_eq (deeper : List Token → Option (List Token)) (name : LwcString) (fallback : List Token) :
    varValue env deeper name fallback = (varTarget env name fallback).bind deeper := by
  unfold varValue varTarget
  rcases lookupVar env name with _ | entry
  · dsimp only
    split <;> rfl
  · rfl

/-- The run at a depth ends with an outcome: `*ok` tells whether tokens are substituted, and those are appended. -/
def EndsWith (env : Env) (depth : Nat) (ts : List Token) (result : Option (List Token)) : Prop :=
  ∃ enough ok out, (∀ fuel, enough ≤ fuel → substituteRun env fuel depth ts = some (ok, out)) ∧
    result = if ok then some out else none

variable {ts ts' target : List Token} {name : LwcString} {given : Option (List Token)} {t : Token} {levels : Nat}
  {entry : Entry}

theorem endsWith_round {depth : Nat} {result : Option (List Token)} (ok : Bool) (out : List Token) (enough : Nat)
    (round : ∀ fuel, enough ≤ fuel → substituteRun env (fuel + 1) depth ts = some (ok, out))
    (same : result = if ok then some out else none) : EndsWith env depth ts result := by
  refine ⟨enough + 1, ok, out, fun fuel more => ?_, same⟩
  obtain ⟨fuel, rfl⟩ : ∃ f, fuel = f + 1 := ⟨fuel - 1, by omega⟩
  exact round fuel (by omega)

theorem run_ends (levels : Nat) :
    ∀ depth ts, depth + levels = maxVarDepth + 1 → EndsWith env depth ts (substituteTokens env levels ts) := by
  induction levels with
  | zero =>
    intro depth ts bottom
    have deep : maxVarDepth < depth := by omega
    exact endsWith_round false [] 0 (fun fuel _ => by simp [substituteRun, deep]) rfl
  | succ levels deeper =>
    intro depth ts level
    have shallow : ¬ maxVarDepth < depth := by omega
    generalize bound : ts.length = n
    induction n using Nat.strongRecOn generalizing ts with
    | _ n ih =>
      rcases ts with _ | ⟨t, ts⟩
      · exact endsWith_round true [] 0 (fun fuel _ => by simp [substituteRun, shallow]) (substituteTokens_nil levels)
      rcases reference : isVarFunction t with _ | _
      · obtain ⟨enough, ok, out, run, same⟩ := ih ts.length (by simp at bound; omega) ts rfl
        refine endsWith_round ok (t :: out) enough (fun fuel more => ?_) ?_
        · simp [substituteRun, shallow, reference, run fuel more]
        · rw [substituteTokens_copy reference, same]
          cases ok <;> rfl
      rw [substituteTokens_cons, if_pos reference]
      rcases close : findParenClose 1 ts with _ | ⟨body, after⟩
      · exact endsWith_round false [] 0 (fun fuel _ => by simp [substituteRun, shallow, reference, close]) rfl
      have shorter := findParenClose_shorter close
      simp only [bind_eq_bind, bind_some]
      rcases parts : parseVarBody body with _ | ⟨name, fallback⟩
      · exact endsWith_round false [] 0
          (fun fuel _ => by simp [substituteRun, shallow, reference, close, parts]) rfl
      simp only [bind_some, varValue_eq]
      rcases goal : varTarget env name fallback with _ | target
      · exact endsWith_round false [] 0
          (fun fuel _ => by simp [substituteRun, shallow, reference, close, parts, goal]) rfl
      rw [bind_some]
      obtain ⟨enough, ok, out, run, same⟩ := deeper (depth + 1) target (by omega)
      rw [same]
      cases ok with
      | false =>
        refine endsWith_round false out enough (fun fuel more => ?_) rfl
        simp [substituteRun, shallow, reference, close, parts, goal, run fuel more]
      | true =>
        obtain ⟨enough', ok', out', run', same'⟩ := ih after.length (by simp at bound; omega) after rfl
        refine endsWith_round ok' (out ++ out') (max enough enough') (fun fuel more => ?_) ?_
        · simp [substituteRun, shallow, reference, close, parts, goal, run fuel (by omega), run' fuel (by omega)]
        · rw [same']
          cases ok' <;> rfl

theorem returns_iff {ok : Bool} : Returns env ts ok ↔ ok = (substituteTokens env varLevels ts).isSome := by
  obtain ⟨enough, ok', out, run, same⟩ := @run_ends env varLevels 0 ts rfl
  have flag : (substituteTokens env varLevels ts).isSome = ok' := by
    rw [same]
    cases ok' <;> rfl
  rw [flag]
  constructor
  · rintro ⟨enough', out', run'⟩
    have both := (run' (max enough enough') (by omega)).symm.trans (run _ (by omega))
    exact (Prod.mk.inj (Option.some.inj both)).1
  · rintro rfl
    exact ⟨enough, out, run⟩

theorem expands_mono (more : ∀ name given, Refers ts name given → Refers ts' name given)
    (expands : Expands env ts target) : Expands env ts' target := by
  cases expands with
  | value refers defined => exact .value (more _ _ refers) defined
  | fallback refers undefined => exact .fallback (more _ _ refers) undefined

theorem expands_of_target (refers : Refers ts name given) (goal : varTarget env name (given.getD []) = some target) :
    Expands env ts target := by
  unfold varTarget at goal
  rcases defined : lookupVar env name with _ | entry
  · rw [defined] at goal
    dsimp only at goal
    split at goal
    · cases goal
    rename_i filled
    rcases given with _ | fallback
    · exact absurd rfl filled
    · obtain rfl := some_inj.mp goal
      exact .fallback refers defined
  · rw [defined] at goal
    obtain rfl := some_inj.mp goal
    exact .value refers defined

/-- Each reference in tokens has a nested call. -/
def Answered (env : Env) (ts : List Token) : Prop :=
  ∀ name given, Refers ts name given → (varTarget env name (given.getD [])).isSome = true

theorem target_of_expands (answered : Answered env ts) (expands : Expands env ts target) :
    ∃ name given, Refers ts name given ∧ varTarget env name (given.getD []) = some target := by
  cases expands with
  | value refers defined => exact ⟨_, _, refers, by simp [varTarget, defined]⟩
  | @fallback name _ refers undefined =>
    refine ⟨name, some target, refers, ?_⟩
    have some_target := answered name _ refers
    rw [varTarget, undefined] at some_target ⊢
    dsimp only [getD_some] at some_target ⊢
    split at some_target
    · cases some_target
    · rename_i filled
      rw [if_neg filled]

/-- What a level needs of the tokens: references that are well formed, a nested call for each, and what comes in their
place substituted with one level less. -/
def Level (env : Env) (levels : Nat) (ts : List Token) : Prop :=
  Formed ts ∧ Answered env ts ∧ ∀ ts', Expands env ts ts' → (substituteTokens env levels ts').isSome = true

theorem not_expands_nil (ts' : List Token) : ¬ Expands env [] ts' := by
  rintro (⟨refers, -⟩ | ⟨refers, -⟩) <;> cases refers

theorem level_nil (levels : Nat) : Level env levels [] := by
  refine ⟨.nil, ?_, ?_⟩
  · intro name given refers
    cases refers
  · intro ts' expands
    exact absurd expands (not_expands_nil ts')

theorem level_copy (plain : isVarFunction t = false) (levels : Nat) :
    Level env levels (t :: ts) ↔ Level env levels ts := by
  constructor
  · rintro ⟨formed, answered, substituted⟩
    refine ⟨?_, fun name given refers => answered name given (.copy plain refers), fun ts' expands =>
      substituted ts' (expands_mono (fun _ _ => .copy plain) expands)⟩
    cases formed with
    | copy _ rest => exact rest
    | var reference => simp_all
  · rintro ⟨formed, answered, substituted⟩
    exact ⟨.copy plain formed, fun name given refers => answered name given ((refers_copy plain).mp refers),
      fun ts' expands => substituted ts' (expands_mono (fun _ _ => (refers_copy plain).mp) expands)⟩

theorem level_var {after : List Token} (reference : isVarFunction t = true) (is : IsVar ts name given after)
    (levels : Nat) :
    Level env levels (t :: ts) ↔
      (∃ target, varTarget env name (given.getD []) = some target ∧
        (substituteTokens env levels target).isSome = true) ∧ Level env levels after := by
  have later : ∀ name' given', Refers after name' given' → Refers (t :: ts) name' given' :=
    fun _ _ refers => .skip reference is refers
  constructor
  · rintro ⟨formed, answered, substituted⟩
    obtain ⟨target, goal⟩ := isSome_iff_exists.mp (answered name given (.here reference is))
    refine ⟨⟨target, goal, substituted target (expands_of_target (.here reference is) goal)⟩, ?_,
      fun name' given' refers => answered name' given' (later _ _ refers),
      fun ts' expands => substituted ts' (expands_mono later expands)⟩
    cases formed with
    | copy plain => simp_all
    | var _ is' rest =>
      obtain ⟨-, -, rfl⟩ := is.unique is'
      exact rest
  · rintro ⟨⟨target, goal, value⟩, formed, answered, substituted⟩
    have all : Answered env (t :: ts) := by
      intro name' given' refers
      rcases (refers_var reference is).mp refers with ⟨rfl, rfl⟩ | refers
      · simp [goal]
      · exact answered name' given' refers
    refine ⟨.var reference is formed, all, fun ts' expands => ?_⟩
    obtain ⟨name', given', refers, goal'⟩ := target_of_expands all expands
    rcases (refers_var reference is).mp refers with ⟨rfl, rfl⟩ | refers
    · rw [goal, some_inj] at goal'
      exact goal' ▸ value
    · exact substituted ts' (expands_of_target refers goal')

theorem substituted_iff (levels : Nat) (ts : List Token) :
    (substituteTokens env (levels + 1) ts).isSome = true ↔ Level env levels ts := by
  generalize bound : ts.length = n
  induction n using Nat.strongRecOn generalizing ts with
  | _ n ih =>
    rcases ts with _ | ⟨t, ts⟩
    · rw [substituteTokens_nil]
      exact iff_of_true rfl (level_nil levels)
    rcases reference : isVarFunction t with _ | _
    · rw [substituteTokens_copy reference, level_copy reference, ← ih ts.length (by simp at bound; omega) ts rfl]
      simp [prepend]
    by_cases malformed : ∀ name given after, ¬ IsVar ts name given after
    · rw [substituteTokens_malformed reference malformed]
      refine iff_of_false (by simp) ?_
      rintro ⟨formed, -⟩
      cases formed with
      | copy plain => simp_all
      | var _ is => exact malformed _ _ _ is
    push Not at malformed
    obtain ⟨name, given, after, is⟩ := malformed
    have shorter := is.shorter
    rw [substituteTokens_var reference is, level_var reference is, varValue_eq,
      ← ih after.length (by simp at bound; omega) after rfl]
    rcases goal : varTarget env name (given.getD []) with _ | target
    · simp
    rcases substituted : substituteTokens env levels target with _ | value
    · simp [substituted]
    · simp [substituted, prepend]

theorem substituted_expands (expands : Expands env ts ts')
    (substituted : (substituteTokens env levels ts).isSome = true) :
    ∃ fewer, fewer < levels ∧ (substituteTokens env fewer ts').isSome = true := by
  rcases levels with _ | levels
  · cases substituted
  · exact ⟨levels, Nat.lt_succ_self levels, ((substituted_iff levels ts).mp substituted).2.2 ts' expands⟩

theorem substituted_reaches (reaches : Reaches env ts ts')
    (substituted : (substituteTokens env levels ts).isSome = true) :
    ∃ fewer, fewer ≤ levels ∧ (substituteTokens env fewer ts').isSome = true := by
  induction reaches with
  | refl => exact ⟨levels, Nat.le_refl levels, substituted⟩
  | tail _ expands ih =>
    obtain ⟨fewer, less, here⟩ := ih
    obtain ⟨fewer', less', there⟩ := substituted_expands expands here
    exact ⟨fewer', by omega, there⟩

theorem substituted_through (through : Through env ts entry)
    (substituted : (substituteTokens env levels ts).isSome = true) :
    ∃ fewer, fewer < levels ∧ (substituteTokens env fewer entry.tokens).isSome = true := by
  obtain ⟨ts', name, given, reaches, refers, defined⟩ := through
  obtain ⟨middle, less, here⟩ := substituted_reaches reaches substituted
  obtain ⟨fewer, less', there⟩ := substituted_expands (.value refers defined) here
  exact ⟨fewer, by omega, there⟩

theorem not_substituted_of_cycle (cycle : Through env entry.tokens entry) (levels : Nat) :
    (substituteTokens env levels entry.tokens).isSome = false := by
  induction levels using Nat.strongRecOn with
  | _ levels ih =>
    by_contra substituted
    obtain ⟨fewer, less, again⟩ := substituted_through cycle ((Bool.not_eq_false _).mp substituted)
    rw [ih fewer less] at again
    cases again

theorem not_substituted_of_through (through : Through env ts entry) (cycle : Through env entry.tokens entry)
    (levels : Nat) : substituteTokens env levels ts = none := by
  by_contra substituted
  obtain ⟨fewer, -, value⟩ := substituted_through through (isSome_iff_ne_none.mpr substituted)
  rw [not_substituted_of_cycle cycle fewer] at value
  cases value

theorem substituted_of_shallow (all : ∀ ts', Reaches env ts ts' → Formed ts' ∧ Answered env ts')
    (shallow : ¬ Deep env levels ts) : (substituteTokens env levels ts).isSome = true := by
  induction levels generalizing ts with
  | zero => exact absurd trivial shallow
  | succ levels ih =>
    obtain ⟨formed, answered⟩ := all ts .refl
    refine (substituted_iff levels ts).mpr ⟨formed, answered, fun ts' expands => ?_⟩
    exact ih (fun ts'' reaches => all ts'' (.head expands reaches)) fun deep => shallow ⟨ts', expands, deep⟩

theorem filled_of_substituted (substituted : (substituteTokens env levels ts).isSome = true) : Filled env ts := by
  intro ts' name reaches refers
  obtain ⟨fewer, -, here⟩ := substituted_reaches reaches substituted
  rcases fewer with _ | fewer
  · cases here
  have answered := ((substituted_iff fewer ts').mp here).2.1 name _ refers
  rcases defined : lookupVar env name with _ | entry
  · simp [varTarget, defined] at answered
  · rfl

theorem answered_of_resolvable {ts : List Token} (resolvable : Resolvable env ts) (filled : Filled env ts)
    {ts' : List Token} (reaches : Reaches env ts ts') : Formed ts' ∧ Answered env ts' := by
  refine ⟨(resolvable ts' reaches).1, fun name given refers => ?_⟩
  rcases defined : lookupVar env name with _ | entry
  · rcases given with _ | _ | ⟨t, fallback⟩
    · have := (resolvable ts' reaches).2 name refers
      simp [defined] at this
    · have := filled ts' name reaches refers
      simp [defined] at this
    · simp [varTarget, defined]
  · simp [varTarget, defined]

/-- The substitution always ends, and refuses what passes through a property that refers to itself. It refuses nothing
else that can be resolved within MAX_VAR_DEPTH just where no fallback that it comes to is empty. -/
theorem substitution_guarded_iff (env : Env) (ts : List Token) :
    Guarded env ts ↔ (Resolvable env ts → ¬ Deep env (maxVarDepth + 1) ts → Filled env ts) := by
  constructor
  · intro guarded resolvable shallow
    have ok := returns_iff.mp (guarded.resolvable resolvable shallow)
    exact filled_of_substituted ok.symm
  · intro filled
    refine ⟨⟨_, returns_iff.mpr rfl⟩, ?_, ?_⟩
    · intro entry through cycle
      have nothing := not_substituted_of_through through cycle varLevels
      refine ⟨returns_iff.mpr (by rw [nothing]; rfl), ?_⟩
      rintro σ handlers decl rfl
      simp [deferredDeclResolve, nothing]
    · intro resolvable shallow
      have all := fun ts' reaches => @answered_of_resolvable _ _ resolvable (filled resolvable shallow) ts' reaches
      exact returns_iff.mpr (substituted_of_shallow all shallow).symm

/-- `var(--b,)` -/
def emptyFallback : List Token := [varOpen, named "--b", comma, closeParen]

theorem emptyFallback_isVar : IsVar [named "--b", comma, closeParen] (lit "--b") (some []) [] :=
  isVar_iff.mpr ⟨[named "--b", comma], by decide, by decide⟩

theorem emptyFallback_expands (expands : Expands (oneProperty []) emptyFallback ts) : ts = [] := by
  cases expands with
  | @value name given entry refers defined =>
    rcases (refers_var rfl emptyFallback_isVar).mp refers with ⟨rfl, -⟩ | refers
    · cases defined
    · cases refers
  | fallback refers undefined =>
    rcases (refers_var rfl emptyFallback_isVar).mp refers with ⟨-, same⟩ | refers
    · exact some_inj.mp same
    · cases refers

/-- `var(--b,)` has a fallback and refers to one property, which is not defined; it is refused. -/
theorem emptyFallback_not_guarded : ¬ Guarded (oneProperty []) emptyFallback := by
  intro guarded
  have resolvable : Resolvable (oneProperty []) emptyFallback := by
    intro ts' reaches
    rcases Relation.ReflTransGen.cases_head reaches with rfl | ⟨ts, expands, reaches⟩
    · refine ⟨.var rfl emptyFallback_isVar .nil, fun name refers => ?_⟩
      rcases (refers_var rfl emptyFallback_isVar).mp refers with ⟨-, same⟩ | refers
      · cases same
      · cases refers
    · obtain rfl := emptyFallback_expands expands
      rcases Relation.ReflTransGen.cases_head reaches with rfl | ⟨ts, expands, -⟩
      · refine ⟨.nil, fun name refers => ?_⟩
        cases refers
      · exact absurd expands (not_expands_nil ts)
  have shallow : ¬ Deep (oneProperty []) (maxVarDepth + 1) emptyFallback := by
    rintro ⟨ts, expands, ts', expands', -⟩
    obtain rfl := emptyFallback_expands expands
    exact not_expands_nil ts' expands'
  have ok := returns_iff.mp (guarded.resolvable resolvable shallow)
  have refused : substituteTokens (oneProperty []) varLevels emptyFallback = none := by decide
  rw [refused] at ok
  cases ok

end Besra.VarCycles
