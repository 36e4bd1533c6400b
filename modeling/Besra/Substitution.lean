import Besra.Deferred

/-!
What `var()` stands for, against `substitute_tokens` of `libcss/src/parse/custom_properties.c`. A reference is
replaced by the value of its property, or by its fallback where there is no value that can be substituted (`Means`).
-/
namespace Besra.Substitution
open Lwc Besra.Lex CustomProperties Option

def opens (t : Token) : Bool := t.type == .function || isExactly t '('

def closeParen : Token := { type := .char, idata := [ch ')'] }

/-- Tokens in which every parenthesis that is opened is closed and the other way round. -/
inductive Balanced : List Token → Prop where
  | nil : Balanced []
  | plain {t : Token} {ts : List Token} (solid : opens t = false) (open_ : t ≠ closeParen) (rest : Balanced ts) :
      Balanced (t :: ts)
  | group {t : Token} {inner ts : List Token} (begins : opens t = true) (within : Balanced inner) (rest : Balanced ts) :
      Balanced (t :: (inner ++ closeParen :: ts))

/-- The name of a custom property: one identifier with two dashes, or a dash and an identifier with one. -/
inductive Named : List Token → LwcString → Prop where
  | whole {t : Token} (ident : t.type = .ident) (dashes : t.idata.take 2 = [ch '-', ch '-']) : Named [t] t.idata
  | split {t u : Token} (dash : isExactly t '-' = true) (ident : u.type = .ident) (dash' : u.idata.head? = some (ch '-')) :
      Named [t, u] u.idata

/-- What stands between the parentheses of `var()`: a name and, after a comma, a fallback. -/
inductive VarBody : List Token → LwcString → Option (List Token) → Prop where
  | plain {before spelled after : List Token} {name : LwcString} (front : Blank before) (named : Named spelled name)
      (back : Blank after) : VarBody (before ++ (spelled ++ after)) name none
  | fallback {before spelled after fallback : List Token} {comma : Token} {name : LwcString} (front : Blank before)
      (named : Named spelled name) (back : Blank after) (separates : isExactly comma ',' = true) :
      VarBody (before ++ (spelled ++ (after ++ comma :: fallback))) name (some fallback)

def IsVar (ts : List Token) (name : LwcString) (fallback : Option (List Token)) (after : List Token) : Prop :=
  ∃ body, ts = body ++ closeParen :: after ∧ Balanced body ∧ VarBody body name fallback

def prepend (value : List Token) (rest : Option (List Token)) : Option (List Token) := rest.map (value ++ ·)

/-- What tokens stand for: others in the place of each reference, or nothing where one has no value. -/
inductive Means (env : Env) : List Token → Option (List Token) → Prop where
  | nil : Means env [] (some [])
  | copy {t : Token} {ts : List Token} {r : Option (List Token)} (plain : isVarFunction t = false) (rest : Means env ts r) :
      Means env (t :: ts) (prepend [t] r)
  | malformed {t : Token} {ts : List Token} (reference : isVarFunction t = true)
      (malformed : ∀ name fallback after, ¬ IsVar ts name fallback after) : Means env (t :: ts) none
  | value {t : Token} {ts after value : List Token} {name : LwcString} {fallback : Option (List Token)} {entry : Entry}
      {r : Option (List Token)} (reference : isVarFunction t = true) (is : IsVar ts name fallback after)
      (defined : lookupVar env name = some entry) (has : Means env entry.tokens (some value)) (rest : Means env after r) :
      Means env (t :: ts) (prepend value r)
  | fallback {t : Token} {ts fallback after : List Token} {name : LwcString} {r' r : Option (List Token)}
      (reference : isVarFunction t = true) (is : IsVar ts name (some fallback) after)
      (valueless : ∀ entry, lookupVar env name = some entry → Means env entry.tokens none) (instead : Means env fallback r')
      (rest : Means env after r) : Means env (t :: ts) (r'.bind (prepend · r))
  | fails {t : Token} {ts after : List Token} {name : LwcString} (reference : isVarFunction t = true)
      (is : IsVar ts name none after) (valueless : ∀ entry, lookupVar env name = some entry → Means env entry.tokens none) :
      Means env (t :: ts) none

inductive Refers : List Token → LwcString → Option (List Token) → Prop where
  | here {t : Token} {ts after : List Token} {name : LwcString} {fallback : Option (List Token)}
      (reference : isVarFunction t = true) (is : IsVar ts name fallback after) : Refers (t :: ts) name fallback
  | copy {t : Token} {ts : List Token} {name : LwcString} {fallback : Option (List Token)}
      (plain : isVarFunction t = false) (later : Refers ts name fallback) : Refers (t :: ts) name fallback
  | skip {t : Token} {ts after : List Token} {name name' : LwcString} {fallback fallback' : Option (List Token)}
      (reference : isVarFunction t = true) (is : IsVar ts name' fallback' after) (later : Refers after name fallback) :
      Refers (t :: ts) name fallback

def LeadsTo (env : Env) (ts ts' : List Token) : Prop :=
  ∃ name fallback, Refers ts name fallback ∧
    ((∃ entry, lookupVar env name = some entry ∧ entry.tokens = ts') ∨ fallback = some ts')

def Chain (env : Env) : Nat → List Token → Prop
  | 0, _ => True
  | n + 1, ts => ∃ ts', LeadsTo env ts ts' ∧ Chain env n ts'

inductive Visits (env : Env) : List Token → LwcString → Option (List Token) → Prop where
  | here {ts : List Token} {name : LwcString} {fallback : Option (List Token)} (refers : Refers ts name fallback) :
      Visits env ts name fallback
  | value {ts : List Token} {name name' : LwcString} {fallback fallback' : Option (List Token)} {entry : Entry}
      (refers : Refers ts name' fallback') (defined : lookupVar env name' = some entry)
      (inside : Visits env entry.tokens name fallback) : Visits env ts name fallback
  | fallback {ts instead : List Token} {name name' : LwcString} {fallback : Option (List Token)}
      (refers : Refers ts name' (some instead)) (undefined : lookupVar env name' = none)
      (inside : Visits env instead name fallback) : Visits env ts name fallback

/-- A reference for which the code does not use the fallback that it has: an empty one, or that of a property that is
defined with a value that stands for nothing. -/
def Neglected (env : Env) (name : LwcString) (fallback : List Token) : Prop :=
  match lookupVar env name with
  | none => fallback = []
  | some entry => Means env entry.tokens none

variable {t : Token} {body after ts ts' out : List Token} {n levels : Nat} {name name' : LwcString}
  {given given' : Option (List Token)}

theorem isExactly_close : isExactly t ')' = true ↔ t = closeParen := by
  simp only [isExactly, Bool.and_eq_true, beq_iff_eq, closeParen]
  constructor
  · rintro ⟨type, idata⟩
    cases t
    simp_all
  · rintro rfl
    exact ⟨rfl, rfl⟩

theorem opens_iff : opens t = true ↔ t.type = .function ∨ isExactly t '(' = true := by simp [opens]

def within (t : Token) : List Token × List Token → List Token × List Token := fun (body, after) => (t :: body, after)

theorem findParenClose_opens (begins : opens t = true) (depth : Nat) (ts : List Token) :
    findParenClose depth (t :: ts) = (findParenClose (depth + 1) ts).map (within t) := by
  rw [findParenClose, if_pos (opens_iff.mp begins)]
  rfl

theorem findParenClose_plain (solid : opens t = false) (open_ : t ≠ closeParen) (depth : Nat) (ts : List Token) :
    findParenClose depth (t :: ts) = (findParenClose depth ts).map (within t) := by
  have notOpens : ¬ (t.type = .function ∨ isExactly t '(' = true) := by
    rw [← opens_iff, solid]
    simp
  rw [findParenClose, if_neg notOpens, if_neg (fun closes => open_ (isExactly_close.mp closes))]
  rfl

theorem findParenClose_closes (depth : Nat) (ts : List Token) :
    findParenClose depth (closeParen :: ts) =
      if depth = 1 then some ([], ts) else (findParenClose (depth - 1) ts).map (within closeParen) := by
  have notOpens : ¬ (closeParen.type = .function ∨ isExactly closeParen '(' = true) := by decide
  rw [findParenClose, if_neg notOpens, if_pos (isExactly_close.mpr rfl)]
  rfl

theorem findParenClose_balanced {inner : List Token} (balanced : Balanced inner) (depth : Nat) (ts : List Token) :
    findParenClose (depth + 1) (inner ++ ts) =
      (findParenClose (depth + 1) ts).map fun (body, after) => (inner ++ body, after) := by
  induction balanced generalizing depth ts with
  | nil => simp
  | @plain t inner solid open_ _ ih =>
    rw [List.cons_append, findParenClose_plain solid open_, ih, map_map]
    rfl
  | @group t first second begins _ _ ihFirst ihSecond =>
    rw [List.cons_append, findParenClose_opens begins, List.append_assoc, List.cons_append, ihFirst,
      findParenClose_closes, if_neg (by omega), Nat.add_sub_cancel, ihSecond, map_map, map_map, map_map]
    rcases findParenClose (depth + 1) ts with _ | ⟨body, after⟩
    · rfl
    · simp [within]

theorem balanced_of_found {depth : Nat} (bound : ts.length ≤ n)
    (found : findParenClose (depth + 1) ts = some (body, after)) :
    ∃ inner rest, Balanced inner ∧ ts = inner ++ closeParen :: rest := by
  induction n generalizing depth ts body after with
  | zero =>
    rw [List.eq_nil_of_length_eq_zero (Nat.le_zero.mp bound)] at found
    cases found
  | succ n ih =>
    rcases ts with _ | ⟨t, ts⟩
    · cases found
    have shorter : ts.length ≤ n := by simpa using bound
    by_cases closes : t = closeParen
    · subst closes
      exact ⟨[], ts, .nil, rfl⟩
    rcases begins : opens t with _ | _
    · rw [findParenClose_plain begins closes] at found
      obtain ⟨⟨body', after'⟩, found', -⟩ := map_eq_some_iff.mp found
      obtain ⟨inner, rest, balanced, rfl⟩ := ih shorter found'
      exact ⟨t :: inner, rest, .plain begins closes balanced, rfl⟩
    · rw [findParenClose_opens begins] at found
      obtain ⟨⟨body', after'⟩, found', -⟩ := map_eq_some_iff.mp found
      obtain ⟨inner, rest, balanced, rfl⟩ := ih shorter found'
      rw [findParenClose_balanced balanced, findParenClose_closes, if_neg (by omega), Nat.add_sub_cancel,
        map_map] at found'
      obtain ⟨⟨body'', after''⟩, found'', -⟩ := map_eq_some_iff.mp found'
      simp only [List.length_append, List.length_cons] at shorter
      obtain ⟨inner', rest', balanced', rfl⟩ := ih (by omega) found''
      exact ⟨t :: (inner ++ closeParen :: inner'), rest', .group begins balanced balanced', by simp⟩

theorem findParenClose_iff :
    findParenClose 1 ts = some (body, after) ↔ Balanced body ∧ ts = body ++ closeParen :: after := by
  have finds : ∀ inner rest, Balanced inner → findParenClose 1 (inner ++ closeParen :: rest) = some (inner, rest) := by
    intro inner rest balanced
    rw [findParenClose_balanced balanced, findParenClose_closes, if_pos rfl, map_some]
    dsimp only
    rw [List.append_nil]
  constructor
  · intro found
    obtain ⟨inner, rest, balanced, rfl⟩ := balanced_of_found (Nat.le_refl _) found
    rw [finds inner rest balanced, some_inj, Prod.mk.injEq] at found
    obtain ⟨rfl, rfl⟩ := found
    exact ⟨balanced, rfl⟩
  · rintro ⟨balanced, rfl⟩
    exact finds body after balanced

theorem isSpace_of_isExactly {c : Char} (exactly : isExactly t c = true) : isSpace t = false := by
  simp only [isExactly, Bool.and_eq_true, beq_iff_eq] at exactly
  simp [isSpace, exactly.1]

theorem Named.varName {spelled : List Token} (named : Named spelled name) (ts : List Token) :
    varName (spelled ++ ts) = some (name, ts) ∧ ∃ t rest, spelled = t :: rest ∧ isSpace t = false := by
  cases named with
  | @whole t ident dashes =>
    have notDash : isExactly t '-' = false := by simp [isExactly, ident]
    exact ⟨by simp [CustomProperties.varName, notDash, ident, dashes], t, [], rfl, by simp [isSpace, ident]⟩
  | @split t u dash ident dash' =>
    exact ⟨by simp [CustomProperties.varName, dash, ident, dash'], t, [u], rfl, isSpace_of_isExactly dash⟩

theorem named_of_varName {rest : List Token} (read : varName ts = some (name, rest)) :
    ∃ spelled, ts = spelled ++ rest ∧ Named spelled name := by
  unfold CustomProperties.varName at read
  split at read
  · cases read
  rename_i t ts
  split at read
  next dash =>
    split at read
    · cases read
    rename_i u ts
    split at read
    next follows =>
      obtain ⟨rfl, rfl⟩ := Prod.mk.inj (Option.some.inj read)
      exact ⟨[t, u], rfl, .split dash follows.1 follows.2⟩
    next => cases read
  next =>
    split at read
    next whole =>
      obtain ⟨rfl, rfl⟩ := Prod.mk.inj (Option.some.inj read)
      exact ⟨[t], rfl, .whole whole.1 whole.2⟩
    next => cases read

def bodyParts (body : List Token) : Option (LwcString × Option (List Token)) := do
  let (name, rest) ← varName (trim body)
  match trim rest with
  | [] => some (name, none)
  | t :: fallback => if isExactly t ',' then some (name, some fallback) else none

theorem parseVarBody_eq (body : List Token) :
    parseVarBody body = (bodyParts body).map fun (name, given) => (name, given.getD []) := by
  unfold parseVarBody bodyParts
  rcases varName (trim body) with _ | ⟨name, rest⟩
  · rfl
  simp only [bind_eq_bind, bind_some]
  rcases trim rest with _ | ⟨t, fallback⟩
  · rfl
  · dsimp only
    split <;> rfl

theorem bodyParts_iff : bodyParts body = some (name, given) ↔ VarBody body name given := by
  constructor
  · intro parts
    simp only [bodyParts, bind_eq_bind, bind_eq_some_iff] at parts
    obtain ⟨⟨name', rest⟩, read, more⟩ := parts
    obtain ⟨spelled, split, named⟩ := named_of_varName read
    obtain ⟨before, front, whole⟩ := blank_split body
    obtain ⟨after, back, ended⟩ := blank_split rest
    split at more
    next nothing =>
      obtain ⟨rfl, rfl⟩ := Prod.mk.inj (Option.some.inj more)
      rw [whole, split, ended, nothing, List.append_nil]
      exact .plain front named back
    next comma fallback follows =>
      split at more
      next separates =>
        obtain ⟨rfl, rfl⟩ := Prod.mk.inj (Option.some.inj more)
        rw [whole, split, ended, follows]
        exact .fallback front named back separates
      next => cases more
  · intro is
    unfold bodyParts
    cases is with
    | @plain before spelled after name front named back =>
      obtain ⟨read, t, ts, rfl, solid⟩ := named.varName after
      have trimmed : trim (before ++ (t :: ts ++ after)) = t :: ts ++ after := by
        rw [trim_append front, List.cons_append, trim_cons_of_not_space solid]
      rw [trimmed, read, bind_eq_bind, bind_some]
      dsimp only
      rw [trim_blank back]
    | @fallback before spelled after fallback comma name front named back separates =>
      obtain ⟨read, t, ts, rfl, solid⟩ := named.varName (after ++ comma :: fallback)
      have trimmed : trim (before ++ (t :: ts ++ (after ++ comma :: fallback))) = t :: ts ++ (after ++ comma :: fallback) := by
        rw [trim_append front, List.cons_append, trim_cons_of_not_space solid]
      rw [trimmed, read, bind_eq_bind, bind_some]
      dsimp only
      rw [trim_append back, trim_cons_of_not_space (isSpace_of_isExactly separates)]
      exact if_pos separates

theorem isVar_iff :
    IsVar ts name given after ↔ ∃ body, findParenClose 1 ts = some (body, after) ∧ bodyParts body = some (name, given) := by
  refine exists_congr fun body => ?_
  rw [findParenClose_iff, bodyParts_iff]
  tauto

theorem IsVar.unique {after' : List Token} (is : IsVar ts name given after) (is' : IsVar ts name' given' after') :
    name' = name ∧ given' = given ∧ after' = after := by
  obtain ⟨body, close, parts⟩ := isVar_iff.mp is
  obtain ⟨body', close', parts'⟩ := isVar_iff.mp is'
  rw [close, some_inj, Prod.mk.injEq] at close'
  obtain ⟨rfl, rfl⟩ := close'
  rw [parts, some_inj, Prod.mk.injEq] at parts'
  exact ⟨parts'.1.symm, parts'.2.symm, rfl⟩

theorem IsVar.shorter (is : IsVar ts name given after) : after.length < ts.length := by
  obtain ⟨body, close, -⟩ := isVar_iff.mp is
  exact findParenClose_shorter close

theorem Means.unique {env : Env} {r r' : Option (List Token)} (means : Means env ts r) (means' : Means env ts r') :
    r' = r := by
  induction means generalizing r' with
  | nil =>
    cases means'
    rfl
  | copy plain _ ih =>
    cases means' with
    | copy _ rest => rw [ih rest]
    | _ => simp_all
  | malformed reference malformed =>
    cases means' with
    | copy plain _ => simp_all
    | malformed => rfl
    | value _ is => exact absurd is (malformed _ _ _)
    | fallback _ is => exact absurd is (malformed _ _ _)
    | fails _ is => exact absurd is (malformed _ _ _)
  | value reference is defined _ _ ihValue ihRest =>
    cases means' with
    | copy plain _ => simp_all
    | malformed _ malformed => exact absurd is (malformed _ _ _)
    | value _ is' defined' has' rest' =>
      obtain ⟨rfl, rfl, rfl⟩ := is.unique is'
      rw [defined, some_inj] at defined'
      subst defined'
      rw [some_inj.mp (ihValue has'), ihRest rest']
    | fallback _ is' valueless _ _ =>
      obtain ⟨rfl, -, -⟩ := is.unique is'
      cases ihValue (valueless _ defined)
    | fails _ is' valueless =>
      obtain ⟨rfl, -, -⟩ := is.unique is'
      cases ihValue (valueless _ defined)
  | fallback reference is valueless _ _ ihValue ihInstead ihRest =>
    cases means' with
    | copy plain _ => simp_all
    | malformed _ malformed => exact absurd is (malformed _ _ _)
    | value _ is' defined' has' rest' =>
      obtain ⟨rfl, -, -⟩ := is.unique is'
      cases ihValue _ defined' has'
    | fallback _ is' _ instead' rest' =>
      obtain ⟨rfl, same, rfl⟩ := is.unique is'
      obtain rfl := some_inj.mp same
      rw [ihInstead instead', ihRest rest']
    | fails _ is' => cases (is.unique is').2.1
  | fails reference is valueless ihValue =>
    cases means' with
    | copy plain _ => simp_all
    | malformed => rfl
    | value _ is' defined' has' =>
      obtain ⟨rfl, -, -⟩ := is.unique is'
      cases ihValue _ defined' has'
    | fallback _ is' => cases (is.unique is').2.1
    | fails => rfl

theorem refers_copy (plain : isVarFunction t = false) : Refers (t :: ts) name given ↔ Refers ts name given := by
  refine ⟨fun refers => ?_, .copy plain⟩
  cases refers with
  | here reference => simp_all
  | copy _ later => exact later
  | skip reference => simp_all

theorem refers_var (reference : isVarFunction t = true) (is : IsVar ts name given after) :
    Refers (t :: ts) name' given' ↔ name' = name ∧ given' = given ∨ Refers after name' given' := by
  constructor
  · intro refers
    cases refers with
    | here _ is' =>
      obtain ⟨rfl, rfl, -⟩ := is.unique is'
      exact .inl ⟨rfl, rfl⟩
    | copy plain => simp_all
    | skip _ is' later =>
      obtain ⟨-, -, rfl⟩ := is.unique is'
      exact .inr later
  · rintro (⟨rfl, rfl⟩ | later)
    · exact .here reference is
    · exact .skip reference is later

variable {env : Env}

theorem visits_nil : ¬ Visits env [] name given := by
  intro visits
  cases visits with
  | here refers => cases refers
  | value refers => cases refers
  | fallback refers => cases refers

theorem visits_mono (more : ∀ name given, Refers ts name given → Refers ts' name given)
    (visits : Visits env ts name given) : Visits env ts' name given := by
  cases visits with
  | here refers => exact .here (more _ _ refers)
  | value refers defined inside => exact .value (more _ _ refers) defined inside
  | fallback refers undefined inside => exact .fallback (more _ _ refers) undefined inside

theorem visits_copy (plain : isVarFunction t = false) : Visits env (t :: ts) name given ↔ Visits env ts name given :=
  ⟨visits_mono fun _ _ => (refers_copy plain).mp, visits_mono fun _ _ => (refers_copy plain).mpr⟩

theorem visits_after (reference : isVarFunction t = true) (is : IsVar ts name given after)
    (visits : Visits env after name' given') : Visits env (t :: ts) name' given' :=
  visits_mono (fun _ _ refers => (refers_var reference is).mpr (.inr refers)) visits

theorem visits_var (reference : isVarFunction t = true) (is : IsVar ts name given after)
    (visits : Visits env (t :: ts) name' given') :
    name' = name ∧ given' = given ∨ (∃ entry, lookupVar env name = some entry ∧ Visits env entry.tokens name' given') ∨
      (∃ instead, given = some instead ∧ lookupVar env name = none ∧ Visits env instead name' given') ∨
      Visits env after name' given' := by
  cases visits with
  | here refers => exact ((refers_var reference is).mp refers).imp id fun later => .inr (.inr (.here later))
  | value refers defined inside =>
    rcases (refers_var reference is).mp refers with ⟨rfl, rfl⟩ | later
    · exact .inr (.inl ⟨_, defined, inside⟩)
    · exact .inr (.inr (.inr (.value later defined inside)))
  | fallback refers undefined inside =>
    rcases (refers_var reference is).mp refers with ⟨rfl, rfl⟩ | later
    · exact .inr (.inr (.inl ⟨_, rfl, undefined, inside⟩))
    · exact .inr (.inr (.inr (.fallback later undefined inside)))

theorem leadsTo_mono {target : List Token} (more : ∀ name given, Refers ts name given → Refers ts' name given)
    (leads : LeadsTo env ts target) : LeadsTo env ts' target := by
  obtain ⟨name, given, refers, comes⟩ := leads
  exact ⟨name, given, more _ _ refers, comes⟩

theorem chain_mono (more : ∀ name given, Refers ts name given → Refers ts' name given) (chain : Chain env n ts) :
    Chain env n ts' := by
  cases n with
  | zero => trivial
  | succ n =>
    obtain ⟨target, leads, rest⟩ := chain
    exact ⟨target, leadsTo_mono more leads, rest⟩

theorem substituteTokens_nil (levels : Nat) : substituteTokens env (levels + 1) [] = some [] := by
  simp [substituteTokens, substituteLoop]

theorem substituteTokens_copy (plain : isVarFunction t = false) (levels : Nat) (ts : List Token) :
    substituteTokens env (levels + 1) (t :: ts) = prepend [t] (substituteTokens env (levels + 1) ts) := by
  rw [substituteTokens_cons, plain]
  rfl

theorem substituteTokens_var (reference : isVarFunction t = true) (is : IsVar ts name given after) (levels : Nat) :
    substituteTokens env (levels + 1) (t :: ts) =
      (varValue env (substituteTokens env levels) name (given.getD [])).bind
        (prepend · (substituteTokens env (levels + 1) after)) := by
  obtain ⟨body, close, parts⟩ := isVar_iff.mp is
  rw [substituteTokens_cons, if_pos reference, close]
  simp only [bind_eq_bind, bind_some, parseVarBody_eq, parts, map_some]
  rfl

theorem substituteTokens_malformed (reference : isVarFunction t = true)
    (malformed : ∀ name given after, ¬ IsVar ts name given after) (levels : Nat) :
    substituteTokens env (levels + 1) (t :: ts) = none := by
  rw [substituteTokens_cons, if_pos reference]
  rcases close : findParenClose 1 ts with _ | ⟨body, after⟩
  · rfl
  rcases parts : bodyParts body with _ | ⟨name, given⟩
  · simp only [bind_eq_bind, bind_some, parseVarBody_eq, parts, map_none, bind_none]
  · exact absurd (isVar_iff.mpr ⟨body, close, parts⟩) (malformed name given after)

/-- No reference that the substitution comes to is neglected. -/
def Heeded (env : Env) (ts : List Token) : Prop :=
  ∀ name fallback, Visits env ts name (some fallback) → ¬ Neglected env name fallback

/-- What the code substitutes stands for the tokens, and no reference was neglected. -/
theorem means_of_substituted (substituted : substituteTokens env levels ts = some out) :
    Means env ts (some out) ∧ Heeded env ts := by
  induction levels generalizing ts out with
  | zero => cases substituted
  | succ levels deeper =>
    -- a round leaves fewer tokens
    generalize bound : ts.length = n
    induction n using Nat.strongRecOn generalizing ts out with
    | _ n ih =>
      rcases ts with _ | ⟨t, ts⟩
      · rw [substituteTokens_nil, some_inj] at substituted
        subst substituted
        refine ⟨.nil, fun name fallback visits => ?_⟩
        exact absurd visits visits_nil
      rcases reference : isVarFunction t with _ | _
      · rw [substituteTokens_copy reference] at substituted
        obtain ⟨rest, later, rfl⟩ := map_eq_some_iff.mp substituted
        obtain ⟨means, heeded⟩ := ih ts.length (by simp at bound; omega) later rfl
        exact ⟨.copy reference means, fun name fallback visits => heeded name fallback ((visits_copy reference).mp visits)⟩
      by_cases malformed : ∀ name given after, ¬ IsVar ts name given after
      · rw [substituteTokens_malformed reference malformed] at substituted
        cases substituted
      push Not at malformed
      obtain ⟨name, given, after, is⟩ := malformed
      rw [substituteTokens_var reference is] at substituted
      obtain ⟨value, found, more⟩ := bind_eq_some_iff.mp substituted
      obtain ⟨rest, later, rfl⟩ := map_eq_some_iff.mp more
      have shorter := is.shorter
      obtain ⟨means, heeded⟩ := ih after.length (by simp at bound; omega) later rfl
      unfold varValue at found
      rcases defined : lookupVar env name with _ | entry
      · rw [defined] at found
        dsimp only at found
        split at found
        · cases found
        rename_i some_fallback
        rcases given with _ | fallback
        · exact absurd rfl some_fallback
        obtain ⟨instead, heeded'⟩ := deeper found
        refine ⟨.fallback reference is (fun entry found => by rw [defined] at found; cases found) instead means, ?_⟩
        intro name' fallback' visits
        rcases visits_var reference is visits with ⟨rfl, same⟩ | ⟨entry, defined', -⟩ | ⟨_, same, -, inside⟩ | later
        · rw [some_inj.mp same, Neglected, defined]
          exact some_fallback
        · rw [defined] at defined'
          cases defined'
        · rw [← some_inj.mp same] at inside
          exact heeded' name' fallback' inside
        · exact heeded name' fallback' later
      · rw [defined] at found
        obtain ⟨has, heeded'⟩ := deeper found
        refine ⟨.value reference is defined has means, ?_⟩
        intro name' fallback' visits
        rcases visits_var reference is visits with ⟨rfl, -⟩ | ⟨entry', defined', inside⟩ | ⟨_, -, undefined, -⟩ | later
        · rw [Neglected, defined]
          intro valueless
          cases has.unique valueless
        · rw [defined, some_inj] at defined'
          exact heeded' name' fallback' (defined' ▸ inside)
        · rw [defined] at undefined
          cases undefined
        · exact heeded name' fallback' later

/-- Tokens from which no chain of references is too long stand for something, and the code substitutes it
unless it neglects a reference. -/
theorem substituted_of_means (bounded : ¬ Chain env levels ts) :
    ∃ r, Means env ts r ∧ (Heeded env ts → substituteTokens env levels ts = r) := by
  induction levels generalizing ts with
  | zero => exact absurd trivial bounded
  | succ levels deeper =>
    generalize bound : ts.length = n
    induction n using Nat.strongRecOn generalizing ts with
    | _ n ih =>
      rcases ts with _ | ⟨t, ts⟩
      · exact ⟨some [], .nil, fun _ => substituteTokens_nil levels⟩
      rcases reference : isVarFunction t with _ | _
      · have bounded' : ¬ Chain env (levels + 1) ts := fun chain =>
          bounded (chain_mono (fun _ _ => (refers_copy reference).mpr) chain)
        obtain ⟨r, means, same⟩ := ih ts.length (by simp at bound; omega) bounded' rfl
        refine ⟨_, .copy reference means, fun heeded => ?_⟩
        rw [substituteTokens_copy reference, same fun name fallback visits =>
          heeded name fallback ((visits_copy reference).mpr visits)]
      by_cases malformed : ∀ name given after, ¬ IsVar ts name given after
      · exact ⟨none, .malformed reference malformed, fun _ => substituteTokens_malformed reference malformed levels⟩
      push Not at malformed
      obtain ⟨name, given, after, is⟩ := malformed
      have refers : Refers (t :: ts) name given := .here reference is
      have bounded' : ¬ Chain env (levels + 1) after := fun chain =>
        bounded (chain_mono (fun _ _ later => (refers_var reference is).mpr (.inr later)) chain)
      have shorter := is.shorter
      obtain ⟨r, means, same⟩ := ih after.length (by simp at bound; omega) bounded' rfl
      have later : Heeded env (t :: ts) → substituteTokens env (levels + 1) after = r := fun heeded =>
        same fun name fallback visits => heeded name fallback (visits_after reference is visits)
      have ofFallback : ∀ fallback, given = some fallback → ∃ r', Means env fallback r' ∧
          (Heeded env fallback → substituteTokens env levels fallback = r') := by
        rintro fallback rfl
        exact deeper fun chain => bounded ⟨fallback, ⟨name, _, refers, .inr rfl⟩, chain⟩
      rcases defined : lookupVar env name with _ | entry
      · have valueless : ∀ entry, lookupVar env name = some entry → Means env entry.tokens none := by
          intro entry found
          rw [defined] at found
          cases found
        rcases given with _ | fallback
        · refine ⟨none, .fails reference is valueless, fun _ => ?_⟩
          rw [substituteTokens_var reference is, varValue, defined]
          rfl
        obtain ⟨r', instead, same'⟩ := ofFallback fallback rfl
        refine ⟨_, .fallback reference is valueless instead means, fun heeded => ?_⟩
        have some_fallback : fallback ≠ [] := by
          have notNeglected := heeded name fallback (.here refers)
          rwa [Neglected, defined] at notNeglected
        rw [substituteTokens_var reference is, varValue, defined]
        dsimp only
        rw [getD_some, if_neg some_fallback, later heeded,
          same' fun name' fallback' visits => heeded name' fallback' (.fallback refers defined visits)]
      · have ofValue := deeper fun chain => bounded ⟨entry.tokens, ⟨name, given, refers, .inl ⟨entry, defined, rfl⟩⟩, chain⟩
        obtain ⟨rv, has, sameValue⟩ := ofValue
        have substitutedValue : Heeded env (t :: ts) → substituteTokens env levels entry.tokens = rv := fun heeded =>
          sameValue fun name' fallback' visits => heeded name' fallback' (.value refers defined visits)
        rcases rv with _ | value
        · have valueless : ∀ entry', lookupVar env name = some entry' → Means env entry'.tokens none := by
            intro entry' found
            rw [defined, some_inj] at found
            exact found ▸ has
          rcases given with _ | fallback
          · refine ⟨none, .fails reference is valueless, fun heeded => ?_⟩
            rw [substituteTokens_var reference is, varValue, defined]
            dsimp only
            rw [substitutedValue heeded]
            rfl
          · obtain ⟨r', instead, -⟩ := ofFallback fallback rfl
            refine ⟨_, .fallback reference is valueless instead means, fun heeded => ?_⟩
            have notNeglected := heeded name fallback (.here refers)
            rw [Neglected, defined] at notNeglected
            exact absurd has notNeglected
        · refine ⟨_, .value reference is defined has means, fun heeded => ?_⟩
          rw [substituteTokens_var reference is, varValue, defined]
          dsimp only
          rw [substitutedValue heeded, later heeded]
          rfl

/-- Where no chain of references is longer than MAX_VAR_DEPTH, tokens stand for one thing; what `substitute_tokens` makes
of them is just that unless it stands for tokens and the substitution comes to a reference whose fallback is neglected; and
no output has a reference in it. -/
theorem substitution_exact_iff (env : Env) (ts : List Token) (bounded : ¬ Chain env varLevels ts) :
    (∃ r, ∀ r', Means env ts r' ↔ r' = r) ∧
      ((∀ r, substituteTokens env varLevels ts = r ↔ Means env ts r) ↔ Means env ts none ∨ Heeded env ts) ∧
      ∀ out, substituteTokens env varLevels ts = some out → valueContainsVar out = false := by
  obtain ⟨r, means, same⟩ := substituted_of_means bounded
  refine ⟨⟨r, fun r' => ⟨means.unique, fun equal => equal ▸ means⟩⟩, ?_, fun out => substituteTokens_no_var⟩
  constructor
  · intro exact
    rcases r with _ | out
    · exact .inl means
    · exact .inr (means_of_substituted ((exact _).mpr means)).2
  · intro condition r'
    have code : substituteTokens env varLevels ts = r := by
      rcases condition with nothing | heeded
      · obtain rfl := means.unique nothing
        rcases substituted : substituteTokens env varLevels ts with _ | out
        · rfl
        · cases means.unique (means_of_substituted substituted).1
      · exact same heeded
    rw [code]
    exact ⟨fun equal => equal ▸ means, fun means' => (means.unique means').symm⟩

theorem substituteTokens_plain (plain : valueContainsVar ts = false) (levels : Nat) :
    substituteTokens env (levels + 1) ts = some ts := by
  induction ts with
  | nil => exact substituteTokens_nil levels
  | cons t ts ih =>
    rw [valueContainsVar, List.any_cons, Bool.or_eq_false_iff] at plain
    rw [substituteTokens_copy plain.1, ih plain.2]
    rfl

/-- What is substituted has no reference left, and stays as it is when it is substituted again, whatever is defined by
then. -/
theorem substituted_stays {env' : Env} (substituted : substituteTokens env levels ts = some out) :
    valueContainsVar out = false ∧ ∀ levels', substituteTokens env' (levels' + 1) out = some out :=
  have plain := substituteTokens_no_var substituted
  ⟨plain, substituteTokens_plain plain⟩

/-- `var(` -/
def varOpen : Token := { type := .function, idata := lit "var" }

def named (name : String) : Token := { type := .ident, idata := lit name }

def comma : Token := { type := .char, idata := [ch ','] }

/-- A single sheet, with one property `--a` of this value. -/
def oneProperty (value : List Token) : Env := ⟨[], [⟨lit "--a", value⟩], none, []⟩

theorem substituted_stays_red : valueContainsVar [named "red"] = false ∧
    ∀ levels, substituteTokens (oneProperty []) (levels + 1) [named "red"] = some [named "red"] :=
  substituted_stays (show substituteTokens (oneProperty [named "red"]) varLevels [varOpen, named "--a", closeParen] = _ by decide)

theorem not_chain_of_plain (plain : valueContainsVar ts = false) (n : Nat) : ¬ Chain env (n + 1) ts := by
  have none_refers : ∀ name given, ¬ Refers ts name given := by
    intro name given refers
    induction refers with
    | here reference => simp [valueContainsVar, reference] at plain
    | copy _ _ ih => exact ih (by simp_all [valueContainsVar])
    | skip reference => simp [valueContainsVar, reference] at plain
  rintro ⟨_, ⟨name, given, refers, -⟩, -⟩
  exact none_refers name given refers

theorem not_chain_of_single (name : LwcString) (given : Option (List Token)) (reference : isVarFunction t = true)
    (is : IsVar ts name given []) (value : ∀ entry, lookupVar env name = some entry → ¬ Chain env n entry.tokens)
    (instead : ∀ fallback, given = some fallback → ¬ Chain env n fallback) : ¬ Chain env (n + 1) (t :: ts) := by
  rintro ⟨target, ⟨name', given', refers, comes⟩, rest⟩
  rcases (refers_var reference is).mp refers with ⟨rfl, rfl⟩ | later
  · rcases comes with ⟨entry, defined, rfl⟩ | rfl
    · exact value entry defined rest
    · exact instead target rfl rest
  · cases later

/-- `var(--b, red)` for a name that is not defined. -/
theorem substitution_exact_of_fallback :
    (∃ r, ∀ r', Means (oneProperty []) [varOpen, named "--b", comma, named "red", closeParen] r' ↔ r' = r) ∧
      ((∀ r, substituteTokens (oneProperty []) varLevels [varOpen, named "--b", comma, named "red", closeParen] = r ↔
          Means (oneProperty []) [varOpen, named "--b", comma, named "red", closeParen] r) ↔
        Means (oneProperty []) [varOpen, named "--b", comma, named "red", closeParen] none ∨
          Heeded (oneProperty []) [varOpen, named "--b", comma, named "red", closeParen]) ∧
      ∀ out, substituteTokens (oneProperty []) varLevels [varOpen, named "--b", comma, named "red", closeParen] = some out →
        valueContainsVar out = false := by
  refine substitution_exact_iff _ _ (not_chain_of_single (lit "--b") (some [named "red"]) rfl ?_ ?_ ?_)
  · exact isVar_iff.mpr ⟨[named "--b", comma, named "red"], by decide, by decide⟩
  · intro entry defined
    cases (show lookupVar (oneProperty []) (lit "--b") = none by decide).symm.trans defined
  · intro fallback same
    rw [← some_inj.mp same]
    exact not_chain_of_plain (by decide) _

/-- `var(--b,)` stands for no tokens, and `var(--a, red)` for its fallback where the value of `--a` is `var(--b)`; the code
substitutes neither. -/
theorem fallback_neglected :
    (¬ Chain (oneProperty []) varLevels [varOpen, named "--b", comma, closeParen] ∧
      Means (oneProperty []) [varOpen, named "--b", comma, closeParen] (some []) ∧
      substituteTokens (oneProperty []) varLevels [varOpen, named "--b", comma, closeParen] = none) ∧
    (¬ Chain (oneProperty [varOpen, named "--b", closeParen]) varLevels
        [varOpen, named "--a", comma, named "red", closeParen] ∧
      Means (oneProperty [varOpen, named "--b", closeParen]) [varOpen, named "--a", comma, named "red", closeParen]
        (some [named "red"]) ∧
      substituteTokens (oneProperty [varOpen, named "--b", closeParen]) varLevels
        [varOpen, named "--a", comma, named "red", closeParen] = none) := by
  have undefined : ∀ value entry, lookupVar (oneProperty value) (lit "--b") = some entry → False := by
    intro value entry defined
    cases defined
  constructor
  · have is : IsVar [named "--b", comma, closeParen] (lit "--b") (some []) [] :=
      isVar_iff.mpr ⟨[named "--b", comma], by decide, by decide⟩
    refine ⟨not_chain_of_single _ _ rfl is ?_ ?_, ?_, by decide⟩
    · exact fun entry defined => (undefined _ entry defined).elim
    · intro fallback same
      rw [← some_inj.mp same]
      exact not_chain_of_plain rfl _
    · exact .fallback rfl is (fun entry defined => (undefined _ entry defined).elim) .nil .nil
  · have is : IsVar [named "--a", comma, named "red", closeParen] (lit "--a") (some [named "red"]) [] :=
      isVar_iff.mpr ⟨[named "--a", comma, named "red"], by decide, by decide⟩
    have inside : IsVar [named "--b", closeParen] (lit "--b") none [] :=
      isVar_iff.mpr ⟨[named "--b"], by decide, by decide⟩
    have value : ∀ entry, lookupVar (oneProperty [varOpen, named "--b", closeParen]) (lit "--a") = some entry →
        entry.tokens = [varOpen, named "--b", closeParen] := by
      intro entry defined
      cases defined
      rfl
    refine ⟨not_chain_of_single _ _ rfl is ?_ ?_, ?_, by decide⟩
    · intro entry defined
      rw [value entry defined]
      exact not_chain_of_single _ _ rfl inside (fun entry defined => (undefined _ entry defined).elim) (fun _ same => by cases same)
    · intro fallback same
      rw [← some_inj.mp same]
      exact not_chain_of_plain (by decide) _
    · refine .fallback rfl is (fun entry defined => ?_) (.copy rfl .nil) .nil
      rw [value entry defined]
      exact .fails rfl inside fun entry defined => (undefined _ entry defined).elim

end Besra.Substitution
