import Mathlib.Data.List.Infix

/-!
Recursive descent over a list of tokens. A parser is given the tokens that are left and returns its outcome together
with the tokens left after it.
-/
namespace Besra.Cursor

variable {τ ε α β : Type}

/-- A parser over tokens `τ` with failures `ε`. -/
structure Parser (τ ε α : Type) where
  run : List τ → Except ε α × List τ

namespace Parser

def done (a : α) : Parser τ ε α := ⟨fun ts => (.ok a, ts)⟩

def fail (e : ε) : Parser τ ε α := ⟨fun ts => (.error e, ts)⟩

def andThen (p : Parser τ ε α) (f : α → Parser τ ε β) : Parser τ ε β where
  run ts :=
    match p.run ts with
    | (.ok a, rest) => (f a).run rest
    | (.error e, rest) => (.error e, rest)

instance : Monad (Parser τ ε) where
  pure := done
  bind := andThen

def peek : Parser τ ε (Option τ) := ⟨fun ts => (.ok ts.head?, ts)⟩

def iterate : Parser τ ε (Option τ) := ⟨fun ts => (.ok ts.head?, ts.tail)⟩

/-- Pass over the tokens that satisfy `p`. -/
def skip (p : τ → Bool) : Parser τ ε Unit := ⟨fun ts => (.ok (), ts.dropWhile p)⟩

def looking (p : List τ → Parser τ ε α) : Parser τ ε α := ⟨fun ts => (p ts).run ts⟩

@[simp] theorem pure_run (a : α) (ts : List τ) : (pure a : Parser τ ε α).run ts = (.ok a, ts) := rfl

@[simp] theorem fail_run (e : ε) (ts : List τ) : (fail e : Parser τ ε α).run ts = (.error e, ts) := rfl

@[simp] theorem peek_run (ts : List τ) : (peek : Parser τ ε (Option τ)).run ts = (.ok ts.head?, ts) := rfl

@[simp] theorem iterate_run (ts : List τ) : (iterate : Parser τ ε (Option τ)).run ts = (.ok ts.head?, ts.tail) := rfl

@[simp] theorem skip_run (p : τ → Bool) (ts : List τ) :
    (skip p : Parser τ ε Unit).run ts = (.ok (), ts.dropWhile p) := rfl

@[simp] theorem looking_run (p : List τ → Parser τ ε α) (ts : List τ) : (looking p).run ts = (p ts).run ts := rfl

@[simp] theorem ite_run {c : Prop} [Decidable c] (p q : Parser τ ε α) (ts : List τ) :
    (if c then p else q : Parser τ ε α).run ts = if c then p.run ts else q.run ts := by
  split <;> rfl

variable {a : α} {ts rest : List τ} {f : α → Parser τ ε β} {p : Parser τ ε α} {e : ε}

theorem bind_ok (first : p.run ts = (.ok a, rest)) : (p >>= f).run ts = (f a).run rest := by
  change (p.andThen f).run ts = _
  simp [andThen, first]

theorem bind_error (first : p.run ts = (.error e, rest)) : (p >>= f).run ts = (.error e, rest) := by
  change (p.andThen f).run ts = _
  simp [andThen, first]

theorem bind_eq_ok {b : β} :
    (p >>= f).run ts = (.ok b, rest) ↔
      ∃ a middle, p.run ts = (.ok a, middle) ∧ (f a).run middle = (.ok b, rest) := by
  rcases outcome : p.run ts with ⟨e | a, middle⟩
  · rw [bind_error outcome]
    simp
  · rw [bind_ok outcome]
    constructor
    · exact fun run => ⟨a, middle, rfl, run⟩
    · rintro ⟨a', middle', same, run⟩
      cases same
      exact run

theorem bind_eq_error :
    (p >>= f).run ts = (.error e, rest) ↔
      p.run ts = (.error e, rest) ∨ ∃ a middle, p.run ts = (.ok a, middle) ∧ (f a).run middle = (.error e, rest) := by
  rcases outcome : p.run ts with ⟨e' | a, middle⟩
  · rw [bind_error outcome]
    simp
  · rw [bind_ok outcome]
    simp

theorem map_eq_error {f : α → β} : (f <$> p).run ts = (.error e, rest) ↔ p.run ts = (.error e, rest) := by
  refine bind_eq_error.trans (or_iff_left ?_)
  rintro ⟨a, middle, -, run⟩
  cases run

theorem map_ok {f : α → β} (first : p.run ts = (.ok a, rest)) : (f <$> p).run ts = (.ok (f a), rest) := bind_ok first

theorem map_error {f : α → β} (first : p.run ts = (.error e, rest)) :
    (f <$> p).run ts = (.error e, rest) := bind_error first

@[simp] theorem bind_pure (a : α) (f : α → Parser τ ε β) (ts : List τ) :
    ((pure a : Parser τ ε α) >>= f).run ts = (f a).run ts := rfl

@[simp] theorem bind_fail (e : ε) (f : α → Parser τ ε β) (ts : List τ) :
    ((fail e : Parser τ ε α) >>= f).run ts = (.error e, ts) := rfl

@[simp] theorem bind_peek (f : Option τ → Parser τ ε β) (ts : List τ) :
    (peek >>= f).run ts = (f ts.head?).run ts := rfl

@[simp] theorem bind_iterate (f : Option τ → Parser τ ε β) (ts : List τ) :
    (iterate >>= f).run ts = (f ts.head?).run ts.tail := rfl

@[simp] theorem bind_skip (p : τ → Bool) (f : Unit → Parser τ ε β) (ts : List τ) :
    (skip p >>= f).run ts = (f ()).run (ts.dropWhile p) := rfl

@[simp] theorem bind_looking_pure (g : List τ → α) (f : α → Parser τ ε β) (ts : List τ) :
    (looking (fun ts => pure (g ts)) >>= f).run ts = (f (g ts)).run ts := rfl

def Forward (p : Parser τ ε α) : Prop := ∀ ts, (p.run ts).2 <:+ ts

theorem forward_pure (a : α) : Forward (pure a : Parser τ ε α) := fun ts => List.suffix_refl ts

theorem forward_fail (e : ε) : Forward (fail e : Parser τ ε α) := fun ts => List.suffix_refl ts

theorem forward_peek : Forward (peek : Parser τ ε (Option τ)) := fun ts => List.suffix_refl ts

theorem forward_iterate : Forward (iterate : Parser τ ε (Option τ)) := fun ts => List.tail_suffix ts

theorem forward_skip (p : τ → Bool) : Forward (skip p : Parser τ ε Unit) := fun _ => List.dropWhile_suffix p

theorem forward_looking {p : List τ → Parser τ ε α} (all : ∀ ts, Forward (p ts)) : Forward (looking p) :=
  fun ts => all ts ts

theorem Forward.bind (first : Forward p) (after : ∀ a, Forward (f a)) : Forward (p >>= f) := by
  intro ts
  have step := first ts
  rcases outcome : p.run ts with ⟨_ | a, rest⟩
  · rw [bind_error outcome]
    simpa [outcome] using step
  · rw [bind_ok outcome]
    rw [outcome] at step
    exact (after a rest).trans step

theorem Forward.map (forward : Forward p) (f : α → β) : Forward (f <$> p) :=
  forward.bind fun _ => forward_pure _

/-- From these tokens a parser only moves forward and does not fail with `e`. -/
def Steady (e : ε) (p : Parser τ ε α) (ts : List τ) : Prop := (p.run ts).2 <:+ ts ∧ (p.run ts).1 ≠ .error e

theorem steady_pure (a : α) (ts : List τ) : Steady e (pure a : Parser τ ε α) ts :=
  ⟨List.suffix_refl ts, by simp⟩

theorem steady_fail {e' : ε} (other : e' ≠ e) (ts : List τ) : Steady e (fail e' : Parser τ ε α) ts :=
  ⟨List.suffix_refl ts, by simpa using other⟩

theorem steady_peek (ts : List τ) : Steady e (peek : Parser τ ε (Option τ)) ts :=
  ⟨List.suffix_refl ts, by simp⟩

theorem steady_iterate (ts : List τ) : Steady e (iterate : Parser τ ε (Option τ)) ts :=
  ⟨List.tail_suffix ts, by simp⟩

theorem steady_skip (p : τ → Bool) (ts : List τ) : Steady e (skip p : Parser τ ε Unit) ts :=
  ⟨List.dropWhile_suffix p, by simp⟩

theorem steady_looking {p : List τ → Parser τ ε α} (steady : Steady e (p ts) ts) : Steady e (looking p) ts := steady

theorem Steady.bind (first : Steady e p ts) (after : ∀ a rest, p.run ts = (.ok a, rest) → Steady e (f a) rest) :
    Steady e (p >>= f) ts := by
  obtain ⟨forward, other⟩ := first
  rcases outcome : p.run ts with ⟨err | a, rest⟩
  · rw [outcome] at forward other
    refine ⟨by rwa [bind_error outcome], ?_⟩
    rw [bind_error outcome]
    simpa using other
  · rw [outcome] at forward
    obtain ⟨forward', other'⟩ := after a rest outcome
    exact ⟨by rw [bind_ok outcome]; exact forward'.trans forward, by rwa [bind_ok outcome]⟩

theorem Steady.map (steady : Steady e p ts) (f : α → β) :
    Steady e (f <$> p) ts := steady.bind fun _ rest _ => steady_pure _ rest

theorem Steady.of_run {q : Parser τ ε α} {us : List τ} (steady : Steady e q us) (suffix : us <:+ ts)
    (same : p.run ts = q.run us) : Steady e p ts :=
  ⟨by rw [same]; exact steady.1.trans suffix, by rw [same]; exact steady.2⟩

def Consumes (p : Parser τ ε α) (ts : List τ) : Prop := ∀ a rest, p.run ts = (.ok a, rest) → rest.length < ts.length

theorem consumes_fail (e : ε) (ts : List τ) : Consumes (fail e : Parser τ ε α) ts := by
  intro a rest run
  cases run

theorem consumes_iterate (e : ε) {f : Option τ → Parser τ ε β} {t : τ} (forward : Steady e (f (some t)) ts) :
    Consumes (iterate >>= f) (t :: ts) := by
  intro a rest run
  have shorter := forward.1.length_le
  rw [bind_iterate, List.head?_cons, List.tail_cons] at run
  rw [run] at shorter
  exact Nat.lt_succ_of_le shorter

theorem Consumes.bind (e : ε) (first : Consumes p ts)
    (forward : ∀ a rest, rest.length < ts.length → Steady e (f a) rest) : Consumes (p >>= f) ts := by
  intro b rest run
  obtain ⟨a, middle, outcome, run⟩ := bind_eq_ok.mp run
  have used := first a middle outcome
  have shorter := (forward a middle used).1.length_le
  rw [run] at shorter
  exact lt_of_le_of_lt shorter used

theorem Consumes.map (consumes : Consumes p ts) (f : α → β) : Consumes (f <$> p) ts := by
  intro b rest run
  obtain ⟨a, middle, outcome, run⟩ := bind_eq_ok.mp run
  cases run
  exact consumes a rest outcome

end Parser

end Besra.Cursor
