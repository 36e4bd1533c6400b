import Mathlib.Data.List.Basic

/-!
Programs that can stop early with a result of their own, or by a fault: something that
must not happen, as a read outside the data. `Keeps` is a postcondition of the runs that go
on, and of them alone; `Safe` says that there is no fault, and is exact for programs one after the
other. `Ends` says of a program just when it stops early, has a fault and returns something.
-/
namespace Besra.Faults

inductive Stop (ε φ : Type) where
  | result (r : ε)
  | fault (f : φ)
deriving DecidableEq

/-- A program with results `ε` of its own and faults `φ`. -/
abbrev Run (ε φ α : Type) := Except (Stop ε φ) α

variable {ε φ α β σ : Type}

def result (r : ε) : Run ε φ α := .error (.result r)

def fault (f : φ) : Run ε φ α := .error (.fault f)

/-- The body for each of so many numbers from `k` on. -/
def times (body : Nat → σ → Run ε φ σ) : Nat → Nat → σ → Run ε φ σ
  | _, 0, s => pure s
  | k, n + 1, s => body k s >>= times body (k + 1) n

def Keeps (x : Run ε φ α) (post : α → Prop) : Prop :=
  match x with
  | .ok a => post a
  | .error (.result _) => True
  | .error (.fault _) => False

variable {a : α} {r : ε} {f : α → Run ε φ β} {c : Prop} {n k : Nat} {s : σ} {body : Nat → σ → Run ε φ σ}

theorem keeps_pure {post : α → Prop} (holds : post a) : Keeps (pure a : Run ε φ α) post := holds

theorem keeps_result {post : α → Prop} : Keeps (result r : Run ε φ α) post := trivial

theorem Keeps.bind {x : Run ε φ α} {mid : α → Prop} {post : β → Prop} (first : Keeps x mid)
    (rest : ∀ a, mid a → Keeps (f a) post) : Keeps (x >>= f) post := by
  rcases x with (r | f) | a
  · trivial
  · exact first
  · exact rest a first

theorem Keeps.mono {x : Run ε φ α} {post post' : α → Prop} (keeps : Keeps x post) (weaker : ∀ a, post a → post' a) :
    Keeps x post' := by
  rcases x with (r | f) | a
  · trivial
  · exact keeps
  · exact weaker a keeps

theorem Keeps.of_ok {x : Run ε φ α} {post : α → Prop} (keeps : Keeps x post) (done : x = .ok a) : post a := by
  rw [done] at keeps
  exact keeps

theorem keeps_ite [Decidable c] {x y : Run ε φ α} {post : α → Prop} (yes : c → Keeps x post) (no : ¬ c → Keeps y post) :
    Keeps (if c then x else y) post := by
  split
  next holds => exact yes holds
  next fails => exact no fails

theorem keeps_times (inv : Nat → σ → Prop) (start : inv k s)
    (step : ∀ i s, k ≤ i → i < k + n → inv i s → Keeps (body i s) (inv (i + 1))) :
    Keeps (times body k n s) (inv (k + n)) := by
  induction n generalizing k s with
  | zero => exact start
  | succ n ih =>
    refine (step k s (Nat.le_refl k) (by omega) start).bind fun s' kept => ?_
    have rest := ih kept fun i s lower upper => step i s (by omega) (by omega)
    rwa [show k + (n + 1) = k + 1 + n by omega]

def Safe (x : Run ε φ α) : Prop := ∀ f, x ≠ .error (.fault f)

theorem safe_iff_keeps {x : Run ε φ α} : Safe x ↔ Keeps x fun _ => True := by
  rcases x with (r | f) | a
  · exact ⟨fun _ => trivial, fun _ f same => by cases same⟩
  · exact ⟨fun safe => safe f rfl, fun keeps => keeps.elim⟩
  · exact ⟨fun _ => trivial, fun _ f same => by cases same⟩

theorem Keeps.safe {x : Run ε φ α} {post : α → Prop} (keeps : Keeps x post) : Safe x :=
  safe_iff_keeps.mpr (keeps.mono fun _ _ => trivial)

theorem safe_pure (a : α) : Safe (pure a : Run ε φ α) := fun _ same => by cases same

theorem safe_result (r : ε) : Safe (result r : Run ε φ α) := fun _ same => by cases same

theorem not_safe_fault (f : φ) : ¬ Safe (fault f : Run ε φ α) := fun safe => safe f rfl

theorem safe_bind_iff {x : Run ε φ α} : Safe (x >>= f) ↔ Safe x ∧ ∀ a, x = .ok a → Safe (f a) := by
  rcases x with (r | g) | a
  · exact ⟨fun _ => ⟨safe_result r, fun a same => (by cases same)⟩, fun _ => safe_result r⟩
  · exact ⟨fun safe => absurd rfl (safe g), fun both => absurd rfl (both.1 g)⟩
  · exact ⟨fun safe => ⟨safe_pure a, fun a' same => (by cases same; exact safe)⟩, fun both => both.2 a rfl⟩

theorem safe_bind_pure_iff {x : Run ε φ α} {f : α → β} : Safe (x >>= fun a => pure (f a)) ↔ Safe x :=
  safe_bind_iff.trans ⟨fun both => both.1, fun safe => ⟨safe, fun a _ => safe_pure (f a)⟩⟩

theorem bind_ok_iff {x : Run ε φ α} {b : β} : (x >>= f) = .ok b ↔ ∃ a, x = .ok a ∧ f a = .ok b := by
  rcases x with (r | g) | a
  · exact ⟨fun same => (by cases same), fun ⟨_, same, _⟩ => (by cases same)⟩
  · exact ⟨fun same => (by cases same), fun ⟨_, same, _⟩ => (by cases same)⟩
  · exact ⟨fun same => ⟨a, rfl, same⟩, fun ⟨_, same, rest⟩ => (by cases same; exact rest)⟩

/-- The program stops early unless it `goes` on, has a fault if it does and is not `right`, and otherwise returns
something with a property. -/
structure Ends (x : Run ε φ α) (goes right : Prop) (post : α → Prop) : Prop where
  stops : ¬ goes → ∃ r, x = .error (.result r)
  faults : goes → ¬ right → ∃ f, x = .error (.fault f)
  returns : goes → right → ∃ a, x = .ok a ∧ post a

theorem ends_pure {post : α → Prop} (holds : post a) : Ends (pure a : Run ε φ α) True True post :=
  ⟨fun not => absurd trivial not, fun _ not => absurd trivial not, fun _ _ => ⟨a, rfl, holds⟩⟩

theorem ends_result {post : α → Prop} : Ends (result r : Run ε φ α) False True post :=
  ⟨fun _ => ⟨r, rfl⟩, fun no => no.elim, fun no => no.elim⟩

theorem ends_fault {f : φ} {post : α → Prop} : Ends (fault f : Run ε φ α) True False post :=
  ⟨fun not => absurd trivial not, fun _ _ => ⟨f, rfl⟩, fun _ no => no.elim⟩

theorem ends_guard [Decidable c] {f : φ} {post : α → Prop} (holds : c → post a) :
    Ends (if c then pure a else fault f : Run ε φ α) True c post := by
  by_cases guard : c
  · rw [if_pos guard]
    exact ⟨fun not => absurd trivial not, fun _ not => absurd guard not, fun _ _ => ⟨a, rfl, holds guard⟩⟩
  · rw [if_neg guard]
    exact ⟨fun not => absurd trivial not, fun _ _ => ⟨f, rfl⟩, fun _ yes => absurd yes guard⟩

section
variable {x : Run ε φ α} {goes right goes' right' : Prop} {post post' : α → Prop}

theorem Ends.congr (ends : Ends x goes right post) (go : goes ↔ goes') (hold : goes' → (right ↔ right')) :
    Ends x goes' right' post :=
  ⟨fun not => ends.stops fun yes => not (go.mp yes),
    fun yes not => ends.faults (go.mpr yes) fun holds => not ((hold yes).mp holds), fun yes holds => ends.returns (go.mpr yes) ((hold yes).mpr holds)⟩

theorem Ends.mono (ends : Ends x goes right post) (weaker : ∀ a, post a → post' a) : Ends x goes right post' :=
  ⟨ends.stops, ends.faults, fun yes holds => (ends.returns yes holds).imp fun a ⟨done, kept⟩ => ⟨done, weaker a kept⟩⟩

theorem Ends.sure (ends : Ends x True right post) (holds : right) : Ends x True True post :=
  ends.congr Iff.rfl fun _ => ⟨fun _ => trivial, fun _ => holds⟩

theorem Ends.of_ok (ends : Ends x goes right post) {a : α} (done : x = .ok a) : goes ∧ right ∧ post a := by
  by_cases go : goes
  · by_cases hold : right
    · obtain ⟨a', done', holds⟩ := ends.returns go hold
      rw [done] at done'
      cases done'
      exact ⟨go, hold, holds⟩
    · obtain ⟨f, failed⟩ := ends.faults go hold
      rw [done] at failed
      cases failed
  · obtain ⟨r, stopped⟩ := ends.stops go
    rw [done] at stopped
    cases stopped

theorem Ends.safe_iff (ends : Ends x goes right post) : Safe x ↔ (goes → right) := by
  constructor
  · intro safe go
    by_contra wrong
    obtain ⟨f, failed⟩ := ends.faults go wrong
    exact safe f failed
  · intro holds f failed
    by_cases go : goes
    · obtain ⟨a, done, _⟩ := ends.returns go (holds go)
      rw [failed] at done
      cases done
    · obtain ⟨r, stopped⟩ := ends.stops go
      rw [failed] at stopped
      cases stopped

variable {mid : α → Prop} {f : α → Run ε φ β}

theorem Ends.bind {post : β → Prop} (first : Ends x goes right mid) (rest : ∀ a, mid a → Ends (f a) goes' right' post) :
    Ends (x >>= f) (goes ∧ (right → goes')) (right ∧ right') post := by
  by_cases go : goes
  · by_cases hold : right
    · obtain ⟨a, done, kept⟩ := first.returns go hold
      rw [done]
      exact (rest a kept).congr ⟨fun go' => ⟨go, fun _ => go'⟩, fun both => both.2 hold⟩
        fun _ => ⟨fun hold' => ⟨hold, hold'⟩, fun both => both.2⟩
    · obtain ⟨g, failed⟩ := first.faults go hold
      rw [failed]
      exact ends_fault.congr ⟨fun _ => ⟨go, fun hold' => absurd hold' hold⟩, fun _ => trivial⟩
        fun _ => ⟨fun no => no.elim, fun both => hold both.1⟩
  · obtain ⟨r, stopped⟩ := first.stops go
    rw [stopped]
    exact ends_result.congr ⟨fun no => no.elim, fun both => go both.1⟩ fun both => absurd both.1 go

theorem Ends.unless {c : Prop} [Decidable c] {r : ε} (ends : ¬ c → Ends x goes right post) :
    Ends (if c then result r else x) (¬ c ∧ goes) right post := by
  by_cases check : c
  · rw [if_pos check]
    exact ⟨fun _ => ⟨r, rfl⟩, fun both => absurd check both.1, fun both => absurd check both.1⟩
  · rw [if_neg check]
    exact (ends check).congr ⟨fun go => ⟨check, go⟩, fun both => both.2⟩ fun _ => Iff.rfl

theorem Ends.finally {post : β → Prop} (first : Ends x goes right mid) (rest : ∀ a, mid a → Ends (f a) True True post) :
    Ends (x >>= f) goes right post :=
  (first.bind rest).congr ⟨fun both => both.1, fun go => ⟨go, fun _ => trivial⟩⟩
    fun _ => ⟨fun both => both.1, fun hold => ⟨hold, trivial⟩⟩

theorem Ends.then {post : β → Prop} (first : Ends x True True mid) (rest : ∀ a, mid a → Ends (f a) goes' right' post) :
    Ends (x >>= f) goes' right' post :=
  (first.bind rest).congr ⟨fun both => both.2 trivial, fun go => ⟨trivial, fun _ => go⟩⟩
    fun _ => ⟨fun both => both.2, fun hold => ⟨trivial, hold⟩⟩

end

theorem ends_times (inv : Nat → σ → Prop) (goes right : Nat → Prop) (start : inv k s)
    (step : ∀ i s, k ≤ i → i < k + n → inv i s → Ends (body i s) (goes i) (right i) (inv (i + 1))) :
    Ends (times body k n s) (∀ i, k ≤ i → i < k + n → (∀ j, k ≤ j → j < i → right j) → goes i)
      (∀ i, k ≤ i → i < k + n → right i) (inv (k + n)) := by
  induction n generalizing k s with
  | zero =>
    exact (ends_pure start).congr ⟨fun _ i lower upper => absurd upper (by omega), fun _ => trivial⟩
      fun _ => ⟨fun _ i lower upper => absurd upper (by omega), fun _ => trivial⟩
  | succ n ih =>
    have first := step k s (Nat.le_refl k) (by omega) start
    have both := first.bind fun s' kept => ih kept fun i s lower upper => step i s (by omega) (by omega)
    rw [show k + (n + 1) = k + 1 + n by omega]
    refine both.congr ⟨fun ⟨go, rest⟩ i lower upper before => ?_, fun all => ?_⟩
      fun _ => ⟨fun ⟨hold, rest⟩ i lower upper => ?_, fun all => ?_⟩
    · rcases Nat.eq_or_lt_of_le lower with rfl | later
      · exact go
      · exact rest (before k (Nat.le_refl k) later) i later upper fun j lower' => before j (by omega)
    · refine ⟨all k (Nat.le_refl k) (by omega) fun j lower upper => absurd upper (by omega),
        fun hold i lower upper before => ?_⟩
      refine all i (by omega) upper fun j lower' upper' => ?_
      rcases Nat.eq_or_lt_of_le lower' with rfl | later
      · exact hold
      · exact before j later upper'
    · rcases Nat.eq_or_lt_of_le lower with rfl | later
      · exact hold
      · exact rest i later upper
    · exact ⟨all k (Nat.le_refl k) (by omega), fun i lower upper => all i (by omega) upper⟩

theorem returns_times (inv : Nat → σ → Prop) (start : inv k s)
    (step : ∀ i s, k ≤ i → i < k + n → inv i s → Ends (body i s) True True (inv (i + 1))) :
    Ends (times body k n s) True True (inv (k + n)) :=
  (ends_times inv (fun _ => True) (fun _ => True) start step).congr (by simp) (by simp)

theorem goes_imp_right_iff {goes : Nat → Prop} (right : Nat → Prop) (before : ∀ i j, j ≤ i → goes i → goes j) :
    ((∀ i, 0 ≤ i → i < 0 + n → (∀ j, 0 ≤ j → j < i → right j) → goes i) →
      ∀ i, 0 ≤ i → i < 0 + n → right i) ↔
      ∀ i < n, goes i → right i := by
  constructor
  · intro whole i upper go
    by_contra wrong
    refine wrong (whole (fun i' _ _ earlier => ?_) i (Nat.zero_le i) (by omega))
    rcases Nat.lt_or_ge i i' with later | sooner
    · exact absurd (earlier i (Nat.zero_le i) later) wrong
    · exact before i i' sooner go
  · intro each go i lower upper
    induction i using Nat.strongRecOn with
    | ind i ih => exact each i (by omega) (go i lower upper fun j lower' upper' => ih j upper' lower' (by omega))

/-- The program is without fault just if it is `right`, and what it returns has a property. -/
structure SafeIf (x : Run ε φ α) (right : Prop) (post : α → Prop) : Prop where
  safe : Safe x ↔ right
  of_ok : ∀ a, x = .ok a → post a

section
variable {x : Run ε φ α} {goes right right' : Prop} {post post' : α → Prop}

theorem Ends.safeIf (ends : Ends x goes right post) (iff : (goes → right) ↔ right') : SafeIf x right' post :=
  ⟨ends.safe_iff.trans iff, fun _ done => (ends.of_ok done).2.2⟩

theorem safeIf_pure {a : α} (holds : post a) : SafeIf (pure a : Run ε φ α) True post :=
  ⟨iff_of_true (safe_pure a) trivial, fun a' done => (by cases done; exact holds)⟩

variable {r : ε} {mid : α → Prop} {f : α → Run ε φ β}

theorem safeIf_result : SafeIf (result r : Run ε φ α) True post :=
  ⟨iff_of_true (safe_result r) trivial, fun a' done => (by cases done)⟩

theorem SafeIf.congr (safe : SafeIf x right post) (iff : right ↔ right') : SafeIf x right' post :=
  ⟨safe.1.trans iff, safe.2⟩

theorem SafeIf.mono (safe : SafeIf x right post) (weaker : ∀ a, post a → post' a) : SafeIf x right post' :=
  ⟨safe.1, fun a done => weaker a (safe.2 a done)⟩

theorem SafeIf.unless {c : Prop} [Decidable c] (safe : ¬ c → SafeIf x right post) :
    SafeIf (if c then result r else x) (¬ c → right) post := by
  by_cases check : c
  · rw [if_pos check]
    exact safeIf_result.congr ⟨fun _ not => absurd check not, fun _ => trivial⟩
  · rw [if_neg check]
    exact (safe check).congr ⟨fun holds _ => holds, fun holds => holds check⟩

theorem SafeIf.map {f : α → β} {post : β → Prop} (safe : SafeIf x right fun a => post (f a)) :
    SafeIf (f <$> x) right post := by
  rcases x with (r | g) | a
  · exact ⟨iff_of_true (safe_result r) (safe.1.mp (safe_result r)), fun b done => (by cases done)⟩
  · exact ⟨iff_of_false (not_safe_fault g) (safe.1.not.mp (not_safe_fault g)), fun b done => (by cases done)⟩
  · exact ⟨iff_of_true (safe_pure (f a)) (safe.1.mp (safe_pure a)), fun b done => (by cases done; exact safe.2 a rfl)⟩

theorem Ends.bindSafe {post : β → Prop} (first : Ends x goes right mid) (rest : ∀ a, mid a → SafeIf (f a) right' post) :
    SafeIf (x >>= f) (goes → right ∧ right') post := by
  by_cases go : goes
  · by_cases hold : right
    · obtain ⟨a, done, kept⟩ := first.returns go hold
      rw [done]
      exact (rest a kept).congr ⟨fun hold' _ => ⟨hold, hold'⟩, fun both => (both go).2⟩
    · obtain ⟨g, failed⟩ := first.faults go hold
      rw [failed]
      exact ⟨iff_of_false (not_safe_fault g) fun both => hold (both go).1, fun b done => (by cases done)⟩
  · obtain ⟨r, stopped⟩ := first.stops go
    rw [stopped]
    exact safeIf_result.congr ⟨fun _ go' => absurd go' go, fun _ => trivial⟩

theorem Ends.thenSafe {post : β → Prop} (first : Ends x True True mid) (rest : ∀ a, mid a → SafeIf (f a) right' post) :
    SafeIf (x >>= f) right' post := by
  obtain ⟨a, done, kept⟩ := first.returns trivial trivial
  rw [done]
  exact rest a kept

end

end Besra.Faults
