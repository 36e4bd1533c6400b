import Besra.DateRun

/-!
What the date parser makes of the components of an accepted layout: each is what it says,
but for the name of a zone that is taken for another name.
-/
namespace Besra.DateTakes
open Lwc NsurlParse CText Calendar Time DateLayout DateParse DateRun
open Item (yearOf dayOf monthOf weekdayOf)

/-- The military zones with a letter that the name of another zone starts with, which is listed before. -/
def shadowed : List (List UInt8) := ["A", "B", "C", "E", "F", "G", "H", "I", "M", "N", "P", "U", "W", "Y"].map lit

def weekdayLetters : List (List UInt8) := ["S", "T"].map lit

def monthLetters : List (List UInt8) := ["D", "O", "S"].map lit

def ReadAs (weekday month : Bool) (i : Nat) : Prop :=
  zoneName i ∉ shadowed ∧ (zoneName i ∈ weekdayLetters → weekday = true) ∧ (zoneName i ∈ monthLetters → month = true)

instance (weekday month : Bool) (i : Nat) : Decidable (ReadAs weekday month i) := inferInstanceAs (Decidable (_ ∧ _))

def startsWeekday (word : List UInt8) : Bool := (startOf (if word.length = 3 then weekdaysShort else weekdaysLong) word).isSome

def firstZone (i : Nat) : Nat := (startOf (timezones.map (·.1)) (insensitive (zoneName i))).getD 0

def WeekdayRead (word : List UInt8) : Prop :=
  startsWeekday word = true ∧ startOf months word = none ∧ startOf (timezones.map (·.1)) word = none

def MonthRead (i : Nat) (word : List UInt8) : Prop :=
  startsWeekday word = false ∧ startOf months word = some i ∧ startOf (timezones.map (·.1)) word = none

def ZoneRead (i : Nat) (word : List UInt8) : Prop :=
  (startsWeekday word = true → zoneName i ∈ shadowed ++ weekdayLetters ∧ zoneMins i ≠ 0 ∧ zoneMins i ≠ 1440) ∧
  (zoneName i ∈ weekdayLetters → startsWeekday word = true) ∧
  ((startOf months word).isSome = true → zoneName i ∈ shadowed ++ monthLetters) ∧
  (zoneName i ∈ monthLetters → (startOf months word).isSome = true) ∧
  startOf (timezones.map (·.1)) word = some (firstZone i) ∧
  (zoneName i ∉ shadowed → firstZone i = i) ∧
  (zoneName i ∈ shadowed → zoneMins (firstZone i) ≠ zoneMins i ∧ zoneMins (firstZone i) - zoneMins i ≠ -1440)

instance (word : List UInt8) : Decidable (WeekdayRead word) := inferInstanceAs (Decidable (_ ∧ _))

instance (i : Nat) (word : List UInt8) : Decidable (MonthRead i word) := inferInstanceAs (Decidable (_ ∧ _))

instance (i : Nat) (word : List UInt8) : Decidable (ZoneRead i word) := inferInstanceAs (Decidable (_ ∧ _ ∧ _ ∧ _ ∧ _ ∧ _ ∧ _))

theorem names_read : (∀ i < 7, ∀ long, WeekdayRead (insensitive (weekdayName i long))) ∧
    (∀ i < 12, MonthRead i (insensitive (months.getD i []))) ∧
    ∀ i < timezones.length, ZoneRead i (insensitive (zoneName i)) := by
  decide +kernel

variable {erange : Bool} {st st' : St}

theorem named_weekday {i : Nat} (low : i < 7) (long : Bool) :
    named st (insensitive (weekdayName i long)) = if st.weekday then none else some { st with weekday := true } := by
  obtain ⟨starts, month, zone⟩ := names_read.1 i low long
  unfold startsWeekday at starts
  unfold named
  cases known : st.weekday with
  | false => simp only [starts, true_and, if_true, Bool.false_eq_true, if_false]
  | true => simp only [month, zone, false_and, Bool.true_eq_false, if_false, ite_self, if_true]

theorem named_month {i : Nat} (low : i < 12) :
    named st (insensitive (months.getD i [])) = if st.month.isSome then none else some { st with month := some i } := by
  obtain ⟨starts, month, zone⟩ := names_read.2.1 i low
  unfold startsWeekday at starts
  unfold named
  simp only [starts, month, zone, Bool.false_eq_true, and_false, if_false, ite_self]
  cases st.month <;> rfl

inductive Taken (st : St) (i : Nat) : Option St → Prop
  | zone (reads : ReadAs st.weekday st.month.isSome i) : Taken st i (some { st with zone := some (zoneMins i) })
  | other {mins : Int} (misread : ¬ReadAs st.weekday st.month.isSome i) (differs : mins ≠ zoneMins i)
      (day : mins - zoneMins i ≠ -1440) : Taken st i (some { st with zone := some mins })
  | weekday (misread : ¬ReadAs st.weekday st.month.isSome i) (first : st.weekday = false) (differs : zoneMins i ≠ 0)
      (day : zoneMins i ≠ 1440) : Taken st i (some { st with weekday := true })
  | month {k : Nat} (misread : ¬ReadAs st.weekday st.month.isSome i) (first : st.month = none) :
      Taken st i (some { st with month := some k })

theorem named_zone {i : Nat} (low : i < timezones.length) (free : st.zone = none) :
    Taken st i (named st (insensitive (zoneName i))) := by
  obtain ⟨asWeekday, fromWeekday, asMonth, fromMonth, found, own, other⟩ := names_read.2.2 i low
  by_cases weekday : st.weekday = false ∧ startsWeekday (insensitive (zoneName i)) = true
  · obtain ⟨first, starts⟩ := weekday
    obtain ⟨letter, differs, day⟩ := asWeekday starts
    have made : named st (insensitive (zoneName i)) = some { st with weekday := true } := if_pos ⟨first, starts⟩
    rw [made]
    refine .weekday (fun reads => ?_) first differs day
    rcases List.mem_append.mp letter with hidden | letter
    · exact reads.1 hidden
    · exact absurd (reads.2.1 letter) (by rw [first]; exact Bool.false_ne_true)
  cases month : (if st.month.isSome then none else startOf months (insensitive (zoneName i))) with
  | some k =>
    have next : named st (insensitive (zoneName i)) = some { st with month := some k } := by
      refine (if_neg weekday).trans ?_
      rw [month]
    rw [next]
    have first : st.month = none := by
      by_contra known
      rw [if_pos (Option.isSome_iff_ne_none.mpr known)] at month
      cases month
    rw [first] at month
    have letter := asMonth (Option.isSome_iff_exists.mpr ⟨k, month⟩)
    refine .month (fun reads => ?_) first
    rcases List.mem_append.mp letter with hidden | letter
    · exact reads.1 hidden
    · have known := reads.2.2 letter
      rw [first] at known
      cases known
  | none =>
    have next : named st (insensitive (zoneName i)) = some { st with zone := some (zoneMins (firstZone i)) } := by
      refine (if_neg weekday).trans ?_
      rw [month, free, found]
      rfl
    rw [next]
    by_cases hidden : zoneName i ∈ shadowed
    · obtain ⟨differs, day⟩ := other hidden
      exact .other (fun reads => reads.1 hidden) differs day
    · rw [own hidden]
      refine .zone ⟨hidden, fun letter => ?_, fun letter => ?_⟩
      · by_contra first
        exact weekday ⟨Bool.eq_false_iff.mpr first, fromWeekday letter⟩
      · by_contra first
        rw [if_neg first] at month
        have starts := fromMonth letter
        rw [month] at starts
        cases starts

def Once {α : Type} (f : Item → Option α) (known : Option α) (items : List Item) : Prop :=
  (known.toList ++ items.filterMap f).length ≤ 1

variable {α : Type} {f : Item → Option α} {known : Option α} {it : Item} {items : List Item}

theorem Once.cons (once : Once f known (it :: items)) : Once f (known.or (f it)) items := by
  unfold Once at *
  cases known <;> cases given : f it <;> simp_all

theorem Once.free (once : Once f known (it :: items)) (given : f it ≠ none) : known = none := by
  obtain ⟨x, is⟩ := Option.ne_none_iff_exists'.mp given
  cases known with
  | none => rfl
  | some y =>
    unfold Once at once
    rw [List.filterMap_cons_some is] at once
    simp at once

theorem or_head_cons (f : Item → Option α) (known : Option α) (it : Item) (items : List Item) :
    (known.or (f it)).or (items.filterMap f).head? = known.or ((it :: items).filterMap f).head? := by
  cases known <;> cases given : f it <;> simp [given]

/-- The components to come are not known, and a short year is not taken for the day. -/
structure Room (st : St) (items : List Item) : Prop where
  year : Once yearOf st.year items
  day : Once dayOf st.day items
  time : Once Item.timeOf st.time items
  zone : Once Item.offsetOf st.zone items
  ordered : ∀ before y after, items = before ++ .shortYear y :: after →
    st.day ≠ none ∨ before.filterMap dayOf ≠ [] ∨ y = 0 ∨ 31 < y

theorem Room.opened (room : Room st (it :: items)) : Open st it := by
  cases it with
  | day d => exact room.day.free nofun
  | shortYear y =>
    refine ⟨room.year.free nofun, ?_⟩
    rcases room.ordered [] y items rfl with day | before | other
    · exact .inl day
    · exact absurd rfl before
    · exact .inr other
  | longYear y => exact room.year.free nofun
  | date y m d => exact ⟨room.year.free nofun, room.day.free nofun⟩
  | time h m s => exact room.time.free nofun
  | offset east v => exact room.zone.free nofun
  | weekday i long => trivial
  | month i => trivial
  | zone i => trivial

/-- A component is known by what it says, but a name may be taken for another one. -/
theorem take_fields (inRange : it.InRange) (room : Room st (it :: items)) (taken : take erange st it = some st') :
    st'.year = st.year.or it.yearOf ∧ st'.day = st.day.or it.dayOf ∧ st'.time = st.time.or it.timeOf ∧
      ((∀ i, it ≠ .zone i) → st'.zone = st.zone.or it.offsetOf ∧ st'.month = st.month.or it.monthOf ∧
        st'.weekday = (st.weekday || it.weekdayOf.isSome)) := by
  have opened := room.opened
  cases it with
  | weekday i long =>
    rw [take, named_weekday inRange] at taken
    split at taken
    · cases taken
    · cases taken
      simp [yearOf, dayOf, Item.timeOf, Item.offsetOf, monthOf, weekdayOf]
  | month i =>
    rw [take, named_month inRange] at taken
    split at taken
    · cases taken
    next free =>
      cases taken
      rw [Option.not_isSome_iff_eq_none] at free
      simp [yearOf, dayOf, Item.timeOf, Item.offsetOf, monthOf, weekdayOf, free]
  | day d =>
    have free : st.day = none := opened
    rw [take] at taken
    split at taken
    · cases taken
    · cases taken
      simp [yearOf, dayOf, Item.timeOf, Item.offsetOf, monthOf, weekdayOf, free]
  | shortYear y =>
    have free : st.year = none := opened.1
    rw [take] at taken
    split at taken
    · cases taken
    · cases taken
      simp [yearOf, dayOf, Item.timeOf, Item.offsetOf, monthOf, weekdayOf, free]
  | longYear y =>
    have free : st.year = none := opened
    rw [take] at taken
    split at taken
    · cases taken
    · cases taken
      simp [yearOf, dayOf, Item.timeOf, Item.offsetOf, monthOf, weekdayOf, free]
  | date y m d =>
    obtain ⟨year, day⟩ : st.year = none ∧ st.day = none := opened
    rw [take] at taken
    split at taken
    · cases taken
    next free =>
      cases taken
      have month : st.month = none := Option.not_isSome_iff_eq_none.mp (fun known => free (.inr known))
      simp [yearOf, dayOf, Item.timeOf, Item.offsetOf, monthOf, weekdayOf, year, day, month]
  | time h m s =>
    have free : st.time = none := opened
    cases taken
    simp [yearOf, dayOf, Item.timeOf, Item.offsetOf, monthOf, weekdayOf, free]
  | offset east v =>
    have free : st.zone = none := opened
    rw [take] at taken
    split at taken
    · cases taken
    · cases taken
      simp [yearOf, dayOf, Item.timeOf, Item.offsetOf, monthOf, weekdayOf, free]
  | zone i =>
    have free : st.zone = none := room.zone.free (Option.some_ne_none _)
    have names := @named_zone st _ inRange free
    rw [show named st (insensitive (zoneName i)) = some st' from taken] at names
    cases names <;> simp [yearOf, dayOf, Item.timeOf]

theorem Room.step (inRange : it.InRange) (room : Room st (it :: items)) (taken : take erange st it = some st') :
    Room st' items := by
  obtain ⟨year, day, time, others⟩ := take_fields inRange room taken
  refine ⟨year ▸ room.year.cons, day ▸ room.day.cons, time ▸ room.time.cons, ?_, fun before y after same => ?_⟩
  · by_cases zone : ∃ i, it = .zone i
    · obtain ⟨i, rfl⟩ := zone
      have once := room.zone.cons
      have one : (st.zone.or (Item.zone i).offsetOf).toList.length = 1 := by cases st.zone <;> rfl
      have most : st'.zone.toList.length ≤ 1 := by cases st'.zone <;> simp
      unfold Once at once ⊢
      rw [List.length_append] at once ⊢
      omega
    · exact (others (fun i is => zone ⟨i, is⟩)).1 ▸ room.zone.cons
  · rw [day]
    rcases room.ordered (it :: before) y after (by rw [same, List.cons_append]) with known | first | other
    · obtain ⟨d, is⟩ := Option.ne_none_iff_exists'.mp known
      rw [is]
      exact .inl nofun
    · cases given : it.dayOf with
      | none =>
        rw [List.filterMap_cons_none given] at first
        exact .inr (.inl first)
      | some d =>
        refine .inl ?_
        cases st.day <;> exact nofun
    · exact .inr (.inr other)

theorem Room.fits : ∀ {items : List Item} {st : St}, Room st items → (∀ it ∈ items, it.InRange) → Fits erange st items
  | [], _, _, _ => trivial
  | it :: _, _, room, inRange =>
    ⟨room.opened, fun _ taken => (room.step (inRange it List.mem_cons_self) taken).fits
      (fun it member => inRange it (List.mem_cons_of_mem _ member))⟩

theorem takes_complete (complete : st.flags.haveAll = true) (items : List Item) : takes erange st items = some st := by
  cases items with
  | nil => rfl
  | cons it items => exact if_pos complete

theorem takes_append (front back : List Item) :
    takes erange st (front ++ back) = (takes erange st front).bind (fun st' => takes erange st' back) := by
  induction front generalizing st with
  | nil => rfl
  | cons it front ih =>
    rw [List.cons_append, takes, takes]
    split
    next complete => exact (takes_complete complete back).symm
    next =>
      cases take erange st it with
      | none => rfl
      | some st' => exact ih

theorem takes_stuck (P : St → Prop) (bad : Item → Prop) (incomplete : ∀ {st}, P st → st.flags.haveAll = false)
    (fails : ∀ {st it}, P st → bad it → it ∈ items → take erange st it = none)
    (kept : ∀ {st st' it}, P st → ¬bad it → it ∈ items → take erange st it = some st' → P st')
    (some : ∃ it ∈ items, bad it) : ∀ {st : St}, P st → takes erange st items = none := by
  induction items with
  | nil => exact absurd some (by simp)
  | cons it items ih =>
    intro st holds
    rw [takes, if_neg (by rw [incomplete holds]; exact Bool.false_ne_true)]
    cases taken : take erange st it with
    | none => rfl
    | some st' =>
      have here : ¬bad it := by
        intro is
        rw [fails holds is List.mem_cons_self] at taken
        cases taken
      refine ih (fun holds is member => fails holds is (List.mem_cons_of_mem _ member))
        (fun holds other member => kept holds other (List.mem_cons_of_mem _ member)) ?_
        (kept holds here List.mem_cons_self taken)
      obtain ⟨it', member, is⟩ := some
      rcases List.mem_cons.mp member with rfl | member
      · exact absurd is here
      · exact ⟨it', member, is⟩

structure Known (st st' : St) (items : List Item) : Prop where
  year : st'.year = st.year.or (items.filterMap yearOf).head?
  month : st'.month = st.month.or (items.filterMap monthOf).head?
  day : st'.day = st.day.or (items.filterMap dayOf).head?
  time : st'.time = st.time.or (items.filterMap Item.timeOf).head?
  zone : st'.zone = st.zone.or (items.filterMap Item.offsetOf).head?
  weekday : st'.zone = none → st'.weekday = (st.weekday || (items.filterMap weekdayOf).head?.isSome)

theorem haveAll_eq (st : St) :
    st.flags.haveAll =
      (st.year.isSome && st.month.isSome && st.day.isSome && st.time.isSome && st.time.isSome && st.time.isSome &&
        st.zone.isSome) := rfl

/-- Without the name of a zone, components are known as they say. -/
theorem takes_known (zoneless : ∀ i, .zone i ∉ items) (inRange : ∀ it ∈ items, it.InRange) (room : Room st items)
    (month : Once monthOf st.month items)
    (weekday : (if st.weekday then 1 else 0) + (items.filterMap weekdayOf).length ≤ 1) :
    ∃ st', takes false st items = some st' ∧ Known st st' items := by
  induction items generalizing st with
  | nil => exact ⟨st, rfl, by constructor <;> simp⟩
  | cons it items ih =>
    by_cases complete : st.flags.haveAll = true
    · refine ⟨st, takes_complete complete _, ?_⟩
      rw [haveAll_eq] at complete
      simp only [Bool.and_eq_true, Option.isSome_iff_exists] at complete
      obtain ⟨⟨⟨⟨⟨⟨⟨y, year⟩, m, month⟩, d, day⟩, t, time⟩, -⟩, -⟩, z, zone⟩ := complete
      constructor <;> simp [*]
    · have free : take false st it ≠ none := by
        cases it with
        | weekday i long =>
          have known : st.weekday = false := by
            cases is : st.weekday with
            | false => rfl
            | true =>
              rw [is, List.filterMap_cons_some (show weekdayOf (.weekday i long) = some i from rfl)] at weekday
              simp at weekday
          rw [take, named_weekday (inRange _ List.mem_cons_self), known]
          exact nofun
        | month i =>
          rw [take, named_month (inRange _ List.mem_cons_self), month.free nofun]
          exact nofun
        | date y m d =>
          have known : ¬ (false = true ∨ st.month.isSome = true) := by
            rw [month.free nofun]
            exact not_or.mpr ⟨Bool.false_ne_true, Bool.false_ne_true⟩
          rw [take, if_neg known]
          exact nofun
        | zone i => exact absurd List.mem_cons_self (zoneless i)
        | day d => exact nofun
        | shortYear y => exact nofun
        | longYear y => exact nofun
        | time h m s => exact nofun
        | offset east v => exact nofun
      obtain ⟨st', taken⟩ := Option.ne_none_iff_exists'.mp free
      obtain ⟨year, day, time, others⟩ := take_fields (inRange it List.mem_cons_self) room taken
      obtain ⟨zone, month', weekday'⟩ := others (fun i is => zoneless i (is ▸ List.mem_cons_self))
      obtain ⟨st'', rest, after⟩ := ih (fun i member => zoneless i (List.mem_cons_of_mem _ member))
        (fun it member => inRange it (List.mem_cons_of_mem _ member)) (room.step (inRange it List.mem_cons_self) taken)
        (month' ▸ month.cons) (by
          rw [weekday']
          cases given : it.weekdayOf with
          | none =>
            rw [List.filterMap_cons_none given] at weekday
            rw [Option.isSome_none, Bool.or_false]
            exact weekday
          | some i =>
            rw [List.filterMap_cons_some given, List.length_cons] at weekday
            rw [Option.isSome_some, Bool.or_true, if_pos rfl]
            omega)
      refine ⟨st'', ?_, ?_⟩
      · rw [takes, if_neg complete, taken]
        exact rest
      · constructor
        · rw [after.year, year, or_head_cons]
        · rw [after.month, month', or_head_cons]
        · rw [after.day, day, or_head_cons]
        · rw [after.time, time, or_head_cons]
        · rw [after.zone, zone, or_head_cons]
        · intro none
          rw [after.weekday none, weekday']
          cases st.weekday <;> cases given : it.weekdayOf <;> simp [given]

end Besra.DateTakes
