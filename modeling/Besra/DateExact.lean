import Besra.DateTakes

/-!
Dates that are parsed, against the calendar: `dates_exact_iff`. A day of a leap February comes
out a day late, since `time__ctx_to_time_t` counts the leap day of a year from February on;
and a military zone is mostly taken for another name that starts with its letter.
-/
namespace Besra.DateExact
open Lwc NsurlParse CText Calendar Time DateLayout DateParse DateRun Option
open DateTakes
open List (mem_cons_self mem_cons_of_mem filterMap_append length_append mem_filterMap)

/-- The date comes out a day late: in February of a leap year, and in January of the year zero, the year before which is
rounded the wrong way. -/
def Late (date : Date) : Prop := isLeap date.year = true ∧ date.month = 1 ∨ date.year = 0 ∧ date.month = 0

instance (date : Date) : Decidable (Late date) := inferInstanceAs (Decidable (_ ∨ _))

/-- Each name of a zone is taken for it, where a weekday and a month were given before or not. -/
def ZonesRead : Bool → Bool → List Item → Prop
  | _, _, [] => True
  | weekday, month, it :: items =>
    (∀ i, it = .zone i → ReadAs weekday month i) ∧
      ZonesRead (weekday || it.weekdayOf.isSome) (month || it.monthOf.isSome) items

theorem monthOffsets_eq : ∀ month < 12, monthOffsets.getD month 0 = daysBeforeMonth 1 month := by decide

theorem daysBeforeYear_epoch : daysBeforeYear 1970 = 719528 := by
  have closed : daysBeforeYear 1970 + 1969 / 100 = 365 * 1970 + 1969 / 4 + 1969 / 400 + 1 := daysBeforeYear_succ 1969
  omega

theorem getLeapDays_nat (year : Nat) : getLeapDays year = (year / 4 : Nat) - (year / 100 : Nat) + (year / 400 : Nat) := rfl

variable {date : Date} {st st' : St} {after before front back : List Item} {i : Nat}

theorem days_late (month : date.month < 12) :
    (date.year - 1970 : Int) * 365 + (monthOffsets.getD date.month 0 : Nat) + date.day +
        (getLeapDays (if date.month < 1 then (date.year : Int) - 1 else date.year) - getLeapDays 1969) =
      (date.number : Int) - daysBeforeYear 1970 + (if Late date then 1 else 0) := by
  obtain ⟨year, m, day⟩ := date
  have leap1969 : getLeapDays 1969 = 477 := by decide
  have months := daysBeforeMonth_leap year m
  rw [monthOffsets_eq m month, leap1969, daysBeforeYear_epoch]
  simp only [Late, Date.number]
  rw [months]
  by_cases january : m = 0
  · subst january
    cases year with
    | zero => simp [daysBeforeYear, daysBeforeMonth, getLeapDays]; omega
    | succ year =>
      have closed := daysBeforeYear_succ year
      have before : ((year + 1 : Nat) : Int) - 1 = (year : Nat) := by omega
      rw [if_pos Nat.one_pos, before, getLeapDays_nat]
      simp only [Nat.not_lt_zero, and_false, if_false, zero_ne_one, Nat.succ_ne_zero, false_and, or_false, Nat.add_zero]
      omega
  · have closed := daysBeforeYear_succ year
    rw [daysBeforeYear, yearDays] at closed
    rw [if_neg (by omega), getLeapDays_nat]
    simp only [january, and_false, or_false]
    by_cases leap : isLeap year = true
    · simp only [leap, if_true, true_and] at closed ⊢
      split <;> split <;> omega
    · simp only [leap, if_false, false_and, Bool.false_eq_true] at closed ⊢
      omega

theorem value_known {time : Nat × Nat × Nat} (valid : date.Valid)
    (inRange : time.1 ≤ 23 ∧ time.2.1 ≤ 59 ∧ time.2.2 ≤ 60) (year : st.year = some date.year)
    (month : st.month = some date.month) (day : st.day = some date.day) (hours : st.time.getD (0, 0, 0) = time) :
    value st = some (seconds date time (st.zone.getD 0) + (if Late date then 86400 else 0)) := by
  obtain ⟨hour, minute, second⟩ := inRange
  have days : date.day < 32 := by
    refine Nat.lt_of_lt_of_le valid.2 ?_
    unfold monthDays
    split <;> try split
    all_goals decide
  have ctx : st.ctx 0 =
      { secs := time.2.2, mins := time.2.1, hours := time.1, day := date.day, month := date.month, years := date.year,
        timezoneOffsetMins := st.zone.getD 0 } := by
    simp only [St.ctx, hours, year, month, day, getD_some]
  have complete : ({ st.flags.haveTime with timezone := true } : Flags).haveAll = true := by
    simp only [Flags.haveAll, Flags.haveTime, St.flags, year, month, day, isSome_some, Bool.and_self]
  have checked : ¬ (60 < time.2.2 ∨ 59 < time.2.1 ∨ 23 < time.1 ∨ 31 < date.day ∨ 11 < date.month) := by
    have low := valid.1
    omega
  have late := days_late valid.1
  unfold value DateRun.finish
  simp only [complete, not_true_eq_false, if_false, ctx, if_neg checked]
  refine congrArg some ?_
  simp only [ctxToTimeT, seconds]
  by_cases is : Late date
  · rw [if_pos is] at late ⊢
    omega
  · rw [if_neg is] at late ⊢
    omega

theorem zonesRead_zoneless {items : List Item} (zoneless : ∀ i, .zone i ∉ items) (weekday month : Bool) :
    ZonesRead weekday month items := by
  induction items generalizing weekday month with
  | nil => trivial
  | cons it items ih =>
    exact ⟨fun i is => absurd (is ▸ mem_cons_self) (zoneless i),
      ih (fun i member => zoneless i (mem_cons_of_mem _ member)) _ _⟩

theorem zonesRead_split (first : ∀ i, .zone i ∉ before) (last : ∀ i, .zone i ∉ after) (weekday month : Bool) :
    ZonesRead weekday month (before ++ .zone i :: after) ↔
      ReadAs (weekday || (before.filterMap Item.weekdayOf).head?.isSome)
        (month || (before.filterMap Item.monthOf).head?.isSome) i := by
  induction before generalizing weekday month with
  | nil =>
    have rest := fun w m => zonesRead_zoneless last w m
    simp [ZonesRead, rest]
  | cons it before ih =>
    rw [List.cons_append, ZonesRead, ih (fun i member => first i (mem_cons_of_mem _ member))]
    have other : ∀ j, it = .zone j → ReadAs weekday month j := fun j is => absurd (is ▸ mem_cons_self) (first j)
    rw [and_iff_right other]
    cases week : it.weekdayOf <;> cases mon : it.monthOf <;> simp [week, mon]

theorem filterMap_split {α : Type} {f : Item → Option α} {before after : List Item} {it : Item} {x : α} (is : f it = some x)
    (once : ((before ++ it :: after).filterMap f).length ≤ 1) :
    before.filterMap f = [] ∧ after.filterMap f = [] := by
  rw [filterMap_append, List.filterMap_cons_some is, length_append, List.length_cons] at once
  exact ⟨List.length_eq_zero_iff.mp (by omega), List.length_eq_zero_iff.mp (by omega)⟩

theorem zoneless_of_nil {items : List Item} (none : items.filterMap Item.offsetOf = []) (i : Nat) : .zone i ∉ items := by
  intro member
  have given := List.filterMap_eq_nil_iff.mp none _ member
  cases given

variable {items : List Item} {erange : Bool}

theorem accepted_room (accepted : Accepted items) : Room {} items where
  year := by
    obtain ⟨y, same⟩ := accepted.year
    simp [Once, same]
  day := by
    obtain ⟨d, same⟩ := accepted.day
    simp [Once, same]
  time := by simpa [Once] using accepted.time
  zone := by simpa [Once] using accepted.offset
  ordered before y after same := .inr (accepted.ordered before y after same)

theorem accepted_time (accepted : Accepted items) :
    (timeOf items).1 ≤ 23 ∧ (timeOf items).2.1 ≤ 59 ∧ (timeOf items).2.2 ≤ 60 := by
  unfold timeOf
  cases given : items.filterMap Item.timeOf with
  | nil => exact ⟨Nat.zero_le _, Nat.zero_le _, Nat.zero_le _⟩
  | cons t rest =>
    obtain ⟨it, member, is⟩ := mem_filterMap.mp (given ▸ mem_cons_self : t ∈ items.filterMap Item.timeOf)
    have inRange := accepted.inRange it member
    cases it with
    | time h m s =>
      cases is
      exact inRange
    | _ => cases is

theorem named_year {word : List UInt8} (made : named st word = some st') : st'.year = st.year := by
  unfold named at made
  generalize startOf (if word.length = 3 then weekdaysShort else weekdaysLong) word = weekday at made
  generalize (if st.month.isSome = true then none else startOf months word) = month at made
  generalize (if st.zone.isSome = true then none else startOf (timezones.map (·.1)) word) = zone at made
  split at made
  · cases made
    rfl
  · cases month with
    | some i =>
      cases made
      rfl
    | none =>
      cases zone with
      | some i =>
        cases made
        rfl
      | none => cases made

theorem takes_erange (accepted : Accepted items) : takes true {} items = none := by
  obtain ⟨y, year⟩ := accepted.year
  obtain ⟨it, member, is⟩ := mem_filterMap.mp (year ▸ mem_cons_self : y ∈ items.filterMap Item.yearOf)
  refine takes_stuck (fun st => st.year = none) (fun it => it.yearOf.isSome = true) ?_ ?_ ?_ ⟨it, member, by rw [is]; rfl⟩ rfl
  · intro st unknown
    rw [haveAll_eq, unknown]
    rfl
  · intro st it unknown given _
    cases it with
    | shortYear y => rfl
    | longYear y => rfl
    | date y m d => rfl
    | _ => cases given
  · intro st st' it unknown other inside taken
    have inRange := accepted.inRange it inside
    cases it with
    | shortYear y => cases taken
    | longYear y => cases taken
    | date y m d => cases taken
    | day d => cases taken
    | offset east v => cases taken
    | time h m s =>
      cases taken
      exact unknown
    | weekday i long =>
      rw [take, named_weekday inRange] at taken
      split at taken
      · cases taken
      · cases taken
        exact unknown
    | month i =>
      rw [take, named_month inRange] at taken
      split at taken
      · cases taken
      · cases taken
        exact unknown
    | zone i => exact (named_year taken).trans unknown

theorem room_front (room : Room st (front ++ back)) : Room st front := by
  have once : ∀ {α : Type} {f : Item → Option α} {known : Option α}, Once f known (front ++ back) → Once f known front := by
    intro α f known once
    unfold Once at once ⊢
    rw [filterMap_append, length_append, length_append] at once
    rw [length_append]
    omega
  refine ⟨once room.year, once room.day, once room.time, once room.zone, fun before y after same => ?_⟩
  exact room.ordered before y (after ++ back) (by rw [same, List.append_assoc, List.cons_append])

theorem room_run (inRange : ∀ it ∈ front, it.InRange) (room : Room st (front ++ back))
    (taken : takes false st front = some st') (incomplete : st'.flags.haveAll = false) : Room st' back := by
  induction front generalizing st with
  | nil =>
    cases taken
    exact room
  | cons it front ih =>
    rw [takes] at taken
    split at taken
    next complete =>
      cases taken
      rw [complete] at incomplete
      cases incomplete
    next =>
      cases made : take false st it with
      | none =>
        rw [made] at taken
        cases taken
      | some st'' =>
        rw [made] at taken
        exact ih (fun it member => inRange it (mem_cons_of_mem _ member))
          (room.step (inRange it mem_cons_self) made) taken

/-- What a run comes to that says what the components do, but for the zone. -/
structure Says (items : List Item) (st : St) : Prop where
  year : st.year = some (dateOf items).year
  month : st.month = some (dateOf items).month
  day : st.day = some (dateOf items).day
  time : st.time.getD (0, 0, 0) = timeOf items

theorem take_keeps {it : Item} (inRange : it.InRange) (zoneless : it.offsetOf = none)
    (taken : take erange st it = some st') :
    st'.zone = st.zone ∧ (st.weekday = true → st'.weekday = true) ∧ (st.month ≠ none → st'.month ≠ none) := by
  cases it with
  | zone i => cases zoneless
  | offset east v => cases zoneless
  | time h m s =>
    cases taken
    exact ⟨rfl, id, id⟩
  | weekday i long =>
    rw [take, named_weekday inRange] at taken
    split at taken
    · cases taken
    · cases taken
      exact ⟨rfl, fun _ => rfl, id⟩
  | month i =>
    rw [take, named_month inRange] at taken
    split at taken
    · cases taken
    · cases taken
      exact ⟨rfl, id, fun _ => some_ne_none _⟩
  | day d =>
    rw [take] at taken
    split at taken
    · cases taken
    · cases taken
      exact ⟨rfl, id, id⟩
  | shortYear y =>
    rw [take] at taken
    split at taken
    · cases taken
    · cases taken
      exact ⟨rfl, id, id⟩
  | longYear y =>
    rw [take] at taken
    split at taken
    · cases taken
    · cases taken
      exact ⟨rfl, id, id⟩
  | date y m d =>
    rw [take] at taken
    split at taken
    · cases taken
    · cases taken
      exact ⟨rfl, id, fun _ => some_ne_none _⟩

theorem incomplete_zoneless (free : st.zone = none) : st.flags.haveAll = false := by
  rw [haveAll_eq, free]
  exact Bool.and_false _

theorem takes_weekday (inRange : ∀ it ∈ items, it.InRange) (free : st.zone = none)
    (zoneless : items.filterMap Item.offsetOf = []) (known : st.weekday = true)
    (again : items.filterMap Item.weekdayOf ≠ []) : takes false st items = none := by
  obtain ⟨i, given⟩ := List.exists_mem_of_ne_nil _ again
  obtain ⟨it, member, is⟩ := mem_filterMap.mp given
  refine takes_stuck (fun st => st.zone = none ∧ st.weekday = true) (fun it => it.weekdayOf.isSome = true)
    (fun holds => incomplete_zoneless holds.1) ?_ ?_ ⟨it, member, by rw [is]; rfl⟩ ⟨free, known⟩
  · intro st it holds given inside
    cases it with
    | weekday i long => rw [take, named_weekday (inRange _ inside), holds.2, if_pos rfl]
    | _ => cases given
  · intro st st' it holds _ inside taken
    obtain ⟨zone, weekday, -⟩ := take_keeps (inRange it inside) (List.filterMap_eq_nil_iff.mp zoneless it inside) taken
    exact ⟨zone.trans holds.1, weekday holds.2⟩

theorem takes_month (inRange : ∀ it ∈ items, it.InRange) (free : st.zone = none)
    (zoneless : items.filterMap Item.offsetOf = []) (known : st.month ≠ none)
    (again : items.filterMap Item.monthOf ≠ []) : takes false st items = none := by
  obtain ⟨i, given⟩ := List.exists_mem_of_ne_nil _ again
  obtain ⟨it, member, is⟩ := mem_filterMap.mp given
  refine takes_stuck (fun st => st.zone = none ∧ st.month ≠ none) (fun it => it.monthOf.isSome = true)
    (fun holds => incomplete_zoneless holds.1) ?_ ?_ ⟨it, member, by rw [is]; rfl⟩ ⟨free, known⟩
  · intro st it holds given inside
    have set := isSome_iff_ne_none.mpr holds.2
    cases it with
    | month i => rw [take, named_month (inRange _ inside), if_pos set]
    | date y m d => exact if_pos (.inr set)
    | _ => cases given
  · intro st st' it holds _ inside taken
    obtain ⟨zone, -, month⟩ := take_keeps (inRange it inside) (List.filterMap_eq_nil_iff.mp zoneless it inside) taken
    exact ⟨zone.trans holds.1, month holds.2⟩

theorem says_of_heads (accepted : Accepted items) (year : st.year = (items.filterMap Item.yearOf).head?)
    (month : st.month = (items.filterMap Item.monthOf).head?) (day : st.day = (items.filterMap Item.dayOf).head?)
    (time : st.time = (items.filterMap Item.timeOf).head?) : Says items st := by
  obtain ⟨y, years⟩ := accepted.year
  obtain ⟨m, months⟩ := accepted.month
  obtain ⟨d, days⟩ := accepted.day
  constructor
  · rw [year, dateOf, years]
    rfl
  · rw [month, dateOf, months]
    rfl
  · rw [day, dateOf, days]
    rfl
  · rw [time, timeOf]
    cases items.filterMap Item.timeOf <;> rfl

theorem says_split (accepted : Accepted (before ++ .zone i :: after)) {st'' : St} (first : Known {} st before)
    (second : Known st' st'' after) (year : st'.year = st.year) (month : st'.month = st.month)
    (day : st'.day = st.day) (time : st'.time = st.time) : Says (before ++ .zone i :: after) st'' := by
  refine says_of_heads accepted ?_ ?_ ?_ ?_
  · rw [second.year, year, first.year, filterMap_append, List.head?_append]
    rfl
  · rw [second.month, month, first.month, filterMap_append, List.head?_append]
    rfl
  · rw [second.day, day, first.day, filterMap_append, List.head?_append]
    rfl
  · rw [second.time, time, first.time, filterMap_append, List.head?_append]
    rfl

/-- What a run over an accepted layout comes to: the zone is what it says where its name is taken for it, and otherwise
there is no result, or one with another zone. -/
def Comes (items : List Item) : Option St → Prop
  | none => ¬ZonesRead false false items
  | some st => Says items st ∧
      (ZonesRead false false items ∧ st.zone.getD 0 = offsetOf items ∨
        ¬ZonesRead false false items ∧ st.zone.getD 0 ≠ offsetOf items ∧ st.zone.getD 0 - offsetOf items ≠ -1440)

theorem takes_zone (accepted : Accepted (before ++ .zone i :: after)) :
    Comes (before ++ .zone i :: after) (takes false {} (before ++ .zone i :: after)) := by
  have inFront : ∀ it ∈ before, it.InRange := fun it member => accepted.inRange it (List.mem_append_left _ member)
  have inBack : ∀ it ∈ after, it.InRange :=
    fun it member => accepted.inRange it (List.mem_append_right _ (mem_cons_of_mem _ member))
  have low : (Item.zone i).InRange := accepted.inRange _ (List.mem_append_right _ mem_cons_self)
  obtain ⟨front, back⟩ := @filterMap_split _ Item.offsetOf _ _ (.zone i) _ rfl accepted.offset
  have firstZoneless := zoneless_of_nil front
  have lastZoneless := zoneless_of_nil back
  have room := accepted_room accepted
  obtain ⟨m, months⟩ := accepted.month
  have weekdays := accepted.weekday
  rw [filterMap_append, List.filterMap_cons_none (show Item.monthOf (.zone i) = none from rfl)] at months
  rw [filterMap_append, List.filterMap_cons_none (show Item.weekdayOf (.zone i) = none from rfl),
    length_append] at weekdays
  have monthCount : (before.filterMap Item.monthOf).length + (after.filterMap Item.monthOf).length = 1 := by
    rw [← length_append, months]
    rfl
  obtain ⟨st, taken, known⟩ := takes_known firstZoneless inFront (room_front room)
    (show Once Item.monthOf none before by
      unfold Once
      rw [toList_none, List.nil_append]
      omega)
    (show (if false = true then 1 else 0) + (before.filterMap Item.weekdayOf).length ≤ 1 by
      rw [if_neg Bool.false_ne_true]
      omega)
  have free : st.zone = none := by
    rw [known.zone, front]
    rfl
  have weekday : st.weekday = (false || (before.filterMap Item.weekdayOf).head?.isSome) := known.weekday free
  have month : st.month.isSome = (false || (before.filterMap Item.monthOf).head?.isSome) := by
    rw [known.month]
    rfl
  have offset : offsetOf (before ++ .zone i :: after) = zoneMins i := by
    rw [offsetOf, filterMap_append, front]
    rfl
  have rest := room_run inFront room taken (incomplete_zoneless free)
  have reads : ReadAs st.weekday st.month.isSome i ↔ ZonesRead false false (before ++ .zone i :: after) := by
    rw [weekday, month]
    exact (zonesRead_split firstZoneless lastZoneless _ _).symm
  have monthAfter : Once Item.monthOf st.month after := by
    unfold Once
    rw [known.month, none_or, length_append]
    cases given : before.filterMap Item.monthOf with
    | nil =>
      rw [given] at monthCount
      exact Nat.le_of_eq monthCount
    | cons k more =>
      rw [given, List.length_cons] at monthCount
      show 1 + (after.filterMap Item.monthOf).length ≤ 1
      omega
  have weekdayAfter : (if st.weekday then 1 else 0) + (after.filterMap Item.weekdayOf).length ≤ 1 := by
    rw [weekday]
    cases given : before.filterMap Item.weekdayOf with
    | nil =>
      rw [given] at weekdays
      exact weekdays
    | cons k more =>
      rw [given, List.length_cons] at weekdays
      show 1 + (after.filterMap Item.weekdayOf).length ≤ 1
      omega
  have whole : takes false {} (before ++ .zone i :: after) =
      (named st (insensitive (zoneName i))).bind (fun st' => takes false st' after) := by
    rw [takes_append, taken, bind_some, takes, if_neg (by rw [incomplete_zoneless free]; exact Bool.false_ne_true)]
    rw [show take false st (.zone i) = named st (insensitive (zoneName i)) from rfl]
    cases named st (insensitive (zoneName i)) <;> rfl
  have step : ∀ st', named st (insensitive (zoneName i)) = some st' → Room st' after := fun st' is => @Room.step false _ _ _ _ low rest is
  have names := @named_zone st _ low free
  rw [whole]
  generalize named st (insensitive (zoneName i)) = made at names step
  cases names with
  | zone is =>
    obtain ⟨st', taken', known'⟩ := takes_known lastZoneless inBack (step _ rfl) monthAfter weekdayAfter
    rw [bind_some, taken']
    refine ⟨says_split accepted known known' rfl rfl rfl rfl, .inl ⟨reads.mp is, ?_⟩⟩
    rw [known'.zone, offset]
    rfl
  | @other mins misread differs day =>
    obtain ⟨st', taken', known'⟩ := takes_known lastZoneless inBack (step _ rfl) monthAfter weekdayAfter
    rw [bind_some, taken']
    refine ⟨says_split accepted known known' rfl rfl rfl rfl, .inr ⟨fun is => misread (reads.mpr is), ?_⟩⟩
    rw [known'.zone, offset]
    exact ⟨differs, day⟩
  | weekday misread first differs day =>
    rw [bind_some]
    by_cases again : after.filterMap Item.weekdayOf = []
    · obtain ⟨st', taken', known'⟩ := takes_known lastZoneless inBack (step _ rfl) monthAfter (by rw [again]; exact Nat.le_refl 1)
      rw [taken']
      refine ⟨says_split accepted known known' rfl rfl rfl rfl, .inr ⟨fun is => misread (reads.mpr is), ?_⟩⟩
      rw [known'.zone, offset, show ({ st with weekday := true } : St).zone = none from free, back]
      simp only [List.head?_nil, none_or, getD_none]
      omega
    · rw [takes_weekday inBack (show ({ st with weekday := true } : St).zone = none from free) back rfl again]
      exact fun is => misread (reads.mpr is)
  | @month k misread first =>
    have again : after.filterMap Item.monthOf ≠ [] := by
      intro none
      rw [known.month, none_or, List.head?_eq_none_iff] at first
      rw [first, none] at monthCount
      cases monthCount
    rw [bind_some,
      takes_month inBack (show ({ st with month := some k } : St).zone = none from free) back (some_ne_none _) again]
    exact fun is => misread (reads.mpr is)

theorem takes_accepted (accepted : Accepted items) : Comes items (takes false {} items) := by
  by_cases zoned : ∃ i, .zone i ∈ items
  · obtain ⟨i, member⟩ := zoned
    obtain ⟨before, after, rfl⟩ := List.append_of_mem member
    exact takes_zone accepted
  · have zoneless : ∀ i, .zone i ∉ items := fun i member => zoned ⟨i, member⟩
    obtain ⟨m, month⟩ := accepted.month
    obtain ⟨st, taken, known⟩ := takes_known zoneless accepted.inRange (accepted_room accepted)
      (show Once Item.monthOf none items by simp [Once, month])
      (show (if false = true then 1 else 0) + (items.filterMap Item.weekdayOf).length ≤ 1 by simpa using accepted.weekday)
    rw [taken]
    refine ⟨says_of_heads accepted known.year known.month known.day known.time, .inl ⟨zonesRead_zoneless zoneless _ _, ?_⟩⟩
    rw [known.zone, offsetOf]
    cases items.filterMap Item.offsetOf <;> rfl

theorem nscStrntimet_iff {text : List UInt8} (erange : Bool) (accepted : Accepted items) (spelled : Spelled items text)
    (valid : (dateOf items).Valid) :
    nscStrntimet erange text = some (meaning items) ↔
      erange = false ∧ ¬Late (dateOf items) ∧ ZonesRead false false items := by
  rw [nscStrntimet_eq, result_items spelled accepted.inRange ((accepted_room accepted).fits accepted.inRange)
    (fun signed => absurd signed (by decide))]
  cases erange with
  | true =>
    rw [takes_erange accepted]
    exact ⟨nofun, nofun⟩
  | false =>
    have comes := takes_accepted accepted
    cases made : takes false {} items with
    | none =>
      rw [made] at comes
      exact ⟨nofun, fun both => absurd both.2.2 comes⟩
    | some st =>
      rw [made] at comes
      obtain ⟨said, zone⟩ := comes
      rw [bind_some, value_known valid (accepted_time accepted) said.year said.month said.day said.time,
        some_inj, meaning]
      simp only [seconds, true_and]
      rcases zone with ⟨reads, same⟩ | ⟨misread, differs, day⟩
      · rw [same]
        by_cases late : Late (dateOf items)
        · rw [if_pos late]
          exact ⟨fun is => by omega, fun both => absurd late both.1⟩
        · rw [if_neg late, Int.add_zero]
          exact ⟨fun _ => ⟨late, reads⟩, fun _ => rfl⟩
      · refine ⟨fun is => ?_, fun both => absurd both.2 misread⟩
        split at is
        · omega
        · omega

end Besra.DateExact
