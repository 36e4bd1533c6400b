import Besra.DateParse

/-!
The loop of the date parser over the components of a string: `result_items` says what it
comes to from what it makes of each of them.
-/
namespace Besra.DateRun
open Lwc NsurlParse CText Calendar Time DateLayout DateParse Option

/-- What `time__get_date` does after its loop. -/
def finish (parsed : Flags × Ctx) : Option Int :=
  let flags := { parsed.1.haveTime with timezone := true }
  let ctx := parsed.2
  if ¬flags.haveAll then none
  else if 60 < ctx.secs ∨ 59 < ctx.mins ∨ 23 < ctx.hours ∨ 31 < ctx.day ∨ 11 < ctx.month then none
  else some (ctxToTimeT ctx)

/-- What is parsed from the rest of a string. -/
def result (erange : Bool) (str : List UInt8) (st : St) (prev : UInt8) : Option Int :=
  (parseLoop erange str.length str st.flags (st.ctx prev)).bind finish

/-- What is parsed where nothing more comes. -/
def value (st : St) : Option Int := finish (st.flags, st.ctx 0)

theorem nscStrntimet_eq (erange : Bool) (str : List UInt8) : nscStrntimet erange str = result erange str {} 0 := by
  have start : result erange str {} 0 = (parseLoop erange str.length str {} {}).bind finish := rfl
  rw [nscStrntimet, getDate, start]
  cases parseLoop erange str.length str {} {} <;> rfl

variable {erange : Bool} {st st' : St} {prev : UInt8}

theorem parseComponent_pos {c : UInt8} {rest : List UInt8} {flags flags' : Flags} {ctx ctx' : Ctx} {len : Nat}
    (parsed : parseComponent erange c rest flags ctx = some (len, flags', ctx')) : 0 < len := by
  have more : ∀ (n : Nat) {x : Option (Flags × Ctx)}, x.map (fun parsed => (1 + n, parsed)) = some (len, flags', ctx') →
      0 < len := by
    intro n x same
    obtain ⟨y, -, same⟩ := map_eq_some_iff.mp same
    have count := (Prod.mk.inj same).1
    omega
  unfold parseComponent at parsed
  split at parsed
  · dsimp only at parsed
    split at parsed
    · have count := (Prod.mk.inj (some_inj.mp parsed)).1
      omega
    · split at parsed
      · have count := (Prod.mk.inj (some_inj.mp parsed)).1
        omega
      · exact more _ parsed
  · split at parsed
    · dsimp only at parsed
      split at parsed
      next time =>
        unfold parseHhMmSs at time
        rw [parsed] at time
        split at time
        · cases time
        next free =>
          have two : 1 + countDigit rest = 2 := by
            by_contra other
            exact free (.inl other)
          simp only [two] at time
          split at time
          · split at time
            · have count := (Prod.mk.inj (some_inj.mp time)).1
              omega
            · cases time
          · split at time
            · split at time
              · have count := (Prod.mk.inj (some_inj.mp time)).1
                omega
              · cases time
            · cases time
      · exact more _ parsed
    · have count := (Prod.mk.inj (some_inj.mp parsed)).1
      omega

theorem parseLoop_fuel :
    ∀ (fuel : Nat) (str : List UInt8) (flags : Flags) (ctx : Ctx), str.length ≤ fuel →
      parseLoop erange fuel str flags ctx = parseLoop erange str.length str flags ctx := by
  intro fuel
  induction fuel using Nat.strong_induction_on with
  | _ fuel ih =>
    intro str flags ctx enough
    cases str with
    | nil => cases fuel <;> rfl
    | cons c rest =>
      obtain ⟨fuel, rfl⟩ : ∃ n, fuel = n + 1 := ⟨fuel - 1, by rw [List.length_cons] at enough; omega⟩
      rw [List.length_cons] at enough ⊢
      unfold parseLoop
      split
      · rfl
      · split
        next len flags' ctx' parsed =>
          have pos := parseComponent_pos parsed
          have short : ((c :: rest).drop len).length ≤ rest.length := by
            rw [List.length_drop, List.length_cons]
            omega
          rw [ih fuel (Nat.lt_succ_self _) _ _ _ (by omega), ih rest.length (by omega) _ _ _ short]
        · rfl

theorem result_complete (complete : st.flags.haveAll = true) (str : List UInt8) : result erange str st prev = value st := by
  cases str with
  | nil => rfl
  | cons c rest =>
    simp only [result, List.length_cons, parseLoop, complete, if_true]
    rfl

theorem result_some {c : UInt8} {rest after : List UInt8} (room : st.flags.haveAll = false) {len : Nat}
    (parsed : parseComponent erange c rest st.flags (st.ctx prev) = some (len, st'.flags, st'.ctx prev))
    (left : (c :: rest).drop len = after) : result erange (c :: rest) st prev = result erange after st' c := by
  have pos := parseComponent_pos parsed
  have short : after.length ≤ rest.length := by
    rw [← left, List.length_drop, List.length_cons]
    omega
  simp only [result, List.length_cons, parseLoop, room, Bool.false_eq_true, if_false, parsed, left]
  rw [parseLoop_fuel _ _ _ _ short]
  rfl

theorem result_none {c : UInt8} {rest : List UInt8} (room : st.flags.haveAll = false)
    (failed : parseComponent erange c rest st.flags (st.ctx prev) = none) : result erange (c :: rest) st prev = none := by
  simp only [result, List.length_cons, parseLoop, room, Bool.false_eq_true, if_false, failed]
  rfl

theorem result_separator {c : UInt8} (separator : Separator c) (room : st.flags.haveAll = false) (rest : List UInt8) :
    result erange (c :: rest) st prev = result erange rest st c := by
  refine @result_some erange st st prev c rest rest room 1 ?_ rfl
  unfold parseComponent
  rw [if_neg (by rw [separator.1]; exact Bool.false_ne_true), if_neg (by rw [separator.2.1]; exact Bool.false_ne_true)]

theorem result_gap {gap : List UInt8} (separators : ∀ c ∈ gap, Separator c) (room : st.flags.haveAll = false)
    (rest : List UInt8) : result erange (gap ++ rest) st prev = result erange rest st (gap.getLast?.getD prev) := by
  induction gap generalizing prev with
  | nil => rfl
  | cons c gap ih =>
    rw [List.cons_append, result_separator (separators c List.mem_cons_self) room,
      ih (fun d member => separators d (List.mem_cons_of_mem _ member)), List.getLast?_cons, getD_some]

/-- A string goes on after a component as it does from what is made of it, or fails where nothing is. -/
def Goes (erange : Bool) (word rest : List UInt8) (st : St) (prev : UInt8) : Option St → Prop
  | none => result erange (word ++ rest) st prev = none
  | some st' => ∃ prev', result erange (word ++ rest) st prev = result erange rest st' prev'

variable {word rest : List UInt8}

theorem goes_name {name : List UInt8} (letters : ∀ c ∈ name, isAlpha c = true) (some : name ≠ [])
    (written : insensitive word = insensitive name) (stops : Stops rest) (room : st.flags.haveAll = false) :
    Goes erange word rest st prev (named st (insensitive name)) := by
  have all : ∀ b ∈ word, isAlpha b = true := by
    intro b member
    have lower : dolower b ∈ insensitive name := written ▸ List.mem_map_of_mem member
    obtain ⟨a, from_, same⟩ := List.mem_map.mp lower
    rw [← isAlpha_dolower, ← same, isAlpha_dolower]
    exact letters a from_
  cases word with
  | nil =>
    have empty : name.map dolower = [] := written.symm
    exact absurd (List.map_eq_nil_iff.mp empty) some
  | cons c word =>
    have parsed := @parseComponent_name erange st prev _ _ _ all stops.ends
    rw [written] at parsed
    cases made : named st (insensitive name) with
    | none =>
      rw [made, map_none] at parsed
      exact result_none room parsed
    | some st' =>
      rw [made, map_some] at parsed
      exact ⟨c, result_some room parsed (show ((c :: word) ++ rest).drop _ = rest from List.drop_left)⟩

theorem goes_number {n length : Nat} (digits : Digits n length word) (small : n < 2 ^ 31) (pos : 0 < length)
    (stops : Stops rest) (room : st.flags.haveAll = false)
    (parsed : parseNumber false word length st.flags (st.ctx prev) = some (st'.flags, st'.ctx prev)) :
    Goes erange word rest st prev (if erange then none else some st') := by
  cases word with
  | nil => exact absurd digits.1 (Nat.ne_of_lt pos)
  | cons c word =>
    have component := @parseComponent_number erange _ _ _ _ _ digits small stops st.flags (st.ctx prev)
    cases erange with
    | true => exact result_none room component
    | false =>
      rw [parsed] at component
      exact ⟨c, result_some room component (show ((c :: word) ++ rest).drop _ = rest by rw [← digits.1, List.drop_left])⟩

theorem getD_letters {names : List (List UInt8)} (letters : ∀ name ∈ names, ∀ c ∈ name, isAlpha c = true)
    (some : [] ∉ names) {i : Nat} (low : i < names.length) :
    (∀ c ∈ names.getD i [], isAlpha c = true) ∧ names.getD i [] ≠ [] := by
  rw [List.getD_eq_getElem _ _ low]
  have member := List.getElem_mem low
  exact ⟨letters _ member, fun empty => some (empty ▸ member)⟩

theorem parseNumber_short {n length : Nat} (digits : Digits n length word) (small : n < 2 ^ 31)
    (short : length = 1 ∨ length = 2) (flags : Flags) (ctx : Ctx) :
    parseNumber false word length flags ctx =
      if ¬flags.days ∧ 0 < n ∧ n ≤ 31 then some ({ flags with days := true }, { ctx with day := n - 1 })
      else if ¬flags.years then
        some ({ flags with years := true }, { ctx with years := if 70 < n then n + 1900 else n + 2000 })
      else none := by
  simp only [parseNumber, asciiStringToInt_alone digits small, ne_eq, not_true_eq_false, if_false]
  rcases short with rfl | rfl <;> rfl

theorem goes_day {d : Nat} (inRange : (Item.day d).InRange) (written : (Item.day d).Written word) (stops : Stops rest)
    (free : st.day = none) (room : st.flags.haveAll = false) : Goes erange word rest st prev (take erange st (.day d)) := by
  obtain ⟨low, high⟩ := inRange
  have made : ∀ {length}, Digits d length word → length = 1 ∨ length = 2 →
      Goes erange word rest st prev (take erange st (.day d)) := by
    intro length digits short
    refine goes_number digits (by omega) (by omega) stops room ?_
    rw [parseNumber_short digits (by omega) short, if_pos ⟨by simp [St.flags, free], low, high⟩]
    rfl
  rcases written with one | two
  · exact made one (.inl rfl)
  · exact made two (.inr rfl)

theorem goes_shortYear {y : Nat} (inRange : (Item.shortYear y).InRange) (written : (Item.shortYear y).Written word)
    (stops : Stops rest) (opened : Open st (.shortYear y)) (room : st.flags.haveAll = false) :
    Goes erange word rest st prev (take erange st (.shortYear y)) := by
  obtain ⟨free, day⟩ := opened
  have low : y < 100 := inRange
  have made : ∀ {length}, Digits y length word → length = 1 ∨ length = 2 →
      Goes erange word rest st prev (take erange st (.shortYear y)) := by
    intro length digits short
    refine goes_number digits (by omega) (by omega) stops room ?_
    have other : ¬ (¬st.flags.days ∧ 0 < y ∧ y ≤ 31) := by
      rintro ⟨none, pos, most⟩
      rcases day with some | rfl | high
      · exact none (isSome_iff_ne_none.mpr some)
      · exact absurd pos (Nat.lt_irrefl 0)
      · omega
    rw [parseNumber_short digits (by omega) short, if_neg other, if_pos (by simp [St.flags, free])]
    simp only [St.flags, St.ctx, Item.yearOf, Nat.add_comm y]
    rfl
  rcases written with one | two
  · exact made one (.inl rfl)
  · exact made two (.inr rfl)

theorem goes_longYear {y : Nat} (inRange : (Item.longYear y).InRange) (written : (Item.longYear y).Written word)
    (stops : Stops rest) (free : st.year = none) (sign : isSign prev = true → 1400 < y) (room : st.flags.haveAll = false) :
    Goes erange word rest st prev (take erange st (.longYear y)) := by
  have low : y < 10000 := inRange
  refine goes_number written (by omega) (by decide) stops room ?_
  have other : ¬ (¬st.flags.timezone ∧ isSign (st.ctx prev).prev ∧ y ≤ 1400) := by
    rintro ⟨-, signed, most⟩
    have more := sign signed
    omega
  simp only [parseNumber, asciiStringToInt_alone written (show y < 2 ^ 31 by omega), ne_eq, not_true_eq_false, if_false]
  rw [if_neg (by decide), if_pos trivial, if_neg other, if_pos (by simp [St.flags, free])]
  rfl

theorem goes_date {y m d : Nat} (inRange : (Item.date y m d).InRange) (written : (Item.date y m d).Written word)
    (stops : Stops rest) (free : st.year = none ∧ st.day = none) (room : st.flags.haveAll = false) :
    Goes erange word rest st prev (take erange st (.date y m d)) := by
  obtain ⟨year, ⟨lowMonth, month⟩, lowDay, day⟩ := inRange
  have small : y * 10000 + m * 100 + d < 2 ^ 31 := by omega
  have alone := asciiStringToInt_alone written small
  have number : parseNumber false word 8 st.flags (st.ctx prev) =
      if st.month.isSome then none
      else some ({ st.flags with years := true, months := true, days := true },
        { st.ctx prev with years := y, month := m - 1, day := d - 1 }) := by
    simp only [parseNumber, alone, ne_eq, not_true_eq_false, if_false, if_true, St.flags, free, isSome_none,
      Bool.false_eq_true, false_or, or_false]
    rw [show (y * 10000 + m * 100 + d) / 10000 = y by omega,
      show ((y * 10000 + m * 100 + d) % 10000 / 100 + 255) % 256 = m - 1 by omega,
      show ((y * 10000 + m * 100 + d) % 100 + 255) % 256 = d - 1 by omega]
  cases known : st.month with
  | none =>
    rw [known] at number
    have made := @goes_number erange st
      { st with year := some y, month := some (m - 1), day := some (d - 1) } prev _ _ _ _ written small (by decide) stops room
      (number.trans rfl)
    unfold take
    rw [known]
    cases erange with
    | true => exact made
    | false => exact made
  | some other =>
    rw [known] at number
    have made : take erange st (.date y m d) = none := if_pos (.inr (by rw [known]; rfl))
    rw [made]
    cases word with
    | nil => exact absurd written.1 (by decide)
    | cons c word =>
      refine result_none room ((parseComponent_number written small stops _ _).trans ?_)
      rw [number]
      cases erange <;> rfl

theorem goes_offset {east : Bool} {v : Nat} (inRange : (Item.offset east v).InRange)
    (written : (Item.offset east v).Written word) (stops : Stops rest) (free : st.zone = none)
    (room : st.flags.haveAll = false) : Goes erange word rest st prev (take erange st (.offset east v)) := by
  have low : v ≤ 1400 := inRange
  obtain ⟨digits, spelled, rfl⟩ := written
  have sign : isSign (if east then ch '+' else ch '-') = true := by cases east <;> decide
  have number : parseNumber false digits 4 st.flags (st.ctx (if east then ch '+' else ch '-')) =
      some (St.flags { st with zone := (Item.offset east v).offsetOf },
        St.ctx { st with zone := (Item.offset east v).offsetOf } (if east then ch '+' else ch '-')) := by
    simp only [parseNumber, asciiStringToInt_alone spelled (show v < 2 ^ 31 by omega), ne_eq, not_true_eq_false, if_false]
    rw [if_neg (by decide), if_pos trivial, if_pos ⟨by simp [St.flags, free], sign, low⟩]
    cases east with
    | true =>
      simp only [St.ctx, St.flags, Item.offsetOf, if_true, getD_some]
      simp
    | false =>
      have minus : ch '-' ≠ ch '+' := by decide
      simp only [St.ctx, St.flags, Item.offsetOf, Bool.false_eq_true, if_false, getD_some, minus]
      simp
  have made := @goes_number erange _ _ _ _ _ _ _ spelled (by omega) (by decide) stops room number
  have skip := @result_separator erange _ prev _ (isSign_separator sign) room (digits ++ rest)
  unfold take
  cases erange with
  | true => exact skip.trans made
  | false =>
    obtain ⟨prev', same⟩ := made
    exact ⟨prev', skip.trans same⟩

theorem goes_item {it : Item} (inRange : it.InRange) (written : it.Written word) (stops : Stops rest) (opened : Open st it)
    (sign : ∀ y, it = .longYear y → isSign prev = true → 1400 < y) (room : st.flags.haveAll = false) :
    Goes erange word rest st prev (take erange st it) := by
  cases it with
  | weekday i long =>
    have names := getD_letters (weekdays_letters !long) (by cases long <;> decide)
      (show i < (if (!long) = true then weekdaysShort else weekdaysLong).length by cases long <;> exact inRange)
    have same : (if (!long) = true then weekdaysShort else weekdaysLong).getD i [] = weekdayName i long := by
      cases long <;> rfl
    rw [same] at names
    exact goes_name names.1 names.2 written stops room
  | month i =>
    have names := getD_letters months_letters (by decide) (show i < months.length from inRange)
    exact goes_name names.1 names.2 written stops room
  | zone i =>
    have names := getD_letters timezones_letters (by decide +kernel)
      (show i < (timezones.map (·.1)).length by rw [List.length_map]; exact inRange)
    have same : (timezones.map (·.1)).getD i [] = zoneName i := by
      rw [zoneName, List.getD_eq_getElem?_getD, List.getD_eq_getElem?_getD, List.getElem?_map]
      cases timezones[i]? <;> rfl
    rw [same] at names
    exact goes_name names.1 names.2 written stops room
  | day d => exact goes_day inRange written stops opened room
  | shortYear y => exact goes_shortYear inRange written stops opened room
  | longYear y => exact goes_longYear inRange written stops opened (sign y rfl) room
  | date y m d => exact goes_date inRange written stops opened room
  | offset east v => exact goes_offset inRange written stops opened room
  | time h m s =>
    cases word with
    | nil =>
      cases s with
      | none =>
        obtain ⟨hh, mm, -, -, same⟩ := written
        exact absurd same (by simp)
      | some s =>
        obtain ⟨hh, mm, ss, -, -, -, same⟩ := written
        exact absurd same (by simp)
    | cons c word =>
      have parsed := @parseComponent_time erange _ prev _ _ _ _ _ _ written stops opened
      exact ⟨c, result_some room parsed (show ((c :: word) ++ rest).drop _ = rest from List.drop_left)⟩

def takes (erange : Bool) : St → List Item → Option St
  | st, [] => some st
  | st, it :: items =>
    if st.flags.haveAll then some st
    else match take erange st it with
      | none => none
      | some st' => takes erange st' items

/-- Each component may come when it does. -/
def Fits (erange : Bool) : St → List Item → Prop
  | _, [] => True
  | st, it :: items => Open st it ∧ ∀ st', take erange st it = some st' → Fits erange st' items

theorem written_longYear {y : Nat} (written : (Item.longYear y).Written word) : ∃ c ∈ word.head?, ¬Separator c := by
  obtain ⟨count, all, -⟩ := written
  cases word with
  | nil => exact absurd count (by decide)
  | cons c word => exact ⟨c, rfl, fun separator => absurd (all c List.mem_cons_self) (by rw [separator.2.1]; decide)⟩

theorem result_items {items : List Item} {text : List UInt8} (spelled : Spelled items text)
    (inRange : ∀ it ∈ items, it.InRange) :
    ∀ {st : St} {prev : UInt8}, Fits erange st items → (isSign prev = true → Stops text) →
      result erange text st prev = (takes erange st items).bind value := by
  induction spelled with
  | @done gap separators =>
    intro st prev _ _
    by_cases room : st.flags.haveAll = true
    · exact result_complete room gap
    · have all := @result_gap erange _ prev _ separators (Bool.eq_false_iff.mpr room) []
      rw [List.append_nil] at all
      exact all
  | @item it items gap word rest separators written follows next spelled ih =>
    intro st prev fits start
    by_cases room : st.flags.haveAll = true
    · rw [takes, if_pos room]
      exact result_complete room _
    · have free := Bool.eq_false_iff.mpr room
      rw [takes, if_neg room, result_gap separators free]
      have sign : ∀ y, it = .longYear y → isSign (gap.getLast?.getD prev) = true → 1400 < y := by
        rintro y rfl signed
        cases last : gap.getLast? with
        | some c =>
          rw [last] at signed
          exact follows ⟨c, last, signed⟩
        | none =>
          rw [last] at signed
          obtain rfl := List.getLast?_eq_none_iff.mp last
          obtain ⟨c, first, other⟩ := written_longYear written
          refine absurd (start signed c ?_) other
          rw [List.nil_append, List.head?_append, mem_def.mp first]
          rfl
      have goes := @goes_item erange _ _ _ _ _ (inRange it List.mem_cons_self) written next fits.1 sign free
      have later : ∀ st', take erange st it = some st' → Fits erange st' items := fits.2
      cases made : take erange st it with
      | none =>
        rw [made] at goes
        exact goes
      | some st' =>
        rw [made] at goes
        obtain ⟨prev', same⟩ := goes
        rw [same]
        exact ih (fun it member => inRange it (List.mem_cons_of_mem _ member)) (later st' made) (fun _ => next)

end Besra.DateRun
