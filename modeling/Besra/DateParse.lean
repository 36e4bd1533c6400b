import Besra.DateLayout

/-!
How the parser of `utils/time.c` takes a date apart: what it makes of each component as it
stands in a string, given which ones came before.
-/
namespace Besra.DateParse
open Lwc NsurlParse CText Calendar Time DateLayout List

theorem isAlpha_dolower (c : UInt8) : isAlpha (dolower c) = isAlpha c :=
  @forall_byte (fun c => isAlpha (dolower c) = isAlpha c) (by decide +kernel) c

theorem isDigit_not_alpha {c : UInt8} (digit : isDigit c = true) : isAlpha c = false :=
  @forall_byte (fun c => isDigit c = true → isAlpha c = false) (by decide +kernel) c digit

theorem isSign_separator {c : UInt8} (sign : isSign c = true) : Separator c := by
  simp only [isSign, Bool.or_eq_true, decide_eq_true_eq] at sign
  rcases sign with rfl | rfl
  · decide
  · decide

def startOf (names : List (List UInt8)) (word : List UInt8) : Option Nat :=
  names.findIdx? (fun name => word.isPrefixOf (insensitive name))

def Ends (rest : List UInt8) : Prop := ∀ c ∈ rest.head?, isAlpha c = false

theorem countEqualCaseless_ends {rest : List UInt8} (ends : Ends rest) {name : List UInt8}
    (letters : ∀ c ∈ name, isAlpha c = true) : countEqualCaseless name rest = 0 := by
  cases name with
  | nil => rfl
  | cons n name =>
    cases rest with
    | nil => rfl
    | cons r rest =>
      refine if_neg (fun same => ?_)
      have letter := letters n mem_cons_self
      rw [← isAlpha_dolower, same, isAlpha_dolower, ends r rfl] at letter
      cases letter

theorem countEqualCaseless_word {rest : List UInt8} (ends : Ends rest) {name : List UInt8}
    (letters : ∀ c ∈ name, isAlpha c = true) {word : List UInt8} :
    countEqualCaseless name (word ++ rest) = word.length ↔ insensitive word <+: insensitive name := by
  induction word generalizing name with
  | nil =>
    rw [nil_append, countEqualCaseless_ends ends letters]
    exact ⟨fun _ => nil_prefix, fun _ => rfl⟩
  | cons b word ih =>
    cases name with
    | nil => exact ⟨nofun, fun start => nomatch prefix_nil.mp start⟩
    | cons a name =>
      have rest' := ih (fun c member => letters c (mem_cons_of_mem _ member))
      show (if dolower a = dolower b then countEqualCaseless name (word ++ rest) + 1 else 0) = word.length + 1 ↔
        dolower b :: insensitive word <+: dolower a :: insensitive name
      rw [cons_prefix_cons, ← rest']
      split
      next same => exact ⟨fun count => ⟨same.symm, Nat.succ.inj count⟩, fun both => congrArg (· + 1) both.2⟩
      next other => exact ⟨nofun, fun both => absurd both.1.symm other⟩

theorem findName_word {names : List (List UInt8)} (letters : ∀ name ∈ names, ∀ c ∈ name, isAlpha c = true)
    {word rest : List UInt8} (ends : Ends rest) :
    findName names (word ++ rest) word.length = startOf names (insensitive word) := by
  unfold findName startOf
  induction names with
  | nil => rfl
  | cons name names ih =>
    rw [List.findIdx?_cons, List.findIdx?_cons, ih (fun n member => letters n (mem_cons_of_mem _ member))]
    have here := @countEqualCaseless_word rest ends name (letters name mem_cons_self) word
    have same : decide (countEqualCaseless name (word ++ rest) = word.length) =
        (insensitive word).isPrefixOf (insensitive name) := by
      rw [Bool.eq_iff_iff, decide_eq_true_iff, here, isPrefixOf_iff_prefix]
    rw [same]

def Lettered (names : List (List UInt8)) : Bool := names.all (fun name => name.all isAlpha)

theorem Lettered.letters {names : List (List UInt8)} (lettered : Lettered names = true) :
    ∀ name ∈ names, ∀ c ∈ name, isAlpha c = true := by
  intro name listed
  exact all_eq_true.mp (all_eq_true.mp lettered name listed)

theorem weekdays_letters (short : Bool) :
    ∀ name ∈ (if short then weekdaysShort else weekdaysLong), ∀ c ∈ name, isAlpha c = true := by
  apply Lettered.letters
  cases short
  · rfl
  · rfl

theorem months_letters : ∀ name ∈ months, ∀ c ∈ name, isAlpha c = true := Lettered.letters rfl

theorem timezones_letters : ∀ name ∈ timezones.map (·.1), ∀ c ∈ name, isAlpha c = true := Lettered.letters rfl

structure St where
  year : Option Nat := none
  month : Option Nat := none
  day : Option Nat := none
  time : Option (Nat × Nat × Nat) := none
  zone : Option Int := none
  weekday : Bool := false
deriving DecidableEq

def St.flags (st : St) : Flags where
  years := st.year.isSome
  months := st.month.isSome
  days := st.day.isSome
  hours := st.time.isSome
  mins := st.time.isSome
  secs := st.time.isSome
  timezone := st.zone.isSome
  weekday := st.weekday

def St.ctx (st : St) (prev : UInt8) : Ctx where
  prev := prev
  secs := (st.time.getD (0, 0, 0)).2.2
  mins := (st.time.getD (0, 0, 0)).2.1
  hours := (st.time.getD (0, 0, 0)).1
  day := st.day.getD 0
  month := st.month.getD 0
  years := st.year.getD 0
  timezoneOffsetMins := st.zone.getD 0

/-- What the parser takes a name for: for the start of the name of a weekday, of a month, or of a zone, each only once. -/
def named (st : St) (word : List UInt8) : Option St :=
  if st.weekday = false ∧ (startOf (if word.length = 3 then weekdaysShort else weekdaysLong) word).isSome then
    some { st with weekday := true }
  else match (if st.month.isSome then none else startOf months word) with
    | some i => some { st with month := some i }
    | none =>
      match (if st.zone.isSome then none else startOf (timezones.map (·.1)) word) with
      | some i => some { st with zone := some (zoneMins i) }
      | none => none

/-- What the parser makes of a component, which is none where it gives up. -/
def take (erange : Bool) (st : St) : Item → Option St
  | .weekday i long => named st (insensitive (weekdayName i long))
  | .month i => named st (insensitive (months.getD i []))
  | .zone i => named st (insensitive (zoneName i))
  | .time h m s => some { st with time := some (h, m, s.getD 0) }
  | .day d => if erange then none else some { st with day := some (d - 1) }
  | .shortYear y => if erange then none else some { st with year := (Item.shortYear y).yearOf }
  | .longYear y => if erange then none else some { st with year := some y }
  | .date y m d =>
    if erange ∨ st.month.isSome then none
    else some { st with year := some y, month := some (m - 1), day := some (d - 1) }
  | .offset east v => if erange then none else some { st with zone := (Item.offset east v).offsetOf }

def Open (st : St) : Item → Prop
  | .day _ => st.day = none
  | .shortYear y => st.year = none ∧ (st.day ≠ none ∨ y = 0 ∨ 31 < y)
  | .longYear _ => st.year = none
  | .date .. => st.year = none ∧ st.day = none
  | .time .. => st.time = none
  | .offset .. => st.zone = none
  | _ => True

variable {erange : Bool} {st : St} {prev : UInt8}

theorem takeWhile_word {p : UInt8 → Bool} {word rest : List UInt8} (all : ∀ c ∈ word, p c = true)
    (stops : ∀ c ∈ rest.head?, p c = false) : (word ++ rest).takeWhile p = word := by
  rw [takeWhile_append_of_pos all]
  cases rest with
  | nil => rw [takeWhile_nil, append_nil]
  | cons c rest => rw [takeWhile_cons_of_neg (by rw [stops c rfl]; exact Bool.false_ne_true), append_nil]

theorem parseComponent_name {c : UInt8} {word rest : List UInt8} (letters : ∀ b ∈ c :: word, isAlpha b = true)
    (ends : Ends rest) :
    parseComponent erange c (word ++ rest) st.flags (st.ctx prev) =
      (named st (insensitive (c :: word))).map (fun st' => ((c :: word).length, st'.flags, st'.ctx prev)) := by
  have length : 1 + countAlpha (word ++ rest) = (c :: word).length := by
    rw [countAlpha, takeWhile_word (fun b member => letters b (mem_cons_of_mem _ member)) ends]
    exact Nat.add_comm ..
  have weekday := @findName_word _ (weekdays_letters (decide ((c :: word).length = 3))) (c :: word) rest ends
  have month := @findName_word _ months_letters (c :: word) rest ends
  have zone := @findName_word _ timezones_letters (c :: word) rest ends
  have lowered : (insensitive (c :: word)).length = (c :: word).length := length_map ..
  simp only [decide_eq_true_eq] at weekday
  unfold parseComponent
  rw [if_pos (letters c mem_cons_self), length]
  simp only [← cons_append, parseWeekday, parseMonth, parseTimezone, weekday, month, zone, named, lowered]
  rcases st with ⟨year, month', day, time, zone', weekday'⟩
  generalize startOf (if (c :: word).length = 3 then weekdaysShort else weekdaysLong) (insensitive (c :: word)) = w
  generalize startOf months (insensitive (c :: word)) = m
  generalize startOf (timezones.map (·.1)) (insensitive (c :: word)) = z
  cases weekday' <;> cases w <;> cases month' <;> cases m <;> cases zone' <;> cases z <;> rfl

def Stops (rest : List UInt8) : Prop := ∀ c ∈ rest.head?, Separator c

theorem Stops.ends {rest : List UInt8} (stops : Stops rest) : Ends rest := fun c first => (stops c first).1

theorem Stops.digits {rest : List UInt8} (stops : Stops rest) : ∀ c ∈ rest.head?, isDigit c = false :=
  fun c first => (stops c first).2.1

theorem Stops.time {rest : List UInt8} (stops : Stops rest) : countDigitOrColon rest = 0 := by
  cases rest with
  | nil => rfl
  | cons c rest =>
    obtain ⟨-, digit, colon⟩ := stops c rfl
    simp only [countDigitOrColon, takeWhile_cons, digit, colon, decide_false, Bool.or_self, Bool.false_eq_true, if_false,
      length_nil]

variable {n length : Nat} {word rest : List UInt8}

theorem parseNumber_digits (digits : Digits n length word) (small : n < 2 ^ 31) (pos : 0 < length) (stops : Stops rest)
    (flags : Flags) (ctx : Ctx) :
    parseNumber erange (word ++ rest) length flags ctx =
      if erange then none else parseNumber false word length flags ctx := by
  obtain ⟨count, all, value⟩ := digits
  have whole : (word ++ rest).takeWhile isDigit = word := takeWhile_word all stops.digits
  have own : word.takeWhile isDigit = word := by
    have nothing := @takeWhile_word isDigit word [] all (fun _ none => nomatch none)
    rwa [append_nil] at nothing
  have fits : ¬ 2 ^ 31 - 1 < n := by omega
  cases erange with
  | true =>
    simp only [parseNumber, asciiStringToInt, true_or, if_true]
    exact if_pos (Nat.pos_iff_ne_zero.mp pos)
  | false => simp only [parseNumber, asciiStringToInt, whole, own, Bool.false_eq_true, false_or, value, if_neg fits, if_false]

theorem parseHhMmSs_number (digits : Digits n length word) (stops : Stops rest) (flags : Flags) (ctx : Ctx) :
    parseHhMmSs (word ++ rest) length flags ctx = none := by
  unfold parseHhMmSs
  split
  · rfl
  next two =>
    obtain rfl : length = 2 := by
      by_contra other
      exact two (.inl other)
    have after : (word ++ rest).drop 2 = rest := by rw [← digits.1, drop_left]
    simp only [after, stops.time]
    rfl

theorem parseComponent_number {c : UInt8} (digits : Digits n length (c :: word)) (small : n < 2 ^ 31) (stops : Stops rest)
    (flags : Flags) (ctx : Ctx) :
    parseComponent erange c (word ++ rest) flags ctx =
      if erange then none else (parseNumber false (c :: word) length flags ctx).map (fun parsed => (length, parsed)) := by
  have digit := digits.2.1 c mem_cons_self
  have count : 1 + countDigit (word ++ rest) = length := by
    rw [countDigit, takeWhile_word (fun b member => digits.2.1 b (mem_cons_of_mem _ member)) stops.digits, ← digits.1]
    exact Nat.add_comm ..
  have pos : 0 < length := digits.1 ▸ Nat.succ_pos _
  unfold parseComponent
  rw [if_neg (by rw [isDigit_not_alpha digit]; exact Bool.false_ne_true), if_pos digit, count]
  simp only [← cons_append, parseHhMmSs_number digits stops, parseNumber_digits digits small pos stops]
  cases erange <;> rfl

theorem asciiStringToInt_alone (digits : Digits n length word) (small : n < 2 ^ 31) :
    asciiStringToInt false word = (length, n) := by
  obtain ⟨count, all, value⟩ := digits
  have own : word.takeWhile isDigit = word := by
    have nothing := @takeWhile_word isDigit word [] all (fun _ none => nomatch none)
    rwa [append_nil] at nothing
  have fits : ¬ 2 ^ 31 - 1 < n := by omega
  simp only [asciiStringToInt, own, value, count, Bool.false_eq_true, false_or, if_neg fits]

theorem digits_two (digits : Digits n 2 word) :
    ∃ a b, word = [a, b] ∧ isDigit a = true ∧ isDigit b = true ∧ decimalValue [a, b] = n := by
  obtain ⟨count, all, value⟩ := digits
  match word, count with
  | [a, b], _ => exact ⟨a, b, rfl, all a (by simp), all b (by simp), value⟩

theorem isDigit_colon : isDigit (ch ':') = false := by decide

theorem scanNumber_two {a b : UInt8} (first : isDigit a = true) (second : isDigit b = true) (rest : List UInt8) :
    scanNumber (a :: b :: rest) = some (decimalValue [a, b], rest) := by
  simp only [scanNumber, take_succ_cons, take_zero, takeWhile_cons, first, second, if_true, takeWhile_nil]
  rfl

theorem scanColon_colon (rest : List UInt8) : scanColon (ch ':' :: rest) = some rest := by
  simp only [scanColon, if_true]

theorem countDigitOrColon_cons {c : UInt8} (one : isDigit c = true ∨ c = ch ':') (rest : List UInt8) :
    countDigitOrColon (c :: rest) = countDigitOrColon rest + 1 := by
  have holds : (isDigit c || decide (c = ch ':')) = true := by simpa using one
  simp only [countDigitOrColon, takeWhile_cons, holds, if_true, length_cons]

theorem parseComponent_time {c : UInt8} {h m : Nat} {s : Option Nat} (written : (Item.time h m s).Written (c :: word))
    (stops : Stops rest) (free : st.time = none) :
    parseComponent erange c (word ++ rest) st.flags (st.ctx prev) =
      some ((c :: word).length, St.flags { st with time := some (h, m, s.getD 0) },
        St.ctx { st with time := some (h, m, s.getD 0) } prev) := by
  have taken : st.flags.hours = false ∧ st.flags.mins = false ∧ st.flags.secs = false := by
    simp only [St.flags, free]
    exact ⟨rfl, rfl, rfl⟩
  cases s with
  | none =>
    obtain ⟨hh, mm, hours, mins, same⟩ := written
    obtain ⟨a, b, rfl, first, second, hour⟩ := digits_two hours
    obtain ⟨d, e, rfl, third, fourth, minute⟩ := digits_two mins
    obtain ⟨rfl, rfl⟩ := List.cons.inj same
    have count : 1 + countDigit (b :: ch ':' :: d :: e :: rest) = 2 := by
      simp only [countDigit, takeWhile_cons, second, isDigit_colon, if_true]
      rfl
    have more : countDigitOrColon (ch ':' :: d :: e :: rest) = 3 := by
      simp only [countDigitOrColon_cons (.inr rfl), countDigitOrColon_cons (.inl third),
        countDigitOrColon_cons (.inl fourth), stops.time]
    have scanned : scanHhMm (c :: b :: ch ':' :: d :: e :: rest) = some (h, m) := by
      simp only [scanHhMm, scanNumber_two first second, scanColon_colon, scanNumber_two third fourth, bind, Option.bind,
        hour, minute]
      rfl
    have parsed : parseHhMmSs (c :: b :: ch ':' :: d :: e :: rest) 2 st.flags (st.ctx prev) =
        some (5, st.flags.haveTime, { st.ctx prev with hours := h, mins := m, secs := 0 }) := by
      simp only [parseHhMmSs, taken, drop_succ_cons, drop_zero, more, scanned]
      rfl
    show parseComponent erange c (b :: ch ':' :: d :: e :: rest) st.flags (st.ctx prev) = _
    unfold parseComponent
    rw [if_neg (by rw [isDigit_not_alpha first]; exact Bool.false_ne_true), if_pos first]
    simp only [count, parsed]
    rfl
  | some s =>
    obtain ⟨hh, mm, ss, hours, mins, secs, same⟩ := written
    obtain ⟨a, b, rfl, first, second, hour⟩ := digits_two hours
    obtain ⟨d, e, rfl, third, fourth, minute⟩ := digits_two mins
    obtain ⟨f, g, rfl, fifth, sixth, sec⟩ := digits_two secs
    obtain ⟨rfl, rfl⟩ := List.cons.inj same
    have count : 1 + countDigit (b :: ch ':' :: d :: e :: ch ':' :: f :: g :: rest) = 2 := by
      simp only [countDigit, takeWhile_cons, second, isDigit_colon, if_true]
      rfl
    have more : countDigitOrColon (ch ':' :: d :: e :: ch ':' :: f :: g :: rest) = 6 := by
      simp only [countDigitOrColon_cons (.inr rfl), countDigitOrColon_cons (.inl third), countDigitOrColon_cons (.inl fourth),
        countDigitOrColon_cons (.inl fifth), countDigitOrColon_cons (.inl sixth), stops.time]
    have scanned : scanHhMmSs (c :: b :: ch ':' :: d :: e :: ch ':' :: f :: g :: rest) = some (h, m, s) := by
      simp only [scanHhMmSs, scanNumber_two first second, scanColon_colon, scanNumber_two third fourth,
        scanNumber_two fifth sixth, bind, Option.bind, hour, minute, sec]
      rfl
    have parsed : parseHhMmSs (c :: b :: ch ':' :: d :: e :: ch ':' :: f :: g :: rest) 2 st.flags (st.ctx prev) =
        some (8, st.flags.haveTime, { st.ctx prev with hours := h, mins := m, secs := s }) := by
      simp only [parseHhMmSs, taken, drop_succ_cons, drop_zero, more, scanned]
      rfl
    show parseComponent erange c (b :: ch ':' :: d :: e :: ch ':' :: f :: g :: rest) st.flags (st.ctx prev) = _
    unfold parseComponent
    rw [if_neg (by rw [isDigit_not_alpha first]; exact Bool.false_ne_true), if_pos first]
    simp only [count, parsed]
    rfl

end Besra.DateParse
