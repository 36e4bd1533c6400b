import Besra.DateExact
import Besra.MaxAge

/-!
The dates that `rfc1123_date` writes are in an accepted layout, and mean the time that they
are made from.
-/
namespace Besra.Rfc1123
open Lwc NsurlParse CText Calendar Time DateLayout DateTakes DateExact List

theorem digit_value : ∀ d < 10, (ch '0' + UInt8.ofNat d - ch '0').toNat = d ∧ isDigit (ch '0' + UInt8.ofNat d) = true := by
  decide

theorem decimalValue_digits :
    ∀ {ds : List Nat}, (∀ d ∈ ds, d < 10) →
      decimalValue (ds.reverse.map (fun d => ch '0' + UInt8.ofNat d)) = Nat.ofDigits 10 ds
  | [], _ => rfl
  | d :: ds, digits => by
    have rest := decimalValue_digits (fun e member => digits e (mem_cons_of_mem d member))
    rw [reverse_cons, map_append, map_singleton, MaxAge.decimalValue_snoc, rest,
      (digit_value d (digits d mem_cons_self)).1, Nat.ofDigits_cons]
    exact Nat.add_comm ..

theorem decimal_spec {n : Nat} (some : n ≠ 0) : Digits n (Nat.digits 10 n).length (decimal n) := by
  have digits : ∀ d ∈ Nat.digits 10 n, d < 10 := fun d member => Nat.digits_lt_base (by decide) member
  rw [decimal, if_neg some]
  refine ⟨by rw [length_map, length_reverse], fun c member => ?_, ?_⟩
  · obtain ⟨d, inside, rfl⟩ := mem_map.mp member
    exact (digit_value d (digits d (mem_reverse.mp inside))).2
  · rw [decimalValue_digits digits, Nat.ofDigits_digits]

theorem decimal_digits {n length : Nat} (low : 10 ^ length ≤ n) (high : n < 10 ^ (length + 1)) :
    Digits n (length + 1) (decimal n) := by
  have some : n ≠ 0 := Nat.pos_iff_ne_zero.mp (Nat.lt_of_lt_of_le (Nat.pow_pos (by decide)) low)
  have most := (Nat.digits_length_le_iff (b := 10) (k := length + 1) (by decide) n).mpr high
  have least : ¬ (Nat.digits 10 n).length ≤ length := by
    rw [Nat.digits_length_le_iff (by decide)]
    exact Nat.not_lt.mpr low
  have exact_ : (Nat.digits 10 n).length = length + 1 := by omega
  exact exact_ ▸ decimal_spec some

theorem decimal2_digits {n : Nat} (low : n < 100) : Digits n 2 (decimal2 n) := by
  by_cases two : 10 ≤ n
  · have digits : Digits n 2 (decimal n) := @decimal_digits n 1 two low
    rw [decimal2, if_neg (by rw [digits.1]; decide)]
    exact digits
  · have one : Digits n 1 (decimal n) := by
      by_cases some : n = 0
      · subst some
        have zero : decimal 0 = [ch '0'] := by decide +kernel
        rw [zero]
        exact ⟨rfl, fun c member => mem_singleton.mp member ▸ (digit_value 0 (by decide)).2, by decide +kernel⟩
      · exact @decimal_digits n 0 (Nat.pos_iff_ne_zero.mpr some) (Nat.lt_of_not_le two)
    obtain ⟨length, all, value⟩ := one
    rw [decimal2, if_pos (by rw [length]; decide)]
    refine ⟨by rw [length_cons, length], fun c member => ?_, value⟩
    rcases mem_cons.mp member with rfl | member
    · decide
    · exact all c member

/-- The components of the date that is written. -/
def components (tm : Tm) : List Item :=
  [.weekday tm.wday false, .day tm.mday, .month tm.mon, .longYear (tm.year + 1900), .time tm.hour tm.min (some tm.sec), .zone 0]

theorem daysBeforeYear_mono {a b : Nat} (le : a ≤ b) : daysBeforeYear a ≤ daysBeforeYear b := by
  induction le with
  | refl => exact Nat.le_refl _
  | step le ih => exact Nat.le_trans ih (Nat.le_add_right _ _)

variable {t : Nat}

theorem date_inRange (low : t < 86400 * (daysBeforeYear 10000 - daysBeforeYear 1970)) :
    1970 ≤ (dateFrom 1970 (t / 86400)).year ∧ (dateFrom 1970 (t / 86400)).year < 10000 := by
  obtain ⟨-, number, later⟩ := dateFrom_spec 1970 (t / 86400)
  refine ⟨later, Nat.lt_of_not_le fun high => ?_⟩
  have years := daysBeforeYear_mono high
  unfold Date.number at number
  omega

theorem monthDays_le (year month : Nat) : monthDays year month ≤ 31 := by
  unfold monthDays
  split <;> try split
  all_goals decide

theorem components_accepted (low : t < 86400 * (daysBeforeYear 10000 - daysBeforeYear 1970)) :
    Accepted (components (gmtime t)) := by
  obtain ⟨⟨month, day⟩, -, -⟩ := dateFrom_spec 1970 (t / 86400)
  obtain ⟨later, year⟩ := date_inRange low
  have days := monthDays_le (dateFrom 1970 (t / 86400)).year (dateFrom 1970 (t / 86400)).month
  refine ⟨?_, ⟨_, rfl⟩, ⟨_, rfl⟩, ⟨_, rfl⟩, Nat.le_refl 1, Nat.le_refl 1, Nat.le_refl 1, ?_⟩
  · simp only [components, mem_cons, not_mem_nil, or_false, forall_eq_or_imp, forall_eq, Item.InRange, gmtime,
      Option.getD_some]
    refine ⟨Nat.mod_lt _ (by decide), by omega, month, by omega, by omega, by decide⟩
  · intro before y after same
    have member : Item.shortYear y ∈ components (gmtime t) := same ▸ mem_append_right _ mem_cons_self
    simp [components] at member

theorem components_date (low : t < 86400 * (daysBeforeYear 10000 - daysBeforeYear 1970)) :
    dateOf (components (gmtime t)) = dateFrom 1970 (t / 86400) := by
  have later := (date_inRange low).1
  show (⟨(dateFrom 1970 (t / 86400)).year - 1900 + 1900, (dateFrom 1970 (t / 86400)).month,
    (dateFrom 1970 (t / 86400)).day + 1 - 1⟩ : Date) = dateFrom 1970 (t / 86400)
  rw [Nat.sub_add_cancel (Nat.le_trans (by decide) later), Nat.add_sub_cancel]

theorem components_meaning (low : t < 86400 * (daysBeforeYear 10000 - daysBeforeYear 1970)) :
    meaning (components (gmtime t)) = t := by
  have number := (dateFrom_spec 1970 (t / 86400)).2.1
  have zone : offsetOf (components (gmtime t)) = 0 := by
    show zoneMins 0 = 0
    decide
  have time : timeOf (components (gmtime t)) = (t % 86400 / 3600, t % 3600 / 60, t % 60) := rfl
  rw [meaning, components_date low, zone, time, seconds, number]
  dsimp only
  omega

theorem components_zones (t : Nat) : ZonesRead false false (components (gmtime t)) := by
  have gmt : ReadAs true true 0 := by decide
  simp only [components, ZonesRead]
  simpa [Item.weekdayOf, Item.monthOf] using gmt

theorem rfc1123Date_spelled (low : t < 86400 * (daysBeforeYear 10000 - daysBeforeYear 1970)) :
    Spelled (components (gmtime t)) (rfc1123Date t) := by
  obtain ⟨⟨month, day⟩, -, -⟩ := dateFrom_spec 1970 (t / 86400)
  obtain ⟨later, year⟩ := date_inRange low
  have days := monthDays_le (dateFrom 1970 (t / 86400)).year (dateFrom 1970 (t / 86400)).month
  have mday : Digits (gmtime t).mday 2 (decimal2 (gmtime t).mday) := decimal2_digits (show _ + 1 < 100 by omega)
  have hour : Digits (gmtime t).hour 2 (decimal2 (gmtime t).hour) := decimal2_digits (show t % 86400 / 3600 < 100 by omega)
  have min : Digits (gmtime t).min 2 (decimal2 (gmtime t).min) := decimal2_digits (show t % 3600 / 60 < 100 by omega)
  have sec : Digits (gmtime t).sec 2 (decimal2 (gmtime t).sec) := decimal2_digits (show t % 60 < 100 by omega)
  have years : Digits ((gmtime t).year + 1900) 4 (decimal ((gmtime t).year + 1900)) :=
    @decimal_digits _ 3 (show 1000 ≤ _ - 1900 + 1900 by omega) (show _ - 1900 + 1900 < 10000 by omega)
  have weekdays : ∀ i < 7, (weekdaysShort.getD i []).length = 3 := by decide
  have names : ∀ i < 12, (months.getD i []).length = 3 := by decide
  have weekday := weekdays (gmtime t).wday (Nat.mod_lt _ (by decide))
  have mon := names (gmtime t).mon month
  have comma : ∀ c ∈ lit ", ", Separator c := by decide +kernel
  have blank : ∀ c ∈ lit " ", Separator c := by decide +kernel
  have first : ∀ (rest : List UInt8), ∀ c ∈ (lit " " ++ rest).head?, Separator c :=
    fun _ c is => blank c (mem_singleton.mpr (Option.some_inj.mp is).symm)
  unfold rfc1123Date
  dsimp only
  generalize gmtime t = tm at *
  rw [take_of_length_le (by
    simp only [length_append, weekday, mday.1, mon, years.1, hour.1, min.1, sec.1]
    decide)]
  have text : weekdaysShort.getD tm.wday [] ++ lit ", " ++ decimal2 tm.mday ++ lit " " ++ months.getD tm.mon [] ++ lit " " ++
      decimal (tm.year + 1900) ++ lit " " ++ decimal2 tm.hour ++ lit ":" ++ decimal2 tm.min ++ lit ":" ++ decimal2 tm.sec ++
      lit " GMT" =
      [] ++ (weekdaysShort.getD tm.wday [] ++ (lit ", " ++ (decimal2 tm.mday ++ (lit " " ++ (months.getD tm.mon [] ++
        (lit " " ++ (decimal (tm.year + 1900) ++ (lit " " ++ ((decimal2 tm.hour ++ ch ':' :: (decimal2 tm.min ++ ch ':' ::
          decimal2 tm.sec)) ++ (lit " " ++ (lit "GMT" ++ []))))))))))) := by
    simp only [append_assoc, nil_append, append_nil, cons_append]
    rfl
  rw [text]
  exact .item nofun rfl trivial (fun c is => comma c (List.mem_of_mem_head? is))
    (.item comma (.inr mday) trivial (first _)
      (.item blank rfl trivial (first _)
        (.item blank years (fun signed => absurd signed (by decide)) (first _)
          (.item blank ⟨_, _, _, hour, min, sec, rfl⟩ trivial (first _)
            (.item blank rfl trivial nofun (.done nofun))))))

/-- A time from 1970 to the end of the year 9999 comes back but in February of a leap year; and a date in an accepted layout
is parsed as what it means but there, in January of the year zero, and where the name of a zone is taken for another. -/
theorem dates_exact_iff (erange : Bool) :
    (∀ t < 86400 * (daysBeforeYear 10000 - daysBeforeYear 1970),
      (nscStrntimet erange (rfc1123Date t) = some (t : Int) ↔
        erange = false ∧
          ¬(isLeap (dateFrom 1970 (t / 86400)).year = true ∧ (dateFrom 1970 (t / 86400)).month = 1))) ∧
      ∀ items text, Accepted items → Spelled items text → (dateOf items).Valid →
        (nscStrntimet erange text = some (meaning items) ↔
          erange = false ∧ ¬Late (dateOf items) ∧ ZonesRead false false items) := by
  refine ⟨fun t low => ?_, fun items text accepted spelled valid => nscStrntimet_iff erange accepted spelled valid⟩
  have date := components_date low
  have later := (date_inRange low).1
  have whole := nscStrntimet_iff erange (components_accepted low) (rfc1123Date_spelled low)
    (date ▸ (dateFrom_spec 1970 (t / 86400)).1)
  rw [components_meaning low, date] at whole
  rw [whole, and_iff_left (components_zones t), Late]
  refine and_congr_right fun _ => not_congr ⟨fun late => late.resolve_right fun zero => ?_, .inl⟩
  rw [zero.1] at later
  cases later

/-- The time of a date in November, and a date in another layout. -/
theorem dates_exact_in_november :
    rfc1123Date 784111777 = lit "Sun, 06 Nov 1994 08:49:37 GMT" ∧
      nscStrntimet false (lit "Sun, 06 Nov 1994 08:49:37 GMT") = some 784111777 ∧
      nscStrntimet false (lit "6-NOV-1994") = some 784080000 := by
  have text : rfc1123Date 784111777 = lit "Sun, 06 Nov 1994 08:49:37 GMT" := by decide +kernel
  have kept := ((dates_exact_iff false).1 784111777 (by decide +kernel)).mpr ⟨rfl, by decide +kernel⟩
  rw [text] at kept
  have dash : ∀ c ∈ lit "-", Separator c := by decide +kernel
  have day : Digits 6 1 (lit "6") := by unfold Digits; decide +kernel
  have year : Digits 1994 4 (lit "1994") := by unfold Digits; decide +kernel
  have rest : Spelled [.longYear 1994] (lit "-" ++ (lit "1994" ++ [])) := .item dash year (fun _ => by decide) nofun (.done nofun)
  have spelled : Spelled [.day 6, .month 10, .longYear 1994] (lit "6-NOV-1994") :=
    @Spelled.item (.day 6) _ [] _ _ nofun (.inl day) trivial (by decide +kernel)
      (@Spelled.item (.month 10) _ _ (lit "NOV") _ dash rfl trivial (by decide +kernel) rest)
  have accepted : Accepted [.day 6, .month 10, .longYear 1994] := by
    refine ⟨by simp [Item.InRange], ⟨_, rfl⟩, ⟨_, rfl⟩, ⟨_, rfl⟩, by decide, by decide, by decide, fun before y after same => ?_⟩
    have member : Item.shortYear y ∈ [Item.day 6, .month 10, .longYear 1994] :=
      same ▸ mem_append_right _ mem_cons_self
    simp at member
  have meant : meaning [.day 6, .month 10, .longYear 1994] = 784080000 := by decide +kernel
  have read := ((dates_exact_iff false).2 _ _ accepted spelled ⟨by decide, by decide⟩).mpr
    ⟨rfl, by decide, by simp [ZonesRead]⟩
  rw [meant] at read
  exact ⟨text, kept, read⟩

/-- The first of February 2000 comes back as the second; and the military zone A is taken for that of the Atlantic. -/
theorem february_late :
    rfc1123Date 949363200 = lit "Tue, 01 Feb 2000 00:00:00 GMT" ∧
      nscStrntimet false (lit "Tue, 01 Feb 2000 00:00:00 GMT") = some 949449600 ∧
      nscStrntimet false (lit "Thu, 01 Jan 1970 00:00:00 A") = some 14400 := by
  decide +kernel

end Besra.Rfc1123
