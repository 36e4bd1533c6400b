import Besra.Calendar
import Besra.CText

/-!
Dates in `utils/time.c`, as it is built without curl. A string is its bytes up to the NUL.
`ascii_string_to_int` looks at `errno` without having cleared it, so whether it is `ERANGE`
when a date is parsed is a parameter.
-/
namespace Besra.Time
open Lwc NsurlParse CText Calendar

def weekdaysShort : List (List UInt8) := ["Sun", "Mon", "Tue", "Wed", "Thu", "Fri", "Sat"].map lit

def months : List (List UInt8) :=
  ["Jan", "Feb", "Mar", "Apr", "May", "Jun", "Jul", "Aug", "Sep", "Oct", "Nov", "Dec"].map lit

def weekdaysLong : List (List UInt8) :=
  ["Sunday", "Monday", "Tuesday", "Wednesday", "Thursday", "Friday", "Saturday"].map lit

/-- `timezones` with `timezone_mins`, in the order of `enum nsc_time_zones`. -/
def timezones : List (List UInt8 × Int) := [
  ("GMT", 0), ("IDLE", -12 * 60), ("NZST", -12 * 60), ("NZT", -12 * 60), ("EAST", -10 * 60), ("GST", -10 * 60),
  ("JST", -9 * 60), ("CCT", -8 * 60), ("WAST", -7 * 60), ("EET", -2 * 60), ("CET", -1 * 60), ("FWT", -1 * 60),
  ("MET", -1 * 60), ("MEWT", -1 * 60), ("UTC", 0), ("WET", 0), ("WAT", 1 * 60), ("AST", 4 * 60), ("EST", 5 * 60),
  ("CST", 6 * 60), ("MST", 7 * 60), ("PST", 8 * 60), ("YST", 9 * 60), ("AHST", 10 * 60), ("CAT", 10 * 60),
  ("HST", 10 * 60), ("IDLW", 12 * 60),
  -- daylight saving
  ("NZDT", -12 * 60 - 60), ("EADT", -10 * 60 - 60), ("WADT", -7 * 60 - 60), ("CEST", -1 * 60 - 60),
  ("FST", -1 * 60 - 60), ("MEST", -1 * 60 - 60), ("MESZ", -1 * 60 - 60), ("BST", 0 - 60), ("ADT", 4 * 60 - 60),
  ("EDT", 5 * 60 - 60), ("CDT", 6 * 60 - 60), ("MDT", 7 * 60 - 60), ("PDT", 8 * 60 - 60), ("YDT", 9 * 60 - 60),
  ("HDT", 10 * 60 - 60),
  -- military
  ("Y", -12 * 60), ("X", -11 * 60), ("W", -10 * 60), ("V", -9 * 60), ("U", -8 * 60), ("T", -7 * 60), ("S", -6 * 60),
  ("R", -5 * 60), ("Q", -4 * 60), ("P", -3 * 60), ("O", -2 * 60), ("N", -1 * 60), ("Z", 0 * 60), ("A", 1 * 60),
  ("B", 2 * 60), ("C", 3 * 60), ("D", 4 * 60), ("E", 5 * 60), ("F", 6 * 60), ("G", 7 * 60), ("H", 8 * 60),
  ("I", 9 * 60), ("K", 10 * 60), ("L", 11 * 60), ("M", 12 * 60)].map (fun zone => (lit zone.1, zone.2))

/-- `struct tm`, as far as it is used. -/
structure Tm where
  mday : Nat
  mon : Nat
  year : Nat
  hour : Nat
  min : Nat
  sec : Nat
  wday : Nat
deriving DecidableEq

/-- `gmtime` of a time from 1970 on. The first of January 1970 is a Thursday. -/
def gmtime (t : Nat) : Tm :=
  let date := dateFrom 1970 (t / 86400)
  { mday := date.day + 1
    mon := date.month
    year := date.year - 1900
    hour := t % 86400 / 3600
    min := t % 3600 / 60
    sec := t % 60
    wday := (t / 86400 + 4) % 7 }

/-- The conversion `%02d` of a number that is not negative. -/
def decimal2 (n : Nat) : List UInt8 := if (decimal n).length < 2 then ch '0' :: decimal n else decimal n

/-- `rfc1123_date`, with a buffer of 31 bytes. -/
def rfc1123Date (t : Nat) : List UInt8 :=
  let tm := gmtime t
  (weekdaysShort.getD tm.wday [] ++ lit ", " ++ decimal2 tm.mday ++ lit " " ++ months.getD tm.mon [] ++ lit " " ++
    decimal (tm.year + 1900) ++ lit " " ++ decimal2 tm.hour ++ lit ":" ++ decimal2 tm.min ++ lit ":" ++
    decimal2 tm.sec ++ lit " GMT").take 30

/-- The flags of `enum nsc_date_component_flags`, for the components that have been parsed. -/
structure Flags where
  years : Bool := false
  months : Bool := false
  days : Bool := false
  hours : Bool := false
  mins : Bool := false
  secs : Bool := false
  timezone : Bool := false
  weekday : Bool := false
deriving DecidableEq

/-- `flags_chk_all` for `NSC_COMPONENT_FLAGS__HAVE_ALL` -/
def Flags.haveAll (flags : Flags) : Bool :=
  flags.years && flags.months && flags.days && flags.hours && flags.mins && flags.secs && flags.timezone

/-- `struct nsc_date_parse_ctx` -/
structure Ctx where
  prev : UInt8 := 0
  secs : Nat := 0
  mins : Nat := 0
  hours : Nat := 0
  day : Nat := 0
  month : Nat := 0
  years : Nat := 0
  timezoneOffsetMins : Int := 0
deriving DecidableEq

/-- `ascii_strings_count_equal_caseless`. No name has a NUL, which is what is after the end of the other string. -/
def countEqualCaseless : List UInt8 → List UInt8 → Nat
  | a :: s, b :: t => if dolower a = dolower b then countEqualCaseless s t + 1 else 0
  | _, _ => 0

def findName (names : List (List UInt8)) (str : List UInt8) (len : Nat) : Option Nat :=
  names.findIdx? (fun name => countEqualCaseless name str = len)

/-- `time__parse_weekday` -/
def parseWeekday (str : List UInt8) (len : Nat) (flags : Flags) : Option Flags :=
  let names := if len = 3 then weekdaysShort else weekdaysLong
  if flags.weekday then none
  else match findName names str len with
    | some _ => some { flags with weekday := true }
    | none => none

/-- `time__parse_month` -/
def parseMonth (str : List UInt8) (len : Nat) (flags : Flags) (ctx : Ctx) : Option (Flags × Ctx) :=
  if flags.months then none
  else match findName months str len with
    | some i => some ({ flags with months := true }, { ctx with month := i })
    | none => none

/-- `time__parse_timezone` -/
def parseTimezone (str : List UInt8) (len : Nat) (flags : Flags) (ctx : Ctx) : Option (Flags × Ctx) :=
  if flags.timezone then none
  else match findName (timezones.map (·.1)) str len with
    | some i => some ({ flags with timezone := true }, { ctx with timezoneOffsetMins := (timezones.getD i ([], 0)).2 })
    | none => none

/-- `ascii_count_digit_or_colon` -/
def countDigitOrColon (str : List UInt8) : Nat := (str.takeWhile (fun c => isDigit c || c = ch ':')).length

/-- The conversion `%02d` of `sscanf` in a string of digits and colons, with what is after the number. -/
def scanNumber (str : List UInt8) : Option (Nat × List UInt8) :=
  let digits := (str.take 2).takeWhile isDigit
  if digits = [] then none else some (decimalValue digits, str.drop digits.length)

/-- A colon of the format of `sscanf`. -/
def scanColon (str : List UInt8) : Option (List UInt8) :=
  match str with
  | c :: rest => if c = ch ':' then some rest else none
  | [] => none

/-- `sscanf` with "%02d:%02d:%02d", where it gives three numbers. -/
def scanHhMmSs (str : List UInt8) : Option (Nat × Nat × Nat) := do
  let (h, str) ← scanNumber str
  let str ← scanColon str
  let (m, str) ← scanNumber str
  let str ← scanColon str
  let (s, _) ← scanNumber str
  return (h, m, s)

/-- `sscanf` with "%02d:%02d", where it gives two numbers. -/
def scanHhMm (str : List UInt8) : Option (Nat × Nat) := do
  let (h, str) ← scanNumber str
  let str ← scanColon str
  let (m, _) ← scanNumber str
  return (h, m)

def Flags.haveTime (flags : Flags) : Flags := { flags with hours := true, mins := true, secs := true }

/-- `time__parse_hh_mm_ss`, with the number of characters that it takes. -/
def parseHhMmSs (str : List UInt8) (len : Nat) (flags : Flags) (ctx : Ctx) : Option (Nat × Flags × Ctx) :=
  if len ≠ 2 ∨ flags.hours ∨ flags.mins ∨ flags.secs then none
  else
    let l := len + countDigitOrColon (str.drop len)
    if l = 8 then
      match scanHhMmSs str with
      | some (h, m, s) => some (l, flags.haveTime, { ctx with hours := h, mins := m, secs := s })
      | none => none
    else if l = 5 then
      match scanHhMm str with
      | some (h, m) => some (l, flags.haveTime, { ctx with hours := h, mins := m, secs := 0 })
      | none => none
    else none

/-- `ascii_is_sign` -/
def isSign (c : UInt8) : Bool := c = ch '-' || c = ch '+'

/-- `ascii_string_to_int` of a string that starts with a digit, with how many digits it reads; `erange` is whether `errno`
is `ERANGE` before. -/
def asciiStringToInt (erange : Bool) (str : List UInt8) : Nat × Nat :=
  let digits := str.takeWhile isDigit
  if erange ∨ 2 ^ 31 - 1 < decimalValue digits then (0, 0) else (digits.length, decimalValue digits)

/-- `time__parse_number`; a day and a month are of type `uint8_t`. -/
def parseNumber (erange : Bool) (str : List UInt8) (len : Nat) (flags : Flags) (ctx : Ctx) : Option (Flags × Ctx) :=
  let (read, value) := asciiStringToInt erange str
  if len ≠ read then none
  else if len = 8 then
    if flags.years ∨ flags.months ∨ flags.days then none
    else some ({ flags with years := true, months := true, days := true }, { ctx with
      years := value / 10000
      month := (value % 10000 / 100 + 255) % 256
      day := (value % 100 + 255) % 256 })
  else if len = 4 then
    if ¬flags.timezone ∧ isSign ctx.prev ∧ value ≤ 1400 then
      let mins : Int := value / 100 * 60 + value % 100
      some ({ flags with timezone := true },
        { ctx with timezoneOffsetMins := if ctx.prev = ch '+' then mins * (-1) else mins })
    else if ¬flags.years then some ({ flags with years := true }, { ctx with years := value })
    else none
  else if len = 2 ∨ len = 1 then
    if ¬flags.days ∧ 0 < value ∧ value ≤ 31 then some ({ flags with days := true }, { ctx with day := value - 1 })
    else if ¬flags.years then
      some ({ flags with years := true }, { ctx with years := if 70 < value then value + 1900 else value + 2000 })
    else none
  else none

/-- `time__get_leap_days` -/
def getLeapDays (year : Int) : Int := year.tdiv 4 - year.tdiv 100 + year.tdiv 400

def monthOffsets : List Nat := [0, 31, 59, 90, 120, 151, 181, 212, 243, 273, 304, 334]

/-- `time__ctx_to_time_t` -/
def ctxToTimeT (ctx : Ctx) : Int :=
  let yearDays : Int := (ctx.years - 1970) * 365
  let monthDays : Int := monthOffsets.getD ctx.month 0
  let year : Int := if ctx.month < 1 then ctx.years - 1 else ctx.years
  let leapDays := getLeapDays year - getLeapDays 1969
  let totalDays := yearDays + monthDays + ctx.day + leapDays
  let mins := ctx.mins + ctx.timezoneOffsetMins
  (((totalDays * 24 + ctx.hours) * 60) + mins) * 60 + ctx.secs

/-- `ascii_count_alpha` -/
def countAlpha (str : List UInt8) : Nat := (str.takeWhile isAlpha).length

/-- `ascii_count_digit` -/
def countDigit (str : List UInt8) : Nat := (str.takeWhile isDigit).length

/-- What is made of the component at the start of the string, and how long it is; there is none at other characters than
letters and digits. -/
def parseComponent (erange : Bool) (c : UInt8) (rest : List UInt8) (flags : Flags) (ctx : Ctx) : Option (Nat × Flags × Ctx) :=
  if isAlpha c then
    let len := 1 + countAlpha rest
    match parseWeekday (c :: rest) len flags with
    | some flags => some (len, flags, ctx)
    | none =>
      match parseMonth (c :: rest) len flags ctx with
      | some (flags, ctx) => some (len, flags, ctx)
      | none => (parseTimezone (c :: rest) len flags ctx).map (fun parsed => (len, parsed))
  else if isDigit c then
    let len := 1 + countDigit rest
    match parseHhMmSs (c :: rest) len flags ctx with
    | some parsed => some parsed
    | none => (parseNumber erange (c :: rest) len flags ctx).map (fun parsed => (len, parsed))
  else some (1, flags, ctx)

/-- The loop of `time__get_date`, until all is there or the string ends. -/
def parseLoop (erange : Bool) : Nat → List UInt8 → Flags → Ctx → Option (Flags × Ctx)
  | 0, _, flags, ctx => some (flags, ctx)
  | _ + 1, [], flags, ctx => some (flags, ctx)
  | fuel + 1, c :: rest, flags, ctx =>
    if flags.haveAll then some (flags, ctx)
    else match parseComponent erange c rest flags ctx with
      | some (len, flags, ctx) => parseLoop erange fuel ((c :: rest).drop len) flags { ctx with prev := c }
      | none => none

/-- `time__get_date` with a string and a place for the time. -/
def getDate (erange : Bool) (str : List UInt8) : Option Int :=
  match parseLoop erange str.length str {} {} with
  | none => none
  | some (flags, ctx) =>
    let flags := { flags.haveTime with timezone := true }
    if ¬flags.haveAll then none
    else if 60 < ctx.secs ∨ 59 < ctx.mins ∨ 23 < ctx.hours ∨ 31 < ctx.day ∨ 11 < ctx.month then none
    else some (ctxToTimeT ctx)

/-- `nsc_strntimet`, which does not look at the size. -/
def nscStrntimet (erange : Bool) (str : List UInt8) : Option Int := getDate erange str

end Besra.Time
