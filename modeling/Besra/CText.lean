import Mathlib
import Besra.NsurlParse

/-!
What the C library does with strings, which are the bytes before their NUL:
comparisons by their sign, numbers, and the two readers of IP addresses.
-/
namespace Besra.CText
open Lwc NsurlParse

def strcmp (s t : List UInt8) : Ordering := compare s t

def strncmp (s t : List UInt8) (n : Nat) : Ordering := strcmp (s.take n) (t.take n)

def strcasecmp (s t : List UInt8) : Ordering := compare (insensitive s) (insensitive t)

def strncasecmp (s t : List UInt8) (n : Nat) : Ordering := strcasecmp (s.take n) (t.take n)

instance : Std.TransCmp strcmp := inferInstanceAs (Std.TransOrd (List UInt8))

theorem strcmp_eq_iff {s t : List UInt8} : strcmp s t = .eq ↔ s = t := Std.LawfulEqOrd.compare_eq_iff_eq

theorem strcasecmp_eq_iff {s t : List UInt8} : strcasecmp s t = .eq ↔ insensitive s = insensitive t :=
  Std.LawfulEqOrd.compare_eq_iff_eq

theorem strncmp_eq_iff {s t : List UInt8} : strncmp s t s.length = .eq ↔ s <+: t := by
  rw [strncmp, strcmp_eq_iff, List.take_length, List.prefix_iff_eq_take]

def decimalValue (digits : List UInt8) : Nat := digits.foldl (fun n c => 10 * n + (c - ch '0').toNat) 0

/-- `strtol` in base ten. -/
def strtol (s : List UInt8) : Int :=
  let s := s.dropWhile isSpace
  let (negative, s) := match s with
    | c :: rest => if c = ch '-' then (true, rest) else if c = ch '+' then (false, rest) else (false, s)
    | [] => (false, s)
  let value : Int := decimalValue (s.takeWhile isDigit)
  if negative then max (-value) (-(2 ^ 63)) else min value (2 ^ 63 - 1)

/-- `atoi`, which narrows the result of `strtol`. -/
def atoi (s : List UInt8) : Int := (strtol s).bmod (2 ^ 32)

/-- The conversion `%d` of a number that is not negative. -/
def decimal (n : Nat) : List UInt8 :=
  if n = 0 then lit "0" else (Nat.digits 10 n).reverse.map (fun d => ch '0' + UInt8.ofNat d)

/-- `fgets` with a buffer of `size` bytes. -/
def fgets (size : Nat) (data : List UInt8) : List UInt8 :=
  let chunk := data.take (size - 1)
  chunk.take ((chunk.takeWhile (· ≠ 0x0a)).length + 1)

/-- The lines that `fgets` reads from a file, each as long as the buffer allows. -/
def fgetsAll (size : Nat) : Nat → List UInt8 → List (List UInt8)
  | 0, _ => []
  | fuel + 1, data =>
    if data = [] then [] else fgets size data :: fgetsAll size fuel (data.drop (fgets size data).length)

/-- `strtoul` in the base that the text starts with, and what follows the number. -/
def strtoul (s : List UInt8) : Nat × List UInt8 :=
  let hex := s.drop 2
  if (s.take 2 = lit "0x" ∨ s.take 2 = lit "0X") ∧ (hexToValue (byteAt hex 0)).isSome then
    let digits := hex.takeWhile (hexToValue · |>.isSome)
    (digits.foldl (fun n c => 16 * n + ((hexToValue c).getD 0).toNat) 0, hex.drop digits.length)
  else
    let base := if byteAt s 0 = ch '0' then 8 else 10
    let digits := s.takeWhile (fun c => isDigit c && (c - ch '0').toNat < base)
    (digits.foldl (fun n c => base * n + (c - ch '0').toNat) 0, s.drop digits.length)

/-- The parts of an address for `inet_aton`, after which `more` are allowed. The last part fills the bytes
    that are left. -/
def inetAtonParts : Nat → List UInt8 → Bool
  | more, s =>
    isDigit (byteAt s 0) &&
      match strtoul s, more with
      | (value, c :: rest), more + 1 =>
        if c = ch '.' then value ≤ 255 && inetAtonParts more rest
        else isSpace c && value < 256 ^ (more + 2)
      | (value, c :: _), 0 => isSpace c && value < 256
      | (value, []), more => value < 256 ^ (more + 1)

/-- `inet_aton`, whether it reads an address. -/
def inetAton (s : List UInt8) : Bool := inetAtonParts 3 s

/-- `inet_pton` for `AF_INET` -/
def inetPton4 (s : List UInt8) : Bool :=
  let parts := s.splitOn (ch '.')
  parts.length = 4 && parts.all (fun part =>
    part ≠ [] && part.all isDigit && decimalValue part ≤ 255 && (part.length = 1 || byteAt part 0 ≠ ch '0'))

/-- The end of `inet_pton` for `AF_INET6`: `groups` are complete, and digits of another have been read or not. -/
def inetPton6End (groups : Nat) (colon : Bool) (digits : Nat) : Bool :=
  let groups := if digits = 0 then groups else groups + 1
  if colon then groups < 8 else groups = 8

/-- The loop of `inet_pton` for `AF_INET6`. -/
def inetPton6Loop (groups : Nat) (colon : Bool) (digits : Nat) (token : List UInt8) : List UInt8 → Bool
  | [] => inetPton6End groups colon digits
  | c :: rest =>
    if (hexToValue c).isSome then digits < 4 && inetPton6Loop groups colon (digits + 1) token rest
    else if c = ch ':' then
      if digits = 0 then !colon && inetPton6Loop groups true 0 rest rest
      else rest ≠ [] && groups < 8 && inetPton6Loop (groups + 1) colon 0 rest rest
    else c = ch '.' && groups ≤ 6 && inetPton4 token && inetPton6End (groups + 2) colon 0

/-- `inet_pton` for `AF_INET6` -/
def inetPton6 (s : List UInt8) : Bool :=
  match s with
  | c :: rest =>
    if c = ch ':' then byteAt rest 0 = ch ':' && inetPton6Loop 0 false 0 rest rest
    else inetPton6Loop 0 false 0 s s
  | [] => false

example : inetAton (lit "127.0.0.1") = true ∧ inetAton (lit "256.0.0.1") = false := by decide +kernel

example : inetPton6 (lit "fe80::1") = true ∧ inetPton6 (lit "1:2:3:4:5:6:7") = false ∧
    inetPton6 (lit "::ffff:10.0.0.1") = true := by decide +kernel

end Besra.CText
