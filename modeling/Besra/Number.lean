import Mathlib
import Besra.Lwc

/-!
Numbers of CSS tokens: `css__number_from_string`, the fixed-point division of `fpmath.h` and the table of unit
keywords.
-/
namespace Besra.Number
open Lwc

/-- `isDigit` of `utils/utils.h` -/
def isDigit (c : UInt8) : Bool := ch '0' ≤ c && c ≤ ch '9'

def digit (c : UInt8) : Int := (c - ch '0').toNat

def intPart : List UInt8 → Int → Int × List UInt8
  | [], n => (n, [])
  | c :: rest, n =>
    if isDigit c then intPart rest (if n < 2 ^ 22 then n * 10 + digit c else n) else (n, c :: rest)

def fracPart : List UInt8 → Int → Int → (Int × Int) × List UInt8
  | [], f, pwr => ((f, pwr), [])
  | c :: rest, f, pwr =>
    if isDigit c then
      if pwr < 1000000 then fracPart rest (f * 10 + digit c) (pwr * 10) else fracPart rest f pwr
    else ((f, pwr), c :: rest)

def clamp (negative : Bool) (int frac : Int) : Int :=
  if negative then
    if 2 ^ 21 ≤ int then -(2 ^ 21) * 1024
    else if frac = 0 then -int * 1024 else (-int - 1) * 1024 + (1024 - frac)
  else if 2 ^ 21 ≤ int then (2 ^ 21 - 1) * 1024 + 1023
  else int * 1024 + frac

/-- `css__number_from_string`: the number and what of the string is left after it. -/
def numberFromString (data : LwcString) (intOnly : Bool) : Int × List UInt8 :=
  let negative := data.head? == some (ch '-')
  let body := if negative || data.head? == some (ch '+') then data.tail else data
  let starts :=
    match body with
    | [] => false
    | c :: rest => if c == ch '.' then rest.head?.any isDigit else isDigit c
  if !starts then (0, data)
  else
    let (int, rest) := intPart body 0
    if !intOnly && rest.head? == some (ch '.') && rest.tail.head?.any isDigit then
      let ((f, pwr), rest) := fracPart rest.tail 0 1
      let frac := (1024 * f + pwr / 2) / pwr
      if 1024 ≤ frac then (clamp negative (int + 1) (frac % 1024), rest) else (clamp negative int frac, rest)
    else (clamp negative int 0, rest)

/-- `css_divide_fixed` -/
def divideFixed (x y : Int) : Int := max (-(2 ^ 31)) (min (2 ^ 31 - 1) (Int.tdiv (x * 1024) y))

/-- The units of `bytecode.h`. -/
inductive CssUnit where
  | px | ex | em | inch | cm | mm | pt | pc | ch | rem | lh | vh | vw | vi | vb | vmin | vmax | q
  | deg | grad | rad | turn
  | ms | s
  | hz | khz
  | dpi | dpcm | dppx
deriving DecidableEq

/-- The keywords that `css__parse_unit_keyword` compares with, in its order. -/
def unitKeywords : List (LwcString × CssUnit) :=
  [(lit "grad", .grad), (lit "turn", .turn), (lit "dppx", .dppx), (lit "dpcm", .dpcm), (lit "vmin", .vmin),
    (lit "vmax", .vmax), (lit "khz", .khz), (lit "deg", .deg), (lit "rad", .rad), (lit "rem", .rem),
    (lit "dpi", .dpi), (lit "hz", .hz), (lit "ms", .ms), (lit "px", .px), (lit "ex", .ex), (lit "em", .em),
    (lit "in", .inch), (lit "cm", .cm), (lit "mm", .mm), (lit "pt", .pt), (lit "pc", .pc), (lit "ch", .ch),
    (lit "lh", .lh), (lit "vh", .vh), (lit "vw", .vw), (lit "vi", .vi), (lit "vb", .vb), (lit "s", .s),
    (lit "q", .q)]

/-- `css__parse_unit_keyword`, without a unit where it gives CSS_INVALID. -/
def parseUnitKeyword (word : LwcString) : Option CssUnit := unitKeywords.lookup (insensitive word)

end Besra.Number
