import Besra.FixedPoint

/-!
Lengths in CSS pixels and in points (select/unit.c), and what viewport units are hundredths of.

A style is reduced to the properties that are read here.  That a length which is converted to points is not relative to
a font is asserted by the source; the conversion of such units is the default case below.  The client's callback for
font measuring gets its private word along with it.
-/
namespace Besra.Units
open FixedPoint

inductive CssUnit where
  | px | ex | em | inch | cm | mm | pt | pc | ch | rem | lh | vh | vw | vi | vb | vmin | vmax | q
  | pct
  | deg | grad | rad
  | ms | s
  | hz | khz
  | calc
deriving DecidableEq

/-- `css_writing_mode_e` -/
inductive WritingMode where
  | inherit
  | horizontalTb
  | verticalRl
  | verticalLr
deriving DecidableEq

/-- What `get_writing_mode` and `get_font_size` read of a `css_computed_style`. -/
structure Style where
  writingMode : WritingMode
  fontLength : CssFixed
  fontUnit : CssUnit
deriving DecidableEq

def f1 : CssFixed := 0x400

def f72 : CssFixed := 0x12000

def f96 : CssFixed := 0x18000

def f100 : CssFixed := 0x19000

def isVertical (style : Option Style) : Bool := style.any (·.writingMode ≠ .horizontalTb)

/-- `css_unit__map_viewport_units` -/
def mapViewportUnits (style : Option Style) (viewportHeight viewportWidth : CssFixed) : CssUnit → CssUnit
  | .vi => if isVertical style then .vh else .vw
  | .vb => if isVertical style then .vw else .vh
  | .vmin => if viewportHeight < viewportWidth then .vh else .vw
  | .vmax => if viewportHeight > viewportWidth then .vh else .vw
  | unit => unit

/-- `css_unit__absolute_len2pt`; the constants of `FLTTOFIX` are cut down to steps of 1/1024. -/
def absoluteLen2pt (style : Option Style) (viewportHeight viewportWidth length : CssFixed) (unit : CssUnit) :
    CssFixed :=
  match mapViewportUnits style viewportHeight viewportWidth unit with
  | .px => divideFixed (multiplyFixed length f72) f96
  | .inch => multiplyFixed length f72
  | .cm => multiplyFixed length (divideFixed f72 2600)
  | .mm => multiplyFixed length (divideFixed f72 26009)
  | .q => multiplyFixed length (divideFixed f72 104038)
  | .pt => length
  | .pc => multiplyFixed length (12 * 1024)
  | .vh => divideFixed (multiplyFixed (divideFixed (multiplyFixed length viewportHeight) f100) f72) f96
  | .vw => divideFixed (multiplyFixed (divideFixed (multiplyFixed length viewportWidth) f100) f72) f96
  | _ => 0

/-- `css_unit__font_size_px` -/
def fontSizePx (style : Option Style) (fontSizeDefault fontSizeMinimum viewportHeight viewportWidth : CssFixed) :
    CssFixed :=
  match style with
  | none => fontSizeDefault
  | some s =>
    let fontLength :=
      if s.fontUnit ≠ .px then
        let points := absoluteLen2pt style viewportHeight viewportWidth s.fontLength s.fontUnit
        divideFixed (multiplyFixed points f96) f72
      else s.fontLength
    -- "Clamp to configured minimum"
    if fontLength < fontSizeMinimum then fontSizeMinimum else fontLength

/-- The client's measures and defaults. -/
structure Context where
  measure : Option (Option Style → CssUnit → CssFixed)
  rootStyle : Option Style
  fontSizeDefault : CssFixed
  fontSizeMinimum : CssFixed

/-- `css_unit__px_per_unit` -/
def pxPerUnit (ctx : Context) (refStyle : Option Style) (viewportHeight viewportWidth : CssFixed) (unit : CssUnit) :
    CssFixed :=
  let fontSize (style : Option Style) :=
    fontSizePx style ctx.fontSizeDefault ctx.fontSizeMinimum viewportHeight viewportWidth
  match mapViewportUnits refStyle viewportHeight viewportWidth unit with
  | .em => fontSize refStyle
  | .ex =>
    match ctx.measure with
    | some measure => measure refStyle .ex
    | none => multiplyFixed (fontSize refStyle) 614
  | .ch =>
    match ctx.measure with
    | some measure => measure refStyle .ch
    | none => multiplyFixed (fontSize refStyle) 409
  | .px => f1
  | .inch => f96
  | .cm => divideFixed f96 2600
  | .mm => divideFixed f96 26009
  | .q => divideFixed f96 104038
  | .pt => divideFixed f96 f72
  | .pc => divideFixed f96 (6 * 1024)
  | .rem => fontSize ctx.rootStyle
  | .vh => divideFixed viewportWidth f100
  | .vw => divideFixed viewportHeight f100
  | _ => 0

inductive ViewportUnit where
  | vh | vw | vi | vb | vmin | vmax
deriving DecidableEq

def ViewportUnit.unit : ViewportUnit → CssUnit
  | .vh => .vh
  | .vw => .vw
  | .vi => .vi
  | .vb => .vb
  | .vmin => .vmin
  | .vmax => .vmax

def ViewportUnit.across : ViewportUnit → ViewportUnit
  | .vh => .vw
  | .vw => .vh
  | .vi => .vb
  | .vb => .vi
  | .vmin => .vmax
  | .vmax => .vmin

/-- The dimension that a unit is a hundredth of: the height, the width, the one along or across the lines of text, the
smaller or the larger one. -/
def dimension (style : Option Style) (viewportHeight viewportWidth : CssFixed) : ViewportUnit → CssFixed
  | .vh => viewportHeight
  | .vw => viewportWidth
  | .vi => if isVertical style then viewportHeight else viewportWidth
  | .vb => if isVertical style then viewportWidth else viewportHeight
  | .vmin => if viewportHeight ≤ viewportWidth then viewportHeight else viewportWidth
  | .vmax => if viewportHeight ≤ viewportWidth then viewportWidth else viewportHeight

def Hundredth (part whole : CssFixed) : Prop := |100 * part.toInt - whole.toInt| < 100

instance (part whole : CssFixed) : Decidable (Hundredth part whole) := inferInstanceAs (Decidable (_ < _))

/-- Both conversions take a viewport unit for a hundredth of its dimension: one unit is so many pixels, and a length in
points is what the length's product with the dimension, brought to its hundredth, is in points as pixels. -/
structure Consistent (ctx : Context) (style : Option Style) (viewportHeight viewportWidth length : CssFixed)
    (unit : ViewportUnit) : Prop where
  px : Hundredth (pxPerUnit ctx style viewportHeight viewportWidth unit.unit)
    (dimension style viewportHeight viewportWidth unit)
  pt : ∃ part, Hundredth part (multiplyFixed length (dimension style viewportHeight viewportWidth unit)) ∧
    absoluteLen2pt style viewportHeight viewportWidth length unit.unit =
      absoluteLen2pt style viewportHeight viewportWidth part .px

theorem tdiv_hundred (n : Int) : |100 * n.tdiv 100 - n| < 100 := by
  have quotient := Int.mul_tdiv_add_tmod n 100
  have below := Int.tmod_lt_of_pos n (show (0 : Int) < 100 by decide)
  have above := Int.lt_tmod_of_pos n (show (0 : Int) < 100 by decide)
  rw [abs_lt]
  omega

theorem toInt_divideFixed_f100 (x : CssFixed) : (divideFixed x f100).toInt = x.toInt.tdiv 100 := by
  have hundred : f100.toInt = 1024 * 100 := by decide
  obtain ⟨lower, upper⟩ := fits_toInt x
  obtain ⟨near, near'⟩ := abs_lt.mp (tdiv_hundred x.toInt)
  rw [toInt_divideFixed, hundred, Int.mul_tdiv_mul_of_pos _ _ (by decide), clamp_of_fits]
  unfold Fits
  omega

theorem hundredth_divideFixed (x : CssFixed) : Hundredth (divideFixed x f100) x := by
  rw [Hundredth, toInt_divideFixed_f100]
  exact tdiv_hundred x.toInt

theorem mapViewportUnits_cases (style : Option Style) (viewportHeight viewportWidth : CssFixed) (unit : ViewportUnit) :
    (mapViewportUnits style viewportHeight viewportWidth unit.unit = .vh ∧
        dimension style viewportHeight viewportWidth unit = viewportHeight ∧
        dimension style viewportHeight viewportWidth unit.across = viewportWidth) ∨
      (mapViewportUnits style viewportHeight viewportWidth unit.unit = .vw ∧
        dimension style viewportHeight viewportWidth unit = viewportWidth ∧
        dimension style viewportHeight viewportWidth unit.across = viewportHeight) := by
  have order :
      (viewportHeight < viewportWidth ∧ ¬ viewportHeight > viewportWidth ∧ viewportHeight ≤ viewportWidth) ∨
      (viewportHeight = viewportWidth ∧ ¬ viewportHeight < viewportWidth ∧ ¬ viewportHeight > viewportWidth) ∨
      (¬ viewportHeight < viewportWidth ∧ viewportHeight > viewportWidth ∧ ¬ viewportHeight ≤ viewportWidth) := by
    simp only [gt_iff_lt, Int32.lt_iff_toInt_lt, Int32.le_iff_toInt_le, ← Int32.toInt_inj]
    omega
  cases unit with
  | vh => exact .inl ⟨rfl, rfl, rfl⟩
  | vw => exact .inr ⟨rfl, rfl, rfl⟩
  | vi =>
    cases vertical : isVertical style with
    | true =>
      exact .inl ⟨by rw [ViewportUnit.unit, mapViewportUnits, if_pos vertical], if_pos vertical, if_pos vertical⟩
    | false =>
      have level : ¬ isVertical style = true := by rw [vertical]; decide
      exact .inr ⟨by rw [ViewportUnit.unit, mapViewportUnits, if_neg level], if_neg level, if_neg level⟩
  | vb =>
    cases vertical : isVertical style with
    | true =>
      exact .inr ⟨by rw [ViewportUnit.unit, mapViewportUnits, if_pos vertical], if_pos vertical, if_pos vertical⟩
    | false =>
      have level : ¬ isVertical style = true := by rw [vertical]; decide
      exact .inl ⟨by rw [ViewportUnit.unit, mapViewportUnits, if_neg level], if_neg level, if_neg level⟩
  | vmin =>
    rcases order with ⟨below, -, within⟩ | ⟨rfl, not_below, -⟩ | ⟨not_below, -, beyond⟩
    · exact .inl ⟨if_pos below, if_pos within, if_pos within⟩
    · exact .inr ⟨if_neg not_below, ite_self _, ite_self _⟩
    · exact .inr ⟨if_neg not_below, if_neg beyond, if_neg beyond⟩
  | vmax =>
    rcases order with ⟨-, not_above, within⟩ | ⟨rfl, -, not_above⟩ | ⟨-, above, beyond⟩
    · exact .inr ⟨if_neg not_above, if_pos within, if_pos within⟩
    · exact .inr ⟨if_neg not_above, ite_self _, ite_self _⟩
    · exact .inl ⟨if_pos above, if_neg beyond, if_neg beyond⟩

theorem absoluteLen2pt_viewport (style : Option Style) (viewportHeight viewportWidth length : CssFixed)
    (unit : ViewportUnit) :
    absoluteLen2pt style viewportHeight viewportWidth length unit.unit =
      absoluteLen2pt style viewportHeight viewportWidth
        (divideFixed (multiplyFixed length (dimension style viewportHeight viewportWidth unit)) f100) .px := by
  rcases mapViewportUnits_cases style viewportHeight viewportWidth unit with ⟨mapped, same, -⟩ | ⟨mapped, same, -⟩
  · rw [absoluteLen2pt, mapped, same]
    rfl
  · rw [absoluteLen2pt, mapped, same]
    rfl

theorem pxPerUnit_viewport (ctx : Context) (style : Option Style) (viewportHeight viewportWidth : CssFixed)
    (unit : ViewportUnit) :
    pxPerUnit ctx style viewportHeight viewportWidth unit.unit =
      divideFixed (dimension style viewportHeight viewportWidth unit.across) f100 := by
  rcases mapViewportUnits_cases style viewportHeight viewportWidth unit with ⟨mapped, -, other⟩ | ⟨mapped, -, other⟩
  · rw [pxPerUnit, mapped, other]
  · rw [pxPerUnit, mapped, other]

/-- The two conversions agree on a viewport unit exactly when the other dimension of the viewport, cut down to a whole
number of hundreds, is less than a hundred steps of 1/1024 pixel away from the one that the unit stands for. -/
theorem consistent_iff (ctx : Context) (style : Option Style) (viewportHeight viewportWidth length : CssFixed)
    (unit : ViewportUnit) :
    Consistent ctx style viewportHeight viewportWidth length unit ↔
      |100 * (dimension style viewportHeight viewportWidth unit.across).toInt.tdiv 100 -
        (dimension style viewportHeight viewportWidth unit).toInt| < 100 := by
  rw [← toInt_divideFixed_f100, ← pxPerUnit_viewport ctx]
  constructor
  · exact fun consistent => consistent.px
  · intro near
    exact ⟨near, _, hundredth_divideFixed _, absoluteLen2pt_viewport style viewportHeight viewportWidth length unit⟩

/-- In a viewport 800 pixels wide and 600 high, 1vh is 8 pixels. -/
theorem vh_of_wide_viewport_inconsistent :
    ¬ Consistent ⟨none, none, 16 * 1024, 0⟩ none (600 * 1024) (800 * 1024) 1024 .vh := by
  intro consistent
  have near := (consistent_iff _ _ _ _ _ _).mp consistent
  revert near
  decide

end Besra.Units
