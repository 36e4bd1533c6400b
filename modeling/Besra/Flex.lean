import Besra.FixedPoint

/-!
A line of a flex container, of `layout_flex.c`: its items with their factors and sizes, how the free space of the
line is given to them (`distributeFreeMain`), how the items are put along the line (`placeLineItemsMain`) and how the
lines are put across the container (`placeLines`). What is added up over the items of a line wraps around in 32 bits,
with the fixed-point operations of `Besra.FixedPoint` on values. The parts of one box and the positions are numbers
without bounds: what of them leaves 32 bits is undefined in C.
-/
namespace Besra.Flex
open FixedPoint (CssFixed clamp Fits multiplyFixed divideFixed toInt_multiplyFixed toInt_divideFixed)

/-- A sum as it is kept in an `int` or a `css_fixed`. -/
def wrapped (n : Int) : Int := n.bmod (2 ^ 32)

/-- `css_int_to_fixed` -/
def intToFix (a : Int) : Int := clamp (1024 * a)

def fixToInt (a : Int) : Int := a / 1024

def fixFrac (a : Int) : Int := a % 1024

def fmul (x y : Int) : Int := clamp (x * y / 1024)

/-- `FDIV`, of a `y` that is not 0 -/
def fdiv (x y : Int) : Int := clamp ((1024 * x).tdiv y)

/-- `AUTO`, that is `INT_MIN` -/
def auto : Int := -2 ^ 31

/-- `UNKNOWN_WIDTH`, that is `INT_MAX` -/
def unknownWidth : Int := 2 ^ 31 - 1

/-- What is around the content of a box in one direction, at its start and at its end. -/
structure Sides where
  marginStart : Int
  marginEnd : Int
  paddingStart : Int
  paddingEnd : Int
  borderStart : Int
  borderEnd : Int

/-- `lh__non_auto_margin` -/
def nonAutoMargin (margin : Int) : Int := if margin = auto then 0 else margin

/-- `lh__delta_outer_width` and `lh__delta_outer_height`, of the sides in that direction -/
def Sides.delta (s : Sides) : Int :=
  s.paddingStart + s.paddingEnd + s.borderStart + s.borderEnd + nonAutoMargin s.marginStart +
    nonAutoMargin s.marginEnd

/-- How many of the two margins are `AUTO`. -/
def Sides.autoMargins (s : Sides) : Nat :=
  (if s.marginStart = auto then 1 else 0) + (if s.marginEnd = auto then 1 else 0)

/-- The `struct box` of an item: its sizes and sides along the line and across it, its limits from
`layout_minmax`, and its position along the line. -/
structure FlexBox where
  main : Int
  cross : Int
  along : Sides
  across : Sides
  minWidth : Int
  maxWidth : Int
  absolute : Bool
  pos : Int

/-- `struct flex_item_data`. The factors are not negative: the parser refuses them. -/
structure FlexItem where
  box : FlexBox
  grow : Nat
  shrink : Nat
  minMain : Int
  maxMain : Int
  targetMainSize : Int
  baseSize : Int
  mainSize : Int
  freeze : Bool
  minViolation : Bool
  maxViolation : Bool

/-- `struct flex_line_data`, with the items from `first` on -/
structure FlexLine where
  items : List FlexItem
  mainSize : Int
  crossSize : Int
  usedMainSize : Int
  mainAutoMarginCount : Nat
  frozen : Nat

def each {σ : Type} (step : σ → FlexItem → σ × FlexItem) : σ → List FlexItem → σ × List FlexItem
  | state, [] => (state, [])
  | state, item :: rest =>
    let visited := step state item
    let others := each step visited.1 rest
    (others.1, visited.2 :: others.2)

/-- The loop of `layout_flex__build_line`: the items that go onto the line, and the others. -/
def takeItems (nowrap : Bool) (availableMain : Int) (size : FlexItem → Int) (usedMain : Int) :
    List FlexItem → List FlexItem → List FlexItem × List FlexItem
  | taken, [] => (taken, [])
  | taken, item :: rest =>
    if nowrap ∨ wrapped (size item + usedMain) ≤ availableMain ∨ item.box.absolute ∨ availableMain = auto ∨
        taken = [] ∨ size item = 0 then
      takeItems nowrap availableMain size (if item.box.absolute then usedMain else wrapped (usedMain + size item))
        (taken ++ [item]) rest
    else (taken, item :: rest)

/-- What `layout_flex__build_line` adds up for the items of a line: those that are not positioned absolutely. -/
def lineOf (items : List FlexItem) : FlexLine where
  items := items
  mainSize := wrapped ((items.filter fun item => !item.box.absolute).map FlexItem.mainSize).sum
  crossSize := 0
  usedMainSize := 0
  mainAutoMarginCount := ((items.filter fun item => !item.box.absolute).map fun item => item.box.along.autoMargins).sum
  frozen := 0

/-- `layout_flex__build_line`: the line, and the items that are left. -/
def buildLine (horizontal nowrap : Bool) (availableMain : Int) (items : List FlexItem) : FlexLine × List FlexItem :=
  let size := fun item : FlexItem => if horizontal then item.mainSize else item.box.main + item.box.along.delta
  let (taken, rest) := takeItems nowrap availableMain size 0 [] items
  (lineOf taken, rest)

/-- `layout_flex__item_freeze` -/
def itemFreeze (line : FlexLine) (item : FlexItem) : FlexLine × FlexItem :=
  ({ line with
      frozen := line.frozen + 1
      usedMainSize :=
        if item.box.absolute then line.usedMainSize else wrapped (line.usedMainSize + item.targetMainSize) },
    { item with freeze := true })

def unfrozen (items : List FlexItem) : List FlexItem := items.filter fun item => !item.freeze

def factor (grow : Bool) (item : FlexItem) : Int := if grow then item.grow else item.shrink

/-- The `unfrozen_factor_sum` of items. -/
def unfrozenFactorSum (grow : Bool) (items : List FlexItem) : Int := wrapped ((unfrozen items).map (factor grow)).sum

/-- A pass of one of the two loops that give space: whole pixels go to the item, the rest to the next one. -/
def allot (share : FlexItem → Int) (sign : Int) (remainder : Int) (item : FlexItem) : Int × FlexItem :=
  if item.freeze then (remainder, item)
  else
    let result := wrapped (share item + remainder)
    (fixFrac result, { item with targetMainSize := wrapped (item.baseSize + sign * fixToInt result) })

def scaledShrinkFactor (item : FlexItem) : Int := fmul item.shrink (intToFix item.baseSize)

def settleItem (line : FlexLine) (item : FlexItem) : FlexLine × FlexItem :=
  if item.freeze then (line, item) else itemFreeze line { item with targetMainSize := item.mainSize }

/-- `layout_flex__distribute_free_main`; `none` where it divides by 0. -/
def distributeFreeMain (line : FlexLine) (unfrozenFactorSum remaining : Int) (grow : Bool) : Option FlexLine :=
  if grow then
    if unfrozenFactorSum = 0 ∧ unfrozen line.items ≠ [] then none
    else
      let share := fun item => fmul (intToFix remaining) (fdiv item.grow unfrozenFactorSum)
      some { line with items := (each (allot share 1) 0 line.items).2 }
  else
    let factorSum := wrapped ((unfrozen line.items).map scaledShrinkFactor).sum
    if factorSum = 0 then
      let settled := each settleItem line line.items
      some { settled.1 with items := settled.2 }
    else
      let share := fun item => fmul (intToFix |remaining|) (fdiv (scaledShrinkFactor item) factorSum)
      some { line with items := (each (allot share (-1)) 0 line.items).2 }

/-- `layout_flex_item` for the items of a row: what the layout of its content makes of a box. It keeps which of the
margins along the line are `AUTO`. -/
structure ItemLayout where
  run : FlexBox → Option FlexBox
  keeps : ∀ {box laid : FlexBox}, run box = some laid → laid.absolute = box.absolute ∧
    (laid.along.marginStart = auto ↔ box.along.marginStart = auto) ∧
    (laid.along.marginEnd = auto ↔ box.along.marginEnd = auto)

/-- What the items of a line are placed with. -/
structure FlexCtx where
  horizontal : Bool
  mainReversed : Bool
  availableMain : Int
  availableCross : Int
  layout : ItemLayout

structure PlacedItem where
  item : FlexItem
  extraPre : Int
  extraPost : Int

/-- The box of an item before it is placed: in a row it gets the width that was found, and its layout. -/
def settleBox (ctx : FlexCtx) (item : FlexItem) : Option FlexBox :=
  if ctx.horizontal then
    ctx.layout.run { item.box with main := item.targetMainSize - item.box.along.delta }
  else some item.box

/-- The loop of `layout_flex__place_line_items_main`, with the space for each `AUTO` margin; `none` where a layout
fails. -/
def placeItems (ctx : FlexCtx) (extra : Int) : Int → Int → List FlexItem → Option (List PlacedItem × Int)
  | _, crossSize, [] => some ([], crossSize)
  | mainPos, crossSize, item :: rest =>
    match settleBox ctx item with
    | none => none
    | some box =>
      let extraPre := if !box.absolute ∧ box.along.marginStart = auto then extra else 0
      let extraPost := if !box.absolute ∧ box.along.marginEnd = auto then extra else 0
      let step := if box.absolute then 0 else extraPre + extraPost + (box.main + box.along.delta)
      let mainPos := if ctx.mainReversed then mainPos - step else mainPos
      let pos := mainPos + nonAutoMargin box.along.marginStart + extraPre + box.along.borderStart
      let mainPos := if ctx.mainReversed then mainPos else mainPos + step
      let crossSize := if box.absolute then crossSize else max crossSize (box.cross + box.across.delta)
      match placeItems ctx extra mainPos crossSize rest with
      | none => none
      | some (placed, crossSize) =>
        some ({ item := { item with box := { box with pos } }, extraPre, extraPost } :: placed, crossSize)

/-- The space for each `AUTO` margin of a line. -/
def marginExtra (ctx : FlexCtx) (line : FlexLine) : Int :=
  if ctx.availableMain ≠ auto ∧ ctx.availableMain ≠ unknownWidth ∧ line.usedMainSize < ctx.availableMain ∧
      0 < line.mainAutoMarginCount then
    let extra := ctx.availableMain - line.usedMainSize
    extra.tdiv line.mainAutoMarginCount + extra.tmod line.mainAutoMarginCount
  else 0

/-- `layout_flex__place_line_items_main`, from a position on -/
def placeLineItemsMain (ctx : FlexCtx) (mainPos : Int) (line : FlexLine) : Option (List PlacedItem × FlexLine) :=
  match placeItems ctx (marginExtra ctx line) mainPos line.crossSize line.items with
  | none => none
  | some (placed, crossSize) => some (placed, { line with items := placed.map PlacedItem.item, crossSize })

/-- A line that has its place, and the cross space it got on top of its own. -/
structure PlacedLine where
  line : FlexLine
  pos : Int
  extra : Int

/-- The loop of `layout_flex__place_lines`. -/
def placeEach (reversed : Bool) (extra : Int) : Int → Int → List FlexLine → List PlacedLine
  | _, _, [] => []
  | linePos, remainder, line :: rest =>
    let linePos := if reversed then linePos - line.crossSize else linePos
    let next := (if reversed then linePos else linePos + line.crossSize) + extra + remainder
    { line, pos := linePos, extra := extra + remainder } ::
      placeEach reversed extra next (if 0 < remainder then remainder - 1 else remainder) rest

/-- `layout_flex__place_lines` -/
def placeLines (ctx : FlexCtx) (reversed : Bool) (crossSize : Int) (lines : List FlexLine) : List PlacedLine :=
  let linePos := if reversed then crossSize else 0
  if ctx.availableCross ≠ auto ∧ crossSize < ctx.availableCross ∧ 0 < lines.length then
    let extra := ctx.availableCross - crossSize
    placeEach reversed (extra.tdiv lines.length) linePos (extra.tmod lines.length) lines
  else placeEach reversed 0 linePos 0 lines

end Besra.Flex
