import Besra.Lwc
import Mathlib.Tactic.IntervalCases

/-!
The bytecode of styles, from `libcss/src/bytecode` and the cascade functions of
`libcss/src/select/properties`. A style is a sequence of words: an OPV word holds
an opcode, flags and a value, and is followed by the operands that the property's
cascade function reads for that value.

Here a cascade function is its layout: the values that `opcodes.h` lists for the
property, and how many words the function advances over for each.
-/
namespace Besra.Bytecode

/-- `css_code_t` -/
abbrev Word := BitVec 32

def buildOPV (opcode : Word) (flags : BitVec 8) (value : BitVec 16) : Word :=
  (opcode &&& 0x3ff) ||| (flags.setWidth 32 <<< 10) ||| ((value.setWidth 32 &&& 0x3fff) <<< 18)

def getOpcode (opv : Word) : Word := opv &&& 0x3ff

def getFlags (opv : Word) : BitVec 8 := ((opv >>> 10) &&& 0xff).setWidth 8

def getValue (opv : Word) : BitVec 16 := (opv >>> 18).setWidth 16

def isImportant (opv : Word) : Bool := getFlags opv &&& 1 ≠ 0

def getFlagValue (opv : Word) : BitVec 8 := (getFlags opv >>> 1) &&& 0x7

/-- `hasFlagValue`: inherit, initial, revert or unset stands for the value. -/
def hasFlagValue (opv : Word) : Bool := getFlagValue opv ≠ 0

def valueIsCalc : Nat := 0x7f

/-- `css_properties_e`, in the order of the opcodes. -/
inductive Property where
  | azimuth | backgroundAttachment | backgroundColor | backgroundImage | backgroundPosition | backgroundRepeat
  | borderCollapse | borderSpacing | borderTopColor | borderRightColor | borderBottomColor | borderLeftColor
  | borderTopStyle | borderRightStyle | borderBottomStyle | borderLeftStyle | borderTopWidth | borderRightWidth
  | borderBottomWidth | borderLeftWidth | bottom | captionSide | clear | clip | color | content
  | counterIncrement | counterReset | cueAfter | cueBefore | cursor | direction | display | elevation
  | emptyCells | float | fontFamily | fontSize | fontStyle | fontVariant | fontWeight | height | left
  | letterSpacing | lineHeight | listStyleImage | listStylePosition | listStyleType | marginTop | marginRight
  | marginBottom | marginLeft | maxHeight | maxWidth | minHeight | minWidth | orphans | outlineColor
  | outlineStyle | outlineWidth | overflowX | paddingTop | paddingRight | paddingBottom | paddingLeft
  | pageBreakAfter | pageBreakBefore | pageBreakInside | pauseAfter | pauseBefore | pitchRange | pitch
  | playDuring | position | quotes | richness | right | speakHeader | speakNumeral | speakPunctuation | speak
  | speechRate | stress | tableLayout | textAlign | textDecoration | textIndent | textTransform | top
  | unicodeBidi | verticalAlign | visibility | voiceFamily | volume | whiteSpace | widows | width | wordSpacing
  | zIndex | opacity | breakAfter | breakBefore | breakInside | columnCount | columnFill | columnGap
  | columnRuleColor | columnRuleStyle | columnRuleWidth | columnSpan | columnWidth | writingMode | overflowY
  | boxSizing | alignContent | alignItems | alignSelf | flexBasis | flexDirection | flexGrow | flexShrink
  | flexWrap | justifyContent | order | fillOpacity | strokeOpacity
deriving DecidableEq

def properties : List Property :=
  [.azimuth, .backgroundAttachment, .backgroundColor, .backgroundImage, .backgroundPosition, .backgroundRepeat,
   .borderCollapse, .borderSpacing, .borderTopColor, .borderRightColor, .borderBottomColor, .borderLeftColor,
   .borderTopStyle, .borderRightStyle, .borderBottomStyle, .borderLeftStyle, .borderTopWidth,
   .borderRightWidth, .borderBottomWidth, .borderLeftWidth, .bottom, .captionSide, .clear, .clip, .color,
   .content, .counterIncrement, .counterReset, .cueAfter, .cueBefore, .cursor, .direction, .display,
   .elevation, .emptyCells, .float, .fontFamily, .fontSize, .fontStyle, .fontVariant, .fontWeight, .height,
   .left, .letterSpacing, .lineHeight, .listStyleImage, .listStylePosition, .listStyleType, .marginTop,
   .marginRight, .marginBottom, .marginLeft, .maxHeight, .maxWidth, .minHeight, .minWidth, .orphans,
   .outlineColor, .outlineStyle, .outlineWidth, .overflowX, .paddingTop, .paddingRight, .paddingBottom,
   .paddingLeft, .pageBreakAfter, .pageBreakBefore, .pageBreakInside, .pauseAfter, .pauseBefore, .pitchRange,
   .pitch, .playDuring, .position, .quotes, .richness, .right, .speakHeader, .speakNumeral, .speakPunctuation,
   .speak, .speechRate, .stress, .tableLayout, .textAlign, .textDecoration, .textIndent, .textTransform, .top,
   .unicodeBidi, .verticalAlign, .visibility, .voiceFamily, .volume, .whiteSpace, .widows, .width,
   .wordSpacing, .zIndex, .opacity, .breakAfter, .breakBefore, .breakInside, .columnCount, .columnFill,
   .columnGap, .columnRuleColor, .columnRuleStyle, .columnRuleWidth, .columnSpan, .columnWidth, .writingMode,
   .overflowY, .boxSizing, .alignContent, .alignItems, .alignSelf, .flexBasis, .flexDirection, .flexGrow,
   .flexShrink, .flexWrap, .justifyContent, .order, .fillOpacity, .strokeOpacity]

def propertyOf (opv : Word) : Option Property := properties[(getOpcode opv).toNat]?

inductive Layout where
  /-- Keywords, without operands. -/
  | keywords (count : Nat)
  /-- Keywords, or the value 0x80 with operands. -/
  | set (keywords operands : Nat)
  /-- The same, or a calc expression with its unit and string. -/
  | setOrCalc (keywords operands : Nat)
  /-- Keywords, a number, a dimension or a calc expression. -/
  | numberOrDimension (keywords : Nat)
  /-- Operands whatever the value, which is always 0x80. -/
  | always (operands : Nat)
  | azimuth
  | backgroundPosition
  | clip
  | content
  | counters
  | cursor
  /-- Family names and a number of generic families. -/
  | families (generic : Nat)
  | quotes
  | playDuring
deriving DecidableEq

def layout : Property → Layout
  | .azimuth => .azimuth
  | .backgroundAttachment | .borderCollapse | .captionSide | .direction | .emptyCells | .fontVariant
  | .listStylePosition | .pageBreakInside | .speakHeader | .speakNumeral | .speakPunctuation | .tableLayout
  | .columnFill | .columnSpan | .boxSizing => .keywords 2
  | .backgroundColor | .borderTopColor | .borderRightColor | .borderBottomColor | .borderLeftColor | .color
  | .columnRuleColor => .set 2 1
  | .backgroundImage | .cueAfter | .cueBefore | .listStyleImage => .set 1 1
  | .backgroundPosition => .backgroundPosition
  | .backgroundRepeat | .clear | .overflowX | .textTransform | .breakInside | .overflowY
  | .flexDirection => .keywords 4
  | .borderSpacing => .always 4
  | .borderTopStyle | .borderRightStyle | .borderBottomStyle | .borderLeftStyle | .outlineStyle
  | .columnRuleStyle => .keywords 10
  | .borderTopWidth | .borderRightWidth | .borderBottomWidth | .borderLeftWidth | .outlineWidth
  | .columnRuleWidth => .setOrCalc 3 2
  | .bottom | .height | .left | .letterSpacing | .marginTop | .marginRight | .marginBottom | .marginLeft
  | .maxHeight | .maxWidth | .minHeight | .minWidth | .right | .top | .width | .wordSpacing | .columnGap
  | .columnWidth => .setOrCalc 1 2
  | .clip => .clip
  | .content => .content
  | .counterIncrement | .counterReset => .counters
  | .cursor => .cursor
  | .display => .keywords 20
  | .elevation => .set 5 2
  | .float | .fontStyle | .speak | .unicodeBidi | .visibility | .writingMode | .flexWrap => .keywords 3
  | .fontFamily => .families 5
  | .fontSize => .setOrCalc 9 2
  | .fontWeight => .keywords 13
  | .lineHeight => .numberOrDimension 1
  | .listStyleType => .keywords 52
  | .orphans | .pitchRange | .richness | .stress | .widows | .flexGrow | .flexShrink | .order => .setOrCalc 0 1
  | .outlineColor => .set 3 1
  | .paddingTop | .paddingRight | .paddingBottom | .paddingLeft | .pauseAfter | .pauseBefore
  | .textIndent => .setOrCalc 0 2
  | .pageBreakAfter | .pageBreakBefore | .position | .whiteSpace | .alignItems => .keywords 5
  | .pitch => .setOrCalc 5 2
  | .playDuring => .playDuring
  | .quotes => .quotes
  | .speechRate => .setOrCalc 7 1
  | .textAlign | .alignContent => .keywords 7
  | .textDecoration => .keywords 16
  | .verticalAlign => .setOrCalc 8 2
  | .voiceFamily => .families 3
  | .volume => .numberOrDimension 6
  | .zIndex | .columnCount => .setOrCalc 1 1
  | .opacity | .fillOpacity | .strokeOpacity => .always 1
  | .breakAfter | .breakBefore => .keywords 9
  | .alignSelf | .justifyContent => .keywords 6
  | .flexBasis => .setOrCalc 2 2

/-- The loop over a list of values of a style: `width` says how many operands the item a word starts
    has, `stop` which word ends the list. `pending` operands come before the next such word. The result
    is the number of words read; there is none where an item is unknown or the bytecode ends. -/
def listLoop (stop : Nat → Bool) (width : Nat → Option Nat) (pending : Nat) : List Word → Option Nat
  | [] => none
  | word :: rest =>
    match pending with
    | pending + 1 => (listLoop stop width pending rest).map (· + 1)
    | 0 =>
      if stop word.toNat then some 1
      else (width word.toNat).bind (fun n => (listLoop stop width n rest).map (· + 1))

def listOperands (stop : Nat → Bool) (width : Nat → Option Nat) (value : Nat) (rest : List Word) : Option Nat :=
  if stop value then some 0 else (width value).bind (fun n => listLoop stop width n rest)

def words (n : Nat) (rest : List Word) : Option Nat := if n ≤ rest.length then some n else none

/-- The operands of an item of `content`, none for what `op_content` does not list. -/
def contentWidth (value : Nat) : Option Nat :=
  match value &&& 0xff with
  | 0x80 | 0x81 | 0x82 | 0x84 => some 1
  | 0x83 => some 2
  | 2 | 3 | 4 | 5 => some 0
  | _ => none

def familyWidth (generic value : Nat) : Option Nat :=
  if value = 0x80 ∨ value = 0x81 then some 1 else if value ≤ generic then some 0 else none

/-- The values that `opcodes.h` lists. -/
def Layout.isValue : Layout → Nat → Bool
  | .keywords count, value => value < count
  | .set count _, value => value < count || value = 0x80
  | .setOrCalc count _, value => value < count || value = 0x80 || value = valueIsCalc
  | .numberOrDimension count, value =>
    value < count || value = 0x80 || value = 0x81 || value = valueIsCalc
  | .always _, value => value = 0x80
  | .azimuth, value => value = 0x80 || value = 0x40 || value = 0x41 || value ≤ 8 || (0x20 ≤ value && value ≤ 0x28)
  | .backgroundPosition, value => [0x80, 0, 0x10, 0x20].contains (value &&& 0xf0) &&
      [8, 0, 1, 2].contains (value &&& 0x0f) && value < 0x100
  | .clip, value => value = 0 || (value &&& 0x87 = 0x80 && value < 0x100)
  | .content, value => value = 0 || value = 1 || (contentWidth value).isSome
  | .counters, value => value = 0 || value = 0x80
  | .cursor, value => value ≤ 0x10 || value = 0x80
  | .families generic, value => (familyWidth generic value).isSome
  | .quotes, value => value = 0 || value = 0x80
  | .playDuring, value => value = 0 || value = 1 || value = 0x80 || value = 0xc0 || value = 0xa0 || value = 0xe0

def Layout.operands : Layout → Nat → List Word → Option Nat
  | .keywords _, _, _ => some 0
  | .set _ operands, value, rest => if value = 0x80 then words operands rest else some 0
  | .setOrCalc _ operands, value, rest =>
    if value = 0x80 then words operands rest else if value = valueIsCalc then words 2 rest else some 0
  | .numberOrDimension _, value, rest =>
    if value = 0x80 then words 1 rest else if value = 0x81 then words 2 rest
    else if value = valueIsCalc then words 2 rest else some 0
  | .always operands, _, rest => words operands rest
  | .azimuth, value, rest => if value &&& 0x3fdf = 0x80 then words 2 rest else some 0
  | .backgroundPosition, value, rest =>
    words ((if value &&& 0xf0 = 0x80 then 2 else 0) + (if value &&& 0x0f = 8 then 2 else 0)) rest
  | .clip, value, rest =>
    if value &&& 0x87 = 0x80 then
      words ((if value &&& 0x08 = 0 then 2 else 0) + (if value &&& 0x10 = 0 then 2 else 0) +
        (if value &&& 0x20 = 0 then 2 else 0) + (if value &&& 0x40 = 0 then 2 else 0)) rest
    else some 0
  | .content, value, rest => if value = 1 then some 0 else listOperands (· = 0) contentWidth value rest
  | .counters, value, rest =>
    if value = 0x80 then listOperands (· = 0) (fun _ => some 2) value rest else some 0
  | .cursor, value, rest => listOperands (· ≠ 0x80) (fun _ => some 1) value rest
  | .families generic, value, rest => listOperands (· = 0) (familyWidth generic) value rest
  | .quotes, value, rest => listOperands (· = 0) (fun _ => some 2) value rest
  | .playDuring, value, rest => if value = 0x80 then words 1 rest else some 0

def cascadeOperands (opv : Word) (rest : List Word) : Option Nat :=
  (propertyOf opv).bind (fun p =>
    if hasFlagValue opv then some 0 else (layout p).operands (getValue opv).toNat rest)

/-- The dispatch of `cascade_style`, as the words it takes for opcodes; each step takes a word at least. -/
def cascadeWalk : Nat → List Word → Option (List Bool)
  | 0, bytecode => if bytecode = [] then some [] else none
  | fuel + 1, bytecode =>
    match bytecode with
    | [] => some []
    | opv :: rest => do
      let n ← cascadeOperands opv rest
      let marks ← cascadeWalk fuel (rest.drop n)
      return true :: List.replicate n false ++ marks

/-- The words of a style that `cascade_style` decodes as opcodes; none where it reads past the end. -/
def decoded (bytecode : List Word) : Option (List Bool) := cascadeWalk bytecode.length bytecode

/-- A property encoding: an OPV word and its operands. -/
structure Encoding where
  opv : Word
  operands : List Word
deriving DecidableEq

/-- The value is one the property has, and the cascade function reads exactly the operands. -/
def Encoding.WellFormed (e : Encoding) : Prop :=
  ∃ p, propertyOf e.opv = some p ∧
    (hasFlagValue e.opv = false → (layout p).isValue (getValue e.opv).toNat = true) ∧
    cascadeOperands e.opv e.operands = some e.operands.length

def bytecode (encodings : List Encoding) : List Word := encodings.flatMap (fun e => e.opv :: e.operands)


end Besra.Bytecode
