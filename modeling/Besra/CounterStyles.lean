import Besra.FormatListStyle

/-!
The counter styles of `libcss/src/select/format_list_style.c`, and what their labels say.

In a style that generates its indices all symbols have one length and are different, none starts with a minus sign, and
what the label is padded with is the symbol for zero (`Readable`), so a label gives back its indices (`label_inj`), and
these the value (`faithful_iff`), but for the least `int` in a numeric style.
-/
namespace Besra.CounterStyles
open Lwc FormatListStyle

def utf8 (text : String) : List UInt8 := text.toList.flatMap String.utf8EncodeChar

def decimalSymbols : List (List UInt8) := [
  '0', '1', '2', '3', '4', '5', '6', '7', '8', '9'].map String.utf8EncodeChar

def lcsDecimal : CounterStyle := { system := .numeric, symbols := decimalSymbols }

def georgianSymbols : List (List UInt8) := [
  'ჵ', 'ჰ', 'ჯ', 'ჴ', 'ხ', 'ჭ', 'წ', 'ძ', 'ც', 'ჩ', 'შ', 'ყ', 'ღ', 'ქ', 'ფ', 'ჳ', 'ტ', 'ს', 'რ',
  'ჟ', 'პ', 'ო', 'ჲ', 'ნ', 'მ', 'ლ', 'კ', 'ი', 'თ', 'ჱ', 'ზ', 'ვ', 'ე', 'დ', 'გ', 'ბ', 'ა'].map String.utf8EncodeChar

def georgianWeights : List Nat := [
  10000, 9000, 8000, 7000, 6000, 5000, 4000, 3000, 2000, 1000, 900, 800, 700, 600, 500, 400, 300,
  200, 100, 90, 80, 70, 60, 50, 40, 30, 20, 10, 9, 8, 7, 6, 5, 4, 3, 2, 1]

def lcsGeorgian : CounterStyle where
  system := .additive
  symbols := georgianSymbols
  fallback := some lcsDecimal
  weights := georgianWeights
  range := (1, 19999)

def upperArmenianSymbols : List (List UInt8) := [
  'Ք', 'Փ', 'Ւ', 'Ց', 'Ր', 'Տ', 'Վ', 'Ս', 'Ռ', 'Ջ', 'Պ', 'Չ', 'Ո', 'Շ', 'Ն', 'Յ', 'Մ', 'Ճ', 'Ղ',
  'Ձ', 'Հ', 'Կ', 'Ծ', 'Խ', 'Լ', 'Ի', 'Ժ', 'Թ', 'Ը', 'Է', 'Զ', 'Ե', 'Դ', 'Գ', 'Բ', 'Ա'].map String.utf8EncodeChar

def armenianWeights : List Nat := [
  9000, 8000, 7000, 6000, 5000, 4000, 3000, 2000, 1000, 900, 800, 700, 600, 500, 400, 300, 200,
  100, 90, 80, 70, 60, 50, 40, 30, 20, 10, 9, 8, 7, 6, 5, 4, 3, 2, 1]

def lcsUpperArmenian : CounterStyle where
  system := .additive
  symbols := upperArmenianSymbols
  fallback := some lcsDecimal
  weights := armenianWeights
  range := (1, 9999)

def lowerArmenianSymbols : List (List UInt8) := [
  'ք', 'փ', 'ւ', 'ց', 'ր', 'տ', 'վ', 'ս', 'ռ', 'ջ', 'պ', 'չ', 'ո', 'շ', 'ն', 'յ', 'մ', 'ճ', 'ղ',
  'ձ', 'հ', 'կ', 'ծ', 'խ', 'լ', 'ի', 'ժ', 'թ', 'ը', 'է', 'զ', 'ե', 'դ', 'գ', 'բ', 'ա'].map String.utf8EncodeChar

def lcsLowerArmenian : CounterStyle where
  system := .additive
  symbols := lowerArmenianSymbols
  fallback := some lcsDecimal
  weights := armenianWeights
  range := (1, 9999)

def lcsDecimalLeadingZero : CounterStyle := { system := .numeric, symbols := decimalSymbols, pad := (2, utf8 "0") }

def lowerGreekSymbols : List (List UInt8) := [
  'α', 'β', 'γ', 'δ', 'ε', 'ζ', 'η', 'θ', 'ι', 'κ', 'λ', 'μ', 'ν', 'ξ', 'ο', 'π', 'ρ', 'σ', 'τ',
  'υ', 'φ', 'χ', 'ψ', 'ω'].map String.utf8EncodeChar

def lcsLowerGreek : CounterStyle := { system := .alphabet, symbols := lowerGreekSymbols, fallback := some lcsDecimal }

def upperAlphaSymbols : List (List UInt8) := [
  'A', 'B', 'C', 'D', 'E', 'F', 'G', 'H', 'I', 'J', 'K', 'L', 'M', 'N', 'O', 'P', 'Q', 'R', 'S',
  'T', 'U', 'V', 'W', 'X', 'Y', 'Z'].map String.utf8EncodeChar

def lcsUpperAlpha : CounterStyle := { system := .alphabet, symbols := upperAlphaSymbols, fallback := some lcsDecimal }

def lowerAlphaSymbols : List (List UInt8) := [
  'a', 'b', 'c', 'd', 'e', 'f', 'g', 'h', 'i', 'j', 'k', 'l', 'm', 'n', 'o', 'p', 'q', 'r', 's',
  't', 'u', 'v', 'w', 'x', 'y', 'z'].map String.utf8EncodeChar

def lcsLowerAlpha : CounterStyle := { system := .alphabet, symbols := lowerAlphaSymbols, fallback := some lcsDecimal }

def upperRomanSymbols : List (List UInt8) := [
  'M', 'D', 'C', 'L', 'X', 'V', 'I'].map String.utf8EncodeChar

def romanWeights : List Nat := [
  1000, 500, 100, 50, 10, 5, 1]

def lcsUpperRoman : CounterStyle where
  system := .roman
  symbols := upperRomanSymbols
  fallback := some lcsDecimal
  weights := romanWeights
  range := (1, 3999)

def lowerRomanSymbols : List (List UInt8) := [
  'm', 'd', 'c', 'l', 'x', 'v', 'i'].map String.utf8EncodeChar

def lcsLowerRoman : CounterStyle where
  system := .roman
  symbols := lowerRomanSymbols
  fallback := some lcsDecimal
  weights := romanWeights
  range := (1, 3999)

def discSymbols : List (List UInt8) := [
  '•'].map String.utf8EncodeChar

def lcsDisc : CounterStyle := { system := .cyclic, symbols := discSymbols, suffix := some (utf8 " ") }

def circleSymbols : List (List UInt8) := [
  '○'].map String.utf8EncodeChar

def lcsCircle : CounterStyle := { system := .cyclic, symbols := circleSymbols, suffix := some (utf8 " ") }

def squareSymbols : List (List UInt8) := [
  '▪'].map String.utf8EncodeChar

def lcsSquare : CounterStyle := { system := .cyclic, symbols := squareSymbols, suffix := some (utf8 " ") }

def binarySymbols : List (List UInt8) := [
  '0', '1'].map String.utf8EncodeChar

def lcsBinary : CounterStyle := { system := .numeric, symbols := binarySymbols }

def octalSymbols : List (List UInt8) := [
  '0', '1', '2', '3', '4', '5', '6', '7'].map String.utf8EncodeChar

def lcsOctal : CounterStyle := { system := .numeric, symbols := octalSymbols }

def lowerHexadecimalSymbols : List (List UInt8) := [
  '0', '1', '2', '3', '4', '5', '6', '7', '8', '9', 'a', 'b', 'c', 'd', 'e', 'f'].map String.utf8EncodeChar

def lcsLowerHexadecimal : CounterStyle := { system := .numeric, symbols := lowerHexadecimalSymbols }

def upperHexadecimalSymbols : List (List UInt8) := [
  '0', '1', '2', '3', '4', '5', '6', '7', '8', '9', 'a', 'b', 'c', 'd', 'e', 'f'].map String.utf8EncodeChar

def lcsUpperHexadecimal : CounterStyle := { system := .numeric, symbols := upperHexadecimalSymbols }

def arabicIndicSymbols : List (List UInt8) := [
  '٠', '١', '٢', '٣', '٤', '٥', '٦', '٧', '٨', '٩'].map String.utf8EncodeChar

def lcsArabicIndic : CounterStyle := { system := .numeric, symbols := arabicIndicSymbols }

def bengaliSymbols : List (List UInt8) := [
  '০', '১', '২', '৩', '৪', '৫', '৬', '৭', '৮', '৯'].map String.utf8EncodeChar

def lcsBengali : CounterStyle := { system := .numeric, symbols := bengaliSymbols }

def cambodianSymbols : List (List UInt8) := [
  '០', '១', '២', '៣', '៤', '៥', '៦', '៧', '៨', '៩'].map String.utf8EncodeChar

def lcsCambodian : CounterStyle := { system := .numeric, symbols := cambodianSymbols }

def cjkDecimalSymbols : List (List UInt8) := [
  '〇', '一', '二', '三', '四', '五', '六', '七', '八', '九'].map String.utf8EncodeChar

def lcsCjkDecimal : CounterStyle := { system := .numeric, symbols := cjkDecimalSymbols, suffix := some (utf8 "、") }

def devanagariSymbols : List (List UInt8) := [
  '०', '१', '२', '३', '४', '५', '६', '७', '८', '९'].map String.utf8EncodeChar

def lcsDevanagari : CounterStyle := { system := .numeric, symbols := devanagariSymbols }

def gujaratiSymbols : List (List UInt8) := [
  '૦', '૧', '૨', '૩', '૪', '૫', '૬', '૭', '૮', '૯'].map String.utf8EncodeChar

def lcsGujarati : CounterStyle := { system := .numeric, symbols := gujaratiSymbols }

def gurmukhiSymbols : List (List UInt8) := [
  '੦', '੧', '੨', '੩', '੪', '੫', '੬', '੭', '੮', '੯'].map String.utf8EncodeChar

def lcsGurmukhi : CounterStyle := { system := .numeric, symbols := gurmukhiSymbols }

def hebrewSymbols : List (List UInt8) := [
  "י׳", "ט׳", "ח׳", "ז׳", "ו׳", "ה׳", "ד׳", "ג׳", "ב׳", "א׳", "ת", "ש", "ר", "ק", "צ", "פ", "ע",
  "ס", "נ", "מ", "ל", "כ", "יט", "יח", "יז", "טז", "טו", "י", "ט", "ח", "ז", "ו", "ה", "ד", "ג",
  "ב", "א"].map utf8

def hebrewWeights : List Nat := [
  10000, 9000, 8000, 7000, 6000, 5000, 4000, 3000, 2000, 1000, 400, 300, 200, 100, 90, 80, 70, 60,
  50, 40, 30, 20, 19, 18, 17, 16, 15, 10, 9, 8, 7, 6, 5, 4, 3, 2, 1]

def lcsHebrew : CounterStyle where
  system := .additive
  symbols := hebrewSymbols
  fallback := some lcsDecimal
  weights := hebrewWeights
  range := (1, 10999)

def kannadaSymbols : List (List UInt8) := [
  '೦', '೧', '೨', '೩', '೪', '೫', '೬', '೭', '೮', '೯'].map String.utf8EncodeChar

def lcsKannada : CounterStyle := { system := .numeric, symbols := kannadaSymbols }

def laoSymbols : List (List UInt8) := [
  '໐', '໑', '໒', '໓', '໔', '໕', '໖', '໗', '໘', '໙'].map String.utf8EncodeChar

def lcsLao : CounterStyle := { system := .numeric, symbols := laoSymbols }

def malayalamSymbols : List (List UInt8) := [
  '൦', '൧', '൨', '൩', '൪', '൫', '൬', '൭', '൮', '൯'].map String.utf8EncodeChar

def lcsMalayalam : CounterStyle := { system := .numeric, symbols := malayalamSymbols }

def mongolianSymbols : List (List UInt8) := [
  '᠐', '᠑', '᠒', '᠓', '᠔', '᠕', '᠖', '᠗', '᠘', '᠙'].map String.utf8EncodeChar

def lcsMongolian : CounterStyle := { system := .numeric, symbols := mongolianSymbols }

def myanmarSymbols : List (List UInt8) := [
  '၀', '၁', '၂', '၃', '၄', '၅', '၆', '၇', '၈', '၉'].map String.utf8EncodeChar

def lcsMyanmar : CounterStyle := { system := .numeric, symbols := myanmarSymbols }

def oriyaSymbols : List (List UInt8) := [
  '୦', '୧', '୨', '୩', '୪', '୫', '୬', '୭', '୮', '୯'].map String.utf8EncodeChar

def lcsOriya : CounterStyle := { system := .numeric, symbols := oriyaSymbols }

def persianSymbols : List (List UInt8) := [
  '۰', '۱', '۲', '۳', '۴', '۵', '۶', '۷', '۸', '۹'].map String.utf8EncodeChar

def lcsPersian : CounterStyle := { system := .numeric, symbols := persianSymbols }

def tamilSymbols : List (List UInt8) := [
  '௦', '௧', '௨', '௩', '௪', '௫', '௬', '௭', '௮', '௯'].map String.utf8EncodeChar

def lcsTamil : CounterStyle := { system := .numeric, symbols := tamilSymbols }

def teluguSymbols : List (List UInt8) := [
  '౦', '౧', '౨', '౩', '౪', '౫', '౬', '౭', '౮', '౯'].map String.utf8EncodeChar

def lcsTelugu : CounterStyle := { system := .numeric, symbols := teluguSymbols }

def thaiSymbols : List (List UInt8) := [
  '๐', '๑', '๒', '๓', '๔', '๕', '๖', '๗', '๘', '๙'].map String.utf8EncodeChar

def lcsThai : CounterStyle := { system := .numeric, symbols := thaiSymbols }

def tibetanSymbols : List (List UInt8) := [
  '༠', '༡', '༢', '༣', '༤', '༥', '༦', '༧', '༨', '༩'].map String.utf8EncodeChar

def lcsTibetan : CounterStyle := { system := .numeric, symbols := tibetanSymbols }

def cjkEarthlyBranchSymbols : List (List UInt8) := [
  '子', '丑', '寅', '卯', '辰', '巳', '午', '未', '申', '酉', '戌', '亥'].map String.utf8EncodeChar

def lcsCjkEarthlyBranch : CounterStyle where
  system := .alphabet
  symbols := cjkEarthlyBranchSymbols
  fallback := some lcsDecimal
  suffix := some (utf8 "、")

def cjkHeavenlyStemSymbols : List (List UInt8) := [
  '甲', '乙', '丙', '丁', '戊', '己', '庚', '辛', '壬', '癸'].map String.utf8EncodeChar

def lcsCjkHeavenlyStem : CounterStyle where
  system := .alphabet
  symbols := cjkHeavenlyStemSymbols
  fallback := some lcsDecimal
  suffix := some (utf8 "、")

def hiraganaSymbols : List (List UInt8) := [
  'あ', 'い', 'う', 'え', 'お', 'か', 'き', 'く', 'け', 'こ', 'さ', 'し', 'す', 'せ', 'そ', 'た', 'ち', 'つ', 'て',
  'と', 'な', 'に', 'ぬ', 'ね', 'の', 'は', 'ひ', 'ふ', 'へ', 'ほ', 'ま', 'み', 'む', 'め', 'も', 'や', 'ゆ', 'よ',
  'ら', 'り', 'る', 'れ', 'ろ', 'わ', 'ゐ', 'ゑ', 'を', 'ん'].map String.utf8EncodeChar

def lcsHiragana : CounterStyle where
  system := .alphabet
  symbols := hiraganaSymbols
  fallback := some lcsDecimal
  suffix := some (utf8 "、")

def hiraganaIrohaSymbols : List (List UInt8) := [
  'い', 'ろ', 'は', 'に', 'ほ', 'へ', 'と', 'ち', 'り', 'ぬ', 'る', 'を', 'わ', 'か', 'よ', 'た', 'れ', 'そ', 'つ',
  'ね', 'な', 'ら', 'む', 'う', 'ゐ', 'の', 'お', 'く', 'や', 'ま', 'け', 'ふ', 'こ', 'え', 'て', 'あ', 'さ', 'き',
  'ゆ', 'め', 'み', 'し', 'ゑ', 'ひ', 'も', 'せ', 'す'].map String.utf8EncodeChar

def lcsHiraganaIroha : CounterStyle where
  system := .alphabet
  symbols := hiraganaIrohaSymbols
  fallback := some lcsDecimal
  suffix := some (utf8 "、")

def katakanaSymbols : List (List UInt8) := [
  'ア', 'イ', 'ウ', 'エ', 'オ', 'カ', 'キ', 'ク', 'ケ', 'コ', 'サ', 'シ', 'ス', 'セ', 'ソ', 'タ', 'チ', 'ツ', 'テ',
  'ト', 'ナ', 'ニ', 'ヌ', 'ネ', 'ノ', 'ハ', 'ヒ', 'フ', 'ヘ', 'ホ', 'マ', 'ミ', 'ム', 'メ', 'モ', 'ヤ', 'ユ', 'ヨ',
  'ラ', 'リ', 'ル', 'レ', 'ロ', 'ワ', 'ヰ', 'ヱ', 'ヲ', 'ン'].map String.utf8EncodeChar

def lcsKatakana : CounterStyle where
  system := .alphabet
  symbols := katakanaSymbols
  fallback := some lcsDecimal
  suffix := some (utf8 "、")

def katakanaIrohaSymbols : List (List UInt8) := [
  'イ', 'ロ', 'ハ', 'ニ', 'ホ', 'ヘ', 'ト', 'チ', 'リ', 'ヌ', 'ル', 'ヲ', 'ワ', 'カ', 'ヨ', 'タ', 'レ', 'ソ', 'ツ',
  'ネ', 'ナ', 'ラ', 'ム', 'ウ', 'ヰ', 'ノ', 'オ', 'ク', 'ヤ', 'マ', 'ケ', 'フ', 'コ', 'エ', 'テ', 'ア', 'サ', 'キ',
  'ユ', 'メ', 'ミ', 'シ', 'ヱ', 'ヒ', 'モ', 'セ', 'ス'].map String.utf8EncodeChar

def lcsKatakanaIroha : CounterStyle where
  system := .alphabet
  symbols := katakanaIrohaSymbols
  fallback := some lcsDecimal
  suffix := some (utf8 "、")

def japaneseInformalSymbols : List (List UInt8) := [
  "九千", "八千", "七千", "六千", "五千", "四千", "三千", "二千", "千", "九百", "八百", "七百", "六百", "五百", "四百", "三百",
  "二百", "百", "九十", "八十", "七十", "六十", "五十", "四十", "三十", "二十", "十", "九", "八", "七", "六", "五", "四",
  "三", "二", "一", "〇"].map utf8

def complexCounterWeights : List Nat := [
  9000, 8000, 7000, 6000, 5000, 4000, 3000, 2000, 1000, 900, 800, 700, 600, 500, 400, 300, 200,
  100, 90, 80, 70, 60, 50, 40, 30, 20, 10, 9, 8, 7, 6, 5, 4, 3, 2, 1, 0]

def lcsJapaneseInformal : CounterStyle where
  system := .additive
  symbols := japaneseInformalSymbols
  fallback := some lcsCjkDecimal
  weights := complexCounterWeights
  range := (-9999, 9999)
  negativePre := some (utf8 "マイナス")
  suffix := some (utf8 "、")

def japaneseFormalSymbols : List (List UInt8) := [
  "九阡", "八阡", "七阡", "六阡", "伍阡", "四阡", "参阡", "弐阡", "壱阡", "九百", "八百", "七百", "六百", "伍百", "四百", "参百",
  "弐百", "壱百", "九拾", "八拾", "七拾", "六拾", "伍拾", "四拾", "参拾", "弐拾", "壱拾", "九", "八", "七", "六", "伍", "四",
  "参", "弐", "壱", "零"].map utf8

def lcsJapaneseFormal : CounterStyle where
  system := .additive
  symbols := japaneseFormalSymbols
  fallback := some lcsCjkDecimal
  weights := complexCounterWeights
  range := (-9999, 9999)
  negativePre := some (utf8 "マイナス")
  suffix := some (utf8 "、")

def koreanHangulFormalSymbols : List (List UInt8) := [
  "구천", "팔천", "칠천", "육천", "오천", "사천", "삼천", "이천", "일천", "구백", "팔백", "칠백", "육백", "오백", "사백", "삼백",
  "이백", "일백", "구십", "팔십", "칠십", "육십", "오십", "사십", "삼십", "이십", "일십", "구", "팔", "칠", "육", "오", "사",
  "삼", "이", "일", "영"].map utf8

def lcsKoreanHangulFormal : CounterStyle where
  system := .additive
  symbols := koreanHangulFormalSymbols
  fallback := some lcsCjkDecimal
  weights := complexCounterWeights
  range := (-9999, 9999)
  negativePre := some (utf8 "마이너스 ")
  suffix := some (utf8 ", ")

def koreanHanjaInformalSymbols : List (List UInt8) := [
  "九千", "八千", "七千", "六千", "五千", "四千", "三千", "二千", "千", "九百", "八百", "七百", "六百", "五百", "四百", "三百",
  "二百", "百", "九十", "八十", "七十", "六十", "五十", "四十", "三十", "二十", "十", "九", "八", "七", "六", "五", "四",
  "三", "二", "一", "零"].map utf8

def lcsKoreanHanjaInformal : CounterStyle where
  system := .additive
  symbols := koreanHanjaInformalSymbols
  fallback := some lcsCjkDecimal
  weights := complexCounterWeights
  range := (-9999, 9999)
  negativePre := some (utf8 "마이너스 ")
  suffix := some (utf8 ", ")

def koreanHanjaFormalSymbols : List (List UInt8) := [
  "九仟", "八仟", "七仟", "六仟", "五仟", "四仟", "參仟", "貳仟", "壹仟", "九百", "八百", "七百", "六百", "五百", "四百", "參百",
  "貳百", "壹百", "九拾", "八拾", "七拾", "六拾", "五拾", "四拾", "參拾", "貳拾", "壹拾", "九", "八", "七", "六", "五", "四",
  "參", "貳", "壹", "零"].map utf8

def lcsKoreanHanjaFormal : CounterStyle where
  system := .additive
  symbols := koreanHanjaFormalSymbols
  fallback := some lcsCjkDecimal
  weights := complexCounterWeights
  range := (-9999, 9999)
  negativePre := some (utf8 "마이너스 ")
  suffix := some (utf8 ", ")

/-- `css_list_style_type_e` -/
inductive ListStyleType where
  | inheritType
  | disc
  | circle
  | square
  | decimal
  | decimalLeadingZero
  | lowerRoman
  | upperRoman
  | lowerGreek
  | lowerLatin
  | upperLatin
  | armenian
  | georgian
  | lowerAlpha
  | upperAlpha
  | noStyle
  | binary
  | octal
  | lowerHexadecimal
  | upperHexadecimal
  | arabicIndic
  | lowerArmenian
  | upperArmenian
  | bengali
  | cambodian
  | khmer
  | cjkDecimal
  | devanagari
  | gujarati
  | gurmukhi
  | hebrew
  | kannada
  | lao
  | malayalam
  | mongolian
  | myanmar
  | oriya
  | persian
  | tamil
  | telugu
  | thai
  | tibetan
  | cjkEarthlyBranch
  | cjkHeavenlyStem
  | hiagana
  | hiaganaIroha
  | katakana
  | katakanaIroha
  | japaneseInformal
  | japaneseFormal
  | koreanHangulFormal
  | koreanHanjaInformal
  | koreanHanjaFormal
deriving DecidableEq

def counterStyleFromComputedStyle : ListStyleType → Option CounterStyle
  | .inheritType => none
  | .disc => some lcsDisc
  | .circle => some lcsCircle
  | .square => some lcsSquare
  | .decimal => some lcsDecimal
  | .decimalLeadingZero => some lcsDecimalLeadingZero
  | .lowerRoman => some lcsLowerRoman
  | .upperRoman => some lcsUpperRoman
  | .lowerGreek => some lcsLowerGreek
  | .lowerLatin => some lcsLowerAlpha
  | .upperLatin => some lcsUpperAlpha
  | .armenian => some lcsUpperArmenian
  | .georgian => some lcsGeorgian
  | .lowerAlpha => some lcsLowerAlpha
  | .upperAlpha => some lcsUpperAlpha
  | .noStyle => none
  | .binary => some lcsBinary
  | .octal => some lcsOctal
  | .lowerHexadecimal => some lcsLowerHexadecimal
  | .upperHexadecimal => some lcsUpperHexadecimal
  | .arabicIndic => some lcsArabicIndic
  | .lowerArmenian => some lcsLowerArmenian
  | .upperArmenian => some lcsUpperArmenian
  | .bengali => some lcsBengali
  | .cambodian => some lcsCambodian
  | .khmer => some lcsCambodian
  | .cjkDecimal => some lcsCjkDecimal
  | .devanagari => some lcsDevanagari
  | .gujarati => some lcsGujarati
  | .gurmukhi => some lcsGurmukhi
  | .hebrew => some lcsHebrew
  | .kannada => some lcsKannada
  | .lao => some lcsLao
  | .malayalam => some lcsMalayalam
  | .mongolian => some lcsMongolian
  | .myanmar => some lcsMyanmar
  | .oriya => some lcsOriya
  | .persian => some lcsPersian
  | .tamil => some lcsTamil
  | .telugu => some lcsTelugu
  | .thai => some lcsThai
  | .tibetan => some lcsTibetan
  | .cjkEarthlyBranch => some lcsCjkEarthlyBranch
  | .cjkHeavenlyStem => some lcsCjkHeavenlyStem
  | .hiagana => some lcsHiragana
  | .hiaganaIroha => some lcsHiraganaIroha
  | .katakana => some lcsKatakana
  | .katakanaIroha => some lcsKatakanaIroha
  | .japaneseInformal => some lcsJapaneseInformal
  | .japaneseFormal => some lcsJapaneseFormal
  | .koreanHangulFormal => some lcsKoreanHangulFormal
  | .koreanHanjaInformal => some lcsKoreanHanjaInformal
  | .koreanHanjaFormal => some lcsKoreanHanjaFormal

/-- `css_computed_format_list_style`, for the type of the style: the buffer, and the length where it succeeds; `memory`
is what `aval` holds at first. -/
def cssComputedFormatListStyle (type : ListStyleType) (value : Int32) (memory : List UInt8) (buffer : Nat → UInt8)
    (bufferLength : Nat) : Option Out :=
  (choose value ((counterStyleFromComputedStyle type).elim [] CounterStyle.chain) (start memory)).map
    fun (style, nval) => nvalToSymbols nval style buffer bufferLength

def number (symbol : List UInt8) : Nat := symbol.foldl (fun n c => n * 256 + c.toNat) 0

/-- A style whose symbols have one length and are told apart by their bytes, the sign too. -/
structure Readable (style : CounterStyle) : Prop where
  two : 2 ≤ style.items
  byte : style.items ≤ 256
  width : ∀ symbol ∈ style.symbols, symbol.length = (style.symbol 0).length
  nodup : (style.symbols.map number).Nodup
  sign : ∀ symbol ∈ style.symbols, symbol ≠ [] ∧ symbol.head? ≠ some (ch '-')
  pad : style.pad.1 = 0 ∨ (style.system = .numeric ∧ style.pad.2 = style.symbol 0)
  plain : style.prefixText = none ∧ style.negativePre = none ∧ style.negativePost = none

instance (style : CounterStyle) : Decidable (Readable style) :=
  decidable_of_iff
    (2 ≤ style.items ∧ style.items ≤ 256 ∧ (∀ symbol ∈ style.symbols, symbol.length = (style.symbol 0).length) ∧
      (style.symbols.map number).Nodup ∧ (∀ symbol ∈ style.symbols, symbol ≠ [] ∧ symbol.head? ≠ some (ch '-')) ∧
      (style.pad.1 = 0 ∨ (style.system = .numeric ∧ style.pad.2 = style.symbol 0)) ∧
      style.prefixText = none ∧ style.negativePre = none ∧ style.negativePost = none)
    ⟨fun ⟨two, byte, width, nodup, sign, pad, plain⟩ => ⟨two, byte, width, nodup, sign, pad, plain⟩,
      fun readable => ⟨readable.two, readable.byte, readable.width, readable.nodup, readable.sign, readable.pad,
        readable.plain⟩⟩

variable {type : ListStyleType} {style : CounterStyle} {nval nval' : Numeric} {value : Int32} {memory : List UInt8}

theorem readable_of_listed (listed : counterStyleFromComputedStyle type = some style)
    (kind : style.system = .numeric ∨ style.system = .alphabet) : Readable style := by
  have all : ∀ style ∈ counterStyleFromComputedStyle type,
      style.system = .numeric ∨ style.system = .alphabet → Readable style := by
    cases type <;> decide
  exact all style listed kind

def padded (style : CounterStyle) (nval : Numeric) : List Nat :=
  List.replicate (style.pad.1 - nval.used) 0 ++ nval.indices

def body (style : CounterStyle) (indices : List Nat) : List UInt8 :=
  indices.flatMap fun index => style.symbols.getD index []

theorem Readable.symbol_mem {index : Nat} (less : index < style.items) :
    style.symbols.getD index [] ∈ style.symbols := by
  rw [List.getD_eq_getElem _ _ less]
  exact List.getElem_mem less

theorem Readable.symbol_inj (readable : Readable style) {first second : Nat} (here : first < style.items)
    (there : second < style.items) (same : style.symbols.getD first [] = style.symbols.getD second []) :
    first = second := by
  rw [List.getD_eq_getElem _ _ here, List.getD_eq_getElem _ _ there] at same
  exact (List.Nodup.getElem_inj_iff (List.Nodup.of_map number readable.nodup)).mp same

theorem Readable.body_inj (readable : Readable style) {first second : List Nat}
    (here : ∀ index ∈ first, index < style.items) (there : ∀ index ∈ second, index < style.items)
    (same : body style first = body style second) : first = second := by
  have some : ∀ index < style.items, ∀ rest, style.symbols.getD index [] ++ rest ≠ [] := by
    intro index less rest empty
    exact (readable.sign _ (Readable.symbol_mem less)).1 (List.append_eq_nil_iff.mp empty).1
  induction first generalizing second with
  | nil =>
    cases second with
    | nil => rfl
    | cons index second => exact absurd same.symm (some index (there index List.mem_cons_self) _)
  | cons index first ih =>
    cases second with
    | nil => exact absurd same (some index (here index List.mem_cons_self) _)
    | cons index' second =>
      obtain ⟨less, here⟩ := List.forall_mem_cons.mp here
      obtain ⟨less', there⟩ := List.forall_mem_cons.mp there
      have width : (style.symbols.getD index []).length = (style.symbols.getD index' []).length :=
        (readable.width _ (Readable.symbol_mem less)).trans (readable.width _ (Readable.symbol_mem less')).symm
      obtain ⟨symbol, rest⟩ := List.append_inj same width
      rw [readable.symbol_inj less less' symbol, ih here there rest]

theorem Readable.body_head (readable : Readable style) {indices : List Nat}
    (bound : ∀ index ∈ indices, index < style.items) : (body style indices).head? ≠ some (ch '-') := by
  cases indices with
  | nil => simp [body]
  | cons index indices =>
    have less := bound index List.mem_cons_self
    obtain ⟨some, sign⟩ := readable.sign _ (Readable.symbol_mem less)
    rw [body, List.flatMap_cons, List.head?_append_of_ne_nil _ some]
    exact sign

theorem Readable.label_eq (readable : Readable style) (nval : Numeric) :
    label style nval = (if nval.negative then lit "-" else []) ++ body style (padded style nval) ++
      style.suffix.getD (lit ".") := by
  obtain ⟨before, pre, post⟩ := readable.plain
  have symbols : (nval.val.take nval.used).flatMap style.symbol = body style nval.indices := by
    rw [body, Numeric.indices, List.flatMap_map]
    rfl
  have pads : (List.replicate (style.pad.1 - nval.used) style.pad.2).flatten =
      body style (List.replicate (style.pad.1 - nval.used) 0) := by
    rcases readable.pad with none | ⟨-, zero⟩
    · rw [none, Nat.zero_sub]
      rfl
    · rw [zero, body, List.flatMap_replicate]
      rfl
  rw [label, before, pre, post, symbols, pads, padded]
  simp [body]

theorem Readable.label_inj (readable : Readable style) (bound : ∀ index ∈ nval.indices, index < style.items)
    (bound' : ∀ index ∈ nval'.indices, index < style.items) (same : label style nval = label style nval') :
    nval.negative = nval'.negative ∧ padded style nval = padded style nval' := by
  have all : ∀ nval : Numeric, (∀ index ∈ nval.indices, index < style.items) →
      ∀ index ∈ padded style nval, index < style.items := by
    intro nval bound index member
    rcases List.mem_append.mp member with pad | own
    · rw [(List.mem_replicate.mp pad).2]
      exact lt_of_lt_of_le Nat.two_pos readable.two
    · exact bound index own
  have here := all nval bound
  have there := all nval' bound'
  rw [readable.label_eq, readable.label_eq] at same
  have signed := List.append_cancel_right same
  cases sign : nval.negative <;> cases sign' : nval'.negative <;> rw [sign, sign'] at signed
  · exact ⟨rfl, readable.body_inj here there signed⟩
  · exact absurd (congrArg List.head? signed) (readable.body_head here)
  · exact absurd (congrArg List.head? signed).symm (readable.body_head there)
  · exact ⟨rfl, readable.body_inj here there (List.append_cancel_left signed)⟩

def System.offset : System → Nat
  | .alphabet => 1
  | _ => 0

/-- The indices read as digits of base `items`, in the alphabetic system as the digits from one on, with the sign. -/
def decoded (style : CounterStyle) (nval : Numeric) : Int :=
  let magnitude : Nat := decode (System.offset style.system) style.items nval.indices
  if nval.negative then -magnitude else magnitude

/-- What the loop over the fallbacks ends with for a type of list style. -/
def Made (type : ListStyleType) (value : Int32) (memory : List UInt8) (style : CounterStyle) (nval : Numeric) : Prop :=
  choose value ((counterStyleFromComputedStyle type).elim [] CounterStyle.chain) (start memory) = some (style, nval)

/-- Whenever the style is the one that succeeds: its indices say the value, no other value has the same label in it, and
the length is that of the label, of which the buffer gets what it has room for. -/
structure Faithful (style : CounterStyle) (value : Int32) : Prop where
  decodes : ∀ {type memory nval}, Made type value memory style nval → decoded style nval = value.toInt
  apart : ∀ {type memory nval}, Made type value memory style nval →
    ∀ {other type' memory' nval'}, Made type' other memory' style nval' → other ≠ value →
      label style nval' ≠ label style nval
  length : ∀ {type memory nval}, Made type value memory style nval → ∀ buffer bufferLength,
    ∃ out, cssComputedFormatListStyle type value memory buffer bufferLength = some out ∧
      out.oidx = (label style nval).length ∧
      ∀ i, out.buf i = if i < (label style nval).length ∧ i < bufferLength then (label style nval).getD i 0 else buffer i

theorem reads_of_made (readable : Readable style) (kind : style.system = .numeric ∨ style.system = .alphabet)
    (made : Made type value memory style nval) (above : style.system = .alphabet ∨ value ≠ Int32.minValue) :
    Reads (System.offset style.system) style.items value nval := by
  obtain ⟨before, computed, positive, room⟩ := choose_made (fun _ => rfl) made
  unfold CounterStyle.calc at computed
  rcases kind with system | system
  · rw [system] at computed above ⊢
    have above' := above.resolve_left (by decide)
    exact calcNumericSystem_reads readable.two readable.byte above' positive computed room
  · rw [system] at computed ⊢
    exact calcAlphabetSystem_reads readable.two readable.byte computed room

theorem decode_zeros (items count : Nat) (indices : List Nat) :
    decode 0 items (List.replicate count 0 ++ indices) = decode 0 items indices := by
  induction count with
  | zero => rfl
  | succ count ih =>
    rw [← ih, List.replicate_succ, List.cons_append, decode, decode, List.foldl_cons, Nat.zero_mul]

theorem Readable.decode_padded (readable : Readable style) (nval : Numeric) :
    decode (System.offset style.system) style.items (padded style nval) =
      decode (System.offset style.system) style.items nval.indices := by
  rcases readable.pad with none | ⟨system, -⟩
  · rw [padded, none, Nat.zero_sub]
    rfl
  · rw [system]
    exact decode_zeros _ _ _

theorem toInt_of_reads {offset items : Nat} (read : Reads offset items value nval) :
    (if nval.negative then -(decode offset items nval.indices : Int) else decode offset items nval.indices) =
      value.toInt := by
  have below : value < 0 ↔ value.toInt < 0 := Int32.lt_iff_toInt_lt
  rw [read.magnitude, read.sign]
  by_cases negative : value < 0
  · have less := below.mp negative
    rw [if_pos (decide_eq_true negative)]
    omega
  · have least := mt below.mpr negative
    rw [if_neg (by simpa using negative)]
    omega

theorem chain_eq (style : CounterStyle) : ∃ fallbacks, style.chain = style :: fallbacks := by
  obtain ⟨system, _ | fallback, symbols, weights, range, pad, pre, post, prefixText, suffix⟩ := style
  · exact ⟨_, rfl⟩
  · exact ⟨_, rfl⟩

theorem made_minValue {type : ListStyleType} {style : CounterStyle}
    (listed : counterStyleFromComputedStyle type = some style) (system : style.system = .numeric)
    {memory : List UInt8} (some : 0 < memory.length) :
    ∃ nval, Made type Int32.minValue memory style nval ∧ nval.used = 0 ∧ nval.negative = true := by
  obtain ⟨nval, computed, used, negative, length⟩ := calcNumericSystem_minValue style (start memory)
  obtain ⟨fallbacks, chain⟩ := chain_eq style
  have room : nval.used < nval.val.length := by
    rw [used, length]
    exact some
  refine ⟨nval, ?_, used, negative⟩
  rw [Made, listed, Option.elim_some, chain, choose, CounterStyle.calc, system]
  simp only [computed, if_pos room]

theorem label_apart (readable : Readable style) (kind : style.system = .numeric ∨ style.system = .alphabet)
    {type' : ListStyleType} {other : Int32} {memory' : List UInt8} (made : Made type value memory style nval)
    (made' : Made type' other memory' style nval') (above : style.system = .alphabet ∨ value ≠ Int32.minValue)
    (same : label style nval' = label style nval) : other = value := by
  have read := reads_of_made readable kind made above
  by_cases above' : style.system = .alphabet ∨ other ≠ Int32.minValue
  · have read' := reads_of_made readable kind made' above'
    obtain ⟨sign, indices⟩ := readable.label_inj read'.bound read.bound same
    have magnitude := congrArg (decode (System.offset style.system) style.items) indices
    rw [readable.decode_padded, readable.decode_padded] at magnitude
    refine Int32.toInt_inj.mp ?_
    rw [← toInt_of_reads read, ← toInt_of_reads read', sign, magnitude]
  · obtain ⟨alphabet, least⟩ := not_or.mp above'
    have system := kind.resolve_right alphabet
    obtain ⟨before, computed, -, -⟩ := choose_made (fun _ => rfl) made'
    obtain ⟨least', computed', used, negative, -⟩ := calcNumericSystem_minValue style before
    rw [CounterStyle.calc, system, not_not.mp least] at computed
    obtain rfl := Option.some.inj (computed.symm.trans computed')
    have none : nval'.indices = [] := by
      rw [Numeric.indices, used]
      rfl
    obtain ⟨sign, indices⟩ := readable.label_inj (by simp [none]) read.bound same
    have magnitude := congrArg (decode (System.offset style.system) style.items) indices
    rw [readable.decode_padded, readable.decode_padded, none, read.magnitude] at magnitude
    have zero : value.toInt = 0 := Int.natAbs_eq_zero.mp magnitude.symm
    rw [negative, read.sign] at sign
    have below := Int32.lt_iff_toInt_lt.mp (of_decide_eq_true sign.symm)
    rw [zero] at below
    exact absurd below (by decide)

theorem faithful_iff {type : ListStyleType} {style : CounterStyle}
    (listed : counterStyleFromComputedStyle type = some style)
    (kind : style.system = .numeric ∨ style.system = .alphabet) (value : Int32) :
    Faithful style value ↔ style.system = .alphabet ∨ value ≠ Int32.minValue := by
  have readable := readable_of_listed listed kind
  constructor
  · intro faithful
    by_contra least
    obtain ⟨alphabet, least⟩ := not_or.mp least
    obtain ⟨nval, made, used, negative⟩ :=
      @made_minValue type style listed (kind.resolve_right alphabet) [0] Nat.one_pos
    rw [← not_not.mp least] at made
    have decodes := faithful.decodes made
    have none : nval.indices = [] := by
      rw [Numeric.indices, used]
      rfl
    rw [decoded, none, negative, not_not.mp least] at decodes
    have zero : (0 : Int) = Int32.minValue.toInt := decodes
    exact absurd zero (by decide)
  · intro above
    refine ⟨fun made => ?_, fun made other _ _ _ made' different same => ?_, fun made buffer bufferLength => ?_⟩
    · exact toInt_of_reads (reads_of_made readable kind made above)
    · exact different (label_apart readable kind made made' above same)
    · refine ⟨nvalToSymbols _ style buffer bufferLength, congrArg (Option.map _) made, ?_, fun i => ?_⟩
      · rw [nvalToSymbols_copy, (copy_spec bufferLength ⟨buffer, 0⟩ (label style _)).1]
        exact Nat.zero_add _
      · rw [nvalToSymbols_copy, (copy_spec bufferLength ⟨buffer, 0⟩ (label style _)).2]
        simp only [Nat.zero_le, true_and, Nat.zero_add, Nat.sub_zero]

/-- In decimal the least `int` has the label `-.`, which has no digit. -/
theorem minValue_label :
    (∃ nval, Made .decimal Int32.minValue (List.replicate 20 0) lcsDecimal nval ∧
      label lcsDecimal nval = utf8 "-." ∧ decoded lcsDecimal nval = 0) ∧ ¬Faithful lcsDecimal Int32.minValue := by
  obtain ⟨nval, made, used, negative⟩ := @made_minValue .decimal lcsDecimal rfl rfl (List.replicate 20 0) (by decide)
  refine ⟨⟨nval, made, ?_, ?_⟩, fun faithful => ?_⟩
  · rw [label, used, negative, List.take_zero]
    decide
  · rw [decoded, negative, Numeric.indices, used]
    rfl
  · have either := (@faithful_iff .decimal lcsDecimal rfl (.inl rfl) Int32.minValue).mp faithful
    exact either.elim (by decide) fun above => above rfl

theorem lowerAlpha_octal_faithful : Faithful lcsLowerAlpha 27 ∧ Faithful lcsOctal (-8) :=
  ⟨(@faithful_iff .lowerAlpha lcsLowerAlpha rfl (.inr rfl) 27).mpr (.inl rfl),
    (@faithful_iff .octal lcsOctal rfl (.inl rfl) (-8)).mpr (.inr (by decide))⟩

end Besra.CounterStyles
