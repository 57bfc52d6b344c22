import XPath.Decimal.Binary
import XPath.Text.Blank

/-!
# Reading numbers

A numeral is an optional sign, digits with at most one point and at least one digit, and an optional
exponent; it denotes the nearest double. `inf`, `infinity` and `nan` are read in any case.

The text of an `xs:double` is trimmed first and has its own words: `INF`, `+INF`, `-INF` and `NaN`.
The bare words of the numeral grammar are refused there.
-/

namespace XPath.Decimal

open Power XPath.Text

/-- The double nearest to `m * 10 ^ e`. Numbers far outside the range are settled first, so that no
huge power of ten is ever computed. -/
def nearest (m : Nat) (e : Int) : Float :=
  if m = 0 then 0.0
  else
    let size := (natDigits m).length + e
    if 400 < size then infinity
    else if size < -400 then 0.0
    else if 0 ≤ e then ofRatio (m * 10 ^ e.toNat) 1
    else ofRatio m (10 ^ (-e).toNat)

/-- The exponent part of a numeral; the empty text is the exponent zero. -/
def readExponent? : List Char → Option Int
  | [] => some 0
  | c :: cs => if c = 'e' || c = 'E' then readInt? cs else none

/-- A numeral without its sign. -/
def readMagnitude? (cs : List Char) : Option Float :=
  let whole := cs.takeWhile isDigit
  let rest := cs.dropWhile isDigit
  let fraction := match rest with
    | '.' :: tail => tail.takeWhile isDigit
    | _ => []
  let rest := match rest with
    | '.' :: tail => tail.dropWhile isDigit
    | _ => rest
  if whole.isEmpty && fraction.isEmpty then none
  else
    (readExponent? rest).map fun e =>
      nearest (digitsValue (whole ++ fraction)) (e - fraction.length)

def lowerCase (cs : List Char) : List Char :=
  cs.map Char.toLower

/-- A number or one of the words for what is not finite, without a sign. -/
def readUnsigned? (cs : List Char) : Option Float :=
  let word := lowerCase cs
  if word = ['i', 'n', 'f'] || word = ['i', 'n', 'f', 'i', 'n', 'i', 't', 'y'] then some infinity
  else if word = ['n', 'a', 'n'] then some nan
  else readMagnitude? cs

def readNumber? : List Char → Option Float
  | '-' :: cs => (readUnsigned? cs).map Float.neg
  | '+' :: cs => readUnsigned? cs
  | cs => readUnsigned? cs

/-- Reads the text of an `xs:double`. -/
def readDouble? (s : String) : Option Float :=
  let cs := trimChars s.toList
  let word := lowerCase cs
  if cs = ['I', 'N', 'F'] || cs = ['+', 'I', 'N', 'F'] then some infinity
  else if cs = ['-', 'I', 'N', 'F'] then some (Float.neg infinity)
  else if cs = ['N', 'a', 'N'] then some nan
  else if word = ['i', 'n', 'f'] || word = ['i', 'n', 'f', 'i', 'n', 'i', 't', 'y'] ||
      word = ['n', 'a', 'n'] then none
  else readNumber? cs

end XPath.Decimal
