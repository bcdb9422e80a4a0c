import GzLang.Text.Blank
import GzLang.Text.CodeRun

/-!
# Decimal digits and integer literals

Unicode has many rows of ten decimal digits; a literal may mix them. Characters such as
superscripts and circled numbers are digits without a decimal value: a text of digits alone can
therefore still fail to denote an integer (`readInt`).
-/

namespace GzLang.Text

/-- The code points of the zeros of all rows of decimal digits. -/
def decimalZeros : List Nat := [
  48, 1632, 1776, 1984, 2406, 2534, 2662, 2790, 2918, 3046, 3174, 3302, 3430, 3558, 3664, 3792,
  3872, 4160, 4240, 6112, 6160, 6470, 6608, 6784, 6800, 6992, 7088, 7232, 7248, 42528, 43216,
  43264, 43472, 43504, 43600, 44016, 65296, 66720, 68912, 69734, 69872, 69942, 70096, 70384,
  70736, 70864, 71248, 71360, 71472, 71904, 72016, 72784, 73040, 73120, 92768, 92864, 93008,
  120782, 120792, 120802, 120812, 120822, 123200, 123632, 125264, 130032]

def otherDigitRuns : List Nat := [
  50, 2, 5, 1, 4783, 9, 1640, 1, 1685, 1, 3, 6, 6, 10, 982, 9, 11, 9, 11, 9, 89, 1, 10, 9, 1, 1,
  630, 9, 1, 9, 1, 9, 58029, 4, 1052, 9, 489, 9, 57509, 11]

def decimalValue? (c : Char) : Option Nat :=
  let n := c.toNat
  (decimalZeros.find? fun z => z ≤ n && n < z + 10).map (n - ·)

def isDecimal (c : Char) : Bool :=
  (decimalValue? c).isSome

/-- A digit in the wide sense: decimal digits, superscripts, circled numbers and their like. -/
def isDigit (c : Char) : Bool :=
  isDecimal c || inRuns otherDigitRuns c

def allDigits (s : List Char) : Bool :=
  !s.isEmpty && s.all isDigit

inductive LiteralError where
  /-- The text is not of the form sign, digits, single underscores between digits. -/
  | malformed
  /-- The text has more digits than an integer literal may have. -/
  | tooLong (digits : Nat)
  deriving DecidableEq, Repr

def maxLiteralDigits : Nat := 4300

/-- The digit values of a run of digits and underscores, if the underscores are single and stand
between digits. `afterDigit` says whether the character before was a digit. -/
def literalDigits? (afterDigit : Bool) : List Char → Option (List Nat)
  | [] => if afterDigit then some [] else none
  | c :: s =>
    match decimalValue? c with
    | some d => (literalDigits? true s).map (d :: ·)
    | none => if afterDigit then literalDigits? false s else none

def ofDigits (ds : List Nat) : Nat :=
  ds.foldl (fun n d => 10 * n + d) 0

def isLiteralChar (c : Char) : Bool :=
  isDecimal c || c = '_'

/-- The integer a text denotes: blanks around it are ignored, a sign may stand in front. The
number of digits is checked before the text after them. -/
def readInt (s : List Char) : Except LiteralError Int :=
  let t := trim s
  let (negative, body) :=
    match t with
    | '-' :: r => (true, r)
    | '+' :: r => (false, r)
    | r => (false, r)
  match literalDigits? false (body.takeWhile isLiteralChar) with
  | none => .error .malformed
  | some ds =>
    if ds.length > maxLiteralDigits then .error (.tooLong ds.length)
    else if !(body.dropWhile isLiteralChar).isEmpty then .error .malformed
    else .ok (if negative then -(ofDigits ds : Int) else ofDigits ds)

end GzLang.Text
