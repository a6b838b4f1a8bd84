import Script.Source.Chars
import Script.Token.Kind

/-!
Number literals. A numeral is read in two steps: `run` takes the longest text that looks like a
number at all, and `classify` decides which of the four forms that text has, or none.
-/
namespace Script.Numeral

open Chars

def isDigitPart (c : Char) : Bool := isDigit c || c == '_'

def isHexPart (c : Char) : Bool :=
  isDigitPart c || ('a' ≤ c && c ≤ 'f') || ('A' ≤ c && c ≤ 'F')

def isBinPart (c : Char) : Bool := c == '0' || c == '1' || c == '_'

/-- The trailing letters and digits of a numeral, which only a malformed one or a hexadecimal or
binary one has. -/
def tail (cs : List Char) : List Char := cs.takeWhile isIdentPart

/-- The exponent of a numeral, with its sign and whatever letters follow. -/
def exponent : List Char → List Char
  | e :: cs =>
    if e == 'e' || e == 'E' then
      match cs with
      | s :: ds => if s == '+' || s == '-' then e :: s :: tail ds else e :: tail cs
      | [] => [e]
    else tail (e :: cs)
  | [] => []

/-- What follows the first point of a numeral. -/
def fraction (cs : List Char) : List Char :=
  cs.takeWhile isDigitPart ++ exponent (cs.dropWhile isDigitPart)

/-- The longest text at the front of `cs` that looks like a number, given that `cs` begins with a
digit or with a point and a digit. -/
def run (cs : List Char) : List Char :=
  match cs.takeWhile isDigitPart, cs.dropWhile isDigitPart with
  | whole, '.' :: rest => whole ++ '.' :: fraction rest
  | whole, rest => whole ++ exponent rest

/-- Whether a numeral begins here. -/
def begins : List Char → Bool
  | '.' :: c :: _ => isDigit c
  | c :: _ => isDigit c
  | [] => false

/-- A whole number without leading zeros. -/
def isPlainWhole (cs : List Char) : Bool :=
  cs == ['0'] || (cs != [] && cs.head? != some '0' && cs.all isDigit)

/-- The digits of an exponent after its optional sign: at least one, and nothing else. -/
def isExponentTail : List Char → Bool
  | '+' :: ds => ds != [] && ds.all isDigit
  | '-' :: ds => ds != [] && ds.all isDigit
  | ds => ds != [] && ds.all isDigit

/-- The part of a floating point numeral before its exponent; without a point it needs one. -/
def isMantissa (hasExponent : Bool) (cs : List Char) : Bool :=
  match cs.span (· != '.') with
  | ([], _ :: frac) => frac != [] && frac.all isDigit
  | (whole, _ :: frac) => isPlainWhole whole && frac.all isDigit
  | (whole, []) => hasExponent && isPlainWhole whole

def isFloat (cs : List Char) : Bool :=
  match cs.span (fun c => c != 'e' && c != 'E') with
  | (mantissa, _ :: exp) => isExponentTail exp && isMantissa true mantissa
  | (mantissa, []) => isMantissa false mantissa

/-- The form of a numeral, tried in the order binary, hexadecimal, floating point, whole. -/
def classify : List Char → Option NumberKind
  | '0' :: 'b' :: ds => if ds != [] && ds.all isBinPart then some .bin else none
  | '0' :: 'x' :: ds => if ds != [] && ds.all isHexPart then some .hex else none
  | cs =>
    if cs.any (fun c => c == '.' || c == 'e' || c == 'E') then
      if isFloat cs then some .float else none
    else if cs != [] && cs.all isDigitPart then some .int else none

end Script.Numeral
