import Mathlib.Computability.Language
import Script.Token.Numeral

/-!
The patterns of numerals, as languages over characters. Two loose patterns tell how far a numeral
goes. Four strict ones, of which no two share a text, tell what kind of number it is.
-/
namespace Script.Numeral

open Chars
open scoped Computability

/-- The texts of one character out of a class. -/
def oneOf (p : Char → Bool) : Language Char := {w | ∃ c, w = [c] ∧ p c = true}

/-- The one text `w`. -/
def exactly (w : List Char) : Language Char := {v | v = w}

/-- A part that may be left out. -/
def optional (l : Language Char) : Language Char := 1 + l

/-- One text of `l` or several, one after the other. -/
def repeated (l : Language Char) : Language Char := l * l∗

def isExponentSign (c : Char) : Bool := c == 'e' || c == 'E'

def isSign (c : Char) : Bool := c == '+' || c == '-'

def isLeadingDigit (c : Char) : Bool := '1' ≤ c && c ≤ '9'

/-- The pattern `[eE][+-]?[0-9_]*`. -/
def looseExponent : Language Char :=
  oneOf isExponentSign * optional (oneOf isSign) * (oneOf isDigitPart)∗

/-- The pattern `[0-9][0-9_]*(\.[0-9_]*)?([eE][+-]?[0-9_]*)?[a-zA-Z0-9_$]*`. -/
def fromDigit : Language Char :=
  oneOf isDigit * (oneOf isDigitPart)∗ * optional (exactly ['.'] * (oneOf isDigitPart)∗) *
    optional looseExponent * (oneOf isIdentPart)∗

/-- The pattern `\.[0-9][0-9_]*([eE][+-]?[0-9_]*)?[a-zA-Z0-9_$]*`. -/
def fromPoint : Language Char :=
  exactly ['.'] * oneOf isDigit * (oneOf isDigitPart)∗ * optional looseExponent *
    (oneOf isIdentPart)∗

/-- Whatever looks like a number. -/
def loose : Language Char := fromDigit + fromPoint

/-- The pattern `0|[1-9][0-9]*`. -/
def plainWhole : Language Char :=
  exactly ['0'] + oneOf isLeadingDigit * (oneOf isDigit)∗

/-- The pattern `[eE][+-]?[0-9]+`. -/
def strictExponent : Language Char :=
  oneOf isExponentSign * optional (oneOf isSign) * repeated (oneOf isDigit)

/-- The texts of the numbers of a kind. A floating point number has digits before its point, or else
after it, or it has an exponent and no point. -/
def form : NumberKind → Language Char
  | .bin => exactly ['0', 'b'] * repeated (oneOf isBinPart)
  | .hex => exactly ['0', 'x'] * repeated (oneOf isHexPart)
  | .float =>
    plainWhole * exactly ['.'] * (oneOf isDigit)∗ * optional strictExponent +
      exactly ['.'] * repeated (oneOf isDigit) * optional strictExponent +
      plainWhole * strictExponent
  | .int => oneOf isDigit * (oneOf isDigitPart)∗

/-- The longest text of a language at the front of `cs`. -/
structure LongestIn (l : Language Char) (cs r : List Char) : Prop where
  mem : r ∈ l
  front : r <+: cs
  longest : ∀ w ∈ l, w <+: cs → w.length ≤ r.length

end Script.Numeral
