import Script.Token.Keyword
import Script.Token.Fault

/-!
Why a text is no program. An error is a cause and the span that it concerns; the cause holds no
position, so that two texts which differ in layout alone fail for equal causes.
-/
namespace Script

/-- What was expected where another token stood. -/
inductive Expected where
  | token (kind : TokenKind)
  | keyword (word : Keyword)
  | expression
  | typeName
  | binding
  | caseBody
  /-- The end of an item of a list: a separator, the closing token or a line break. -/
  | itemEnd (separators : List TokenKind) (close : TokenKind)
deriving DecidableEq, Repr

def Expected.text : Expected → String
  | token kind => kind.describe
  | keyword word => "'" ++ word.text ++ "'"
  | expression => "expression"
  | typeName => "type"
  | binding => "'var' or 'let'"
  | caseBody => "'->' or '\x7b'"
  | itemEnd separators close =>
    ", ".intercalate ((separators ++ [close]).map TokenKind.describe) ++ " or a line break"

inductive ParseFault where
  | lexical (fault : LexFault)
  | unexpectedToken (expected : Expected) (found : String)
  | malformedInterpolation
  | invalidPairKey
  | invalidTransition
  | invalidAssignTarget
  | invalidNodeEntry
  | ambiguousBrace
  /-- The bound on the steps of a reading was too small. -/
  | outOfSteps
deriving DecidableEq, Repr

def ParseFault.message : ParseFault → String
  | lexical fault => fault.message
  | unexpectedToken expected found =>
    "unexpected token: expected " ++ expected.text ++ ", found " ++ found
  | malformedInterpolation => "malformed interpolation: expected a name or '\x7b' after '$'"
  | invalidPairKey => "invalid pair key: expected a name or a string"
  | invalidTransition => "invalid transition: both sides of '->' must be names"
  | invalidAssignTarget => "invalid assignment target: only a name can be assigned"
  | invalidNodeEntry => "invalid node entry: expected a 'key: value' pair or an 'if'"
  | ambiguousBrace =>
    "ambiguous '\x7b': a block is expected here; wrap an object literal in parentheses"
  | outOfSteps => "the text is nested too deeply"

/-- The ways in which a reading can fail, by kind. -/
inductive ErrorCategory where
  | lexical
  | syntactic
  | ambiguity
deriving DecidableEq, Repr

def ParseFault.category : ParseFault → ErrorCategory
  | lexical _ => .lexical
  | ambiguousBrace => .ambiguity
  | _ => .syntactic

structure ParseError where
  fault : ParseFault
  span : Span
deriving DecidableEq, Repr

def LexError.toParseError (e : LexError) : ParseError := ⟨.lexical e.fault, e.span⟩

/-- An error from taking a string literal apart. A dollar sign that begins no hole is an error of
syntax, all others are lexical. -/
def LexError.inLiteral (e : LexError) : ParseError :=
  match e.fault with
  | .malformedInterpolation => ⟨.malformedInterpolation, e.span⟩
  | fault => ⟨.lexical fault, e.span⟩

end Script
