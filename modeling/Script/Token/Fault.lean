import Script.Source.Span

/-!
What can be wrong with a text below the level of tokens: the cause, and the bytes that it concerns.
-/
namespace Script

inductive LexFault where
  | unrecognizedCharacter
  | unterminatedString
  | unterminatedComment
  | malformedNumber
  | invalidEscape (c : Char)
  | malformedInterpolation
deriving DecidableEq, Repr, Inhabited

def LexFault.message : LexFault → String
  | unrecognizedCharacter => "unrecognized character"
  | unterminatedString => "unterminated string literal"
  | unterminatedComment => "unterminated block comment"
  | malformedNumber => "malformed number literal"
  | invalidEscape c => "invalid escape sequence '\\" ++ String.singleton c ++ "'"
  | malformedInterpolation => "malformed interpolation: expected a name or '\x7b' after '$'"

structure LexError where
  fault : LexFault
  span : Span
deriving DecidableEq, Repr, Inhabited

end Script
