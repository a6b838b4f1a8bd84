/-!
The kinds of token. Keywords are no kinds of their own: they are identifiers whose text is looked
at where a keyword may stand.
-/
namespace Script

inductive NumberKind where
  | int
  | bin
  | hex
  | float
deriving DecidableEq, Repr, Inhabited

def NumberKind.name : NumberKind → String
  | .int => "Int"
  | .bin => "Bin"
  | .hex => "Hex"
  | .float => "Float"

/-- The kinds of token. No token has the kind `blockComment`, which only names the comment opener.
-/
inductive TokenKind where
  | openParen | closeParen | openBrace | closeBrace | openBracket | closeBracket
  | comma | semicolon | colon | dot
  | assign | eq | ne | lt | le | gt | ge
  | plus | minus | star | slash | bang | arrow
  | number (kind : NumberKind)
  | plainString | rawString | formattedString
  | ident
  | blockComment
  | endOfText
deriving DecidableEq, Repr, Inhabited

namespace TokenKind

def isString : TokenKind → Bool
  | plainString | rawString | formattedString => true
  | _ => false

/-- The name under which a listing shows a kind. -/
def name : TokenKind → String
  | openParen => "LParen"
  | closeParen => "RParen"
  | openBrace => "LBrace"
  | closeBrace => "RBrace"
  | openBracket => "LBracket"
  | closeBracket => "RBracket"
  | comma => "Comma"
  | semicolon => "Semicolon"
  | colon => "Colon"
  | dot => "Dot"
  | assign => "Assign"
  | eq => "EqEq"
  | ne => "Ne"
  | lt => "Lt"
  | le => "Le"
  | gt => "Gt"
  | ge => "Ge"
  | plus => "Plus"
  | minus => "Minus"
  | star => "Star"
  | slash => "Slash"
  | bang => "Bang"
  | arrow => "Arrow"
  | number kind => "Number(" ++ kind.name ++ ")"
  | plainString => "Str"
  | rawString => "MStr"
  | formattedString => "FStr"
  | ident => "Ident"
  | blockComment => "BlockComment"
  | endOfText => "Eof"

/-- How a message speaks of a kind. -/
def describe : TokenKind → String
  | openParen => "'('"
  | closeParen => "')'"
  | openBrace => "'\x7b'"
  | closeBrace => "'\x7d'"
  | openBracket => "'['"
  | closeBracket => "']'"
  | comma => "','"
  | semicolon => "';'"
  | colon => "':'"
  | dot => "'.'"
  | assign => "'='"
  | eq => "'=='"
  | ne => "'!='"
  | lt => "'<'"
  | le => "'<='"
  | gt => "'>'"
  | ge => "'>='"
  | plus => "'+'"
  | minus => "'-'"
  | star => "'*'"
  | slash => "'/'"
  | bang => "'!'"
  | arrow => "'->'"
  | number .int => "integer"
  | number .bin => "binary integer"
  | number .hex => "hex integer"
  | number .float => "float"
  | plainString => "string"
  | rawString => "multi-line string"
  | formattedString => "formatted string"
  | ident => "identifier"
  | blockComment => "'/*'"
  | endOfText => "end of file"

end TokenKind

end Script
