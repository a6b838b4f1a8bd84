import Script.Token.Keyword
import Script.Token.Lexeme

/-!
Words and chunks. A word is what a token says, its kind and its text, apart from where it stands. A
chunk is a word with the blanks before it, so a list of chunks is a text that has yet to be placed.
-/
namespace Script

/-- The text of the kinds that have only one. -/
def TokenKind.symbolText? : TokenKind → Option String
  | openParen => some "("
  | closeParen => some ")"
  | openBrace => some "\x7b"
  | closeBrace => some "\x7d"
  | openBracket => some "["
  | closeBracket => some "]"
  | comma => some ","
  | semicolon => some ";"
  | colon => some ":"
  | dot => some "."
  | assign => some "="
  | eq => some "=="
  | ne => some "!="
  | lt => some "<"
  | le => some "<="
  | gt => some ">"
  | ge => some ">="
  | plus => some "+"
  | minus => some "-"
  | star => some "*"
  | slash => some "/"
  | bang => some "!"
  | arrow => some "->"
  | _ => none

structure Word where
  kind : TokenKind
  text : String
deriving DecidableEq, Repr

namespace Word

def symbol (kind : TokenKind) : Word := ⟨kind, kind.symbolText?.getD ""⟩

def keyword (k : Keyword) : Word := ⟨.ident, k.text⟩

/-- Commas and semicolons only separate. -/
def isSeparator (w : Word) : Bool := w.kind == .comma || w.kind == .semicolon

end Word

def TokenKind.isOpener : TokenKind → Bool
  | openParen | openBrace | openBracket => true
  | _ => false

namespace Token

def word (t : Token) : Word := ⟨t.kind, t.text⟩

/-- The words of some tokens, without the separators. -/
def words (ts : List Token) : List Word := (ts.map word).filter (!·.isSeparator)

/-- Every separator stands right after something that it separates: a token that is neither a
separator nor an opening bracket. -/
def Separated (ts : List Token) : Prop :=
  ∀ us t vs, ts = us ++ t :: vs → t.word.isSeparator = true →
    ∃ u ∈ us.getLast?, u.word.isSeparator = false ∧ u.kind.isOpener = false

end Token

structure Chunk where
  gap : List Char
  word : Word
deriving DecidableEq, Repr

namespace Chunk

def symbol (gap : List Char) (kind : TokenKind) : Chunk := ⟨gap, .symbol kind⟩

def keyword (gap : List Char) (k : Keyword) : Chunk := ⟨gap, .keyword k⟩

/-- A line feed and the margin of a line at this level. -/
def lineGap (indent : Nat) : List Char := '\n' :: List.replicate (2 * indent) ' '

/-- The text of a list of chunks. -/
def spell : List Chunk → List Char
  | [] => []
  | ch :: chs => ch.gap ++ (ch.word.text.toList ++ spell chs)

/-- The tokens of a list of chunks whose text stands at byte position `pos`. -/
def place (pos : Nat) : List Chunk → List Token
  | [] => []
  | ch :: chs =>
    let start := pos + Chars.byteLength ch.gap
    ⟨ch.word.kind, ch.word.text, start, ch.gap.contains '\n'⟩ ::
      place (start + ch.word.text.utf8ByteSize) chs

/-- The words of a list of chunks, without the separators. -/
def words (chs : List Chunk) : List Word := (chs.map Chunk.word).filter (!·.isSeparator)

/-- Items with a comma and a blank between them, the first right after what stands before. -/
def commaSeparated {α : Type} (item : List Char → α → List Chunk) : List α → List Chunk
  | [] => []
  | a :: as => item [] a ++ as.flatMap fun b => symbol [] .comma :: item [' '] b

end Chunk

end Script
