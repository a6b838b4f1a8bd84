import Script.Source.Visible
import Script.Token.Lexed

/-!
The listing of a token stream: one line for each token, with its bytes, a mark where a new line
begins, its kind, and its text in quotes.
-/
namespace Script.Listing

/-- The text with blanks in front up to a width. -/
def padLeft (width : Nat) (s : String) : String :=
  String.ofList (List.replicate (width - s.length) ' ') ++ s

/-- The text with blanks behind up to a width. -/
def padRight (width : Nat) (s : String) : String :=
  s ++ String.ofList (List.replicate (width - s.length) ' ')

/-- A code point in braces, in hexadecimal digits. -/
def escapeCode (c : Char) : List Char :=
  ['\\', 'u', '{'] ++ Nat.toDigits 16 c.toNat ++ ['}']

/-- How a quoted text shows one character. -/
def quoteChar (c : Char) : List Char :=
  if c = '"' then ['\\', '"']
  else if c = '\\' then ['\\', '\\']
  else if c = '\n' then ['\\', 'n']
  else if c = '\r' then ['\\', 'r']
  else if c = '\t' then ['\\', 't']
  else if c = '\x00' then ['\\', '0']
  else if Visible.isVisible c then [c]
  else escapeCode c

def quote (s : String) : String :=
  "\"" ++ String.ofList (s.toList.flatMap quoteChar) ++ "\""

def line (t : Token) : String :=
  padLeft 5 (toString t.start) ++ ".." ++ padRight 5 (toString t.stop) ++ " " ++
    (if t.newlineBefore then "⏎" else " ") ++ " " ++ padRight 16 t.kind.name ++ " " ++ quote t.text

/-- The lines of the tokens before the end or the first error, and of the end token if it is
reached. -/
def lines (l : Lexed) : List String :=
  match l.last with
  | .ok last => (l.tokens ++ [last]).map line
  | .error _ => l.tokens.map line

end Script.Listing
