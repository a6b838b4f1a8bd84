/-!
The six written forms of a string literal: how each begins and ends, whether it has holes, and which
escapes it knows. The scanner that finds the end of a literal, the decoder that takes it apart and
the printer that writes it back all follow this one description.
-/
namespace Script

inductive StringForm where
  | double
  | single
  | multiline
  | formatted
  | formattedTriple
  | formattedTick
deriving DecidableEq, Repr, Inhabited

namespace StringForm

/-- All forms, a longer opener before any that it begins with. -/
def all : List StringForm := [multiline, formattedTriple, formatted, formattedTick, single, double]

def opener : StringForm → List Char
  | double => ['"']
  | single => ['\'']
  | multiline => ['`', '`', '`']
  | formatted => ['f', '"']
  | formattedTriple => ['f', '"', '"', '"']
  | formattedTick => ['f', '`']

def closer : StringForm → List Char
  | double => ['"']
  | single => ['\'']
  | multiline => ['`', '`', '`']
  | formatted => ['"']
  | formattedTriple => ['"', '"', '"']
  | formattedTick => ['`']

/-- The form whose opener stands at the front of a text; the longest opener wins. -/
def opening? (cs : List Char) : Option StringForm :=
  all.find? (fun form => form.opener.isPrefixOf cs)

def hasHoles : StringForm → Bool
  | double | single => false
  | _ => true

def hasEscapes : StringForm → Bool
  | multiline => false
  | _ => true

/-- The character that a backslash and `c` stand for, in a form with escapes. -/
def unescape? (form : StringForm) : Char → Option Char
  | '"' => some '"'
  | '\\' => some '\\'
  | 'b' => some '\x08'
  | 'f' => some '\x0c'
  | 'n' => some '\n'
  | 'r' => some '\r'
  | 't' => some '\t'
  | 'v' => some '\x0b'
  | '\'' => some '\''
  | '`' => if form = formattedTick then some '`' else none
  | '$' => if form.hasHoles then some '$' else none
  | _ => none

/-- Whether `c` is the quote that a form escapes inside its text. -/
def isQuote (form : StringForm) (c : Char) : Bool :=
  match form with
  | double | formatted | formattedTriple => c == '"'
  | single => c == '\''
  | formattedTick => c == '`'
  | multiline => false

/-- How the text of a literal writes one character. Only the tick form keeps its line feeds. -/
def escapeChar (form : StringForm) (c : Char) : List Char :=
  if c = '\\' then ['\\', '\\']
  else if c = '\x08' then ['\\', 'b']
  else if c = '\x0c' then ['\\', 'f']
  else if c = '\n' && form != formattedTick then ['\\', 'n']
  else if c = '\r' then ['\\', 'r']
  else if c = '\t' then ['\\', 't']
  else if c = '\x0b' then ['\\', 'v']
  else if form.isQuote c then ['\\', c]
  else if c = '$' && form.hasHoles then ['\\', '$']
  else [c]

/-- The text of a literal of this form for the given characters. -/
def escape (form : StringForm) (cs : List Char) : List Char :=
  if form.hasEscapes then cs.flatMap form.escapeChar else cs

end StringForm

end Script
