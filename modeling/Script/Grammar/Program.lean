import Script.Grammar.Statement

/-!
Reading whole programs. The parsers of one nesting level are built from those of the level below,
and the bytes of a text bound its levels, because every construct takes a token before it reads what
is inside and a hole is shorter than its literal.
-/
namespace Script

/-- The parsers for what is nested at most `n` levels deep. -/
def Nested.level : Nat → Nested
  | 0 => Nested.none
  | n + 1 => {
      expr := fun min s c => Parser.expr (level n) min s c
      value := fun min s c => Parser.value (level n) min s c
      statement := fun s c => Parser.statement (level n) s c }

namespace Parser

/-- Statements up to the end of the text. -/
def programWithin (nested : Nested) : Parser Program := do
  let start ← here
  let statements ←
    within .expectValue true (separated [.semicolon] .endOfText nested.statement)
  let last ← here
  return ⟨statements, ⟨0, max last.stop start.start⟩⟩

/-- A whole program. -/
def program : Parser Program := fun s c => programWithin (Nested.level (c.weight + 1)) s c

end Parser

namespace Program

/-- Reads a program from a cursor, and tells where the reading stopped. -/
def read (c : Cursor) : Outcome Program := Parser.program ⟨.expectValue, true⟩ c

/-- The answers of reading a program again and again, each time from where the last reading stopped.
-/
def readRepeatedly : Nat → Cursor → List (Except ParseError Program)
  | 0, _ => []
  | n + 1, c =>
    match read c with
    | .ok p rest => .ok p :: readRepeatedly n rest
    | .error e rest => .error e :: readRepeatedly n rest

/-- Parses a lexed text. Where the text has a lexical error, its tokens end there as if a new line
began, and of the two errors that may arise the one that begins first is the answer. -/
def ofLexed (l : Lexed) : Except ParseError Program :=
  match l.last with
  | .ok last =>
    match read (Cursor.start l.tokens last) with
    | .ok p _ => .ok p
    | .error e _ => .error e
  | .error lexical =>
    match read (Cursor.start l.tokens (Token.endAt lexical.span.start true)) with
    | .ok _ _ => .error lexical.toParseError
    | .error e _ =>
      if e.span.start < lexical.span.start then .error e else .error lexical.toParseError

/-- Parses a source text. -/
def parse (source : String) : Except ParseError Program := ofLexed (Lexed.ofString 0 source)

end Program

end Script
