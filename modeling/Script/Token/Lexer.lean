import Script.Token.Lexed

/-!
A reader that hands out the tokens of a text one at a time. It reads no further than it is asked to,
and after the end token or an error it has nothing more to give.
-/
namespace Script

open Chars

structure Lexer where
  /-- The position of what is left of the text. -/
  position : Nat
  rest : List Char
  /-- Whether the end token or an error was handed out. -/
  done : Bool
deriving Repr

namespace Lexer

/-- Reads on to the next token, the end or an error, from byte position `pos` and with `newline`
telling whether a line break was seen since the last token. The first `skip` characters belong to
the lexeme read before. -/
def readFrom (skip pos : Nat) (newline : Bool) : List Char → Except LexError Token × Lexer
  | [] => (.ok (Token.endAt pos newline), ⟨pos, [], true⟩)
  | c :: cs =>
    match skip with
    | k + 1 => readFrom k pos newline cs
    | 0 =>
      match Lexeme.scan holeLength c cs with
      | .error misfit =>
        (.error ⟨misfit.fault, pos, pos + byteLength ((c :: cs).take misfit.length)⟩,
          ⟨pos, c :: cs, true⟩)
      | .ok (lexeme, n) =>
        let text := c :: cs.take n
        let stop := pos + byteLength text
        match lexeme with
        | .blank => readFrom n stop (newline || text.contains '\n') cs
        | .token kind =>
          (.ok ⟨kind, String.ofList text, pos, newline⟩, ⟨stop, cs.drop n, false⟩)

/-- The next answer, if there is one, and the reader after it. -/
def next (l : Lexer) : Option (Except LexError Token) × Lexer :=
  if l.done then (none, l)
  else
    let (answer, after) := readFrom 0 l.position false l.rest
    (some answer, after)

/-- The answers of the first `calls` calls. -/
def answers : Nat → Lexer → List (Option (Except LexError Token))
  | 0, _ => []
  | calls + 1, l => l.next.1 :: answers calls l.next.2

/-- A reader of the bytes from `start` to `stop` of a source. -/
def ofRange (source : String) (start stop : Nat) : Lexer :=
  ⟨start, slice start stop source.toList, false⟩

/-- A reader of a source from a position on. -/
def atOffset (source : String) (start : Nat) : Lexer := ofRange source start source.utf8ByteSize

def ofString (source : String) : Lexer := atOffset source 0

end Lexer

end Script
