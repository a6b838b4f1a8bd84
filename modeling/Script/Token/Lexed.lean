import Script.Token.Basic
import Script.Token.Lexeme

/-!
Lexed texts: the tokens of a text in order, and the one thing that comes last, which is the end
token or the first error. Any part of a source can be lexed alone; its tokens keep their positions
in the whole.
-/
namespace Script

open Chars

structure Lexed where
  tokens : List Token
  last : Except LexError Token

namespace Lexed

/-- Reads the lexemes of a text at byte position `pos`, with `newline` telling whether a line break
was seen since the last token. The first `skip` characters belong to the lexeme read before. -/
def scanFrom (skip pos : Nat) (newline : Bool) : List Char → Lexed
  | [] => ⟨[], .ok (Token.endAt pos newline)⟩
  | c :: cs =>
    match skip with
    | k + 1 => scanFrom k pos newline cs
    | 0 =>
      match Lexeme.scan holeLength c cs with
      | .error misfit =>
        ⟨[], .error ⟨misfit.fault, pos, pos + byteLength ((c :: cs).take misfit.length)⟩⟩
      | .ok (lexeme, n) =>
        let text := c :: cs.take n
        let stop := pos + byteLength text
        match lexeme with
        | .blank => scanFrom n stop (newline || text.contains '\n') cs
        | .token kind =>
          let rest := scanFrom n stop false cs
          ⟨⟨kind, String.ofList text, pos, newline⟩ :: rest.tokens, rest.last⟩

/-- A text that stands at byte position `base`. -/
def ofChars (base : Nat) (cs : List Char) : Lexed := scanFrom 0 base false cs

def ofString (base : Nat) (text : String) : Lexed := ofChars base text.toList

/-- The bytes from `start` to `stop` of a source. -/
def ofRange (source : String) (start stop : Nat) : Lexed :=
  ofChars start (slice start stop source.toList)

/-- The answers of a reader that hands out one token at a time. After the last of them, the end
token or an error, there are no more. -/
def steps (l : Lexed) : List (Except LexError Token) :=
  l.tokens.map .ok ++ [l.last]

/-- All tokens with the end token, unless the text has an error. -/
def result (l : Lexed) : Except LexError (List Token) :=
  match l.last with
  | .ok last => .ok (l.tokens ++ [last])
  | .error e => .error e

end Lexed

/-- The tokens of a source text, with the end token. -/
def tokenize (source : String) : Except LexError (List Token) :=
  (Lexed.ofString 0 source).result

def tokenizeRange (source : String) (start stop : Nat) : Except LexError (List Token) :=
  (Lexed.ofRange source start stop).result

end Script
