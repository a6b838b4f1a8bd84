import Script.Bytes.Decoder
import Script.Grammar.Expression

/-!
What a parser does with byte positions. It cuts the text of a token out of the source, reads a
string literal by the ranges of its holes, which are lexed once more, and makes spans of where it
stands.
-/
namespace Script

variable {α : Type}

/-- Reads a lexed text with one parser, up to its end. -/
def Lexed.readWhole (l : Lexed) (p : Parser α) : Except ParseError α :=
  match l.last with
  | .error e => .error e.toParseError
  | .ok last =>
    let whole : Parser α := do
      let a ← p
      let _ ← Parser.token .endOfText
      return a
    match whole ⟨.expectValue, true⟩ (Cursor.start l.tokens last) with
    | .ok a _ => .ok a
    | .error e _ => .error e

namespace Bytes

def textOf (source : List Char) (t : Token) : Checked (List Char) := slice t.start t.stop source

def spanFrom (c : Cursor) (start : Nat) : Checked Span := span start (max c.lastStop start)

/-- The span of a program between two tokens, which begins where the source does. -/
def programSpan (first last : Token) : Checked Span := span 0 (max last.stop first.start)

def inHole (source : List Char) (h : HoleRange) (p : Parser α) : Checked (Except ParseError α) := do
  let lexed ← lexRange source h.inner.start h.inner.stop
  return lexed.readWhole p

def hole (nested : Nested) (source : List Char) (h : HoleRange) :
    Checked (Except ParseError StringPart) :=
  match h.kind with
  | .name => (StringPart.nameHole <$> ·) <$> inHole source h Parser.name
  | .expr =>
    (StringPart.exprHole <$> ·) <$>
      inHole source h (Parser.within .expectValue false (nested.value .group))

/-- The parts of a literal up to the first that cannot be read. -/
def stringParts (nested : Nested) (source : List Char) :
    List Part → Checked (Except ParseError (List StringPart))
  | [] => return .ok []
  | .text s :: parts => do
    let more ← stringParts nested source parts
    return (.text s :: ·) <$> more
  | .hole h :: parts => do
    match ← hole nested source h with
    | .error e => return .error e
    | .ok part => do
      let more ← stringParts nested source parts
      return (part :: ·) <$> more

/-- The literal that a string token stands for. -/
def literalOf (nested : Nested) (source : List Char) (t : Token) :
    Checked (Except ParseError StringLiteral) := do
  let text ← textOf source t
  match ← decode text t.start with
  | .error e => return .error e.inLiteral
  | .ok decoded => do
    let parts ← stringParts nested source decoded.parts
    return (StringLiteral.mk decoded.form · t.span) <$> parts

end Bytes

end Script
