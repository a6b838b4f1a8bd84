import Script.Bytes.Lexer
import Script.Token.Pieces

/-!
The decoder on bytes. It cuts the body out of a literal and answers with the ranges of the holes,
which it works out from byte positions in the body.
-/
namespace Script.Bytes

open Chars (byteLength)

/-- A hole that is still unread: the range of its text, and its own range. -/
structure HoleRange where
  kind : HoleKind
  inner : Span
  span : Span
deriving DecidableEq, Repr

inductive Part where
  | text (s : String)
  | hole (h : HoleRange)
deriving DecidableEq, Repr

/-- A literal taken apart, with its holes as ranges of the source. -/
structure DecodedRanges where
  form : StringForm
  parts : List Part
deriving DecidableEq, Repr

def isNameStart (b : UInt8) : Bool :=
  ('a'.toUInt8 ≤ b && b ≤ 'z'.toUInt8) || ('A'.toUInt8 ≤ b && b ≤ 'Z'.toUInt8) ||
    b == '_'.toUInt8 || b == '$'.toUInt8

def isNamePart (b : UInt8) : Bool :=
  isNameStart b || ('0'.toUInt8 ≤ b && b ≤ '9'.toUInt8)

/-- The number of bytes of a name after its first. -/
def nameRest : List UInt8 → Nat
  | [] => 0
  | b :: bs =>
    if isNamePart b then nameRest bs + 1
    else if b == '.'.toUInt8 && (bs.head?.map isNameStart).getD false then nameRest bs + 1
    else 0

/-- The number of bytes of the name at the front of a text, which may begin with a point, or 0. -/
def nameLength (bs : List UInt8) : Nat :=
  let first := if bs.head? = some '.'.toUInt8 then 1 else 0
  let rest := bs.drop first
  if (rest.head?.map isNameStart).getD false then first + nameRest rest else 0

/-- The body of a literal, which stands at byte position `base` of the source. -/
structure Decoder where
  form : StringForm
  body : List Char
  base : Nat

namespace Decoder

variable (d : Decoder) (measure : Measure)

def range (start stop : Nat) : Checked Span := span (d.base + start) (d.base + stop)

def fail {α : Type} (fault : LexFault) (start stop : Nat) : Checked (Except LexError α) := do
  let range ← d.range start stop
  return .error ⟨fault, range⟩

/-- The hole whose dollar sign stands at a byte position of the body. -/
def hole (dollar : Nat) : Checked (Except LexError HoleRange) := do
  let rest ← sliceFrom (dollar + 1) d.body
  if rest.head? = some '{' then
    let text ← sliceFrom 1 rest
    match ← measure text with
    | .error fault => d.fail fault dollar (dollar + 1)
    | .ok n =>
      let stop ← sub (dollar + 2 + n) 1
      let inner ← d.range (dollar + 2) stop
      let whole ← d.range dollar (stop + 1)
      return .ok ⟨.expr, inner, whole⟩
  else
    let n := nameLength (ofChars rest)
    if n = 0 then d.fail .malformedInterpolation dollar (dollar + 1)
    else
      let inner ← d.range (dollar + 1) (dollar + 1 + n)
      let whole ← d.range dollar (dollar + 1 + n)
      return .ok ⟨.name, inner, whole⟩

/-- The part for a run of characters, given in reverse; an empty run has none. -/
def ofRun (run : List Char) : List Part :=
  if run.isEmpty then [] else [.text (String.ofList run.reverse)]

/-- The parts of the body from byte position `i` on. What stands before position `consumed` belongs
to the last hole, and `run` is the reverse of the characters since. -/
def parts (run : List Char) (consumed i : Nat) : List Char → Checked (Except LexError (List Part))
  | [] => return .ok (ofRun run)
  | c :: cs =>
    if i < consumed then parts run consumed (i + c.utf8Size) cs
    else if c = '\\' && d.form.hasEscapes then
      match cs with
      | [] => d.fail .unterminatedString i (i + 1)
      | e :: rest =>
        match d.form.unescape? e with
        | some x => parts (x :: run) consumed (i + c.utf8Size + e.utf8Size) rest
        | none => d.fail (.invalidEscape e) i (i + 1 + e.utf8Size)
    else if c = '$' && d.form.hasHoles then do
      match ← d.hole measure i with
      | .error e => return .error e
      | .ok h =>
        let consumed ← sub h.span.stop d.base
        let rest ← parts [] consumed (i + c.utf8Size) cs
        return (fun more => ofRun run ++ .hole h :: more) <$> rest
    else parts (c :: run) consumed (i + c.utf8Size) cs

end Decoder

/-- Takes the literal `text` at byte position `start` apart. -/
def decode (text : List Char) (start : Nat) : Checked (Except LexError DecodedRanges) := do
  let form := (StringForm.opening? text).getD .double
  let stop ← sub (byteLength text) (byteLength form.closer)
  let body ← slice (byteLength form.opener) stop text
  let decoder : Decoder := ⟨form, body, start + byteLength form.opener⟩
  let parts ← decoder.parts (holeWithin body.length) [] 0 0 body
  return (DecodedRanges.mk form ·) <$> parts

end Script.Bytes
