import Script.Token.Fault
import Script.Token.Lexeme
import Script.Token.StringForm

/-!
The pieces of a string literal: runs of text with their escapes resolved, and holes that are still
unread. A hole keeps its own text together with the position of its dollar sign, which is all that
reading it later needs.
-/
namespace Script

open Chars

inductive HoleKind where
  | name
  | expr
deriving DecidableEq, Repr, Inhabited

/-- A hole that is not yet read: `$name`, or `${…}` with the text between the braces. -/
structure RawHole where
  kind : HoleKind
  text : String
  dollar : Nat
deriving DecidableEq, Repr, Inhabited

namespace RawHole

/-- The position of the text of a hole. -/
def start (h : RawHole) : Nat :=
  match h.kind with
  | .name => h.dollar + 1
  | .expr => h.dollar + 2

/-- The span of the text of a hole, without dollar sign and braces. -/
def inner (h : RawHole) : Span := ⟨h.start, h.start + h.text.utf8ByteSize⟩

/-- The span of the whole hole. -/
def span (h : RawHole) : Span :=
  match h.kind with
  | .name => ⟨h.dollar, h.inner.stop⟩
  | .expr => ⟨h.dollar, h.inner.stop + 1⟩

/-- The number of characters of a name after its first: letters and digits, and points that another
segment follows. -/
def nameRest : List Char → Nat
  | [] => 0
  | c :: cs =>
    if isIdentPart c then nameRest cs + 1
    else if c = '.' && (cs.head?.map isIdentStart).getD false then nameRest cs + 1
    else 0

/-- The number of characters of a dotted name at the front of a text, or 0 if there is none. -/
def pathLength (cs : List Char) : Nat :=
  if (cs.head?.map isIdentStart).getD false then nameRest cs else 0

/-- The same for a name that may begin with a point. -/
def nameLength : List Char → Nat
  | '.' :: cs => if pathLength cs = 0 then 0 else pathLength cs + 1
  | cs => pathLength cs

/-- Reads the hole whose dollar sign stands at `dollar`, given the text after that sign, and tells
how many characters of that text it takes. -/
def read (dollar : Nat) (cs : List Char) : Except LexError (RawHole × Nat) :=
  match cs with
  | '{' :: body =>
    match holeLength body with
    | .ok n => .ok (⟨.expr, String.ofList (body.take (n - 1)), dollar⟩, n + 1)
    | .error fault => .error ⟨fault, dollar, dollar + 1⟩
  | _ =>
    if nameLength cs = 0 then .error ⟨.malformedInterpolation, dollar, dollar + 1⟩
    else .ok (⟨.name, String.ofList (cs.take (nameLength cs)), dollar⟩, nameLength cs)

end RawHole

/-- One piece of a literal. -/
inductive Piece where
  | text (s : String)
  | hole (h : RawHole)
deriving DecidableEq, Repr

namespace Piece

/-- The smallest part of a literal's body: a character, escaped or not, or a hole. -/
inductive Atom where
  | char (c : Char)
  | hole (h : RawHole)
deriving DecidableEq, Repr

/-- The atoms of the body of a literal at byte position `pos`. The first `skip` characters belong to
the hole read before. -/
def atoms (form : StringForm) (skip pos : Nat) : List Char → Except LexError (List Atom)
  | [] => .ok []
  | c :: cs =>
    match skip with
    | k + 1 => atoms form k (pos + c.utf8Size) cs
    | 0 =>
      if c = '\\' && form.hasEscapes then
        match cs with
        | [] => .error ⟨.unterminatedString, pos, pos + 1⟩
        | e :: rest =>
          match form.unescape? e with
          | some d => (.char d :: ·) <$> atoms form 0 (pos + 1 + e.utf8Size) rest
          | none => .error ⟨.invalidEscape e, pos, pos + 1 + e.utf8Size⟩
      else if c = '$' && form.hasHoles then
        match RawHole.read pos cs with
        | .error e => .error e
        | .ok (h, n) => (.hole h :: ·) <$> atoms form n (pos + 1) cs
      else (.char c :: ·) <$> atoms form 0 (pos + c.utf8Size) cs

/-- The text piece for a run of characters, given in reverse; an empty run has none. -/
def ofRun (run : List Char) : List Piece :=
  if run.isEmpty then [] else [.text (String.ofList run.reverse)]

/-- Joins the characters between holes to pieces, with `run` the reverse of those already met. -/
def join (run : List Char) : List Atom → List Piece
  | [] => ofRun run
  | .char c :: rest => join (c :: run) rest
  | .hole h :: rest => ofRun run ++ .hole h :: join [] rest

end Piece

/-- A string literal taken apart. -/
structure Decoded where
  form : StringForm
  pieces : List Piece
deriving DecidableEq, Repr

/-- The body of a literal between its opener and its closer. -/
def StringForm.body (form : StringForm) (literal : List Char) : List Char :=
  (literal.take (literal.length - form.closer.length)).drop form.opener.length

/-- Takes the literal `literal` at byte position `start` apart. The form is read off its opener, and
whatever lies between opener and closer is the body. -/
def decode (literal : String) (start : Nat) : Except LexError Decoded :=
  let form := (StringForm.opening? literal.toList).getD .double
  let pos := start + byteLength form.opener
  match Piece.atoms form 0 pos (form.body literal.toList) with
  | .ok atoms => .ok ⟨form, Piece.join [] atoms⟩
  | .error e => .error e

end Script
