import Script.Source.Span

/-!
Work on a text by byte positions, as a machine does it. A slice, an index, a difference or a span
can be asked for where there is none, and then the work stops there with no answer.
-/
namespace Script.Bytes

open Chars (byteLength)

/-- What stops a computation: a position outside of the text, a slice that begins or ends inside of
a character, a difference below zero, a span whose end comes before its start, or holes inside one
another beyond a bound. -/
inductive Breach where
  | range
  | boundary
  | underflow
  | order
  | depth
deriving DecidableEq, Repr

abbrev Checked (α : Type) := Except Breach α

def sub (a b : Nat) : Checked Nat := if b ≤ a then .ok (a - b) else .error .underflow

def span (start stop : Nat) : Checked Span :=
  if start ≤ stop then .ok ⟨start, stop⟩ else .error .order

/-- The text before a byte position, and the text from there on. -/
def splitAt : Nat → List Char → Checked (List Char × List Char)
  | 0, cs => .ok ([], cs)
  | _ + 1, [] => .error .range
  | n + 1, c :: cs =>
    if c.utf8Size ≤ n + 1 then
      (fun x => (c :: x.1, x.2)) <$> splitAt (n + 1 - c.utf8Size) cs
    else .error .boundary

def sliceFrom (start : Nat) (cs : List Char) : Checked (List Char) := Prod.snd <$> splitAt start cs

def slice (start stop : Nat) (cs : List Char) : Checked (List Char) :=
  if start ≤ stop then do
    let rest ← sliceFrom start cs
    Prod.fst <$> splitAt (stop - start) rest
  else .error .range

/-- Moves a position in a text further on, to the boundary of a character. -/
def bump (cs : List Char) (pos n : Nat) : Checked Nat := (fun _ => pos + n) <$> splitAt (pos + n) cs

/-- The bytes of a text. -/
def ofChars (cs : List Char) : List UInt8 := cs.flatMap String.utf8EncodeChar

def byteAt (i : Nat) (bs : List UInt8) : Checked UInt8 :=
  match bs[i]? with
  | some b => .ok b
  | none => .error .range

def bytesFrom (i : Nat) (bs : List UInt8) : Checked (List UInt8) :=
  if i ≤ bs.length then .ok (bs.drop i) else .error .range

end Script.Bytes
