import Script.Source.Span
import Script.Token.Kind

/-!
Tokens. A token carries its own text, so that reading a program never goes back to the source, and
its end is its start plus the bytes of that text.
-/
namespace Script

structure Token where
  kind : TokenKind
  text : String
  start : Nat
  /-- Whether a line break stands between the token before and this one. -/
  newlineBefore : Bool
deriving DecidableEq, Repr, Inhabited

namespace Token

def stop (t : Token) : Nat := t.start + t.text.utf8ByteSize

def span (t : Token) : Span := ⟨t.start, t.stop⟩

/-- The token that closes every token list. -/
def endAt (offset : Nat) (newlineBefore : Bool) : Token :=
  ⟨.endOfText, "", offset, newlineBefore⟩

/-- How a message speaks of a token: identifiers by their text, all others by their kind. -/
def describe (t : Token) : String :=
  if t.kind = .ident then "'" ++ t.text ++ "'" else t.kind.describe

/-- The bytes of some tokens, without the blanks between them. -/
def weight : List Token → Nat
  | [] => 0
  | t :: ts => t.text.utf8ByteSize + weight ts

@[simp] theorem weight_append (ts us : List Token) :
    weight (ts ++ us) = weight ts + weight us := by
  induction ts with
  | nil => simp [weight]
  | cons t ts ih => simp [weight, ih, Nat.add_assoc]

end Token

end Script
