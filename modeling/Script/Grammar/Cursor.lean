import Script.Token.Keyword
import Script.Token.Lexed

/-!
Cursors into a token list. A cursor always stands on a token; on the last one, which is the end
token, it stays.
-/
namespace Script

structure Cursor where
  /-- The token before the cursor, if there is one. -/
  before : Option Token
  here : Token
  ahead : List Token
deriving Repr

namespace Cursor

/-- The cursor on the first token of a text whose tokens are `tokens` and then `last`. -/
def start (tokens : List Token) (last : Token) : Cursor :=
  match tokens with
  | [] => ⟨none, last, []⟩
  | t :: ts => ⟨none, t, ts ++ [last]⟩

def advance (c : Cursor) : Cursor :=
  match c.ahead with
  | [] => c
  | t :: ts => ⟨some c.here, t, ts⟩

def next? (c : Cursor) : Option Token := c.ahead.head?

/-- The tokens from the cursor on. -/
def rest (c : Cursor) : List Token := c.here :: c.ahead

/-- The bytes of the tokens from the cursor on. -/
def weight (c : Cursor) : Nat := Token.weight c.rest

/-- The end of the token before the cursor, or the start of the first token. -/
def lastStop (c : Cursor) : Nat :=
  match c.before with
  | some t => t.stop
  | none => c.here.start

/-- The span from a start to the end of the token before the cursor. -/
def spanFrom (c : Cursor) (start : Nat) : Span := ⟨start, max c.lastStop start⟩

end Cursor

end Script
