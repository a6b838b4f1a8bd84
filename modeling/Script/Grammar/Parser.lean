import Script.Grammar.Brace
import Script.Grammar.Cursor
import Script.Grammar.ParseError

/-!
Parsers on cursors. A parser sees what the constructs around it expect, and leaves a cursor behind
whether it succeeds or fails. What the constructs around expect is handed down and never changed, so
it is the same again after every part that was read.
-/
namespace Script

/-- What the constructs around a parser tell it: what a brace means, and whether a line break ends
the current item. -/
structure Surroundings where
  brace : BraceContext
  breakEnds : Bool
deriving DecidableEq, Repr

inductive Outcome (α : Type) where
  | ok (value : α) (rest : Cursor)
  | error (error : ParseError) (rest : Cursor)

/-- The cursor that an outcome leaves behind. -/
def Outcome.rest {α : Type} : Outcome α → Cursor
  | ok _ rest => rest
  | error _ rest => rest

/-- What an outcome answers, without the cursor that it leaves behind. -/
def Outcome.result {α : Type} : Outcome α → Except ParseError α
  | ok a _ => .ok a
  | error e _ => .error e

def Parser (α : Type) := Surroundings → Cursor → Outcome α

namespace Parser

variable {α β : Type}

instance : Monad Parser where
  pure a := fun _ c => .ok a c
  bind p f := fun s c =>
    match p s c with
    | .ok a c' => f a s c'
    | .error e c' => .error e c'

theorem pure_apply (a : α) (s : Surroundings) (c : Cursor) :
    (pure a : Parser α) s c = .ok a c := rfl

theorem bind_apply (p : Parser α) (f : α → Parser β) (s : Surroundings) (c : Cursor) :
    (p >>= f) s c =
      match p s c with
      | .ok a c' => f a s c'
      | .error e c' => .error e c' := rfl

private theorem id_map_apply {α : Type} (p : Parser α) : id <$> p = p := by
  funext s c
  show (p >>= pure) s c = p s c
  rw [bind_apply]
  cases p s c <;> rfl

private theorem bind_assoc_apply {α β γ : Type} (p : Parser α) (f : α → Parser β)
    (g : β → Parser γ) : p >>= f >>= g = p >>= fun a => f a >>= g := by
  funext s c
  simp only [bind_apply]
  cases p s c <;> rfl

instance : LawfulMonad Parser :=
  LawfulMonad.mk' Parser id_map_apply (fun _ _ => rfl) bind_assoc_apply

def surroundings : Parser Surroundings := fun s c => .ok s c

/-- The token at the cursor. -/
def here : Parser Token := fun _ c => .ok c.here c

/-- The start of the token at the cursor. -/
def position : Parser Nat := fun _ c => .ok c.here.start c

/-- Takes the token at the cursor. -/
def advance : Parser Token := fun _ c => .ok c.here c.advance

/-- The span from a start to the last token taken. -/
def spanFrom (start : Nat) : Parser Span := fun _ c => .ok (c.spanFrom start) c

def fail (fault : ParseFault) (span : Span) : Parser α := fun _ c => .error ⟨fault, span⟩ c

/-- Fails at the token at the cursor. -/
def unexpected (expected : Expected) : Parser α := fun _ c =>
  .error ⟨.unexpectedToken expected c.here.describe, c.here.span⟩ c

/-- Runs `p` where braces mean `brace` and line breaks end items or not. -/
def within (brace : BraceContext) (breakEnds : Bool) (p : Parser α) : Parser α := fun _ c =>
  p ⟨brace, breakEnds⟩ c

/-- Runs `p` in the head of a construct, whose brace opens the block of the construct. -/
def inHead (p : Parser α) : Parser α := fun s c => p { s with brace := .expectBlock } c

def isAt (kind : TokenKind) : Parser Bool := fun _ c => .ok (c.here.kind == kind) c

def isAtAny (kinds : List TokenKind) : Parser Bool := fun _ c => .ok (kinds.contains c.here.kind) c

/-- Whether the cursor stands on the first token of a line. -/
def isAtLineStart : Parser Bool := fun _ c => .ok c.here.newlineBefore c

def keyword? : Parser (Option Keyword) := fun _ c => .ok c.here.keyword? c

def isAtKeyword (word : Keyword) : Parser Bool := fun _ c => .ok (c.here.keyword? == some word) c

/-- Whether the token after the cursor has a property. -/
def nextHas (property : Token → Bool) : Parser Bool := fun _ c =>
  .ok ((c.next?.map property).getD false) c

def token (kind : TokenKind) : Parser Token := do
  if ← isAt kind then advance else unexpected (.token kind)

def keyword (word : Keyword) : Parser Token := do
  if ← isAtKeyword word then advance else unexpected (.keyword word)

/-- Takes the token at the cursor if it has the given kind, and tells whether it had. -/
def skip (kind : TokenKind) : Parser Bool := do
  if ← isAt kind then
    let _ ← advance
    return true
  else return false

/-- Runs `item` at most once for each of the given tokens. -/
def collectWithin (item : Parser (Option α)) : List Token → Parser (List α)
  | [] => fun _ c => .error ⟨.outOfSteps, c.here.span⟩ c
  | _ :: bound => do
    match ← item with
    | none => return []
    | some a => return a :: (← collectWithin item bound)

/-- Runs `item` until it answers that there are no more. Every item takes a token, so the tokens
that are left bound the steps. -/
def collect (item : Parser (Option α)) : Parser (List α) := fun s c =>
  collectWithin item c.rest s c

/-- Runs `step` at most once for each of the given tokens. -/
def iterateWithin (step : α → Parser (Option α)) : List Token → α → Parser α
  | [], _ => fun _ c => .error ⟨.outOfSteps, c.here.span⟩ c
  | _ :: bound, a => do
    match ← step a with
    | none => return a
    | some b => iterateWithin step bound b

/-- Extends a value step by step until no step applies. Every step takes a token. -/
def iterate (step : α → Parser (Option α)) (a : α) : Parser α := fun s c =>
  iterateWithin step c.rest a s c

/-- Items before `close`, each ended by one of the separators, by a line break or by `close` itself.
-/
def separated (separators : List TokenKind) (close : TokenKind) (item : Parser α) :
    Parser (List α) :=
  collect do
    if ← isAt close then return none
    let a ← item
    if ← isAtAny separators then
      let _ ← advance
      return some a
    else if ← isAt close then return some a
    else if ← isAtLineStart then return some a
    else unexpected (.itemEnd separators close)

/-- A bracketed list. Inside brackets a brace is a value and line breaks end items. -/
def bracketed (opener : TokenKind) (separators : List TokenKind) (close : TokenKind)
    (item : Parser α) : Parser (List α) := do
  let _ ← token opener
  let items ← within .expectValue true (separated separators close item)
  let _ ← token close
  return items

end Parser

end Script
