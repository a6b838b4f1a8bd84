import Script.Grammar.Parser
import Script.Tree.Name

/-!
Reading identifiers, dotted names and types.
-/
namespace Script.Parser

def ident : Parser Ident := do
  let t ← token .ident
  return ⟨t.text, t.span⟩

/-- Whether a token goes on with what stands before it on the same line. -/
def continuesWith (kind : TokenKind) (t : Token) : Bool := t.kind == kind && !t.newlineBefore

/-- The next segment of a name. Points continue a name on the same line only. -/
def segment : Parser (Option Ident) := do
  let t ← here
  if continuesWith .dot t && (← nextHas (continuesWith .ident)) then
    let _ ← advance
    return some (← ident)
  else return none

/-- A name `a`, `a.b.c` or `.a.b`. -/
def name : Parser Name := do
  let start ← position
  let relative ← skip .dot
  let first ← ident
  let others ← collect segment
  return ⟨relative, first :: others, ← spanFrom start⟩

/-- The built-in type that the token at the cursor spells. -/
def primitive? : Parser (Option PrimitiveType) := do
  let t ← here
  return if t.kind = .ident then PrimitiveType.ofWord? t.text else none

def typeRef : Parser TypeRef := do
  match ← primitive? with
  | some type =>
    let t ← advance
    return ⟨.primitive type, t.span⟩
  | none =>
    if ← isAtAny [.ident, .dot] then
      let n ← name
      return ⟨.named n, n.span⟩
    else unexpected .typeName

/-- The type after a name, if one follows on the same line. -/
def annotation : Parser (Option TypeRef) := do
  if continuesWith .ident (← here) then return some (← typeRef) else return none

end Script.Parser
