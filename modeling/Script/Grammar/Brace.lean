/-!
What an opening brace means. Braces hold statements after the head of a construct and entries of an
object where a value is expected; the construct around a brace decides which.
-/
namespace Script

/-- What the innermost construct around expects of a brace: the head of a construct its own block,
everything else a value. -/
inductive BraceContext where
  | expectBlock
  | expectValue
deriving DecidableEq, Repr, Inhabited

/-- Where a brace is met: where an operand should begin, or after the arguments of a call. -/
inductive BracePosition where
  | operand
  | afterCall (sameLine : Bool)
deriving DecidableEq, Repr

inductive BraceRole where
  | object
  | trailingBlock
  /-- The brace belongs to the construct around. -/
  | enclosing
  | ambiguous
deriving DecidableEq, Repr

def BraceContext.role (context : BraceContext) (position : BracePosition) : BraceRole :=
  match position, context with
  | .operand, .expectValue => .object
  | .operand, .expectBlock => .ambiguous
  | .afterCall true, .expectValue => .trailingBlock
  | .afterCall _, _ => .enclosing

end Script
