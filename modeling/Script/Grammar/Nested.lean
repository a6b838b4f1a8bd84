import Script.Grammar.Parser
import Script.Grammar.Strength
import Script.Tree.Basic

/-!
The parsers of what is nested inside a construct. Expressions and statements contain each other;
every construct takes a token before it reads what is inside, so the parsers for the inside can be
handed to it as a value, and those of one level are built from those of the level below.
-/
namespace Script

structure Nested where
  /-- An expression whose operators bind at least as strongly as the given level. -/
  expr : Strength → Parser Expr
  /-- The same where a value stands, which may also be an `if` or a `when`. -/
  value : Strength → Parser Expr
  statement : Parser Statement

/-- The level at which nothing can be read. -/
def Nested.none : Nested where
  expr _ := fun _ c => .error ⟨.outOfSteps, c.here.span⟩ c
  value _ := fun _ c => .error ⟨.outOfSteps, c.here.span⟩ c
  statement := fun _ c => .error ⟨.outOfSteps, c.here.span⟩ c

end Script
