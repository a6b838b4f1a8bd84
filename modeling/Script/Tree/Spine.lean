import Script.Token.Basic
import Script.Tree.Basic

/-!
The spine of an expression: what a reader meets who enters no brackets, no string and no value of a
pair.
-/
namespace Script

/-- The expressions on the spine of an expression, itself among them. -/
def Expr.spine : Expr → List Expr
  | ⟨.unary op operand, span⟩ => ⟨.unary op operand, span⟩ :: operand.spine
  | ⟨.binary op assoc left right, span⟩ =>
    ⟨.binary op assoc left right, span⟩ :: (left.spine ++ right.spine)
  | ⟨.comparison op assoc left right, span⟩ =>
    ⟨.comparison op assoc left right, span⟩ :: (left.spine ++ right.spine)
  | ⟨.call callee args body, span⟩ => ⟨.call callee args body, span⟩ :: callee.spine
  | e => [e]

def Expr.isTransition (e : Expr) : Bool :=
  match e.kind with
  | .transition _ _ => true
  | _ => false

/-- A token stands in the value of a pair on the spine. -/
def Expr.InPairValue (t : Token) (e : Expr) : Prop :=
  ∃ x ∈ e.spine, ∃ key value, x.kind = .pair key value ∧
    value.span.start ≤ t.start ∧ t.stop ≤ value.span.stop

end Script
