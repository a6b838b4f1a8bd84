import Script.Token.Basic
import Script.Tree.Exprs

/-!
Lines in a tree: the left side of an operator, on whose line the operator may have to stand, and
what has to stand on the line of the token before it in any brackets.
-/
namespace Script

def PairKey.span : PairKey → Span
  | .name n => n.span
  | .string literal => literal.span

/-- The left operand of an operator, the key of a pair, the source of a transition or the callee of
a call. -/
def Expr.leftSide? (e : Expr) : Option Span :=
  match e.kind with
  | .binary _ _ left _ => some left.span
  | .comparison _ _ left _ => some left.span
  | .pair key _ => some key.span
  | .transition source _ => some source.span
  | .call callee _ _ => some callee.span
  | _ => none

def Expr.isGroup (e : Expr) : Bool :=
  match e.kind with
  | .group _ => true
  | _ => false

/-- A token opens the parentheses of a group. -/
def Program.OpensGroup (p : Program) (t : Token) : Prop :=
  ∃ e ∈ p.exprs, e.isGroup = true ∧ e.span.start = t.start

/-- A name after its first segment. -/
def Name.tie (n : Name) : Span :=
  ⟨(n.segments.head?.map (·.span.stop)).getD n.span.stop, n.span.stop⟩

/-- What of an expression has to stand on the line of the token before it: the segments of a name
after the first, the brace of the block after a call, and a type at the front of a `when`. -/
def Expr.ties (e : Expr) : List Span :=
  match e.kind with
  | .name name => [name.tie]
  | .pair (.name name) _ => [name.tie]
  | .transition source target => [source.tie, target.tie]
  | .call _ _ (some body) => [⟨body.span.start, body.span.start + 1⟩]
  | .whenExpr stmt => stmt.init.filterMap fun d => d.type.map TypeRef.span
  | _ => []

/-- A token is tied to the line of the token before it. -/
def Program.Ties (p : Program) (t : Token) : Prop :=
  ∃ e ∈ p.exprs, ∃ s ∈ e.ties, s.start ≤ t.start ∧ t.start < s.stop

end Script
