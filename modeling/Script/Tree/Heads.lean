import Script.Tree.Exprs
import Script.Tree.Nodes

/-!
The heads of the control constructs inside a tree: what stands between the word of a construct and
its braces, and the patterns of cases. The surface of an expression is what a reader meets who
enters no brackets, no braces and no string.
-/
namespace Script

mutual

/-- The expressions on the surface of an expression, itself among them. -/
def Expr.surface : Expr → List Expr
  | ⟨kind, span⟩ => ⟨kind, span⟩ :: kind.surface

def ExprKind.surface : ExprKind → List Expr
  | .unary _ operand => operand.surface
  | .binary _ _ left right => left.surface ++ right.surface
  | .comparison _ _ left right => left.surface ++ right.surface
  | .call callee _ _ => callee.surface
  | .pair _ value => value.surface
  | .ifExpr stmt => stmt.surface
  | .whenExpr stmt => stmt.surface
  | .name _ | .literal _ | .group _ | .object _ | .array _ | .transition _ _ => []

def IfStmt.surface : IfStmt → List Expr
  | ⟨condition, _, elseIfs, _, _⟩ => condition.surface ++ ElseIf.surfaceEach elseIfs

def ElseIf.surface : ElseIf → List Expr
  | ⟨condition, _, _⟩ => condition.surface

def ElseIf.surfaceEach : List ElseIf → List Expr
  | [] => []
  | e :: es => e.surface ++ ElseIf.surfaceEach es

/-- The cases of a `when` stand in its braces. -/
def WhenStmt.surface : WhenStmt → List Expr
  | ⟨init, subject, _, _, _⟩ => VarDecl.surfaceEach init ++ subject.surface

def VarDecl.surface : VarDecl → List Expr
  | ⟨_, _, _, value, _⟩ => value.surface

def VarDecl.surfaceEach : List VarDecl → List Expr
  | [] => []
  | d :: ds => d.surface ++ VarDecl.surfaceEach ds

end

/-- Whether a brace of an expression would be met on its surface: it is an object, or a call with a
block. -/
def Expr.showsBrace (e : Expr) : Bool :=
  match e.kind with
  | .object _ => true
  | .call _ _ body => body.isSome
  | _ => false

/-- The conditions of an `if` and of its `else if`s. -/
def IfStmt.heads (stmt : IfStmt) : List Expr :=
  stmt.condition :: stmt.elseIfs.map ElseIf.condition

def ForHead.heads : ForHead → List Expr
  | .counted init condition => init.map VarDecl.value ++ condition.toList
  | .iterate _ _ iterable => [iterable]

/-- The values at the front of a `when`, its subject, and the patterns of its cases. -/
def WhenStmt.heads (stmt : WhenStmt) : List Expr :=
  stmt.init.map VarDecl.value ++ stmt.subject :: stmt.cases.map WhenCase.pattern

def Expr.heads (e : Expr) : List Expr :=
  match e.kind with
  | .ifExpr stmt => stmt.heads
  | .whenExpr stmt => stmt.heads
  | _ => []

def Statement.heads (s : Statement) : List Expr :=
  match s.kind with
  | .ifStmt stmt => stmt.heads
  | .forStmt stmt => stmt.head.heads
  | .whenStmt stmt => stmt.heads
  | _ => []

def Node.heads : Node → List Expr
  | .statement s => s.heads
  | .object _ | .literal _ | .whenStmt _ => []

/-- The heads of all constructs of a program: those that are statements and those that are values. -/
def Program.heads (p : Program) : List Expr :=
  p.nodes.flatMap Node.heads ++ p.exprs.flatMap Expr.heads

end Script
