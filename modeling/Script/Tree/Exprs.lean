import Script.Tree.Basic

/-!
The expressions inside a tree, at every depth and through the holes of string literals.
-/
namespace Script

mutual

def Expr.exprs : Expr → List Expr
  | ⟨kind, span⟩ => ⟨kind, span⟩ :: kind.exprs

def Expr.exprsEach : List Expr → List Expr
  | [] => []
  | e :: es => e.exprs ++ Expr.exprsEach es

def Expr.exprsOption : Option Expr → List Expr
  | none => []
  | some e => e.exprs

def ExprKind.exprs : ExprKind → List Expr
  | .name _ => []
  | .literal literal => literal.exprs
  | .unary _ operand => operand.exprs
  | .binary _ _ left right => left.exprs ++ right.exprs
  | .comparison _ _ left right => left.exprs ++ right.exprs
  | .call callee args body => callee.exprs ++ Expr.exprsEach args ++ Block.exprsOption body
  | .group inner => inner.exprs
  | .pair key value => key.exprs ++ value.exprs
  | .object entries => Statement.exprsEach entries
  | .array items => Expr.exprsEach items
  | .transition _ _ => []
  | .ifExpr stmt => stmt.exprs
  | .whenExpr stmt => stmt.exprs

def PairKey.exprs : PairKey → List Expr
  | .name _ => []
  | .string literal => literal.exprs

def Literal.exprs : Literal → List Expr
  | .string literal => literal.exprs
  | _ => []

def StringLiteral.exprs : StringLiteral → List Expr
  | ⟨_, parts, _⟩ => StringPart.exprsEach parts

def StringPart.exprs : StringPart → List Expr
  | .exprHole expr => expr.exprs
  | _ => []

def StringPart.exprsEach : List StringPart → List Expr
  | [] => []
  | p :: ps => p.exprs ++ StringPart.exprsEach ps

def Block.exprs : Block → List Expr
  | ⟨statements, _⟩ => Statement.exprsEach statements

def Block.exprsOption : Option Block → List Expr
  | none => []
  | some block => block.exprs

def Statement.exprs : Statement → List Expr
  | ⟨kind, _⟩ => kind.exprs

def Statement.exprsEach : List Statement → List Expr
  | [] => []
  | s :: ss => s.exprs ++ Statement.exprsEach ss

def StatementKind.exprs : StatementKind → List Expr
  | .modDecl _ body => body.exprs
  | .useDecl _ => []
  | .importDecl decl => decl.exprs
  | .varDecl decl => decl.exprs
  | .fnDecl decl => decl.exprs
  | .nodeDecl decl => decl.exprs
  | .assign _ value => value.exprs
  | .ifStmt stmt => stmt.exprs
  | .forStmt stmt => stmt.exprs
  | .whenStmt stmt => stmt.exprs
  | .uiBlock body => body.exprs
  | .styleBlock body => body.exprs
  | .typeDecl _ => []
  | .enumDecl decl => decl.exprs
  | .breakStmt => []
  | .expr expr => expr.exprs

def ImportDecl.exprs : ImportDecl → List Expr
  | ⟨_, none, _⟩ => []
  | ⟨_, some args, _⟩ => Expr.exprsEach args

def VarDecl.exprs : VarDecl → List Expr
  | ⟨_, _, _, value, _⟩ => value.exprs

def VarDecl.exprsEach : List VarDecl → List Expr
  | [] => []
  | d :: ds => d.exprs ++ VarDecl.exprsEach ds

def FnDecl.exprs : FnDecl → List Expr
  | ⟨_, _, _, body, _⟩ => body.exprs

def FnBody.exprs : FnBody → List Expr
  | .block block => block.exprs
  | .expr expr => expr.exprs

def NodeDecl.exprs : NodeDecl → List Expr
  | ⟨_, _, none, _⟩ => []
  | ⟨_, _, some entries, _⟩ => Statement.exprsEach entries

def EnumDecl.exprs : EnumDecl → List Expr
  | ⟨_, members, _⟩ => EnumMember.exprsEach members

def EnumMember.exprs : EnumMember → List Expr
  | ⟨_, value, _⟩ => Expr.exprsOption value

def EnumMember.exprsEach : List EnumMember → List Expr
  | [] => []
  | m :: ms => m.exprs ++ EnumMember.exprsEach ms

def IfStmt.exprs : IfStmt → List Expr
  | ⟨condition, body, elseIfs, elseBody, _⟩ =>
    condition.exprs ++ body.exprs ++ ElseIf.exprsEach elseIfs ++ Block.exprsOption elseBody

def ElseIf.exprs : ElseIf → List Expr
  | ⟨condition, body, _⟩ => condition.exprs ++ body.exprs

def ElseIf.exprsEach : List ElseIf → List Expr
  | [] => []
  | e :: es => e.exprs ++ ElseIf.exprsEach es

def ForStmt.exprs : ForStmt → List Expr
  | ⟨head, body, _⟩ => head.exprs ++ body.exprs

def ForHead.exprs : ForHead → List Expr
  | .counted init condition => VarDecl.exprsEach init ++ Expr.exprsOption condition
  | .iterate _ _ iterable => iterable.exprs

def WhenStmt.exprs : WhenStmt → List Expr
  | ⟨init, subject, cases, elseBody, _⟩ =>
    VarDecl.exprsEach init ++ subject.exprs ++ WhenCase.exprsEach cases ++
      CaseBody.exprsOption elseBody

def WhenCase.exprs : WhenCase → List Expr
  | ⟨pattern, body, _⟩ => pattern.exprs ++ body.exprs

def WhenCase.exprsEach : List WhenCase → List Expr
  | [] => []
  | c :: cs => c.exprs ++ WhenCase.exprsEach cs

def CaseBody.exprs : CaseBody → List Expr
  | .block block => block.exprs
  | .arrow statement => statement.exprs

def CaseBody.exprsOption : Option CaseBody → List Expr
  | none => []
  | some body => body.exprs

end

def Program.exprs (p : Program) : List Expr := Statement.exprsEach p.statements

end Script
