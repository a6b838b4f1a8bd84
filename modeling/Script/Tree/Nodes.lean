import Script.Tree.Basic

/-!
The nodes inside a tree, at every depth and through the holes of string literals. What is said of
all statements, literals, objects or `when`s of a program is said of its nodes.
-/
namespace Script

inductive Node where
  | statement (s : Statement)
  | object (entries : List Statement)
  | literal (l : StringLiteral)
  | whenStmt (w : WhenStmt)

mutual

def Expr.nodes : Expr → List Node
  | ⟨kind, _⟩ => kind.nodes

def Expr.nodesEach : List Expr → List Node
  | [] => []
  | e :: es => e.nodes ++ Expr.nodesEach es

def Expr.nodesOption : Option Expr → List Node
  | none => []
  | some e => e.nodes

def ExprKind.nodes : ExprKind → List Node
  | .name _ => []
  | .literal literal => literal.nodes
  | .unary _ operand => operand.nodes
  | .binary _ _ left right => left.nodes ++ right.nodes
  | .comparison _ _ left right => left.nodes ++ right.nodes
  | .call callee args body => callee.nodes ++ Expr.nodesEach args ++ Block.nodesOption body
  | .group inner => inner.nodes
  | .pair key value => key.nodes ++ value.nodes
  | .object entries => .object entries :: Statement.nodesEach entries
  | .array items => Expr.nodesEach items
  | .transition _ _ => []
  | .ifExpr stmt => stmt.nodes
  | .whenExpr stmt => stmt.nodes

def PairKey.nodes : PairKey → List Node
  | .name _ => []
  | .string literal => literal.nodes

def Literal.nodes : Literal → List Node
  | .string literal => literal.nodes
  | _ => []

def StringLiteral.nodes : StringLiteral → List Node
  | ⟨form, parts, span⟩ => .literal ⟨form, parts, span⟩ :: StringPart.nodesEach parts

def StringPart.nodes : StringPart → List Node
  | .exprHole expr => expr.nodes
  | _ => []

def StringPart.nodesEach : List StringPart → List Node
  | [] => []
  | p :: ps => p.nodes ++ StringPart.nodesEach ps

def Block.nodes : Block → List Node
  | ⟨statements, _⟩ => Statement.nodesEach statements

def Block.nodesOption : Option Block → List Node
  | none => []
  | some block => block.nodes

def Statement.nodes : Statement → List Node
  | ⟨kind, span⟩ => .statement ⟨kind, span⟩ :: kind.nodes

def Statement.nodesEach : List Statement → List Node
  | [] => []
  | s :: ss => s.nodes ++ Statement.nodesEach ss

def StatementKind.nodes : StatementKind → List Node
  | .modDecl _ body => body.nodes
  | .useDecl _ => []
  | .importDecl decl => decl.nodes
  | .varDecl decl => decl.nodes
  | .fnDecl decl => decl.nodes
  | .nodeDecl decl => decl.nodes
  | .assign _ value => value.nodes
  | .ifStmt stmt => stmt.nodes
  | .forStmt stmt => stmt.nodes
  | .whenStmt stmt => stmt.nodes
  | .uiBlock body => body.nodes
  | .styleBlock body => body.nodes
  | .typeDecl _ => []
  | .enumDecl decl => decl.nodes
  | .breakStmt => []
  | .expr expr => expr.nodes

def ImportDecl.nodes : ImportDecl → List Node
  | ⟨_, none, _⟩ => []
  | ⟨_, some args, _⟩ => Expr.nodesEach args

def VarDecl.nodes : VarDecl → List Node
  | ⟨_, _, _, value, _⟩ => value.nodes

def VarDecl.nodesEach : List VarDecl → List Node
  | [] => []
  | d :: ds => d.nodes ++ VarDecl.nodesEach ds

def FnDecl.nodes : FnDecl → List Node
  | ⟨_, _, _, body, _⟩ => body.nodes

def FnBody.nodes : FnBody → List Node
  | .block block => block.nodes
  | .expr expr => expr.nodes

def NodeDecl.nodes : NodeDecl → List Node
  | ⟨_, _, none, _⟩ => []
  | ⟨_, _, some entries, _⟩ => Statement.nodesEach entries

def EnumDecl.nodes : EnumDecl → List Node
  | ⟨_, members, _⟩ => EnumMember.nodesEach members

def EnumMember.nodes : EnumMember → List Node
  | ⟨_, value, _⟩ => Expr.nodesOption value

def EnumMember.nodesEach : List EnumMember → List Node
  | [] => []
  | m :: ms => m.nodes ++ EnumMember.nodesEach ms

def IfStmt.nodes : IfStmt → List Node
  | ⟨condition, body, elseIfs, elseBody, _⟩ =>
    condition.nodes ++ body.nodes ++ ElseIf.nodesEach elseIfs ++ Block.nodesOption elseBody

def ElseIf.nodes : ElseIf → List Node
  | ⟨condition, body, _⟩ => condition.nodes ++ body.nodes

def ElseIf.nodesEach : List ElseIf → List Node
  | [] => []
  | e :: es => e.nodes ++ ElseIf.nodesEach es

def ForStmt.nodes : ForStmt → List Node
  | ⟨head, body, _⟩ => head.nodes ++ body.nodes

def ForHead.nodes : ForHead → List Node
  | .counted init condition => VarDecl.nodesEach init ++ Expr.nodesOption condition
  | .iterate _ _ iterable => iterable.nodes

def WhenStmt.nodes : WhenStmt → List Node
  | ⟨init, subject, cases, elseBody, span⟩ =>
    .whenStmt ⟨init, subject, cases, elseBody, span⟩ :: (VarDecl.nodesEach init ++ subject.nodes ++
      WhenCase.nodesEach cases ++ CaseBody.nodesOption elseBody)

def WhenCase.nodes : WhenCase → List Node
  | ⟨pattern, body, _⟩ => pattern.nodes ++ body.nodes

def WhenCase.nodesEach : List WhenCase → List Node
  | [] => []
  | c :: cs => c.nodes ++ WhenCase.nodesEach cs

def CaseBody.nodes : CaseBody → List Node
  | .block block => block.nodes
  | .arrow statement => statement.nodes

def CaseBody.nodesOption : Option CaseBody → List Node
  | none => []
  | some body => body.nodes

end

def Program.nodes (p : Program) : List Node := Statement.nodesEach p.statements

end Script
