import Script.Tree.Basic

/-!
Trees with other identifiers. `mapIdents` changes the identifiers outside string literals, each with
its span in view, and nothing else.
-/
namespace Script

/-- The identifier `old` spelled `new`, and every other one as it is. -/
def Ident.rename (old : Ident) (new : String) (i : Ident) : Ident :=
  if i = old then { i with text := new } else i

def Name.mapIdents (f : Ident → Ident) (n : Name) : Name :=
  ⟨n.relative, n.segments.map f, n.span⟩

def TypeKind.mapIdents (f : Ident → Ident) : TypeKind → TypeKind
  | .primitive type => .primitive type
  | .named name => .named (name.mapIdents f)

def TypeRef.mapIdents (f : Ident → Ident) (t : TypeRef) : TypeRef := ⟨t.kind.mapIdents f, t.span⟩

def UseDecl.mapIdents (f : Ident → Ident) (d : UseDecl) : UseDecl :=
  ⟨d.path.mapIdents f, d.subs.map (Name.mapIdents f), d.span⟩

def Param.mapIdents (f : Ident → Ident) (p : Param) : Param :=
  ⟨f p.name, p.type.map (TypeRef.mapIdents f), p.span⟩

def Property.mapIdents (f : Ident → Ident) (p : Property) : Property :=
  ⟨p.name.mapIdents f, p.type.map (TypeRef.mapIdents f), p.span⟩

def FieldDecl.mapIdents (f : Ident → Ident) (d : FieldDecl) : FieldDecl :=
  ⟨f d.name, d.type.mapIdents f, d.span⟩

def TypeDecl.mapIdents (f : Ident → Ident) (d : TypeDecl) : TypeDecl :=
  ⟨f d.name, d.fields.map (FieldDecl.mapIdents f), d.span⟩

mutual

def Expr.mapIdents (f : Ident → Ident) : Expr → Expr
  | ⟨kind, span⟩ => ⟨kind.mapIdents f, span⟩

def Expr.mapIdentsEach (f : Ident → Ident) : List Expr → List Expr
  | [] => []
  | e :: es => e.mapIdents f :: Expr.mapIdentsEach f es

def Expr.mapIdentsOption (f : Ident → Ident) : Option Expr → Option Expr
  | none => none
  | some e => some (e.mapIdents f)

def ExprKind.mapIdents (f : Ident → Ident) : ExprKind → ExprKind
  | .name name => .name (name.mapIdents f)
  | .literal literal => .literal literal
  | .unary op operand => .unary op (operand.mapIdents f)
  | .binary op assoc left right => .binary op assoc (left.mapIdents f) (right.mapIdents f)
  | .comparison op assoc left right => .comparison op assoc (left.mapIdents f) (right.mapIdents f)
  | .call callee args body =>
    .call (callee.mapIdents f) (Expr.mapIdentsEach f args) (Block.mapIdentsOption f body)
  | .group inner => .group (inner.mapIdents f)
  | .pair key value => .pair (key.mapIdents f) (value.mapIdents f)
  | .object entries => .object (Statement.mapIdentsEach f entries)
  | .array items => .array (Expr.mapIdentsEach f items)
  | .transition source target => .transition (source.mapIdents f) (target.mapIdents f)
  | .ifExpr stmt => .ifExpr (stmt.mapIdents f)
  | .whenExpr stmt => .whenExpr (stmt.mapIdents f)

def PairKey.mapIdents (f : Ident → Ident) : PairKey → PairKey
  | .name name => .name (name.mapIdents f)
  | .string literal => .string literal

def Block.mapIdents (f : Ident → Ident) : Block → Block
  | ⟨statements, span⟩ => ⟨Statement.mapIdentsEach f statements, span⟩

def Block.mapIdentsOption (f : Ident → Ident) : Option Block → Option Block
  | none => none
  | some block => some (block.mapIdents f)

def Statement.mapIdents (f : Ident → Ident) : Statement → Statement
  | ⟨kind, span⟩ => ⟨kind.mapIdents f, span⟩

def Statement.mapIdentsEach (f : Ident → Ident) : List Statement → List Statement
  | [] => []
  | s :: ss => s.mapIdents f :: Statement.mapIdentsEach f ss

def StatementKind.mapIdents (f : Ident → Ident) : StatementKind → StatementKind
  | .modDecl name body => .modDecl (name.mapIdents f) (body.mapIdents f)
  | .useDecl decl => .useDecl (decl.mapIdents f)
  | .importDecl decl => .importDecl (decl.mapIdents f)
  | .varDecl decl => .varDecl (decl.mapIdents f)
  | .fnDecl decl => .fnDecl (decl.mapIdents f)
  | .nodeDecl decl => .nodeDecl (decl.mapIdents f)
  | .assign target value => .assign (target.mapIdents f) (value.mapIdents f)
  | .ifStmt stmt => .ifStmt (stmt.mapIdents f)
  | .forStmt stmt => .forStmt (stmt.mapIdents f)
  | .whenStmt stmt => .whenStmt (stmt.mapIdents f)
  | .uiBlock body => .uiBlock (body.mapIdents f)
  | .styleBlock body => .styleBlock (body.mapIdents f)
  | .typeDecl decl => .typeDecl (decl.mapIdents f)
  | .enumDecl decl => .enumDecl (decl.mapIdents f)
  | .breakStmt => .breakStmt
  | .expr expr => .expr (expr.mapIdents f)

def ImportDecl.mapIdents (f : Ident → Ident) : ImportDecl → ImportDecl
  | ⟨path, none, span⟩ => ⟨path.mapIdents f, none, span⟩
  | ⟨path, some args, span⟩ => ⟨path.mapIdents f, some (Expr.mapIdentsEach f args), span⟩

def VarDecl.mapIdents (f : Ident → Ident) : VarDecl → VarDecl
  | ⟨binding, name, type, value, span⟩ =>
    ⟨binding, f name, type.map (TypeRef.mapIdents f), value.mapIdents f, span⟩

def VarDecl.mapIdentsEach (f : Ident → Ident) : List VarDecl → List VarDecl
  | [] => []
  | d :: ds => d.mapIdents f :: VarDecl.mapIdentsEach f ds

def FnDecl.mapIdents (f : Ident → Ident) : FnDecl → FnDecl
  | ⟨name, params, result, body, span⟩ =>
    ⟨name.mapIdents f, params.map (Param.mapIdents f), result.map (TypeRef.mapIdents f),
      body.mapIdents f, span⟩

def FnBody.mapIdents (f : Ident → Ident) : FnBody → FnBody
  | .block block => .block (block.mapIdents f)
  | .expr expr => .expr (expr.mapIdents f)

def NodeDecl.mapIdents (f : Ident → Ident) : NodeDecl → NodeDecl
  | ⟨name, props, none, span⟩ => ⟨name.mapIdents f, props.map (Property.mapIdents f), none, span⟩
  | ⟨name, props, some entries, span⟩ =>
    ⟨name.mapIdents f, props.map (Property.mapIdents f), some (Statement.mapIdentsEach f entries),
      span⟩

def EnumDecl.mapIdents (f : Ident → Ident) : EnumDecl → EnumDecl
  | ⟨name, members, span⟩ => ⟨f name, EnumMember.mapIdentsEach f members, span⟩

def EnumMember.mapIdents (f : Ident → Ident) : EnumMember → EnumMember
  | ⟨name, value, span⟩ => ⟨f name, Expr.mapIdentsOption f value, span⟩

def EnumMember.mapIdentsEach (f : Ident → Ident) : List EnumMember → List EnumMember
  | [] => []
  | m :: ms => m.mapIdents f :: EnumMember.mapIdentsEach f ms

def IfStmt.mapIdents (f : Ident → Ident) : IfStmt → IfStmt
  | ⟨condition, body, elseIfs, elseBody, span⟩ =>
    ⟨condition.mapIdents f, body.mapIdents f, ElseIf.mapIdentsEach f elseIfs,
      Block.mapIdentsOption f elseBody, span⟩

def ElseIf.mapIdents (f : Ident → Ident) : ElseIf → ElseIf
  | ⟨condition, body, span⟩ => ⟨condition.mapIdents f, body.mapIdents f, span⟩

def ElseIf.mapIdentsEach (f : Ident → Ident) : List ElseIf → List ElseIf
  | [] => []
  | e :: es => e.mapIdents f :: ElseIf.mapIdentsEach f es

def ForStmt.mapIdents (f : Ident → Ident) : ForStmt → ForStmt
  | ⟨head, body, span⟩ => ⟨head.mapIdents f, body.mapIdents f, span⟩

def ForHead.mapIdents (f : Ident → Ident) : ForHead → ForHead
  | .counted init condition =>
    .counted (VarDecl.mapIdentsEach f init) (Expr.mapIdentsOption f condition)
  | .iterate index name iterable =>
    .iterate (index.map f) (f name) (iterable.mapIdents f)

def WhenStmt.mapIdents (f : Ident → Ident) : WhenStmt → WhenStmt
  | ⟨init, subject, cases, elseBody, span⟩ =>
    ⟨VarDecl.mapIdentsEach f init, subject.mapIdents f, WhenCase.mapIdentsEach f cases,
      CaseBody.mapIdentsOption f elseBody, span⟩

def WhenCase.mapIdents (f : Ident → Ident) : WhenCase → WhenCase
  | ⟨pattern, body, span⟩ => ⟨pattern.mapIdents f, body.mapIdents f, span⟩

def WhenCase.mapIdentsEach (f : Ident → Ident) : List WhenCase → List WhenCase
  | [] => []
  | c :: cs => c.mapIdents f :: WhenCase.mapIdentsEach f cs

def CaseBody.mapIdents (f : Ident → Ident) : CaseBody → CaseBody
  | .block block => .block (block.mapIdents f)
  | .arrow statement => .arrow (statement.mapIdents f)

def CaseBody.mapIdentsOption (f : Ident → Ident) : Option CaseBody → Option CaseBody
  | none => none
  | some body => some (body.mapIdents f)

end

def Program.mapIdents (f : Ident → Ident) (p : Program) : Program :=
  ⟨Statement.mapIdentsEach f p.statements, p.span⟩

end Script
