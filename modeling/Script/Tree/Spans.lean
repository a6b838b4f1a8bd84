import Script.Tree.Basic

/-!
Trees with other spans. `mapSpans` changes every span in a tree and nothing else; a text that moves
shifts the spans of its tree, and two trees say the same when they are equal once all spans are
erased.
-/
namespace Script

def Ident.mapSpans (f : Span → Span) (i : Ident) : Ident := ⟨i.text, f i.span⟩

def Name.mapSpans (f : Span → Span) (n : Name) : Name :=
  ⟨n.relative, n.segments.map (Ident.mapSpans f), f n.span⟩

def TypeKind.mapSpans (f : Span → Span) : TypeKind → TypeKind
  | .primitive type => .primitive type
  | .named name => .named (name.mapSpans f)

def TypeRef.mapSpans (f : Span → Span) (t : TypeRef) : TypeRef := ⟨t.kind.mapSpans f, f t.span⟩

def UseDecl.mapSpans (f : Span → Span) (d : UseDecl) : UseDecl :=
  ⟨d.path.mapSpans f, d.subs.map (Name.mapSpans f), f d.span⟩

def Param.mapSpans (f : Span → Span) (p : Param) : Param :=
  ⟨p.name.mapSpans f, p.type.map (TypeRef.mapSpans f), f p.span⟩

def Property.mapSpans (f : Span → Span) (p : Property) : Property :=
  ⟨p.name.mapSpans f, p.type.map (TypeRef.mapSpans f), f p.span⟩

def FieldDecl.mapSpans (f : Span → Span) (d : FieldDecl) : FieldDecl :=
  ⟨d.name.mapSpans f, d.type.mapSpans f, f d.span⟩

def TypeDecl.mapSpans (f : Span → Span) (d : TypeDecl) : TypeDecl :=
  ⟨d.name.mapSpans f, d.fields.map (FieldDecl.mapSpans f), f d.span⟩

mutual

def Expr.mapSpans (f : Span → Span) : Expr → Expr
  | ⟨kind, span⟩ => ⟨kind.mapSpans f, f span⟩

def Expr.mapSpansEach (f : Span → Span) : List Expr → List Expr
  | [] => []
  | e :: es => e.mapSpans f :: Expr.mapSpansEach f es

def Expr.mapSpansOption (f : Span → Span) : Option Expr → Option Expr
  | none => none
  | some e => some (e.mapSpans f)

def ExprKind.mapSpans (f : Span → Span) : ExprKind → ExprKind
  | .name name => .name (name.mapSpans f)
  | .literal literal => .literal (literal.mapSpans f)
  | .unary op operand => .unary op (operand.mapSpans f)
  | .binary op assoc left right => .binary op assoc (left.mapSpans f) (right.mapSpans f)
  | .comparison op assoc left right => .comparison op assoc (left.mapSpans f) (right.mapSpans f)
  | .call callee args body =>
    .call (callee.mapSpans f) (Expr.mapSpansEach f args) (Block.mapSpansOption f body)
  | .group inner => .group (inner.mapSpans f)
  | .pair key value => .pair (key.mapSpans f) (value.mapSpans f)
  | .object entries => .object (Statement.mapSpansEach f entries)
  | .array items => .array (Expr.mapSpansEach f items)
  | .transition source target => .transition (source.mapSpans f) (target.mapSpans f)
  | .ifExpr stmt => .ifExpr (stmt.mapSpans f)
  | .whenExpr stmt => .whenExpr (stmt.mapSpans f)

def PairKey.mapSpans (f : Span → Span) : PairKey → PairKey
  | .name name => .name (name.mapSpans f)
  | .string literal => .string (literal.mapSpans f)

def Literal.mapSpans (f : Span → Span) : Literal → Literal
  | .number kind raw => .number kind raw
  | .string literal => .string (literal.mapSpans f)
  | .bool value => .bool value
  | .null => .null
  | .nil => .nil

def StringLiteral.mapSpans (f : Span → Span) : StringLiteral → StringLiteral
  | ⟨form, parts, span⟩ => ⟨form, StringPart.mapSpansEach f parts, f span⟩

def StringPart.mapSpans (f : Span → Span) : StringPart → StringPart
  | .text text => .text text
  | .nameHole name => .nameHole (name.mapSpans f)
  | .exprHole expr => .exprHole (expr.mapSpans f)

def StringPart.mapSpansEach (f : Span → Span) : List StringPart → List StringPart
  | [] => []
  | p :: ps => p.mapSpans f :: StringPart.mapSpansEach f ps

def Block.mapSpans (f : Span → Span) : Block → Block
  | ⟨statements, span⟩ => ⟨Statement.mapSpansEach f statements, f span⟩

def Block.mapSpansOption (f : Span → Span) : Option Block → Option Block
  | none => none
  | some block => some (block.mapSpans f)

def Statement.mapSpans (f : Span → Span) : Statement → Statement
  | ⟨kind, span⟩ => ⟨kind.mapSpans f, f span⟩

def Statement.mapSpansEach (f : Span → Span) : List Statement → List Statement
  | [] => []
  | s :: ss => s.mapSpans f :: Statement.mapSpansEach f ss

def StatementKind.mapSpans (f : Span → Span) : StatementKind → StatementKind
  | .modDecl name body => .modDecl (name.mapSpans f) (body.mapSpans f)
  | .useDecl decl => .useDecl (decl.mapSpans f)
  | .importDecl decl => .importDecl (decl.mapSpans f)
  | .varDecl decl => .varDecl (decl.mapSpans f)
  | .fnDecl decl => .fnDecl (decl.mapSpans f)
  | .nodeDecl decl => .nodeDecl (decl.mapSpans f)
  | .assign target value => .assign (target.mapSpans f) (value.mapSpans f)
  | .ifStmt stmt => .ifStmt (stmt.mapSpans f)
  | .forStmt stmt => .forStmt (stmt.mapSpans f)
  | .whenStmt stmt => .whenStmt (stmt.mapSpans f)
  | .uiBlock body => .uiBlock (body.mapSpans f)
  | .styleBlock body => .styleBlock (body.mapSpans f)
  | .typeDecl decl => .typeDecl (decl.mapSpans f)
  | .enumDecl decl => .enumDecl (decl.mapSpans f)
  | .breakStmt => .breakStmt
  | .expr expr => .expr (expr.mapSpans f)

def ImportDecl.mapSpans (f : Span → Span) : ImportDecl → ImportDecl
  | ⟨path, none, span⟩ => ⟨path.mapSpans f, none, f span⟩
  | ⟨path, some args, span⟩ => ⟨path.mapSpans f, some (Expr.mapSpansEach f args), f span⟩

def VarDecl.mapSpans (f : Span → Span) : VarDecl → VarDecl
  | ⟨binding, name, type, value, span⟩ =>
    ⟨binding, name.mapSpans f, type.map (TypeRef.mapSpans f), value.mapSpans f, f span⟩

def VarDecl.mapSpansEach (f : Span → Span) : List VarDecl → List VarDecl
  | [] => []
  | d :: ds => d.mapSpans f :: VarDecl.mapSpansEach f ds

def FnDecl.mapSpans (f : Span → Span) : FnDecl → FnDecl
  | ⟨name, params, result, body, span⟩ =>
    ⟨name.mapSpans f, params.map (Param.mapSpans f), result.map (TypeRef.mapSpans f),
      body.mapSpans f, f span⟩

def FnBody.mapSpans (f : Span → Span) : FnBody → FnBody
  | .block block => .block (block.mapSpans f)
  | .expr expr => .expr (expr.mapSpans f)

def NodeDecl.mapSpans (f : Span → Span) : NodeDecl → NodeDecl
  | ⟨name, props, none, span⟩ =>
    ⟨name.mapSpans f, props.map (Property.mapSpans f), none, f span⟩
  | ⟨name, props, some entries, span⟩ =>
    ⟨name.mapSpans f, props.map (Property.mapSpans f), some (Statement.mapSpansEach f entries),
      f span⟩

def EnumDecl.mapSpans (f : Span → Span) : EnumDecl → EnumDecl
  | ⟨name, members, span⟩ => ⟨name.mapSpans f, EnumMember.mapSpansEach f members, f span⟩

def EnumMember.mapSpans (f : Span → Span) : EnumMember → EnumMember
  | ⟨name, value, span⟩ => ⟨name.mapSpans f, Expr.mapSpansOption f value, f span⟩

def EnumMember.mapSpansEach (f : Span → Span) : List EnumMember → List EnumMember
  | [] => []
  | m :: ms => m.mapSpans f :: EnumMember.mapSpansEach f ms

def IfStmt.mapSpans (f : Span → Span) : IfStmt → IfStmt
  | ⟨condition, body, elseIfs, elseBody, span⟩ =>
    ⟨condition.mapSpans f, body.mapSpans f, ElseIf.mapSpansEach f elseIfs,
      Block.mapSpansOption f elseBody, f span⟩

def ElseIf.mapSpans (f : Span → Span) : ElseIf → ElseIf
  | ⟨condition, body, span⟩ => ⟨condition.mapSpans f, body.mapSpans f, f span⟩

def ElseIf.mapSpansEach (f : Span → Span) : List ElseIf → List ElseIf
  | [] => []
  | e :: es => e.mapSpans f :: ElseIf.mapSpansEach f es

def ForStmt.mapSpans (f : Span → Span) : ForStmt → ForStmt
  | ⟨head, body, span⟩ => ⟨head.mapSpans f, body.mapSpans f, f span⟩

def ForHead.mapSpans (f : Span → Span) : ForHead → ForHead
  | .counted init condition =>
    .counted (VarDecl.mapSpansEach f init) (Expr.mapSpansOption f condition)
  | .iterate index name iterable =>
    .iterate (index.map (Ident.mapSpans f)) (name.mapSpans f) (iterable.mapSpans f)

def WhenStmt.mapSpans (f : Span → Span) : WhenStmt → WhenStmt
  | ⟨init, subject, cases, elseBody, span⟩ =>
    ⟨VarDecl.mapSpansEach f init, subject.mapSpans f, WhenCase.mapSpansEach f cases,
      CaseBody.mapSpansOption f elseBody, f span⟩

def WhenCase.mapSpans (f : Span → Span) : WhenCase → WhenCase
  | ⟨pattern, body, span⟩ => ⟨pattern.mapSpans f, body.mapSpans f, f span⟩

def WhenCase.mapSpansEach (f : Span → Span) : List WhenCase → List WhenCase
  | [] => []
  | c :: cs => c.mapSpans f :: WhenCase.mapSpansEach f cs

def CaseBody.mapSpans (f : Span → Span) : CaseBody → CaseBody
  | .block block => .block (block.mapSpans f)
  | .arrow statement => .arrow (statement.mapSpans f)

def CaseBody.mapSpansOption (f : Span → Span) : Option CaseBody → Option CaseBody
  | none => none
  | some body => some (body.mapSpans f)

end

/-- The statements that are entries of a node: an expression, which is a pair there, and an `if`. -/
theorem Statement.mapSpans_expr (f : Span → Span) (e : Expr) (span : Span) :
    Statement.mapSpans f ⟨.expr e, span⟩ = ⟨.expr (e.mapSpans f), f span⟩ := by
  simp only [Statement.mapSpans, StatementKind.mapSpans]

theorem Statement.mapSpans_ifStmt (f : Span → Span) (stmt : IfStmt) (span : Span) :
    Statement.mapSpans f ⟨.ifStmt stmt, span⟩ = ⟨.ifStmt (stmt.mapSpans f), f span⟩ := by
  simp only [Statement.mapSpans, StatementKind.mapSpans]

def Program.mapSpans (f : Span → Span) (p : Program) : Program :=
  ⟨Statement.mapSpansEach f p.statements, f p.span⟩

/-- A tree whose text stands `k` bytes further on. -/
def Expr.shift (k : Nat) (e : Expr) : Expr := e.mapSpans (Span.shift k)

def Statement.shift (k : Nat) (s : Statement) : Statement := s.mapSpans (Span.shift k)

/-- What is left of a tree when it does not matter where its text stands. -/
def Expr.erase (e : Expr) : Expr := e.mapSpans fun _ => default

def Statement.erase (s : Statement) : Statement := s.mapSpans fun _ => default

def Program.erase (p : Program) : Program := p.mapSpans fun _ => default

end Script
