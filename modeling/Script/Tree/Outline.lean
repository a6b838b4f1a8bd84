import Script.Tree.Basic

/-!
Outlines of trees. An outline keeps of a tree what has a span of its own, in the order of the
source: every such node with the nodes right below it, and with its text where the node keeps that.
What has no span, such as a literal or the head of a loop, gives its nodes to the node around it.
-/
namespace Script

structure Outline where
  span : Span
  /-- What the source is said to have at the span: the text of an identifier or of a number. -/
  text : Option String
  children : List Outline

def Ident.outline (i : Ident) : Outline := ⟨i.span, some i.text, []⟩

def Name.outline (n : Name) : Outline := ⟨n.span, none, n.segments.map Ident.outline⟩

def TypeKind.outlines : TypeKind → List Outline
  | .primitive _ => []
  | .named name => [name.outline]

def TypeRef.outline (t : TypeRef) : Outline := ⟨t.span, none, t.kind.outlines⟩

def TypeRef.outlineOption : Option TypeRef → List Outline
  | none => []
  | some type => [type.outline]

def UseDecl.outline (d : UseDecl) : Outline :=
  ⟨d.span, none, d.path.outline :: d.subs.map Name.outline⟩

def Param.outline (p : Param) : Outline :=
  ⟨p.span, none, p.name.outline :: TypeRef.outlineOption p.type⟩

def Property.outline (p : Property) : Outline :=
  ⟨p.span, none, p.name.outline :: TypeRef.outlineOption p.type⟩

def FieldDecl.outline (d : FieldDecl) : Outline :=
  ⟨d.span, none, [d.name.outline, d.type.outline]⟩

def TypeDecl.outline (d : TypeDecl) : Outline :=
  ⟨d.span, none, d.name.outline :: d.fields.map FieldDecl.outline⟩

/-- The written form of a number. -/
def ExprKind.raw? : ExprKind → Option String
  | .literal (.number _ raw) => some raw
  | _ => none

mutual

def Expr.outline : Expr → Outline
  | ⟨kind, span⟩ => ⟨span, kind.raw?, kind.outlines⟩

def Expr.outlineEach : List Expr → List Outline
  | [] => []
  | e :: es => e.outline :: Expr.outlineEach es

def Expr.outlineOption : Option Expr → List Outline
  | none => []
  | some e => [e.outline]

def ExprKind.outlines : ExprKind → List Outline
  | .name name => [name.outline]
  | .literal literal => literal.outlines
  | .unary _ operand => [operand.outline]
  | .binary _ _ left right => [left.outline, right.outline]
  | .comparison _ _ left right => [left.outline, right.outline]
  | .call callee args body =>
    callee.outline :: (Expr.outlineEach args ++ Block.outlineOption body)
  | .group inner => [inner.outline]
  | .pair key value => key.outlines ++ [value.outline]
  | .object entries => Statement.outlineEach entries
  | .array items => Expr.outlineEach items
  | .transition source target => [source.outline, target.outline]
  | .ifExpr stmt => [stmt.outline]
  | .whenExpr stmt => [stmt.outline]

def PairKey.outlines : PairKey → List Outline
  | .name name => [name.outline]
  | .string literal => [literal.outline]

def Literal.outlines : Literal → List Outline
  | .string literal => [literal.outline]
  | _ => []

def StringLiteral.outline : StringLiteral → Outline
  | ⟨_, parts, span⟩ => ⟨span, none, StringPart.outlines parts⟩

/-- The nodes in the holes of a literal. -/
def StringPart.outlines : List StringPart → List Outline
  | [] => []
  | .text _ :: ps => StringPart.outlines ps
  | .nameHole name :: ps => name.outline :: StringPart.outlines ps
  | .exprHole expr :: ps => expr.outline :: StringPart.outlines ps

def Block.outline : Block → Outline
  | ⟨statements, span⟩ => ⟨span, none, Statement.outlineEach statements⟩

def Block.outlineOption : Option Block → List Outline
  | none => []
  | some block => [block.outline]

def Statement.outline : Statement → Outline
  | ⟨kind, span⟩ => ⟨span, none, kind.outlines⟩

def Statement.outlineEach : List Statement → List Outline
  | [] => []
  | s :: ss => s.outline :: Statement.outlineEach ss

def StatementKind.outlines : StatementKind → List Outline
  | .modDecl name body => [name.outline, body.outline]
  | .useDecl decl => [decl.outline]
  | .importDecl decl => [decl.outline]
  | .varDecl decl => [decl.outline]
  | .fnDecl decl => [decl.outline]
  | .nodeDecl decl => [decl.outline]
  | .assign target value => [target.outline, value.outline]
  | .ifStmt stmt => [stmt.outline]
  | .forStmt stmt => [stmt.outline]
  | .whenStmt stmt => [stmt.outline]
  | .uiBlock body => [body.outline]
  | .styleBlock body => [body.outline]
  | .typeDecl decl => [decl.outline]
  | .enumDecl decl => [decl.outline]
  | .breakStmt => []
  | .expr expr => [expr.outline]

def ImportDecl.outline : ImportDecl → Outline
  | ⟨path, none, span⟩ => ⟨span, none, [path.outline]⟩
  | ⟨path, some args, span⟩ => ⟨span, none, path.outline :: Expr.outlineEach args⟩

def VarDecl.outline : VarDecl → Outline
  | ⟨_, name, type, value, span⟩ =>
    ⟨span, none, name.outline :: (TypeRef.outlineOption type ++ [value.outline])⟩

def VarDecl.outlineEach : List VarDecl → List Outline
  | [] => []
  | d :: ds => d.outline :: VarDecl.outlineEach ds

def FnDecl.outline : FnDecl → Outline
  | ⟨name, params, result, body, span⟩ =>
    ⟨span, none, name.outline ::
      (params.map Param.outline ++ (TypeRef.outlineOption result ++ [body.outline]))⟩

def FnBody.outline : FnBody → Outline
  | .block block => block.outline
  | .expr expr => expr.outline

def NodeDecl.outline : NodeDecl → Outline
  | ⟨name, props, none, span⟩ => ⟨span, none, name.outline :: props.map Property.outline⟩
  | ⟨name, props, some entries, span⟩ =>
    ⟨span, none, name.outline :: (props.map Property.outline ++ Statement.outlineEach entries)⟩

def EnumDecl.outline : EnumDecl → Outline
  | ⟨name, members, span⟩ => ⟨span, none, name.outline :: EnumMember.outlineEach members⟩

def EnumMember.outline : EnumMember → Outline
  | ⟨name, value, span⟩ => ⟨span, none, name.outline :: Expr.outlineOption value⟩

def EnumMember.outlineEach : List EnumMember → List Outline
  | [] => []
  | m :: ms => m.outline :: EnumMember.outlineEach ms

def IfStmt.outline : IfStmt → Outline
  | ⟨condition, body, elseIfs, elseBody, span⟩ =>
    ⟨span, none, condition.outline :: body.outline ::
      (ElseIf.outlineEach elseIfs ++ Block.outlineOption elseBody)⟩

def ElseIf.outline : ElseIf → Outline
  | ⟨condition, body, span⟩ => ⟨span, none, [condition.outline, body.outline]⟩

def ElseIf.outlineEach : List ElseIf → List Outline
  | [] => []
  | e :: es => e.outline :: ElseIf.outlineEach es

def ForStmt.outline : ForStmt → Outline
  | ⟨head, body, span⟩ => ⟨span, none, head.outlines ++ [body.outline]⟩

def ForHead.outlines : ForHead → List Outline
  | .counted init condition => VarDecl.outlineEach init ++ Expr.outlineOption condition
  | .iterate none name iterable => [name.outline, iterable.outline]
  | .iterate (some index) name iterable => [index.outline, name.outline, iterable.outline]

def WhenStmt.outline : WhenStmt → Outline
  | ⟨init, subject, cases, elseBody, span⟩ =>
    ⟨span, none, VarDecl.outlineEach init ++ subject.outline ::
      (WhenCase.outlineEach cases ++ CaseBody.outlineOption elseBody)⟩

def WhenCase.outline : WhenCase → Outline
  | ⟨pattern, body, span⟩ => ⟨span, none, [pattern.outline, body.outline]⟩

def WhenCase.outlineEach : List WhenCase → List Outline
  | [] => []
  | c :: cs => c.outline :: WhenCase.outlineEach cs

def CaseBody.outline : CaseBody → Outline
  | .block block => block.outline
  | .arrow statement => statement.outline

def CaseBody.outlineOption : Option CaseBody → List Outline
  | none => []
  | some body => [body.outline]

end

/-- The nodes right below a program. -/
def Program.outlines (p : Program) : List Outline := Statement.outlineEach p.statements

end Script
