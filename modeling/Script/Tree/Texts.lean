import Script.Tree.Layout

/-!
The texts that a tree keeps and its written form has as they stand: its identifiers, its numbers,
and the text of those string literals that write a line feed as a line feed. The nodes in the holes
of a literal have theirs like any other.
-/
namespace Script

/-- Forms whose text keeps its line feeds in writing; the others write an escape. -/
def StringForm.keepsLines : StringForm → Bool
  | .multiline | .formattedTick => true
  | .double | .single | .formatted | .formattedTriple => false

def Name.texts (n : Name) : List String := n.segments.map Ident.text

def TypeKind.texts : TypeKind → List String
  | .primitive _ => []
  | .named name => name.texts

def TypeRef.texts (t : TypeRef) : List String := t.kind.texts

def TypeRef.textsOption : Option TypeRef → List String
  | none => []
  | some type => type.texts

def UseDecl.texts (d : UseDecl) : List String := d.path.texts ++ d.subs.flatMap Name.texts

def Param.texts (p : Param) : List String := p.name.text :: TypeRef.textsOption p.type

def Property.texts (p : Property) : List String := p.name.texts ++ TypeRef.textsOption p.type

def FieldDecl.texts (d : FieldDecl) : List String := d.name.text :: d.type.texts

def TypeDecl.texts (d : TypeDecl) : List String := d.name.text :: d.fields.flatMap FieldDecl.texts

mutual

def Expr.texts : Expr → List String
  | ⟨kind, _⟩ => kind.texts

def Expr.textsEach : List Expr → List String
  | [] => []
  | e :: es => e.texts ++ Expr.textsEach es

def Expr.textsOption : Option Expr → List String
  | none => []
  | some e => e.texts

def ExprKind.texts : ExprKind → List String
  | .name name => name.texts
  | .literal literal => literal.texts
  | .unary _ operand => operand.texts
  | .binary _ _ left right => left.texts ++ right.texts
  | .comparison _ _ left right => left.texts ++ right.texts
  | .call callee args body => callee.texts ++ (Expr.textsEach args ++ Block.textsOption body)
  | .group inner => inner.texts
  | .pair key value => key.texts ++ value.texts
  | .object entries => Statement.textsEach entries
  | .array items => Expr.textsEach items
  | .transition source target => source.texts ++ target.texts
  | .ifExpr stmt => stmt.texts
  | .whenExpr stmt => stmt.texts

def PairKey.texts : PairKey → List String
  | .name name => name.texts
  | .string literal => literal.texts

def Literal.texts : Literal → List String
  | .number _ raw => [raw]
  | .string literal => literal.texts
  | .bool _ | .null | .nil => []

def StringLiteral.texts : StringLiteral → List String
  | ⟨form, parts, _⟩ => StringPart.textsEach form parts

def StringPart.texts (form : StringForm) : StringPart → List String
  | .text text => if form.keepsLines then [text] else []
  | .nameHole name => name.texts
  | .exprHole expr => expr.texts

def StringPart.textsEach (form : StringForm) : List StringPart → List String
  | [] => []
  | p :: ps => p.texts form ++ StringPart.textsEach form ps

def Block.texts : Block → List String
  | ⟨statements, _⟩ => Statement.textsEach statements

def Block.textsOption : Option Block → List String
  | none => []
  | some block => block.texts

def Statement.texts : Statement → List String
  | ⟨kind, _⟩ => kind.texts

def Statement.textsEach : List Statement → List String
  | [] => []
  | s :: ss => s.texts ++ Statement.textsEach ss

def StatementKind.texts : StatementKind → List String
  | .modDecl name body => name.texts ++ body.texts
  | .useDecl decl => decl.texts
  | .importDecl decl => decl.texts
  | .varDecl decl => decl.texts
  | .fnDecl decl => decl.texts
  | .nodeDecl decl => decl.texts
  | .assign target value => target.texts ++ value.texts
  | .ifStmt stmt => stmt.texts
  | .forStmt stmt => stmt.texts
  | .whenStmt stmt => stmt.texts
  | .uiBlock body => body.texts
  | .styleBlock body => body.texts
  | .typeDecl decl => decl.texts
  | .enumDecl decl => decl.texts
  | .breakStmt => []
  | .expr expr => expr.texts

def ImportDecl.texts : ImportDecl → List String
  | ⟨path, none, _⟩ => path.texts
  | ⟨path, some args, _⟩ => path.texts ++ Expr.textsEach args

def VarDecl.texts : VarDecl → List String
  | ⟨_, name, type, value, _⟩ => name.text :: (TypeRef.textsOption type ++ value.texts)

def VarDecl.textsEach : List VarDecl → List String
  | [] => []
  | d :: ds => d.texts ++ VarDecl.textsEach ds

def FnDecl.texts : FnDecl → List String
  | ⟨name, params, result, body, _⟩ =>
    name.texts ++ (params.flatMap Param.texts ++ (TypeRef.textsOption result ++ body.texts))

def FnBody.texts : FnBody → List String
  | .block block => block.texts
  | .expr expr => expr.texts

def NodeDecl.texts : NodeDecl → List String
  | ⟨name, props, none, _⟩ => name.texts ++ props.flatMap Property.texts
  | ⟨name, props, some entries, _⟩ =>
    name.texts ++ (props.flatMap Property.texts ++ Statement.textsEach entries)

def EnumDecl.texts : EnumDecl → List String
  | ⟨name, members, _⟩ => name.text :: EnumMember.textsEach members

def EnumMember.texts : EnumMember → List String
  | ⟨name, value, _⟩ => name.text :: Expr.textsOption value

def EnumMember.textsEach : List EnumMember → List String
  | [] => []
  | m :: ms => m.texts ++ EnumMember.textsEach ms

def IfStmt.texts : IfStmt → List String
  | ⟨condition, body, elseIfs, elseBody, _⟩ =>
    condition.texts ++ (body.texts ++ (ElseIf.textsEach elseIfs ++ Block.textsOption elseBody))

def ElseIf.texts : ElseIf → List String
  | ⟨condition, body, _⟩ => condition.texts ++ body.texts

def ElseIf.textsEach : List ElseIf → List String
  | [] => []
  | e :: es => e.texts ++ ElseIf.textsEach es

def ForStmt.texts : ForStmt → List String
  | ⟨head, body, _⟩ => head.texts ++ body.texts

def ForHead.texts : ForHead → List String
  | .counted init condition => VarDecl.textsEach init ++ Expr.textsOption condition
  | .iterate none name iterable => name.text :: iterable.texts
  | .iterate (some index) name iterable => index.text :: name.text :: iterable.texts

def WhenStmt.texts : WhenStmt → List String
  | ⟨init, subject, cases, elseBody, _⟩ =>
    VarDecl.textsEach init ++
      (subject.texts ++ (WhenCase.textsEach cases ++ CaseBody.textsOption elseBody))

def WhenCase.texts : WhenCase → List String
  | ⟨pattern, body, _⟩ => pattern.texts ++ body.texts

def WhenCase.textsEach : List WhenCase → List String
  | [] => []
  | c :: cs => c.texts ++ WhenCase.textsEach cs

def CaseBody.texts : CaseBody → List String
  | .block block => block.texts
  | .arrow statement => statement.texts

def CaseBody.textsOption : Option CaseBody → List String
  | none => []
  | some body => body.texts

end

def Program.texts (p : Program) : List String := Statement.textsEach p.statements

/-- Whatever has a written form of its own. -/
inductive Written where
  | program (p : Program)
  | block (b : Block)
  | statement (s : Statement)
  | useDecl (d : UseDecl)
  | importDecl (d : ImportDecl)
  | varDecl (d : VarDecl)
  | fnDecl (d : FnDecl)
  | param (p : Param)
  | nodeDecl (d : NodeDecl)
  | property (p : Property)
  | ifStmt (s : IfStmt)
  | forStmt (s : ForStmt)
  | caseBody (b : CaseBody)
  | whenStmt (s : WhenStmt)
  | typeDecl (d : TypeDecl)
  | enumDecl (d : EnumDecl)
  | expr (e : Expr)
  | pairKey (k : PairKey)
  | literal (l : Literal)
  | stringLiteral (l : StringLiteral)
  | name (n : Name)
  | typeRef (t : TypeRef)

namespace Written

def print (indent : Nat) : Written → String
  | program p => p.print indent
  | block b => b.print indent
  | statement s => s.print indent
  | useDecl d => d.print
  | importDecl d => d.print indent
  | varDecl d => d.print indent
  | fnDecl d => d.print indent
  | param p => p.print
  | nodeDecl d => d.print indent
  | property p => p.print
  | ifStmt s => s.print indent
  | forStmt s => s.print indent
  | caseBody b => b.print indent
  | whenStmt s => s.print indent
  | typeDecl d => d.print indent
  | enumDecl d => d.print indent
  | expr e => e.print indent
  | pairKey k => k.print indent
  | literal l => l.print indent
  | stringLiteral l => l.print indent
  | name n => n.path
  | typeRef t => t.path

def texts : Written → List String
  | program p => p.texts
  | block b => b.texts
  | statement s => s.texts
  | useDecl d => d.texts
  | importDecl d => d.texts
  | varDecl d => d.texts
  | fnDecl d => d.texts
  | param p => p.texts
  | nodeDecl d => d.texts
  | property p => p.texts
  | ifStmt s => s.texts
  | forStmt s => s.texts
  | caseBody b => b.texts
  | whenStmt s => s.texts
  | typeDecl d => d.texts
  | enumDecl d => d.texts
  | expr e => e.texts
  | pairKey k => k.texts
  | literal l => l.texts
  | stringLiteral l => l.texts
  | name n => n.texts
  | typeRef t => t.texts

/-- What stands in front of the first line at level `n`: a margin in front of the first statement of
a program, and nothing in front of any other node. -/
def front (n : Nat) : Written → String
  | program p => if p.statements.isEmpty then "" else Layout.margin n
  | _ => ""

end Written

end Script
