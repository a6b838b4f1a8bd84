import Script.Token.Word
import Script.Tree.Basic

/-!
Trees written out as chunks, node by node in the order of the grammar: two spaces for each level of
a block, one statement a line, and a comma and a space between the items of a list. `gap` stands
before the first word of a node. A string literal is one word, whose text `lit` gives.
-/
namespace Script

open Chunk

def Ident.chunk (gap : List Char) (i : Ident) : Chunk := ⟨gap, ⟨.ident, i.text⟩⟩

/-- The segments of a name, the first of which has the gap before it. -/
def Ident.chunksPath (gap : List Char) : List Ident → List Chunk
  | [] => [⟨gap, ⟨.ident, ""⟩⟩]
  | i :: is => i.chunk gap :: is.flatMap fun j => [symbol [] .dot, j.chunk []]

def Name.chunks (gap : List Char) (n : Name) : List Chunk :=
  if n.relative then symbol gap .dot :: Ident.chunksPath [] n.segments
  else Ident.chunksPath gap n.segments

def TypeRef.chunks (gap : List Char) (t : TypeRef) : List Chunk :=
  match t.kind with
  | .primitive type => [⟨gap, ⟨.ident, type.word⟩⟩]
  | .named name => name.chunks gap

def TypeRef.chunksAnnotation : Option TypeRef → List Chunk
  | none => []
  | some t => t.chunks [' ']

def Param.chunks (gap : List Char) (p : Param) : List Chunk :=
  p.name.chunk gap :: TypeRef.chunksAnnotation p.type

def Property.chunks (gap : List Char) (p : Property) : List Chunk :=
  p.name.chunks gap ++ TypeRef.chunksAnnotation p.type

def FieldDecl.chunks (gap : List Char) (d : FieldDecl) : List Chunk :=
  d.name.chunk gap :: symbol [] .colon :: d.type.chunks [' ']

def TypeDecl.chunks (gap : List Char) (indent : Nat) (d : TypeDecl) : List Chunk :=
  keyword gap .typeWord :: d.name.chunk [' '] :: symbol [' '] .openBrace ::
    d.fields.flatMap (FieldDecl.chunks (lineGap (indent + 1))) ++
    [symbol (lineGap indent) .closeBrace]

def UseDecl.chunksSubs : List Name → List Chunk
  | [] => []
  | n :: ns =>
    symbol [] .colon :: n.chunks [' '] ++ ns.flatMap fun m => symbol [] .comma :: m.chunks [' ']

def UseDecl.chunks (gap : List Char) (d : UseDecl) : List Chunk :=
  keyword gap .useWord :: d.path.chunks [' '] ++ chunksSubs d.subs

def UnaryOp.kind : UnaryOp → TokenKind
  | not => .bang
  | neg => .minus
  | plus => .plus

def BinaryOp.kind : BinaryOp → TokenKind
  | add => .plus
  | sub => .minus
  | mul => .star
  | div => .slash

def CompareOp.kind : CompareOp → TokenKind
  | eq => .eq
  | ne => .ne
  | lt => .lt
  | le => .le
  | gt => .gt
  | ge => .ge

def BindingKind.keyword : BindingKind → Keyword
  | varBinding => .varWord
  | letBinding => .letWord

mutual

def Expr.chunks (lit : Nat → StringLiteral → String) (gap : List Char) (indent : Nat) :
    Expr → List Chunk
  | ⟨kind, _⟩ => kind.chunks lit gap indent

def ExprKind.chunks (lit : Nat → StringLiteral → String) (gap : List Char) (indent : Nat) :
    ExprKind → List Chunk
  | .name name => name.chunks gap
  | .literal literal => [literal.chunk lit gap indent]
  | .unary op operand => symbol gap op.kind :: operand.chunks lit [] indent
  | .binary op _ left right =>
    left.chunks lit gap indent ++ symbol [' '] op.kind :: right.chunks lit [' '] indent
  | .comparison op _ left right =>
    left.chunks lit gap indent ++ symbol [' '] op.kind :: right.chunks lit [' '] indent
  | .call callee args body =>
    callee.chunks lit gap indent ++
      symbol [] .openParen :: Expr.chunksItems lit indent args ++ [symbol [] .closeParen] ++
      Block.chunksTrailing lit indent body
  | .group inner => symbol gap .openParen :: inner.chunks lit [] indent ++ [symbol [] .closeParen]
  | .pair key value =>
    key.chunks lit gap indent ++ symbol [] .colon :: value.chunks lit [' '] indent
  | .object entries =>
    symbol gap .openBrace :: Statement.chunksItems lit indent entries ++ [symbol [] .closeBrace]
  | .array items =>
    symbol gap .openBracket :: Expr.chunksItems lit indent items ++ [symbol [] .closeBracket]
  | .transition source target =>
    source.chunks gap ++ symbol [' '] .arrow :: target.chunks [' ']
  | .ifExpr stmt => stmt.chunks lit gap indent
  | .whenExpr stmt => stmt.chunks lit gap indent

/-- The items of a list, with commas between them. -/
def Expr.chunksItems (lit : Nat → StringLiteral → String) (indent : Nat) : List Expr → List Chunk
  | [] => []
  | e :: es => e.chunks lit [] indent ++ Expr.chunksMore lit indent es

/-- The items of a list after its first, each with the comma before it. -/
def Expr.chunksMore (lit : Nat → StringLiteral → String) (indent : Nat) : List Expr → List Chunk
  | [] => []
  | e :: es => symbol [] .comma :: e.chunks lit [' '] indent ++ Expr.chunksMore lit indent es

def PairKey.chunks (lit : Nat → StringLiteral → String) (gap : List Char) (indent : Nat) :
    PairKey → List Chunk
  | .name name => name.chunks gap
  | .string literal => [literal.chunk lit gap indent]

def Literal.chunk (lit : Nat → StringLiteral → String) (gap : List Char) (indent : Nat) :
    Literal → Chunk
  | .number kind raw => ⟨gap, ⟨.number kind, raw⟩⟩
  | .string literal => literal.chunk lit gap indent
  | .bool true => keyword gap .trueWord
  | .bool false => keyword gap .falseWord
  | .null => keyword gap .nullWord
  | .nil => keyword gap .nilWord

def StringLiteral.chunk (lit : Nat → StringLiteral → String) (gap : List Char) (indent : Nat)
    (l : StringLiteral) : Chunk :=
  ⟨gap, ⟨Lexeme.stringKind l.form, lit indent l⟩⟩

def Block.chunksTrailing (lit : Nat → StringLiteral → String) (indent : Nat) :
    Option Block → List Chunk
  | none => []
  | some block => block.chunks lit [' '] indent

def Block.chunks (lit : Nat → StringLiteral → String) (gap : List Char) (indent : Nat) :
    Block → List Chunk
  | ⟨statements, _⟩ =>
    symbol gap .openBrace :: Statement.chunksLines lit (indent + 1) statements ++
      [symbol (if statements.isEmpty then [] else lineGap indent) .closeBrace]

def Statement.chunks (lit : Nat → StringLiteral → String) (gap : List Char) (indent : Nat) :
    Statement → List Chunk
  | ⟨kind, _⟩ => kind.chunks lit gap indent

/-- Statements on lines of their own. -/
def Statement.chunksLines (lit : Nat → StringLiteral → String) (indent : Nat) :
    List Statement → List Chunk
  | [] => []
  | s :: ss => s.chunks lit (lineGap indent) indent ++ Statement.chunksLines lit indent ss

/-- The entries of an object, with commas between them. -/
def Statement.chunksItems (lit : Nat → StringLiteral → String) (indent : Nat) :
    List Statement → List Chunk
  | [] => []
  | s :: ss => s.chunks lit [] indent ++ Statement.chunksMore lit indent ss

/-- The entries of an object after its first, each with the comma before it. -/
def Statement.chunksMore (lit : Nat → StringLiteral → String) (indent : Nat) :
    List Statement → List Chunk
  | [] => []
  | s :: ss => symbol [] .comma :: s.chunks lit [' '] indent ++ Statement.chunksMore lit indent ss

def StatementKind.chunks (lit : Nat → StringLiteral → String) (gap : List Char) (indent : Nat) :
    StatementKind → List Chunk
  | .modDecl name body =>
    keyword gap .modWord :: name.chunks [' '] ++ body.chunks lit [' '] indent
  | .useDecl decl => decl.chunks gap
  | .importDecl decl => decl.chunks lit gap indent
  | .varDecl decl => decl.chunks lit gap indent
  | .fnDecl decl => decl.chunks lit gap indent
  | .nodeDecl decl => decl.chunks lit gap indent
  | .assign target value =>
    target.chunks gap ++ symbol [' '] .assign :: value.chunks lit [' '] indent
  | .ifStmt stmt => stmt.chunks lit gap indent
  | .forStmt stmt => stmt.chunks lit gap indent
  | .whenStmt stmt => stmt.chunks lit gap indent
  | .uiBlock body => keyword gap .uiWord :: body.chunks lit [' '] indent
  | .styleBlock body => keyword gap .styleWord :: body.chunks lit [' '] indent
  | .typeDecl decl => decl.chunks gap indent
  | .enumDecl decl => decl.chunks lit gap indent
  | .breakStmt => [keyword gap .breakWord]
  | .expr expr => expr.chunks lit gap indent

def ImportDecl.chunks (lit : Nat → StringLiteral → String) (gap : List Char) (indent : Nat) :
    ImportDecl → List Chunk
  | ⟨path, none, _⟩ => keyword gap .importWord :: path.chunks [' ']
  | ⟨path, some args, _⟩ =>
    keyword gap .importWord :: path.chunks [' '] ++
      symbol [] .openParen :: Expr.chunksItems lit indent args ++ [symbol [] .closeParen]

def VarDecl.chunks (lit : Nat → StringLiteral → String) (gap : List Char) (indent : Nat) :
    VarDecl → List Chunk
  | ⟨binding, name, type, value, _⟩ =>
    keyword gap binding.keyword :: name.chunk [' '] :: TypeRef.chunksAnnotation type ++
      symbol [' '] .assign :: value.chunks lit [' '] indent

/-- The bindings at the front of a head, each with its semicolon. -/
def VarDecl.chunksInit (lit : Nat → StringLiteral → String) (indent : Nat) :
    List VarDecl → List Chunk
  | [] => []
  | d :: ds =>
    d.chunks lit [' '] indent ++ symbol [] .semicolon :: VarDecl.chunksInit lit indent ds

def FnDecl.chunks (lit : Nat → StringLiteral → String) (gap : List Char) (indent : Nat) :
    FnDecl → List Chunk
  | ⟨name, params, result, body, _⟩ =>
    keyword gap .fnWord :: name.chunks [' '] ++
      symbol [] .openParen :: commaSeparated Param.chunks params ++ [symbol [] .closeParen] ++
      TypeRef.chunksAnnotation result ++ body.chunks lit indent

def FnBody.chunks (lit : Nat → StringLiteral → String) (indent : Nat) : FnBody → List Chunk
  | .block block => block.chunks lit [' '] indent
  | .expr expr => symbol [' '] .assign :: expr.chunks lit [' '] indent

def NodeDecl.chunks (lit : Nat → StringLiteral → String) (gap : List Char) (indent : Nat) :
    NodeDecl → List Chunk
  | ⟨name, props, none, _⟩ =>
    keyword gap .nodeWord :: name.chunks [' '] ++
      symbol [] .openParen :: commaSeparated Property.chunks props ++ [symbol [] .closeParen]
  | ⟨name, props, some entries, _⟩ =>
    keyword gap .nodeWord :: name.chunks [' '] ++
      symbol [] .openParen :: commaSeparated Property.chunks props ++ [symbol [] .closeParen] ++
      symbol [' '] .openBrace :: Statement.chunksLines lit (indent + 1) entries ++
      [symbol (if entries.isEmpty then [] else lineGap indent) .closeBrace]

def EnumDecl.chunks (lit : Nat → StringLiteral → String) (gap : List Char) (indent : Nat) :
    EnumDecl → List Chunk
  | ⟨name, members, _⟩ =>
    keyword gap .enumWord :: name.chunk [' '] :: symbol [' '] .openBrace ::
      EnumMember.chunksLines lit (indent + 1) members ++ [symbol (lineGap indent) .closeBrace]

def EnumMember.chunksLines (lit : Nat → StringLiteral → String) (indent : Nat) :
    List EnumMember → List Chunk
  | [] => []
  | m :: ms => m.chunks lit (lineGap indent) indent ++ EnumMember.chunksLines lit indent ms

def EnumMember.chunks (lit : Nat → StringLiteral → String) (gap : List Char) (indent : Nat) :
    EnumMember → List Chunk
  | ⟨name, none, _⟩ => [name.chunk gap]
  | ⟨name, some value, _⟩ =>
    name.chunk gap :: symbol [' '] .assign :: value.chunks lit [' '] indent

def IfStmt.chunks (lit : Nat → StringLiteral → String) (gap : List Char) (indent : Nat) :
    IfStmt → List Chunk
  | ⟨condition, body, elseIfs, elseBody, _⟩ =>
    keyword gap .ifWord :: condition.chunks lit [' '] indent ++ body.chunks lit [' '] indent ++
      ElseIf.chunksEach lit indent elseIfs ++ Block.chunksElse lit indent elseBody

def ElseIf.chunksEach (lit : Nat → StringLiteral → String) (indent : Nat) :
    List ElseIf → List Chunk
  | [] => []
  | e :: es => e.chunks lit indent ++ ElseIf.chunksEach lit indent es

def ElseIf.chunks (lit : Nat → StringLiteral → String) (indent : Nat) : ElseIf → List Chunk
  | ⟨condition, body, _⟩ =>
    keyword [' '] .elseWord :: keyword [' '] .ifWord ::
      condition.chunks lit [' '] indent ++ body.chunks lit [' '] indent

def Block.chunksElse (lit : Nat → StringLiteral → String) (indent : Nat) :
    Option Block → List Chunk
  | none => []
  | some block => keyword [' '] .elseWord :: block.chunks lit [' '] indent

def ForStmt.chunks (lit : Nat → StringLiteral → String) (gap : List Char) (indent : Nat) :
    ForStmt → List Chunk
  | ⟨head, body, _⟩ =>
    keyword gap .forWord :: head.chunks lit indent ++ body.chunks lit [' '] indent

def ForHead.chunks (lit : Nat → StringLiteral → String) (indent : Nat) : ForHead → List Chunk
  | .counted init none => VarDecl.chunksInit lit indent init
  | .counted init (some condition) =>
    VarDecl.chunksInit lit indent init ++ condition.chunks lit [' '] indent
  | .iterate none name iterable =>
    name.chunk [' '] :: keyword [' '] .inWord :: iterable.chunks lit [' '] indent
  | .iterate (some index) name iterable =>
    index.chunk [' '] :: symbol [] .comma :: name.chunk [' '] :: keyword [' '] .inWord ::
      iterable.chunks lit [' '] indent

def WhenStmt.chunks (lit : Nat → StringLiteral → String) (gap : List Char) (indent : Nat) :
    WhenStmt → List Chunk
  | ⟨init, subject, cases, elseBody, _⟩ =>
    keyword gap .whenWord :: VarDecl.chunksInit lit indent init ++
      subject.chunks lit [' '] indent ++ symbol [' '] .openBrace ::
      WhenCase.chunksLines lit (indent + 1) cases ++
      CaseBody.chunksElse lit (indent + 1) elseBody ++ [symbol (lineGap indent) .closeBrace]

def WhenCase.chunksLines (lit : Nat → StringLiteral → String) (indent : Nat) :
    List WhenCase → List Chunk
  | [] => []
  | c :: cs => c.chunks lit (lineGap indent) indent ++ WhenCase.chunksLines lit indent cs

def WhenCase.chunks (lit : Nat → StringLiteral → String) (gap : List Char) (indent : Nat) :
    WhenCase → List Chunk
  | ⟨pattern, body, _⟩ =>
    keyword gap .isWord :: pattern.chunks lit [' '] indent ++ body.chunks lit indent

def CaseBody.chunksElse (lit : Nat → StringLiteral → String) (indent : Nat) :
    Option CaseBody → List Chunk
  | none => []
  | some body => keyword (lineGap indent) .elseWord :: body.chunks lit indent

def CaseBody.chunks (lit : Nat → StringLiteral → String) (indent : Nat) : CaseBody → List Chunk
  | .block block => block.chunks lit [' '] indent
  | .arrow statement => symbol [' '] .arrow :: statement.chunks lit [' '] indent

end

/-- The text of a literal in the source that it was read from. -/
def StringLiteral.quoted (source : String) : Nat → StringLiteral → String :=
  fun _ l => l.span.text source

/-- The words of a program in the order of the grammar, without the separators. String literals
are as they stand in the source. -/
def Program.words (source : String) (p : Program) : List Word :=
  Chunk.words (Statement.chunksLines (StringLiteral.quoted source) 0 p.statements)

end Script
