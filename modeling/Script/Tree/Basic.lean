import Script.Token.Kind
import Script.Token.StringForm
import Script.Tree.Name
import Script.Tree.Operator

/-!
Syntax trees. An expression or statement is its kind and its span; expressions and statements
contain each other, since an object or a trailing block holds statements and a string literal holds
expressions in its holes.
-/
namespace Script

/-- Which word introduced a binding. -/
inductive BindingKind where
  | varBinding
  | letBinding
deriving DecidableEq, Repr, Inhabited

def BindingKind.word : BindingKind → String
  | varBinding => "var"
  | letBinding => "let"

/-- `use a.b: c, d` -/
structure UseDecl where
  path : Name
  subs : List Name
  span : Span
deriving DecidableEq, Repr, Inhabited

/-- A parameter of a function, `a` or `a int`. -/
structure Param where
  name : Ident
  type : Option TypeRef
  span : Span
deriving DecidableEq, Repr, Inhabited

/-- A property of a node, `onClick` or `label str`. -/
structure Property where
  name : Name
  type : Option TypeRef
  span : Span
deriving DecidableEq, Repr, Inhabited

/-- A field of a type, `x: int`. -/
structure FieldDecl where
  name : Ident
  type : TypeRef
  span : Span
deriving DecidableEq, Repr, Inhabited

structure TypeDecl where
  name : Ident
  fields : List FieldDecl
  span : Span
deriving DecidableEq, Repr, Inhabited

mutual

structure Expr where
  kind : ExprKind
  span : Span

inductive ExprKind where
  | name (name : Name)
  | literal (literal : Literal)
  | unary (op : UnaryOp) (operand : Expr)
  | binary (op : BinaryOp) (assoc : Assoc) (left right : Expr)
  | comparison (op : CompareOp) (assoc : Assoc) (left right : Expr)
  | call (callee : Expr) (args : List Expr) (body : Option Block)
  | group (inner : Expr)
  | pair (key : PairKey) (value : Expr)
  | object (entries : List Statement)
  | array (items : List Expr)
  | transition (source target : Name)
  | ifExpr (stmt : IfStmt)
  | whenExpr (stmt : WhenStmt)

inductive PairKey where
  | name (name : Name)
  | string (literal : StringLiteral)

/-- A literal value. Numbers keep their written form. -/
inductive Literal where
  | number (kind : NumberKind) (raw : String)
  | string (literal : StringLiteral)
  | bool (value : Bool)
  | null
  | nil

structure StringLiteral where
  form : StringForm
  parts : List StringPart
  span : Span

/-- A part of a string literal: text with its escapes resolved, or a hole. -/
inductive StringPart where
  | text (text : String)
  | nameHole (name : Name)
  | exprHole (expr : Expr)

structure Block where
  statements : List Statement
  span : Span

structure Statement where
  kind : StatementKind
  span : Span

inductive StatementKind where
  | modDecl (name : Name) (body : Block)
  | useDecl (decl : UseDecl)
  | importDecl (decl : ImportDecl)
  | varDecl (decl : VarDecl)
  | fnDecl (decl : FnDecl)
  | nodeDecl (decl : NodeDecl)
  | assign (target : Name) (value : Expr)
  | ifStmt (stmt : IfStmt)
  | forStmt (stmt : ForStmt)
  | whenStmt (stmt : WhenStmt)
  | uiBlock (body : Block)
  | styleBlock (body : Block)
  | typeDecl (decl : TypeDecl)
  | enumDecl (decl : EnumDecl)
  | breakStmt
  | expr (expr : Expr)

/-- `import a.b(args)` -/
structure ImportDecl where
  path : Name
  args : Option (List Expr)
  span : Span

/-- `var name type = value` -/
structure VarDecl where
  binding : BindingKind
  name : Ident
  type : Option TypeRef
  value : Expr
  span : Span

structure FnDecl where
  name : Name
  params : List Param
  result : Option TypeRef
  body : FnBody
  span : Span

inductive FnBody where
  | block (block : Block)
  | expr (expr : Expr)

/-- A node declaration. The entries that are read are pairs and `if` statements only. -/
structure NodeDecl where
  name : Name
  props : List Property
  body : Option (List Statement)
  span : Span

structure EnumDecl where
  name : Ident
  members : List EnumMember
  span : Span

structure EnumMember where
  name : Ident
  value : Option Expr
  span : Span

structure IfStmt where
  condition : Expr
  body : Block
  elseIfs : List ElseIf
  elseBody : Option Block
  span : Span

structure ElseIf where
  condition : Expr
  body : Block
  span : Span

structure ForStmt where
  head : ForHead
  body : Block
  span : Span

/-- The head of a loop: `for var i = 0; i < n` or `for i, item in items`. -/
inductive ForHead where
  | counted (init : List VarDecl) (condition : Option Expr)
  | iterate (index : Option Ident) (name : Ident) (iterable : Expr)

structure WhenStmt where
  init : List VarDecl
  subject : Expr
  cases : List WhenCase
  elseBody : Option CaseBody
  span : Span

/-- `is pattern -> statement` or `is pattern` with a block. -/
structure WhenCase where
  pattern : Expr
  body : CaseBody
  span : Span

inductive CaseBody where
  | block (block : Block)
  | arrow (statement : Statement)

end

/-- A whole source text. -/
structure Program where
  statements : List Statement
  span : Span

namespace Expr

/-- An expression without the parentheses around it. -/
def ungrouped : Expr → Expr
  | ⟨.group inner, _⟩ => inner.ungrouped
  | e => e

end Expr

end Script
