import Script.Tree.Basic

/-!
The shapes that a tree in JSON form is made of. A shape names a type of node, a record that a
variant carries, a plain value, or a list or an absence of these; `Carrier` is the type that it
stands for, and `fieldNames` tells how the parts of a record are called.
-/
namespace Script

inductive Shape where
  | unit | bound | flag | text | span
  | ident | name | primitive | typeKind | typeRef
  | numberKind | stringForm | unaryOp | binaryOp | compareOp | assoc | bindingKind
  | expr | exprKind | pairKey | literal | stringLiteral | stringPart | hole
  | unaryFields | binaryFields | comparisonFields | callFields | pairFields | transitionFields
  | numberFields
  | block | statement | statementKind | modFields | assignFields
  | useDecl | importDecl | varDecl | fnDecl | fnBody | param | nodeDecl | property
  | typeDecl | fieldDecl | enumDecl | enumMember
  | ifStmt | elseIf | forStmt | forHead | countedFields | iterateFields
  | whenStmt | whenCase | caseBody | program
  | list (item : Shape)
  | option (item : Shape)
deriving DecidableEq, Repr

/-- The type of the values of a shape. -/
@[reducible] def Shape.Carrier : Shape → Type
  | unit => Unit
  | bound => Nat
  | flag => Bool
  | text => String
  | span => Span
  | ident => Ident
  | name => Name
  | primitive => PrimitiveType
  | typeKind => TypeKind
  | typeRef => TypeRef
  | numberKind => NumberKind
  | stringForm => StringForm
  | unaryOp => UnaryOp
  | binaryOp => BinaryOp
  | compareOp => CompareOp
  | assoc => Assoc
  | bindingKind => BindingKind
  | expr => Expr
  | exprKind | unaryFields | binaryFields | comparisonFields | callFields | pairFields
  | transitionFields => ExprKind
  | pairKey => PairKey
  | literal | numberFields => Literal
  | stringLiteral => StringLiteral
  | stringPart | hole => StringPart
  | block => Block
  | statement => Statement
  | statementKind | modFields | assignFields => StatementKind
  | useDecl => UseDecl
  | importDecl => ImportDecl
  | varDecl => VarDecl
  | fnDecl => FnDecl
  | fnBody => FnBody
  | param => Param
  | nodeDecl => NodeDecl
  | property => Property
  | typeDecl => TypeDecl
  | fieldDecl => FieldDecl
  | enumDecl => EnumDecl
  | enumMember => EnumMember
  | ifStmt => IfStmt
  | elseIf => ElseIf
  | forStmt => ForStmt
  | forHead | countedFields | iterateFields => ForHead
  | whenStmt => WhenStmt
  | whenCase => WhenCase
  | caseBody => CaseBody
  | program => Program
  | list item => List item.Carrier
  | option item => Option item.Carrier

/-- The names of the fields of a record, or of the data of a variant, in order. -/
def Shape.fieldNames : Shape → List String
  | .span => ["start", "end"]
  | .ident => ["text", "span"]
  | .name => ["relative", "segments", "span"]
  | .typeRef => ["kind", "span"]
  | .expr => ["kind", "span"]
  | .unaryFields => ["op", "operand"]
  | .binaryFields => ["op", "assoc", "left", "right"]
  | .comparisonFields => ["op", "assoc", "left", "right"]
  | .callFields => ["callee", "args", "body"]
  | .pairFields => ["key", "value"]
  | .transitionFields => ["src", "dst"]
  | .numberFields => ["kind", "raw"]
  | .stringLiteral => ["form", "parts", "span"]
  | .block => ["statements", "span"]
  | .statement => ["kind", "span"]
  | .modFields => ["name", "body"]
  | .assignFields => ["target", "value"]
  | .useDecl => ["path", "subs", "span"]
  | .importDecl => ["path", "args", "span"]
  | .varDecl => ["binding", "name", "ty", "value", "span"]
  | .fnDecl => ["name", "params", "ret", "body", "span"]
  | .param => ["name", "ty", "span"]
  | .nodeDecl => ["name", "props", "body", "span"]
  | .property => ["name", "ty", "span"]
  | .typeDecl => ["name", "fields", "span"]
  | .fieldDecl => ["name", "ty", "span"]
  | .enumDecl => ["name", "members", "span"]
  | .enumMember => ["name", "value", "span"]
  | .ifStmt => ["cond", "then", "else_ifs", "else", "span"]
  | .elseIf => ["cond", "then", "span"]
  | .forStmt => ["kind", "body", "span"]
  | .countedFields => ["init", "cond"]
  | .iterateFields => ["index", "name", "iterable"]
  | .whenStmt => ["init", "check", "cases", "else", "span"]
  | .whenCase => ["pattern", "body", "span"]
  | .program => ["statements", "span"]
  | _ => []

/-- The shapes for the data of a variant, where it has several parts. -/
def Shape.isVariantData : Shape → Bool
  | unaryFields | binaryFields | comparisonFields | callFields | pairFields | transitionFields
  | numberFields | modFields | assignFields | countedFields | iterateFields => true
  | _ => false

end Script
