import Script.Tree.Basic

/-!
The canonical written form of a tree: two spaces for each level of a block, one statement a line,
and a comma and a space between the items of a list. `indent` is always the level of the block
around a node, and only the lines after its first are indented by it.
-/
namespace Script

/-- The blanks at the front of a line. -/
def Layout.margin (indent : Nat) : String := String.ofList (List.replicate (2 * indent) ' ')

/-- Statements in their written form, each on its own line inside braces. -/
def Layout.bracedLines (indent : Nat) (lines : List String) : String :=
  if lines.isEmpty then "\x7b\x7d"
  else
    "\x7b\n" ++ String.join (lines.map fun line => Layout.margin (indent + 1) ++ line ++ "\n")
      ++ Layout.margin indent ++ "\x7d"

def Layout.commaSeparated (items : List String) : String := ", ".intercalate items

/-- A blank and the written form of a type, if there is one. -/
def Layout.annotation (type : Option TypeRef) : String :=
  match type with
  | some t => " " ++ t.path
  | none => ""

def UseDecl.print (decl : UseDecl) : String :=
  "use " ++ decl.path.path ++
    if decl.subs.isEmpty then "" else ": " ++ Layout.commaSeparated (decl.subs.map Name.path)

def Param.print (param : Param) : String := param.name.text ++ Layout.annotation param.type

def Property.print (prop : Property) : String := prop.name.path ++ Layout.annotation prop.type

def TypeDecl.print (indent : Nat) (decl : TypeDecl) : String :=
  "type " ++ decl.name.text ++ " \x7b\n" ++
    String.join (decl.fields.map fun field =>
      Layout.margin (indent + 1) ++ field.name.text ++ ": " ++ field.type.path ++ "\n")
    ++ Layout.margin indent ++ "\x7d"

/-- Whether a text right after `$name` would be read as part of that name. -/
def Layout.continuesName (text : String) : Bool :=
  match text.toList with
  | c :: _ => Chars.isIdentPart c || c == '.'
  | [] => false

/-- A name in a hole: in braces where the text that follows would continue it. -/
def Name.printHole (name : Name) (next : List StringPart) : String :=
  match next with
  | .text text :: _ =>
    if Layout.continuesName text then "$\x7b" ++ name.path ++ "\x7d" else "$" ++ name.path
  | _ => "$" ++ name.path

mutual

def Expr.print (indent : Nat) : Expr → String
  | ⟨kind, _⟩ => kind.print indent

def ExprKind.print (indent : Nat) : ExprKind → String
  | .name name => name.path
  | .literal literal => literal.print indent
  | .unary op operand => op.symbol ++ operand.print indent
  | .binary op _ left right => left.print indent ++ " " ++ op.symbol ++ " " ++ right.print indent
  | .comparison op _ left right =>
    left.print indent ++ " " ++ op.symbol ++ " " ++ right.print indent
  | .call callee args body =>
    callee.print indent ++ "(" ++ Layout.commaSeparated (Expr.printEach indent args) ++ ")" ++
      Block.printTrailing indent body
  | .group inner => "(" ++ inner.print indent ++ ")"
  | .pair key value => key.print indent ++ ": " ++ value.print indent
  | .object entries =>
    "\x7b" ++ Layout.commaSeparated (Statement.printEach indent entries) ++ "\x7d"
  | .array items => "[" ++ Layout.commaSeparated (Expr.printEach indent items) ++ "]"
  | .transition source target => source.path ++ " -> " ++ target.path
  | .ifExpr stmt => stmt.print indent
  | .whenExpr stmt => stmt.print indent

def Expr.printEach (indent : Nat) : List Expr → List String
  | [] => []
  | e :: es => e.print indent :: Expr.printEach indent es

/-- The trailing block of a call, with the blank before it. -/
def Block.printTrailing (indent : Nat) : Option Block → String
  | none => ""
  | some block => " " ++ block.print indent

def PairKey.print (indent : Nat) : PairKey → String
  | .name name => name.path
  | .string literal => literal.print indent

def Literal.print (indent : Nat) : Literal → String
  | .number _ raw => raw
  | .string literal => literal.print indent
  | .bool true => "true"
  | .bool false => "false"
  | .null => "null"
  | .nil => "nil"

def StringLiteral.print (indent : Nat) : StringLiteral → String
  | ⟨form, parts, _⟩ =>
    String.ofList form.opener ++ StringPart.printEach form indent parts ++ String.ofList form.closer

def StringPart.printEach (form : StringForm) (indent : Nat) : List StringPart → String
  | [] => ""
  | part :: parts => part.print form indent parts ++ StringPart.printEach form indent parts

def StringPart.print (form : StringForm) (indent : Nat) (next : List StringPart) :
    StringPart → String
  | .text text => String.ofList (form.escape text.toList)
  | .nameHole name => Name.printHole name next
  | .exprHole expr => "$\x7b" ++ expr.print indent ++ "\x7d"

def Block.print (indent : Nat) : Block → String
  | ⟨statements, _⟩ => Layout.bracedLines indent (Statement.printEach (indent + 1) statements)

def Statement.print (indent : Nat) : Statement → String
  | ⟨kind, _⟩ => kind.print indent

def Statement.printEach (indent : Nat) : List Statement → List String
  | [] => []
  | s :: ss => s.print indent :: Statement.printEach indent ss

def StatementKind.print (indent : Nat) : StatementKind → String
  | .modDecl name body => "mod " ++ name.path ++ " " ++ body.print indent
  | .useDecl decl => decl.print
  | .importDecl decl => decl.print indent
  | .varDecl decl => decl.print indent
  | .fnDecl decl => decl.print indent
  | .nodeDecl decl => decl.print indent
  | .assign target value => target.path ++ " = " ++ value.print indent
  | .ifStmt stmt => stmt.print indent
  | .forStmt stmt => stmt.print indent
  | .whenStmt stmt => stmt.print indent
  | .uiBlock body => "ui " ++ body.print indent
  | .styleBlock body => "style " ++ body.print indent
  | .typeDecl decl => decl.print indent
  | .enumDecl decl => decl.print indent
  | .breakStmt => "break"
  | .expr expr => expr.print indent

def ImportDecl.print (indent : Nat) : ImportDecl → String
  | ⟨path, args, _⟩ => "import " ++ path.path ++ ImportDecl.printArgs indent args

/-- The argument list of an import, if it has one. -/
def ImportDecl.printArgs (indent : Nat) : Option (List Expr) → String
  | none => ""
  | some args => "(" ++ Layout.commaSeparated (Expr.printEach indent args) ++ ")"

def VarDecl.print (indent : Nat) : VarDecl → String
  | ⟨binding, name, type, value, _⟩ =>
    binding.word ++ " " ++ name.text ++ Layout.annotation type ++ " = " ++ value.print indent

/-- The bindings at the front of a head, each with its semicolon. -/
def VarDecl.printInit (indent : Nat) : List VarDecl → String
  | [] => ""
  | decl :: decls => decl.print indent ++ "; " ++ VarDecl.printInit indent decls

def FnDecl.print (indent : Nat) : FnDecl → String
  | ⟨name, params, result, body, _⟩ =>
    "fn " ++ name.path ++ "(" ++ Layout.commaSeparated (params.map Param.print) ++ ")" ++
      Layout.annotation result ++ body.print indent

def FnBody.print (indent : Nat) : FnBody → String
  | .block block => " " ++ block.print indent
  | .expr expr => " = " ++ expr.print indent

def NodeDecl.print (indent : Nat) : NodeDecl → String
  | ⟨name, props, body, _⟩ =>
    "node " ++ name.path ++ "(" ++ Layout.commaSeparated (props.map Property.print) ++ ")" ++
      NodeDecl.printBody indent body

def NodeDecl.printBody (indent : Nat) : Option (List Statement) → String
  | none => ""
  | some entries => " " ++ Layout.bracedLines indent (Statement.printEach (indent + 1) entries)

def EnumDecl.print (indent : Nat) : EnumDecl → String
  | ⟨name, members, _⟩ =>
    "enum " ++ name.text ++ " \x7b\n" ++ EnumMember.printLines (indent + 1) members ++
      Layout.margin indent ++ "\x7d"

def EnumMember.printLines (indent : Nat) : List EnumMember → String
  | [] => ""
  | m :: ms => Layout.margin indent ++ m.print indent ++ "\n" ++ EnumMember.printLines indent ms

def EnumMember.print (indent : Nat) : EnumMember → String
  | ⟨name, none, _⟩ => name.text
  | ⟨name, some value, _⟩ => name.text ++ " = " ++ value.print indent

def IfStmt.print (indent : Nat) : IfStmt → String
  | ⟨condition, body, elseIfs, elseBody, _⟩ =>
    "if " ++ condition.print indent ++ " " ++ body.print indent ++
      ElseIf.printEach indent elseIfs ++ Block.printElse indent elseBody

def ElseIf.printEach (indent : Nat) : List ElseIf → String
  | [] => ""
  | e :: es => e.print indent ++ ElseIf.printEach indent es

def ElseIf.print (indent : Nat) : ElseIf → String
  | ⟨condition, body, _⟩ => " else if " ++ condition.print indent ++ " " ++ body.print indent

def Block.printElse (indent : Nat) : Option Block → String
  | none => ""
  | some block => " else " ++ block.print indent

def ForStmt.print (indent : Nat) : ForStmt → String
  | ⟨head, body, _⟩ => "for " ++ head.print indent ++ body.print indent

def ForHead.print (indent : Nat) : ForHead → String
  | .counted init none => VarDecl.printInit indent init
  | .counted init (some condition) => VarDecl.printInit indent init ++ condition.print indent ++ " "
  | .iterate index name iterable =>
    (match index with | some i => i.text ++ ", " | none => "") ++
      name.text ++ " in " ++ iterable.print indent ++ " "

def WhenStmt.print (indent : Nat) : WhenStmt → String
  | ⟨init, subject, cases, elseBody, _⟩ =>
    "when " ++ VarDecl.printInit indent init ++ subject.print indent ++ " \x7b\n" ++
      WhenCase.printLines (indent + 1) cases ++ CaseBody.printElse (indent + 1) elseBody ++
      Layout.margin indent ++ "\x7d"

def WhenCase.printLines (indent : Nat) : List WhenCase → String
  | [] => ""
  | c :: cs => Layout.margin indent ++ c.print indent ++ "\n" ++ WhenCase.printLines indent cs

def WhenCase.print (indent : Nat) : WhenCase → String
  | ⟨pattern, body, _⟩ => "is " ++ pattern.print indent ++ " " ++ body.print indent

def CaseBody.printElse (indent : Nat) : Option CaseBody → String
  | none => ""
  | some body => Layout.margin indent ++ "else " ++ body.print indent ++ "\n"

def CaseBody.print (indent : Nat) : CaseBody → String
  | .block block => block.print indent
  | .arrow statement => "-> " ++ statement.print indent

end

def Program.print (indent : Nat) (program : Program) : String :=
  "\n".intercalate ((Statement.printEach indent program.statements).map (Layout.margin indent ++ ·))

end Script
