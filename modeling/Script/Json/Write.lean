import Script.Json.Value
import Script.Tree.Basic

/-!
Trees as JSON values. A record is an object of its fields in order, with `null` for what is absent;
a variant without data is its name, and one with data an object whose only key is its name.
-/
namespace Script

/-- A variant with its data. -/
def Json.tagged (tag : String) (data : Json) : Json := .object [(tag, data)]

def Span.toJson (s : Span) : Json :=
  .object [("start", .natural s.start), ("end", .natural s.stop)]

def Ident.toJson (i : Ident) : Json :=
  .object [("text", .string i.text), ("span", i.span.toJson)]

def Name.toJson (n : Name) : Json :=
  .object [("relative", .bool n.relative), ("segments", .array (n.segments.map Ident.toJson)),
    ("span", n.span.toJson)]

def NumberKind.toJson (k : NumberKind) : Json := .string k.name

/-- The name under which a tree in JSON form shows a built-in type. -/
def PrimitiveType.label : PrimitiveType → String
  | int => "Int"
  | uint => "Uint"
  | i8 => "I8"
  | i16 => "I16"
  | i32 => "I32"
  | i64 => "I64"
  | u8 => "U8"
  | u16 => "U16"
  | u32 => "U32"
  | u64 => "U64"
  | float => "Float"
  | double => "Double"
  | f32 => "F32"
  | f64 => "F64"
  | bool => "Bool"
  | str => "Str"
  | char => "Char"
  | byte => "Byte"
  | void => "Void"

def TypeKind.toJson : TypeKind → Json
  | .primitive type => .tagged "Primitive" (.string type.label)
  | .named name => .tagged "Named" name.toJson

def TypeRef.toJson (t : TypeRef) : Json :=
  .object [("kind", t.kind.toJson), ("span", t.span.toJson)]

def StringForm.label : StringForm → String
  | double => "Double"
  | single => "Single"
  | multiline => "Multiline"
  | formatted => "Formatted"
  | formattedTriple => "FormattedTriple"
  | formattedTick => "FormattedTick"

def UnaryOp.label : UnaryOp → String
  | not => "Not"
  | neg => "Neg"
  | plus => "Plus"

def BinaryOp.label : BinaryOp → String
  | add => "Add"
  | sub => "Sub"
  | mul => "Mul"
  | div => "Div"

def CompareOp.label : CompareOp → String
  | eq => "Eq"
  | ne => "Ne"
  | lt => "Lt"
  | le => "Le"
  | gt => "Gt"
  | ge => "Ge"

def Assoc.label : Assoc → String
  | left => "Left"
  | right => "Right"

def BindingKind.label : BindingKind → String
  | varBinding => "Var"
  | letBinding => "Let"

/-- What may be absent. -/
def Json.optional {α : Type} (toJson : α → Json) : Option α → Json
  | none => .null
  | some a => toJson a

def UseDecl.toJson (d : UseDecl) : Json :=
  .object [("path", d.path.toJson), ("subs", .array (d.subs.map Name.toJson)),
    ("span", d.span.toJson)]

def Param.toJson (p : Param) : Json :=
  .object [("name", p.name.toJson), ("ty", .optional TypeRef.toJson p.type),
    ("span", p.span.toJson)]

def Property.toJson (p : Property) : Json :=
  .object [("name", p.name.toJson), ("ty", .optional TypeRef.toJson p.type),
    ("span", p.span.toJson)]

def FieldDecl.toJson (f : FieldDecl) : Json :=
  .object [("name", f.name.toJson), ("ty", f.type.toJson), ("span", f.span.toJson)]

def TypeDecl.toJson (d : TypeDecl) : Json :=
  .object [("name", d.name.toJson), ("fields", .array (d.fields.map FieldDecl.toJson)),
    ("span", d.span.toJson)]

mutual

def Expr.toJson : Expr → Json
  | ⟨kind, span⟩ => .object [("kind", kind.toJson), ("span", span.toJson)]

def ExprKind.toJson : ExprKind → Json
  | .name name => .tagged "Name" name.toJson
  | .literal literal => .tagged "Literal" literal.toJson
  | .unary op operand =>
    .tagged "Unary" (.object [("op", .string op.label), ("operand", operand.toJson)])
  | .binary op assoc left right =>
    .tagged "Binary" (.object [("op", .string op.label), ("assoc", .string assoc.label),
      ("left", left.toJson), ("right", right.toJson)])
  | .comparison op assoc left right =>
    .tagged "Comparison" (.object [("op", .string op.label), ("assoc", .string assoc.label),
      ("left", left.toJson), ("right", right.toJson)])
  | .call callee args body =>
    .tagged "Call" (.object [("callee", callee.toJson), ("args", .array (Expr.listToJson args)),
      ("body", Block.optToJson body)])
  | .group inner => .tagged "Group" inner.toJson
  | .pair key value => .tagged "Pair" (.object [("key", key.toJson), ("value", value.toJson)])
  | .object entries => .tagged "Object" (.array (Statement.listToJson entries))
  | .array items => .tagged "Array" (.array (Expr.listToJson items))
  | .transition source target =>
    .tagged "Transition" (.object [("src", source.toJson), ("dst", target.toJson)])
  | .ifExpr stmt => .tagged "If" stmt.toJson
  | .whenExpr stmt => .tagged "When" stmt.toJson

def Expr.listToJson : List Expr → List Json
  | [] => []
  | e :: es => e.toJson :: Expr.listToJson es

def Expr.optToJson : Option Expr → Json
  | none => .null
  | some e => e.toJson

def Expr.optListToJson : Option (List Expr) → Json
  | none => .null
  | some es => .array (Expr.listToJson es)

def PairKey.toJson : PairKey → Json
  | .name name => .tagged "Name" name.toJson
  | .string literal => .tagged "Str" literal.toJson

def Literal.toJson : Literal → Json
  | .number kind raw => .tagged "Number" (.object [("kind", kind.toJson), ("raw", .string raw)])
  | .string literal => .tagged "Str" literal.toJson
  | .bool true => .string "True"
  | .bool false => .string "False"
  | .null => .string "Null"
  | .nil => .string "Nil"

def StringLiteral.toJson : StringLiteral → Json
  | ⟨form, parts, span⟩ =>
    .object [("form", .string form.label), ("parts", .array (StringPart.listToJson parts)),
      ("span", span.toJson)]

def StringPart.toJson : StringPart → Json
  | .text text => .tagged "Text" (.string text)
  | .nameHole name => .tagged "Hole" (.tagged "Name" name.toJson)
  | .exprHole expr => .tagged "Hole" (.tagged "Expr" expr.toJson)

def StringPart.listToJson : List StringPart → List Json
  | [] => []
  | p :: ps => p.toJson :: StringPart.listToJson ps

def Block.toJson : Block → Json
  | ⟨statements, span⟩ =>
    .object [("statements", .array (Statement.listToJson statements)), ("span", span.toJson)]

def Block.optToJson : Option Block → Json
  | none => .null
  | some block => block.toJson

def Statement.toJson : Statement → Json
  | ⟨kind, span⟩ => .object [("kind", kind.toJson), ("span", span.toJson)]

def Statement.listToJson : List Statement → List Json
  | [] => []
  | s :: ss => s.toJson :: Statement.listToJson ss

def Statement.optListToJson : Option (List Statement) → Json
  | none => .null
  | some ss => .array (Statement.listToJson ss)

def StatementKind.toJson : StatementKind → Json
  | .modDecl name body => .tagged "Mod" (.object [("name", name.toJson), ("body", body.toJson)])
  | .useDecl decl => .tagged "Use" decl.toJson
  | .importDecl decl => .tagged "Import" decl.toJson
  | .varDecl decl => .tagged "Var" decl.toJson
  | .fnDecl decl => .tagged "Fn" decl.toJson
  | .nodeDecl decl => .tagged "Node" decl.toJson
  | .assign target value =>
    .tagged "Assign" (.object [("target", target.toJson), ("value", value.toJson)])
  | .ifStmt stmt => .tagged "If" stmt.toJson
  | .forStmt stmt => .tagged "For" stmt.toJson
  | .whenStmt stmt => .tagged "When" stmt.toJson
  | .uiBlock body => .tagged "Ui" body.toJson
  | .styleBlock body => .tagged "Style" body.toJson
  | .typeDecl decl => .tagged "Type" decl.toJson
  | .enumDecl decl => .tagged "Enum" decl.toJson
  | .breakStmt => .string "Break"
  | .expr expr => .tagged "Expr" expr.toJson

def ImportDecl.toJson : ImportDecl → Json
  | ⟨path, args, span⟩ =>
    .object [("path", path.toJson), ("args", Expr.optListToJson args), ("span", span.toJson)]

def VarDecl.toJson : VarDecl → Json
  | ⟨binding, name, type, value, span⟩ =>
    .object [("binding", .string binding.label), ("name", name.toJson),
      ("ty", .optional TypeRef.toJson type), ("value", value.toJson), ("span", span.toJson)]

def VarDecl.listToJson : List VarDecl → List Json
  | [] => []
  | d :: ds => d.toJson :: VarDecl.listToJson ds

def FnDecl.toJson : FnDecl → Json
  | ⟨name, params, result, body, span⟩ =>
    .object [("name", name.toJson), ("params", .array (params.map Param.toJson)),
      ("ret", .optional TypeRef.toJson result), ("body", body.toJson), ("span", span.toJson)]

def FnBody.toJson : FnBody → Json
  | .block block => .tagged "Block" block.toJson
  | .expr expr => .tagged "Expr" expr.toJson

def NodeDecl.toJson : NodeDecl → Json
  | ⟨name, props, body, span⟩ =>
    .object [("name", name.toJson), ("props", .array (props.map Property.toJson)),
      ("body", Statement.optListToJson body), ("span", span.toJson)]

def EnumDecl.toJson : EnumDecl → Json
  | ⟨name, members, span⟩ =>
    .object [("name", name.toJson), ("members", .array (EnumMember.listToJson members)),
      ("span", span.toJson)]

def EnumMember.toJson : EnumMember → Json
  | ⟨name, value, span⟩ =>
    .object [("name", name.toJson), ("value", Expr.optToJson value), ("span", span.toJson)]

def EnumMember.listToJson : List EnumMember → List Json
  | [] => []
  | m :: ms => m.toJson :: EnumMember.listToJson ms

def IfStmt.toJson : IfStmt → Json
  | ⟨condition, body, elseIfs, elseBody, span⟩ =>
    .object [("cond", condition.toJson), ("then", body.toJson),
      ("else_ifs", .array (ElseIf.listToJson elseIfs)), ("else", Block.optToJson elseBody),
      ("span", span.toJson)]

def ElseIf.toJson : ElseIf → Json
  | ⟨condition, body, span⟩ =>
    .object [("cond", condition.toJson), ("then", body.toJson), ("span", span.toJson)]

def ElseIf.listToJson : List ElseIf → List Json
  | [] => []
  | e :: es => e.toJson :: ElseIf.listToJson es

def ForStmt.toJson : ForStmt → Json
  | ⟨head, body, span⟩ =>
    .object [("kind", head.toJson), ("body", body.toJson), ("span", span.toJson)]

def ForHead.toJson : ForHead → Json
  | .counted init condition =>
    .tagged "Counted" (.object [("init", .array (VarDecl.listToJson init)),
      ("cond", Expr.optToJson condition)])
  | .iterate index name iterable =>
    .tagged "Iter" (.object [("index", .optional Ident.toJson index), ("name", name.toJson),
      ("iterable", iterable.toJson)])

def WhenStmt.toJson : WhenStmt → Json
  | ⟨init, subject, cases, elseBody, span⟩ =>
    .object [("init", .array (VarDecl.listToJson init)), ("check", subject.toJson),
      ("cases", .array (WhenCase.listToJson cases)), ("else", CaseBody.optToJson elseBody),
      ("span", span.toJson)]

def WhenCase.toJson : WhenCase → Json
  | ⟨pattern, body, span⟩ =>
    .object [("pattern", pattern.toJson), ("body", body.toJson), ("span", span.toJson)]

def WhenCase.listToJson : List WhenCase → List Json
  | [] => []
  | c :: cs => c.toJson :: WhenCase.listToJson cs

def CaseBody.toJson : CaseBody → Json
  | .block block => .tagged "Block" block.toJson
  | .arrow statement => .tagged "Arrow" statement.toJson

def CaseBody.optToJson : Option CaseBody → Json
  | none => .null
  | some body => body.toJson

end

def Program.toJson (p : Program) : Json :=
  .object [("statements", .array (Statement.listToJson p.statements)), ("span", p.span.toJson)]

end Script
