import Script.Json.Read

/-!
What a JSON value keeps when it is read as a tree and written again. `Shape.toJson` writes a value
of each shape, and `Json.trim` goes through a JSON value along a shape: unknown fields are dropped,
and what is absent becomes `null`. A record that is given as the array of its fields gets their
names, and a variant without data that is given with `null` is its name alone.
-/
namespace Script

/-- The data of a variant. -/
def Json.untagged : Json → Json
  | .object [(_, data)] => data
  | j => j

namespace Shape

def toJson : (shape : Shape) → shape.Carrier → Json
  | unit => fun _ => .null
  | bound => Json.natural
  | flag => Json.bool
  | text => Json.string
  | span => Span.toJson
  | ident => Ident.toJson
  | name => Name.toJson
  | primitive => fun t => .string t.label
  | typeKind => TypeKind.toJson
  | typeRef => TypeRef.toJson
  | numberKind => NumberKind.toJson
  | stringForm => fun form => .string form.label
  | unaryOp => fun op => .string op.label
  | binaryOp => fun op => .string op.label
  | compareOp => fun op => .string op.label
  | assoc => fun a => .string a.label
  | bindingKind => fun b => .string b.label
  | expr => Expr.toJson
  | exprKind => ExprKind.toJson
  | unaryFields | binaryFields | comparisonFields | callFields | pairFields
  | transitionFields => fun e => e.toJson.untagged
  | pairKey => PairKey.toJson
  | literal => Literal.toJson
  | numberFields => fun l => l.toJson.untagged
  | stringLiteral => StringLiteral.toJson
  | stringPart => StringPart.toJson
  | hole => fun p => p.toJson.untagged
  | block => Block.toJson
  | statement => Statement.toJson
  | statementKind => StatementKind.toJson
  | modFields | assignFields => fun k => k.toJson.untagged
  | useDecl => UseDecl.toJson
  | importDecl => ImportDecl.toJson
  | varDecl => VarDecl.toJson
  | fnDecl => FnDecl.toJson
  | fnBody => FnBody.toJson
  | param => Param.toJson
  | nodeDecl => NodeDecl.toJson
  | property => Property.toJson
  | typeDecl => TypeDecl.toJson
  | fieldDecl => FieldDecl.toJson
  | enumDecl => EnumDecl.toJson
  | enumMember => EnumMember.toJson
  | ifStmt => IfStmt.toJson
  | elseIf => ElseIf.toJson
  | forStmt => ForStmt.toJson
  | forHead => ForHead.toJson
  | countedFields | iterateFields => fun h => h.toJson.untagged
  | whenStmt => WhenStmt.toJson
  | whenCase => WhenCase.toJson
  | caseBody => CaseBody.toJson
  | program => Program.toJson
  | list item => fun as => .array (as.map item.toJson)
  | option item => Json.optional item.toJson

/-- The fields of a record, or of the data of a variant, in order, each with its shape. -/
def parts : Shape → List (String × Shape)
  | span => [("start", bound), ("end", bound)]
  | ident => [("text", text), ("span", span)]
  | name => [("relative", flag), ("segments", list ident), ("span", span)]
  | typeRef => [("kind", typeKind), ("span", span)]
  | expr => [("kind", exprKind), ("span", span)]
  | unaryFields => [("op", unaryOp), ("operand", expr)]
  | binaryFields => [("op", binaryOp), ("assoc", assoc), ("left", expr), ("right", expr)]
  | comparisonFields => [("op", compareOp), ("assoc", assoc), ("left", expr), ("right", expr)]
  | callFields => [("callee", expr), ("args", list expr), ("body", option block)]
  | pairFields => [("key", pairKey), ("value", expr)]
  | transitionFields => [("src", name), ("dst", name)]
  | numberFields => [("kind", numberKind), ("raw", text)]
  | stringLiteral => [("form", stringForm), ("parts", list stringPart), ("span", span)]
  | block => [("statements", list statement), ("span", span)]
  | statement => [("kind", statementKind), ("span", span)]
  | modFields => [("name", name), ("body", block)]
  | assignFields => [("target", name), ("value", expr)]
  | useDecl => [("path", name), ("subs", list name), ("span", span)]
  | importDecl => [("path", name), ("args", option (list expr)), ("span", span)]
  | varDecl =>
    [("binding", bindingKind), ("name", ident), ("ty", option typeRef), ("value", expr),
      ("span", span)]
  | fnDecl =>
    [("name", name), ("params", list param), ("ret", option typeRef), ("body", fnBody),
      ("span", span)]
  | param => [("name", ident), ("ty", option typeRef), ("span", span)]
  | nodeDecl =>
    [("name", name), ("props", list property), ("body", option (list statement)), ("span", span)]
  | property => [("name", name), ("ty", option typeRef), ("span", span)]
  | typeDecl => [("name", ident), ("fields", list fieldDecl), ("span", span)]
  | fieldDecl => [("name", ident), ("ty", typeRef), ("span", span)]
  | enumDecl => [("name", ident), ("members", list enumMember), ("span", span)]
  | enumMember => [("name", ident), ("value", option expr), ("span", span)]
  | ifStmt =>
    [("cond", expr), ("then", block), ("else_ifs", list elseIf), ("else", option block),
      ("span", span)]
  | elseIf => [("cond", expr), ("then", block), ("span", span)]
  | forStmt => [("kind", forHead), ("body", block), ("span", span)]
  | countedFields => [("init", list varDecl), ("cond", option expr)]
  | iterateFields => [("index", option ident), ("name", ident), ("iterable", expr)]
  | whenStmt =>
    [("init", list varDecl), ("check", expr), ("cases", list whenCase), ("else", option caseBody),
      ("span", span)]
  | whenCase => [("pattern", expr), ("body", caseBody), ("span", span)]
  | program => [("statements", list statement), ("span", span)]
  | _ => []

/-- The shape of the data that a variant carries, if it carries any. -/
def variant? (shape : Shape) (tag : String) : Option Shape :=
  let variants : List (String × Shape) :=
    match shape with
    | typeKind => [("Primitive", primitive), ("Named", name)]
    | exprKind =>
      [("Name", name), ("Literal", literal), ("Unary", unaryFields), ("Binary", binaryFields),
        ("Comparison", comparisonFields), ("Call", callFields), ("Group", expr),
        ("Pair", pairFields), ("Object", list statement), ("Array", list expr),
        ("Transition", transitionFields), ("If", ifStmt), ("When", whenStmt)]
    | pairKey => [("Name", name), ("Str", stringLiteral)]
    | literal => [("Number", numberFields), ("Str", stringLiteral)]
    | stringPart => [("Text", text), ("Hole", hole)]
    | hole => [("Name", name), ("Expr", expr)]
    | statementKind =>
      [("Mod", modFields), ("Use", useDecl), ("Import", importDecl), ("Var", varDecl),
        ("Fn", fnDecl), ("Node", nodeDecl), ("Assign", assignFields), ("If", ifStmt),
        ("For", forStmt), ("When", whenStmt), ("Ui", block), ("Style", block),
        ("Type", typeDecl), ("Enum", enumDecl), ("Expr", expr)]
    | fnBody => [("Block", block), ("Expr", expr)]
    | forHead => [("Counted", countedFields), ("Iter", iterateFields)]
    | caseBody => [("Block", block), ("Arrow", statement)]
    | _ => []
  variants.lookup tag

/-- What is there, where it may be absent. -/
def base : Shape → Shape
  | option item => item
  | shape => shape

/-- The types of nodes. The other shapes are plain values, lists and the data of variants. -/
def isNode : Shape → Bool
  | unit | bound | flag | text | list _ | option _ => false
  | shape => !shape.isVariantData

/-- The values that a shape stands for. Holes share their type with the texts between them. -/
def Holds : (shape : Shape) → shape.Carrier → Prop
  | hole => fun p => ∀ text, p ≠ .text text
  | _ => fun _ => True

end Shape

namespace Json

/-- The items of a list, or the fields of a record in order. -/
def trimArray (items : List (Shape → Json)) : Shape → Json
  | .list item => .array (items.map (· item))
  | shape => .object (List.zipWith (fun part item => (part.1, item part.2)) shape.parts items)

/-- A field of a record, where one that is absent is `null`. -/
def trimField (fields : List (String × (Shape → Json))) (part : String × Shape) : Json :=
  ((fields.lookup part.1).map (· part.2)).getD .null

/-- A record without the fields that it does not know, or a variant. -/
def trimObject (fields : List (String × (Shape → Json))) (shape : Shape) : Json :=
  match shape.parts, fields with
  | [], [(tag, data)] =>
    match shape.variant? tag with
    | some carried => .tagged tag (data carried)
    | none => .string tag
  | parts, fields => .object (parts.map fun part => (part.1, trimField fields part))

mutual

def trim : Json → Shape → Json
  | .array items, shape => trimArray (trimItems items) shape.base
  | .object fields, shape => trimObject (trimFields fields) shape.base
  | j, _ => j

def trimItems : List Json → List (Shape → Json)
  | [] => []
  | j :: js => trim j :: trimItems js

def trimFields : List (String × Json) → List (String × (Shape → Json))
  | [] => []
  | (key, j) :: fields => (key, trim j) :: trimFields fields

end

def isLeaf : Json → Bool
  | .array _ | .object _ => false
  | _ => true

/-- The records in a value are given by the names of their fields, and the variants without data by
their names alone. -/
inductive ByName : Json → Shape → Prop
  | leaf {j : Json} {shape : Shape} (h : j.isLeaf = true) : ByName j shape
  | list {items : List Json} {shape item : Shape} (hs : shape.base = .list item)
      (h : ∀ j ∈ items, ByName j item) : ByName (.array items) shape
  | variant {tag : String} {data : Json} {shape carried : Shape}
      (hs : shape.base.variant? tag = some carried) (h : ByName data carried) :
      ByName (.object [(tag, data)]) shape
  | record {fields : List (String × Json)} {shape : Shape} (hs : shape.base.parts ≠ [])
      (h : ∀ part ∈ shape.base.parts, ∀ j, fields.lookup part.1 = some j → ByName j part.2) :
      ByName (.object fields) shape

/-- The second value is the first one without the fields that its records do not know, and with
`null` for the fields that may be absent and are. -/
inductive Pared : Shape → Json → Json → Prop
  | leaf {shape : Shape} {j : Json} (h : j.isLeaf = true) : Pared shape j j
  | list {shape item : Shape} {items : List Json} {pared : Json → Json}
      (hs : shape.base = .list item) (h : ∀ j ∈ items, Pared item j (pared j)) :
      Pared shape (.array items) (.array (items.map pared))
  | variant {shape carried : Shape} {tag : String} {data pared : Json}
      (hs : shape.base.variant? tag = some carried) (h : Pared carried data pared) :
      Pared shape (.object [(tag, data)]) (.object [(tag, pared)])
  | record {shape : Shape} {fields : List (String × Json)} {pared : String × Shape → Json}
      (hs : shape.base.parts ≠ [])
      (kept : ∀ part ∈ shape.base.parts, ∀ j, fields.lookup part.1 = some j →
        Pared part.2 j (pared part))
      (added : ∀ part ∈ shape.base.parts, fields.lookup part.1 = none →
        pared part = .null ∧ ∃ item, part.2 = .option item) :
      Pared shape (.object fields)
        (.object (shape.base.parts.map fun part => (part.1, pared part)))

mutual

/-- All numbers in a value are below 2^64. -/
def Bounded : Json → Prop
  | .natural n => n < UInt64.size
  | .array items => BoundedItems items
  | .object fields => BoundedFields fields
  | _ => True

def BoundedItems : List Json → Prop
  | [] => True
  | j :: js => j.Bounded ∧ BoundedItems js

def BoundedFields : List (String × Json) → Prop
  | [] => True
  | (_, j) :: fields => j.Bounded ∧ BoundedFields fields

end

end Json

end Script
